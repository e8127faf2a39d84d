import CloudServer.Packing

/-! The header entries that are really in a container. The chunk count in front of a
container file is not asked: entries are taken until they and the data that they describe
account for all bytes of the file. So a container whose count started from stale memory
has the entries that were written to it. -/
namespace CloudServer
namespace HeaderEntries

open ByteMemory StorageCore ContainerFormat Packing

def memoryLengths (c : InmemoryContainer) : List ℕ :=
  (List.range (c.currentHeaderSize/entrySize)).map fun j =>
    beWord c.header (j*entrySize+chunkHashSize+4)

/-- The lengths in the entries from the `j`-th on, while `left` bytes of the file belong
to none of the entries before. -/
def lengthsFrom (m : Mem UInt8) : ℕ → ℕ → ℕ → List ℕ
  | 0, _, _ => []
  | fuel+1, j, left =>
    if left = 0 then []
    else
      let length := beWord m (4+j*entrySize+chunkHashSize+4)
      length::lengthsFrom m fuel (j+1) (left-(entrySize+length))

def fileLengths (content : Bytes) : List ℕ :=
  lengthsFrom (write (fun _ => 0) 0 content) content.length 0 (content.length-4)

/-- The container in memory has the entries `ps`, whatever its chunk count. -/
def Laid (c : InmemoryContainer) (ps : List Pair) : Prop := Packed { c with chunkNum := ps.length } ps

structure Handed (c : Container) (ps : List Pair) : Prop where
  hashed : Hashed ps
  room : (image ps).length < maxContainerSize
  body : ∃ n, c.body = beBytes n ++ (headerOf 0 ps ++ bodyOf ps)
  currentSize : c.currentSize = c.body.length

theorem laid_of_empty {c : InmemoryContainer} (hb : c.currentBodySize = 0)
    (hh : c.currentHeaderSize = 0) : Laid c [] :=
  packed_of_empty hb hh rfl

theorem laid_append {c : InmemoryContainer} {ps : List Pair} (hc : Laid c ps)
    {chunkHash data : Bytes} (hash : chunkHash.length = chunkHashSize)
    (hd : Fits data.length) (hfit : overflows data.length c = false) :
    Laid (appendChunk chunkHash data c) (ps ++ [(chunkHash,data)]) := by
  have hnext := packed_append hc hash hd hfit
  unfold Laid
  rw [← hnext.chunkNum]
  exact hnext

theorem saveChunk_laid (uuid : ℕ → Bytes) (drawn : ℕ) {cl : ClientVar} {ps : List Pair} {p : Pair}
    (hc : Laid cl.curContainer ps) (hash : p.1.length = chunkHashSize) (hd : Fits p.2.length) :
    ∃ c, (saveChunk uuid drawn cl p.1 p.2 = ⟨⟨c,cl.inputMQ⟩,drawn,cl.curContainer.containerID⟩ ∧
        c.containerID = cl.curContainer.containerID ∧ Laid c (ps ++ [p])) ∨
      (saveChunk uuid drawn cl p.1 p.2 =
          ⟨⟨c,cl.inputMQ ++ [ocallWriteContainer cl.curContainer]⟩,drawn+1,uuid drawn⟩ ∧
        c.containerID = uuid drawn ∧ Laid c [p]) := by
  rcases saveChunk_cases uuid drawn cl p.1 p.2 with ⟨hfit,hs⟩ | ⟨_,hs⟩
  · exact ⟨_,Or.inl ⟨hs,rfl,laid_append hc hash hd hfit⟩⟩
  · have hreset := packed_reset (uuid drawn) cl.curContainer
    have hempty := not_overflows_of_empty hreset.toCounted rfl rfl hd
    exact ⟨_,Or.inr ⟨hs,rfl,laid_append (laid_of_empty rfl rfl) hash hd hempty⟩⟩

theorem handed_of_laid {c : InmemoryContainer} {ps : List Pair} (hc : Laid c ps) :
    Handed (ocallWriteContainer c) ps := by
  have hseal := ocallWriteContainer_packed hc
  simp only [ocallWriteContainer,sealed,image,List.append_assoc,Container.mk.injEq,true_and] at hseal
  refine ⟨hc.hashed,by rw [image_length_packed hc]; exact hc.room,⟨c.chunkNum,?_⟩,?_⟩
  · rw [ocallWriteContainer,List.append_assoc]
    exact congrArg (beBytes c.chunkNum ++ ·) (List.append_cancel_left hseal.1)
  · have hroom := hc.room
    simp only [maxContainerSize] at hroom
    simp only [ocallWriteContainer,List.length_append,beBytes_length,read_length]
    exact u32_of_lt (by omega)

theorem memoryLengths_laid {c : InmemoryContainer} {ps : List Pair} (hc : Laid c ps) :
    memoryLengths c = ps.map fun p => p.2.length := by
  rw [← headerEntries_packed hc]
  simp [memoryLengths,headerEntries,Function.comp_def]

/-- The walk over the rest of the entries, which take up the rest of the bytes. -/
theorem lengthsFrom_header {m : Mem UInt8} (pre : List Pair) {post : List Pair} (h : Hashed (pre++post))
    (hm : Holds m 4 (headerOf 0 (pre++post))) (hs : (bodyOf (pre++post)).length < 2^32) {fuel : ℕ}
    (hfuel : post.length ≤ fuel) :
    lengthsFrom m fuel pre.length (entrySize*post.length+(bodyOf post).length) =
      post.map fun p => p.2.length := by
  induction post generalizing pre fuel with
  | nil =>
    cases fuel <;> simp [lengthsFrom]
  | cons p post ih =>
    obtain ⟨f,rfl⟩ : ∃ f, fuel = f+1 := ⟨fuel-1,by simp at hfuel; omega⟩
    have hlen : p.2.length < 2^32 := by
      simp only [bodyOf_append,bodyOf_cons,List.length_append] at hs
      omega
    have hfield := (header_fields h hm).2.2
    rw [u32_of_lt hlen] at hfield
    have hassoc : pre ++ p::post = (pre ++ [p]) ++ post := by simp
    have hrest := ih (pre ++ [p]) (hassoc ▸ h) (hassoc ▸ hm) (hassoc ▸ hs)
      (show post.length ≤ f by simpa using hfuel)
    have hleft : entrySize*(p::post).length+(bodyOf (p::post)).length-(entrySize+p.2.length) =
        entrySize*post.length+(bodyOf post).length := by
      simp only [List.length_cons,bodyOf_cons,List.length_append,entrySize,chunkHashSize]
      omega
    have hne : entrySize*(p::post).length+(bodyOf (p::post)).length ≠ 0 := by
      simp [entrySize]
    rw [lengthsFrom,if_neg hne]
    simp only [hfield,hleft,List.map_cons]
    rw [List.length_append,List.length_singleton] at hrest
    rw [hrest]

theorem written_handed {c : Container} {ps : List Pair} (hc : Handed c ps) : c.written = c.body := by
  rw [Container.written,hc.currentSize,List.take_length]

theorem length_handed {c : Container} {ps : List Pair} (hc : Handed c ps) :
    c.body.length = 4+entrySize*ps.length+(bodyOf ps).length := by
  obtain ⟨n,hbody⟩ := hc.body
  rw [hbody,List.length_append,List.length_append,beBytes_length,headerOf_length 0 hc.hashed]
  omega

theorem written_pos {c : Container} {ps : List Pair} (hc : Handed c ps) : 0 < c.written.length := by
  rw [written_handed hc,length_handed hc]
  omega

theorem fileLengths_handed {c : Container} {ps : List Pair} (hc : Handed c ps) :
    fileLengths c.written = ps.map fun p => p.2.length := by
  have hlen := length_handed hc
  have hroom := hc.room
  rw [image_length hc.hashed,maxContainerSize] at hroom
  obtain ⟨n,hbody⟩ := hc.body
  have hholds := holds_write_self (fun _ => 0) 0 c.body
  nth_rewrite 2 [hbody] at hholds
  have hheader := ((holds_append _ _ _ _).mp ((holds_append _ _ _ _).mp hholds).2).1
  have hwalk := lengthsFrom_header [] hc.hashed hheader
    (by simp only [List.nil_append]; omega)
    (show ps.length ≤ c.body.length by rw [hlen,entrySize,chunkHashSize]; omega)
  rw [fileLengths,written_handed hc]
  rw [show c.body.length-4 = entrySize*ps.length+(bodyOf ps).length by omega]
  exact hwalk

end HeaderEntries
end CloudServer
