import CloudServer.StorageCore

/-! The layout of a container file. `image ps` lists the chunk count, one header
entry for each (hash, data) pair of `ps`, then the data. The offset in an entry is
relative to the data; a reader rebases it by the size of the header. -/
namespace CloudServer
namespace ContainerFormat

open ByteMemory StorageCore

abbrev Pair := Bytes × Bytes

def headerOf : ℕ → List Pair → Bytes
  | _, [] => []
  | off, p::ps => p.1 ++ (beBytes off ++ (beBytes p.2.length ++ headerOf (off+p.2.length) ps))

def bodyOf (ps : List Pair) : Bytes := ps.flatMap Prod.snd

def image (ps : List Pair) : Bytes := beBytes ps.length ++ (headerOf 0 ps ++ bodyOf ps)

def Hashed (ps : List Pair) : Prop := ∀ p ∈ ps, p.1.length = chunkHashSize

@[simp] theorem bodyOf_nil : bodyOf [] = [] := rfl
@[simp] theorem bodyOf_cons (p : Pair) (ps : List Pair) : bodyOf (p::ps) = p.2 ++ bodyOf ps := rfl
@[simp] theorem bodyOf_append (a b : List Pair) : bodyOf (a++b) = bodyOf a ++ bodyOf b := by
  simp [bodyOf]

theorem hashed_append {a b : List Pair} : Hashed (a++b) ↔ Hashed a ∧ Hashed b := by
  simp [Hashed,or_imp,forall_and]

theorem hashed_cons {p : Pair} {ps : List Pair} :
    Hashed (p::ps) ↔ p.1.length = chunkHashSize ∧ Hashed ps := by
  simp [Hashed]

theorem headerOf_append (off : ℕ) (a b : List Pair) :
    headerOf off (a++b) = headerOf off a ++ headerOf (off+(bodyOf a).length) b := by
  induction a generalizing off with
  | nil => simp [headerOf]
  | cons p ps ih => simp [headerOf,ih,Nat.add_assoc]

theorem headerOf_length (off : ℕ) {ps : List Pair} (h : Hashed ps) :
    (headerOf off ps).length = entrySize*ps.length := by
  induction ps generalizing off with
  | nil => rfl
  | cons p ps ih =>
    obtain ⟨hp,hps⟩ := hashed_cons.mp h
    simp only [headerOf,List.length_append,beBytes_length,ih _ hps,hp,List.length_cons,entrySize]
    ring

theorem image_length {ps : List Pair} (h : Hashed ps) :
    (image ps).length = 4+entrySize*ps.length+(bodyOf ps).length := by
  simp only [image,List.length_append,beBytes_length,headerOf_length 0 h]
  omega

theorem intToSize_of_lt {n : ℕ} (h : n < 2^31) : intToSize n = n := if_pos h

variable {m : Mem UInt8} {ps : List Pair}

theorem chunkCount_image (h : Hashed ps) (hs : (image ps).length < 2^31)
    (hm : Holds m 0 (image ps)) : chunkCount m = ps.length := by
  have hn : ps.length < 2^31 := by
    rw [image_length h,entrySize,chunkHashSize] at hs
    omega
  have hword := beWord_of_holds ((holds_append m 0 _ _).mp hm).1
  rw [chunkCount,hword,u32_of_lt (by omega),intToSize_of_lt hn]

theorem header_fields {base : ℕ} {pre post : List Pair} {p : Pair} (h : Hashed (pre ++ p::post))
    (hm : Holds m base (headerOf 0 (pre ++ p::post))) :
    read m (base+pre.length*entrySize) chunkHashSize = p.1 ∧
      beWord m (base+pre.length*entrySize+chunkHashSize) = u32 (bodyOf pre).length ∧
      beWord m (base+pre.length*entrySize+chunkHashSize+4) = u32 p.2.length := by
  obtain ⟨hpre,hpost⟩ := hashed_append.mp h
  have hp := (hashed_cons.mp hpost).1
  rw [headerOf_append,headerOf,Nat.zero_add] at hm
  have hentry := ((holds_append m _ _ _).mp hm).2
  rw [headerOf_length 0 hpre,Nat.mul_comm] at hentry
  obtain ⟨hhash,hrest⟩ := (holds_append m _ _ _).mp hentry
  obtain ⟨hoff,hrest⟩ := (holds_append m _ _ _).mp hrest
  have hlen := ((holds_append m _ _ _).mp hrest).1
  rw [hp] at hoff hlen
  refine ⟨?_,beWord_of_holds hoff,beWord_of_holds hlen⟩
  rw [← hp]
  exact hhash

theorem body_data {base : ℕ} {pre post : List Pair} {p : Pair}
    (hm : Holds m base (bodyOf (pre ++ p::post))) :
    read m (base+(bodyOf pre).length) p.2.length = p.2 := by
  rw [bodyOf_append,bodyOf_cons] at hm
  exact ((holds_append m _ _ _).mp ((holds_append m _ _ _).mp hm).2).1

/-- Every header entry of an image leads the reader to the entry's own data. -/
theorem restoreEntry_image {pre post : List Pair} {p : Pair} (hps : ps = pre ++ p::post)
    (h : Hashed ps) (hs : (image ps).length < 2^31) (hm : Holds m 0 (image ps)) :
    (restoreEntry m pre.length).1 = p.1 ∧
      read m (restoreEntry m pre.length).2.offset (restoreEntry m pre.length).2.length = p.2 := by
  have hcount := chunkCount_image h hs hm
  have hlen := image_length h
  have hbody : (bodyOf ps).length = (bodyOf pre).length+p.2.length+(bodyOf post).length := by
    simp [hps]
    omega
  obtain ⟨hheader,hdata⟩ := (holds_append m _ _ _).mp ((holds_append m 0 _ _).mp hm).2
  rw [beBytes_length,headerOf_length 0 h] at hdata
  rw [beBytes_length,hps] at hheader
  rw [hps] at hdata
  have hbytes := body_data hdata
  rw [← hps] at hbytes
  obtain ⟨hhash,hoff,hlength⟩ := header_fields (hps ▸ h) hheader
  rw [u32_of_lt (by omega)] at hoff hlength
  simp only [restoreEntry,Nat.zero_add] at hhash hoff hlength hbytes ⊢
  refine ⟨hhash,?_⟩
  rw [hoff,hlength,hcount]
  simp only [entrySize,chunkHashSize] at hlen hbytes ⊢
  have hplace : (bodyOf pre).length+ps.length*(32+8)+4 = 4+(32+8)*ps.length+(bodyOf pre).length := by
    omega
  rw [hplace,u32_of_lt (by omega)]
  exact hbytes

theorem split_at {j : ℕ} (hj : j < ps.length) : ps = ps.take j ++ ps[j]::ps.drop (j+1) := by
  rw [← List.drop_eq_getElem_cons hj,List.take_append_drop]

/-- A region that starts with an image is read back as exactly its pairs, in order,
whatever stale bytes follow the image. -/
theorem listChunks_image (h : Hashed ps) (hs : (image ps).length < 2^31)
    (hm : Holds m 0 (image ps)) : listChunks m = ps := by
  have hcount := chunkCount_image h hs hm
  apply List.ext_getElem
  · simp [listChunks,restoreEntries,hcount]
  · intro j hj hps
    have hentry := restoreEntry_image (split_at hps) h hs hm
    rw [List.length_take,Nat.min_eq_left (Nat.le_of_lt hps)] at hentry
    simp only [listChunks,restoreEntries,List.getElem_map,List.getElem_range]
    exact Prod.ext hentry.1 hentry.2

end ContainerFormat
end CloudServer
