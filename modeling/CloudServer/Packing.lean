import CloudServer.ContainerFormat

/-! Runs of `SaveChunk`. `Counted` is the agreement of the three counters, `Packed`
adds the content of the two arrays. One call either appends to the current
container or seals it and starts the next one; a session is an induction over its
chunks that collects the sealed groups. -/
namespace CloudServer
namespace Packing

open ByteMemory StorageCore ContainerFormat

/-- Counters that agree, with room for the chunk count in front. -/
structure Counted (c : InmemoryContainer) : Prop where
  headerSize : c.currentHeaderSize = entrySize*c.chunkNum
  room : 4+c.currentHeaderSize+c.currentBodySize < maxContainerSize

/-- The container in memory stores exactly the pairs `ps`. -/
structure Packed (c : InmemoryContainer) (ps : List Pair) : Prop extends Counted c where
  hashed : Hashed ps
  chunkNum : c.chunkNum = ps.length
  bodySize : c.currentBodySize = (bodyOf ps).length
  header : Holds c.header 0 (headerOf 0 ps)
  body : Holds c.body 0 (bodyOf ps)

theorem counted_of_empty {c : InmemoryContainer} (hb : c.currentBodySize = 0)
    (hh : c.currentHeaderSize = 0) (hn : c.chunkNum = 0) : Counted c :=
  ⟨by rw [hh,hn,Nat.mul_zero],by rw [hh,hb]; decide⟩

theorem packed_of_empty {c : InmemoryContainer} (hb : c.currentBodySize = 0)
    (hh : c.currentHeaderSize = 0) (hn : c.chunkNum = 0) : Packed c [] where
  toCounted := counted_of_empty hb hh hn
  hashed := by simp [Hashed]
  chunkNum := hn
  bodySize := hb
  header := holds_nil _ _
  body := holds_nil _ _

theorem packed_reset (uuid : Bytes) (c : InmemoryContainer) : Packed (resetContainer uuid c) [] :=
  packed_of_empty rfl rfl rfl

/-- A chunk of this size fits into a container of its own. -/
def Fits (dataSize : ℕ) : Prop := 4+entrySize+dataSize < maxContainerSize

theorem fits_of_small {dataSize : ℕ} (h : dataSize ≤ maxChunkSize) : Fits dataSize := by
  simp only [Fits,entrySize,chunkHashSize,maxContainerSize,maxChunkSize] at h ⊢
  omega

/-- Without wrap-around the flush test compares true sizes. -/
theorem overflows_iff {c : InmemoryContainer} (hc : Counted c) {dataSize : ℕ}
    (hd : Fits dataSize) :
    overflows dataSize c = true ↔
      maxContainerSize ≤ 4+c.currentHeaderSize+c.currentBodySize+entrySize+dataSize := by
  have hroom := hc.room
  simp only [Fits,entrySize,chunkHashSize,maxContainerSize] at hroom hd
  have hwrite : u32 (dataSize+32+4*2) = dataSize+32+4*2 := u32_of_lt (by omega)
  rw [overflows,decide_eq_true_iff]
  simp only [chunkHashSize,entrySize,maxContainerSize,hwrite]
  rw [u32_of_lt (by omega)]
  omega

theorem not_overflows_of_empty {c : InmemoryContainer} (hc : Counted c) (hb : c.currentBodySize = 0)
    (hh : c.currentHeaderSize = 0) {dataSize : ℕ} (hd : Fits dataSize) :
    overflows dataSize c = false := by
  apply Bool.eq_false_iff.mpr
  intro h
  have := (overflows_iff hc hd).mp h
  simp only [Fits,hb,hh,maxContainerSize,entrySize,chunkHashSize] at this hd
  omega

theorem appendChunk_counters {c : InmemoryContainer} (hc : Counted c) {data : Bytes}
    (hd : Fits data.length) (hfit : overflows data.length c = false) (chunkHash : Bytes) :
    (appendChunk chunkHash data c).currentHeaderSize = c.currentHeaderSize+entrySize ∧
      (appendChunk chunkHash data c).currentBodySize = c.currentBodySize+data.length ∧
      (appendChunk chunkHash data c).chunkNum = c.chunkNum+1 ∧
      4+(c.currentHeaderSize+entrySize)+(c.currentBodySize+data.length) < maxContainerSize := by
  have hno : ¬ _ := mt (overflows_iff hc hd).mpr (by simp [hfit])
  have hhead := hc.headerSize
  simp only [maxContainerSize,entrySize,chunkHashSize] at hno hhead ⊢
  simp only [appendChunk,entrySize,chunkHashSize]
  rw [u32_of_lt (by omega),u32_of_lt (by omega),u32_of_lt (by omega)]
  omega

theorem counted_append {c : InmemoryContainer} (hc : Counted c) {data : Bytes}
    (hd : Fits data.length) (hfit : overflows data.length c = false) (chunkHash : Bytes) :
    Counted (appendChunk chunkHash data c) := by
  obtain ⟨hh,hb,hn,hroom⟩ := appendChunk_counters hc hd hfit chunkHash
  exact ⟨by rw [hh,hn,hc.headerSize,Nat.mul_succ],by rw [hh,hb]; exact hroom⟩

theorem packed_append {c : InmemoryContainer} {ps : List Pair} (hc : Packed c ps)
    {chunkHash data : Bytes} (hash : chunkHash.length = chunkHashSize)
    (hd : Fits data.length) (hfit : overflows data.length c = false) :
    Packed (appendChunk chunkHash data c) (ps ++ [(chunkHash,data)]) := by
  obtain ⟨_,hb,hn,_⟩ := appendChunk_counters hc.toCounted hd hfit chunkHash
  have hlen : (headerOf 0 ps).length = c.currentHeaderSize := by
    rw [headerOf_length 0 hc.hashed,hc.headerSize,hc.chunkNum]
  have hentry : headerOf 0 (ps ++ [(chunkHash,data)]) = headerOf 0 ps ++
      (chunkHash ++ (beBytes c.currentBodySize ++ beBytes data.length)) := by
    simp [headerOf_append,headerOf,hc.bodySize]
  refine ⟨counted_append hc.toCounted hd hfit chunkHash,?_,?_,?_,?_,?_⟩
  · exact hashed_append.mpr ⟨hc.hashed,hashed_cons.mpr ⟨hash,by simp [Hashed]⟩⟩
  · rw [hn,hc.chunkNum,List.length_append,List.length_singleton]
  · rw [hb,hc.bodySize]
    simp
  · -- the three copies land one behind the other at the end of the used header
    have hsize : (headerOf 0 (ps ++ [(chunkHash,data)])).length =
        c.currentHeaderSize+chunkHashSize+4+4 := by
      rw [hentry]
      simp [hlen,hash]
      omega
    have h1 := read_write_append c.header c.currentHeaderSize chunkHash
    have h2 := read_write_append (write c.header c.currentHeaderSize chunkHash)
      (c.currentHeaderSize+chunkHashSize) (beBytes c.currentBodySize)
    have h3 := read_write_append (write (write c.header c.currentHeaderSize chunkHash)
      (c.currentHeaderSize+chunkHashSize) (beBytes c.currentBodySize))
      (c.currentHeaderSize+chunkHashSize+4) (beBytes data.length)
    have h0 : read c.header 0 c.currentHeaderSize = headerOf 0 ps := by
      rw [← hlen]
      exact hc.header
    rw [hash] at h1
    rw [beBytes_length,h1,h0] at h2
    rw [beBytes_length,h2] at h3
    unfold Holds
    rw [hsize,hentry]
    simp only [appendChunk,List.take_of_length_le (Nat.le_of_eq hash)]
    rw [h3]
    simp
  · have hbody := read_write_append c.body c.currentBodySize data
    have h0 : read c.body 0 c.currentBodySize = bodyOf ps := by
      rw [hc.bodySize]
      exact hc.body
    unfold Holds
    rw [h0,hc.bodySize] at hbody
    simpa [appendChunk,hc.bodySize] using hbody

def sealed (g : Bytes × List Pair) : Container := ⟨g.1,image g.2,(image g.2).length⟩

theorem image_length_packed {c : InmemoryContainer} {ps : List Pair} (hc : Packed c ps) :
    (image ps).length = 4+c.currentHeaderSize+c.currentBodySize := by
  rw [image_length hc.hashed,hc.headerSize,hc.bodySize,hc.chunkNum]

theorem ocallWriteContainer_packed {c : InmemoryContainer} {ps : List Pair} (hc : Packed c ps) :
    ocallWriteContainer c = sealed (c.containerID,ps) := by
  have hroom := hc.room
  have hlen := image_length_packed hc
  have hh : read c.header 0 c.currentHeaderSize = headerOf 0 ps := by
    rw [hc.headerSize,hc.chunkNum,← headerOf_length 0 hc.hashed]
    exact hc.header
  have hb : read c.body 0 c.currentBodySize = bodyOf ps := by
    rw [hc.bodySize]
    exact hc.body
  simp only [maxContainerSize] at hroom
  simp only [ocallWriteContainer,sealed,Container.mk.injEq,true_and]
  exact ⟨by rw [hh,hb,hc.chunkNum,image,List.append_assoc],by rw [u32_of_lt (by omega),hlen]⟩

/-- The (hash, bytes) pairs in the two arrays of a container in memory. -/
def headerEntries (c : InmemoryContainer) : List Pair :=
  (List.range (c.currentHeaderSize/entrySize)).map fun j =>
    (read c.header (j*entrySize) chunkHashSize,
      read c.body (beWord c.header (j*entrySize+chunkHashSize))
        (beWord c.header (j*entrySize+chunkHashSize+4)))

theorem headerEntries_packed {c : InmemoryContainer} {ps : List Pair} (hc : Packed c ps) :
    headerEntries c = ps := by
  have hcount : c.currentHeaderSize/entrySize = ps.length := by
    rw [hc.headerSize,hc.chunkNum,Nat.mul_div_cancel_left _ (by decide)]
  have hroom := hc.room
  rw [hc.bodySize,maxContainerSize] at hroom
  apply List.ext_getElem
  · simp [headerEntries,hcount]
  · intro j hj hps
    have hsplit := split_at hps
    have hlen := congrArg (fun l => (bodyOf l).length) hsplit
    simp only [bodyOf_append,bodyOf_cons,List.length_append] at hlen
    have hheader := hc.header
    have hbody := hc.body
    rw [hsplit] at hheader hbody
    obtain ⟨hhash,hoff,hsize⟩ := header_fields (hsplit ▸ hc.hashed) hheader
    have hdata := body_data hbody
    rw [u32_of_lt (by omega)] at hoff hsize
    rw [List.length_take,Nat.min_eq_left (Nat.le_of_lt hps),Nat.zero_add] at hhash hoff hsize
    rw [Nat.zero_add] at hdata
    simp only [headerEntries,List.getElem_map,List.getElem_range,hhash,hoff,hsize,hdata]

theorem listChunks_sealed {g : Bytes × List Pair} (hg : Hashed g.2)
    (hs : (image g.2).length < maxContainerSize) (stale : Mem UInt8) :
    listChunks (write stale 0 (sealed g).written) = g.2 := by
  have hw : (sealed g).written = image g.2 := List.take_length
  rw [hw]
  exact listChunks_image hg (hs.trans (by decide)) (holds_write_self stale 0 _)

theorem saveChunk_cases (uuid : ℕ → Bytes) (drawn : ℕ) (cl : ClientVar) (chunkHash data : Bytes) :
    (overflows data.length cl.curContainer = false ∧
      saveChunk uuid drawn cl chunkHash data =
        ⟨⟨appendChunk chunkHash data cl.curContainer,cl.inputMQ⟩,drawn,
          cl.curContainer.containerID⟩) ∨
    (overflows data.length cl.curContainer = true ∧
      saveChunk uuid drawn cl chunkHash data =
        ⟨⟨appendChunk chunkHash data (resetContainer (uuid drawn) cl.curContainer),
          cl.inputMQ ++ [ocallWriteContainer cl.curContainer]⟩,drawn+1,uuid drawn⟩) := by
  cases h : overflows data.length cl.curContainer with
  | false => exact Or.inl ⟨rfl,by simp [saveChunk,h,appendChunk]⟩
  | true => exact Or.inr ⟨rfl,by simp [saveChunk,h,appendChunk,resetContainer]⟩

/-- The effect of `SaveChunk` on what the containers store. -/
theorem saveChunk_packed (uuid : ℕ → Bytes) (drawn : ℕ) {cl : ClientVar} {ps : List Pair} {p : Pair}
    (hc : Packed cl.curContainer ps) (hash : p.1.length = chunkHashSize)
    (hd : Fits p.2.length) :
    ∃ c, (saveChunk uuid drawn cl p.1 p.2 = ⟨⟨c,cl.inputMQ⟩,drawn,cl.curContainer.containerID⟩ ∧
        c.containerID = cl.curContainer.containerID ∧ Packed c (ps ++ [p])) ∨
      (saveChunk uuid drawn cl p.1 p.2 =
          ⟨⟨c,cl.inputMQ ++ [sealed (cl.curContainer.containerID,ps)]⟩,drawn+1,uuid drawn⟩ ∧
        c.containerID = uuid drawn ∧ Packed c [p]) := by
  rcases saveChunk_cases uuid drawn cl p.1 p.2 with ⟨hfit,hs⟩ | ⟨_,hs⟩
  · exact ⟨_,Or.inl ⟨hs,rfl,packed_append hc hash hd hfit⟩⟩
  · have hreset := packed_reset (uuid drawn) cl.curContainer
    have hnew := packed_append hreset hash hd (not_overflows_of_empty hreset.toCounted rfl rfl hd)
    rw [ocallWriteContainer_packed hc] at hs
    exact ⟨_,Or.inr ⟨hs,rfl,hnew⟩⟩

abbrev Group := Bytes × List Pair

/-- The first chunk of the next group did not fit behind this one. -/
def Tight (g g' : Group) : Prop :=
  ∃ p ∈ g'.2.head?, maxContainerSize ≤ (image g.2).length+entrySize+p.2.length

def namesOf (gs : List Group) : List Bytes := gs.flatMap fun g => g.2.map fun _ => g.1

/-- What a run of `SaveChunk` calls from a packed container amounts to: the sealed
groups, the group still in memory, and how they partition the chunks. -/
structure Grouping (cl : ClientVar) (ps chunks : List Pair) (r : ClientVar × ℕ × List Bytes)
    (gs : List Group) (last : Group) : Prop where
  pushed : r.1.inputMQ = cl.inputMQ ++ gs.map sealed
  current : Packed r.1.curContainer last.2
  currentID : r.1.curContainer.containerID = last.1
  content : (gs ++ [last]).flatMap Prod.snd = ps ++ chunks
  names : namesOf (gs ++ [last]) = ps.map (fun _ => cl.curContainer.containerID) ++ r.2.2
  tight : (gs ++ [last]).IsChain Tight
  nonempty : ∀ g ∈ gs, g.2 ≠ []
  small : ∀ g ∈ gs, Hashed g.2 ∧ (image g.2).length < maxContainerSize
  first : ∃ more rest, gs ++ [last] = (cl.curContainer.containerID,ps ++ more)::rest

theorem grouping_nil (uuid : ℕ → Bytes) (drawn : ℕ) {cl : ClientVar} {ps : List Pair}
    (hc : Packed cl.curContainer ps) :
    Grouping cl ps [] (saveChunks uuid drawn cl []) [] (cl.curContainer.containerID,ps) where
  pushed := by simp [saveChunks]
  current := hc
  currentID := rfl
  content := by simp
  names := by simp [namesOf,saveChunks]
  tight := by simp
  nonempty := by simp
  small := by simp
  first := ⟨[],[],by simp⟩

theorem Grouping.append {cl : ClientVar} {ps chunks : List Pair} {p : Pair} {drawn : ℕ}
    {uuid : ℕ → Bytes} {gs : List Group} {last : Group}
    (hfit : overflows p.2.length cl.curContainer = false)
    (hg : Grouping ⟨appendChunk p.1 p.2 cl.curContainer,cl.inputMQ⟩ (ps ++ [p]) chunks
      (saveChunks uuid drawn ⟨appendChunk p.1 p.2 cl.curContainer,cl.inputMQ⟩ chunks) gs last) :
    Grouping cl ps (p::chunks) (saveChunks uuid drawn cl (p::chunks)) gs last := by
  have hs : saveChunk uuid drawn cl p.1 p.2 =
      ⟨⟨appendChunk p.1 p.2 cl.curContainer,cl.inputMQ⟩,drawn,cl.curContainer.containerID⟩ := by
    simp [saveChunk,hfit,appendChunk]
  have hr : saveChunks uuid drawn cl (p::chunks) =
      ((saveChunks uuid drawn ⟨appendChunk p.1 p.2 cl.curContainer,cl.inputMQ⟩ chunks).1,
        (saveChunks uuid drawn ⟨appendChunk p.1 p.2 cl.curContainer,cl.inputMQ⟩ chunks).2.1,
        cl.curContainer.containerID::
          (saveChunks uuid drawn ⟨appendChunk p.1 p.2 cl.curContainer,cl.inputMQ⟩ chunks).2.2) := by
    rw [saveChunks,hs]
  obtain ⟨more,rest,hfirst⟩ := hg.first
  rw [hr]
  exact ⟨hg.pushed,hg.current,hg.currentID,by simpa using hg.content,
    by simpa [appendChunk] using hg.names,hg.tight,hg.nonempty,hg.small,
    ⟨p::more,rest,by simpa [appendChunk] using hfirst⟩⟩

theorem Grouping.seal {cl : ClientVar} {ps chunks : List Pair} {p : Pair} {drawn : ℕ}
    {uuid : ℕ → Bytes} {gs : List Group} {last : Group} (hc : Packed cl.curContainer ps)
    (hne : ps ≠ []) (hd : Fits p.2.length)
    (hover : overflows p.2.length cl.curContainer = true)
    (hg : Grouping ⟨appendChunk p.1 p.2 (resetContainer (uuid drawn) cl.curContainer),
        cl.inputMQ ++ [ocallWriteContainer cl.curContainer]⟩ [p] chunks
      (saveChunks uuid (drawn+1) ⟨appendChunk p.1 p.2 (resetContainer (uuid drawn) cl.curContainer),
        cl.inputMQ ++ [ocallWriteContainer cl.curContainer]⟩ chunks) gs last) :
    Grouping cl ps (p::chunks) (saveChunks uuid drawn cl (p::chunks))
      ((cl.curContainer.containerID,ps)::gs) last := by
  have hs : saveChunk uuid drawn cl p.1 p.2 =
      ⟨⟨appendChunk p.1 p.2 (resetContainer (uuid drawn) cl.curContainer),
        cl.inputMQ ++ [ocallWriteContainer cl.curContainer]⟩,drawn+1,uuid drawn⟩ := by
    simp [saveChunk,hover,appendChunk,resetContainer]
  have hr := congrArg (fun s : Saved =>
    ((saveChunks uuid s.drawn s.client chunks).1,(saveChunks uuid s.drawn s.client chunks).2.1,
      s.containerName::(saveChunks uuid s.drawn s.client chunks).2.2)) hs
  obtain ⟨more,rest,hfirst⟩ := hg.first
  have hlen := image_length_packed hc
  have htight : Tight (cl.curContainer.containerID,ps) (uuid drawn,[p] ++ more) := by
    have hfull := (overflows_iff hc.toCounted hd).mp hover
    exact ⟨p,by simp,by simpa [hlen] using hfull⟩
  have hhead : gs ++ [last] = (uuid drawn,[p] ++ more)::rest := by
    simpa [appendChunk,resetContainer] using hfirst
  rw [saveChunks,hr]
  refine ⟨?_,hg.current,hg.currentID,?_,?_,?_,?_,?_,⟨[],gs ++ [last],by simp⟩⟩
  · rw [hg.pushed,ocallWriteContainer_packed hc]
    simp
  · have hcontent := hg.content
    simp only [List.cons_append,List.flatMap_cons]
    rw [hcontent]
    simp
  · have hnames := hg.names
    simp only [namesOf,List.cons_append,List.flatMap_cons] at hnames ⊢
    rw [hnames]
    simp [appendChunk,resetContainer]
  · rw [List.cons_append,hhead]
    exact List.isChain_cons_cons.mpr ⟨htight,hhead ▸ hg.tight⟩
  · intro g hgm
    rcases List.mem_cons.mp hgm with rfl | hin
    · exact hne
    · exact hg.nonempty g hin
  · intro g hgm
    rcases List.mem_cons.mp hgm with rfl | hin
    · exact ⟨hc.hashed,hlen ▸ hc.room⟩
    · exact hg.small g hin

def Acceptable (p : Pair) : Prop := p.1.length = chunkHashSize ∧ p.2.length ≤ maxChunkSize

/-- Every run of `SaveChunk` calls groups its chunks into containers in order. -/
theorem exists_grouping (uuid : ℕ → Bytes) (drawn : ℕ) (cl : ClientVar) (ps chunks : List Pair)
    (hc : Packed cl.curContainer ps) (hchunks : ∀ p ∈ chunks, Acceptable p) :
    ∃ gs last, Grouping cl ps chunks (saveChunks uuid drawn cl chunks) gs last := by
  induction chunks generalizing drawn cl ps with
  | nil => exact ⟨[],_,grouping_nil uuid drawn hc⟩
  | cons p chunks ih =>
    obtain ⟨hash,hsmall⟩ := hchunks p (by simp)
    have hd := fits_of_small hsmall
    have hrest : ∀ q ∈ chunks, Acceptable q := fun q hq => hchunks q (by simp [hq])
    cases hover : overflows p.2.length cl.curContainer with
    | false =>
      obtain ⟨gs,last,hg⟩ := ih drawn ⟨appendChunk p.1 p.2 cl.curContainer,cl.inputMQ⟩ (ps ++ [p])
        (packed_append hc hash hd hover) hrest
      exact ⟨gs,last,hg.append hover⟩
    | true =>
      have hne : ps ≠ [] := by
        rintro rfl
        have hempty := not_overflows_of_empty hc.toCounted hc.bodySize
          (by rw [hc.headerSize,hc.chunkNum]; rfl) hd
        simp [hover] at hempty
      have hreset := packed_reset (uuid drawn) cl.curContainer
      have hnew := packed_append hreset hash hd (not_overflows_of_empty hreset.toCounted rfl rfl hd)
      obtain ⟨gs,last,hg⟩ := ih (drawn+1)
        ⟨appendChunk p.1 p.2 (resetContainer (uuid drawn) cl.curContainer),
          cl.inputMQ ++ [ocallWriteContainer cl.curContainer]⟩ [p] hnew hrest
      exact ⟨_,last,hg.seal hc hne hd hover⟩

theorem lastContainer_grouping {cl : ClientVar} {chunks : List Pair}
    {r : ClientVar × ℕ × List Bytes} {gs : List Group} {last : Group}
    (hmq : cl.inputMQ = []) (hg : Grouping cl [] chunks r gs last) :
    ∃ all : List Group, (lastContainer r.1).inputMQ = all.map sealed ∧
      all.flatMap Prod.snd = chunks ∧ namesOf all = r.2.2 ∧ all.IsChain Tight ∧
      ∀ g ∈ all, g.2 ≠ [] ∧ Hashed g.2 ∧ (image g.2).length < maxContainerSize := by
  have hcur := hg.current
  have hid := hg.currentID
  have hpushed := hg.pushed
  have hcontent := hg.content
  have hnames := hg.names
  rw [hmq,List.nil_append] at hpushed
  by_cases hlast : last.2 = []
  · -- an empty current container is only possible before the first chunk
    have hgs : gs = [] := by
      rcases List.eq_nil_or_concat gs with h | ⟨front,g,rfl⟩
      · exact h
      · have htight := hg.tight
        rw [List.concat_eq_append,List.append_assoc] at htight
        obtain ⟨p,hp,_⟩ := (List.isChain_append.mp htight).2.1.rel
        simp [hlast] at hp
    subst hgs
    have hzero : r.1.curContainer.currentHeaderSize = 0 := by
      rw [hcur.headerSize,hcur.chunkNum,hlast]
      rfl
    refine ⟨[],?_,?_,?_,by simp,by simp⟩
    · simpa [lastContainer,hzero] using hpushed
    · simpa [hlast] using hcontent
    · simpa [namesOf,hlast] using hnames
  · have hpos : r.1.curContainer.currentHeaderSize ≠ 0 := by
      have hlen : 0 < last.2.length := List.length_pos_of_ne_nil hlast
      rw [hcur.headerSize,hcur.chunkNum]
      simp only [entrySize,chunkHashSize]
      omega
    refine ⟨gs ++ [last],?_,by simpa using hcontent,by simpa using hnames,hg.tight,?_⟩
    · rw [lastContainer,if_pos hpos,hpushed,ocallWriteContainer_packed hcur,hid]
      simp
    · intro g hgm
      rcases List.mem_append.mp hgm with hin | hin
      · exact ⟨hg.nonempty g hin,hg.small g hin⟩
      · obtain rfl := List.mem_singleton.mp hin
        exact ⟨hlast,hcur.hashed,image_length_packed hcur ▸ hcur.room⟩

/-- Packing and reading are inverse. From an empty container, the containers pushed
by any sequence of saves and the final flush are read back as the saved pairs in
order; each fits and is not empty; each save returned the name of the container its
chunk is read from; and a container is sealed only when the next chunk did not fit. -/
theorem packing_round_trip (uuid : ℕ → Bytes) (drawn : ℕ) (c : InmemoryContainer)
    (hbody : c.currentBodySize = 0) (hheader : c.currentHeaderSize = 0) (hnum : c.chunkNum = 0)
    (chunks : List Pair) (hchunks : ∀ p ∈ chunks, Acceptable p) (stale : Container → Mem UInt8) :
    let r := saveChunks uuid drawn ⟨c,[]⟩ chunks
    let pushed := (lastContainer r.1).inputMQ
    let contents := fun k : Container => listChunks (write (stale k) 0 k.written)
    pushed.flatMap contents = chunks ∧
    (∀ k ∈ pushed, k.currentSize < maxContainerSize ∧ contents k ≠ []) ∧
    (pushed.flatMap fun k => (contents k).map fun _ => k.containerID) = r.2.2 ∧
    pushed.IsChain fun k k' =>
      ∃ p ∈ (contents k').head?, maxContainerSize ≤ k.currentSize+entrySize+p.2.length := by
  intro r pushed contents
  obtain ⟨gs,last,hg⟩ := exists_grouping uuid drawn ⟨c,[]⟩ [] chunks
    (packed_of_empty hbody hheader hnum) hchunks
  obtain ⟨all,hpushed,hcontent,hnames,htight,hall⟩ := lastContainer_grouping rfl hg
  have hread : ∀ g ∈ all, contents (sealed g) = g.2 := fun g hgm =>
    listChunks_sealed (hall g hgm).2.1 (hall g hgm).2.2 _
  have hpush : pushed = all.map sealed := hpushed
  rw [hpush]
  refine ⟨?_,?_,?_,?_⟩
  · rw [List.flatMap_map,← hcontent]
    exact List.flatMap_congr hread
  · intro k hk
    obtain ⟨g,hgm,rfl⟩ := List.mem_map.mp hk
    rw [hread g hgm]
    exact ⟨(hall g hgm).2.2,(hall g hgm).1⟩
  · rw [List.flatMap_map]
    refine Eq.trans (List.flatMap_congr fun g hgm => ?_) hnames
    rw [hread g hgm]
    rfl
  · rw [List.isChain_map]
    refine htight.imp_of_mem_imp ?_
    intro g g' _ hg' hgg
    rw [hread g' hg']
    exact hgg

theorem bodyOf_length_lt_image (ps : List Pair) : (bodyOf ps).length < (image ps).length := by
  simp only [image,List.length_append,beBytes_length]
  omega

/-- Chunks with more bytes than a container holds make the session flush before its end. -/
theorem one_lt_length_inputMQ (uuid : ℕ → Bytes) (drawn : ℕ) (c : InmemoryContainer)
    (hbody : c.currentBodySize = 0) (hheader : c.currentHeaderSize = 0) (hnum : c.chunkNum = 0)
    {chunks : List Pair} (hchunks : ∀ p ∈ chunks, Acceptable p)
    (hlong : maxContainerSize ≤ (bodyOf chunks).length) :
    1 < (lastContainer (saveChunks uuid drawn ⟨c,[]⟩ chunks).1).inputMQ.length := by
  obtain ⟨gs,last,hg⟩ := exists_grouping uuid drawn ⟨c,[]⟩ [] chunks
    (packed_of_empty hbody hheader hnum) hchunks
  obtain ⟨all,hpushed,hcontent,_,_,hall⟩ := lastContainer_grouping rfl hg
  rw [hpushed,List.length_map]
  by_contra hle
  rw [← hcontent] at hlong
  rcases all with _ | ⟨g,_ | ⟨g',rest⟩⟩
  · simp [maxContainerSize] at hlong
  · have hsmall := (hall g (by simp)).2.2
    have hlt := bodyOf_length_lt_image g.2
    rw [List.flatMap_singleton] at hlong
    omega
  · simp at hle

def fullChunks (n : ℕ) : List Pair :=
  List.replicate n (List.replicate chunkHashSize 1,List.replicate maxChunkSize 5)

theorem acceptable_fullChunks (n : ℕ) : ∀ p ∈ fullChunks n, Acceptable p := by
  intro p hp
  rw [List.eq_of_mem_replicate hp]
  exact ⟨List.length_replicate,Nat.le_of_eq List.length_replicate⟩

theorem bodyOf_fullChunks_length (n : ℕ) : (bodyOf (fullChunks n)).length = n*maxChunkSize := by
  simp [fullChunks,bodyOf]

theorem fullChunks_long : maxContainerSize ≤ (bodyOf (fullChunks 513)).length := by
  rw [bodyOf_fullChunks_length]
  decide

theorem packing_round_trip_flush :
    let r := saveChunks (fun n => [UInt8.ofNat n]) 0 ⟨⟨[7],0,fun _ => 9,0,fun _ => 9,0⟩,[]⟩
      (fullChunks 513)
    let pushed := (lastContainer r.1).inputMQ
    let contents := fun k : Container => listChunks (write (fun _ => 3) 0 k.written)
    1 < pushed.length ∧
    pushed.flatMap contents = fullChunks 513 ∧
    (∀ k ∈ pushed, k.currentSize < maxContainerSize ∧ contents k ≠ []) ∧
    (pushed.flatMap fun k => (contents k).map fun _ => k.containerID) = r.2.2 ∧
    pushed.IsChain fun k k' =>
      ∃ p ∈ (contents k').head?, maxContainerSize ≤ k.currentSize+entrySize+p.2.length :=
  ⟨one_lt_length_inputMQ _ 0 _ rfl rfl rfl (acceptable_fullChunks 513) fullChunks_long,
    packing_round_trip (fun n => [UInt8.ofNat n]) 0 ⟨[7],0,fun _ => 9,0,fun _ => 9,0⟩ rfl rfl rfl
      (fullChunks 513) (acceptable_fullChunks 513) fun _ _ => 3⟩

/-- The containers that a session hands to `Ocall_WriteContainer`, in order. -/
def handed (uuid : ℕ → Bytes) (drawn : ℕ) (cl : ClientVar) : List Pair → List InmemoryContainer
  | [] => if cl.curContainer.currentHeaderSize ≠ 0 then [cl.curContainer] else []
  | p::ps =>
    let s := saveChunk uuid drawn cl p.1 p.2
    (if overflows p.2.length cl.curContainer then [cl.curContainer] else []) ++
      handed uuid s.drawn s.client ps

theorem inputMQ_eq_handed (uuid : ℕ → Bytes) (drawn : ℕ) (cl : ClientVar) (chunks : List Pair) :
    (lastContainer (saveChunks uuid drawn cl chunks).1).inputMQ =
      cl.inputMQ ++ (handed uuid drawn cl chunks).map ocallWriteContainer := by
  induction chunks generalizing drawn cl with
  | nil =>
    by_cases h : cl.curContainer.currentHeaderSize = 0 <;> simp [saveChunks,handed,lastContainer,h]
  | cons p ps ih =>
    rw [saveChunks,handed,ih,List.map_append,← List.append_assoc]
    cases h : overflows p.2.length cl.curContainer <;> simp [saveChunk,h]

theorem counted_saveChunk {uuid : ℕ → Bytes} {drawn : ℕ} {cl : ClientVar} {p : Pair}
    (hc : Counted cl.curContainer) (hd : p.2.length ≤ maxChunkSize) :
    Counted (saveChunk uuid drawn cl p.1 p.2).client.curContainer := by
  rcases saveChunk_cases uuid drawn cl p.1 p.2 with ⟨hfit,hs⟩ | ⟨_,hs⟩
  · rw [hs]
    exact counted_append hc (fits_of_small hd) hfit p.1
  · have hreset := (packed_reset (uuid drawn) cl.curContainer).toCounted
    rw [hs]
    exact counted_append hreset (fits_of_small hd)
      (not_overflows_of_empty hreset rfl rfl (fits_of_small hd)) p.1

theorem counted_saveChunks {uuid : ℕ → Bytes} {drawn : ℕ} {cl : ClientVar} {chunks : List Pair}
    (hc : Counted cl.curContainer) (hd : ∀ p ∈ chunks, p.2.length ≤ maxChunkSize) :
    Counted (saveChunks uuid drawn cl chunks).1.curContainer := by
  induction chunks generalizing drawn cl with
  | nil => exact hc
  | cons p ps ih =>
    exact ih (counted_saveChunk hc (hd p (by simp))) fun q hq => hd q (by simp [hq])

theorem counted_handed {uuid : ℕ → Bytes} {drawn : ℕ} {cl : ClientVar} {chunks : List Pair}
    (hc : Counted cl.curContainer) (hd : ∀ p ∈ chunks, p.2.length ≤ maxChunkSize) :
    ∀ k ∈ handed uuid drawn cl chunks, Counted k := by
  induction chunks generalizing drawn cl with
  | nil =>
    intro k hk
    simp only [handed] at hk
    split_ifs at hk
    · obtain rfl := List.mem_singleton.mp hk
      exact hc
    · simp at hk
  | cons p ps ih =>
    intro k hk
    rw [handed] at hk
    rcases List.mem_append.mp hk with h | h
    · split_ifs at h
      · obtain rfl := List.mem_singleton.mp h
        exact hc
      · simp at h
    · exact ih (counted_saveChunk hc (hd p (by simp))) (fun q hq => hd q (by simp [hq])) k h

/-- The metadata of a session built in memory `prior`: the counters agree after
every prefix of its saves, and every container it hands over starts with its number
of header entries. -/
structure ConsistentMetadata (prior : InmemoryContainer) (uuid : ℕ → Bytes) (drawn : ℕ)
    (chunks : List Pair) : Prop where
  counters : ∀ done, done <+: chunks →
    let c := (saveChunks uuid (drawn+1) ⟨initUploadBuffer prior (uuid drawn),[]⟩ done).1.curContainer
    c.currentHeaderSize = entrySize*c.chunkNum
  counts : ∀ k ∈ handed uuid (drawn+1) ⟨initUploadBuffer prior (uuid drawn),[]⟩ chunks,
    (ocallWriteContainer k).body.take 4 = beBytes (k.currentHeaderSize/entrySize)

/-- The counters of a session are consistent exactly when the memory of its
`ClientVar` held a zero chunk count, which `InitUploadBuffer` does not store. -/
theorem consistentMetadata_iff (prior : InmemoryContainer) (uuid : ℕ → Bytes) (drawn : ℕ)
    (chunks : List Pair) (hd : ∀ p ∈ chunks, p.2.length ≤ maxChunkSize) :
    ConsistentMetadata prior uuid drawn chunks ↔ prior.chunkNum = 0 := by
  constructor
  · intro h
    have hstart := h.counters [] (List.nil_prefix)
    simp only [saveChunks,initUploadBuffer,entrySize,chunkHashSize] at hstart
    omega
  · intro hzero
    have hc : Counted (initUploadBuffer prior (uuid drawn)) := counted_of_empty rfl rfl hzero
    refine ⟨?_,?_⟩
    · intro done hdone
      exact (counted_saveChunks hc fun p hp => hd p (hdone.subset hp)).headerSize
    · intro k hk
      have hk' := (counted_handed hc hd k hk).headerSize
      have hnum : k.currentHeaderSize/entrySize = k.chunkNum := by
        rw [hk',Nat.mul_div_cancel_left _ (by decide)]
      rw [hnum,ocallWriteContainer,List.append_assoc]
      exact List.take_left' rfl

theorem consistentMetadata_iff_flush :
    1 < (handed (fun n => [UInt8.ofNat n]) 1
      ⟨initUploadBuffer ⟨[],0,fun _ => 0,8,fun _ => 0,40⟩ [0],[]⟩ (fullChunks 513)).length ∧
    ConsistentMetadata ⟨[],0,fun _ => 0,8,fun _ => 0,40⟩ (fun n => [UInt8.ofNat n]) 0
      (fullChunks 513) := by
  constructor
  · have hflush := one_lt_length_inputMQ (fun n => [UInt8.ofNat n]) 1
      (initUploadBuffer ⟨[],0,fun _ => 0,8,fun _ => 0,40⟩ [0]) rfl rfl rfl
      (acceptable_fullChunks 513) fullChunks_long
    rw [inputMQ_eq_handed] at hflush
    simpa using hflush
  · exact (consistentMetadata_iff _ _ _ _ fun p hp => (acceptable_fullChunks 513 p hp).2).mpr rfl

/-- A `ClientVar` built where an earlier session left a chunk count of 5: its first
container holds one entry and announces six. -/
theorem stale_chunkNum_inconsistent :
    ¬ ConsistentMetadata ⟨[],5,fun _ => 0,0,fun _ => 0,0⟩ (fun _ => [7]) 0
        [(List.replicate 32 1,[5,6])] ∧
      (handed (fun _ => [7]) 1 ⟨initUploadBuffer ⟨[],5,fun _ => 0,0,fun _ => 0,0⟩ [7],[]⟩
        [(List.replicate 32 1,[5,6])]).map
          (fun k => (chunkCount (write (fun _ => 0) 0 (ocallWriteContainer k).written),
            k.currentHeaderSize/entrySize)) = [(6,1)] := by
  refine ⟨?_,by decide⟩
  intro h
  have hstart := h.counters [] (List.nil_prefix)
  simp [saveChunks,initUploadBuffer,entrySize] at hstart

end Packing
end CloudServer
