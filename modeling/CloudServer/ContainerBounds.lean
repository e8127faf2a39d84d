import CloudServer.Packing

/-! The arrays of a container. `WriteContainer` tests the size once, with a 32-bit sum,
and does not test again after the flush; every copy into a container is followed here,
with no assumption on the sizes of the chunks. -/
namespace CloudServer
namespace ContainerBounds

open ByteMemory StorageCore Packing ContainerFormat

/-- The container that the copies of `WriteContainer` go to: the current one, or, after
a flush, the emptied one. -/
def writeContainer (uuid : ℕ → Bytes) (drawn : ℕ) (cl : ClientVar) (dataSize : ℕ) :
    InmemoryContainer :=
  if overflows dataSize cl.curContainer then resetContainer (uuid drawn) cl.curContainer
  else cl.curContainer

theorem saveChunk_curContainer (uuid : ℕ → Bytes) (drawn : ℕ) (cl : ClientVar)
    (chunkHash data : Bytes) :
    (saveChunk uuid drawn cl chunkHash data).client.curContainer =
      appendChunk chunkHash data (writeContainer uuid drawn cl data.length) := by
  unfold saveChunk writeContainer
  split_ifs <;> rfl

theorem saveChunk_inputMQ (uuid : ℕ → Bytes) (drawn : ℕ) (cl : ClientVar) (chunkHash data : Bytes) :
    (saveChunk uuid drawn cl chunkHash data).client.inputMQ = cl.inputMQ ∨
      (saveChunk uuid drawn cl chunkHash data).client.inputMQ =
        cl.inputMQ ++ [ocallWriteContainer cl.curContainer] := by
  rcases saveChunk_cases uuid drawn cl chunkHash data with ⟨_,hs⟩ | ⟨_,hs⟩
  · exact Or.inl (by rw [hs])
  · exact Or.inr (by rw [hs])

def Bounded (c : InmemoryContainer) : Prop :=
  4+c.currentHeaderSize+c.currentBodySize ≤ maxContainerSize

/-- One `SaveChunk` call: the copies into body and header end inside their arrays, the
counters after it fit, and so does every container that is or can be handed over. -/
structure SaveInside (uuid : ℕ → Bytes) (drawn : ℕ) (cl : ClientVar) (chunkHash data : Bytes) :
    Prop where
  body : (writeContainer uuid drawn cl data.length).currentBodySize+data.length ≤ maxContainerSize
  header : (writeContainer uuid drawn cl data.length).currentHeaderSize+entrySize ≤ maxContainerSize
  counters : Bounded (saveChunk uuid drawn cl chunkHash data).client.curContainer
  files : ∀ c ∈ (lastContainer (saveChunk uuid drawn cl chunkHash data).client).inputMQ,
    c.body.length ≤ maxContainerSize ∧ c.currentSize = c.body.length

def SavesInside (uuid : ℕ → Bytes) : ℕ → ClientVar → List Pair → Prop
  | _, _, [] => True
  | drawn, cl, p::ps =>
    SaveInside uuid drawn cl p.1 p.2 ∧
      SavesInside uuid (saveChunk uuid drawn cl p.1 p.2).drawn
        (saveChunk uuid drawn cl p.1 p.2).client ps

/-- A chunk that fits an empty container with its header entry. -/
def FitsAlone (dataSize : ℕ) : Prop := 4+entrySize+dataSize ≤ maxContainerSize

theorem ocallWriteContainer_length {c : InmemoryContainer} (hc : Bounded c) :
    (ocallWriteContainer c).body.length ≤ maxContainerSize ∧
      (ocallWriteContainer c).currentSize = (ocallWriteContainer c).body.length := by
  have hlen : (ocallWriteContainer c).body.length = 4+c.currentHeaderSize+c.currentBodySize := by
    simp [ocallWriteContainer,Nat.add_assoc]
  refine ⟨hlen.trans_le hc,?_⟩
  rw [hlen]
  simp only [Bounded,maxContainerSize] at hc
  exact u32_of_lt (by omega)

/-- For a chunk that fits alone the one test is enough: without a flush it says that the
chunk fits behind the others, and after a flush nothing is in front of it. -/
theorem writeContainer_room (uuid : ℕ → Bytes) (drawn : ℕ) {cl : ClientVar} {dataSize : ℕ}
    (hc : Bounded cl.curContainer) (hd : FitsAlone dataSize) :
    4+(writeContainer uuid drawn cl dataSize).currentHeaderSize+
      (writeContainer uuid drawn cl dataSize).currentBodySize+entrySize+dataSize ≤
        maxContainerSize := by
  unfold writeContainer
  split_ifs with htest
  · simp only [resetContainer]
    simpa [FitsAlone] using hd
  · simp only [Bounded,FitsAlone,maxContainerSize,entrySize,chunkHashSize] at hc hd
    rw [overflows,decide_eq_true_iff] at htest
    simp only [maxContainerSize,chunkHashSize] at htest
    have hwrite : u32 (dataSize+32+4*2) = dataSize+32+4*2 := u32_of_lt (by omega)
    rw [hwrite,u32_of_lt (by omega)] at htest
    simp only [maxContainerSize,entrySize,chunkHashSize]
    omega

theorem appendChunk_sizes {c : InmemoryContainer} {data : Bytes}
    (hroom : 4+c.currentHeaderSize+c.currentBodySize+entrySize+data.length ≤ maxContainerSize)
    (chunkHash : Bytes) : Bounded (appendChunk chunkHash data c) := by
  simp only [maxContainerSize,entrySize,chunkHashSize] at hroom
  simp only [Bounded,appendChunk,maxContainerSize,entrySize,chunkHashSize]
  rw [u32_of_lt (by omega),u32_of_lt (by omega)]
  omega

structure Held (cl : ClientVar) : Prop where
  current : Bounded cl.curContainer
  queued : ∀ c ∈ cl.inputMQ, c.body.length ≤ maxContainerSize ∧ c.currentSize = c.body.length

theorem held_lastContainer {cl : ClientVar} (h : Held cl) :
    ∀ c ∈ (lastContainer cl).inputMQ,
      c.body.length ≤ maxContainerSize ∧ c.currentSize = c.body.length := by
  intro c hc
  unfold lastContainer at hc
  split_ifs at hc with hempty
  · rcases List.mem_append.mp hc with hc | hc
    · exact h.queued c hc
    · rw [List.mem_singleton.mp hc]
      exact ocallWriteContainer_length h.current
  · exact h.queued c hc

theorem held_saveChunk (uuid : ℕ → Bytes) (drawn : ℕ) {cl : ClientVar} (h : Held cl)
    (chunkHash : Bytes) {data : Bytes} (hd : FitsAlone data.length) :
    Held (saveChunk uuid drawn cl chunkHash data).client := by
  constructor
  · rw [saveChunk_curContainer]
    exact appendChunk_sizes (writeContainer_room uuid drawn h.current hd) chunkHash
  · intro c hc
    rcases saveChunk_inputMQ uuid drawn cl chunkHash data with hq | hq
    · rw [hq] at hc
      exact h.queued c hc
    · rw [hq] at hc
      rcases List.mem_append.mp hc with hc | hc
      · exact h.queued c hc
      · rw [List.mem_singleton.mp hc]
        exact ocallWriteContainer_length h.current

theorem saveInside_of_fits (uuid : ℕ → Bytes) (drawn : ℕ) {cl : ClientVar} (h : Held cl)
    (chunkHash : Bytes) {data : Bytes} (hd : FitsAlone data.length) :
    SaveInside uuid drawn cl chunkHash data := by
  have hroom := writeContainer_room uuid drawn h.current hd
  have hheld := held_saveChunk uuid drawn h chunkHash hd
  exact ⟨by omega,by omega,hheld.current,held_lastContainer hheld⟩

/-- A call whose copy ends inside the body and whose counters fit had a chunk that fits
alone: the sums did not wrap. -/
theorem fits_of_saveInside {uuid : ℕ → Bytes} {drawn : ℕ} {cl : ClientVar} {chunkHash data : Bytes}
    (h : SaveInside uuid drawn cl chunkHash data) : FitsAlone data.length := by
  have hbody := h.body
  have hheader := h.header
  have hcounters := h.counters
  rw [saveChunk_curContainer] at hcounters
  simp only [Bounded,appendChunk,entrySize,chunkHashSize,maxContainerSize] at hcounters hbody hheader
  rw [u32_of_lt (by omega),u32_of_lt (by omega)] at hcounters
  simp only [FitsAlone,entrySize,chunkHashSize,maxContainerSize]
  omega

theorem savesInside_iff (uuid : ℕ → Bytes) {ps : List Pair} :
    ∀ (drawn : ℕ) {cl : ClientVar}, Held cl →
      (SavesInside uuid drawn cl ps ↔ ∀ p ∈ ps, FitsAlone p.2.length) := by
  induction ps with
  | nil =>
    intro drawn cl _
    simp [SavesInside]
  | cons p ps ih =>
    intro drawn cl hcl
    rw [List.forall_mem_cons]
    constructor
    · rintro ⟨hp,hps⟩
      have hfit := fits_of_saveInside hp
      exact ⟨hfit,(ih _ (held_saveChunk uuid drawn hcl p.1 hfit)).mp hps⟩
    · rintro ⟨hp,hps⟩
      exact ⟨saveInside_of_fits uuid drawn hcl p.1 hp,
        (ih _ (held_saveChunk uuid drawn hcl p.1 hp)).mpr hps⟩

theorem held_of_empty {c : InmemoryContainer} (hb : c.currentBodySize = 0)
    (hh : c.currentHeaderSize = 0) : Held ⟨c,[]⟩ :=
  ⟨by simp [Bounded,hb,hh,maxContainerSize],by simp⟩

/-- From an empty container, all copies of a sequence of `SaveChunk` calls stay inside
exactly if no chunk is too large for a container of its own. -/
theorem container_inside_iff (uuid : ℕ → Bytes) (drawn : ℕ) (c : InmemoryContainer)
    (hb : c.currentBodySize = 0) (hh : c.currentHeaderSize = 0) (ps : List Pair) :
    SavesInside uuid drawn ⟨c,[]⟩ ps ↔ ∀ p ∈ ps, p.2.length ≤ maxContainerSize-44 := by
  rw [savesInside_iff uuid drawn (held_of_empty hb hh)]
  have hsize : ∀ n, FitsAlone n ↔ n ≤ maxContainerSize-44 := by
    intro n
    simp only [FitsAlone,entrySize,chunkHashSize,maxContainerSize]
    omega
  simp only [hsize]

def emptyContainer : InmemoryContainer := ⟨[],0,fun _ => 0,0,fun _ => 0,0⟩

theorem container_inside_full :
    SavesInside (fun n => [UInt8.ofNat n]) 0 ⟨emptyContainer,[]⟩
      [([1],[5]),([2],List.replicate (maxContainerSize-44) 6),([3],[7])] := by
  apply (container_inside_iff _ 0 emptyContainer rfl rfl _).mpr
  simp only [List.forall_mem_cons,List.length_replicate]
  exact ⟨by decide,Nat.le_refl _,by decide,by simp⟩

/-- One byte more: the container is flushed, the chunk is copied into the empty one all
the same, and the counters pass the end by one. -/
theorem saveChunk_too_large (uuid : ℕ → Bytes) (chunkHash : Bytes) {data : Bytes}
    (hlen : data.length = maxContainerSize-43) :
    ¬ Bounded (saveChunk uuid 0 ⟨emptyContainer,[]⟩ chunkHash data).client.curContainer := by
  have htest : overflows (maxContainerSize-43) emptyContainer = true := by decide
  rw [saveChunk_curContainer,hlen,writeContainer,if_pos htest]
  simp only [Bounded,appendChunk,resetContainer,hlen,maxContainerSize,entrySize,chunkHashSize,u32]
  omega

/-- A size for which the receive buffer of a session has room. -/
theorem one_byte_too_large :
    4+(maxContainerSize-43) ≤ sendChunkBatchSize*(4+maxChunkSize) ∧
      ¬ Bounded (saveChunk (fun n => [UInt8.ofNat n]) 0 ⟨emptyContainer,[]⟩ [2]
        (List.replicate (maxContainerSize-43) 6)).client.curContainer ∧
      ¬ SavesInside (fun n => [UInt8.ofNat n]) 0 ⟨emptyContainer,[]⟩
        [([2],List.replicate (maxContainerSize-43) 6)] := by
  have hsize := saveChunk_too_large (fun n => [UInt8.ofNat n]) [2]
    (List.length_replicate (a := (6 : UInt8)))
  refine ⟨by norm_num [maxContainerSize,sendChunkBatchSize,maxChunkSize],hsize,?_⟩
  intro h
  rw [SavesInside] at h
  have hcounters := h.1.counters
  dsimp only at hcounters
  exact hsize hcounters

end ContainerBounds
end CloudServer
