import CloudServer.Database
import CloudServer.StorageCore

/-! Deduplication of a batch of chunks (`PlainIndex::ProcessOneBatch`). The loop
walks the received bytes; the section between the write lock and the unlock is one
step on the state that all sessions share. -/
namespace CloudServer
namespace PlainIndex

open ByteMemory Database StorageCore

/-- A deterministic hash to `CHUNK_HASH_SIZE` bytes. -/
structure Digest where
  hash : Bytes → Bytes
  hash_length : ∀ d, (hash d).length = chunkHashSize

/-- The state behind `outIdxLck_`, with the number of identifiers drawn. -/
structure Shared where
  indexStore : Index
  uniqueChunkNum : ℕ
  uniqueDataSize : ℕ
  drawn : ℕ

structure Locked where
  shared : Shared
  client : ClientVar
  containerNameStr : Bytes

/-- The locked section: look the hash up; if it is new, save the chunk, bind the
hash to the container it went to, and count it. -/
def dedupChunk (uuid : ℕ → Bytes) (sh : Shared) (cl : ClientVar)
    (tmpHashStr containerNameStr chunk : Bytes) : Locked :=
  let status := query sh.indexStore tmpHashStr containerNameStr
  if status.1 then ⟨sh,cl,status.2⟩
  else
    let s := saveChunk uuid sh.drawn cl tmpHashStr chunk
    ⟨{ indexStore := insert sh.indexStore tmpHashStr s.containerName
       uniqueChunkNum := (sh.uniqueChunkNum+1) % 2^64
       uniqueDataSize := (sh.uniqueDataSize+chunk.length) % 2^64
       drawn := s.drawn },s.client,s.containerName⟩

structure Batch where
  dataBuffer : Mem UInt8
  chunkNum : ℕ
  index : ℕ
  currentOffset : ℕ
  containerNameStr : Bytes

/-- After the last chunk the receive buffer is cleared. -/
def Batch.finish (b : Batch) : Batch :=
  if b.index < b.chunkNum then b else { b with dataBuffer := fun _ => 0 }

def Batch.receive (dataBuffer : Mem UInt8) (currentItemNum : ℕ) (payload : Bytes) : Batch :=
  Batch.finish ⟨write dataBuffer 0 payload,currentItemNum,0,0,List.replicate containerIdLength 0⟩

def Batch.tmpChunkSize (b : Batch) : ℕ := leWord (read b.dataBuffer b.currentOffset 4)

def Batch.chunk (b : Batch) : Bytes := read b.dataBuffer (b.currentOffset+4) b.tmpChunkSize

def Batch.advance (b : Batch) (containerNameStr : Bytes) : Batch :=
  Batch.finish { b with
    index := b.index+1
    currentOffset := b.currentOffset+4+b.tmpChunkSize
    containerNameStr := containerNameStr }

def batchStep (H : Digest) (uuid : ℕ → Bytes) (sh : Shared) (cl : ClientVar) (b : Batch) :
    Option (Shared × ClientVar × Batch) :=
  if b.index < b.chunkNum then
    let r := dedupChunk uuid sh cl (H.hash b.chunk) b.containerNameStr b.chunk
    some (r.shared,r.client,b.advance r.containerNameStr)
  else none

/-- The payload of an upload message: length and bytes of each chunk. -/
def encodeChunks (chunks : List Bytes) : Bytes := chunks.flatMap fun d => leBytes d.length ++ d

/-- The chunks of a batch that the loop has not processed yet. -/
structure Batch.Remaining (b : Batch) (chunks : List Bytes) : Prop where
  count : b.index+chunks.length = b.chunkNum
  bytes : Holds b.dataBuffer b.currentOffset (encodeChunks chunks)
  small : ∀ d ∈ chunks, d.length ≤ maxChunkSize

structure Batch.Pending (b : Batch) (chunks : List Bytes) : Prop where
  count : b.index+chunks.length = b.chunkNum
  bytes : Holds b.dataBuffer b.currentOffset (encodeChunks chunks)
  sizes : ∀ d ∈ chunks, d.length < 2^32

theorem Batch.Remaining.pending {b : Batch} {chunks : List Bytes} (h : b.Remaining chunks) :
    b.Pending chunks :=
  ⟨h.count,h.bytes,fun d hd => (h.small d hd).trans_lt (by decide)⟩

theorem Batch.Pending.remaining {b : Batch} {chunks : List Bytes} (h : b.Pending chunks)
    (hs : ∀ d ∈ chunks, d.length ≤ maxChunkSize) : b.Remaining chunks :=
  ⟨h.count,h.bytes,hs⟩

theorem pending_finish {b : Batch} {chunks : List Bytes} (h : b.Pending chunks) :
    b.finish.Pending chunks := by
  unfold Batch.finish
  split_ifs with hlt
  · exact h
  · have hnil : chunks = [] := by
      apply List.length_eq_zero_iff.mp
      have := h.count
      omega
    subst hnil
    exact ⟨h.count,holds_nil _ _,h.sizes⟩

theorem pending_receive (buffer : Mem UInt8) {chunks : List Bytes}
    (hs : ∀ d ∈ chunks, d.length < 2^32) :
    (Batch.receive buffer chunks.length (encodeChunks chunks)).Pending chunks :=
  pending_finish ⟨by simp,holds_write_self buffer 0 (encodeChunks chunks),hs⟩

theorem remaining_receive (buffer : Mem UInt8) {chunks : List Bytes}
    (hs : ∀ d ∈ chunks, d.length ≤ maxChunkSize) :
    (Batch.receive buffer chunks.length (encodeChunks chunks)).Remaining chunks := by
  apply Batch.Pending.remaining _ hs
  exact pending_receive buffer fun d hd => (hs d hd).trans_lt (by decide)

theorem pending_cons {b : Batch} {d : Bytes} {chunks : List Bytes} (h : b.Pending (d::chunks)) :
    b.index < b.chunkNum ∧ b.chunk = d ∧ ∀ name, (b.advance name).Pending chunks := by
  have hbytes : Holds b.dataBuffer b.currentOffset (leBytes d.length ++ (d ++ encodeChunks chunks)) := by
    simpa [encodeChunks] using h.bytes
  obtain ⟨hlen,hrest⟩ := (holds_append _ _ _ _).mp hbytes
  obtain ⟨hd,hrest⟩ := (holds_append _ _ _ _).mp hrest
  have hsize : b.tmpChunkSize = d.length := by
    have hread : read b.dataBuffer b.currentOffset 4 = leBytes d.length := hlen
    rw [Batch.tmpChunkSize,hread,leWord_leBytes,u32_of_lt (h.sizes d (by simp))]
  have hcount := h.count
  simp only [List.length_cons] at hcount
  refine ⟨by omega,?_,?_⟩
  · rw [Batch.chunk,hsize]
    exact hd
  · intro name
    refine pending_finish ⟨by simp only; omega,?_,fun e he => h.sizes e (by simp [he])⟩
    rw [hsize]
    exact hrest

theorem remaining_cons {b : Batch} {d : Bytes} {chunks : List Bytes}
    (h : b.Remaining (d::chunks)) :
    b.index < b.chunkNum ∧ b.chunk = d ∧ ∀ name, (b.advance name).Remaining chunks := by
  obtain ⟨hlt,hchunk,hnext⟩ := pending_cons h.pending
  exact ⟨hlt,hchunk,fun name => (hnext name).remaining fun e he => h.small e (by simp [he])⟩

theorem pending_nil_of_idle {b : Batch} {chunks : List Bytes} (h : b.Pending chunks)
    (hidle : ¬ b.index < b.chunkNum) : chunks = [] := by
  have hcount := h.count
  exact List.length_eq_zero_iff.mp (by omega)

theorem remaining_nil_iff {b : Batch} {chunks : List Bytes} (h : b.Remaining chunks) :
    chunks = [] ↔ ¬ b.index < b.chunkNum := by
  have hcount := h.count
  constructor
  · rintro rfl
    simp only [List.length_nil] at hcount
    omega
  · intro hn
    exact List.length_eq_zero_iff.mp (by omega)

theorem dedupChunk_cases (uuid : ℕ → Bytes) (sh : Shared) (cl : ClientVar) (fp name chunk : Bytes) :
    (∃ id, sh.indexStore.lookup fp = some id ∧ dedupChunk uuid sh cl fp name chunk = ⟨sh,cl,id⟩) ∨
    (sh.indexStore.lookup fp = none ∧
      dedupChunk uuid sh cl fp name chunk =
        let s := saveChunk uuid sh.drawn cl fp chunk
        ⟨{ indexStore := insert sh.indexStore fp s.containerName
           uniqueChunkNum := (sh.uniqueChunkNum+1) % 2^64
           uniqueDataSize := (sh.uniqueDataSize+chunk.length) % 2^64
           drawn := s.drawn },s.client,s.containerName⟩) := by
  cases h : sh.indexStore.lookup fp with
  | none => exact Or.inr ⟨rfl,by simp [dedupChunk,query,h]⟩
  | some id => exact Or.inl ⟨id,rfl,by simp [dedupChunk,query,h]⟩

theorem dedupChunk_indexed (uuid : ℕ → Bytes) (sh : Shared) (cl : ClientVar)
    (fp name chunk : Bytes) :
    ∃ id, (dedupChunk uuid sh cl fp name chunk).shared.indexStore.lookup fp = some id := by
  rcases dedupChunk_cases uuid sh cl fp name chunk with ⟨id,hid,hdup⟩ | ⟨_,hsave⟩
  · exact ⟨id,by rw [hdup]; exact hid⟩
  · exact ⟨_,by rw [hsave]; exact Finmap.lookup_insert _⟩

end PlainIndex
end CloudServer
