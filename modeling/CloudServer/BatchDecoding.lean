import CloudServer.DataReceiver
import CloudServer.DedupInvariant

/-! Decoding of a chunk message (`ProcessOneBatch`). On an encoded list of chunks the
walk over the bytes is the one-chunk operation folded over the list, whatever the
strings hold that the loop carries from round to round, so the cut of a list into
batches does not matter. What the walk reads is compared with what was received. -/
namespace CloudServer
namespace BatchDecoding

open ByteMemory StorageCore PlainIndex DataReceiver
open RecvDecoder (Message)

/-- What a batch changes: index and unique counters, and the containers of the session. -/
def stored (r : Receiver) : Shared × StorageCore.ClientVar := (r.shared,r.client)

/-- The one-chunk operation: hash the chunk; if the hash is absent, save the chunk,
bind the hash to its container, and count it. -/
def storeChunk (H : Digest) (uuid : ℕ → Bytes) (t : Shared × StorageCore.ClientVar)
    (chunk : Bytes) : Shared × StorageCore.ClientVar :=
  match t.1.indexStore.lookup (H.hash chunk) with
  | some _ => t
  | none =>
    let s := saveChunk uuid t.1.drawn t.2 (H.hash chunk) chunk
    ({ indexStore := Database.insert t.1.indexStore (H.hash chunk) s.containerName
       uniqueChunkNum := (t.1.uniqueChunkNum+1) % 2^64
       uniqueDataSize := (t.1.uniqueDataSize+chunk.length) % 2^64
       drawn := s.drawn },s.client)

def storeChunks (H : Digest) (uuid : ℕ → Bytes) (t : Shared × StorageCore.ClientVar)
    (chunks : List Bytes) : Shared × StorageCore.ClientVar :=
  chunks.foldl (storeChunk H uuid) t

/-- The name left over from the round before does not reach the result. -/
theorem dedupChunk_storeChunk (H : Digest) (uuid : ℕ → Bytes) (sh : Shared)
    (cl : StorageCore.ClientVar) (name chunk : Bytes) :
    let l := dedupChunk uuid sh cl (H.hash chunk) name chunk
    (l.shared,l.client) = storeChunk H uuid (sh,cl) chunk := by
  rcases dedupChunk_cases uuid sh cl (H.hash chunk) name chunk with ⟨id,hid,hdup⟩ | ⟨hnone,hsave⟩
  · simp only [hdup,storeChunk,hid]
  · simp only [hsave,storeChunk,hnone]

theorem batchRounds_pending (H : Digest) (uuid : ℕ → Bytes) {chunks : List Bytes} :
    ∀ (sh : Shared) (cl : StorageCore.ClientVar) {b : Batch}, b.Pending chunks →
      let t := batchRounds H uuid chunks.length (sh,cl,b)
      (t.1,t.2.1) = storeChunks H uuid (sh,cl) chunks := by
  induction chunks with
  | nil =>
    intro sh cl b _
    rfl
  | cons d chunks ih =>
    intro sh cl b hb
    obtain ⟨hlt,hchunk,hnext⟩ := pending_cons hb
    have hone := dedupChunk_storeChunk H uuid sh cl b.containerNameStr d
    simp only [List.length_cons,batchRounds,batchStep,hlt,if_true,hchunk]
    rw [ih _ _ (hnext _)]
    simp only [storeChunks,List.foldl_cons,← hone]

theorem stored_processOneBatch (H : Digest) (uuid : ℕ → Bytes) {chunks : List Bytes}
    (hs : ∀ d ∈ chunks, d.length < 2^32) {r : Receiver}
    (hnum : r.recvChunkBuf.header.currentItemNum = chunks.length)
    (hbuf : Holds r.recvChunkBuf.dataBuffer 0 (encodeChunks chunks)) :
    stored (processOneBatch H uuid r) = storeChunks H uuid (stored r) chunks := by
  have hpending := pending_finish (b := ⟨r.recvChunkBuf.dataBuffer,chunks.length,0,0,
    List.replicate containerIdLength 0⟩) ⟨by simp,hbuf,hs⟩
  have hrounds := batchRounds_pending H uuid r.shared r.client hpending
  simpa only [stored,processOneBatch,hnum] using hrounds

structure Carries (m : Message) (chunks : List Bytes) : Prop where
  count : m.header.currentItemNum = chunks.length
  payload : m.payload = encodeChunks chunks

def deliver (H : Digest) (uuid : ℕ → Bytes) (r : Receiver) (m : Message) : Receiver :=
  processOneBatch H uuid { r with recvChunkBuf := receiveData m r.recvChunkBuf }

theorem receive_chunk (H : Digest) (uuid : ℕ → Bytes) (cfg : Configure) {m : Message}
    (htype : m.header.messageType = .edgeMigrationChunk)
    (hfit : m.payload.length ≤ recvChunkBufSize) (r : Receiver) :
    receive H uuid cfg m r = .ok (deliver H uuid r m) := by
  simp [receive,hfit,dispatch,receiveData,htype,deliver]

/-- The loop of `Run` on chunk messages that fit the receive buffer. -/
theorem receiveAll_chunks (H : Digest) (uuid : ℕ → Bytes) (cfg : Configure) {ms : List Message}
    (hms : ∀ m ∈ ms, m.header.messageType = .edgeMigrationChunk ∧
      m.payload.length ≤ recvChunkBufSize) (r : Receiver) :
    receiveAll H uuid cfg ms r = .ok (ms.foldl (deliver H uuid) r) := by
  induction ms generalizing r with
  | nil => rfl
  | cons m ms ih =>
    obtain ⟨htype,hfit⟩ := hms m (by simp)
    rw [receiveAll,receive_chunk H uuid cfg htype hfit]
    exact ih (fun m' hm' => hms m' (by simp [hm'])) _

theorem stored_deliver (H : Digest) (uuid : ℕ → Bytes) {chunks : List Bytes}
    (hs : ∀ d ∈ chunks, d.length < 2^32) {m : Message} (hm : Carries m chunks) (r : Receiver) :
    stored (deliver H uuid r m) = storeChunks H uuid (stored r) chunks := by
  apply stored_processOneBatch H uuid hs (r := { r with recvChunkBuf := receiveData m r.recvChunkBuf })
  · exact hm.count
  · rw [← hm.payload]
    exact holds_write_self r.recvChunkBuf.dataBuffer 0 m.payload

theorem stored_delivers (H : Digest) (uuid : ℕ → Bytes) {ms : List Message}
    {batches : List (List Bytes)} (hms : List.Forall₂ Carries ms batches) :
    (∀ d ∈ batches.flatten, d.length < 2^32) → ∀ r : Receiver,
      stored (ms.foldl (deliver H uuid) r) = storeChunks H uuid (stored r) batches.flatten := by
  induction hms with
  | nil =>
    intro _ r
    rfl
  | @cons m b ms batches hm _ ih =>
    intro hs r
    have hb : ∀ d ∈ b, d.length < 2^32 := fun d hd => hs d (by simp [hd])
    have hrest : ∀ d ∈ batches.flatten, d.length < 2^32 := fun d hd => hs d (by
      rw [List.flatten_cons,List.mem_append]
      exact Or.inr hd)
    rw [List.foldl_cons,ih hrest,stored_deliver H uuid hb hm]
    simp only [storeChunks,List.flatten_cons,List.foldl_append]

/-- A batch is the one-chunk operation on its chunks in order; any cut of a chunk list
into batches ends in the same index, containers, counters and number of identifiers
drawn as the list in one batch. -/
theorem batch_decoding (H : Digest) (uuid : ℕ → Bytes) (chunks : List Bytes)
    (hs : ∀ d ∈ chunks, d.length ≤ maxChunkSize) (r : Receiver) :
    (r.recvChunkBuf.header.currentItemNum = chunks.length →
      Holds r.recvChunkBuf.dataBuffer 0 (encodeChunks chunks) →
      stored (processOneBatch H uuid r) = storeChunks H uuid (stored r) chunks) ∧
    ∀ (ms : List Message) (batches : List (List Bytes)), batches.flatten = chunks →
      List.Forall₂ Carries ms batches → ∀ m, Carries m chunks →
      stored (ms.foldl (deliver H uuid) r) = stored (deliver H uuid r m) := by
  have hsize : ∀ d ∈ chunks, d.length < 2^32 := fun d hd => (hs d hd).trans_lt (by decide)
  constructor
  · intro hnum hbuf
    exact stored_processOneBatch H uuid hsize hnum hbuf
  · intro ms batches hcut hms m hm
    subst hcut
    rw [stored_delivers H uuid hms hsize,stored_deliver H uuid hsize hm]

def blankReceiver : Receiver where
  files _ := none
  writeHandler _ := OutputStream.closed
  recvChunkBuf := ⟨⟨.edgeLoginResponse,0,0,0⟩,fun _ => 9⟩
  uploadDataSize := 0
  shared := ⟨∅,0,0,1⟩
  client := ⟨⟨[0],0,fun _ => 0,0,fun _ => 0,0⟩,[]⟩
  sent := []

def batchOf (chunks : List Bytes) : Message :=
  ⟨⟨.edgeMigrationChunk,7,(encodeChunks chunks).length,chunks.length⟩,encodeChunks chunks⟩

theorem carries_batchOf (chunks : List Bytes) : Carries (batchOf chunks) chunks := ⟨rfl,rfl⟩

theorem batch_decoding_two_batches :
    stored (deliver DedupInvariant.paddedDigest (fun n => [UInt8.ofNat n])
        blankReceiver (batchOf [[5,6],[],[5,6]])) =
      storeChunks DedupInvariant.paddedDigest (fun n => [UInt8.ofNat n]) (stored blankReceiver)
        [[5,6],[],[5,6]] ∧
    stored ([batchOf [[5,6]],batchOf [[],[5,6]]].foldl
        (deliver DedupInvariant.paddedDigest fun n => [UInt8.ofNat n]) blankReceiver) =
      stored (deliver DedupInvariant.paddedDigest (fun n => [UInt8.ofNat n])
        blankReceiver (batchOf [[5,6],[],[5,6]])) := by
  have hs : ∀ d ∈ [[5,6],[],[5,6]], (d : Bytes).length ≤ maxChunkSize := by decide
  constructor
  · exact (batch_decoding _ _ _ hs { blankReceiver with
      recvChunkBuf := receiveData (batchOf [[5,6],[],[5,6]]) blankReceiver.recvChunkBuf }).1 rfl
      (holds_write_self _ 0 _)
  · apply (batch_decoding _ _ _ hs blankReceiver).2 _ [[[5,6]],[[],[5,6]]] rfl _ _ (carries_batchOf _)
    exact .cons (carries_batchOf _) (.cons (carries_batchOf _) .nil)

/-- The ranges of the receive buffer, offset and size, that the rounds of the loop read:
each length field, and each chunk where it is hashed and saved. -/
def batchReads (H : Digest) (uuid : ℕ → Bytes) :
    ℕ → Shared × StorageCore.ClientVar × Batch → List (ℕ × ℕ)
  | 0, _ => []
  | n+1, t =>
    match batchStep H uuid t.1 t.2.1 t.2.2 with
    | some t' => (t.2.2.currentOffset,4)::(t.2.2.currentOffset+4,t.2.2.tmpChunkSize)::
        batchReads H uuid n t'
    | none => []

/-- What `ProcessOneBatch` reads of a received message lies within its payload. -/
def ReadsInside (H : Digest) (uuid : ℕ → Bytes) (r : Receiver) (m : Message) : Prop :=
  ∀ a ∈ batchReads H uuid m.header.currentItemNum (r.shared,r.client,
      Batch.receive r.recvChunkBuf.dataBuffer m.header.currentItemNum m.payload),
    a.1+a.2 ≤ m.payload.length

def BeginsWith (n : ℕ) (p : Bytes) : Prop :=
  ∃ (chunks : List Bytes) (rest : Bytes), chunks.length = n ∧ (∀ d ∈ chunks, d.length < 2^32) ∧
    p = encodeChunks chunks ++ rest

theorem encodeChunks_cons (d : Bytes) (chunks : List Bytes) :
    encodeChunks (d::chunks) = leBytes d.length ++ (d ++ encodeChunks chunks) := by
  simp [encodeChunks]

theorem beginsWith_succ (n : ℕ) (p : Bytes) :
    BeginsWith (n+1) p ↔ 4 ≤ p.length ∧ 4+leWord (p.take 4) ≤ p.length ∧
      BeginsWith n (p.drop (4+leWord (p.take 4))) := by
  constructor
  · rintro ⟨chunks,rest,hlen,hs,rfl⟩
    match chunks, hlen with
    | d::chunks, hlen =>
      have hsize : leWord ((encodeChunks (d::chunks) ++ rest).take 4) = d.length := by
        rw [encodeChunks_cons,List.append_assoc,List.take_left' (leBytes_length _),leWord_leBytes,
          u32_of_lt (hs d (by simp))]
      rw [hsize]
      refine ⟨by simp [encodeChunks_cons],by simp [encodeChunks_cons],chunks,rest,
        by simpa using hlen,fun e he => hs e (by simp [he]),?_⟩
      rw [encodeChunks_cons,List.append_assoc,List.append_assoc,← List.append_assoc (leBytes _)]
      exact List.drop_left' (by simp)
  · rintro ⟨hfield,hslice,chunks,rest,hlen,hs,hrest⟩
    have hw : (p.take 4).length = 4 := by simp [hfield]
    have hd : ((p.drop 4).take (leWord (p.take 4))).length = leWord (p.take 4) := by
      simp
      omega
    have hlt : leWord (p.take 4) < 2^32 := by
      have := leWord_lt (p.take 4)
      rwa [hw] at this
    refine ⟨(p.drop 4).take (leWord (p.take 4))::chunks,rest,by simp [hlen],?_,?_⟩
    · intro e he
      rcases List.mem_cons.mp he with rfl | he
      · rwa [hd]
      · exact hs e he
    · rw [encodeChunks_cons,hd,leBytes_leWord hw,List.append_assoc,List.append_assoc,← hrest,
        ← List.drop_drop,List.take_append_drop,List.take_append_drop]

/-- The loop with `n` rounds to go; the buffer is cleared only after the last one. -/
structure Receiving (b : Batch) (p : Bytes) (n : ℕ) : Prop where
  count : b.index+n = b.chunkNum
  bytes : n ≠ 0 → Holds b.dataBuffer 0 p

theorem receiving_finish {b : Batch} {p : Bytes} {n : ℕ} (h : Receiving b p n) :
    Receiving b.finish p n := by
  have hcount := h.count
  unfold Batch.finish
  split_ifs with hlt
  · exact h
  · exact ⟨hcount,fun hn => absurd (show b.index < b.chunkNum by omega) hlt⟩

theorem readsInside_rounds (H : Digest) (uuid : ℕ → Bytes) (p : Bytes) {n : ℕ} :
    ∀ (sh : Shared) (cl : StorageCore.ClientVar) {b : Batch}, Receiving b p n →
      ((∀ a ∈ batchReads H uuid n (sh,cl,b), a.1+a.2 ≤ p.length) ↔
        BeginsWith n (p.drop b.currentOffset)) := by
  induction n with
  | zero =>
    intro sh cl b _
    simp [batchReads,BeginsWith,encodeChunks]
  | succ n ih =>
    intro sh cl b hb
    have hcount := hb.count
    have hlt : b.index < b.chunkNum := by omega
    have hnext : ∀ name, Receiving (b.advance name) p n := fun name =>
      receiving_finish ⟨by simp only; omega,fun _ => hb.bytes (by omega)⟩
    have hoff : ∀ name, (b.advance name).currentOffset = b.currentOffset+4+b.tmpChunkSize := by
      intro name
      unfold Batch.advance Batch.finish
      split_ifs <;> rfl
    simp only [batchReads,batchStep,hlt,if_true,List.forall_mem_cons]
    rw [ih _ _ (hnext _),hoff,beginsWith_succ,List.drop_drop,List.length_drop]
    by_cases hfield : b.currentOffset+4 ≤ p.length
    · have hsize : b.tmpChunkSize = leWord ((p.drop b.currentOffset).take 4) := by
        rw [Batch.tmpChunkSize,read_holds (hb.bytes (by omega)) hfield]
      rw [← hsize,Nat.add_assoc b.currentOffset]
      constructor
      · rintro ⟨_,hslice,hrest⟩
        exact ⟨by omega,by omega,hrest⟩
      · rintro ⟨_,hslice,hrest⟩
        exact ⟨by omega,by omega,hrest⟩
    · -- the length field itself is behind the end
      constructor
      · rintro ⟨hin,_⟩
        exact absurd hin hfield
      · rintro ⟨hin,_⟩
        omega

/-- The walk stays inside the received payload exactly if the payload begins with as
many records as the header counts. -/
theorem reads_inside_iff (H : Digest) (uuid : ℕ → Bytes) (r : Receiver) (m : Message) :
    ReadsInside H uuid r m ↔ BeginsWith m.header.currentItemNum m.payload := by
  have hstart : Receiving (Batch.receive r.recvChunkBuf.dataBuffer m.header.currentItemNum m.payload)
      m.payload m.header.currentItemNum :=
    receiving_finish ⟨by simp,fun _ => holds_write_self r.recvChunkBuf.dataBuffer 0 m.payload⟩
  have hoff : (Batch.receive r.recvChunkBuf.dataBuffer m.header.currentItemNum
      m.payload).currentOffset = 0 := by
    unfold Batch.receive Batch.finish
    split_ifs <;> rfl
  rw [ReadsInside,readsInside_rounds H uuid m.payload r.shared r.client hstart,hoff,List.drop_zero]

/-- A chunk of five bytes is announced and one byte of it is sent: four bytes that the
message before left in the buffer are hashed and saved with it. -/
def shortBatch : Message := ⟨⟨.edgeMigrationChunk,7,5,1⟩,leBytes 5 ++ [1]⟩

theorem shortBatch_reads_behind :
    receive DedupInvariant.paddedDigest (fun n => [UInt8.ofNat n]) ⟨[],512⟩ shortBatch blankReceiver =
        .ok (deliver DedupInvariant.paddedDigest (fun n => [UInt8.ofNat n]) blankReceiver shortBatch) ∧
      ¬ ReadsInside DedupInvariant.paddedDigest (fun n => [UInt8.ofNat n]) blankReceiver shortBatch ∧
      (deliver DedupInvariant.paddedDigest (fun n => [UInt8.ofNat n])
        blankReceiver shortBatch).shared.indexStore.lookup
          (DedupInvariant.paddedDigest.hash [1,9,9,9,9]) = some [0] := by
  refine ⟨receive_chunk _ _ _ rfl (by decide) _,?_,by decide⟩
  intro h
  exact absurd (h (4,5) (by decide)) (by decide)

end BatchDecoding
end CloudServer
