import CloudServer.RestoreLoop

/-! `ProcessRecipeBatch` as a whole: groups of containers and batches of chunks end
independently of each other, and the last entry may end both. -/
namespace CloudServer
namespace RestoreStream

open ByteMemory ContainerFormat PlainIndex RecvDecoder RestoreTable Restore RestoreLoop
open Interaction Interaction.Prog
open StorageCore hiding ClientVar

/-- A division into messages: all of them full but the last, which is not empty. -/
structure Batches (gs : List (List Bytes)) : Prop where
  full : ∀ g ∈ gs.dropLast, g.length = sendChunkBatchSize
  nonempty : ∀ g ∈ gs, g ≠ []
  bounded : ∀ g ∈ gs, g.length ≤ sendChunkBatchSize
  small : ∀ g ∈ gs, ∀ d ∈ g, d.length ≤ maxChunkSize

theorem batches_length {gs : List (List Bytes)} (h : Batches gs) :
    gs.length = (gs.flatten.length+255)/256 := by
  cases hgs : gs using List.reverseRecOn with
  | nil => rfl
  | append_singleton front last =>
    subst hgs
    have hfront : front.flatten.length = sendChunkBatchSize*front.length :=
      flatten_length_of_uniform (by simpa using h.full)
    have hpos : 0 < last.length := List.length_pos_iff.mpr (h.nonempty last (by simp))
    have hle := h.bounded last (by simp)
    simp only [List.flatten_append,List.flatten_cons,List.flatten_nil,List.length_append,hfront,
      List.length_singleton,List.append_nil]
    simp only [sendChunkBatchSize] at hle ⊢
    omega

variable {index : Bytes → Option Bytes} {files : Bytes → Option (List Pair)}
  {fps : List Bytes} {clientID : ℕ}

def Finished (index : Bytes → Option Bytes) (files : Bytes → Option (List Pair)) (fps : List Bytes)
    (clientID : ℕ) (ms : List Message) (buf : SendMsgBuffer) : Prop :=
  ∃ gs, ms = gs.map (chunkMessage clientID) ∧ Batches gs ∧
    gs.flatten.map some = fps.map (chunkOf index files) ∧ Sending clientID buf []

def Progress (index : Bytes → Option Bytes) (files : Bytes → Option (List Pair)) (fps : List Bytes)
    (clientID i : ℕ) (ms : List Message) (p : Pass) : Prop :=
  if i < fps.length then
    p.client.idNum < containerCappingValue ∧
      Restored index files fps clientID p.startEntry ms p.client.sendChunkBuf
  else p.client.idNum = 0 ∧ Finished index files fps clientID ms p.client.sendChunkBuf

theorem returns_lastBatch {i : ℕ} {ms : List Message} {c : ClientVar} (hi : i+1 ≤ fps.length)
    (h : Restored index files fps clientID (i+1) ms c.sendChunkBuf) :
    ∃ qs buf, Returns (answer index (onDisk files)) (sendLastBatch fps.length i c) qs
        { c with sendChunkBuf := buf } ∧
      (if i+1 < fps.length then Restored index files fps clientID (i+1) (ms ++ sent qs) buf
        else Finished index files fps clientID (ms ++ sent qs) buf) := by
  obtain ⟨gs,pend,hstream,hcontent⟩ := h
  have hitems := hstream.sending.items
  have hmod : c.sendChunkBuf.header.currentItemNum % sendChunkBatchSize = pend.length := by
    rw [hitems,Nat.mod_eq_of_lt hstream.room]
  rw [sendLastBatch,hmod]
  by_cases hlast : i+1 = fps.length
  · have hend : ¬ i+1 < fps.length := by omega
    simp only [if_neg hend]
    rw [hlast,List.take_length] at hcontent
    by_cases hpend : pend = []
    · subst hpend
      refine ⟨[],c.sendChunkBuf,?_,gs,by simp [hstream.messages],?_,by simpa using hcontent,
        hstream.sending⟩
      · rw [if_neg (by simp)]
        exact returns_pure _
      · refine ⟨fun g hg => hstream.full g (List.dropLast_subset _ hg),?_,?_,hstream.small⟩
        · rintro g hg rfl
          simpa [sendChunkBatchSize] using hstream.full _ hg
        · exact fun g hg => Nat.le_of_eq (hstream.full g hg)
    · rw [if_pos ⟨hlast,by simpa using hpend⟩]
      refine ⟨_,_,returns_flushChunks hstream.sending,gs ++ [pend],?_,?_,by simpa using hcontent,
        sending_emptied hstream.sending⟩
      · rw [hstream.messages,List.map_append]
        rfl
      · have hmem : ∀ g ∈ gs ++ [pend], g ∈ gs ∨ g = pend := by simp
        refine ⟨by simpa using hstream.full,?_,?_,?_⟩
        · rintro g hg rfl
          rcases hmem _ hg with hold | hnew
          · simpa [sendChunkBatchSize] using hstream.full _ hold
          · exact hpend hnew.symm
        · intro g hg
          rcases hmem g hg with hold | rfl
          · exact Nat.le_of_eq (hstream.full g hold)
          · exact Nat.le_of_lt hstream.room
        · intro g hg
          rcases hmem g hg with hold | rfl
          · exact hstream.small g hold
          · exact hstream.sending.small
  · have hmore : i+1 < fps.length := by omega
    simp only [if_pos hmore]
    rw [if_neg (by simp [hlast])]
    exact ⟨[],c.sendChunkBuf,returns_pure _,gs,pend,by simpa using hstream,hcontent⟩

theorem kept_restored (hstore : Store index files) :
    Kept index files fps (Restored index files fps clientID) (Finished index files fps clientID) where
  recover _ _ _ _ _ _ _ hdone hfp hhash hchunk htable hdata :=
    returns_recoverEntry hdone hfp hhash hchunk (hstore.chunk_small hchunk) htable hdata
  last _ _ _ hi h := returns_lastBatch hi h

theorem progress_start {c : ClientVar} (hid : c.idNum = 0)
    (hbuf : Sending clientID c.sendChunkBuf []) :
    Progress index files fps clientID 0 [] ⟨c,∅,0⟩ := by
  have hempty : Batches [] := ⟨by simp,by simp,by simp,by simp⟩
  unfold Progress
  split_ifs with hn
  · exact ⟨by simp [hid,containerCappingValue],[],[],
      ⟨rfl,by simp,by simp,by decide,hbuf⟩,by simp⟩
  · have hnil : fps = [] := List.length_eq_zero_iff.mp (by omega)
    exact ⟨hid,[],rfl,hempty,by simp [hnil],hbuf⟩

theorem returns_tail {c : ClientVar} (h : Sending clientID c.sendChunkBuf [])
    (index disk : Bytes → Option Bytes) :
    Returns (answer index disk) (processRecipeTailBatch c) [.sendData (endMessage clientID)]
      { c with
        sendChunkBuf := { c.sendChunkBuf with
          header := { c.sendChunkBuf.header with messageType := .cloudSendChunkEnd } } } := by
  have hmsg : (⟨{ c.sendChunkBuf.header with messageType := .cloudSendChunkEnd },
      read c.sendChunkBuf.dataBuffer 0 c.sendChunkBuf.header.dataSize⟩ : Message) =
      endMessage clientID := by
    rw [h.size,endMessage,← h.client]
    have hzero : c.sendChunkBuf.header.dataSize = 0 := h.size
    have hitems : c.sendChunkBuf.header.currentItemNum = 0 := h.items
    simp [encodeChunks,hzero,hitems]
  have hsend : Returns (answer index disk) (sendData (endMessage clientID))
      [.sendData (endMessage clientID)] () := returns_request rfl
  unfold processRecipeTailBatch sendBatchChunks
  simp only [hmsg]
  exact returns_bind hsend (returns_pure _)

theorem returns_processRecipeBatch (hstore : Store index files)
    (hlen : ∀ fp ∈ fps, fp.length = chunkHashSize) (hindexed : ∀ fp ∈ fps, ∃ id, index fp = some id)
    (hfit : fps.flatten.length ≤ sendChunkBatchSize*(4+maxChunkSize)) {c : ClientVar}
    (hrequest : Holds c.sendChunkBuf.dataBuffer 0 fps.flatten)
    (hitems : c.sendChunkBuf.header.currentItemNum = 0) (hsize : c.sendChunkBuf.header.dataSize = 0)
    (hid : c.idNum = 0) (hcache : c.containerCache.Agrees (onDisk files)) :
    ∃ qs c' gs, Returns (answer index (onDisk files)) (processRecipeBatch fps.length c) qs c' ∧
      sent qs = gs.map (chunkMessage c.sendChunkBuf.header.clientID) ++
        [endMessage c.sendChunkBuf.header.clientID] ∧
      Batches gs ∧ gs.flatten.map some = fps.map (chunkOf index files) ∧
      c'.idNum = 0 ∧ c'.containerCache.Agrees (onDisk files) := by
  have hbytes : fps.flatten.length = chunkHashSize*fps.length := flatten_length_of_uniform hlen
  have hfit' : chunkHashSize*fps.length < 2^32 := by
    rw [← hbytes]
    exact hfit.trans_lt (by decide)
  have hbuf : Sending c.sendChunkBuf.header.clientID c.sendChunkBuf [] :=
    ⟨rfl,hitems,hsize,holds_nil _ _,by simp⟩
  obtain ⟨qs₁,s,hret₁,hsent₁,base,hs,hbase⟩ := returns_lookups (onDisk files) c
    (List.replicate containerIdLength 0) hlen hfit' hindexed hrequest
  obtain ⟨qs₂,p,hret₂,hcol,hprog⟩ := returns_processEntries (c := s.1) hstore.placed
    (kept_restored hstore) (by rw [hs]; exact hbase) (by rw [hs]; exact hid)
    (by rw [hs]; exact hcache) (progress_start (by rw [hs]; exact hid) (by rw [hs]; exact hbuf)) le_rfl
  change Progress index files fps c.sendChunkBuf.header.clientID fps.length (sent qs₂) p at hprog
  unfold Progress at hprog
  rw [if_neg (lt_irrefl _)] at hprog
  obtain ⟨hid',gs,hms,hbatches,hcontent,hend⟩ := hprog
  have htail := returns_tail hend index (onDisk files)
  refine ⟨_,_,gs,returns_bind hret₁ (returns_bind hret₂ htail),?_,hbatches,hcontent,hid',hcol.cache⟩
  rw [sent_append,sent_append,hsent₁,hms]
  rfl

def requestOf (clientID : ℕ) (fps : List Bytes) : Message :=
  ⟨⟨.edgeDownloadChunkReady,clientID,fps.flatten.length,fps.length⟩,fps.flatten⟩

def withRequest (m : Message) (c : ClientVar) : ClientVar :=
  { c with sendChunkBuf :=
    ⟨{ m.header with currentItemNum := 0, dataSize := 0 },
      write c.sendChunkBuf.dataBuffer 0 m.payload⟩ }

/-- A download session between two requests. -/
structure Idle (files : Bytes → Option (List Pair)) (c : ClientVar) : Prop where
  idNum : c.idNum = 0
  cache : c.containerCache.Agrees (onDisk files)

theorem asked_withRequest (hstore : Placed index files) {c : ClientVar}
    (h : Idle files c) (clientID : ℕ) (hindexed : ∀ fp ∈ fps, ∃ id, index fp = some id)
    (hle : fps.length ≤ sendChunkBatchSize) : Asked files fps (withRequest (requestOf clientID fps) c) := by
  have hlen : ∀ fp ∈ fps, fp.length = chunkHashSize := by
    intro fp hfp
    obtain ⟨id,hid⟩ := hindexed fp hfp
    exact hstore.fingerprint hid
  refine ⟨hlen,?_,holds_write_self _ 0 _,rfl,rfl,h.idNum,h.cache⟩
  rw [flatten_length_of_uniform hlen]
  simp only [chunkHashSize,sendChunkBatchSize,maxChunkSize] at hle ⊢
  omega

/-- The message stream of a batch. The request lies in the buffer that the replies
are built in; no container number reaches the capping value at a write, since that
would be the fault `idBufferOverrun`. -/
theorem restore_stream (index : Bytes → Option Bytes) (files : Bytes → Option (List Pair))
    (hstore : Store index files) (fps : List Bytes) (hlen : ∀ fp ∈ fps, fp.length = chunkHashSize)
    (hindexed : ∀ fp ∈ fps, ∃ id, index fp = some id)
    (hfit : fps.flatten.length ≤ sendChunkBatchSize*(4+maxChunkSize)) (c : ClientVar)
    (hrequest : Holds c.sendChunkBuf.dataBuffer 0 fps.flatten)
    (hitems : c.sendChunkBuf.header.currentItemNum = 0) (hsize : c.sendChunkBuf.header.dataSize = 0)
    (hid : c.idNum = 0) (hcache : c.containerCache.Agrees (onDisk files)) :
    ∃ (qs : List Request) (c' : ClientVar) (gs : List (List Bytes)),
      eval (answer index (onDisk files)) (processRecipeBatch fps.length c) = (qs,.ok c') ∧
      sent qs = gs.map (chunkMessage c.sendChunkBuf.header.clientID) ++
        [endMessage c.sendChunkBuf.header.clientID] ∧
      gs.length = (fps.length+255)/256 ∧
      (∀ g ∈ gs.dropLast, g.length = 256) ∧
      (∀ g ∈ gs, (encodeChunks g).length ≤ 256*(4+maxChunkSize)) ∧
      gs.flatten.map some = fps.map (chunkOf index files) ∧
      c'.idNum = 0 ∧ c'.containerCache.Agrees (onDisk files) := by
  obtain ⟨qs,c',gs,hret,hsent,hbatches,hcontent,hid',hcache'⟩ :=
    returns_processRecipeBatch hstore hlen hindexed hfit hrequest hitems hsize hid hcache
  refine ⟨qs,c',gs,hret,hsent,?_,hbatches.full,?_,hcontent,hid',hcache'⟩
  · have hcount := congrArg List.length hcontent
    simp only [List.length_map] at hcount
    rw [batches_length hbatches,hcount]
  · intro g hg
    have hsmall := encodeChunks_length_le (hbatches.small g hg)
    have hle := hbatches.bounded g hg
    calc (encodeChunks g).length ≤ g.length*(4+maxChunkSize) := hsmall
      _ ≤ 256*(4+maxChunkSize) := Nat.mul_le_mul_right _ hle

def oneFile (id : Bytes) : Option (List Pair) :=
  if id = [9] then some [(List.replicate 32 1,[5,6])] else none

def oneIndex (fp : Bytes) : Option Bytes := if fp = List.replicate 32 1 then some [9] else none

theorem oneStore : Store oneIndex oneFile := by
  have hone : Deduped oneIndex oneFile := deduped_entry [9] rfl (by decide)
  refine ⟨hone.hashed,hone.size,hone.nodup,?_,hone.unique,hone.located⟩
  intro id ps p hps hp
  unfold oneFile at hps
  split_ifs at hps
  obtain rfl := Option.some.inj hps
  obtain rfl := List.mem_singleton.mp hp
  decide

/-- The same chunk requested twice comes back twice, in one message. -/
theorem restore_stream_twice :
    ∃ qs c', eval (answer oneIndex (onDisk oneFile)) (processRecipeBatch 2
        ⟨⟨⟨.edgeDownloadChunkReady,3,0,0⟩,fun _ => 1⟩,fun _ => [],fun _ _ => 0,0,
          ReadCache.new 1 fun _ _ => 0,fun _ => ⟨[],[],0,0,0⟩⟩) = (qs,.ok c') ∧
      sent qs = [chunkMessage 3 [[5,6],[5,6]],endMessage 3] := by
  obtain ⟨qs,c',gs,heval,hsent,hcount,_,_,hcontent,_⟩ := restore_stream oneIndex oneFile oneStore
    [List.replicate 32 1,List.replicate 32 1] (by decide) (by simp [oneIndex]) (by decide)
    ⟨⟨⟨.edgeDownloadChunkReady,3,0,0⟩,fun _ => 1⟩,fun _ => [],fun _ _ => 0,0,
      ReadCache.new 1 fun _ _ => 0,fun _ => ⟨[],[],0,0,0⟩⟩ rfl rfl rfl rfl
    (ReadCache.agrees_new _ Nat.one_pos _)
  refine ⟨qs,c',heval,?_⟩
  obtain ⟨g,rfl⟩ := List.length_eq_one_iff.mp hcount
  have hg : g.map some = [some [5,6],some [5,6]] := by
    simpa [chunkOf,oneIndex,oneFile] using hcontent
  have hlist : g = [[5,6],[5,6]] := List.map_injective_iff.mpr (Option.some_injective _) hg
  rw [hsent,hlist]
  rfl

end RestoreStream
end CloudServer
