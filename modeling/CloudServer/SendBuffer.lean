import CloudServer.RoundTrip

/-! The writes into the send buffer. The upload bounds a message as a whole, the
download the number of chunks in a message, so that the buffer is large enough exactly
as long as no stored chunk is longer than `MAX_CHUNK_SIZE`. -/
namespace CloudServer
namespace SendBuffer

open ByteMemory Execution ContainerFormat Packing PlainIndex Uploads UploadInvariant DedupInvariant
  RestoreTable Restore RestoreLoop RestoreStream RoundTrip
open Interaction Interaction.Prog
open DataWriter hiding Session Event step Inv
open RecvDecoder hiding ClientVar

def chunkBufferSize : ℕ := sendChunkBatchSize*(4+maxChunkSize)

/-- Whenever `RecoverOneChunk` is called in the course of a batch, the length field and
the chunk that it writes end inside the send buffer. -/
def WritesInside (answer : (q : Request) → Except Fault (Reply q)) (recipeNum : ℕ)
    (c : RecvDecoder.ClientVar) : Prop :=
  ∀ table k c' r, AtEntry answer recipeNum c table k c' →
    table.lookup (c'.downloadChunkBase k).chunkHash = some r →
    c'.sendChunkBuf.header.dataSize+(4+r.length) ≤ chunkBufferSize

def sizes (index : Bytes → Option Bytes) (files : Bytes → Option (List Pair)) (fps : List Bytes) :
    List ℕ :=
  fps.map fun fp => 4+((chunkOf index files fp).getD []).length

/-- Up to the 256th entry the buffer fills up with the requested chunks. -/
def Filling (index : Bytes → Option Bytes) (files : Bytes → Option (List Pair)) (fps : List Bytes)
    (k : ℕ) (_ : List Message) (buf : SendMsgBuffer) : Prop :=
  k < sendChunkBatchSize → buf.header.currentItemNum = k ∧
    buf.header.dataSize = ((sizes index files fps).take k).sum

variable {index : Bytes → Option Bytes} {files : Bytes → Option (List Pair)} {fps : List Bytes}

theorem sizes_take_succ {k : ℕ} {fp d : Bytes} (hfp : fps[k]? = some fp)
    (hd : chunkOf index files fp = some d) :
    ((sizes index files fps).take (k+1)).sum = ((sizes index files fps).take k).sum+(4+d.length) := by
  have hk : (sizes index files fps)[k]? = some (4+d.length) := by
    simp [sizes,hfp,hd]
  rw [List.take_add_one,hk]
  simp

theorem sizes_take_le (hstore : Placed index files) (fps : List Bytes) (k : ℕ) :
    ((sizes index files fps).take k).sum ≤ k*(4+maxContainerSize) := by
  have hone : ∀ n ∈ (sizes index files fps).take k, n ≤ 4+maxContainerSize := by
    intro n hn
    obtain ⟨fp,_,rfl⟩ := List.mem_map.mp (List.mem_of_mem_take hn)
    cases hd : chunkOf index files fp with
    | none => simp
    | some d =>
      have hlt := hstore.chunk_lt hd
      simp only [Option.getD_some]
      omega
  calc ((sizes index files fps).take k).sum
      ≤ ((sizes index files fps).take k).length*(4+maxContainerSize) :=
        List.sum_le_card_nsmul _ _ hone
    _ ≤ k*(4+maxContainerSize) := Nat.mul_le_mul_right _ (by simp)

theorem kept_filling (hstore : Placed index files) :
    Kept index files fps (Filling index files fps) fun _ _ => True where
  recover c k ms fp d table r hfill hfp hhash hchunk htable hdata := by
    obtain ⟨qs,buf,hret,hbuf⟩ := returns_recover index (onDisk files) (hhash ▸ htable)
    refine ⟨qs,buf,hret,?_⟩
    intro hk
    obtain ⟨hitems,hsize⟩ := hfill (by omega)
    have hlen : r.length = d.length := by rw [← hdata,read_length]
    have hsum := sizes_take_succ hfp hchunk
    have hbound := sizes_take_le hstore fps (k+1)
    simp only [sendChunkBatchSize] at hk
    have hitems' : (recovered c k r).sendChunkBuf.header.currentItemNum = k+1 := by
      simp only [recovered,recoverOneChunk,hitems]
      exact u32_of_lt (by omega)
    have hsize' : (recovered c k r).sendChunkBuf.header.dataSize =
        ((sizes index files fps).take (k+1)).sum := by
      simp only [recovered,recoverOneChunk,placed,hsize,hlen,← hsum]
      refine u32_of_lt (hbound.trans_lt ?_)
      simp only [maxContainerSize]
      omega
    rw [hbuf (by rw [hitems',sendChunkBatchSize,Nat.mod_eq_of_lt hk]; omega)]
    exact ⟨hitems',hsize'⟩
  last c i ms hi hfill := by
    obtain ⟨qs,buf,hret,hbuf⟩ := returns_sendLast index (onDisk files) fps.length i c
    refine ⟨qs,buf,hret,?_⟩
    split_ifs with hmore
    · rw [hbuf hmore]
      exact hfill

/-- The writes of a batch of at most 256 entries lie inside the buffer exactly if all of
its chunks together fit. -/
theorem writesInside_iff (hstore : Placed index files) {c : RecvDecoder.ClientVar}
    (hasked : Asked files fps c) (hindexed : ∀ fp ∈ fps, ∃ id, index fp = some id)
    (hle : fps.length ≤ sendChunkBatchSize) :
    WritesInside (answer index (onDisk files)) fps.length c ↔
      (sizes index files fps).sum ≤ chunkBufferSize := by
  have hstart : Filling index files fps 0 [] c.sendChunkBuf := fun _ =>
    ⟨hasked.items,by simpa using hasked.dataSize⟩
  have hwrite : ∀ {table k c' r}, AtEntry (answer index (onDisk files)) fps.length c table k c' →
      table.lookup (c'.downloadChunkBase k).chunkHash = some r →
      k < fps.length ∧
      c'.sendChunkBuf.header.dataSize+(4+r.length) = ((sizes index files fps).take (k+1)).sum := by
    intro table k c' r hat hr
    obtain ⟨⟨⟨fp,hfp,hkey,_⟩,d,r',hd,hr',hlen⟩,ms,hfill⟩ :=
      found_atEntry hstore (kept_filling hstore) hasked hindexed hstart hat
    obtain rfl : r' = r := Option.some.inj (hr'.symm.trans hr)
    have hk := (List.getElem?_eq_some_iff.mp hfp).1
    rw [sizes_take_succ hfp (hkey ▸ hd),(hfill (by omega)).2,hlen]
    exact ⟨hk,rfl⟩
  constructor
  · intro h
    cases hn : fps.length with
    | zero => simp [sizes,List.length_eq_zero_iff.mp hn]
    | succ k =>
      obtain ⟨table,c',hat⟩ := exists_atEntry hstore (kept_filling hstore) hasked hindexed hstart
        hn.symm
      obtain ⟨⟨_,d,r,_,hr,_⟩,_⟩ :=
        found_atEntry hstore (kept_filling hstore) hasked hindexed hstart hat
      have hin := h table k c' r hat hr
      rw [(hwrite hat hr).2,List.take_of_length_le (by simp [sizes,hn])] at hin
      exact hin
  · intro h table k c' r hat hr
    rw [(hwrite hat hr).2]
    exact ((List.take_sublist _ _).sum_le_sum (by simp)).trans h

def blank : RecvDecoder.ClientVar :=
  ⟨⟨⟨.edgeDownloadChunkLogin,0,0,0⟩,fun _ => 0⟩,fun _ => [],fun _ _ => 0,0,
    ReadCache.new 1 fun _ _ => 0,fun _ => ⟨[],[],0,0,0⟩⟩

theorem idle_blank (files : Bytes → Option (List Pair)) : Idle files blank :=
  ⟨rfl,ReadCache.agrees_new _ Nat.one_pos _⟩

/-- A stored chunk that is too long overruns the buffer when it is asked for 256 times. -/
theorem overruns_of_long (hstore : Placed index files) {c : RecvDecoder.ClientVar}
    (h : Idle files c) (clientID : ℕ) {fp d : Bytes} (hd : chunkOf index files fp = some d)
    (hlong : maxChunkSize < d.length) :
    ¬ WritesInside (answer index (onDisk files)) sendChunkBatchSize
      (withRequest (requestOf clientID (List.replicate sendChunkBatchSize fp)) c) := by
  obtain ⟨id,hid,_⟩ := Option.bind_eq_some_iff.mp hd
  have hindexed : ∀ fp' ∈ List.replicate sendChunkBatchSize fp, ∃ id, index fp' = some id := by
    intro fp' hfp'
    exact ⟨id,by rw [List.eq_of_mem_replicate hfp',hid]⟩
  have hlength : (List.replicate sendChunkBatchSize fp).length = sendChunkBatchSize := by simp
  have hiff := writesInside_iff hstore (asked_withRequest hstore h clientID hindexed hlength.le)
    hindexed hlength.le
  rw [hlength] at hiff
  rw [hiff]
  simp only [sizes,List.map_replicate,hd,Option.getD_some,List.sum_replicate,smul_eq_mul,
    chunkBufferSize,sendChunkBatchSize]
  omega

/-- All batches that can be asked for fit exactly if no stored chunk is too long. -/
theorem writesInside_all_iff (hstore : Placed index files) :
    (∀ fps c, fps.length ≤ sendChunkBatchSize → (∀ fp ∈ fps, ∃ id, index fp = some id) →
      Asked files fps c → WritesInside (answer index (onDisk files)) fps.length c) ↔
    ∀ fp d, chunkOf index files fp = some d → d.length ≤ maxChunkSize := by
  constructor
  · intro h fp d hd
    obtain ⟨id,hid,_⟩ := Option.bind_eq_some_iff.mp hd
    by_contra hlong
    apply overruns_of_long hstore (idle_blank files) 0 hd (by omega)
    have hbatch := h (List.replicate sendChunkBatchSize fp)
      (withRequest (requestOf 0 (List.replicate sendChunkBatchSize fp)) blank)
    rw [List.length_replicate] at hbatch
    apply hbatch le_rfl ?_ (asked_withRequest hstore (idle_blank files) 0 ?_ (by simp)) <;>
    · intro fp' hfp'
      exact ⟨id,by rw [List.eq_of_mem_replicate hfp',hid]⟩
  · intro h fps c hle hindexed hasked
    apply (writesInside_iff hstore hasked hindexed hle).mpr
    have hone : ∀ n ∈ sizes index files fps, n ≤ 4+maxChunkSize := by
      intro n hn
      obtain ⟨fp,_,rfl⟩ := List.mem_map.mp hn
      cases hd : chunkOf index files fp with
      | none => simp
      | some d =>
        have hsmall := h fp d hd
        simp only [Option.getD_some]
        omega
    calc (sizes index files fps).sum
        ≤ (sizes index files fps).length*(4+maxChunkSize) := List.sum_le_card_nsmul _ _ hone
      _ ≤ chunkBufferSize := Nat.mul_le_mul_right _ (by simpa [sizes] using hle)

theorem idle_session (hstore : Store index files) {ready : Message}
    (hready : ready.header.messageType = .edgeReceiveReady) (prior : RecvDecoder.ClientVar)
    (clientID : ℕ) {readCacheSize : ℕ} (hcache : 1 ≤ readCacheSize) (pool : Mem (Mem UInt8))
    {batches : List (List Bytes)}
    (hbatches : ∀ fps ∈ batches, fps.length ≤ sendChunkBatchSize ∧
      ∀ fp ∈ fps, ∃ id, index fp = some id) {c : RecvDecoder.ClientVar}
    (hc : Yields (answer index (onDisk files)) (RecvDecoder.run ready
      (batches.map (requestOf clientID))
      (initDownloadChunkBuffer prior clientID readCacheSize pool)) c) : Idle files c := by
  have hstart := returns_receiveReady index (onDisk files) hready
    (initDownloadChunkBuffer prior clientID readCacheSize pool)
  obtain ⟨qs,c',hret,hidle,_⟩ := returns_batches hstore
    (c := { initDownloadChunkBuffer prior clientID readCacheSize pool with
      sendChunkBuf := ⟨ready.header,write prior.sendChunkBuf.dataBuffer 0 ready.payload⟩ })
    ⟨rfl,ReadCache.agrees_new _ hcache pool⟩ clientID hbatches
  rw [hc.eq (returns_bind hstart hret)]
  exact hidle

/-- In every run of uploads whose chunks have at most `MAX_CHUNK_SIZE` bytes, whatever
batches a download session asks for, every write into the send buffer lies inside it. -/
theorem writes_inside_buffer (H : Digest) (uuid : ℕ → Bytes) (es : List Uploads.Event) (w : World)
    (h : Exec (step H uuid) empty es w) (hes : ∀ e ∈ es, Admitted Set.univ e)
    (hid : Set.InjOn uuid {n | n < w.shared.drawn}) (hend : Quiescent w) (ready : Message)
    (hready : ready.header.messageType = .edgeReceiveReady) (prior : RecvDecoder.ClientVar)
    (clientID readCacheSize : ℕ) (pool : Mem (Mem UInt8)) (hcache : 1 ≤ readCacheSize)
    (batches : List (List Bytes)) (fps : List Bytes)
    (hbatches : ∀ b ∈ batches ++ [fps], b.length ≤ 256 ∧ ∀ fp ∈ b, ∃ id, w.index fp = some id)
    (c : RecvDecoder.ClientVar)
    (hc : Yields (answer w.index fun id => (w.disk id).map DiskFile.content)
      (RecvDecoder.run ready (batches.map (requestOf clientID))
        (initDownloadChunkBuffer prior clientID readCacheSize pool)) c) :
    WritesInside (answer w.index fun id => (w.disk id).map DiskFile.content) fps.length
      (withRequest (requestOf clientID fps) c) := by
  have hinv := inv_exec h (inv_empty H uuid _) hes hid
  have hstore := quiescent_store hinv hend
  rw [← onDisk_filesOf hinv hend] at hc ⊢
  have hidle := idle_session hstore hready prior clientID hcache pool
    (fun b hb => hbatches b (by simp [hb])) hc
  obtain ⟨hle,hindexed⟩ := hbatches fps (by simp)
  exact (writesInside_all_iff hstore.placed).mpr (fun fp d => hstore.chunk_small) fps _ hle hindexed
    (asked_withRequest hstore.placed hidle clientID hindexed hle)

theorem exec_writer {H : Digest} {uuid : ℕ → Bytes} {w : World} {i k : ℕ} {s : Session}
    {c : Container} {cs saved : List Container} (hs : w.sessions i = some s)
    (hdone : s.done = false) (hwriter : s.writer = ⟨.testDone,saved⟩)
    (hqueue : s.client.inputMQ = c::cs) (hk : c.written.length ≤ k) :
    Exec (step H uuid) w [.writer i 0,.writer i 0,.writer i 0,.writer i k]
      { (w.put i { s with client.inputMQ := cs, writer := ⟨.testFlag false,saved ++ [c]⟩ }) with
        disk := saveToFile w.disk c } := by
  apply Exec.of_run
  have hfull : ¬ k < c.written.length := by omega
  simp [Execution.run,step,Uploads.Event.session,hs,sessionStep,writerStep,Uploads.Session.pipe,
    hwriter,hdone,hqueue,World.put,hfull,saveToFile]

def zeroed : InmemoryContainer := ⟨[],0,fun _ => 0,0,fun _ => 0,0⟩

def oneChunk (d : Bytes) : List Uploads.Event :=
  [.login 0 zeroed fun _ => 0,.message 0 1 (encodeChunks [d]),.chunk 0,.lastContainer 0] ++
    [.writer 0 0,.writer 0 0,.writer 0 0,.writer 0 maxContainerSize]

theorem saveChunk_first (uuid : ℕ → Bytes) (drawn : ℕ) (id : Bytes) {p : Pair}
    (hash : p.1.length = chunkHashSize) (hd : Fits p.2.length) :
    ∃ c, StorageCore.saveChunk uuid drawn ⟨StorageCore.initUploadBuffer zeroed id,[]⟩ p.1 p.2 =
        ⟨⟨c,[]⟩,drawn,id⟩ ∧
      StorageCore.lastContainer ⟨c,[]⟩ = ⟨c,[sealed (id,[p])]⟩ := by
  have hempty : Packed (StorageCore.initUploadBuffer zeroed id) [] := packed_of_empty rfl rfl rfl
  have hfit := not_overflows_of_empty hempty.toCounted rfl rfl hd
  have hc := packed_append hempty hash hd hfit
  rcases saveChunk_cases uuid drawn ⟨StorageCore.initUploadBuffer zeroed id,[]⟩ p.1 p.2 with
    ⟨_,hs⟩ | ⟨hover,_⟩
  · refine ⟨_,hs,?_⟩
    rw [StorageCore.lastContainer,if_pos (by rw [hc.headerSize,hc.chunkNum]; simp [StorageCore.entrySize]),
      ocallWriteContainer_packed hc]
    rfl
  · simp [hfit] at hover

theorem exec_oneChunk (H : Digest) (uuid : ℕ → Bytes) {d : Bytes} (hd : Fits d.length) :
    ∃ w, Exec (step H uuid) empty (oneChunk d) w ∧ Quiescent w ∧ w.shared.drawn = 1 ∧
      w.index = entryIndex (H.hash d) (uuid 0) ∧
      w.disk = (fun id => if id = uuid 0 then some ⟨image [(H.hash d,d)],true⟩ else none) := by
  have hpend : (Batch.receive (fun _ => 0) 1 (encodeChunks [d])).Pending [d] := by
    apply pending_receive
    intro e he
    obtain rfl := List.mem_singleton.mp he
    simp only [Fits,maxContainerSize] at hd
    omega
  obtain ⟨hbusy,hchunk,hnext⟩ := pending_cons hpend
  obtain ⟨c,hsave,hlast⟩ := saveChunk_first uuid 1 (uuid 0) (p := (H.hash d,d)) (H.hash_length d) hd
  have hidle : ∀ name, ¬ ((Batch.receive (fun _ => 0) 1 (encodeChunks [d])).advance name).index <
      ((Batch.receive (fun _ => 0) 1 (encodeChunks [d])).advance name).chunkNum := by
    intro name
    have hcount := (hnext name).count
    simp only [List.length_nil] at hcount
    omega
  let s : Session :=
    { client := ⟨c,[sealed (uuid 0,[(H.hash d,d)])]⟩
      batch := (Batch.receive (fun _ => 0) 1 (encodeChunks [d])).advance (uuid 0)
      live := false
      done := false
      writer := ⟨.testDone,[]⟩ }
  let v : World := { (empty.put 0 s) with
    shared := ⟨Database.insert ∅ (H.hash d) (uuid 0),1,d.length % 2^64,1⟩ }
  have hupload : Exec (step H uuid) empty [.login 0 zeroed fun _ => 0,
      .message 0 1 (encodeChunks [d]),.chunk 0,.lastContainer 0] v := by
    apply Exec.of_run
    simp [Execution.run,step,Uploads.Event.session,empty,sessionStep,World.put,newSession,batchStep,
      hbusy,hchunk,dedupChunk,Database.query,hsave,hlast,hidle,v,s]
  have hwritten : (sealed (uuid 0,[(H.hash d,d)])).written.length ≤ maxContainerSize := by
    rw [written_sealed,image_length (by simp [Hashed,H.hash_length])]
    simpa using Nat.le_of_lt hd
  have hs : v.sessions 0 = some s := put_self empty 0 s
  refine ⟨_,hupload.append (exec_writer hs rfl rfl rfl hwritten),?_,rfl,?_,?_⟩
  · intro i t ht
    rcases put_cases ht with ⟨_,rfl⟩ | ⟨hne,ht⟩
    · exact ⟨rfl,rfl,rfl⟩
    · rw [put_ne _ _ hne] at ht
      simp [empty] at ht
  · funext fp
    unfold entryIndex
    split_ifs with hfp
    · rw [hfp]
      exact Finmap.lookup_insert _
    · exact (Finmap.lookup_insert_of_ne _ hfp).trans (Finmap.lookup_empty _)
  · funext id
    simp only [saveToFile,written_sealed,Function.update_apply]
    rfl

theorem stored_oneChunk (H : Digest) (uuid : ℕ → Bytes) {d : Bytes} (hd : Fits d.length) :
    ∃ w, Exec (step H uuid) empty (oneChunk d) w ∧ Quiescent w ∧ w.shared.drawn = 1 ∧
      onDisk (filesOf w) = (fun id => (w.disk id).map DiskFile.content) ∧
      Placed w.index (filesOf w) ∧ chunkOf w.index (filesOf w) (H.hash d) = some d := by
  obtain ⟨w,hexec,hend,hdrawn,hindex,hdisk⟩ := exec_oneChunk H uuid hd
  have hashed : Hashed [(H.hash d,d)] := by simp [Hashed,H.hash_length]
  have hsize : (image [(H.hash d,d)]).length < maxContainerSize := by
    rw [image_length hashed]
    simpa [Fits] using hd
  have hfiles : filesOf w = entryFile (H.hash d) (uuid 0) d := by
    funext id
    simp only [filesOf,hdisk,entryFile]
    split_ifs with hid
    · exact congrArg some (listChunks_image hashed (hsize.trans (by decide)) (holds_write_self _ 0 _))
    · rfl
  refine ⟨w,hexec,hend,hdrawn,?_,?_,?_⟩
  · funext id
    simp only [onDisk,hfiles,hdisk,entryFile]
    split_ifs <;> rfl
  · rw [hindex,hfiles]
    exact (deduped_entry (uuid 0) (H.hash_length d) hsize).toPlaced
  · simp [chunkOf,hindex,hfiles,entryIndex,entryFile]

/-- An uploaded chunk that is asked for twice, through a cache of one slot. -/
theorem writes_inside_buffer_twice :
    ∃ w c, Exec (step paddedDigest fun n => [UInt8.ofNat n]) empty (oneChunk [5,6]) w ∧
      Yields (answer w.index fun id => (w.disk id).map DiskFile.content)
        (RecvDecoder.run ⟨⟨.edgeReceiveReady,4,0,0⟩,[]⟩ []
          (initDownloadChunkBuffer blank 4 1 fun _ _ => 0)) c ∧
      WritesInside (answer w.index fun id => (w.disk id).map DiskFile.content) 2
        (withRequest (requestOf 4 (List.replicate 2 (paddedDigest.hash [5,6]))) c) := by
  obtain ⟨w,hexec,hend,hdrawn,hdisk,_,hchunk⟩ :=
    stored_oneChunk paddedDigest (fun n => [UInt8.ofNat n]) (d := [5,6]) (by rw [Fits]; decide)
  have hready := returns_receiveReady w.index (onDisk (filesOf w))
    (m := ⟨⟨.edgeReceiveReady,4,0,0⟩,[]⟩) rfl (initDownloadChunkBuffer blank 4 1 fun _ _ => 0)
  rw [hdisk] at hready
  have hc := (returns_bind hready (returns_pure _)).yields
  have hmessage : ∃ chunks : List Bytes, 1 = chunks.length ∧
      encodeChunks [[5,6]] = encodeChunks chunks ∧ ∀ d ∈ chunks, d.length ≤ maxChunkSize :=
    ⟨[[5,6]],rfl,rfl,by decide⟩
  obtain ⟨id,hid,_⟩ := Option.bind_eq_some_iff.mp hchunk
  refine ⟨w,_,hexec,hc,?_⟩
  exact writes_inside_buffer paddedDigest (fun n => [UInt8.ofNat n]) _ w hexec
    (by simpa [oneChunk,zeroed,Admitted] using hmessage) (injOn_small_ids (by omega)) hend
    ⟨⟨.edgeReceiveReady,4,0,0⟩,[]⟩ rfl blank 4 1 _ le_rfl [] (List.replicate 2 (paddedDigest.hash [5,6]))
    (by simp [hid]) _ hc

/-- A chunk of one byte too many fits the receive buffer; asked for 256 times it does
not fit the send buffer. -/
theorem long_chunk_overruns :
    ∃ w c, Exec (step paddedDigest fun n => [UInt8.ofNat n]) empty
        (oneChunk (List.replicate 16385 7)) w ∧
      (encodeChunks [List.replicate 16385 7]).length ≤ chunkBufferSize ∧ Quiescent w ∧
      (∃ id, w.index (paddedDigest.hash (List.replicate 16385 7)) = some id) ∧
      Yields (answer w.index fun id => (w.disk id).map DiskFile.content)
        (RecvDecoder.run ⟨⟨.edgeReceiveReady,4,0,0⟩,[]⟩ []
          (initDownloadChunkBuffer blank 4 1 fun _ _ => 0)) c ∧
      ¬ WritesInside (answer w.index fun id => (w.disk id).map DiskFile.content) 256
        (withRequest (requestOf 4
          (List.replicate 256 (paddedDigest.hash (List.replicate 16385 7)))) c) := by
  have hfits : Fits (List.replicate 16385 (7 : UInt8)).length := by
    rw [List.length_replicate,Fits]
    decide
  obtain ⟨w,hexec,hend,_,hdisk,hplaced,hchunk⟩ :=
    stored_oneChunk paddedDigest (fun n => [UInt8.ofNat n]) hfits
  have hready := returns_receiveReady w.index (onDisk (filesOf w))
    (m := ⟨⟨.edgeReceiveReady,4,0,0⟩,[]⟩) rfl (initDownloadChunkBuffer blank 4 1 fun _ _ => 0)
  rw [hdisk] at hready
  refine ⟨w,_,hexec,?_,hend,?_,(returns_bind hready (returns_pure _)).yields,?_⟩
  · have hlength : ∀ d : Bytes, (encodeChunks [d]).length = 4+d.length := by simp [encodeChunks]
    rw [hlength,List.length_replicate]
    decide
  · obtain ⟨id,hid,_⟩ := Option.bind_eq_some_iff.mp hchunk
    exact ⟨id,hid⟩
  · rw [← hdisk]
    refine overruns_of_long hplaced ⟨rfl,ReadCache.agrees_new _ Nat.one_pos _⟩ 4 hchunk ?_
    rw [List.length_replicate]
    decide

end SendBuffer
end CloudServer
