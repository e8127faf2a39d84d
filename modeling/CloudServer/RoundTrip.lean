import CloudServer.DedupInvariant
import CloudServer.RestoreStream

/-! From upload to restore. When all sessions have ended and all writers have
drained their queues, every uploaded chunk is indexed and the container files form a
store; a download session on that store sends the chunks that were asked for. -/
namespace CloudServer
namespace RoundTrip

open ByteMemory Execution ContainerFormat Packing PlainIndex Catalog Uploads UploadInvariant
  DedupInvariant RestoreTable Restore RestoreStream
open Interaction Interaction.Prog
open DataWriter hiding Session Event step Inv
open RecvDecoder hiding ClientVar

def uploaded (es : List Uploads.Event) : Set Bytes :=
  {d | ∃ i chunks, Uploads.Event.message i chunks.length (encodeChunks chunks) ∈ es ∧
    (∀ e ∈ chunks, e.length ≤ maxChunkSize) ∧ d ∈ chunks}

/-- Every session has ended, and its writer has nothing left to write. -/
def Quiescent (w : World) : Prop :=
  ∀ i s, w.sessions i = some s → s.live = false ∧ s.client.inputMQ = [] ∧ s.writer.point.held = []

/-- A chunk that a session has received and not yet processed. -/
def Pending (w : World) (d : Bytes) : Prop :=
  ∃ i s rest, w.sessions i = some s ∧ s.live = true ∧ s.batch.Remaining rest ∧ d ∈ rest

variable {H : Digest} {uuid : ℕ → Bytes} {w : World} {es : List Uploads.Event}

theorem pending_put {i : ℕ} {s' : Session} {d : Bytes} {sh : Shared} {disk : Disk}
    (hp : Pending w d)
    (hsame : ∀ s rest, w.sessions i = some s → s.live = true → s.batch.Remaining rest → d ∈ rest →
      s'.live = true ∧ s'.batch.Remaining rest) :
    Pending { (w.put i s') with shared := sh, disk := disk } d := by
  obtain ⟨j,s,rest,hs,hlive,hrest,hd⟩ := hp
  by_cases hj : j = i
  · subst hj
    obtain ⟨hlive',hrest'⟩ := hsame s rest hs hlive hrest hd
    exact ⟨j,s',rest,put_self w j s',hlive',hrest',hd⟩
  · exact ⟨j,s,rest,(put_ne w s' hj).trans hs,hlive,hrest,hd⟩

theorem not_idle {b : Batch} {rest : List Bytes} {d : Bytes} (h : b.Remaining rest) (hd : d ∈ rest) :
    b.index < b.chunkNum := by
  by_contra hn
  rw [(remaining_nil_iff h).mpr hn] at hd
  simp at hd

theorem pending_step {w' : World} {e : Uploads.Event} {d : Bytes} (h : Takes H uuid w e w')
    (hp : Pending w d) : Pending w' d ∨ ∃ id, w'.index (H.hash d) = some id := by
  cases h with
  | @login i prior buffer hs =>
    refine Or.inl (pending_put hp ?_)
    intro s rest hs'
    simp [hs] at hs'
  | @message i s n payload hs hlive hidle =>
    refine Or.inl (pending_put hp ?_)
    intro t rest ht _ hrest hd
    obtain rfl : s = t := Option.some.inj (hs.symm.trans ht)
    exact absurd (not_idle hrest hd) hidle
  | @chunk i s r hs hlive hbusy hr =>
    obtain ⟨j,t,rest,ht,htl,hrest,hd⟩ := hp
    by_cases hj : j = i
    · subst hj
      obtain rfl : s = t := Option.some.inj (hs.symm.trans ht)
      cases rest with
      | nil => simp at hd
      | cons a as =>
        obtain ⟨_,hchunk,hadvance⟩ := remaining_cons hrest
        rcases List.mem_cons.mp hd with rfl | hlater
        · rw [hchunk] at hr
          subst hr
          exact Or.inr (dedupChunk_indexed _ _ _ _ _ _)
        · exact Or.inl ⟨j,_,as,put_self _ _ _,hlive,hadvance _,hlater⟩
    · exact Or.inl ⟨j,t,rest,(put_ne w _ hj).trans ht,htl,hrest,hd⟩
  | @lastContainer i s hs hlive hidle =>
    refine Or.inl (pending_put hp ?_)
    intro t rest ht _ hrest hd
    obtain rfl : s = t := Option.some.inj (hs.symm.trans ht)
    exact absurd (not_idle hrest hd) hidle
  | @setDone i s hs hdead =>
    refine Or.inl (pending_put hp ?_)
    intro t rest ht htl hrest _
    obtain rfl : s = t := Option.some.inj (hs.symm.trans ht)
    exact ⟨htl,hrest⟩
  | @writer i k s p hs hw =>
    refine Or.inl (pending_put hp ?_)
    intro t rest ht htl hrest _
    obtain rfl : s = t := Option.some.inj (hs.symm.trans ht)
    exact ⟨htl,hrest⟩

/-- When all sessions have ended, every uploaded chunk is indexed. -/
theorem uploaded_indexed (h : Exec (step H uuid) empty es w) (hend : Quiescent w) {d : Bytes}
    (hd : d ∈ uploaded es) : ∃ id, w.index (H.hash d) = some id := by
  obtain ⟨i,chunks,hmem,hsmall,hin⟩ := hd
  obtain ⟨before,after,rfl⟩ := List.append_of_mem hmem
  obtain ⟨v,_,hrest⟩ := h.of_append
  cases hrest with
  | @succ _ v' _ _ _ hstep hafter =>
    have hstart : Pending v' d := by
      cases takes_of_step hstep with
      | @message _ s _ _ hs hlive _ =>
        exact ⟨i,_,chunks,put_self _ _ _,hlive,remaining_receive _ hsmall,hin⟩
    have hfinal := hafter.invariant (A := fun _ => True)
      (P := fun u : World => Pending u d ∨ ∃ id, u.index (H.hash d) = some id)
      (fun u e u' hu _ hstep => hu.elim (pending_step (takes_of_step hstep))
        fun ⟨id,hid⟩ => Or.inr ⟨id,index_step (takes_of_step hstep) hid⟩) (Or.inl hstart) (by simp)
    rcases hfinal with ⟨j,s,_,hs,hlive,_⟩ | hindexed
    · simp [(hend j s hs).1] at hlive
    · exact hindexed

def filesOf (w : World) (id : Bytes) : Option (List Pair) :=
  (w.disk id).map fun f => StorageCore.listChunks (write (fun _ => 0) 0 f.content)

theorem quiescent_file {S : Set Bytes} (h : Inv H uuid S w) (hend : Quiescent w) {id : Bytes}
    {f : DiskFile} (hf : w.disk id = some f) :
    f.closed = true ∧ ∃ g, Sound S g ∧ g.1 = id ∧ f.content = image g.2 := by
  obtain ⟨i,wr,hwr,⟨c,hc,hname,rfl⟩ | ⟨flag,c,n,hpoint,_⟩⟩ := h.disk.files id f hf
  · obtain ⟨s,hs,rfl⟩ := Option.map_eq_some_iff.mp hwr
    obtain ⟨g,rfl,hg⟩ := (h.sessions i s hs).pushed c (by simp [Session.pushes,hc])
    exact ⟨rfl,g,hg,hname,written_sealed g⟩
  · obtain ⟨s,hs,rfl⟩ := Option.map_eq_some_iff.mp hwr
    have := (hend i s hs).2.2
    simp [hpoint,Point.held] at this

theorem filesOf_eq {S : Set Bytes} (h : Inv H uuid S w) (hend : Quiescent w) {id : Bytes}
    {ps : List Pair} (hps : filesOf w id = some ps) :
    Sound S (id,ps) ∧ w.disk id = some ⟨image ps,true⟩ ∧ contents w (.file id) = some (id,ps) := by
  obtain ⟨f,hf,hlist⟩ := Option.map_eq_some_iff.mp hps
  obtain ⟨hclosed,g,hg,rfl,hcontent⟩ := quiescent_file h hend hf
  have hg2 : g.2 = ps := by
    rw [← hlist,hcontent]
    exact (listChunks_image hg.hashed (hg.size.trans (by decide)) (holds_write_self _ 0 _)).symm
  obtain ⟨content,closed⟩ := f
  simp only at hclosed hcontent
  subst hclosed hcontent hg2
  refine ⟨hg,hf,?_⟩
  simp only [contents,hf,Option.bind_some,fileContent,if_true]
  rw [hlist]

theorem onDisk_filesOf {S : Set Bytes} (h : Inv H uuid S w) (hend : Quiescent w) :
    onDisk (filesOf w) = fun id => (w.disk id).map DiskFile.content := by
  funext id
  cases hf : w.disk id with
  | none => simp [onDisk,filesOf,hf]
  | some f =>
    have hps : filesOf w id =
        some (StorageCore.listChunks (write (fun _ => 0) 0 f.content)) := by simp [filesOf,hf]
    have hdisk := (filesOf_eq h hend hps).2.1
    rw [hf,Option.some.injEq] at hdisk
    simp only [onDisk,hps,Option.map_some,Option.some.injEq]
    exact (congrArg DiskFile.content hdisk).symm

/-- The files of a quiescent state and the index form a store. -/
theorem quiescent_store {S : Set Bytes} (h : Inv H uuid S w) (hend : Quiescent w) :
    Store w.index (filesOf w) := by
  have hcons := contents_consistent h
  refine ⟨?_,?_,?_,?_,?_,?_⟩
  · exact fun id ps hps => (filesOf_eq h hend hps).1.hashed
  · exact fun id ps hps => (filesOf_eq h hend hps).1.size
  · exact fun id ps hps => hcons.nodup _ _ (filesOf_eq h hend hps).2.2
  · exact fun id ps p hps hp => ((filesOf_eq h hend hps).1.stored p hp).1
  · intro id id' ps ps' k hps hps' hk hk'
    obtain ⟨p,hp,rfl⟩ := List.mem_map.mp hk
    obtain ⟨p',hp',heq⟩ := List.mem_map.mp hk'
    have hid := hcons.bound _ _ p (filesOf_eq h hend hps).2.2 hp
    have hid' := hcons.bound _ _ p' (filesOf_eq h hend hps').2.2 hp'
    rw [heq,hid] at hid'
    exact Option.some.inj hid'
  · -- nothing is in memory, queued or being written, so the container is a file
    intro k id hk
    obtain ⟨a,g,hg,rfl,hin⟩ := hcons.located k id hk
    cases a with
    | memory i =>
      obtain ⟨s,hs,hmem⟩ := Option.bind_eq_some_iff.mp hg
      simp [Session.inMemory,(hend i s hs).1] at hmem
    | queued i j =>
      obtain ⟨s,hs,hmem⟩ := Option.bind_eq_some_iff.mp hg
      simp [(hend i s hs).2.1] at hmem
    | writing i j =>
      obtain ⟨s,hs,hmem⟩ := Option.bind_eq_some_iff.mp hg
      simp [(hend i s hs).2.2] at hmem
    | file id =>
      obtain ⟨f,hf,hfc⟩ := Option.bind_eq_some_iff.mp hg
      have hps : filesOf w id =
          some (StorageCore.listChunks (write (fun _ => 0) 0 f.content)) := by simp [filesOf,hf]
      have hfile := (filesOf_eq h hend hps).2.2
      rw [hg,Option.some.injEq] at hfile
      subst hfile
      exact ⟨_,hps,hin⟩

theorem chunkOf_uploaded (h : Inv H uuid (uploaded es) w) (hend : Quiescent w)
    (hcoll : Set.InjOn H.hash (uploaded es)) {d : Bytes} (hd : d ∈ uploaded es)
    (hindexed : ∃ id, w.index (H.hash d) = some id) :
    chunkOf w.index (filesOf w) (H.hash d) = some d := by
  obtain ⟨id,hid⟩ := hindexed
  obtain ⟨ps,d',hps,hin,hchunk⟩ := (quiescent_store h hend).placed.chunk hid
  obtain ⟨hsound,_,hcontents⟩ := filesOf_eq h hend hps
  have hdigest := (contents_consistent h).digests _ _ _ hcontents hin
  rw [hchunk]
  exact congrArg some (hcoll (hsound.stored _ hin).2 hd hdigest)

/-- The reader of a payload: a 4-byte length, then so many bytes, to the end. -/
def decodeChunks : ℕ → Bytes → List Bytes
  | 0, _ => []
  | fuel+1, bs =>
    if bs = [] then []
    else
      let size := leWord (bs.take 4)
      (bs.drop 4).take size :: decodeChunks fuel (bs.drop (4+size))

theorem decodeChunks_encode {g : List Bytes} (hg : ∀ d ∈ g, d.length ≤ maxChunkSize) {fuel : ℕ}
    (hfuel : g.length ≤ fuel) : decodeChunks fuel (encodeChunks g) = g := by
  induction g generalizing fuel with
  | nil => cases fuel <;> simp [decodeChunks,encodeChunks]
  | cons d g ih =>
    obtain ⟨n,rfl⟩ : ∃ n, fuel = n+1 := ⟨fuel-1,by simp only [List.length_cons] at hfuel; omega⟩
    have hsmall : d.length ≤ 16384 := hg d (by simp)
    have hsplit : encodeChunks (d::g) = leBytes d.length ++ (d ++ encodeChunks g) := by
      simp [encodeChunks]
    have hsize : leWord ((leBytes d.length ++ (d ++ encodeChunks g)).take 4) = d.length := by
      rw [List.take_left' (leBytes_length _),leWord_leBytes,u32_of_lt (by omega)]
    have hrest : (leBytes d.length ++ (d ++ encodeChunks g)).drop 4 = d ++ encodeChunks g :=
      List.drop_left' (leBytes_length _)
    have hne : leBytes d.length ++ (d ++ encodeChunks g) ≠ [] := by simp [leBytes]
    rw [hsplit,decodeChunks,if_neg hne]
    simp only [hsize]
    rw [← List.drop_drop,hrest,List.take_left' rfl,List.drop_left' rfl,
      ih (fun e he => hg e (by simp [he])) (by simpa using hfuel)]

/-- What a client reads out of the messages it receives. -/
def received (ms : List Message) : List Bytes :=
  ms.flatMap fun m =>
    if m.header.messageType = .cloudSendChunk then decodeChunks m.payload.length m.payload else []

theorem received_append (a b : List Message) : received (a++b) = received a ++ received b := by
  simp [received]

theorem length_le_encode (g : List Bytes) : g.length ≤ (encodeChunks g).length := by
  induction g with
  | nil => simp
  | cons d g ih =>
    simp only [encodeChunks,List.flatMap_cons,List.length_append,leBytes_length,
      List.length_cons] at ih ⊢
    omega

theorem received_chunks {gs : List (List Bytes)} (h : ∀ g ∈ gs, ∀ d ∈ g, d.length ≤ maxChunkSize)
    (clientID : ℕ) : received (gs.map (chunkMessage clientID)) = gs.flatten := by
  induction gs with
  | nil => rfl
  | cons g gs ih =>
    have hg : received [chunkMessage clientID g] = g := by
      simp only [received,chunkMessage,List.flatMap_singleton,if_true]
      exact decodeChunks_encode (h g (by simp)) (length_le_encode g)
    rw [List.map_cons,← List.singleton_append,received_append,hg,
      ih fun g' hg' => h g' (by simp [hg']),List.flatten_cons]

def requestFor (H : Digest) (clientID : ℕ) (ds : List Bytes) : Message :=
  ⟨⟨.edgeDownloadChunkReady,clientID,((ds.map H.hash).flatten).length,ds.length⟩,
    (ds.map H.hash).flatten⟩

theorem requestFor_eq (H : Digest) (clientID : ℕ) (ds : List Bytes) :
    requestFor H clientID ds = requestOf clientID (ds.map H.hash) := by
  simp [requestFor,requestOf]

variable {index : Bytes → Option Bytes} {files : Bytes → Option (List Pair)}

theorem returns_batch (hstore : Store index files) {c : RecvDecoder.ClientVar} (h : Idle files c)
    (clientID : ℕ) {fps : List Bytes} (hle : fps.length ≤ sendChunkBatchSize)
    (hindexed : ∀ fp ∈ fps, ∃ id, index fp = some id) :
    ∃ qs c', Returns (answer index (onDisk files)) (receiveRequest (requestOf clientID fps) c) qs c' ∧
      Idle files c' ∧ (received (sent qs)).map some = fps.map (chunkOf index files) := by
  have hasked := asked_withRequest hstore.placed h clientID hindexed hle
  obtain ⟨qs,c',gs,hret,hsent,hbatches,hcontent,hid,hcache⟩ := returns_processRecipeBatch hstore
    hasked.length hindexed hasked.fits hasked.request rfl rfl hasked.idNum hasked.cache
  have htype : (requestOf clientID fps).header.messageType = .edgeDownloadChunkReady := rfl
  refine ⟨qs,c',?_,⟨hid,hcache⟩,?_⟩
  · rw [receiveRequest,if_pos htype]
    exact hret
  · rw [hsent,received_append,received_chunks hbatches.small,← hcontent]
    simp [received,endMessage]

theorem returns_batches (hstore : Store index files) {c : RecvDecoder.ClientVar} (h : Idle files c)
    (clientID : ℕ) {batches : List (List Bytes)}
    (hbatches : ∀ fps ∈ batches, fps.length ≤ sendChunkBatchSize ∧
      ∀ fp ∈ fps, ∃ id, index fp = some id) :
    ∃ qs c', Returns (answer index (onDisk files))
        (receiveRequests (batches.map (requestOf clientID)) c) qs c' ∧
      Idle files c' ∧ (received (sent qs)).map some = batches.flatten.map (chunkOf index files) := by
  induction batches generalizing c with
  | nil => exact ⟨[],c,returns_pure c,h,rfl⟩
  | cons fps batches ih =>
    obtain ⟨hle,hindexed⟩ := hbatches fps (by simp)
    obtain ⟨qs,c',hret,hidle,hrec⟩ := returns_batch hstore h clientID hle hindexed
    obtain ⟨qs',c'',hret',hidle',hrec'⟩ := ih hidle fun b hb => hbatches b (by simp [hb])
    refine ⟨qs++qs',c'',returns_bind hret hret',hidle',?_⟩
    rw [sent_append,received_append,List.map_append,hrec,hrec',List.flatten_cons,List.map_append]

/-- A session of requests for stored chunks is answered with these chunks. -/
theorem returns_requests (hstore : Store index files) {c : RecvDecoder.ClientVar}
    (h : Idle files c) (clientID : ℕ) {batches : List (List Bytes)}
    (hle : ∀ ds ∈ batches, ds.length ≤ 256)
    (hchunk : ∀ ds ∈ batches, ∀ d ∈ ds, chunkOf index files (H.hash d) = some d) :
    ∃ qs c', Returns (answer index (onDisk files))
        (receiveRequests (batches.map (requestFor H clientID)) c) qs c' ∧
      received (sent qs) = batches.flatten := by
  have hrequests : batches.map (requestFor H clientID) =
      (batches.map (List.map H.hash)).map (requestOf clientID) := by
    simp [requestFor_eq]
  have hindexed : ∀ fps ∈ batches.map (List.map H.hash), fps.length ≤ sendChunkBatchSize ∧
      ∀ fp ∈ fps, ∃ id, index fp = some id := by
    intro fps hfps
    obtain ⟨ds,hds,rfl⟩ := List.mem_map.mp hfps
    refine ⟨by rw [List.length_map]; exact hle ds hds,?_⟩
    intro fp hfp
    obtain ⟨d,hd,rfl⟩ := List.mem_map.mp hfp
    obtain ⟨id,hi,_⟩ := Option.bind_eq_some_iff.mp (hchunk ds hds d hd)
    exact ⟨id,hi⟩
  obtain ⟨qs,c',hret,_,hrec⟩ := returns_batches hstore h clientID hindexed
  have hall : ∀ d ∈ batches.flatten, chunkOf index files (H.hash d) = some d := by
    intro d hd
    obtain ⟨ds,hds,hd⟩ := List.mem_flatten.mp hd
    exact hchunk ds hds d hd
  have hchunks : (batches.map (List.map H.hash)).flatten.map (chunkOf index files) =
      batches.flatten.map some := by
    rw [← List.map_flatten,List.map_map]
    exact List.map_congr_left hall
  rw [hrequests]
  exact ⟨qs,c',hret,List.map_injective_iff.mpr (Option.some_injective _) (hrec.trans hchunks)⟩

theorem admitted_uploaded (hes : ∀ e ∈ es, Admitted Set.univ e) :
    ∀ e ∈ es, Admitted (uploaded es) e := by
  intro e he
  have hadmitted := hes e he
  cases e with
  | login => exact hadmitted
  | message i n payload =>
    obtain ⟨chunks,rfl,rfl,hsmall⟩ := hadmitted
    refine ⟨chunks,rfl,rfl,fun d hd => ⟨(hsmall d hd).1,i,chunks,he,?_,hd⟩⟩
    exact fun e' he' => (hsmall e' he').1
  | chunk | lastContainer | setDone | writer => trivial

theorem returns_receiveReady (index disk : Bytes → Option Bytes) {m : Message}
    (hready : m.header.messageType = .edgeReceiveReady) (c : RecvDecoder.ClientVar) :
    Returns (answer index disk) (receiveReady m c) []
      { c with sendChunkBuf := ⟨m.header,write c.sendChunkBuf.dataBuffer 0 m.payload⟩ } := by
  rw [receiveReady,if_pos hready]
  exact returns_pure _

/-- Restore returns what was uploaded: after any interleaving of uploads that has
come to rest, any requests for uploaded chunks, cut in any way, are answered with
exactly these chunks in the requested order, whatever the size of the read cache. -/
theorem restore_returns_uploaded (H : Digest) (uuid : ℕ → Bytes) (es : List Uploads.Event)
    (w : World) (h : Exec (step H uuid) empty es w) (hes : ∀ e ∈ es, Admitted Set.univ e)
    (hid : Set.InjOn uuid {n | n < w.shared.drawn}) (hcoll : Set.InjOn H.hash (uploaded es))
    (hend : Quiescent w) (batches : List (List Bytes))
    (hreq : ∀ ds ∈ batches, ds.length ≤ 256 ∧ ∀ d ∈ ds, d ∈ uploaded es) (ready : Message)
    (hready : ready.header.messageType = .edgeReceiveReady) (prior : RecvDecoder.ClientVar)
    (clientID readCacheSize : ℕ) (pool : Mem (Mem UInt8)) (hcache : 1 ≤ readCacheSize) :
    ∃ qs c', eval (answer w.index fun id => (w.disk id).map DiskFile.content)
        (RecvDecoder.run ready (batches.map (requestFor H clientID))
          (initDownloadChunkBuffer prior clientID readCacheSize pool)) = (qs,.ok c') ∧
      received (sent qs) = batches.flatten := by
  have hinv := inv_exec h (inv_empty H uuid _) (admitted_uploaded hes) hid
  have hchunk : ∀ ds ∈ batches, ∀ d ∈ ds, chunkOf w.index (filesOf w) (H.hash d) = some d := by
    intro ds hds d hd
    have hup := (hreq ds hds).2 d hd
    exact chunkOf_uploaded hinv hend hcoll hup (uploaded_indexed h hend hup)
  have hfirst := returns_receiveReady w.index (onDisk (filesOf w)) hready
    (initDownloadChunkBuffer prior clientID readCacheSize pool)
  obtain ⟨qs,c',hret,hrec⟩ := returns_requests (quiescent_store hinv hend)
    (c := { initDownloadChunkBuffer prior clientID readCacheSize pool with
      sendChunkBuf := ⟨ready.header,write prior.sendChunkBuf.dataBuffer 0 ready.payload⟩ })
    ⟨rfl,ReadCache.agrees_new _ hcache pool⟩ clientID (fun ds hds => (hreq ds hds).1) hchunk
  rw [← onDisk_filesOf hinv hend]
  exact ⟨[]++qs,c',returns_bind hfirst hret,hrec⟩

def twoChunks : List Uploads.Event :=
  [.login 0 ⟨[],0,fun _ => 0,0,fun _ => 0,0⟩ fun _ => 0,.message 0 2 (encodeChunks [[5,6],[7]]),
    .chunk 0,.chunk 0,.lastContainer 0,.writer 0 0,.writer 0 0,.writer 0 0,.writer 0 200]

theorem uploaded_twoChunks {d : Bytes} (hd : d ∈ uploaded twoChunks) : d = [5,6] ∨ d = [7] := by
  obtain ⟨i,chunks,hmem,hsmall,hin⟩ := hd
  simp only [twoChunks,List.mem_cons,reduceCtorEq,List.not_mem_nil,or_false,false_or,
    Uploads.Event.message.injEq] at hmem
  obtain ⟨_,hlen,hbytes⟩ := hmem
  have hdecode := decodeChunks_encode hsmall (le_refl chunks.length)
  rw [hlen,hbytes,decodeChunks_encode (by decide) (le_refl 2)] at hdecode
  rw [← hdecode] at hin
  simpa using hin

/-- The second chunk, then both again in another order, through a cache of one slot. -/
theorem restore_returns_uploaded_twice :
    ∃ w qs c', Exec (step paddedDigest fun n => [UInt8.ofNat n]) empty twoChunks w ∧
      eval (answer w.index fun id => (w.disk id).map DiskFile.content)
        (RecvDecoder.run ⟨⟨.edgeReceiveReady,4,0,0⟩,[]⟩
          ([[[7]],[[5,6],[7]]].map (requestFor paddedDigest 4))
          (initDownloadChunkBuffer ⟨⟨⟨.edgeDownloadChunkLogin,0,0,0⟩,fun _ => 3⟩,fun _ => [],
            fun _ _ => 9,5,ReadCache.new 0 fun _ _ => 0,fun _ => ⟨[],[],0,0,0⟩⟩ 4 1
            fun _ _ => 8)) = (qs,.ok c') ∧
      received (sent qs) = [[7],[5,6],[7]] := by
  have hrun : (run (step paddedDigest fun n => [UInt8.ofNat n]) empty twoChunks).map
      (fun w => (w.shared.drawn,(w.sessions 0).map fun s =>
        (s.live,s.client.inputMQ,s.writer.point.held))) = some (1,some (false,[],[])) := by decide
  obtain ⟨w,hexec,hobs⟩ := Exec.of_run_map _ hrun
  simp only [Prod.mk.injEq] at hobs
  obtain ⟨hdrawn,hsession⟩ := hobs
  have hother : ∀ j, j ≠ 0 → w.sessions j = none := by
    intro j hj
    have hzero : ∀ e ∈ twoChunks, e.session = 0 := by decide
    apply sessions_exec hexec
    intro e he
    rw [hzero e he]
    exact hj.symm
  have hend : Quiescent w := by
    intro i s hs
    by_cases hi : i = 0
    · subst hi
      simpa [hs] using hsession
    · simp [hother i hi] at hs
  have hmessage : ∃ chunks : List Bytes, 2 = chunks.length ∧
      encodeChunks [[5,6],[7]] = encodeChunks chunks ∧ ∀ d ∈ chunks, d.length ≤ maxChunkSize :=
    ⟨[[5,6],[7]],rfl,rfl,by decide⟩
  have hin : ∀ d ∈ [[5,6],[7]], d ∈ uploaded twoChunks := fun d hd =>
    ⟨0,[[5,6],[7]],by simp [twoChunks],by decide,hd⟩
  have hid : Set.InjOn (fun n => [UInt8.ofNat n]) {n | n < w.shared.drawn} :=
    injOn_small_ids (by omega)
  have hcoll : Set.InjOn paddedDigest.hash (uploaded twoChunks) :=
    injOn_paddedDigest fun d hd => uploaded_twoChunks hd
  obtain ⟨qs,c',heval,hrec⟩ := restore_returns_uploaded paddedDigest (fun n => [UInt8.ofNat n])
    twoChunks w hexec (by simpa [twoChunks,Admitted] using hmessage) hid hcoll hend
    [[[7]],[[5,6],[7]]] (by
      intro ds hds
      simp only [List.mem_cons,List.not_mem_nil,or_false] at hds
      rcases hds with rfl | rfl
      · exact ⟨by decide,fun d hd => hin d (by simp at hd; simp [hd])⟩
      · exact ⟨by decide,hin⟩)
    ⟨⟨.edgeReceiveReady,4,0,0⟩,[]⟩ rfl _ 4 1 _ (le_refl 1)
  exact ⟨w,qs,c',hexec,heval,hrec⟩

end RoundTrip
end CloudServer
