import CloudServer.Statistics
import CloudServer.HeaderEntries
import CloudServer.DataReceiver
import CloudServer.DedupInvariant

/-! The unique-data counters against the store. Upload sessions run side by side; a clean
shutdown joins them all and saves the counters and the index, and a restart loads both.
The containers are followed from their first chunk to the directory. -/
namespace CloudServer
namespace Accounting

open ByteMemory Execution StorageCore ContainerFormat Packing PlainIndex Database HeaderEntries
  Statistics
open Uploads hiding Event step
open UploadInvariant hiding Admitted Inv SessionOk
open DataWriter hiding Session Event step Inv start
open DataReceiver (FileRecipeHead)

structure Setting where
  digest : Digest
  uuid : ℕ → Bytes
  uuid_length : ∀ n, (uuid n).length = containerIdLength

/-- The server: the uploads with index and unique counters, the other counters of
`AbsIndex`, the sessions whose threads have not been joined, the containers that the
joined ones have saved, and the two files that a shutdown leaves. -/
structure Server where
  world : World
  logicalDataSize : ℕ
  logicalChunkNum : ℕ
  compressedDataSize : ℕ
  thList : Finset ℕ
  archive : List Container
  running : Bool
  dbFile : Option Bytes
  statFile : Option Bytes

def start : Server := ⟨Uploads.empty,0,0,0,∅,[],true,none,none⟩

inductive Event
  | login (i : ℕ) (prior : InmemoryContainer) (buffer : Mem UInt8) (head : FileRecipeHead)
  | message (i currentItemNum : ℕ) (payload : Bytes)
  | chunk (i : ℕ)
  | lastContainer (i : ℕ)
  | setDone (i : ℕ)
  | writer (i k : ℕ)
  | join (i : ℕ)
  | shutdown (order : Order)
  | restart

def Event.upload : Event → Option Uploads.Event
  | .message i currentItemNum payload => some (.message i currentItemNum payload)
  | .chunk i => some (.chunk i)
  | .lastContainer i => some (.lastContainer i)
  | .setDone i => some (.setDone i)
  | .writer i k => some (.writer i k)
  | _ => none

def Server.counters (st : Server) : Counters :=
  ⟨st.logicalDataSize,st.logicalChunkNum,st.world.shared.uniqueDataSize,
    st.world.shared.uniqueChunkNum,st.compressedDataSize⟩

/-- What a login adds besides the session: its thread, and the totals at the start of
`DataReceiver::Run`. -/
def Server.enter (st : Server) (i : ℕ) (head : FileRecipeHead) : Server :=
  { st with
    thList := insert i st.thList
    logicalDataSize := (st.logicalDataSize+head.fileSize) % 2^64
    logicalChunkNum := (st.logicalChunkNum+head.totalChunkNum) % 2^64 }

/-- The thread of a session that has come to its end. -/
def join (st : Server) (i : ℕ) (s : Session) : Option Server :=
  if i ∈ st.thList ∧ s.live = false ∧ s.writer.point = .returned then
    some { st with thList := st.thList.erase i, archive := st.archive ++ s.writer.saved }
  else none

/-- The interrupt handler: all threads are joined, `~AbsIndex` and `~InMemoryDatabase`
write their files. -/
def shutdown (st : Server) (order : Order) : Option Server :=
  if st.thList = ∅ ∧ order.toFinmap = st.world.shared.indexStore then
    some { st with
      dbFile := some (saveDB order)
      statFile := some (saveStat st.counters)
      running := false }
  else none

def restart (st : Server) : Option Server :=
  match openDB st.dbFile with
  | .ok m =>
    let c := loadStat st.statFile
    some { st with
      world := ⟨⟨m,c.uniqueChunkNum,c.uniqueDataSize,st.world.shared.drawn⟩,st.world.disk,fun _ => none⟩
      logicalDataSize := c.logicalDataSize
      logicalChunkNum := c.logicalChunkNum
      compressedDataSize := c.compressedDataSize
      running := true }
  | .error _ => none

def step (S : Setting) (st : Server) (e : Event) : Option Server :=
  match e with
  | .restart => if st.running then none else restart st
  | .shutdown order => if st.running then shutdown st order else none
  | .join i => if st.running then (st.world.sessions i).bind (join st i) else none
  | .login i prior buffer head =>
    if st.running then
      (Uploads.step S.digest S.uuid st.world (.login i prior buffer)).map fun w =>
        { st.enter i head with world := w }
    else none
  | e =>
    e.upload.bind fun u =>
      if st.running ∧ u.session ∈ st.thList then
        (Uploads.step S.digest S.uuid st.world u).map fun w => { st with world := w }
      else none

/-- Messages with chunks of at most `MAX_CHUNK_SIZE` bytes; nothing is asked of the memory
that a session starts in. -/
def Admitted : Event → Prop
  | .message _ currentItemNum payload => ∃ chunks : List Bytes, currentItemNum = chunks.length ∧
      payload = encodeChunks chunks ∧ ∀ d ∈ chunks, d.length ≤ maxChunkSize
  | _ => True

/-- The name of a container and the lengths in its header entries. -/
abbrev Record := Bytes × List ℕ

def recordOf (c : Container) : Record := (c.containerID,fileLengths c.written)

def currentRecord (c : InmemoryContainer) : Record := (c.containerID,memoryLengths c)

/-- The containers of a session: saved, in the hands of its writer, queued, and the one
that it is filling. -/
def sessionContainers (s : Session) : Multiset Record :=
  (s.pushes.map recordOf : List Record)+
    if s.live then {currentRecord s.client.curContainer} else 0

def containers (st : Server) : Multiset Record :=
  (st.archive.map recordOf : List Record)+
    ∑ i ∈ st.thList, ((st.world.sessions i).map sessionContainers).getD 0

def entryNum (R : Multiset Record) : ℕ := (R.map fun r => r.2.length).sum

def dataSize (R : Multiset Record) : ℕ := (R.map fun r => r.2.sum).sum

def names (R : Multiset Record) : Multiset Bytes := R.map Prod.fst

/-- Containers that have gone to the directory. -/
def Saved (st : Server) (c : Container) : Prop :=
  c ∈ st.archive ∨ ∃ i ∈ st.thList, ∃ s, st.world.sessions i = some s ∧ c ∈ s.writer.saved

/-- The complete files of the directory are the saved containers, each under its own
name. -/
structure Filed (st : Server) : Prop where
  distinct : (names (containers st)).Nodup
  saved : ∀ c, Saved st c → st.world.disk c.containerID = some ⟨c.written,true⟩
  files : ∀ id f, st.world.disk id = some f → f.closed = true → ∃ c, Saved st c ∧ c.containerID = id

@[simp] theorem entryNum_add (R R' : Multiset Record) : entryNum (R+R') = entryNum R+entryNum R' := by
  simp [entryNum]

@[simp] theorem dataSize_add (R R' : Multiset Record) : dataSize (R+R') = dataSize R+dataSize R' := by
  simp [dataSize]

@[simp] theorem names_add (R R' : Multiset Record) : names (R+R') = names R+names R' := by
  simp [names]

theorem recordOf_handed {c : Container} {ps : List Pair} (hc : Handed c ps) :
    recordOf c = (c.containerID,ps.map fun p => p.2.length) := by
  rw [recordOf,fileLengths_handed hc]

theorem currentRecord_laid {c : InmemoryContainer} {ps : List Pair} (hc : Laid c ps) :
    currentRecord c = (c.containerID,ps.map fun p => p.2.length) := by
  rw [currentRecord,memoryLengths_laid hc]

theorem recordOf_ocallWriteContainer {c : InmemoryContainer} {ps : List Pair} (hc : Laid c ps) :
    recordOf (ocallWriteContainer c) = currentRecord c := by
  rw [recordOf_handed (handed_of_laid hc),currentRecord_laid hc]
  rfl

def others (st : Server) (i : ℕ) : Multiset Record :=
  (st.archive.map recordOf : List Record)+
    ∑ j ∈ st.thList.erase i, ((st.world.sessions j).map sessionContainers).getD 0

theorem containers_eq {st : Server} {i : ℕ} {s : Session} (hi : i ∈ st.thList)
    (hs : st.world.sessions i = some s) : containers st = others st i+sessionContainers s := by
  rw [containers,others,← Finset.sum_erase_add _ _ hi,hs,add_assoc]
  rfl

theorem others_congr {st st' : Server} {i : ℕ} (harchive : st'.archive = st.archive)
    (hth : st'.thList.erase i = st.thList.erase i)
    (h : ∀ j, j ≠ i → st'.world.sessions j = st.world.sessions j) : others st' i = others st i := by
  rw [others,others,harchive,hth]
  congr 1
  apply Finset.sum_congr rfl
  intro j hj
  rw [h j (Finset.ne_of_mem_erase hj)]

def drawnNames (S : Setting) (drawn : ℕ) : Multiset Bytes := (Multiset.range drawn).map S.uuid

theorem drawnNames_succ (S : Setting) (drawn : ℕ) :
    drawnNames S (drawn+1) = drawnNames S drawn+{S.uuid drawn} := by
  rw [drawnNames,Multiset.range_succ,Multiset.map_cons,← Multiset.singleton_add,add_comm]
  rfl

theorem nodup_drawnNames {S : Setting} {drawn : ℕ} (h : Set.InjOn S.uuid {n | n < drawn}) :
    (drawnNames S drawn).Nodup := by
  apply Multiset.Nodup.map_on _ (Multiset.nodup_range drawn)
  intro a ha b hb hab
  exact h (Multiset.mem_range.mp ha) (Multiset.mem_range.mp hb) hab

/-- The writer threads, with the joined ones as one thread that has returned. -/
def writersOf (st : Server) : ℕ → Option Writer
  | 0 => some ⟨.returned,st.archive⟩
  | i+1 => if i ∈ st.thList then (st.world.sessions i).map Session.writer else none

structure SessionOk (s : Session) : Prop where
  current : ∃ ps, Laid s.client.curContainer ps
  pushed : ∀ c ∈ s.pushes, ∃ ps, Handed c ps
  named : s.client.curContainer.containerID.length = containerIdLength
  batch : ∃ rest, s.batch.Remaining rest
  promise : Promise (s.pipe fun _ => none)
  done : s.done = true → s.live = false

structure Inv (S : Setting) (st : Server) : Prop where
  sized : ∀ fp id, st.world.index fp = some id →
    fp.length = chunkHashSize ∧ id.length = containerIdLength
  entries : st.world.shared.indexStore.keys.card = entryNum (containers st)
  chunkNum : st.world.shared.uniqueChunkNum = st.world.shared.indexStore.keys.card % 2^64
  dataSize : st.world.shared.uniqueDataSize = dataSize (containers st) % 2^64
  fit : st.counters.Fit
  named : names (containers st) ≤ drawnNames S st.world.shared.drawn
  sessions : ∀ i s, st.world.sessions i = some s → SessionOk s
  active : ∀ i, i ∈ st.thList → ∃ s, st.world.sessions i = some s
  stopped : st.running = false → st.thList = ∅ ∧
    (∃ order : Order, order.toFinmap = st.world.shared.indexStore ∧ st.dbFile = some (saveDB order)) ∧
    st.statFile = some (saveStat st.counters)
  disk : Set.InjOn S.uuid {n | n < st.world.shared.drawn} → DiskOk st.world.disk (writersOf st)

theorem inv_start (S : Setting) : Inv S start where
  sized := by simp [start,Uploads.empty,World.index]
  entries := by simp [start,Uploads.empty,containers,entryNum]
  chunkNum := by simp [start,Uploads.empty]
  dataSize := by simp [start,Uploads.empty,containers,dataSize]
  fit := by constructor <;> simp [start,Server.counters,Uploads.empty]
  named := by simp [start,containers,names]
  sessions := by simp [start,Uploads.empty]
  active := by simp [start]
  stopped := by simp [start]
  disk := by
    intro _
    constructor
    · intro i wr c hwr hc
      cases i with
      | zero =>
        obtain rfl := Option.some.inj hwr
        simp [start] at hc
      | succ i => simp [writersOf,start] at hwr
    · simp [start,Uploads.empty]

/-- The session after a step, with what the step has added to index and counters. -/
structure Stepped (S : Setting) (st : Server) (s s' : Session) (sh : Shared) (disk : Disk)
    (i stored size : ℕ) : Prop where
  sized : ∀ fp id, sh.indexStore.lookup fp = some id →
    fp.length = chunkHashSize ∧ id.length = containerIdLength
  keys : sh.indexStore.keys.card = st.world.shared.indexStore.keys.card+stored
  chunkNum : sh.uniqueChunkNum = (st.world.shared.uniqueChunkNum+stored) % 2^64
  dataSize : sh.uniqueDataSize = (st.world.shared.uniqueDataSize+size) % 2^64
  entryNum : entryNum (sessionContainers s') = entryNum (sessionContainers s)+stored
  entrySizes : Accounting.dataSize (sessionContainers s') = Accounting.dataSize (sessionContainers s)+size
  named : ∃ new, names (sessionContainers s') ≤ names (sessionContainers s)+new ∧
    drawnNames S sh.drawn = drawnNames S st.world.shared.drawn+new
  drawn : st.world.shared.drawn ≤ sh.drawn
  session : SessionOk s'
  disk : DiskOk st.world.disk (writersOf st) → (names (containers st)).Nodup →
    DiskOk disk (Function.update (writersOf st) (i+1) (some s'.writer))

def Server.put (st : Server) (i : ℕ) (s : Session) (sh : Shared) (disk : Disk) : Server :=
  { st with world := { st.world.put i s with shared := sh, disk := disk } }

theorem writersOf_put {st : Server} {i : ℕ} {s' : Session} (hi : i ∈ st.thList) (sh : Shared)
    (disk : Disk) :
    writersOf (st.put i s' sh disk) =
      Function.update (writersOf st) (i+1) (some s'.writer) := by
  funext j
  cases j with
  | zero => simp [writersOf,Server.put]
  | succ j =>
    by_cases hj : j = i
    · subst hj
      simp [writersOf,hi,Server.put,World.put]
    · simp [writersOf,Server.put,World.put,hj]

theorem names_nodup {S : Setting} {st : Server} (h : Inv S st)
    (hid : Set.InjOn S.uuid {n | n < st.world.shared.drawn}) : (names (containers st)).Nodup :=
  Multiset.nodup_of_le h.named (nodup_drawnNames hid)

theorem inv_put {S : Setting} {st : Server} {i stored size : ℕ} {s s' : Session} {sh : Shared}
    {disk : Disk} (h : Inv S st) (hrun : st.running = true) (hi : i ∈ st.thList)
    (hs : st.world.sessions i = some s) (hstep : Stepped S st s s' sh disk i stored size) :
    Inv S (st.put i s' sh disk) := by
  have hbefore := containers_eq hi hs
  have hafter : containers (st.put i s' sh disk) = others st i+sessionContainers s' := by
    have hmem : i ∈ (st.put i s' sh disk).thList := hi
    have hothers : others (st.put i s' sh disk) i = others st i :=
      others_congr rfl rfl fun j hj => put_ne st.world s' hj
    rw [containers_eq hmem (put_self st.world i s'),hothers]
  have hentries := h.entries
  have hdata := h.dataSize
  have hnum := h.chunkNum
  have hnamed := h.named
  rw [hbefore,entryNum_add] at hentries
  rw [hbefore,dataSize_add] at hdata
  rw [hbefore,names_add] at hnamed
  refine ⟨hstep.sized,?_,?_,?_,?_,?_,?_,?_,?_,?_⟩
  · rw [hafter,entryNum_add,hstep.entryNum]
    exact hstep.keys.trans (by omega)
  · show sh.uniqueChunkNum = sh.indexStore.keys.card % 2^64
    rw [hstep.chunkNum,hstep.keys,hnum,Nat.mod_add_mod]
  · show sh.uniqueDataSize = _
    rw [hafter,dataSize_add,hstep.entrySizes,hstep.dataSize,hdata,Nat.mod_add_mod,Nat.add_assoc]
  · exact ⟨h.fit.logicalDataSize,h.fit.logicalChunkNum,
      hstep.dataSize.trans_lt (Nat.mod_lt _ (by decide)),
      hstep.chunkNum.trans_lt (Nat.mod_lt _ (by decide)),h.fit.compressedDataSize⟩
  · obtain ⟨new,hle,hdrawn⟩ := hstep.named
    show _ ≤ drawnNames S sh.drawn
    rw [hafter,names_add,hdrawn]
    calc names (others st i)+names (sessionContainers s')
        ≤ names (others st i)+(names (sessionContainers s)+new) := add_le_add_right hle _
      _ = (names (others st i)+names (sessionContainers s))+new := (add_assoc _ _ _).symm
      _ ≤ drawnNames S st.world.shared.drawn+new := add_le_add_left hnamed _
  · intro j t ht
    rcases put_cases (w := st.world) ht with ⟨_,rfl⟩ | ⟨_,hold⟩
    · exact hstep.session
    · exact h.sessions j t hold
  · intro j hj
    by_cases hji : j = i
    · subst hji
      exact ⟨s',put_self _ _ _⟩
    · obtain ⟨t,ht⟩ := h.active j hj
      exact ⟨t,(put_ne _ _ hji).trans ht⟩
  · intro hstopped
    exact absurd (hrun.symm.trans hstopped) (by decide)
  · intro hid
    have hold : Set.InjOn S.uuid {n | n < st.world.shared.drawn} :=
      hid.mono fun n hn => Nat.lt_of_lt_of_le hn hstep.drawn
    rw [writersOf_put hi]
    exact hstep.disk (h.disk hold) (names_nodup h hold)

section Session

variable {S : Setting} {st : Server} {i : ℕ} {s s' : Session}

theorem writersOf_active (hi : i ∈ st.thList) (hs : st.world.sessions i = some s) :
    writersOf st (i+1) = some s.writer := by
  simp [writersOf,hi,hs]

theorem diskOk_same (hi : i ∈ st.thList) (hs : st.world.sessions i = some s)
    (hw : s'.writer = s.writer) (h : DiskOk st.world.disk (writersOf st)) :
    DiskOk st.world.disk (Function.update (writersOf st) (i+1) (some s'.writer)) := by
  rw [hw,Function.update_eq_self_iff.mpr (writersOf_active hi hs).symm]
  exact h

theorem stepped_quiet (h : Inv S st) (hi : i ∈ st.thList) (hs : st.world.sessions i = some s)
    (hok : SessionOk s') (hnum : entryNum (sessionContainers s') = entryNum (sessionContainers s))
    (hsize : dataSize (sessionContainers s') = dataSize (sessionContainers s))
    (hnames : names (sessionContainers s') ≤ names (sessionContainers s))
    (hw : s'.writer = s.writer) :
    Stepped S st s s' st.world.shared st.world.disk i 0 0 where
  sized := h.sized
  keys := rfl
  chunkNum := (Nat.mod_eq_of_lt h.fit.uniqueChunkNum).symm
  dataSize := (Nat.mod_eq_of_lt h.fit.uniqueDataSize).symm
  entryNum := hnum
  entrySizes := hsize
  named := ⟨0,by simpa using hnames,by simp⟩
  drawn := Nat.le_refl _
  session := hok
  disk hd _ := diskOk_same hi hs hw hd

theorem SessionOk.next (h : SessionOk s) (hbusy : s.batch.index < s.batch.chunkNum) :
    s.batch.chunk.length ≤ maxChunkSize ∧ ∀ name, ∃ rest, (s.batch.advance name).Remaining rest := by
  obtain ⟨rest,hrest⟩ := h.batch
  cases rest with
  | nil => exact absurd hbusy ((remaining_nil_iff hrest).mp rfl)
  | cons d rest =>
    obtain ⟨_,hchunk,hnext⟩ := remaining_cons hrest
    rw [hchunk]
    exact ⟨hrest.small d (by simp),fun name => ⟨rest,hnext name⟩⟩

theorem keys_insert (m : Index) {fp : Bytes} (id : Bytes) (hnew : m.lookup fp = none) :
    (Database.insert m fp id).keys.card = m.keys.card+1 := by
  have hmem : fp ∉ m.keys := by
    rw [Finmap.mem_keys,← Finmap.lookup_eq_none]
    exact hnew
  have hkeys : (Database.insert m fp id).keys = insert fp m.keys := by
    ext k
    simp [Database.insert,Finmap.mem_keys]
  rw [hkeys,Finset.card_insert_of_notMem hmem]

theorem SessionOk.not_done (hok : SessionOk s) (hlive : s.live = true) : s.done = false := by
  rw [Bool.eq_false_iff]
  intro hdone
  exact absurd (hlive.symm.trans (hok.done hdone)) (by decide)

theorem sessionContainers_live (hlive : s.live = true) :
    sessionContainers s =
      (s.pushes.map recordOf : List Record)+{currentRecord s.client.curContainer} := by
  rw [sessionContainers,if_pos hlive]

theorem pushes_push {s' : Session} {c : Container} (hwriter : s'.writer = s.writer)
    (hqueue : s'.client.inputMQ = s.client.inputMQ ++ [c]) : s'.pushes = s.pushes ++ [c] := by
  simp [Session.pushes,hwriter,hqueue]

theorem SessionOk.handed_push (hok : SessionOk s) :
    ∀ c ∈ s.pushes ++ [ocallWriteContainer s.client.curContainer], ∃ ps, Handed c ps := by
  obtain ⟨ps,hps⟩ := hok.current
  intro c hc
  rcases List.mem_append.mp hc with hc | hc
  · exact hok.pushed c hc
  · rw [List.mem_singleton.mp hc]
    exact ⟨ps,handed_of_laid hps⟩

/-- A new chunk adds one entry of its length, to the current container or, after a flush,
to the next one. -/
theorem save_containers (hok : SessionOk s) (hlive : s.live = true) (uuid : ℕ → Bytes)
    (huuid : ∀ n, (uuid n).length = containerIdLength) (drawn : ℕ) {fp data : Bytes}
    (hfp : fp.length = chunkHashSize) (hdata : data.length ≤ maxChunkSize) (batch : Batch)
    (hbatch : ∃ rest, batch.Remaining rest) :
    let r := saveChunk uuid drawn s.client fp data
    let s' := { s with client := r.client, batch := batch }
    SessionOk s' ∧ r.containerName.length = containerIdLength ∧
      entryNum (sessionContainers s') = entryNum (sessionContainers s)+1 ∧
      dataSize (sessionContainers s') = dataSize (sessionContainers s)+data.length ∧
      (names (sessionContainers s') = names (sessionContainers s) ∧ r.drawn = drawn ∨
        names (sessionContainers s') = names (sessionContainers s)+{uuid drawn} ∧
          r.drawn = drawn+1) := by
  obtain ⟨ps,hps⟩ := hok.current
  have hold := sessionContainers_live hlive
  rw [currentRecord_laid hps] at hold
  obtain ⟨c,⟨hsave,hid,hc⟩ | ⟨hsave,hid,hc⟩⟩ :=
    saveChunk_laid uuid drawn (p := (fp,data)) hps hfp (fits_of_small hdata)
  · have hnew : sessionContainers { s with client := ⟨c,s.client.inputMQ⟩, batch := batch } =
        (s.pushes.map recordOf : List Record)+
          {(s.client.curContainer.containerID,(ps ++ [(fp,data)]).map fun p => p.2.length)} := by
      rw [sessionContainers,if_pos hlive,currentRecord_laid hc,hid]
      rfl
    rw [hsave]
    refine ⟨⟨⟨_,hc⟩,hok.pushed,hid ▸ hok.named,hbatch,hok.promise,hok.done⟩,hok.named,?_,?_,
      Or.inl ⟨?_,rfl⟩⟩
    · rw [hnew,hold]
      simp [entryNum,Nat.add_assoc]
    · rw [hnew,hold]
      simp [dataSize,Nat.add_assoc]
    · rw [hnew,hold]
      simp [names]
  · have hpushes : ({ s with client := ⟨c,s.client.inputMQ ++
        [ocallWriteContainer s.client.curContainer]⟩, batch := batch } : Session).pushes =
        s.pushes ++ [ocallWriteContainer s.client.curContainer] := pushes_push rfl rfl
    have hnew : sessionContainers { s with client := ⟨c,s.client.inputMQ ++
        [ocallWriteContainer s.client.curContainer]⟩, batch := batch } =
        sessionContainers s+{(uuid drawn,[data.length])} := by
      rw [sessionContainers,if_pos hlive,hpushes,List.map_append,List.map_singleton,
        recordOf_ocallWriteContainer hps,currentRecord_laid hc,hid,sessionContainers_live hlive,
        ← Multiset.coe_add,Multiset.coe_singleton]
      rfl
    rw [hsave]
    refine ⟨⟨⟨_,hc⟩,?_,hid ▸ huuid drawn,hbatch,promise_push hok.promise (hok.not_done hlive) _,
      hok.done⟩,huuid drawn,?_,?_,Or.inr ⟨?_,rfl⟩⟩
    · rw [hpushes]
      exact hok.handed_push
    · rw [hnew]
      simp [entryNum]
    · rw [hnew]
      simp [dataSize]
    · rw [hnew]
      simp [names]

theorem stepped_save (h : Inv S st) (hi : i ∈ st.thList) (hs : st.world.sessions i = some s)
    (hlive : s.live = true) (hbusy : s.batch.index < s.batch.chunkNum)
    (hnew : st.world.shared.indexStore.lookup (S.digest.hash s.batch.chunk) = none) :
    let r := saveChunk S.uuid st.world.shared.drawn s.client (S.digest.hash s.batch.chunk) s.batch.chunk
    Stepped S st s { s with client := r.client, batch := s.batch.advance r.containerName }
      { indexStore := Database.insert st.world.shared.indexStore (S.digest.hash s.batch.chunk)
          r.containerName
        uniqueChunkNum := (st.world.shared.uniqueChunkNum+1) % 2^64
        uniqueDataSize := (st.world.shared.uniqueDataSize+s.batch.chunk.length) % 2^64
        drawn := r.drawn } st.world.disk i 1 s.batch.chunk.length := by
  have hok := h.sessions i s hs
  obtain ⟨hsmall,hnext⟩ := hok.next hbusy
  obtain ⟨hok',hname,hnum,hsize,hnames⟩ := save_containers hok hlive S.uuid S.uuid_length
    st.world.shared.drawn (S.digest.hash_length s.batch.chunk) hsmall _
    (hnext (saveChunk S.uuid st.world.shared.drawn s.client (S.digest.hash s.batch.chunk)
      s.batch.chunk).containerName)
  refine ⟨?_,keys_insert _ _ hnew,rfl,rfl,hnum,hsize,?_,?_,hok',fun hd _ => diskOk_same hi hs rfl hd⟩
  · intro fp id hfp
    by_cases heq : fp = S.digest.hash s.batch.chunk
    · subst heq
      rw [Database.insert,Finmap.lookup_insert,Option.some.injEq] at hfp
      exact ⟨S.digest.hash_length _,hfp ▸ hname⟩
    · rw [Database.insert,Finmap.lookup_insert_of_ne _ heq] at hfp
      exact h.sized fp id hfp
  · rcases hnames with ⟨hsame,hdrawn⟩ | ⟨hmore,hdrawn⟩
    · exact ⟨0,by simpa using hsame.le,by rw [hdrawn]; simp⟩
    · exact ⟨{S.uuid st.world.shared.drawn},hmore.le,by rw [hdrawn,drawnNames_succ]⟩
  · rcases hnames with ⟨_,hdrawn⟩ | ⟨_,hdrawn⟩
    · exact hdrawn.ge
    · exact (Nat.le_succ _).trans hdrawn.ge

theorem inv_chunk (h : Inv S st) (hrun : st.running = true) (hi : i ∈ st.thList)
    (hs : st.world.sessions i = some s) (hlive : s.live = true)
    (hbusy : s.batch.index < s.batch.chunkNum) :
    let r := dedupChunk S.uuid st.world.shared s.client (S.digest.hash s.batch.chunk)
      s.batch.containerNameStr s.batch.chunk
    Inv S (st.put i { s with client := r.client, batch := s.batch.advance r.containerNameStr } r.shared
      st.world.disk) := by
  have hok := h.sessions i s hs
  obtain ⟨_,hnext⟩ := hok.next hbusy
  rcases dedupChunk_cases S.uuid st.world.shared s.client (S.digest.hash s.batch.chunk)
    s.batch.containerNameStr s.batch.chunk with ⟨id,_,hdup⟩ | ⟨hnew,hsave⟩
  · rw [hdup]
    apply inv_put h hrun hi hs
    exact stepped_quiet h hi hs
      ⟨hok.current,hok.pushed,hok.named,hnext id,hok.promise,hok.done⟩ rfl rfl le_rfl rfl
  · rw [hsave]
    exact inv_put h hrun hi hs (stepped_save h hi hs hlive hbusy hnew)

theorem inv_message (h : Inv S st) (hrun : st.running = true) (hi : i ∈ st.thList)
    (hs : st.world.sessions i = some s) {chunks : List Bytes}
    (hsmall : ∀ d ∈ chunks, d.length ≤ maxChunkSize) :
    let batch := Batch.receive s.batch.dataBuffer chunks.length (encodeChunks chunks)
    Inv S (st.put i { s with batch := batch } st.world.shared st.world.disk) := by
  have hok := h.sessions i s hs
  apply inv_put h hrun hi hs
  exact stepped_quiet h hi hs ⟨hok.current,hok.pushed,hok.named,
    ⟨chunks,remaining_receive s.batch.dataBuffer hsmall⟩,hok.promise,hok.done⟩ rfl rfl le_rfl rfl

theorem last_containers (hok : SessionOk s) (hlive : s.live = true) :
    let s' := { s with client := StorageCore.lastContainer s.client, live := false }
    SessionOk s' ∧ entryNum (sessionContainers s') = entryNum (sessionContainers s) ∧
      dataSize (sessionContainers s') = dataSize (sessionContainers s) ∧
      names (sessionContainers s') ≤ names (sessionContainers s) := by
  obtain ⟨ps,hps⟩ := hok.current
  have hold := sessionContainers_live hlive
  unfold StorageCore.lastContainer
  split_ifs with hsize
  · have hpushes : ({ s with client := { s.client with inputMQ := s.client.inputMQ ++
        [ocallWriteContainer s.client.curContainer] }, live := false } : Session).pushes =
        s.pushes ++ [ocallWriteContainer s.client.curContainer] := pushes_push rfl rfl
    have hnew : sessionContainers { s with client := { s.client with inputMQ := s.client.inputMQ ++
        [ocallWriteContainer s.client.curContainer] }, live := false } = sessionContainers s := by
      rw [hold,sessionContainers,hpushes,List.map_append,List.map_singleton,
        recordOf_ocallWriteContainer hps,← Multiset.coe_add,Multiset.coe_singleton]
      simp
    refine ⟨⟨⟨ps,hps⟩,?_,hok.named,hok.batch,promise_push hok.promise (hok.not_done hlive) _,
      fun _ => rfl⟩,congrArg entryNum hnew,congrArg dataSize hnew,(congrArg names hnew).le⟩
    rw [hpushes]
    exact hok.handed_push
  · have hnone : memoryLengths s.client.curContainer = [] := by
      simp only [ne_eq,not_not] at hsize
      simp [memoryLengths,hsize]
    have hnew : sessionContainers { s with live := false } = (s.pushes.map recordOf : List Record) := by
      simp [sessionContainers,Session.pushes]
    refine ⟨⟨⟨ps,hps⟩,hok.pushed,hok.named,hok.batch,hok.promise,fun _ => rfl⟩,?_,?_,?_⟩
    · rw [hnew,hold]
      simp [entryNum,currentRecord,hnone]
    · rw [hnew,hold]
      simp [dataSize,currentRecord,hnone]
    · rw [hnew,hold,names_add]
      exact Multiset.le_add_right _ _

theorem inv_lastContainer (h : Inv S st) (hrun : st.running = true) (hi : i ∈ st.thList)
    (hs : st.world.sessions i = some s) (hlive : s.live = true) :
    Inv S (st.put i { s with client := StorageCore.lastContainer s.client, live := false }
      st.world.shared st.world.disk) := by
  obtain ⟨hok,hnum,hsize,hnames⟩ := last_containers (h.sessions i s hs) hlive
  exact inv_put h hrun hi hs (stepped_quiet h hi hs hok hnum hsize hnames rfl)

theorem inv_setDone (h : Inv S st) (hrun : st.running = true) (hi : i ∈ st.thList)
    (hs : st.world.sessions i = some s) (hdead : s.live = false) :
    Inv S (st.put i { s with done := true } st.world.shared st.world.disk) := by
  have hok := h.sessions i s hs
  apply inv_put h hrun hi hs
  exact stepped_quiet h hi hs ⟨hok.current,hok.pushed,hok.named,hok.batch,promise_setDone hok.promise,
    fun _ => hdead⟩ rfl rfl le_rfl rfl

theorem name_pushed {c : Container} (hc : c ∈ s.pushes) : c.containerID ∈ names (sessionContainers s) := by
  rw [sessionContainers,names_add,Multiset.mem_add]
  exact Or.inl (by simpa [names,recordOf] using ⟨c,hc,rfl⟩)

theorem name_archived {c : Container} (hc : c ∈ st.archive) (i : ℕ) :
    c.containerID ∈ names (others st i) := by
  rw [others,names_add,Multiset.mem_add]
  exact Or.inl (by simpa [names,recordOf] using ⟨c,hc,rfl⟩)

theorem name_other {j : ℕ} {t : Session} {c : Container} (hj : j ∈ st.thList) (hji : j ≠ i)
    (ht : st.world.sessions j = some t) (hc : c ∈ t.pushes) :
    c.containerID ∈ names (others st i) := by
  have hle : ((st.world.sessions j).map sessionContainers).getD 0 ≤
      ∑ k ∈ st.thList.erase i, ((st.world.sessions k).map sessionContainers).getD 0 :=
    Finset.single_le_sum (f := fun k => ((st.world.sessions k).map sessionContainers).getD 0)
      (fun _ _ => zero_le) (Finset.mem_erase.mpr ⟨hji,hj⟩)
  rw [ht] at hle
  rw [others,names_add,Multiset.mem_add]
  exact Or.inr (Multiset.mem_of_le (Multiset.map_le_map hle) (name_pushed hc))

theorem held_free (hi : i ∈ st.thList) (hs : st.world.sessions i = some s)
    (hnodup : (names (containers st)).Nodup) {c : Container} (hc : c ∈ s.writer.point.held) {j : ℕ}
    {v : Writer} {e : Container} (hv : writersOf st j = some v) (he : e ∈ v.saved) :
    e.containerID ≠ c.containerID := by
  rw [containers_eq hi hs,names_add,Multiset.nodup_add] at hnodup
  obtain ⟨_,hown,hdisjoint⟩ := hnodup
  have hpushed : c ∈ s.pushes := by simp [Session.pushes,hc]
  have hother : e.containerID ∈ names (others st i) → e.containerID ≠ c.containerID := by
    intro hin heq
    exact Multiset.disjoint_left.mp hdisjoint hin (heq ▸ name_pushed hpushed)
  cases j with
  | zero =>
    obtain rfl := Option.some.inj hv
    exact hother (name_archived he i)
  | succ j =>
    simp only [writersOf] at hv
    split_ifs at hv with hj
    obtain ⟨t,ht,rfl⟩ := Option.map_eq_some_iff.mp hv
    by_cases hji : j = i
    · subst hji
      obtain rfl : s = t := Option.some.inj (hs.symm.trans ht)
      have hlist : (s.pushes.map Container.containerID).Nodup := by
        rw [sessionContainers,names_add,Multiset.nodup_add] at hown
        simpa [names,recordOf,Function.comp_def] using hown.1
      rw [Session.pushes,List.append_assoc,List.map_append,List.nodup_append] at hlist
      exact hlist.2.2 _ (List.mem_map_of_mem he) _ (List.mem_map_of_mem (by simp [hc]))
    · exact hother (name_other hj hji ht (by simp [Session.pushes,he]))

/-- The writer moves containers along; what it does to the directory it does to the file
of the container that it holds. -/
theorem inv_writer (h : Inv S st) (hrun : st.running = true) (hi : i ∈ st.thList)
    (hs : st.world.sessions i = some s) {k : ℕ} {p : Pipe}
    (hp : writerStep (s.pipe st.world.disk) k = some p) :
    Inv S (st.put i { s with client.inputMQ := p.inputMQ.items, writer := p.writer } st.world.shared
      p.disk) := by
  have hok := h.sessions i s hs
  obtain ⟨hpushes,hdone⟩ := writerStep_pushes hp
  have hpromise : Promise p := writerStep_promise (p := s.pipe st.world.disk) hok.promise hp
  have hnew : sessionContainers { s with client.inputMQ := p.inputMQ.items, writer := p.writer } =
      sessionContainers s := by
    simp only [sessionContainers]
    rw [← hpushes]
    rfl
  have hquiet : Stepped S st s { s with client.inputMQ := p.inputMQ.items, writer := p.writer }
      st.world.shared p.disk i 0 0 := by
    refine ⟨h.sized,rfl,(Nat.mod_eq_of_lt h.fit.uniqueChunkNum).symm,
      (Nat.mod_eq_of_lt h.fit.uniqueDataSize).symm,congrArg entryNum hnew,congrArg dataSize hnew,
      ⟨0,by rw [hnew]; simp,by simp⟩,Nat.le_refl _,?_,?_⟩
    · refine ⟨hok.current,?_,hok.named,hok.batch,?_,hok.done⟩
      · intro c hc
        exact hok.pushed c (hpushes ▸ hc)
      · obtain ⟨⟨items,done⟩,disk,writer⟩ := p
        obtain rfl : done = s.done := hdone
        exact hpromise
    · intro hd hnodup
      apply diskOk_writer (p := s.pipe st.world.disk) hd (writersOf_active hi hs) hp
      · intro c hc
        have hin : c ∈ s.writer.point.held := hc
        obtain ⟨ps,hps⟩ := hok.pushed c (by simp [Session.pushes,hin])
        exact written_pos hps
      · intro c hc j v e hv he
        exact held_free hi hs hnodup hc hv he
  exact inv_put h hrun hi hs hquiet

/-- A writer that has returned explains only the files of its saved containers. -/
theorem explains_returned {v : Writer} {id : Bytes} {f : DiskFile} (hreturned : v.point = .returned)
    (h : Explains v id f) : ∃ c ∈ v.saved, c.containerID = id ∧ f = ⟨c.written,true⟩ := by
  rcases h with hsaved | ⟨_,_,_,hpoint,_⟩
  · exact hsaved
  · rw [hreturned] at hpoint
    simp at hpoint

theorem diskOk_join (hi : i ∈ st.thList) (hs : st.world.sessions i = some s)
    (hreturned : s.writer.point = .returned) (hd : DiskOk st.world.disk (writersOf st)) :
    DiskOk st.world.disk (writersOf { st with
      thList := st.thList.erase i, archive := st.archive ++ s.writer.saved }) := by
  constructor
  · intro j v c hv hc
    cases j with
    | zero =>
      obtain rfl := Option.some.inj hv
      rcases List.mem_append.mp hc with hold | hnew
      · exact hd.saved 0 _ c rfl hold
      · exact hd.saved (i+1) s.writer c (writersOf_active hi hs) hnew
    | succ j =>
      simp only [writersOf] at hv
      split_ifs at hv with hj
      exact hd.saved (j+1) v c (by simpa [writersOf,Finset.mem_of_mem_erase hj] using hv) hc
  · intro id f hf
    obtain ⟨j,v,hv,hexplains⟩ := hd.files id f hf
    cases j with
    | zero =>
      obtain rfl := Option.some.inj hv
      obtain ⟨c,hc,heq⟩ := explains_returned rfl hexplains
      exact ⟨0,_,rfl,Or.inl ⟨c,List.mem_append.mpr (Or.inl hc),heq⟩⟩
    | succ j =>
      by_cases hji : j = i
      · subst hji
        obtain rfl : s.writer = v := Option.some.inj ((writersOf_active hi hs).symm.trans hv)
        obtain ⟨c,hc,heq⟩ := explains_returned hreturned hexplains
        exact ⟨0,_,rfl,Or.inl ⟨c,List.mem_append.mpr (Or.inr hc),heq⟩⟩
      · refine ⟨j+1,v,?_,hexplains⟩
        simpa [writersOf,hji] using hv

theorem inv_join (h : Inv S st) (hrun : st.running = true) (hi : i ∈ st.thList)
    (hs : st.world.sessions i = some s) (hdead : s.live = false)
    (hreturned : s.writer.point = .returned) :
    Inv S { st with thList := st.thList.erase i, archive := st.archive ++ s.writer.saved } := by
  have hok := h.sessions i s hs
  have hempty : s.client.inputMQ = [] := by
    have hpromise := hok.promise
    simp only [Promise,Uploads.Session.pipe,hreturned] at hpromise
    exact hpromise.2
  have hpushes : s.pushes = s.writer.saved := by
    simp [Session.pushes,hreturned,Point.held,hempty]
  have hown : sessionContainers s = (s.writer.saved.map recordOf : List Record) := by
    simp [sessionContainers,hpushes,hdead]
  have hsame : containers { st with
      thList := st.thList.erase i, archive := st.archive ++ s.writer.saved } = containers st := by
    rw [containers_eq hi hs,hown,others,containers,List.map_append,← Multiset.coe_add]
    exact add_right_comm _ _ _
  refine ⟨h.sized,hsame ▸ h.entries,h.chunkNum,hsame ▸ h.dataSize,h.fit,hsame ▸ h.named,h.sessions,?_,
    ?_,fun hid => diskOk_join hi hs hreturned (h.disk hid)⟩
  · intro j hj
    exact h.active j (Finset.mem_of_mem_erase hj)
  · intro hstopped
    exact absurd (hrun.symm.trans hstopped) (by decide)

def Server.entered (S : Setting) (st : Server) (i : ℕ) (prior : InmemoryContainer)
    (buffer : Mem UInt8) (head : FileRecipeHead) : Server :=
  { st.enter i head with
    world := { st.world.put i (newSession (S.uuid st.world.shared.drawn) prior buffer) with
      shared := { st.world.shared with drawn := st.world.shared.drawn+1 } } }

theorem containers_entered (hnot : i ∉ st.thList) (prior : InmemoryContainer) (buffer : Mem UInt8)
    (head : FileRecipeHead) :
    containers (st.entered S i prior buffer head) =
      containers st+{(S.uuid st.world.shared.drawn,[])} := by
  have hown : sessionContainers (newSession (S.uuid st.world.shared.drawn) prior buffer) =
      {(S.uuid st.world.shared.drawn,[])} := by
    simp [sessionContainers,newSession,Session.pushes,Point.held,currentRecord,memoryLengths,
      initUploadBuffer]
  have hrest : ∑ j ∈ st.thList, (((st.world.put i (newSession (S.uuid st.world.shared.drawn) prior
      buffer)).sessions j).map sessionContainers).getD 0 =
      ∑ j ∈ st.thList, ((st.world.sessions j).map sessionContainers).getD 0 := by
    apply Finset.sum_congr rfl
    intro j hj
    have hji : j ≠ i := fun heq => hnot (heq ▸ hj)
    rw [put_ne st.world _ hji]
  simp only [containers,Server.entered,Server.enter]
  rw [Finset.sum_insert hnot,hrest,put_self,Option.map_some,Option.getD_some,hown]
  rw [add_comm {(S.uuid st.world.shared.drawn,([] : List ℕ))},add_assoc]

theorem writersOf_entered (prior : InmemoryContainer) (buffer : Mem UInt8) (head : FileRecipeHead) :
    writersOf (st.entered S i prior buffer head) =
      Function.update (writersOf st) (i+1) (some ⟨.testDone,[]⟩) := by
  funext j
  cases j with
  | zero => simp [writersOf,Server.entered,Server.enter]
  | succ j =>
    by_cases hji : j = i
    · subst hji
      simp [writersOf,Server.entered,Server.enter,newSession]
    · simp [writersOf,Server.entered,Server.enter,put_ne st.world _ hji,hji]

theorem diskOk_entered (hnot : i ∉ st.thList) (hd : DiskOk st.world.disk (writersOf st)) :
    DiskOk st.world.disk (Function.update (writersOf st) (i+1) (some ⟨.testDone,[]⟩)) := by
  constructor
  · intro j v c hv hc
    by_cases hji : j = i+1
    · subst hji
      rw [Function.update_self,Option.some.injEq] at hv
      subst hv
      simp at hc
    · rw [Function.update_of_ne hji] at hv
      exact hd.saved j v c hv hc
  · intro id f hf
    obtain ⟨j,v,hv,hexplains⟩ := hd.files id f hf
    have hji : j ≠ i+1 := by
      rintro rfl
      simp [writersOf,hnot] at hv
    exact ⟨j,v,by rwa [Function.update_of_ne hji],hexplains⟩

theorem inv_login (h : Inv S st) (hrun : st.running = true) (hs : st.world.sessions i = none)
    (prior : InmemoryContainer) (buffer : Mem UInt8) (head : FileRecipeHead) :
    Inv S (st.entered S i prior buffer head) := by
  have hnot : i ∉ st.thList := by
    intro hi
    obtain ⟨s,hsome⟩ := h.active i hi
    simp [hs] at hsome
  have hafter := containers_entered (S := S) hnot prior buffer head
  refine ⟨h.sized,?_,h.chunkNum,?_,?_,?_,?_,?_,?_,?_⟩
  · rw [hafter,entryNum_add]
    exact h.entries
  · rw [hafter,dataSize_add]
    exact h.dataSize
  · exact ⟨Nat.mod_lt _ (by decide),Nat.mod_lt _ (by decide),h.fit.uniqueDataSize,h.fit.uniqueChunkNum,
      h.fit.compressedDataSize⟩
  · rw [hafter,names_add]
    show _ ≤ drawnNames S (st.world.shared.drawn+1)
    rw [drawnNames_succ]
    exact add_le_add_left h.named _
  · intro j t ht
    rcases put_cases (w := st.world) ht with ⟨_,rfl⟩ | ⟨_,hold⟩
    · exact ⟨⟨[],laid_of_empty rfl rfl⟩,by simp [newSession,Session.pushes,Point.held],
        S.uuid_length _,⟨[],rfl,holds_nil _ _,by simp⟩,trivial,by simp [newSession]⟩
    · exact h.sessions j t hold
  · intro j hj
    rcases Finset.mem_insert.mp hj with rfl | hin
    · exact ⟨_,put_self _ _ _⟩
    · obtain ⟨t,ht⟩ := h.active j hin
      have hji : j ≠ i := fun heq => hnot (heq ▸ hin)
      exact ⟨t,(put_ne _ _ hji).trans ht⟩
  · intro hstopped
    exact absurd (hrun.symm.trans hstopped) (by decide)
  · intro hid
    have hold : Set.InjOn S.uuid {n | n < st.world.shared.drawn} :=
      hid.mono fun n hn => Nat.lt_succ_of_lt hn
    rw [writersOf_entered]
    exact diskOk_entered hnot (h.disk hold)

theorem inv_shutdown (h : Inv S st) {order : Order} (hth : st.thList = ∅)
    (horder : order.toFinmap = st.world.shared.indexStore) :
    Inv S { st with
      dbFile := some (saveDB order), statFile := some (saveStat st.counters), running := false } :=
  ⟨h.sized,h.entries,h.chunkNum,h.dataSize,h.fit,h.named,h.sessions,h.active,
    fun _ => ⟨hth,⟨order,horder,rfl⟩,rfl⟩,h.disk⟩

theorem openDB_of_stopped (h : Inv S st) (hstopped : st.running = false) :
    openDB st.dbFile = .ok st.world.shared.indexStore := by
  obtain ⟨_,⟨order,horder,hfile⟩,_⟩ := h.stopped hstopped
  rw [hfile,← horder]
  apply openDB_saveDB
  intro k v hlookup
  rw [horder] at hlookup
  obtain ⟨hk,hv⟩ := h.sized k v hlookup
  refine ⟨List.ne_nil_of_length_pos (by rw [hk]; decide),?_,?_⟩
  · rw [ShortString,hk]
    decide
  · rw [ShortString,hv]
    decide

theorem inv_restart {st' : Server} (h : Inv S st) (hstopped : st.running = false)
    (hre : restart st = some st') : Inv S st' := by
  obtain ⟨hth,_,hstat⟩ := h.stopped hstopped
  rw [restart,openDB_of_stopped h hstopped,hstat,loadStat_saveStat h.fit] at hre
  obtain rfl := Option.some.inj hre
  have hwriters : ∀ w, writersOf { st with world := w } = writersOf st := by
    intro w
    funext j
    cases j <;> simp [writersOf,hth]
  have hcontainers : ∀ w, containers { st with world := w } = containers st := by
    intro w
    simp [containers,hth]
  refine ⟨h.sized,?_,h.chunkNum,?_,h.fit,?_,by simp,by simp [hth],by simp,?_⟩
  · exact h.entries.trans (congrArg entryNum (hcontainers _).symm)
  · exact h.dataSize.trans (congrArg (fun R => dataSize R % 2^64) (hcontainers _).symm)
  · exact (congrArg names (hcontainers _)).le.trans h.named
  · intro hid
    have hd := h.disk hid
    rw [← hwriters] at hd
    exact hd

theorem inv_step {e : Event} {st' : Server} (h : Inv S st) (hadmitted : Admitted e)
    (hstep : step S st e = some st') : Inv S st' := by
  have upload : ∀ {u : Uploads.Event}, (if st.running = true ∧ u.session ∈ st.thList then
      (Uploads.step S.digest S.uuid st.world u).map fun w => { st with world := w } else none) =
        some st' → ∃ w, st.running = true ∧ u.session ∈ st.thList ∧
          Takes S.digest S.uuid st.world u w ∧ st' = { st with world := w } := by
    intro u hu
    split_ifs at hu with hcond
    obtain ⟨w,hw,rfl⟩ := Option.map_eq_some_iff.mp hu
    exact ⟨w,hcond.1,hcond.2,takes_of_step hw,rfl⟩
  cases e with
  | login i prior buffer head =>
    simp only [step] at hstep
    split_ifs at hstep with hrun
    obtain ⟨w,hw,rfl⟩ := Option.map_eq_some_iff.mp hstep
    cases takes_of_step hw with
    | login _ _ hs => exact inv_login h hrun hs prior buffer head
  | message i n payload =>
    obtain ⟨w,hrun,hi,htakes,rfl⟩ := upload hstep
    obtain ⟨chunks,rfl,rfl,hsmall⟩ := hadmitted
    cases htakes with
    | message _ _ hs _ _ => exact inv_message h hrun hi hs hsmall
  | chunk i =>
    obtain ⟨w,hrun,hi,htakes,rfl⟩ := upload hstep
    cases htakes with
    | chunk hs hlive hbusy hr =>
      subst hr
      exact inv_chunk h hrun hi hs hlive hbusy
  | lastContainer i =>
    obtain ⟨w,hrun,hi,htakes,rfl⟩ := upload hstep
    cases htakes with
    | lastContainer hs hlive _ => exact inv_lastContainer h hrun hi hs hlive
  | setDone i =>
    obtain ⟨w,hrun,hi,htakes,rfl⟩ := upload hstep
    cases htakes with
    | setDone hs hdead => exact inv_setDone h hrun hi hs hdead
  | writer i k =>
    obtain ⟨w,hrun,hi,htakes,rfl⟩ := upload hstep
    cases htakes with
    | writer hs hp => exact inv_writer h hrun hi hs hp
  | join i =>
    simp only [step] at hstep
    split_ifs at hstep with hrun
    obtain ⟨s,hs,hjoin⟩ := Option.bind_eq_some_iff.mp hstep
    unfold join at hjoin
    split_ifs at hjoin with hcond
    obtain rfl := Option.some.inj hjoin
    exact inv_join h hrun hcond.1 hs hcond.2.1 hcond.2.2
  | shutdown order =>
    simp only [step] at hstep
    split_ifs at hstep with hrun
    unfold shutdown at hstep
    split_ifs at hstep with hcond
    obtain rfl := Option.some.inj hstep
    exact inv_shutdown h hcond.1 hcond.2
  | restart =>
    simp only [step] at hstep
    split_ifs at hstep with hrun
    exact inv_restart h (by simpa using hrun) hstep

/-- With distinct names the directory holds the saved containers. -/
theorem filed_of_inv (h : Inv S st) (hid : Set.InjOn S.uuid {n | n < st.world.shared.drawn}) :
    Filed st where
  distinct := names_nodup h hid
  saved c hc := by
    rcases hc with hold | ⟨i,hi,s,hs,hc⟩
    · exact (h.disk hid).saved 0 _ c rfl hold
    · exact (h.disk hid).saved (i+1) s.writer c (writersOf_active hi hs) hc
  files id f hf hclosed := by
    obtain ⟨j,v,hv,hexplains⟩ := (h.disk hid).files id f hf
    rcases hexplains with ⟨c,hc,hname,_⟩ | ⟨_,_,_,_,_,_,rfl⟩
    · refine ⟨c,?_,hname⟩
      cases j with
      | zero =>
        obtain rfl := Option.some.inj hv
        exact Or.inl hc
      | succ j =>
        simp only [writersOf] at hv
        split_ifs at hv with hj
        obtain ⟨s,hs,rfl⟩ := Option.map_eq_some_iff.mp hv
        exact Or.inr ⟨j,hj,s,hs,hc⟩
    · simp at hclosed

end Session

/-- In every state of every run the unique counters are those of the index and of the
header entries of all containers, modulo 2^64. If the names drawn so far are distinct,
the complete files of the directory are the saved ones of these containers. A server
that was shut down starts again. -/
theorem unique_accounting (S : Setting) (es : List Event) (st : Server)
    (hexec : Exec (step S) start es st) (hes : ∀ e ∈ es, Admitted e) :
    st.world.shared.uniqueChunkNum = st.world.shared.indexStore.keys.card % 2^64 ∧
      st.world.shared.uniqueChunkNum = entryNum (containers st) % 2^64 ∧
      st.world.shared.uniqueDataSize = dataSize (containers st) % 2^64 ∧
      (Set.InjOn S.uuid {n | n < st.world.shared.drawn} → Filed st) ∧
      (st.running = false → ∃ st', step S st .restart = some st') := by
  have hinv : Inv S st :=
    hexec.invariant (fun _ _ _ h he hstep => inv_step h he hstep) (inv_start S) hes
  refine ⟨hinv.chunkNum,hinv.entries ▸ hinv.chunkNum,hinv.dataSize,filed_of_inv hinv,?_⟩
  intro hstopped
  have hstep : step S st .restart = restart st := by simp [step,hstopped]
  rw [hstep,restart,openDB_of_stopped hinv hstopped]
  exact ⟨_,rfl⟩

def demoSetting : Setting where
  digest := DedupInvariant.paddedDigest
  uuid n := List.replicate containerIdLength (UInt8.ofNat (n+1))
  uuid_length _ := List.length_replicate

/-- A session that starts in memory with a stale chunk count, uploads two chunks and the
first of them again, and comes to its end; a shutdown and a restart. -/
def demoRun : List Event :=
  [.login 0 ⟨[],5,fun _ => 0,0,fun _ => 0,0⟩ (fun _ => 0) ⟨5,3⟩,
    .message 0 3 (encodeChunks [[5,6],[7],[5,6]]),.chunk 0,.chunk 0,.chunk 0,.lastContainer 0,.setDone 0,
    .writer 0 0,.writer 0 0,.writer 0 0,.writer 0 0,.writer 0 100,.writer 0 0,.writer 0 0,.writer 0 0,
    .writer 0 0,.writer 0 0,.join 0,
    .shutdown ⟨[⟨demoSetting.digest.hash [7],demoSetting.uuid 0⟩,
      ⟨demoSetting.digest.hash [5,6],demoSetting.uuid 0⟩],by rw [List.NodupKeys]; decide⟩,
    .restart]

theorem unique_accounting_restarted :
    ∃ st, Exec (step demoSetting) start demoRun st ∧ st.running = true ∧
      entryNum (containers st) % 2^64 = 2 ∧ dataSize (containers st) % 2^64 = 3 := by
  have hrun : (run (step demoSetting) start demoRun).map (fun st =>
      (st.running,st.world.shared.uniqueChunkNum,st.world.shared.uniqueDataSize)) = some (true,2,3) := by
    decide +kernel
  obtain ⟨st,hexec,hobs⟩ := Exec.of_run_map _ hrun
  obtain ⟨hup,hnum,hsize⟩ : st.running = true ∧ st.world.shared.uniqueChunkNum = 2 ∧
      st.world.shared.uniqueDataSize = 3 := by simpa using hobs
  have hall := unique_accounting demoSetting demoRun st hexec (by
    simp only [demoRun,List.forall_mem_cons]
    exact ⟨trivial,⟨[[5,6],[7],[5,6]],rfl,rfl,by decide⟩,by simp [Admitted]⟩)
  exact ⟨st,hexec,hup,hall.2.1.symm.trans hnum,hall.2.2.1.symm.trans hsize⟩

end Accounting
end CloudServer
