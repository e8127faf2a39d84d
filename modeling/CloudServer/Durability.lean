import CloudServer.Lifecycle

/-! Which fingerprints survive the end of a process. The index and the db file together
hold every fingerprint as long as no step ends the process without the handler. -/
namespace CloudServer
namespace Durability

open ByteMemory Execution PlainIndex Database Lifecycle
open Uploads (World Session Takes)
open RecvDecoder (Message SendMsgBuffer)

def Sized (m : Index) : Prop :=
  ∀ k v, m.lookup k = some v → k.length = chunkHashSize ∧ v.length = containerIdLength

structure Sizes (w : World) : Prop where
  index : Sized w.shared.indexStore
  names : ∀ i s, w.sessions i = some s →
    s.client.curContainer.containerID.length = containerIdLength

variable {S : Setting} {w w' : World} {p q : Process} {e : Event}

theorem storable_of_sized {m : Index} (h : Sized m) : Storable m := by
  intro k v hk
  obtain ⟨hkey,hvalue⟩ := h k v hk
  refine ⟨?_,?_,?_⟩
  · rintro rfl
    simp [chunkHashSize] at hkey
  · simp [ShortString,hkey,chunkHashSize]
  · simp [ShortString,hvalue,containerIdLength]

theorem sizes_put (h : Sizes w) (i : ℕ) {s : Session}
    (hs : s.client.curContainer.containerID.length = containerIdLength) : Sizes (w.put i s) := by
  refine ⟨h.index,?_⟩
  intro j t ht
  rcases Uploads.put_cases ht with ⟨_,rfl⟩ | ⟨_,hold⟩
  · exact hs
  · exact h.names j t hold

theorem lastContainer_containerID (cl : StorageCore.ClientVar) :
    (StorageCore.lastContainer cl).curContainer.containerID = cl.curContainer.containerID := by
  unfold StorageCore.lastContainer
  split_ifs <;> rfl

theorem sized_insert {m : Index} (h : Sized m) {k v : Bytes} (hk : k.length = chunkHashSize)
    (hv : v.length = containerIdLength) : Sized (Database.insert m k v) := by
  intro k' v' hlook
  by_cases hkk : k' = k
  · subst hkk
    rw [Database.insert,Finmap.lookup_insert,Option.some.injEq] at hlook
    exact ⟨hk,hlook ▸ hv⟩
  · rw [Database.insert,Finmap.lookup_insert_of_ne m hkk] at hlook
    exact h k' v' hlook

theorem sizes_takes {ue : Uploads.Event} (h : Sizes w) (ht : Takes S.digest S.uuid w ue w') :
    Sizes w' := by
  cases ht with
  | @login i prior buffer _ => exact ⟨h.index,(sizes_put h i (S.uuid_length _)).names⟩
  | @message i s _ _ hs _ _ => exact sizes_put h i (h.names i s hs)
  | @chunk i s r hs _ _ hr =>
    subst hr
    rcases dedupChunk_cases S.uuid w.shared s.client (S.digest.hash s.batch.chunk)
      s.batch.containerNameStr s.batch.chunk with ⟨id,_,hdup⟩ | ⟨_,hsave⟩
    · rw [hdup]
      exact sizes_put h i (h.names i s hs)
    · rw [hsave]
      have hname : ∀ cl drawn name, StorageCore.saveChunk S.uuid w.shared.drawn s.client
          (S.digest.hash s.batch.chunk) s.batch.chunk = ⟨cl,drawn,name⟩ →
          cl.curContainer.containerID.length = containerIdLength ∧
            name.length = containerIdLength := by
        intro cl drawn name hout
        rcases Packing.saveChunk_cases S.uuid w.shared.drawn s.client
          (S.digest.hash s.batch.chunk) s.batch.chunk with ⟨_,hcase⟩ | ⟨_,hcase⟩ <;>
          rw [hcase] at hout <;> cases hout
        · exact ⟨h.names i s hs,h.names i s hs⟩
        · exact ⟨S.uuid_length _,S.uuid_length _⟩
      obtain ⟨hcur,hstored⟩ := hname _ _ _ rfl
      exact ⟨sized_insert h.index (S.digest.hash_length _) hstored,(sizes_put h i hcur).names⟩
  | @lastContainer i s hs _ _ =>
    exact sizes_put h i ((congrArg List.length (lastContainer_containerID _)).trans (h.names i s hs))
  | @setDone i s hs _ => exact sizes_put h i (h.names i s hs)
  | @writer i k s pipe hs _ =>
    have hput := sizes_put h i (h.names i s hs)
      (s := { s with client.inputMQ := pipe.inputMQ.items, writer := pipe.writer })
    exact ⟨h.index,hput.names⟩

theorem sizes_moves (h : Sizes w) (hm : Moves S w w') : Sizes w' := by
  cases hm with
  | same => exact h
  | step hstep => exact sizes_takes h (Uploads.takes_of_step hstep)
  | @buffer i s b hs => exact sizes_put h i (h.names i s hs)

theorem index_moves (hm : Moves S w w') {fp name : Bytes} (h : w.index fp = some name) :
    w'.index fp = some name := by
  cases hm with
  | same => exact h
  | step hstep => exact UploadInvariant.index_step (Uploads.takes_of_step hstep) h
  | buffer b hs => exact h

/-- What holds of a process at any time: a running one has names of fixed lengths, and
the db file can be loaded. -/
structure Sound (p : Process) : Prop where
  running : p.status = .running → Sizes p.world
  loads : ∃ m, openDB p.dbFile = .ok m ∧ Sized m

theorem sound_start : Sound start where
  running _ := ⟨by simp [Sized,start,Process.world,Downloads.start,Uploads.empty],
    by simp [start,Process.world,Downloads.start,Uploads.empty]⟩
  loads := ⟨∅,rfl,by simp [Sized]⟩

theorem saved_loads (h : Sizes w) {order : Order} (horder : order.toFinmap = w.shared.indexStore)
    {dbFile : Option Bytes} (hdb : dbFile = some (saveDB order)) :
    openDB dbFile = .ok order.toFinmap ∧ Sized order.toFinmap := by
  have hsized : Sized order.toFinmap := by
    rw [horder]
    exact h.index
  refine ⟨?_,hsized⟩
  rw [hdb,openDB_saveDB order (storable_of_sized hsized)]

theorem sound_step (h : Sound p) (hstep : step S p e = some q) : Sound q := by
  cases step_outcome hstep with
  | goes hp hq hw hdb => exact ⟨fun _ => sizes_moves (h.running hp) hw,hdb ▸ h.loads⟩
  | exits hp hq hdb _ => exact ⟨by simp [hq],hdb ▸ h.loads⟩
  | saves order hp hq horder hdb =>
    exact ⟨by simp [hq],order.toFinmap,saved_loads (h.running hp) horder hdb⟩
  | starts m hp hq hm hindex hsessions hdb =>
    obtain ⟨m',hm',hsized⟩ := h.loads
    obtain rfl := Except.ok.inj (hm'.symm.trans hm)
    exact ⟨fun _ => ⟨hindex ▸ hsized,by simp [hsessions]⟩,hdb ▸ h.loads⟩

/-- The fingerprint is bound to the container in the index, or in the db file once the
process has ended. -/
def Found (p : Process) (fp name : Bytes) : Prop :=
  match p.status with
  | .running => p.world.index fp = some name
  | .ended => ∃ m, openDB p.dbFile = .ok m ∧ m.lookup fp = some name

theorem found_running (h : p.status = .running) (fp name : Bytes) :
    Found p fp name ↔ p.world.index fp = some name := by
  simp [Found,h]

theorem found_ended (h : p.status = .ended) (fp name : Bytes) :
    Found p fp name ↔ ∃ m, openDB p.dbFile = .ok m ∧ m.lookup fp = some name := by
  simp [Found,h]

/-- A benign step loses no fingerprint. -/
theorem found_step {fp name : Bytes} (h : Sound p) (hb : Benign S p e)
    (hstep : step S p e = some q) (hf : Found p fp name) : Found q fp name := by
  cases step_outcome hstep with
  | goes hp hq hw hdb =>
    rw [found_running hp] at hf
    rw [found_running hq]
    exact index_moves hw hf
  | exits hp hq hdb hbad => exact absurd hb hbad
  | saves order hp hq horder hdb =>
    rw [found_running hp] at hf
    rw [found_ended hq]
    exact ⟨order.toFinmap,(saved_loads (h.running hp) horder hdb).1,by rw [horder]; exact hf⟩
  | starts m hp hq hm hindex hsessions hdb =>
    obtain ⟨m',hm',hfp⟩ := (found_ended hp fp name).mp hf
    obtain rfl := Except.ok.inj (hm'.symm.trans hm)
    rw [found_running hq,World.index,hindex]
    exact hfp

def demoSetting : Setting where
  digest := DedupInvariant.paddedDigest
  uuid n := List.replicate containerIdLength (UInt8.ofNat n)
  uuid_length _ := List.length_replicate
  cfg := ⟨[],2⟩
  readCacheSize := 1
  canOpen _ := true

def demoMemory : Memory where
  prior := ⟨[],0,fun _ => 0,0,fun _ => 0,0⟩
  recvBuf := ⟨⟨.edgeLoginResponse,0,0,0⟩,fun _ => 0⟩
  recvChunkBuf := ⟨⟨.edgeLoginResponse,0,0,0⟩,fun _ => 0⟩
  sendRecipeBuf := ⟨⟨.edgeLoginResponse,0,0,0⟩,fun _ => 0⟩
  decoder := ⟨⟨⟨.edgeLoginResponse,0,0,0⟩,fun _ => 0⟩,fun _ => [],fun _ _ => 0,0,
    ReadCache.new 1 fun _ _ => 0,fun _ => ⟨[],[],0,0,0⟩⟩
  pool _ _ := 0

def writerSteps (i : ℕ) : List Event :=
  [.writer i 0,.writer i 0,.writer i 0,.writer i 0,.writer i 100,.writer i 0,.writer i 0,.writer i 0,
    .writer i 0,.writer i 0]

def uploadAll (i : ℕ) (c : UInt8) : List Event :=
  [.login i demoMemory (some ⟨⟨.edgeMigrateLogin,1,80,0⟩,List.replicate 80 c⟩) true,
    .uploadMessage i (some ⟨⟨.edgeMigrationChunk,1,6,1⟩,encodeChunks [[c,c]]⟩),.chunk i,
    .uploadMessage i (some ⟨⟨.edgeUploadRecipe,1,32,1⟩,List.replicate 32 c⟩),
    .uploadMessage i none,.setDone i] ++ writerSteps i ++ [.uploadEnds i]

theorem benign_uploadAll (i : ℕ) (c : UInt8) (p : Process) :
    ∀ e ∈ uploadAll i c, Benign demoSetting p e := by
  have hlogin : (List.replicate 80 c).length ≤ DataReceiver.fileNameLength+DataReceiver.headSize := by
    simp [DataReceiver.fileNameLength,DataReceiver.headSize,chunkHashSize]
  have hsmall : ∀ d ∈ [[c,c]], d.length ≤ maxChunkSize := by simp [maxChunkSize]
  have hsize : (encodeChunks [[c,c]]).length ≤ DataReceiver.recvChunkBufSize := by
    simp [encodeChunks,DataReceiver.recvChunkBufSize,sendChunkBatchSize,maxChunkSize]
  have hrecipe : (List.replicate 32 c).length ≤ DataReceiver.recvChunkBufSize := by
    simp [DataReceiver.recvChunkBufSize,sendChunkBatchSize,maxChunkSize]
  have hcount : chunkHashSize*1 ≤ DataReceiver.recvChunkBufSize := by decide
  simp only [uploadAll,writerSteps,List.cons_append,List.nil_append,List.forall_mem_cons]
  exact ⟨⟨hlogin,rfl,rfl⟩,fun _ _ _ _ => ⟨hsize,batchFits_receive rfl hsmall hsize _⟩,trivial,
    fun _ _ _ _ => ⟨hrecipe,hcount⟩,trivial,trivial,trivial,trivial,trivial,trivial,trivial,trivial,
    trivial,trivial,trivial,trivial,trivial,by simp⟩

end Durability
end CloudServer
