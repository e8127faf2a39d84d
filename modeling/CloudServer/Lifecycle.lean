import CloudServer.Downloads
import CloudServer.RecipeSender

/-! The server process from start to end and over restarts. Connections of all three
kinds run side by side; an error branch calls `exit` and loses what is in memory, the
interrupt handler waits for all threads and saves the index, and a restart loads the
index from the file that is there. -/
namespace CloudServer
namespace Lifecycle

open ByteMemory OutputStream Execution Interaction PlainIndex Database DataReceiver
open Uploads (World Session)
open RecvDecoder (Message SendMsgBuffer initDownloadChunkBuffer)
open RecipeSender (Sender edgeDownloadRecipeThread)

/-- What a process runs with: the hash, the names that `CreateUUID` draws, the
configuration, and whether the recipe files of a name can be created. -/
structure Setting where
  digest : Digest
  uuid : ℕ → Bytes
  uuid_length : ∀ n, (uuid n).length = containerIdLength
  cfg : Configure
  readCacheSize : ℕ
  canOpen : Bytes → Bool

/-- The part of an upload's `ClientVar` that recipe messages use. -/
structure Upload where
  writeHandler : Kind → Sink Bytes UInt8
  header : NetworkHead
  uploadDataSize : ℕ
  sent : List Message

inductive Status
  | running
  | ended
  deriving DecidableEq

/-- The process, with the directories and files that outlive it. `thList` holds the
connections whose threads have not returned. -/
structure Process where
  server : Downloads.Server
  uploads : ℕ → Option Upload
  senders : ℕ → Option (Sender Unit)
  thList : List ℕ
  status : Status
  files : Files Bytes UInt8
  dbFile : Option Bytes
  statFile : ℕ × ℕ

/-- Memory that a new connection finds in the state in which it was left. -/
structure Memory where
  prior : InmemoryContainer
  recvBuf : SendMsgBuffer
  recvChunkBuf : SendMsgBuffer
  sendRecipeBuf : SendMsgBuffer
  decoder : RecvDecoder.ClientVar
  pool : Mem (Mem UInt8)

/-- What can happen to a process. A receive that fails delivers `none`; `delivered`
tells whether the login response could be sent; `saveFails` is the `fopen` of a writer. -/
inductive Event
  | handshakeFails
  | login (i : ℕ) (memory : Memory) (m : Option Message) (delivered : Bool)
  | uploadMessage (i : ℕ) (m : Option Message)
  | chunk (i : ℕ)
  | setDone (i : ℕ)
  | writer (i k : ℕ)
  | saveFails (i : ℕ)
  | uploadEnds (i : ℕ)
  | downloadMessage (i : ℕ) (m : Option Message)
  | download (i : ℕ)
  | downloadSendFails (i : ℕ)
  | recipeMessage (i : ℕ) (m : Option Message)
  | recipeSent (i : ℕ) (success : Bool)
  | recipeEnds (i : ℕ)
  | interrupt (order : Order)
  | restart

def Process.world (p : Process) : World := p.server.world

def Process.setWorld (p : Process) (w : World) : Process :=
  { p with server := { p.server with world := w } }

/-- `exit(EXIT_FAILURE)`, or undefined behaviour: the objects on the heap are not
destroyed. -/
def exit (p : Process) : Process := { p with status := .ended }

def Process.joined (p : Process) (i : ℕ) : Process := { p with thList := p.thList.erase i }

def receiver (p : Process) (s : Session) (u : Upload) : Receiver where
  files := p.files
  writeHandler := u.writeHandler
  recvChunkBuf := ⟨u.header,s.batch.dataBuffer⟩
  uploadDataSize := u.uploadDataSize
  shared := p.world.shared
  client := s.client
  sent := u.sent

def uploadOf (r : Receiver) : Upload :=
  ⟨r.writeHandler,r.recvChunkBuf.header,r.uploadDataSize,r.sent⟩

/-- `EdgeUploadThread` up to the receive loop. -/
def openUpload (S : Setting) (p : Process) (i : ℕ) (memory : Memory) (m : Message) :
    Option Process :=
  let r := edgeUploadThread S.uuid S.cfg
    ⟨p.files,p.world.shared,memory.prior,memory.recvBuf,memory.recvChunkBuf⟩ m
  (Uploads.step S.digest S.uuid p.world
    (.login i memory.prior memory.recvChunkBuf.dataBuffer)).map fun w =>
      { p.setWorld w with
        files := r.files
        uploads := Function.update p.uploads i (some (uploadOf r))
        thList := i::p.thList }

/-- The state after a step of a chunk download; a download that ended the process has
ended it here. -/
def afterDownload (p : Process) (t : Downloads.Server) : Process :=
  if t.exited.isSome then exit p else { p with server := t }

def openDownload (S : Setting) (p : Process) (i : ℕ) (memory : Memory) (m : Message) :
    Option Process :=
  (Downloads.step S.digest S.uuid p.server (.login i
    (initDownloadChunkBuffer memory.decoder m.header.clientID S.readCacheSize memory.pool))).map
      fun t => { afterDownload p t with thList := i::p.thList }

def setSender (p : Process) (i : ℕ) : Sender Unit → Process
  | .fail _ => exit p
  | t => { p with senders := Function.update p.senders i (some t) }

def loginName (memory : Memory) (m : Message) : Bytes :=
  fileNameOf (receiveData m memory.recvBuf).dataBuffer

/-- The login dispatch of `ServerOptThread::Run`. -/
def login (S : Setting) (p : Process) (i : ℕ) (memory : Memory) (m : Message) (delivered : Bool) :
    Option Process :=
  if m.payload.length ≤ fileNameLength+headSize then
    match m.header.messageType with
    | .edgeMigrateLogin =>
      if S.canOpen (loginName memory m) ∧ delivered then openUpload S p i memory m
      else some (exit p)
    | .edgeDownloadRecipeLogin =>
      some (setSender { p with thList := i::p.thList } i
        (edgeDownloadRecipeThread S.cfg ⟨p.files,memory.recvBuf,memory.sendRecipeBuf⟩ m))
    | .edgeDownloadChunkLogin => if delivered then openDownload S p i memory m else some (exit p)
    | _ => some (exit p)
  else some (exit p)

def fresh (p : Process) (i : ℕ) : Bool :=
  (p.world.sessions i).isNone && (p.server.downloads i).isNone && (p.senders i).isNone

def cannotChange (S : Setting) (r : Receiver) (m : Message) : Bool :=
  decide (m.header.messageType = .edgeMigrationNewfile) &&
    !S.canOpen (fileNameOf (receiveData m r.recvChunkBuf).dataBuffer)

/-- One message of the receive loop of an upload. -/
def receiveUpload (S : Setting) (p : Process) (i : ℕ) (s : Session) (u : Upload) (m : Message) :
    Option Process :=
  if s.live ∧ ¬ s.batch.index < s.batch.chunkNum then
    if m.header.messageType = .edgeMigrationChunk ∧ m.payload.length ≤ recvChunkBufSize then
      (Uploads.step S.digest S.uuid p.world (.message i m.header.currentItemNum m.payload)).map
        fun w => { p.setWorld w with
          uploads := Function.update p.uploads i (some { u with header := m.header }) }
    else if cannotChange S (receiver p s u) m then
      -- `ChangeFile` has closed the old files by then
      some (exit { p with files := (closeRecipe .secureRecipe (closeRecipe .keyRecipe
        (closeRecipe .recipe (receiver p s u)))).files })
    else
      match receive S.digest S.uuid S.cfg m (receiver p s u) with
      | .error _ => some (exit p)
      | .ok r =>
        some { p.setWorld (p.world.put i
            { s with batch := { s.batch with dataBuffer := r.recvChunkBuf.dataBuffer } }) with
          files := r.files
          uploads := Function.update p.uploads i (some (uploadOf r)) }
  else none

def uploadEnds (p : Process) (i : ℕ) (s : Session) (u : Upload) : Option Process :=
  if s.live = false ∧ s.writer.point = .returned then
    some { p.joined i with
      files := (deleteClientVar (receiver p s u)).files
      uploads := Function.update p.uploads i none }
  else none

/-- A message, or the end of the connection, for a chunk download. -/
def receiveDownload (S : Setting) (p : Process) (i : ℕ) (d : Downloads.Download) :
    Option Message → Option Process
  | some m =>
    if m.payload.length ≤ recvChunkBufSize then
      (Downloads.step S.digest S.uuid p.server (.receive i m)).map (afterDownload p)
    else some (exit p)
  | none =>
    match d.task with
    | .ret _ =>
      if d.ready then
        some { p.joined i with
          server := { p.server with downloads := Function.update p.server.downloads i none } }
      else some (exit p)
    | _ => none

/-- The handler of `SIGINT`, once all threads are joined: the statistics are saved with
the index object, then the index itself. -/
def interrupt (p : Process) (order : Order) : Option Process :=
  if p.thList = [] ∧ order.toFinmap = p.world.shared.indexStore then
    some { p with
      dbFile := some (saveDB order)
      statFile := (p.world.shared.uniqueChunkNum,p.world.shared.uniqueDataSize)
      status := .ended }
  else none

/-- A new process on the files that the last one left. Random names are not drawn
again. -/
def restart (p : Process) : Option Process :=
  match openDB p.dbFile with
  | .ok m =>
    some { p with
      server := ⟨⟨⟨m,p.statFile.1,p.statFile.2,p.world.shared.drawn⟩,p.world.disk,fun _ => none⟩,
        fun _ => none,none⟩
      uploads := fun _ => none
      senders := fun _ => none
      thList := []
      status := .running }
  | .error _ => none

def step (S : Setting) (p : Process) (e : Event) : Option Process :=
  match p.status with
  | .ended =>
    match e with
    | .restart => restart p
    | _ => none
  | .running =>
    match e with
    | .handshakeFails => some (exit p)
    | .login i memory m delivered =>
      if fresh p i then
        match m with
        | none => some (exit p)
        | some m => login S p i memory m delivered
      else none
    | .uploadMessage i (some m) =>
      (p.world.sessions i).bind fun s => (p.uploads i).bind fun u => receiveUpload S p i s u m
    | .uploadMessage i none =>
      (Uploads.step S.digest S.uuid p.world (.lastContainer i)).map p.setWorld
    | .chunk i => (Uploads.step S.digest S.uuid p.world (.chunk i)).map p.setWorld
    | .setDone i => (Uploads.step S.digest S.uuid p.world (.setDone i)).map p.setWorld
    | .writer i k => (Uploads.step S.digest S.uuid p.world (.writer i k)).map p.setWorld
    | .saveFails i =>
      (p.world.sessions i).bind fun s =>
        match s.writer.point with
        | .openFile _ _ => some (exit p)
        | _ => none
    | .uploadEnds i =>
      (p.world.sessions i).bind fun s => (p.uploads i).bind fun u => uploadEnds p i s u
    | .downloadMessage i m => (p.server.downloads i).bind fun d => receiveDownload S p i d m
    | .download i => (Downloads.step S.digest S.uuid p.server (.download i)).map (afterDownload p)
    | .downloadSendFails i =>
      (p.server.downloads i).bind fun d =>
        match d.task with
        | .ask (.sendData _) _ => some (exit p)
        | _ => none
    | .recipeMessage i m =>
      (p.senders i).bind fun t =>
        match t with
        | .ask .receiveReady k => some (setSender p i (k m))
        | .ask .receiveLast k => some (setSender p i (k m))
        | _ => none
    | .recipeSent i success =>
      (p.senders i).bind fun t =>
        match t with
        | .ask (.sendData _) k => some (setSender p i (k success))
        | _ => none
    | .recipeEnds i =>
      (p.senders i).bind fun t =>
        match t with
        | .ret _ => some { p.joined i with senders := Function.update p.senders i none }
        | _ => none
    | .interrupt order => interrupt p order
    | .restart => none

def start : Process where
  server := Downloads.start
  uploads := fun _ => none
  senders := fun _ => none
  thList := []
  status := .running
  files := fun _ => none
  dbFile := none
  statFile := (0,0)

def LoginAccepted (S : Setting) (p : Process) (memory : Memory) (m : Message) (delivered : Bool) :
    Prop :=
  m.payload.length ≤ fileNameLength+headSize ∧
    match m.header.messageType with
    | .edgeMigrateLogin => S.canOpen (loginName memory m) = true ∧ delivered = true
    | .edgeDownloadRecipeLogin => ∀ k, (p.files (S.cfg.path (loginName memory m) k)).isSome = true
    | .edgeDownloadChunkLogin => delivered = true
    | _ => False

/-- `n` rounds of `ProcessOneBatch` from an offset on read inside the receive buffer, and
save chunks that fit a container. -/
def BatchFits (dataBuffer : Mem UInt8) : ℕ → ℕ → Prop
  | 0, _ => True
  | n+1, off =>
    off+4+leWord (read dataBuffer off 4) ≤ recvChunkBufSize ∧
      leWord (read dataBuffer off 4) ≤ maxContainerSize-44 ∧
      BatchFits dataBuffer n (off+4+leWord (read dataBuffer off 4))

theorem batchFits_of_holds {dataBuffer : Mem UInt8} {chunks : List Bytes} {off : ℕ}
    (h : Holds dataBuffer off (encodeChunks chunks)) (hs : ∀ d ∈ chunks, d.length ≤ maxChunkSize)
    (hin : off+(encodeChunks chunks).length ≤ recvChunkBufSize) :
    BatchFits dataBuffer chunks.length off := by
  induction chunks generalizing off with
  | nil => trivial
  | cons d chunks ih =>
    have hcons : encodeChunks (d::chunks) = leBytes d.length ++ (d ++ encodeChunks chunks) := by
      simp [encodeChunks]
    rw [hcons] at h hin
    obtain ⟨hlen,hrest⟩ := (holds_append _ _ _ _).mp h
    obtain ⟨_,hrest⟩ := (holds_append _ _ _ _).mp hrest
    have hd : d.length ≤ maxChunkSize := hs d (by simp)
    have hread : read dataBuffer off 4 = leBytes d.length := hlen
    have hsize : leWord (read dataBuffer off 4) = d.length := by
      rw [hread,leWord_leBytes,u32_of_lt (hd.trans_lt (by decide))]
    simp only [List.length_append,leBytes_length] at hin hrest
    rw [List.length_cons,BatchFits,hsize]
    exact ⟨by omega,hd.trans (by decide),ih hrest (fun e he => hs e (by simp [he])) (by omega)⟩

theorem batchFits_receive {m : Message} {chunks : List Bytes}
    (hpayload : m.payload = encodeChunks chunks) (hs : ∀ d ∈ chunks, d.length ≤ maxChunkSize)
    (hfit : m.payload.length ≤ recvChunkBufSize)
    (buf : SendMsgBuffer) : BatchFits (receiveData m buf).dataBuffer chunks.length 0 := by
  refine batchFits_of_holds ?_ hs (by rwa [Nat.zero_add,← hpayload])
  rw [receiveData,hpayload]
  exact holds_write_self _ 0 _

/-- A message for which the receive loop of an upload has a case, and whose counts and
sizes stay inside the buffers. -/
def UploadAccepted (S : Setting) (r : Receiver) (m : Message) : Prop :=
  m.payload.length ≤ recvChunkBufSize ∧
    match m.header.messageType with
    | .edgeMigrationChunk =>
      BatchFits (receiveData m r.recvChunkBuf).dataBuffer m.header.currentItemNum 0
    | .edgeUploadRecipe | .edgeUploadKeyRecipe =>
      chunkHashSize*m.header.currentItemNum ≤ recvChunkBufSize
    | .edgeUploadSecRecipe => chunkHashSize*m.header.currentItemNum ≤ recvChunkBufSize ∧
        m.header.dataSize ≤ recvChunkBufSize
    | .edgeMigrationChunkFinal | .edgeUploadSecRecipeEnd | .edgeUploadRecipeEnd => True
    | .edgeMigrationNewfile =>
      S.canOpen (fileNameOf (receiveData m r.recvChunkBuf).dataBuffer) = true
    | _ => False

/-- The event takes no branch that ends the process before its index is saved, and stays
inside the buffers. -/
def Benign (S : Setting) (p : Process) : Event → Prop
  | .handshakeFails | .login _ _ none _ | .downloadSendFails _ | .saveFails _ => False
  | .login _ memory (some m) delivered => LoginAccepted S p memory m delivered
  | .uploadMessage i (some m) => ∀ s u, p.world.sessions i = some s → p.uploads i = some u →
      UploadAccepted S (receiver p s u) m
  | .downloadMessage i none => ∀ d, p.server.downloads i = some d → d.ready = true
  | .downloadMessage i (some m) => m.payload.length ≤ recvChunkBufSize ∧
      ∀ d, p.server.downloads i = some d → d.ready = true →
        m.header.currentItemNum ≤ sendChunkBatchSize
  | .download i => ∀ d, p.server.downloads i = some d → (∀ f, d.task ≠ .fail f) ∧
      ∀ name k, d.task = .ask (.openContainer name) k → p.world.disk name ≠ none
  | .recipeMessage i m => ∀ k f, (p.senders i = some (.ask .receiveReady k) → k m ≠ .fail f) ∧
      (p.senders i = some (.ask .receiveLast k) → k m ≠ .fail f)
  | .recipeSent i success => ∀ m k f, p.senders i = some (.ask (.sendData m) k) → k success ≠ .fail f
  | _ => True

/-- The step of `Uploads` that an event is, where it is one and nothing else. -/
def uploadsEvent : Event → Option Uploads.Event
  | .uploadMessage i none => some (.lastContainer i)
  | .chunk i => some (.chunk i)
  | .setDone i => some (.setDone i)
  | .writer i k => some (.writer i k)
  | _ => none

def RepliesTo (i : ℕ) : Event → Prop
  | .recipeMessage j _ | .recipeSent j _ => j = i
  | _ => False

/-- What each event does to a running process. -/
inductive Performs (S : Setting) (p : Process) : Event → Process → Prop
  | exits {e : Event} (hbad : ¬ Benign S p e) : Performs S p e (exit p)
  | uploadLogin {i : ℕ} {memory : Memory} {m : Message} {delivered : Bool} {w : World}
    (hfresh : fresh p i = true) (htype : m.header.messageType = .edgeMigrateLogin)
    (hw : Uploads.step S.digest S.uuid p.world
      (.login i memory.prior memory.recvChunkBuf.dataBuffer) = some w) :
    Performs S p (.login i memory (some m) delivered) { p.setWorld w with
      files := (edgeUploadThread S.uuid S.cfg
        ⟨p.files,p.world.shared,memory.prior,memory.recvBuf,memory.recvChunkBuf⟩ m).files
      uploads := Function.update p.uploads i (some (uploadOf (edgeUploadThread S.uuid S.cfg
        ⟨p.files,p.world.shared,memory.prior,memory.recvBuf,memory.recvChunkBuf⟩ m)))
      thList := i::p.thList }
  | recipeLogin {i : ℕ} {memory : Memory} {m : Message} {delivered : Bool}
    (hfresh : fresh p i = true) (htype : m.header.messageType = .edgeDownloadRecipeLogin) :
    Performs S p (.login i memory (some m) delivered) { p with
      senders := Function.update p.senders i (some (edgeDownloadRecipeThread S.cfg
        ⟨p.files,memory.recvBuf,memory.sendRecipeBuf⟩ m))
      thList := i::p.thList }
  | chunkLogin {i : ℕ} {memory : Memory} {m : Message} {delivered : Bool} {t : Downloads.Server}
    (hfresh : fresh p i = true) (htype : m.header.messageType = .edgeDownloadChunkLogin)
    (ht : Downloads.step S.digest S.uuid p.server (.login i (initDownloadChunkBuffer memory.decoder
      m.header.clientID S.readCacheSize memory.pool)) = some t)
    (hworld : t.world = p.world) :
    Performs S p (.login i memory (some m) delivered) { p with server := t, thList := i::p.thList }
  | uploads {e : Event} {ue : Uploads.Event} {w : World} (he : uploadsEvent e = some ue)
    (hw : Uploads.step S.digest S.uuid p.world ue = some w) : Performs S p e (p.setWorld w)
  | chunkMessage {i : ℕ} {u : Upload} {m : Message} {w : World} (hu : p.uploads i = some u)
    (htype : m.header.messageType = .edgeMigrationChunk) (hfit : m.payload.length ≤ recvChunkBufSize)
    (hw : Uploads.step S.digest S.uuid p.world
      (.message i m.header.currentItemNum m.payload) = some w) :
    Performs S p (.uploadMessage i (some m)) { p.setWorld w with
      uploads := Function.update p.uploads i (some { u with header := m.header }) }
  | changeFails {i : ℕ} {s : Session} {u : Upload} {m : Message} (hu : p.uploads i = some u)
    (hbad : ¬ Benign S p (.uploadMessage i (some m))) :
    Performs S p (.uploadMessage i (some m)) (exit { p with files :=
      (closeRecipe .secureRecipe (closeRecipe .keyRecipe
        (closeRecipe .recipe (receiver p s u)))).files })
  | message {i : ℕ} {s : Session} {u : Upload} {m : Message} {r : Receiver}
    (hs : p.world.sessions i = some s) (hu : p.uploads i = some u) (hlive : s.live = true)
    (hidle : ¬ s.batch.index < s.batch.chunkNum)
    (hchunk : ¬ (m.header.messageType = .edgeMigrationChunk ∧ m.payload.length ≤ recvChunkBufSize))
    (hr : receive S.digest S.uuid S.cfg m (receiver p s u) = .ok r) :
    Performs S p (.uploadMessage i (some m)) { p.setWorld (p.world.put i
        { s with batch := { s.batch with dataBuffer := r.recvChunkBuf.dataBuffer } }) with
      files := r.files
      uploads := Function.update p.uploads i (some (uploadOf r)) }
  | uploadEnds {i : ℕ} {s : Session} {u : Upload} (hs : p.world.sessions i = some s)
    (hu : p.uploads i = some u) (hret : s.live = false ∧ s.writer.point = .returned) :
    Performs S p (.uploadEnds i) { p.joined i with
      files := (deleteClientVar (receiver p s u)).files
      uploads := Function.update p.uploads i none }
  | receives {i : ℕ} {m : Message} {t : Downloads.Server}
    (ht : Downloads.step S.digest S.uuid p.server (.receive i m) = some t)
    (hworld : t.world = p.world) :
    Performs S p (.downloadMessage i (some m)) { p with server := t }
  | downloads {i : ℕ} {t : Downloads.Server}
    (ht : Downloads.step S.digest S.uuid p.server (.download i) = some t)
    (hworld : t.world = p.world) (hexit : t.exited = none) :
    Performs S p (.download i) { p with server := t }
  | downloadEnds {i : ℕ} {d : Downloads.Download} (hd : p.server.downloads i = some d) :
    Performs S p (.downloadMessage i none) { p.joined i with
      server := { p.server with downloads := Function.update p.server.downloads i none } }
  | replies {e : Event} {i : ℕ} {t t' : Sender Unit} (he : RepliesTo i e)
    (ht : p.senders i = some t) :
    Performs S p e { p with senders := Function.update p.senders i (some t') }
  | recipeEnds {i : ℕ} {t : Sender Unit} (ht : p.senders i = some t) :
    Performs S p (.recipeEnds i) { p.joined i with
      senders := Function.update p.senders i none }
  | interrupt {order : Order} (hjoined : p.thList = [])
    (horder : order.toFinmap = p.world.shared.indexStore) :
    Performs S p (.interrupt order) { p with
      dbFile := some (saveDB order)
      statFile := (p.world.shared.uniqueChunkNum,p.world.shared.uniqueDataSize)
      status := .ended }

variable {S : Setting} {p q : Process} {e : Event}

theorem setSender_cases (p : Process) (i : ℕ) (t : Sender Unit) :
    (∃ f, t = .fail f ∧ setSender p i t = exit p) ∨
    (setSender p i t = { p with senders := Function.update p.senders i (some t) }) := by
  cases t with
  | ret a => exact Or.inr rfl
  | fail f => exact Or.inl ⟨f,rfl,rfl⟩
  | ask r k => exact Or.inr rfl

theorem edgeDownloadRecipeThread_ask (cfg : Configure) (env : RecipeSender.Environment) (m : Message)
    (f : RecipeSender.Fault) : edgeDownloadRecipeThread cfg env m ≠ .fail f := by
  have hsize : 16+headSize < 2^31 := by decide
  simp only [edgeDownloadRecipeThread,RecipeSender.sendData,if_pos hsize]
  split <;> exact nofun

/-- A download that ran into a failure, or into a container that is not there. -/
def Stuck (p : Process) (d : Downloads.Download) : Prop :=
  (∃ f, d.task = .fail f) ∨
    ∃ name k, d.task = .ask (.openContainer name) k ∧ p.world.disk name = none

/-- A step of a chunk download leaves the uploads alone; it ends the process at a
failure, or at a container that is not there. -/
theorem download_outcome {t : Downloads.Server} {de : Downloads.Event}
    (h : Downloads.step S.digest S.uuid p.server de = some t) (hde : ∀ e, de ≠ .upload e) :
    t.world = p.world ∧ (t.exited = none ∨
      ∃ j d, de = .download j ∧ p.server.downloads j = some d ∧ Stuck p d) := by
  rcases Downloads.step_cases h with ⟨e',rfl,_⟩ | ⟨j,d,rfl,hnone,_⟩ | ⟨j,d,f,rfl,hd,hf,rfl⟩ |
    ⟨j,d,name,k,rfl,hd,hk,hdisk,rfl⟩
  · exact absurd rfl (hde e')
  · exact ⟨rfl,Or.inl hnone⟩
  · exact ⟨rfl,Or.inr ⟨j,d,rfl,hd,Or.inl ⟨f,hf⟩⟩⟩
  · exact ⟨rfl,Or.inr ⟨j,d,rfl,hd,Or.inr ⟨name,k,hk,hdisk⟩⟩⟩

theorem afterDownload_none {t : Downloads.Server} (h : t.exited = none) :
    afterDownload p t = { p with server := t } := by
  simp [afterDownload,h]

theorem performs_login {i : ℕ} {memory : Memory} {m : Message} {delivered : Bool}
    (hfresh : fresh p i = true) (h : login S p i memory m delivered = some q) :
    Performs S p (.login i memory (some m) delivered) q := by
  unfold login at h
  by_cases hfit : m.payload.length ≤ fileNameLength+headSize
  · rw [if_pos hfit] at h
    split at h
    · rename_i htype
      split_ifs at h with hopen
      · obtain ⟨w,hw,rfl⟩ := Option.map_eq_some_iff.mp h
        exact .uploadLogin hfresh htype hw
      · obtain rfl := Option.some.inj h
        refine .exits fun hb => hopen ?_
        simpa [LoginAccepted,htype] using hb.2
    · rename_i htype
      obtain rfl := Option.some.inj h
      rcases setSender_cases { p with thList := i::p.thList } i (edgeDownloadRecipeThread S.cfg
        ⟨p.files,memory.recvBuf,memory.sendRecipeBuf⟩ m) with ⟨f,hf,_⟩ | heq
      · exact absurd hf (edgeDownloadRecipeThread_ask _ _ _ f)
      · rw [heq]
        exact .recipeLogin hfresh htype
    · rename_i htype
      split_ifs at h with hdelivered
      · obtain ⟨t,ht,rfl⟩ := Option.map_eq_some_iff.mp h
        obtain ⟨hworld,hnone | ⟨_,_,hno,_⟩⟩ := download_outcome ht (by simp)
        · rw [afterDownload_none hnone]
          exact .chunkLogin hfresh htype ht hworld
        · simp at hno
      · obtain rfl := Option.some.inj h
        refine .exits fun hb => hdelivered ?_
        simpa [LoginAccepted,htype] using hb.2
    · obtain rfl := Option.some.inj h
      refine .exits fun hb => ?_
      have hmatch := hb.2
      split at hmatch <;> simp_all
  · rw [if_neg hfit] at h
    obtain rfl := Option.some.inj h
    exact .exits fun hb => hfit hb.1

/-- The receive loop of an upload goes on after every accepted message. -/
theorem receive_accepted {r : Receiver} {m : Message} (h : UploadAccepted S r m) :
    ∃ r', receive S.digest S.uuid S.cfg m r = .ok r' := by
  rw [receive,if_pos h.1]
  have htype : (receiveData m r.recvChunkBuf).header.messageType = m.header.messageType := rfl
  have hmatch := h.2
  cases ht : m.header.messageType <;> simp only [ht] at hmatch htype <;>
    simp only [dispatch,htype] <;> exact ⟨_,rfl⟩

theorem performs_upload {i : ℕ} {s : Session} {u : Upload} {m : Message}
    (hs : p.world.sessions i = some s) (hu : p.uploads i = some u)
    (h : receiveUpload S p i s u m = some q) : Performs S p (.uploadMessage i (some m)) q := by
  unfold receiveUpload at h
  split_ifs at h with hidle hchunk hname
  · obtain ⟨w,hw,rfl⟩ := Option.map_eq_some_iff.mp h
    exact .chunkMessage hu hchunk.1 hchunk.2 hw
  · obtain rfl := Option.some.inj h
    refine .changeFails hu fun hb => ?_
    simp only [cannotChange,Bool.and_eq_true,decide_eq_true_eq,Bool.not_eq_true'] at hname
    have hmatch := (hb s u hs hu).2
    simp only [hname.1,hname.2,Bool.false_eq_true] at hmatch
  · cases hr : receive S.digest S.uuid S.cfg m (receiver p s u) with
    | error f =>
      simp only [hr,Option.some.injEq] at h
      subst h
      refine .exits fun hb => ?_
      obtain ⟨r',hr'⟩ := receive_accepted (hb s u hs hu)
      simp [hr] at hr'
    | ok r =>
      simp only [hr,Option.some.injEq] at h
      subst h
      exact .message hs hu hidle.1 hidle.2 hchunk hr

theorem performs_receiveDownload {i : ℕ} {d : Downloads.Download} {m : Option Message}
    (hd : p.server.downloads i = some d) (h : receiveDownload S p i d m = some q) :
    Performs S p (.downloadMessage i m) q := by
  cases m with
  | some m =>
    simp only [receiveDownload] at h
    split_ifs at h with hfit
    · obtain ⟨t,ht,rfl⟩ := Option.map_eq_some_iff.mp h
      obtain ⟨hworld,hnone | ⟨_,_,hno,_⟩⟩ := download_outcome ht (by simp)
      · rw [afterDownload_none hnone]
        exact .receives ht hworld
      · simp at hno
    · obtain rfl := Option.some.inj h
      exact .exits fun hb => hfit hb.1
  | none =>
    simp only [receiveDownload] at h
    split at h
    · split_ifs at h with hready
      · obtain rfl := Option.some.inj h
        exact .downloadEnds hd
      · obtain rfl := Option.some.inj h
        exact .exits fun hb => hready (hb d hd)
    · simp at h

theorem performs_download {i : ℕ} {t : Downloads.Server}
    (ht : Downloads.step S.digest S.uuid p.server (.download i) = some t) :
    Performs S p (.download i) (afterDownload p t) := by
  obtain ⟨hworld,hstop⟩ := download_outcome ht (by simp)
  cases hexit : t.exited with
  | none =>
    rw [afterDownload_none hexit]
    exact .downloads ht hworld hexit
  | some x =>
    have hafter : afterDownload p t = exit p := by simp [afterDownload,hexit]
    rw [hafter]
    refine .exits fun hb => ?_
    rcases hstop with hnone | ⟨j,d,hj,hd,hstuck⟩
    · simp [hexit] at hnone
    · obtain rfl : i = j := by simpa using hj
      obtain ⟨hfail,hopen⟩ := hb d hd
      rcases hstuck with ⟨f,hf⟩ | ⟨name,k,hk,hdisk⟩
      · exact hfail f hf
      · exact hopen name k hk hdisk

theorem performs_sender {i : ℕ} {t t' : Sender Unit} (he : RepliesTo i e)
    (ht : p.senders i = some t) (hbad : ∀ f, t' = .fail f → ¬ Benign S p e) :
    Performs S p e (setSender p i t') := by
  rcases setSender_cases p i t' with ⟨f,hf,heq⟩ | heq
  · rw [heq]
    exact .exits (hbad f hf)
  · rw [heq]
    exact .replies he ht

theorem performs_uploads {ue : Uploads.Event} (he : uploadsEvent e = some ue)
    (h : (Uploads.step S.digest S.uuid p.world ue).map p.setWorld = some q) : Performs S p e q := by
  obtain ⟨w,hw,rfl⟩ := Option.map_eq_some_iff.mp h
  exact .uploads he hw

theorem restart_eq_some : restart p = some q ↔ ∃ m, openDB p.dbFile = .ok m ∧ { p with
    server := ⟨⟨⟨m,p.statFile.1,p.statFile.2,p.world.shared.drawn⟩,p.world.disk,fun _ => none⟩,
      fun _ => none,none⟩
    uploads := fun _ => none
    senders := fun _ => none
    thList := []
    status := .running } = q := by
  unfold restart
  cases hopen : openDB p.dbFile with
  | ok m => simp
  | error f => simp

theorem step_restart (S : Setting) (hp : p.status = .ended) : step S p .restart = restart p := by
  unfold step
  rw [hp]

/-- The inversion of a step: what the event did to the running process, or the start of a
new one. -/
theorem step_cases (h : step S p e = some q) :
    (p.status = .running ∧ Performs S p e q) ∨
    (p.status = .ended ∧ e = .restart ∧ restart p = some q) := by
  unfold step at h
  cases hp : p.status with
  | ended =>
    rw [hp] at h
    cases e with
    | restart => exact Or.inr ⟨rfl,rfl,h⟩
    | _ => simp at h
  | running =>
    rw [hp] at h
    refine Or.inl ⟨rfl,?_⟩
    cases e with
    | handshakeFails =>
      obtain rfl := Option.some.inj h
      exact .exits id
    | login i memory m delivered =>
      simp only at h
      split_ifs at h with hfresh
      cases m with
      | none =>
        obtain rfl := Option.some.inj h
        exact .exits id
      | some m => exact performs_login hfresh h
    | uploadMessage i m =>
      cases m with
      | none => exact performs_uploads rfl h
      | some m =>
        obtain ⟨s,hs,hrest⟩ := Option.bind_eq_some_iff.mp h
        obtain ⟨u,hu,hreceive⟩ := Option.bind_eq_some_iff.mp hrest
        exact performs_upload hs hu hreceive
    | chunk i => exact performs_uploads rfl h
    | setDone i => exact performs_uploads rfl h
    | writer i k => exact performs_uploads rfl h
    | saveFails i =>
      obtain ⟨s,_,hfail⟩ := Option.bind_eq_some_iff.mp h
      split at hfail
      · obtain rfl := Option.some.inj hfail
        exact .exits id
      · simp at hfail
    | uploadEnds i =>
      obtain ⟨s,hs,hrest⟩ := Option.bind_eq_some_iff.mp h
      obtain ⟨u,hu,hend⟩ := Option.bind_eq_some_iff.mp hrest
      simp only [uploadEnds] at hend
      split_ifs at hend with hret
      obtain rfl := Option.some.inj hend
      exact .uploadEnds hs hu hret
    | downloadMessage i m =>
      obtain ⟨d,hd,hreceive⟩ := Option.bind_eq_some_iff.mp h
      exact performs_receiveDownload hd hreceive
    | download i =>
      obtain ⟨t,ht,rfl⟩ := Option.map_eq_some_iff.mp h
      exact performs_download ht
    | downloadSendFails i =>
      obtain ⟨d,_,hsend⟩ := Option.bind_eq_some_iff.mp h
      split at hsend
      · obtain rfl := Option.some.inj hsend
        exact .exits id
      · simp at hsend
    | recipeMessage i m =>
      obtain ⟨t,ht,hreply⟩ := Option.bind_eq_some_iff.mp h
      split at hreply
      · obtain rfl := Option.some.inj hreply
        exact performs_sender rfl ht fun f hf hb => (hb _ f).1 ht hf
      · obtain rfl := Option.some.inj hreply
        exact performs_sender rfl ht fun f hf hb => (hb _ f).2 ht hf
      · simp at hreply
    | recipeSent i success =>
      obtain ⟨t,ht,hreply⟩ := Option.bind_eq_some_iff.mp h
      split at hreply
      · obtain rfl := Option.some.inj hreply
        exact performs_sender rfl ht fun f hf hb => hb _ _ f ht hf
      · simp at hreply
    | recipeEnds i =>
      obtain ⟨t,ht,hreply⟩ := Option.bind_eq_some_iff.mp h
      split at hreply
      · obtain rfl := Option.some.inj hreply
        exact .recipeEnds ht
      · simp at hreply
    | interrupt order =>
      simp only [interrupt] at h
      split_ifs at h with hjoined
      obtain rfl := Option.some.inj h
      exact .interrupt hjoined.1 hjoined.2
    | restart => simp at h

theorem step_running (h : step S p e = some q) (he : e ≠ .restart) : p.status = .running := by
  rcases step_cases h with ⟨hp,_⟩ | ⟨_,hrestart,_⟩
  · exact hp
  · exact absurd hrestart he

inductive Moves (S : Setting) (w : World) : World → Prop
  | same : Moves S w w
  | step {e : Uploads.Event} {w' : World} (h : Uploads.step S.digest S.uuid w e = some w') :
    Moves S w w'
  | buffer {i : ℕ} {s : Session} (b : Mem UInt8) (hs : w.sessions i = some s) :
    Moves S w (w.put i { s with batch := { s.batch with dataBuffer := b } })

/-- The outcomes of a step: the process goes on, it ends without saving, the handler
saves the index, or a new process loads it. -/
inductive Outcome (S : Setting) (p : Process) (e : Event) (q : Process) : Prop
  | goes (hp : p.status = .running) (hq : q.status = .running) (hw : Moves S p.world q.world)
    (hdb : q.dbFile = p.dbFile)
  | exits (hp : p.status = .running) (hq : q.status = .ended) (hdb : q.dbFile = p.dbFile)
    (hbad : ¬ Benign S p e)
  | saves (order : Order) (hp : p.status = .running) (hq : q.status = .ended)
    (horder : order.toFinmap = p.world.shared.indexStore) (hdb : q.dbFile = some (saveDB order))
  | starts (m : Index) (hp : p.status = .ended) (hq : q.status = .running)
    (hm : openDB p.dbFile = .ok m) (hindex : q.world.shared.indexStore = m)
    (hsessions : q.world.sessions = fun _ => none) (hdb : q.dbFile = p.dbFile)

theorem moves_of_eq {w w' : World} (h : w' = w) : Moves S w w' := h ▸ .same

theorem step_outcome (h : step S p e = some q) : Outcome S p e q := by
  rcases step_cases h with ⟨hp,hperf⟩ | ⟨hp,rfl,hstart⟩
  · cases hperf with
    | exits hbad => exact .exits hp rfl rfl hbad
    | changeFails _ hbad => exact .exits hp rfl rfl hbad
    | uploadLogin _ _ hw => exact .goes hp hp (.step hw) rfl
    | uploads _ hw => exact .goes hp hp (.step hw) rfl
    | chunkMessage _ _ _ hw => exact .goes hp hp (.step hw) rfl
    | message hs => exact .goes hp hp (.buffer _ hs) rfl
    | chunkLogin _ _ _ hworld => exact .goes hp hp (moves_of_eq hworld) rfl
    | receives _ hworld => exact .goes hp hp (moves_of_eq hworld) rfl
    | downloads _ hworld => exact .goes hp hp (moves_of_eq hworld) rfl
    | recipeLogin => exact .goes hp hp .same rfl
    | uploadEnds => exact .goes hp hp .same rfl
    | downloadEnds => exact .goes hp hp .same rfl
    | replies => exact .goes hp hp .same rfl
    | recipeEnds => exact .goes hp hp .same rfl
    | interrupt _ horder => exact .saves _ hp rfl horder rfl
  · obtain ⟨m,hm,rfl⟩ := restart_eq_some.mp hstart
    exact .starts m hp rfl hm rfl rfl rfl

end Lifecycle
end CloudServer
