import CloudServer.RecvDecoder
import CloudServer.PlainIndex
import CloudServer.OutputStream

/-! The upload side of a connection: the recipe files of `ClientVar` and the message
loop `DataReceiver::Run`. The three handlers of a client are indexed by the kind of
recipe they write. -/
namespace CloudServer
namespace DataReceiver

open ByteMemory OutputStream PlainIndex
open RecvDecoder (Message SendMsgBuffer)

structure Configure where
  recipeRootPath : Bytes
  sendRecipeBatchSize : ℕ

def ascii (cs : List Char) : Bytes := cs.map fun c => UInt8.ofNat c.toNat

inductive Kind
  | recipe | keyRecipe | secureRecipe
  deriving DecidableEq

def Kind.suffix : Kind → Bytes
  | .recipe => ascii ['-','r','e','c','i','p','e']
  | .keyRecipe => ascii ['-','k','e','y','R','e','c','i','p','e']
  | .secureRecipe => ascii ['-','s','e','c','u','r','e','R','e','c','i','p','e']

def Configure.path (cfg : Configure) (fileName : Bytes) (k : Kind) : Bytes :=
  cfg.recipeRootPath ++ fileName ++ k.suffix

def fileNameLength : ℕ := chunkHashSize*2

structure FileRecipeHead where
  fileSize : ℕ
  totalChunkNum : ℕ
  deriving DecidableEq

def headSize : ℕ := 16

def FileRecipeHead.bytes (h : FileRecipeHead) : Bytes :=
  leBytes64 h.fileSize ++ leBytes64 h.totalChunkNum

def FileRecipeHead.parse (b : Bytes) : FileRecipeHead :=
  ⟨leWord (b.take 8),leWord ((b.drop 8).take 8)⟩

def fileNameOf (dataBuffer : Mem UInt8) : Bytes := read dataBuffer 0 fileNameLength

def headOf (dataBuffer : Mem UInt8) (off : ℕ) : FileRecipeHead :=
  FileRecipeHead.parse (read dataBuffer off headSize)

/-- `CLOUD_QUERY_RETURN` belongs to the other enumeration of message codes, where it
has the value that `EDGE_MIGRATE_LOGIN` has here. -/
def cloudQueryReturn : MessageType := .edgeMigrateLogin

/-- An upload session: the recipe directory, the fields of its `ClientVar`, the index
behind `ProcessOneBatch`, and what was sent to the client. -/
structure Receiver where
  files : Files Bytes UInt8
  writeHandler : Kind → Sink Bytes UInt8
  recvChunkBuf : SendMsgBuffer
  uploadDataSize : ℕ
  shared : Shared
  client : StorageCore.ClientVar
  sent : List Message

def openRecipe (cfg : Configure) (fileName : Bytes) (head : FileRecipeHead) (k : Kind)
    (r : Receiver) : Receiver :=
  { r with
    files := openTrunc r.files (cfg.path fileName k)
    writeHandler := Function.update r.writeHandler k ((opened (cfg.path fileName k)).put head.bytes) }

def openRecipes (cfg : Configure) (fileName : Bytes) (head : FileRecipeHead) (r : Receiver) :
    Receiver :=
  openRecipe cfg fileName head .secureRecipe
    (openRecipe cfg fileName head .keyRecipe (openRecipe cfg fileName head .recipe r))

def closeRecipe (k : Kind) (r : Receiver) : Receiver :=
  if (r.writeHandler k).isOpen then
    { r with
      files := (r.writeHandler k).flush r.files
      writeHandler := Function.update r.writeHandler k closed }
  else r

def changeFile (cfg : Configure) (newFileName : Bytes) (head : FileRecipeHead) (r : Receiver) :
    Receiver :=
  openRecipes cfg newFileName head
    (closeRecipe .secureRecipe (closeRecipe .keyRecipe (closeRecipe .recipe r)))

/-- The third test of `DestoryUploadBuffer` looks at the secure recipe and closes the
key recipe once more. -/
def destoryUploadBuffer (r : Receiver) : Receiver :=
  let r := closeRecipe .keyRecipe (closeRecipe .recipe r)
  if (r.writeHandler .secureRecipe).isOpen then closeRecipe .keyRecipe r else r

/-- `delete curClient`: after the destructor, the streams that are members close what
is still open. -/
def deleteClientVar (r : Receiver) : Receiver :=
  closeRecipe .recipe (closeRecipe .keyRecipe (closeRecipe .secureRecipe (destoryUploadBuffer r)))

def writeRecipe (k : Kind) (n : ℕ) (r : Receiver) : Receiver :=
  { r with
    writeHandler := Function.update r.writeHandler k
      ((r.writeHandler k).put (read r.recvChunkBuf.dataBuffer 0 n)) }

/-- One byte for each hash of the message, 1 for a hash that the index does not know. -/
def statusList (r : Receiver) : Bytes :=
  (List.range r.recvChunkBuf.header.currentItemNum).map fun i =>
    if (r.shared.indexStore.lookup
      (read r.recvChunkBuf.dataBuffer (chunkHashSize*i) chunkHashSize)).isSome then 0 else 1

/-- `PlainIndex::ProcessRecipeBatch`: write the batch, then turn the buffer into the
answer. -/
def processRecipeBatch (r : Receiver) : Receiver :=
  { writeRecipe .secureRecipe r.recvChunkBuf.header.dataSize r with
    recvChunkBuf :=
      ⟨{ r.recvChunkBuf.header with
          messageType := cloudQueryReturn
          dataSize := r.recvChunkBuf.header.currentItemNum },
        write r.recvChunkBuf.dataBuffer 0 (statusList r)⟩ }

/-- `SendData` of the buffer; its result is not looked at here. -/
def sendBuffer (r : Receiver) : Receiver :=
  { r with
    sent := r.sent ++ [⟨r.recvChunkBuf.header,
      read r.recvChunkBuf.dataBuffer 0 r.recvChunkBuf.header.dataSize⟩] }

/-- The loop of `ProcessOneBatch`, at most `n` rounds of it. -/
def batchRounds (H : Digest) (uuid : ℕ → Bytes) :
    ℕ → Shared × StorageCore.ClientVar × Batch → Shared × StorageCore.ClientVar × Batch
  | 0, t => t
  | n+1, t =>
    match batchStep H uuid t.1 t.2.1 t.2.2 with
    | some t' => batchRounds H uuid n t'
    | none => t

def processOneBatch (H : Digest) (uuid : ℕ → Bytes) (r : Receiver) : Receiver :=
  let chunkNum := r.recvChunkBuf.header.currentItemNum
  let t := batchRounds H uuid chunkNum (r.shared,r.client,
    Batch.finish ⟨r.recvChunkBuf.dataBuffer,chunkNum,0,0,List.replicate containerIdLength 0⟩)
  { r with
    shared := t.1
    client := t.2.1
    recvChunkBuf := { r.recvChunkBuf with dataBuffer := t.2.2.dataBuffer } }

/-- A message type that ends the process, or a message longer than the buffer. -/
inductive Fault
  | wrongType
  | bufferOverrun
  deriving DecidableEq

/-- The switch of `Run` on a received message. -/
def dispatch (H : Digest) (uuid : ℕ → Bytes) (cfg : Configure) (r : Receiver) :
    Except Fault Receiver :=
  let header := r.recvChunkBuf.header
  let dataBuffer := r.recvChunkBuf.dataBuffer
  match header.messageType with
  | .edgeMigrationChunk => .ok (processOneBatch H uuid r)
  | .edgeMigrationChunkFinal => .ok r
  | .edgeUploadSecRecipe => .ok (sendBuffer (processRecipeBatch r))
  | .edgeUploadSecRecipeEnd => .ok r
  | .edgeMigrationNewfile =>
    .ok (changeFile cfg (fileNameOf dataBuffer) (headOf dataBuffer fileNameLength) r)
  | .edgeUploadRecipe => .ok (writeRecipe .recipe (u32 (header.currentItemNum*chunkHashSize)) r)
  | .edgeUploadKeyRecipe =>
    .ok (writeRecipe .keyRecipe (u32 (header.currentItemNum*chunkHashSize)) r)
  | .edgeUploadRecipeEnd => .ok { r with uploadDataSize := (headOf dataBuffer 0).fileSize }
  | _ => .error .wrongType

/-- The bytes behind the header in `_recvChunkBuf`. -/
def recvChunkBufSize : ℕ := sendChunkBatchSize*(4+maxChunkSize)

def receiveData (m : Message) (buf : SendMsgBuffer) : SendMsgBuffer :=
  ⟨m.header,write buf.dataBuffer 0 m.payload⟩

/-- One round of the loop of `Run`. -/
def receive (H : Digest) (uuid : ℕ → Bytes) (cfg : Configure) (m : Message) (r : Receiver) :
    Except Fault Receiver :=
  if m.payload.length ≤ recvChunkBufSize then
    dispatch H uuid cfg { r with recvChunkBuf := receiveData m r.recvChunkBuf }
  else .error .bufferOverrun

def receiveAll (H : Digest) (uuid : ℕ → Bytes) (cfg : Configure) :
    List Message → Receiver → Except Fault Receiver
  | [], r => .ok r
  | m::ms, r => do
    let r ← receive H uuid cfg m r
    receiveAll H uuid cfg ms r

/-- What an upload login finds: the recipe directory, the index, and memory whose
content nothing promises. -/
structure Environment where
  files : Files Bytes UInt8
  shared : Shared
  prior : InmemoryContainer
  recvBuf : SendMsgBuffer
  recvChunkBuf : SendMsgBuffer

/-- `EdgeUploadThread` up to the start of the loop: the `ClientVar` is built, its three
files are opened, and the login is answered. -/
def edgeUploadThread (uuid : ℕ → Bytes) (cfg : Configure) (env : Environment) (login : Message) :
    Receiver :=
  let recvBuf := receiveData login env.recvBuf
  openRecipes cfg (fileNameOf recvBuf.dataBuffer) (headOf recvBuf.dataBuffer fileNameLength)
    { files := env.files
      writeHandler := fun _ => closed
      recvChunkBuf := { env.recvChunkBuf with
        header := { env.recvChunkBuf.header with
          clientID := login.header.clientID, currentItemNum := 0, dataSize := 0 } }
      uploadDataSize := 0
      shared := { env.shared with drawn := env.shared.drawn+1 }
      client := ⟨StorageCore.initUploadBuffer env.prior (uuid env.shared.drawn),[]⟩
      sent := [⟨{ login.header with messageType := .edgeLoginResponse },[]⟩] }

/-- The end of the connection: the last container is queued and the `ClientVar` deleted. -/
def closeSession (r : Receiver) : Receiver :=
  deleteClientVar { r with client := StorageCore.lastContainer r.client }

def uploadSession (H : Digest) (uuid : ℕ → Bytes) (cfg : Configure) (env : Environment)
    (login : Message) (ms : List Message) : Except Fault Receiver :=
  (receiveAll H uuid cfg ms (edgeUploadThread uuid cfg env login)).map closeSession

end DataReceiver
end CloudServer
