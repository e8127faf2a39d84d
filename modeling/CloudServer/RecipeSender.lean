import CloudServer.DataReceiver
import CloudServer.InputStream
import CloudServer.Interaction

/-! The download of recipes (`EdgeDownloadRecipeThread`, `RecipeSender::Run`) as a
program that sends messages and waits for replies. The three loops over the recipe
files are one loop with the file and the message type as parameters. -/
namespace CloudServer
namespace RecipeSender

open ByteMemory InputStream Interaction Interaction.Prog DataReceiver
open RecvDecoder (Message SendMsgBuffer)

/-- A receive waits for the client to be ready, or after the end of the recipes for
whatever comes last. -/
inductive Request
  | receiveReady
  | receiveLast
  | sendData (m : Message)

/-- A receive delivers a message or nothing; a send reports whether it succeeded. -/
def Reply : Request → Type
  | .receiveReady => Option Message
  | .receiveLast => Option Message
  | .sendData _ => Bool

inductive Fault
  | recvReady
  | wrongType
  | sendError
  | lengthOverflow
  | bufferOverrun
  | deleteUninitialised
  | fuel
  deriving DecidableEq

abbrev Sender := Prog Reply Fault

def awaitReady : Sender (Option Message) := request (R := Reply) .receiveReady
def awaitLast : Sender (Option Message) := request (R := Reply) .receiveLast
def deliver (m : Message) : Sender Bool := request (R := Reply) (.sendData m)

/-- `sizeof(RecipeEntry_t) * sendRecipeBatchSize_`, the size of a full batch and of the
buffer behind the header. -/
def readSize (batch : ℕ) : ℕ := (chunkHashSize*batch) % 2^64

/-- `SendData` of the header and `size` further bytes. The transport passes lengths as
`int`. -/
def sendData (buf : SendMsgBuffer) (size : ℕ) : Sender Unit :=
  if 16+size < 2^31 then do
    let success ← deliver ⟨buf.header,read buf.dataBuffer 0 size⟩
    if success then pure () else fail .sendError
  else fail .lengthOverflow

/-- A message received into the send buffer, header included. -/
def intoBuffer (bufferSize : ℕ) (m : Message) (buf : SendMsgBuffer) : Sender SendMsgBuffer :=
  if m.payload.length ≤ bufferSize then pure (receiveData m buf) else fail .bufferOverrun

def receiveReady (bufferSize : ℕ) (buf : SendMsgBuffer) : Sender SendMsgBuffer := do
  match ← awaitReady with
  | none => fail .recvReady
  | some m =>
    if m.header.messageType = .edgeReceiveReady then intoBuffer bufferSize m buf
    else fail .wrongType

def fillBuffer (messageType : MessageType) (got : Bytes) (buf : SendMsgBuffer) : SendMsgBuffer :=
  ⟨{ buf.header with
      currentItemNum := u32 (got.length/chunkHashSize)
      dataSize := u32 got.length
      messageType := messageType },write buf.dataBuffer 0 got⟩

/-- The loop over one recipe file. A read that delivers nothing ends it, and so does
the end of the file after the batch has been sent. -/
def sendRecipe (bufferSize : ℕ) (messageType : MessageType) :
    ℕ → InputStream.Stream UInt8 → SendMsgBuffer → Sender SendMsgBuffer
  | 0, _, _ => fail .fuel
  | fuel+1, file, buf =>
    let r := get file bufferSize
    if r.1.length = 0 then pure buf
    else do
      let buf := fillBuffer messageType r.1 buf
      sendData buf buf.header.dataSize
      let buf ← receiveReady bufferSize buf
      if r.2.eof then pure buf else sendRecipe bufferSize messageType fuel r.2 buf

/-- Every round that goes on takes at least one byte from the file. -/
def sendFile (bufferSize : ℕ) (messageType : MessageType) (file : InputStream.Stream UInt8)
    (buf : SendMsgBuffer) : Sender SendMsgBuffer :=
  sendRecipe bufferSize messageType (file.rest.length+1) file buf

def endBuffer (buf : SendMsgBuffer) : SendMsgBuffer :=
  { buf with
    header := { buf.header with
      currentItemNum := 0, dataSize := 0, messageType := .cloudSendRecipeEnd } }

/-- `RecipeSender::Run`. The header of the file recipe was consumed by the login; the
other two files still have theirs. -/
def run (batch : ℕ) (recipe secureRecipe keyRecipe : InputStream.Stream UInt8)
    (buf : SendMsgBuffer) : Sender Unit := do
  let buf ← receiveReady (readSize batch) buf
  let buf ← sendFile (readSize batch) .cloudSendRecipe recipe buf
  let buf ← sendFile (readSize batch) .cloudSendSecureRecipe (get secureRecipe headSize).2 buf
  let buf ← sendFile (readSize batch) .cloudSendKeyRecipe (get keyRecipe headSize).2 buf
  sendData (endBuffer buf) 0
  match ← awaitLast with
  | none => pure ()
  | some m => do
    let _ ← intoBuffer (readSize batch) m buf
    pure ()

structure Environment where
  files : OutputStream.Files Bytes UInt8
  recvBuf : SendMsgBuffer
  sendRecipeBuf : SendMsgBuffer

def initDownloadRecipeBuffer (prior : SendMsgBuffer) (clientID : ℕ) : SendMsgBuffer :=
  { prior with
    header := { prior.header with clientID := clientID, currentItemNum := 0, dataSize := 0 } }

def loginResponse (recvBuf : SendMsgBuffer) (head : Bytes) : SendMsgBuffer :=
  ⟨{ recvBuf.header with messageType := .edgeLoginResponse },write recvBuf.dataBuffer 0 head⟩

/-- `EdgeDownloadRecipeThread`. The sending thread waits for a client that has read the
login response, so the two are one sequence. Without the files there is no `ClientVar`,
and the clean-up deletes an uninitialised pointer. -/
def edgeDownloadRecipeThread (cfg : Configure) (env : Environment) (login : Message) :
    Sender Unit :=
  let recvBuf := receiveData login env.recvBuf
  let fileName := fileNameOf recvBuf.dataBuffer
  match env.files (cfg.path fileName .recipe),env.files (cfg.path fileName .secureRecipe),
    env.files (cfg.path fileName .keyRecipe) with
  | some recipe, some secureRecipe, some keyRecipe => do
    let r := get (opened recipe) headSize
    sendData (loginResponse recvBuf r.1) headSize
    run cfg.sendRecipeBatchSize r.2 (opened secureRecipe) (opened keyRecipe)
      (initDownloadRecipeBuffer env.sendRecipeBuf login.header.clientID)
  | _, _, _ => do
    sendData { recvBuf with header := { recvBuf.header with messageType := .cloudFileNonExist } }
      headSize
    fail .deleteUninitialised

end RecipeSender
end CloudServer
