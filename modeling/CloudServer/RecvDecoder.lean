import CloudServer.StorageCore
import CloudServer.ReadCache
import CloudServer.Interaction

/-! The chunk download (`RecvDecoder`). Its only contacts with the outside are the
lookups in the index, the container files it opens and the messages it sends, so it
is a program that asks for these; what it asks can be answered from a fixed store or
from a server in which uploads go on meanwhile. -/
namespace CloudServer
namespace RecvDecoder

open ByteMemory StorageCore Interaction Interaction.Prog

structure Message where
  header : NetworkHead
  payload : Bytes
  deriving DecidableEq

inductive Request
  | readIndexStore (key : Bytes)
  | openContainer (containerNameStr : Bytes)
  | sendData (m : Message)

/-- The index answers with the container's name, a file with its content. -/
def Reply : Request → Type
  | .readIndexStore _ => Option Bytes
  | .openContainer _ => Bytes
  | .sendData _ => Unit

/-- The ways in which a download ends the process, or runs into undefined behaviour. -/
inductive Fault
  | cannotOpen (containerNameStr : Bytes)
  | wrongType
  | idBufferOverrun
  | endDereference
  | keyNotFound
  deriving DecidableEq

abbrev Decoder := Prog Reply Fault

def readIndexStore (key : Bytes) : Decoder (Option Bytes) := request (R := Reply) (.readIndexStore key)
def openContainer (name : Bytes) : Decoder Bytes := request (R := Reply) (.openContainer name)
def sendData (m : Message) : Decoder Unit := request (R := Reply) (.sendData m)

structure DownloadChunkEntry where
  chunkHash : Bytes
  containerName : Bytes
  chunkOffset : ℕ
  chunkSize : ℕ
  containerID : ℕ

structure SendMsgBuffer where
  header : NetworkHead
  dataBuffer : Mem UInt8

/-- The fields of a `ClientVar` built for `DOWNLOAD_CHUNK_OPT`. The 8-byte slots of
`idBuffer` are cells, since every name has `CONTAINER_ID_LENGTH` bytes. -/
structure ClientVar where
  sendChunkBuf : SendMsgBuffer
  idBuffer : Mem Bytes
  containerArray : Mem (Mem UInt8)
  idNum : ℕ
  containerCache : ReadCache
  downloadChunkBase : Mem DownloadChunkEntry

/-- One round of the first loop: look the hash up and note the container's name. A
lookup that finds nothing leaves the name of the previous round. -/
def lookupEntry (i : ℕ) (s : ClientVar × Bytes) : Decoder (ClientVar × Bytes) := do
  let chunkHash := read s.1.sendChunkBuf.dataBuffer (u32 (chunkHashSize*i)) chunkHashSize
  let result ← readIndexStore chunkHash
  let tmpContainerNameStr := result.getD s.2
  let entry := { s.1.downloadChunkBase i with
    chunkHash := chunkHash, containerName := tmpContainerNameStr }
  pure ({ s.1 with downloadChunkBase := Function.update s.1.downloadChunkBase i entry },
    tmpContainerNameStr)

/-- The state of the second loop: the client, the containers of the current group,
and the first entry that has not been restored. -/
structure Pass where
  client : ClientVar
  tmpContainerMap : Finmap fun _ : Bytes => ℕ
  startEntry : ℕ

def assignContainer (i : ℕ) (p : Pass) : Decoder Pass :=
  let c := p.client
  let e := c.downloadChunkBase i
  match p.tmpContainerMap.lookup e.containerName with
  | some containerID =>
    pure { p with client.downloadChunkBase :=
      Function.update c.downloadChunkBase i { e with containerID := containerID } }
  | none =>
    if c.idNum < containerCappingValue then
      pure { p with
        client := { c with
          downloadChunkBase := Function.update c.downloadChunkBase i { e with containerID := c.idNum }
          idBuffer := Function.update c.idBuffer c.idNum e.containerName
          idNum := c.idNum+1 }
        tmpContainerMap := p.tmpContainerMap.insert e.containerName c.idNum }
    else fail .idBufferOverrun

def getReqContainer (i : ℕ) (c : ClientVar) : Decoder ClientVar :=
  let containerNameStr := c.idBuffer i
  if c.containerCache.existsInCache containerNameStr then
    match c.containerCache.readFromCache containerNameStr with
    | some r => pure { c with
        containerArray := Function.update c.containerArray i
          (copyPrefix (c.containerArray i) r.1 maxContainerSize)
        containerCache := r.2 }
    | none => fail .keyNotFound
  else do
    let content ← openContainer containerNameStr
    let data := write (c.containerArray i) 0 content
    pure { c with
      containerArray := Function.update c.containerArray i data
      containerCache := c.containerCache.insertToCache containerNameStr data content.length }

def getReqContainers (c : ClientVar) : Decoder ClientVar := forRange getReqContainer c.idNum c

def recoverOneChunk (entry : DownloadChunkEntry) (chunkBuffer : Mem UInt8) (buf : SendMsgBuffer) :
    SendMsgBuffer where
  dataBuffer := write (write buf.dataBuffer buf.header.dataSize (leBytes entry.chunkSize))
    (buf.header.dataSize+4) (read chunkBuffer entry.chunkOffset entry.chunkSize)
  header := { buf.header with
    dataSize := u32 (buf.header.dataSize+(4+entry.chunkSize))
    currentItemNum := u32 (buf.header.currentItemNum+1) }

def sendBatchChunks (buf : SendMsgBuffer) : Decoder Unit :=
  sendData ⟨buf.header,read buf.dataBuffer 0 buf.header.dataSize⟩

def flushChunks (c : ClientVar) : Decoder ClientVar := do
  let buf := { c.sendChunkBuf with header.messageType := .cloudSendChunk }
  sendBatchChunks buf
  pure { c with sendChunkBuf := { buf with header.dataSize := 0, header.currentItemNum := 0 } }

def recoverEntry (restoreIndex : RestoreIndex) (k : ℕ) (c : ClientVar) : Decoder ClientVar :=
  let e := c.downloadChunkBase k
  match restoreIndex.lookup e.chunkHash with
  | none => fail .endDereference
  | some r =>
    let entry := { e with chunkOffset := r.offset, chunkSize := r.length }
    let c := { c with
      downloadChunkBase := Function.update c.downloadChunkBase k entry
      sendChunkBuf := recoverOneChunk entry (c.containerArray entry.containerID) c.sendChunkBuf }
    if c.sendChunkBuf.header.currentItemNum % sendChunkBatchSize = 0 then flushChunks c else pure c

/-- After the last entry, the chunks left in the buffer are sent. -/
def sendLastBatch (recipeNum i : ℕ) (c : ClientVar) : Decoder ClientVar :=
  if i+1 = recipeNum ∧ c.sendChunkBuf.header.currentItemNum % sendChunkBatchSize ≠ 0 then
    flushChunks c
  else pure c

/-- The end of a group: fetch its containers, rebuild the table, restore its entries. -/
def processGroup (recipeNum i : ℕ) (p : Pass) : Decoder Pass := do
  let c ← getReqContainers p.client
  let restoreIndex := indexConstruct ∅ c.containerArray c.idNum
  let c ← forRange (fun k => recoverEntry restoreIndex (p.startEntry+k)) (i+1-p.startEntry) c
  let c ← sendLastBatch recipeNum i c
  pure ⟨{ c with idNum := 0 },∅,i+1⟩

def processEntry (recipeNum i : ℕ) (p : Pass) : Decoder Pass := do
  let p ← assignContainer i p
  if p.client.idNum = containerCappingValue ∨ i+1 = recipeNum then processGroup recipeNum i p
  else pure p

/-- A round starts a group at its own entry at the latest, whatever the answers are, so
the source's loop `startEntry != endEntry` has `i+1-startEntry` rounds. -/
theorem asks_startEntry (recipeNum i : ℕ) {p : Pass} (hp : p.startEntry ≤ i) :
    Asks (fun _ => True) (fun p' => p'.startEntry = p.startEntry) (assignContainer i p) ∧
      Asks (fun _ => True) (fun p' => p'.startEntry ≤ i+1) (processEntry recipeNum i p) := by
  have hassign : Asks (fun _ => True) (fun p' => p'.startEntry = p.startEntry)
      (assignContainer i p) := by
    unfold assignContainer
    dsimp only
    split
    · exact asks_pure rfl
    · split_ifs
      · exact asks_pure rfl
      · trivial
  refine ⟨hassign,asks_bind hassign fun p' hp' => ?_⟩
  split_ifs
  · exact asks_bind (asks_any _) fun _ _ => asks_bind (asks_any _) fun _ _ =>
      asks_bind (asks_any _) fun _ _ => asks_pure le_rfl
  · exact asks_pure (hp' ▸ Nat.le_succ_of_le hp)

theorem asks_startEntry_rounds (recipeNum n : ℕ) (c : ClientVar) :
    Asks (fun _ => True) (fun p => p.startEntry ≤ n)
      (forRange (processEntry recipeNum) n ⟨c,∅,0⟩) := by
  induction n with
  | zero => exact asks_pure (le_refl 0)
  | succ n ih => exact asks_bind ih fun p hp => (asks_startEntry recipeNum n hp).2

def processRecipeTailBatch (c : ClientVar) : Decoder ClientVar := do
  let buf := { c.sendChunkBuf with header.messageType := .cloudSendChunkEnd }
  sendBatchChunks buf
  pure { c with sendChunkBuf := buf }

def processRecipeBatch (recipeNum : ℕ) (c : ClientVar) : Decoder ClientVar := do
  let s ← forRange lookupEntry recipeNum (c,List.replicate containerIdLength 0)
  let p ← forRange (processEntry recipeNum) recipeNum ⟨s.1,∅,0⟩
  processRecipeTailBatch p.client

def receiveReady (m : Message) (c : ClientVar) : Decoder ClientVar :=
  if m.header.messageType = .edgeReceiveReady then
    pure { c with sendChunkBuf := ⟨m.header,write c.sendChunkBuf.dataBuffer 0 m.payload⟩ }
  else fail .wrongType

/-- One message of the loop of `Run`. It is received into the send buffer, and its
header is the one that the replies go out with. -/
def receiveRequest (m : Message) (c : ClientVar) : Decoder ClientVar :=
  if m.header.messageType = .edgeDownloadChunkReady then
    processRecipeBatch m.header.currentItemNum
      { c with sendChunkBuf :=
        ⟨{ m.header with currentItemNum := 0, dataSize := 0 },
          write c.sendChunkBuf.dataBuffer 0 m.payload⟩ }
  else fail .wrongType

def receiveRequests : List Message → ClientVar → Decoder ClientVar
  | [], c => pure c
  | m::ms, c => do
    let c ← receiveRequest m c
    receiveRequests ms c

def run (ready : Message) (requests : List Message) (c : ClientVar) : Decoder ClientVar := do
  let c ← receiveReady ready c
  receiveRequests requests c

/-- `InitDownloadChunkBuffer`: everything else is as the allocated memory was. -/
def initDownloadChunkBuffer (prior : ClientVar) (clientID readCacheSize : ℕ)
    (pool : Mem (Mem UInt8)) : ClientVar :=
  { prior with
    idNum := 0
    sendChunkBuf := { prior.sendChunkBuf with
      header := { prior.sendChunkBuf.header with
        clientID := clientID, currentItemNum := 0, dataSize := 0 } }
    containerCache := ReadCache.new readCacheSize pool }

end RecvDecoder
end CloudServer
