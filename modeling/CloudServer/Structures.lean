import CloudServer.ByteMemory

/-! Constants and records shared by the server: sizes, message codes, containers
and the header of a network message. -/
namespace CloudServer

open ByteMemory

def chunkHashSize : ℕ := 32
def maxChunkSize : ℕ := 16384
def maxContainerSize : ℕ := 2^22
def containerIdLength : ℕ := 8
def containerCappingValue : ℕ := 16

def sendChunkBatchSize : ℕ := 256

/-- `EDGE_PROTCOL_CODE_SET`, with every other integer as `unknown`. -/
inductive MessageType
  | edgeLoginResponse | cloudFileNonExist
  | edgeMigrateLogin | edgeUploadSecRecipe | edgeUploadSecRecipeEnd
  | edgeUploadRecipe | edgeUploadRecipeEnd | edgeUploadKeyRecipe | edgeUploadKeyRecipeEnd
  | edgeMigrationChunk | edgeMigrationChunkFinal | edgeMigrationNewfile
  | edgeDownloadRecipeLogin | edgeDownloadRecipeReady | cloudSendRecipe
  | cloudSendSecureRecipe | cloudSendKeyRecipe | edgeReceiveReady | cloudSendRecipeEnd
  | edgeDownloadChunkLogin | edgeDownloadChunkReady | cloudSendChunk | cloudSendChunkEnd
  | unknown (code : ℕ)
  deriving DecidableEq

structure NetworkHead where
  messageType : MessageType
  clientID : ℕ
  dataSize : ℕ
  currentItemNum : ℕ
  deriving DecidableEq

/-- `InmemoryContainer_t`: header and body are separate arrays until the flush. -/
structure InmemoryContainer where
  containerID : Bytes
  chunkNum : ℕ
  body : Mem UInt8
  currentBodySize : ℕ
  header : Mem UInt8
  currentHeaderSize : ℕ

/-- `Container_t`: the bytes of `body` that were copied into it. -/
structure Container where
  containerID : Bytes
  body : Bytes
  currentSize : ℕ
  deriving DecidableEq

def Container.written (c : Container) : Bytes := c.body.take c.currentSize

structure RestoreIndexEntry where
  offset : ℕ
  length : ℕ
  deriving DecidableEq

end CloudServer
