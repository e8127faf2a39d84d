import CloudServer.Structures
import Mathlib.Data.Finmap

/-! Packing chunks into containers (`StorageCore`, `Ocall_WriteContainer`) and the
reader of a container (`RecvDecoder::IndexConstruct`). -/
namespace CloudServer
namespace StorageCore

open ByteMemory

/-- The fields of `ClientVar` that saving a chunk changes. -/
structure ClientVar where
  curContainer : InmemoryContainer
  inputMQ : List Container

def entrySize : ℕ := chunkHashSize+8

/-- The container part of `InitUploadBuffer`: a new name and two of the three
counters; everything else keeps what the memory held before. -/
def initUploadBuffer (prior : InmemoryContainer) (uuid : Bytes) : InmemoryContainer :=
  { prior with containerID := uuid, currentBodySize := 0, currentHeaderSize := 0 }

/-- The 32-bit sum that decides whether the current container is flushed first. -/
def overflows (dataSize : ℕ) (c : InmemoryContainer) : Bool :=
  let writeSize := u32 (dataSize+chunkHashSize+4*2)
  decide (maxContainerSize ≤ u32 (writeSize+c.currentBodySize+c.currentHeaderSize+4))

/-- `Ocall_WriteContainer`: chunk count, then header, then body. -/
def ocallWriteContainer (c : InmemoryContainer) : Container where
  containerID := c.containerID
  body := beBytes c.chunkNum ++ read c.header 0 c.currentHeaderSize ++ read c.body 0 c.currentBodySize
  currentSize := u32 (4+c.currentHeaderSize+c.currentBodySize)

/-- The reset inside `WriteContainer` clears all three counters. -/
def resetContainer (uuid : Bytes) (c : InmemoryContainer) : InmemoryContainer :=
  { c with containerID := uuid, currentBodySize := 0, currentHeaderSize := 0, chunkNum := 0 }

def appendChunk (chunkHash data : Bytes) (c : InmemoryContainer) : InmemoryContainer :=
  let writeHeaderOffset := c.currentHeaderSize
  { c with
    body := write c.body c.currentBodySize data
    header := write (write (write c.header writeHeaderOffset (chunkHash.take chunkHashSize))
      (writeHeaderOffset+chunkHashSize) (beBytes c.currentBodySize))
      (writeHeaderOffset+chunkHashSize+4) (beBytes data.length)
    currentHeaderSize := u32 (c.currentHeaderSize+entrySize)
    currentBodySize := u32 (c.currentBodySize+data.length)
    chunkNum := u32 (c.chunkNum+1) }

/-- What `SaveChunk` leaves behind: the client, the number of identifiers drawn so
far by `CreateUUID`, and the container name it returns. -/
structure Saved where
  client : ClientVar
  drawn : ℕ
  containerName : Bytes

/-- `SaveChunk`, that is `WriteContainer` on the client's current container. The
`n`-th identifier that `CreateUUID` produces is `uuid n`. -/
def saveChunk (uuid : ℕ → Bytes) (drawn : ℕ) (cl : ClientVar) (chunkHash data : Bytes) : Saved :=
  if overflows data.length cl.curContainer then
    let c := appendChunk chunkHash data (resetContainer (uuid drawn) cl.curContainer)
    ⟨⟨c,cl.inputMQ ++ [ocallWriteContainer cl.curContainer]⟩,drawn+1,c.containerID⟩
  else
    let c := appendChunk chunkHash data cl.curContainer
    ⟨⟨c,cl.inputMQ⟩,drawn,c.containerID⟩

/-- The last container of a session, pushed when the connection has closed. -/
def lastContainer (cl : ClientVar) : ClientVar :=
  if cl.curContainer.currentHeaderSize ≠ 0 then
    { cl with inputMQ := cl.inputMQ ++ [ocallWriteContainer cl.curContainer] }
  else cl

def saveChunks (uuid : ℕ → Bytes) (drawn : ℕ) (cl : ClientVar) :
    List (Bytes × Bytes) → ClientVar × ℕ × List Bytes
  | [] => (cl,drawn,[])
  | p::ps =>
    let s := saveChunk uuid drawn cl p.1 p.2
    let r := saveChunks uuid s.drawn s.client ps
    (r.1,r.2.1,s.containerName::r.2.2)

/-- A signed 32-bit sum assigned to a `size_t`. -/
def intToSize (n : ℕ) : ℕ := if n < 2^31 then n else n+(2^64-2^32)

def chunkCount (m : Mem UInt8) : ℕ := intToSize (beWord m 0)

/-- The `j`-th table entry that `IndexConstruct` builds; its offset is rebased from
the body to the container. -/
def restoreEntry (m : Mem UInt8) (j : ℕ) : Bytes × RestoreIndexEntry :=
  let base := 4+j*entrySize
  (read m base chunkHashSize,
    { offset := u32 (beWord m (base+chunkHashSize)+chunkCount m*entrySize+4)
      length := beWord m (base+chunkHashSize+4) })

def restoreEntries (m : Mem UInt8) : List (Bytes × RestoreIndexEntry) :=
  (List.range (chunkCount m)).map (restoreEntry m)

def listChunks (m : Mem UInt8) : List (Bytes × Bytes) :=
  (restoreEntries m).map fun e => (e.1,read m e.2.offset e.2.length)

abbrev RestoreIndex := Finmap fun _ : Bytes => RestoreIndexEntry

/-- `IndexConstruct` over the first `idNum` containers; a later entry for the same
hash replaces an earlier one. -/
def indexConstruct (restoreIndex : RestoreIndex) (containerArray : ℕ → Mem UInt8) (idNum : ℕ) :
    RestoreIndex :=
  ((List.range idNum).flatMap fun i => restoreEntries (containerArray i)).foldl
    (fun t e => Finmap.insert e.1 e.2 t) restoreIndex

end StorageCore
end CloudServer
