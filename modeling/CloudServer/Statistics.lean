import CloudServer.InputStream

/-! The counters of `AbsIndex`, and the file in which they survive a shutdown. -/
namespace CloudServer
namespace Statistics

open ByteMemory InputStream

/-- The public counters of `AbsIndex`. -/
structure Counters where
  logicalDataSize : ℕ
  logicalChunkNum : ℕ
  uniqueDataSize : ℕ
  uniqueChunkNum : ℕ
  compressedDataSize : ℕ
  deriving DecidableEq

structure Counters.Fit (c : Counters) : Prop where
  logicalDataSize : c.logicalDataSize < 2^64
  logicalChunkNum : c.logicalChunkNum < 2^64
  uniqueDataSize : c.uniqueDataSize < 2^64
  uniqueChunkNum : c.uniqueChunkNum < 2^64
  compressedDataSize : c.compressedDataSize < 2^64

def saveStat (c : Counters) : Bytes :=
  leBytes64 c.logicalDataSize ++ (leBytes64 c.logicalChunkNum ++ (leBytes64 c.uniqueDataSize ++
    (leBytes64 c.uniqueChunkNum ++ leBytes64 c.compressedDataSize)))

/-- One `read` into a counter that is zero so far. -/
def readCounter (previousStatFile : Stream UInt8) : ℕ × Stream UInt8 :=
  let r := get previousStatFile 8
  (leWord (overwrite (leBytes64 0) r.1),r.2)

/-- The constructor of `AbsIndex`; without a file the counters stay at zero. -/
def loadStat : Option Bytes → Counters
  | none => ⟨0,0,0,0,0⟩
  | some file =>
    let logicalDataSize := readCounter (opened file)
    let logicalChunkNum := readCounter logicalDataSize.2
    let uniqueDataSize := readCounter logicalChunkNum.2
    let uniqueChunkNum := readCounter uniqueDataSize.2
    let compressedDataSize := readCounter uniqueChunkNum.2
    ⟨logicalDataSize.1,logicalChunkNum.1,uniqueDataSize.1,uniqueChunkNum.1,compressedDataSize.1⟩

theorem leBytes64_length (n : ℕ) : (leBytes64 n).length = 8 := rfl

theorem readCounter_append {n : ℕ} (hn : n < 2^64) (rest : Bytes) :
    readCounter (opened (leBytes64 n ++ rest)) = (n,opened rest) := by
  have hget := get_append_of_length (b := rest) (leBytes64_length n)
  simp only [readCounter,hget]
  rw [overwrite_of_length (by rw [leBytes64_length,leBytes64_length]),leWord_leBytes64 hn]

theorem loadStat_saveStat {c : Counters} (hc : c.Fit) : loadStat (some (saveStat c)) = c := by
  have hlast := readCounter_append hc.compressedDataSize []
  rw [List.append_nil] at hlast
  simp only [loadStat,saveStat,readCounter_append hc.logicalDataSize,
    readCounter_append hc.logicalChunkNum,readCounter_append hc.uniqueDataSize,
    readCounter_append hc.uniqueChunkNum,hlast]

end Statistics
end CloudServer
