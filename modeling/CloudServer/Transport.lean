import CloudServer.ByteMemory

/-! `SSLConnection::SendData` and `SSLConnection::ReceiveData`, one library call at a
time. A state is the `SSL_write` or `SSL_read` the function makes next; a step takes
what that call returns. The counters are `int`, the sizes are `uint32_t`, and the
conversions between them are those of the source. -/
namespace CloudServer
namespace Transport

open ByteMemory

def int32 (z : ℤ) : ℤ := (z+2^31)%2^32 - 2^31

def uint32 (z : ℤ) : ℕ := (z%2^32).toNat

theorem int32_of_lt {z : ℤ} (h0 : -2^31 ≤ z) (h : z < 2^31) : int32 z = z := by
  unfold int32
  omega

theorem int32_natCast_of_lt {n : ℕ} (h : n < 2^31) : int32 n = n :=
  int32_of_lt (by omega) (by omega)

theorem int32_lt (z : ℤ) : int32 z < 2^31 := by
  unfold int32
  omega

theorem uint32_natCast_of_lt {n : ℕ} (h : n < 2^32) : uint32 n = n := by
  unfold uint32
  omega

structure Payload where
  data : Mem UInt8
  dataSize : ℕ
  dataSize_lt : dataSize < 2^32

def Payload.bytes (p : Payload) : Bytes := read p.data 0 p.dataSize

@[simp] theorem Payload.bytes_length (p : Payload) : p.bytes.length = p.dataSize :=
  read_length _ _ _

inductive SendState
  | writeSize
  | writeData (sendedSize : ℤ)
  | returned (success : Bool)
  deriving DecidableEq

namespace SendState

/-- `sendedSize` is an `int` and `dataSize` is not: the comparison is unsigned. -/
def loop (dataSize : ℕ) (sendedSize : ℤ) : SendState :=
  if uint32 sendedSize < dataSize then .writeData sendedSize else .returned true

/-- The buffer of the next `SSL_write`. A count that is negative as an `int` is an
empty buffer: the library accepts nothing of it. -/
def buffer (p : Payload) : SendState → Option Bytes
  | .writeSize => some (leBytes p.dataSize)
  | .writeData sendedSize =>
      some (read p.data sendedSize.toNat (int32 (p.dataSize-sendedSize)).toNat)
  | .returned _ => none

def next (dataSize : ℕ) : SendState → ℤ → SendState
  | .writeSize, writeStatus => if writeStatus ≤ 0 then .returned false else loop dataSize 0
  | .writeData sendedSize, w => loop dataSize (int32 (sendedSize+w))
  | .returned b, _ => .returned b

theorem loop_natCast {p : Payload} {n : ℕ} (hn : n ≤ p.dataSize) :
    loop p.dataSize n = if n = p.dataSize then .returned true else .writeData n := by
  have hlt := p.dataSize_lt
  rw [loop,uint32_natCast_of_lt (by omega)]
  grind

theorem buffer_writeData {p : Payload} {n : ℕ} (hp : p.dataSize < 2^31) (hn : n ≤ p.dataSize) :
    buffer p (.writeData n) = some (read p.data n (p.dataSize-n)) := by
  rw [buffer,← Int.ofNat_sub hn,int32_natCast_of_lt (by omega),Int.toNat_natCast,
    Int.toNat_natCast]

theorem next_writeData {p : Payload} {n w : ℕ} (hp : p.dataSize < 2^31) (hn : n+w ≤ p.dataSize) :
    next p.dataSize (.writeData n) w = loop p.dataSize (n+w : ℕ) := by
  rw [next,← Nat.cast_add,int32_natCast_of_lt (by omega)]

end SendState

inductive RecvState
  | readSize
  | readData (len receivedSize : ℤ)
  | failed
  | done (receiveDataSize : ℕ)
  deriving DecidableEq

namespace RecvState

/-- Both sides of this comparison are `int`; `receiveDataSize` is set when it fails. -/
def loop (len receivedSize : ℤ) : RecvState :=
  if receivedSize < len then .readData len receivedSize else .done (uint32 len)

def wanted : RecvState → Option ℕ
  | .readSize => some 4
  | .readData len receivedSize => some (int32 (len-receivedSize)).toNat
  | .failed => none
  | .done _ => none

/-- `len` starts as zero, and the first read fills in its low bytes, as many of them as
the library has returned. -/
def next : RecvState → ℤ → Bytes → RecvState
  | .readSize, readStatus, d => if readStatus ≤ 0 then .failed else loop (int32 (leWord d)) 0
  | .readData len receivedSize, r, _ => loop len (int32 (receivedSize+r))
  | .failed, _, _ => .failed
  | .done n, _, _ => .done n

/-- What the read leaves in the buffer of the caller. -/
def store (data : Mem UInt8) : RecvState → Bytes → Mem UInt8
  | .readData _ receivedSize, d => write data receivedSize.toNat d
  | _, _ => data

theorem loop_natCast {n m : ℕ} (hn : n < 2^32) (hm : m ≤ n) :
    loop n m = if m = n then .done n else .readData n m := by
  rw [loop,uint32_natCast_of_lt hn]
  grind

theorem wanted_readData {n m : ℕ} (hn : n < 2^31) (hm : m ≤ n) :
    wanted (.readData n m) = some (n-m) := by
  rw [wanted,← Int.ofNat_sub hm,int32_natCast_of_lt (by omega),Int.toNat_natCast]

theorem next_readData {n m r : ℕ} (hn : n < 2^31) (hm : m+r ≤ n) (d : Bytes) :
    next (.readData n m) r d = loop n (m+r : ℕ) := by
  rw [next,← Nat.cast_add,int32_natCast_of_lt (by omega)]

theorem next_readSize {n : ℕ} (hn : n < 2^31) : next .readSize 4 (leBytes n) = loop n 0 := by
  rw [next,if_neg (by omega),leWord_leBytes,u32_of_lt (by omega),int32_natCast_of_lt hn]

end RecvState
end Transport
end CloudServer
