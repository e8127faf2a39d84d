import CloudServer.Execution
import CloudServer.Rings
import Mathlib.Data.Nat.Size

/-! `moodycamel::ReaderWriterQueue`, the queue inside `MessageQueue`: a ring of
circular buffers between one producer and one consumer. A step is one load of a
variable that the other thread writes, or one store that the other thread can see;
what a thread reads of its own variables is read along. Loads and stores take effect
in the order of the program. -/
namespace CloudServer
namespace ReaderWriterQueue

variable {α : Type}

/-- `Block`. A slot is `none` while no element is constructed in it. -/
structure Block (α : Type) where
  front : ℕ
  localTail : ℕ
  tail : ℕ
  localFront : ℕ
  next : ℕ
  data : ℕ → Option α
  sizeMask : ℕ

/-- `make_block`. The constructor of the queue sets `next` right after the call. -/
def makeBlock (capacity : ℕ) : Block α := ⟨0,0,0,0,0,fun _ => none,capacity-1⟩

structure Queue (α : Type) where
  blocks : ℕ → Block α
  frontBlock : ℕ
  tailBlock : ℕ

def Queue.setBlock (q : Queue α) (i : ℕ) (b : Block α) : Queue α :=
  { q with blocks := Function.update q.blocks i b }

/-- `ceilToPow2`; the last three shifts are the rounds of its loop. -/
def ceilToPow2 (x : ℕ) : ℕ :=
  let x := (x+2^64-1) % 2^64
  let x := x ||| x >>> 1
  let x := x ||| x >>> 2
  let x := x ||| x >>> 4
  let x := [1,2,4].foldl (fun x i => x ||| x >>> (i <<< 3)) x
  (x+1) % 2^64

/-- Bit `i` of `y` is set if one of the `k` bits of `x` from `i` on is. -/
def Smeared (x k y : ℕ) : Prop := ∀ i, y.testBit i = true ↔ ∃ j < k, x.testBit (i+j) = true

theorem smeared_one (x : ℕ) : Smeared x 1 x := by
  intro i
  constructor
  · exact fun h => ⟨0,by omega,h⟩
  · rintro ⟨j,hj,h⟩
    obtain rfl : j = 0 := by omega
    exact h

theorem Smeared.double {x k y : ℕ} (h : Smeared x k y) : Smeared x (k+k) (y ||| y >>> k) := by
  intro i
  rw [Nat.testBit_or,Nat.testBit_shiftRight,Bool.or_eq_true,h i,h (k+i)]
  constructor
  · rintro (⟨j,hj,hbit⟩ | ⟨j,hj,hbit⟩)
    · exact ⟨j,by omega,hbit⟩
    · exact ⟨k+j,by omega,by rwa [show i+(k+j) = k+i+j by omega]⟩
  · rintro ⟨j,hj,hbit⟩
    rcases Nat.lt_or_ge j k with hjk | hjk
    · exact .inl ⟨j,hjk,hbit⟩
    · exact .inr ⟨j-k,by omega,by rwa [show k+i+(j-k) = i+j by omega]⟩

theorem Smeared.eq {x k y : ℕ} (h : Smeared x k y) (hx : x < 2^k) : y = 2^x.size-1 := by
  apply Nat.eq_of_testBit_eq
  intro i
  rw [Bool.eq_iff_iff,h i,Nat.testBit_two_pow_sub_one,decide_eq_true_iff,Nat.lt_size]
  constructor
  · rintro ⟨j,-,hbit⟩
    exact (Nat.pow_le_pow_right (by omega) (by omega)).trans (Nat.ge_two_pow_of_testBit hbit)
  · intro hle
    obtain ⟨j,hj,hbit⟩ := Nat.exists_ge_and_testBit_of_ge_two_pow hle
    have hlt : j < k := by
      by_contra hge
      have hpow : 2^k ≤ 2^j := Nat.pow_le_pow_right (by omega) (by omega)
      exact absurd (Nat.ge_two_pow_of_testBit hbit) (by omega)
    exact ⟨j-i,by omega,by rwa [show i+(j-i) = j by omega]⟩

/-- `ceilToPow2` finds the least power of two that is not below its argument. -/
theorem ceilToPow2_spec {x : ℕ} (hpos : 0 < x) (hx : x ≤ 2^63) :
    ∃ e ≤ 63, ceilToPow2 x = 2^e ∧ x ≤ 2^e ∧ ∀ d, x ≤ 2^d → e ≤ d := by
  have hpred : (x+2^64-1) % 2^64 = x-1 := by omega
  have hsmear := (smeared_one (x-1)).double.double.double.double.double.double
  have hy := hsmear.eq (by norm_num; omega)
  have hsize : (x-1).size ≤ 63 := Nat.size_le.mpr (by omega)
  have hval : ceilToPow2 x = 2^(x-1).size := by
    have hlt : 2^(x-1).size < 2^64 := Nat.pow_lt_pow_right (by omega) (by omega)
    have hfold : ceilToPow2 x = (2^(x-1).size-1+1) % 2^64 := by
      rw [← hy]
      simp only [ceilToPow2,hpred]
      rfl
    rw [hfold,Nat.sub_add_cancel Nat.one_le_two_pow,Nat.mod_eq_of_lt hlt]
  refine ⟨_,hsize,hval,?_,?_⟩
  · have := Nat.lt_size_self (x-1)
    omega
  · intro d hd
    exact Nat.size_le.mpr (by omega)

def maxBlockSize : ℕ := 512

def initialBlocks (size : ℕ) : ℕ × ℕ :=
  let largestBlockSize := ceilToPow2 (size+1)
  if largestBlockSize > maxBlockSize*2 then
    ((size+maxBlockSize*2-3)/(maxBlockSize-1),maxBlockSize)
  else (1,largestBlockSize)

/-- The blocks after so many rounds of the constructor's loop: each new block is
linked behind the last one and back to the first. -/
def linkBlocks (largestBlockSize : ℕ) : ℕ → ℕ → Block α
  | 0 => fun _ => makeBlock 0
  | i+1 =>
    let blocks := linkBlocks largestBlockSize i
    let linked := if i = 0 then blocks
      else Function.update blocks (i-1) { blocks (i-1) with next := i }
    Function.update linked i { makeBlock largestBlockSize with next := 0 }

def new (maxQueueSize : UInt32) : Queue α :=
  let blocks := initialBlocks maxQueueSize.toNat
  ⟨linkBlocks blocks.2 blocks.1,0,0⟩

/-- Where the producer is inside `inner_enqueue<CannotAlloc>`. -/
inductive Producer (α : Type)
  | idle
  | loadFront (element : α) (tailBlock_ blockTail nextBlockTail : ℕ)
  | construct (element : α) (tailBlock_ blockTail nextBlockTail : ℕ)
  | storeTail (element : α) (tailBlock_ nextBlockTail : ℕ)
  | loadFrontBlock (element : α) (tailBlock_ : ℕ)
  | loadNextFront (element : α) (tailBlock_ : ℕ)
  | constructNext (element : α) (tailBlockNext nextBlockTail : ℕ)
  | storeNextTail (element : α) (tailBlockNext nextBlockTail : ℕ)
  | storeTailBlock (element : α) (tailBlockNext : ℕ)
  | returned (result : Bool)
  | assertionFailed

/-- `try_enqueue` up to its first load of the consumer's variables. -/
def tryEnqueue (q : Queue α) (element : α) : Producer α :=
  let b := q.blocks q.tailBlock
  let nextBlockTail := (b.tail+1) &&& b.sizeMask
  if nextBlockTail ≠ b.localFront then .construct element q.tailBlock b.tail nextBlockTail
  else .loadFront element q.tailBlock b.tail nextBlockTail

def producerStep (q : Queue α) : Producer α → Option (Queue α × Producer α)
  | .loadFront element tailBlock_ blockTail nextBlockTail =>
    let b := q.blocks tailBlock_
    some (q.setBlock tailBlock_ { b with localFront := b.front },
      if nextBlockTail ≠ b.front then .construct element tailBlock_ blockTail nextBlockTail
      else .loadFrontBlock element tailBlock_)
  | .construct element tailBlock_ blockTail nextBlockTail =>
    let b := q.blocks tailBlock_
    some (q.setBlock tailBlock_ { b with data := Function.update b.data blockTail (some element) },
      .storeTail element tailBlock_ nextBlockTail)
  | .storeTail _ tailBlock_ nextBlockTail =>
    some (q.setBlock tailBlock_ { q.blocks tailBlock_ with tail := nextBlockTail },.returned true)
  | .loadFrontBlock element tailBlock_ =>
    some (q,if (q.blocks tailBlock_).next ≠ q.frontBlock then .loadNextFront element tailBlock_
      else .returned false)
  | .loadNextFront element tailBlock_ =>
    let tailBlockNext := (q.blocks tailBlock_).next
    let b := q.blocks tailBlockNext
    some (q.setBlock tailBlockNext { b with localFront := b.front },
      if b.front = b.tail then .constructNext element tailBlockNext b.tail else .assertionFailed)
  | .constructNext element tailBlockNext nextBlockTail =>
    let b := q.blocks tailBlockNext
    some (q.setBlock tailBlockNext
        { b with data := Function.update b.data nextBlockTail (some element) },
      .storeNextTail element tailBlockNext nextBlockTail)
  | .storeNextTail element tailBlockNext nextBlockTail =>
    let b := q.blocks tailBlockNext
    some (q.setBlock tailBlockNext { b with tail := (nextBlockTail+1) &&& b.sizeMask },
      .storeTailBlock element tailBlockNext)
  | .storeTailBlock _ tailBlockNext => some ({ q with tailBlock := tailBlockNext },.returned true)
  | .idle => none
  | .returned _ => none
  | .assertionFailed => none

/-- Where the consumer is inside `try_dequeue` or `size_approx`. -/
inductive Consumer (α : Type)
  | idle
  | loadTail (frontBlock_ blockFront : ℕ)
  | loadTailBlock (frontBlock_ : ℕ)
  | reloadTail
  | loadNextTail (frontBlock_ : ℕ)
  | storeFrontBlock (nextBlock nextBlockFront : ℕ)
  | take (frontBlock_ blockFront : ℕ)
  | storeFront (frontBlock_ blockFront : ℕ) (result : α)
  | returned (result : Option α)
  | sizing (frontBlock_ block result : ℕ)
  | sized (result : ℕ)
  | assertionFailed
  | emptySlot

/-- `try_dequeue` up to its first load of the producer's variables. -/
def tryDequeue (q : Queue α) : Consumer α :=
  let b := q.blocks q.frontBlock
  if b.front ≠ b.localTail then .take q.frontBlock b.front
  else .loadTail q.frontBlock b.front

/-- A move out of a slot in which nothing is constructed ends in `emptySlot`. -/
def consumerStep (q : Queue α) : Consumer α → Option (Queue α × Consumer α)
  | .loadTail frontBlock_ blockFront =>
    let b := q.blocks frontBlock_
    some (q.setBlock frontBlock_ { b with localTail := b.tail },
      if blockFront ≠ b.tail then .take frontBlock_ blockFront else .loadTailBlock frontBlock_)
  | .loadTailBlock frontBlock_ =>
    some (q,if frontBlock_ ≠ q.tailBlock then .reloadTail else .returned none)
  | .reloadTail =>
    let b := q.blocks q.frontBlock
    some (q.setBlock q.frontBlock { b with localTail := b.tail },
      if b.front ≠ b.tail then .take q.frontBlock b.front else .loadNextTail q.frontBlock)
  | .loadNextTail frontBlock_ =>
    let nextBlock := (q.blocks frontBlock_).next
    let b := q.blocks nextBlock
    some (q.setBlock nextBlock { b with localTail := b.tail },
      if b.front ≠ b.tail then .storeFrontBlock nextBlock b.front else .assertionFailed)
  | .storeFrontBlock nextBlock nextBlockFront =>
    some ({ q with frontBlock := nextBlock },.take nextBlock nextBlockFront)
  | .take frontBlock_ blockFront =>
    let b := q.blocks frontBlock_
    match b.data blockFront with
    | some element =>
      some (q.setBlock frontBlock_ { b with data := Function.update b.data blockFront none },
        .storeFront frontBlock_ blockFront element)
    | none => some (q,.emptySlot)
  | .storeFront frontBlock_ blockFront result =>
    let b := q.blocks frontBlock_
    some (q.setBlock frontBlock_ { b with front := (blockFront+1) &&& b.sizeMask },
      .returned (some result))
  | .sizing frontBlock_ block result =>
    let b := q.blocks block
    let result := result+((b.tail+2^64-b.front) % 2^64 &&& b.sizeMask)
    some (q,if b.next ≠ frontBlock_ then .sizing frontBlock_ b.next result else .sized result)
  | .idle => none
  | .returned _ => none
  | .sized _ => none
  | .assertionFailed => none
  | .emptySlot => none

def Producer.resting : Producer α → Bool
  | .idle => true
  | .returned _ => true
  | _ => false

def Consumer.resting : Consumer α → Bool
  | .idle => true
  | .returned _ => true
  | .sized _ => true
  | _ => false

def Producer.publishes : Producer α → List α
  | .storeTail element _ _ => [element]
  | .storeTailBlock element _ => [element]
  | _ => []

def Consumer.delivers : Consumer α → List α
  | .storeFront _ _ result => [result]
  | _ => []

structure Channel (α : Type) where
  queue : Queue α
  producer : Producer α
  consumer : Consumer α
  sent : List α
  received : List α

inductive Event (α : Type)
  | enqueue (element : α)
  | producer
  | dequeue
  | sizeApprox
  | consumer

/-- A call by a thread that rests, or one step of a call under way. -/
def step (s : Channel α) : Event α → Option (Channel α)
  | .enqueue element =>
    if s.producer.resting then some { s with producer := tryEnqueue s.queue element } else none
  | .producer =>
    (producerStep s.queue s.producer).map fun r =>
      { s with queue := r.1, producer := r.2, sent := s.sent++s.producer.publishes }
  | .dequeue =>
    if s.consumer.resting then some { s with consumer := tryDequeue s.queue } else none
  | .sizeApprox =>
    if s.consumer.resting then
      some { s with consumer := .sizing s.queue.frontBlock s.queue.frontBlock 0 }
    else none
  | .consumer =>
    (consumerStep s.queue s.consumer).map fun r =>
      { s with queue := r.1, consumer := r.2, received := s.received++s.consumer.delivers }

def start (maxQueueSize : UInt32) : Channel α := ⟨new maxQueueSize,.idle,.idle,[],[]⟩

end ReaderWriterQueue
end CloudServer
