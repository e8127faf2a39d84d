import CloudServer.ReaderWriterQueue

/-! What one block of the queue holds, as a list, and what each load and store of the
two threads does to it. -/
namespace CloudServer
namespace ReaderWriterQueue

open Rings

variable {α : Type}

structure Ring where
  count : ℕ
  size : ℕ
  bits : ℕ
  count_pos : 0 < count
  size_eq : size = 2^bits
  bits_le : bits ≤ 64
  wide : 1 < count → 2 ≤ size

theorem Ring.size_pos (r : Ring) : 0 < r.size := by
  rw [r.size_eq]
  positivity

/-- Elements that have a slot whenever a call finds no room. -/
def Ring.capacity (r : Ring) : ℕ :=
  if r.count = 1 then r.size-1 else (r.count-1)*(r.size-1)

theorem linkBlocks_eq (size : ℕ) {n i : ℕ} (hi : i < n) :
    linkBlocks size n i = { (makeBlock size : Block α) with next := slot n i 1 } := by
  induction n with
  | zero => omega
  | succ n ih =>
    have hslot : slot (n+1) i 1 = if i = n then 0 else i+1 := by
      rw [slot_eq hi (by omega)]
      split_ifs <;> omega
    rw [hslot]
    by_cases hlast : i = n
    · simp [linkBlocks,hlast]
    · have hin : i < n := by omega
      have hold := ih hin
      rw [slot_eq hin (by omega)] at hold
      rw [linkBlocks,if_neg hlast,Function.update_of_ne hlast]
      split_ifs with h0
      · omega
      · by_cases hprev : i = n-1
        · subst hprev
          rw [Function.update_self,hold,show n-1+1 = n by omega]
        · rw [Function.update_of_ne hprev,hold,if_pos (by omega)]

/-- The constructor makes room for what it is asked for. -/
theorem exists_ring (maxQueueSize : UInt32) :
    ∃ r : Ring, maxQueueSize.toNat ≤ r.capacity ∧
      (new maxQueueSize : Queue α) = ⟨linkBlocks r.size r.count,0,0⟩ := by
  have hlt := maxQueueSize.toNat_lt
  set size := maxQueueSize.toNat with hsize
  obtain ⟨e,he,hpow,hle,hleast⟩ := ceilToPow2_spec (x := size+1) (by omega) (by omega)
  by_cases hbig : ceilToPow2 (size+1) > maxBlockSize*2
  · have hmany : size+1 > 1024 := by
      by_contra hsmall
      have h10 := Nat.pow_le_pow_right (n := 2) (by omega) (hleast 10 (by omega))
      rw [hpow] at hbig
      simp only [maxBlockSize] at hbig
      omega
    refine ⟨⟨(size+1021)/511,512,9,by omega,rfl,by omega,by omega⟩,?_,?_⟩
    · have hcount : (size+1021)/511 ≠ 1 := by omega
      simp only [Ring.capacity,if_neg hcount]
      omega
    · have hblocks : initialBlocks size = ((size+1021)/511,512) := by
        rw [initialBlocks,if_pos hbig,maxBlockSize]
        congr 2
      simp only [new,← hsize,hblocks]
  · refine ⟨⟨1,ceilToPow2 (size+1),e,by omega,hpow,by omega,by omega⟩,?_,?_⟩
    · simp only [Ring.capacity,if_true,hpow]
      omega
    · have hblocks : initialBlocks size = (1,ceilToPow2 (size+1)) := by
        rw [initialBlocks,if_neg hbig]
      simp only [new,← hsize,hblocks]

/-- Block `i` of the ring holds the list: its slots from `front` on are the elements
of the list, apart from the first if the consumer has just moved it out, then the one
that the producer is about to publish, and nothing is constructed in the others. The
copies that the threads keep of each other's index lag behind. -/
structure Holds (r : Ring) (i : ℕ) (b : Block α) (l : List α) (taken : Bool) (put : Option α) :
    Prop where
  sizeMask : b.sizeMask = r.size-1
  next : b.next = slot r.count i 1
  front_lt : b.front < r.size
  tail : b.tail = slot r.size b.front l.length
  localTail : ∃ m ≤ l.length, b.localTail = slot r.size b.front m
  localFront : b.localFront < r.size ∧
    ∃ d, d+l.length < r.size ∧ b.front = slot r.size b.localFront d
  nonempty : taken = true → l ≠ []
  data : ∀ j < r.size, b.data (slot r.size b.front j) =
    if taken = true ∧ j = 0 then none else (l++put.toList)[j]?

namespace Holds

variable {r : Ring} {i : ℕ} {b : Block α} {l : List α} {taken : Bool} {put : Option α}

theorem empty (r : Ring) (i : ℕ) :
    Holds r i { (makeBlock r.size : Block α) with next := slot r.count i 1 } [] false none := by
  have hpos := r.size_pos
  refine ⟨rfl,rfl,hpos,?_,⟨0,by simp,?_⟩,⟨hpos,0,by simpa using hpos,?_⟩,by simp,?_⟩
  · simp [makeBlock,slot]
  · simp [makeBlock,slot]
  · simp [makeBlock,slot]
  · simp [makeBlock]

theorem length_lt (h : Holds r i b l taken put) : l.length < r.size := by
  obtain ⟨-,d,hd,-⟩ := h.localFront
  omega

theorem front_eq_tail_iff (h : Holds r i b l taken put) : b.front = b.tail ↔ l = [] := by
  have hinj := slot_inj h.front_lt r.size_pos h.length_lt
  rw [slot_zero h.front_lt,← h.tail] at hinj
  rw [hinj,eq_comm,List.length_eq_zero_iff]

theorem full_iff (h : Holds r i b l taken put) :
    slot r.size b.tail 1 = b.front ↔ l.length+1 = r.size := by
  rw [h.tail,slot_slot]
  rcases Nat.lt_or_ge (l.length+1) r.size with hlt | hge
  · have hinj := slot_inj h.front_lt hlt r.size_pos
    rw [slot_zero h.front_lt] at hinj
    rw [hinj]
    omega
  · have hlen := h.length_lt
    have heq : l.length+1 = r.size := by omega
    simp [heq,slot_self h.front_lt]

theorem room (h : Holds r i b l taken put) (hne : slot r.size b.tail 1 ≠ b.localFront) :
    ∃ d, d+l.length+1 < r.size ∧ b.front = slot r.size b.localFront d := by
  obtain ⟨hlt,d,hd,hfront⟩ := h.localFront
  refine ⟨d,?_,hfront⟩
  by_contra hfull
  have heq : d+l.length+1 = r.size := by omega
  apply hne
  rw [h.tail,hfront,slot_slot,slot_slot,← Nat.add_assoc,heq,slot_self hlt]

theorem cons_of_localTail (h : Holds r i b l taken put) (hne : b.front ≠ b.localTail) :
    ∃ x xs, l = x::xs ∧ ∃ m ≤ xs.length, b.localTail = slot r.size b.front (m+1) := by
  obtain ⟨m,hm,htail⟩ := h.localTail
  cases m with
  | zero => exact absurd (by rw [htail,slot_zero h.front_lt]) hne
  | succ m =>
    cases l with
    | nil => simp at hm
    | cons x xs => exact ⟨x,xs,rfl,m,by simpa using hm,htail⟩

theorem loadFront (h : Holds r i b l taken put) :
    Holds r i { b with localFront := b.front } l taken put :=
  { h with localFront := ⟨h.front_lt,0,by simpa using h.length_lt,(slot_zero h.front_lt).symm⟩ }

theorem loadTail (h : Holds r i b l taken put) :
    Holds r i { b with localTail := b.tail } l taken put :=
  { h with localTail := ⟨l.length,le_rfl,h.tail⟩ }

theorem construct (h : Holds r i b l taken none) (x : α) :
    Holds r i { b with data := Function.update b.data b.tail (some x) } l taken (some x) := by
  refine { h with data := ?_ }
  intro j hj
  simp only [Function.update_apply,h.tail,slot_inj h.front_lt hj h.length_lt]
  split_ifs with hlast hfirst hfirst
  · rw [hlast,List.length_eq_zero_iff] at hfirst
    exact absurd hfirst.2 (h.nonempty hfirst.1)
  · simp [hlast]
  · rw [h.data j hj,if_pos hfirst]
  · rw [h.data j hj,if_neg hfirst]
    simp only [Option.toList_none,List.append_nil,Option.toList_some]
    rcases Nat.lt_or_ge j l.length with hlt | hge
    · rw [List.getElem?_append_left hlt]
    · rw [List.getElem?_eq_none hge,List.getElem?_eq_none]
      simp
      omega

theorem storeTail {x : α} (h : Holds r i b l taken (some x))
    (hne : slot r.size b.tail 1 ≠ b.localFront) :
    Holds r i { b with tail := slot r.size b.tail 1 } (l++[x]) taken none := by
  obtain ⟨d,hd,hfront⟩ := h.room hne
  obtain ⟨m,hm,htail⟩ := h.localTail
  refine { h with
    tail := ?_
    localTail := ⟨m,by simp; omega,htail⟩
    localFront := ⟨h.localFront.1,d,by simpa [← Nat.add_assoc] using hd,hfront⟩
    nonempty := by simp
    data := ?_ }
  · simp [h.tail,slot_slot]
  · simpa using h.data

theorem take {x : α} {xs : List α} (h : Holds r i b (x::xs) false put) :
    b.data b.front = some x ∧
      Holds r i { b with data := Function.update b.data b.front none } (x::xs) true put := by
  have hpos := r.size_pos
  have hzero := slot_zero h.front_lt
  constructor
  · have hdata := h.data 0 hpos
    rw [hzero] at hdata
    simpa using hdata
  · refine { h with nonempty := by simp, data := ?_ }
    intro j hj
    have hinj := slot_inj h.front_lt hj hpos
    rw [hzero] at hinj
    simp only [Function.update_apply,hinj,true_and]
    split_ifs with h0
    · rfl
    · simpa using h.data j hj

theorem storeFront {x : α} {xs : List α} (h : Holds r i b (x::xs) true put)
    (hne : b.front ≠ b.localTail) :
    Holds r i { b with front := slot r.size b.front 1 } xs false put := by
  have hpos := r.size_pos
  obtain ⟨_,_,hcons,m,hm,htail⟩ := h.cons_of_localTail hne
  cases hcons
  obtain ⟨hlt,d,hd,hfront⟩ := h.localFront
  simp only [List.length_cons] at hd
  have hback := h.tail
  refine { h with
    front_lt := slot_lt hpos _ _
    tail := ?_
    localTail := ⟨m,hm,?_⟩
    localFront := ⟨hlt,d+1,by omega,?_⟩
    nonempty := by simp
    data := ?_ }
  · simpa [slot_slot,Nat.add_comm] using hback
  · rw [htail,slot_slot,Nat.add_comm]
  · rw [hfront,slot_slot]
  · intro j hj
    rw [slot_slot,Nat.add_comm]
    rcases Nat.lt_or_ge (j+1) r.size with hlt | hge
    · simpa using h.data (j+1) hlt
    · have hlast : j+1 = r.size := by omega
      have hfirst := h.data 0 hpos
      rw [slot_zero h.front_lt] at hfirst
      have hnone : (xs++put.toList)[j]? = none := by
        apply List.getElem?_eq_none
        have hput : put.toList.length ≤ 1 := by cases put <;> simp
        rw [List.length_append]
        omega
      simpa [hlast,slot_self h.front_lt,hnone] using hfirst

theorem distance (h : Holds r i b l taken put) :
    (b.tail+2^64-b.front) % 2^64 &&& b.sizeMask = l.length := by
  rw [h.tail,h.sizeMask]
  exact distance_mask r.size_eq r.bits_le h.front_lt h.length_lt

end Holds
end ReaderWriterQueue
end CloudServer
