import CloudServer.QueueBlocks

/-! The invariant of the queue under every interleaving of its two threads: the blocks
from the front to the tail block hold what was sent and not yet received. -/
namespace CloudServer
namespace ReaderWriterQueue

open Rings Execution

variable {α : Type}

/-- The consumer has moved the first element out of block `i` and not yet stepped on. -/
def Consumer.taking : Consumer α → ℕ → Bool
  | .storeFront frontBlock_ _ _, i => frontBlock_ == i
  | _, _ => false

/-- The element constructed in block `i` and not yet covered by its `tail`. -/
def Producer.putting : Producer α → ℕ → Option α
  | .storeTail element tailBlock_ _, i => if tailBlock_ = i then some element else none
  | .storeNextTail element tailBlockNext _, i => if tailBlockNext = i then some element else none
  | _, _ => none

/-- What the block behind the tail block holds before `tailBlock` is advanced to it. -/
def Producer.pending : Producer α → List α
  | .storeTailBlock element _ => [element]
  | _ => []

/-- The blocks in use: `k` blocks behind the front block is the tail block, those in
between are full, and those ahead of the tail block are empty. -/
structure Layout (r : Ring) (front tail : ℕ) (l : ℕ → List α) (k : ℕ) (pending : List α) :
    Prop where
  front_lt : front < r.count
  k_lt : k < r.count
  tail_eq : tail = slot r.count front k
  full : ∀ j, 0 < j → j < k → (l (slot r.count front j)).length+1 = r.size
  reached : 0 < k → l tail ≠ []
  ahead : ∀ j, k < j → j < r.count →
    l (slot r.count front j) = if j = k+1 then pending else []

def ProducerOk (r : Ring) (q : Queue α) (l : ℕ → List α) (k : ℕ) : Producer α → Prop
  | .loadFront _ t tail next => t = q.tailBlock ∧ tail = (q.blocks t).tail ∧
      next = slot r.size tail 1
  | .construct _ t tail next => t = q.tailBlock ∧ tail = (q.blocks t).tail ∧
      next = slot r.size tail 1 ∧ next ≠ (q.blocks t).localFront
  | .storeTail _ t next => t = q.tailBlock ∧ next = slot r.size (q.blocks t).tail 1 ∧
      next ≠ (q.blocks t).localFront
  | .loadFrontBlock _ t => t = q.tailBlock ∧ (0 < k → (l q.tailBlock).length+1 = r.size)
  | .loadNextFront _ t => t = q.tailBlock ∧ (0 < k → (l q.tailBlock).length+1 = r.size) ∧
      k+1 < r.count
  | .constructNext _ n tail => n = slot r.count q.tailBlock 1 ∧
      (0 < k → (l q.tailBlock).length+1 = r.size) ∧ k+1 < r.count ∧ tail = (q.blocks n).tail ∧
      slot r.size tail 1 ≠ (q.blocks n).localFront
  | .storeNextTail _ n tail => n = slot r.count q.tailBlock 1 ∧
      (0 < k → (l q.tailBlock).length+1 = r.size) ∧ k+1 < r.count ∧ tail = (q.blocks n).tail ∧
      slot r.size tail 1 ≠ (q.blocks n).localFront
  | .storeTailBlock _ n => n = slot r.count q.tailBlock 1 ∧
      (0 < k → (l q.tailBlock).length+1 = r.size) ∧ k+1 < r.count
  | .idle => True
  | .returned _ => True
  | .assertionFailed => False

def ConsumerOk (r : Ring) (q : Queue α) (l : ℕ → List α) (k : ℕ) : Consumer α → Prop
  | .loadTail f front => f = q.frontBlock ∧ front = (q.blocks f).front
  | .loadTailBlock f => f = q.frontBlock
  | .reloadTail => 0 < k
  | .loadNextTail f => f = q.frontBlock ∧ 0 < k ∧ l q.frontBlock = []
  | .storeFrontBlock n front => n = slot r.count q.frontBlock 1 ∧ 0 < k ∧ l q.frontBlock = [] ∧
      front = (q.blocks n).front ∧ front ≠ (q.blocks n).localTail
  | .take f front => f = q.frontBlock ∧ front = (q.blocks f).front ∧
      front ≠ (q.blocks f).localTail
  | .storeFront f front x => f = q.frontBlock ∧ front = (q.blocks f).front ∧
      front ≠ (q.blocks f).localTail ∧ (l q.frontBlock).head? = some x
  | .sizing f block _ => f = q.frontBlock ∧ block < r.count
  | .idle => True
  | .returned _ => True
  | .sized _ => True
  | .assertionFailed => False
  | .emptySlot => False

structure Inv (r : Ring) (q : Queue α) (p : Producer α) (c : Consumer α)
    (sent received : List α) (l : ℕ → List α) (k : ℕ) : Prop where
  blocks : ∀ i < r.count, Holds r i (q.blocks i) (l i) (c.taking i) (p.putting i)
  layout : Layout r q.frontBlock q.tailBlock l k p.pending
  order : sent = received++gather r.count l q.frontBlock k
  producer : ProducerOk r q l k p
  consumer : ConsumerOk r q l k c

theorem inv_start (maxQueueSize : UInt32) : ∃ r : Ring, maxQueueSize.toNat ≤ r.capacity ∧
    Inv r (new maxQueueSize : Queue α) .idle .idle [] [] (fun _ => []) 0 := by
  obtain ⟨r,hcap,hnew⟩ := exists_ring (α := α) maxQueueSize
  refine ⟨r,hcap,⟨?_,?_,?_,trivial,trivial⟩⟩
  · intro i hi
    simp only [hnew,linkBlocks_eq _ hi]
    exact Holds.empty r i
  · rw [hnew]
    exact ⟨r.count_pos,r.count_pos,(slot_zero r.count_pos).symm,by omega,by omega,by
      simp [Producer.pending]⟩
  · simp [gather]

theorem setBlock_field {β : Type} (f : Block α → β) {q : Queue α} {t : ℕ} {b : Block α}
    (h : f b = f (q.blocks t)) (i : ℕ) : f ((q.setBlock t b).blocks i) = f (q.blocks i) := by
  by_cases hi : i = t
  · rw [hi]
    simpa [Queue.setBlock] using h
  · simp [Queue.setBlock,hi]

@[simp] theorem setBlock_self (q : Queue α) (t : ℕ) (b : Block α) :
    (q.setBlock t b).blocks t = b := by simp [Queue.setBlock]

@[simp] theorem setBlock_frontBlock (q : Queue α) (t : ℕ) (b : Block α) :
    (q.setBlock t b).frontBlock = q.frontBlock := rfl

@[simp] theorem setBlock_tailBlock (q : Queue α) (t : ℕ) (b : Block α) :
    (q.setBlock t b).tailBlock = q.tailBlock := rfl

theorem holds_set {r : Ring} {q : Queue α} {l l' : ℕ → List α} {taking taking' : ℕ → Bool}
    {putting putting' : ℕ → Option α} {t : ℕ} {b : Block α}
    (h : ∀ i < r.count, Holds r i (q.blocks i) (l i) (taking i) (putting i))
    (hb : Holds r t b (l' t) (taking' t) (putting' t))
    (hother : ∀ i, i ≠ t → l' i = l i ∧ taking' i = taking i ∧ putting' i = putting i) :
    ∀ i < r.count, Holds r i ((q.setBlock t b).blocks i) (l' i) (taking' i) (putting' i) := by
  intro i hi
  by_cases ht : i = t
  · subst ht
    simpa using hb
  · obtain ⟨hl,htake,hput⟩ := hother i ht
    rw [hl,htake,hput]
    simpa [Queue.setBlock,ht] using h i hi

/-- The producer's knowledge survives every step of the consumer. -/
theorem ProducerOk.frame {r : Ring} {q q' : Queue α} {l l' : ℕ → List α} {k k' : ℕ}
    {p : Producer α} (h : ProducerOk r q l k p) (htail : q'.tailBlock = q.tailBlock)
    (hb : ∀ i, (q'.blocks i).tail = (q.blocks i).tail ∧
      (q'.blocks i).localFront = (q.blocks i).localFront)
    (hk : k' ≤ k) (hl : 0 < k' → l' q.tailBlock = l q.tailBlock) : ProducerOk r q' l' k' p := by
  have hfull : (0 < k → (l q.tailBlock).length+1 = r.size) →
      0 < k' → (l' q'.tailBlock).length+1 = r.size := by
    intro h hk'
    rw [htail,hl hk']
    exact h (by omega)
  cases p with
  | loadFront x t tail next => simpa only [ProducerOk,htail,hb] using h
  | construct x t tail next => simpa only [ProducerOk,htail,hb] using h
  | storeTail x t next => simpa only [ProducerOk,htail,hb] using h
  | loadFrontBlock x t => exact ⟨h.1.trans htail.symm,hfull h.2⟩
  | loadNextFront x t => exact ⟨h.1.trans htail.symm,hfull h.2.1,by have := h.2.2; omega⟩
  | constructNext x n tail =>
    obtain ⟨hn,hf,hlt,ht,hne⟩ := h
    exact ⟨by rw [htail,hn],hfull hf,by omega,by rw [(hb n).1,ht],by rwa [(hb n).2]⟩
  | storeNextTail x n tail =>
    obtain ⟨hn,hf,hlt,ht,hne⟩ := h
    exact ⟨by rw [htail,hn],hfull hf,by omega,by rw [(hb n).1,ht],by rwa [(hb n).2]⟩
  | storeTailBlock x n => exact ⟨by rw [htail,h.1],hfull h.2.1,by have := h.2.2; omega⟩
  | idle => trivial
  | returned result => trivial
  | assertionFailed => exact h

/-- The consumer's knowledge survives every step of the producer. -/
theorem ConsumerOk.frame {r : Ring} {q q' : Queue α} {l l' : ℕ → List α} {k k' : ℕ}
    {c : Consumer α} (h : ConsumerOk r q l k c) (hfront : q'.frontBlock = q.frontBlock)
    (hb : ∀ i, (q'.blocks i).front = (q.blocks i).front ∧
      (q'.blocks i).localTail = (q.blocks i).localTail)
    (hk : k ≤ k') (hl : 0 < k → l' q.frontBlock = l q.frontBlock)
    (hpre : l q.frontBlock <+: l' q.frontBlock) : ConsumerOk r q' l' k' c := by
  cases c with
  | loadTail f front => simpa only [ConsumerOk,hfront,hb] using h
  | loadTailBlock f => simpa only [ConsumerOk,hfront] using h
  | reloadTail => exact h.trans_le hk
  | loadNextTail f => exact ⟨by rw [hfront,h.1],by have := h.2.1; omega,by
      rw [hfront,hl h.2.1,h.2.2]⟩
  | storeFrontBlock n front =>
    obtain ⟨hn,hpos,hnil,hf,hne⟩ := h
    exact ⟨by rw [hfront,hn],by omega,by rw [hfront,hl hpos,hnil],by rw [(hb n).1,hf],by
      rwa [(hb n).2]⟩
  | take f front => simpa only [ConsumerOk,hfront,hb] using h
  | storeFront f front x =>
    obtain ⟨hf,hfr,hne,hhead⟩ := h
    refine ⟨by rw [hfront,hf],by rw [(hb f).1,hfr],by rwa [(hb f).2],?_⟩
    obtain ⟨m,hm⟩ := hpre
    rw [hfront,← hm,List.head?_append,hhead]
    rfl
  | sizing f block result => simpa only [ConsumerOk,hfront] using h
  | idle => trivial
  | returned result => trivial
  | sized result => trivial
  | assertionFailed => exact h
  | emptySlot => exact h

namespace Layout

variable {r : Ring} {front tail k : ℕ} {l : ℕ → List α} {pending : List α}

theorem tail_lt (h : Layout r front tail l k pending) : tail < r.count := by
  rw [h.tail_eq]
  exact slot_lt r.count_pos _ _

theorem next_eq (h : Layout r front tail l k pending) :
    slot r.count tail 1 = slot r.count front (k+1) := by
  rw [h.tail_eq,slot_slot]

theorem next_ne_front_iff (h : Layout r front tail l k pending) :
    slot r.count tail 1 ≠ front ↔ k+1 < r.count := by
  have hk := h.k_lt
  rw [h.next_eq]
  constructor
  · intro hne
    by_contra hge
    apply hne
    rw [show k+1 = r.count by omega,slot_self h.front_lt]
  · intro hlt
    have hinj := slot_inj h.front_lt hlt r.count_pos
    rw [slot_zero h.front_lt] at hinj
    simp [hinj]

theorem tail_ne_front_iff (h : Layout r front tail l k pending) : tail ≠ front ↔ 0 < k := by
  have hinj := slot_inj h.front_lt h.k_lt r.count_pos
  rw [slot_zero h.front_lt,← h.tail_eq] at hinj
  rw [Ne,hinj]
  omega

theorem next_ahead (h : Layout r front tail l k pending) (hk : k+1 < r.count) :
    l (slot r.count tail 1) = pending := by
  rw [h.next_eq,h.ahead (k+1) (by omega) hk,if_pos rfl]

theorem update_slot (h : Layout r front tail l k pending) {i j : ℕ} (hi : i < r.count)
    (hj : j < r.count) (hne : i ≠ j) (xs : List α) :
    Function.update l (slot r.count front j) xs (slot r.count front i) =
      l (slot r.count front i) := by
  apply Function.update_of_ne
  rwa [Ne,slot_inj h.front_lt hi hj]

theorem push (h : Layout r front tail l k []) (x : α) :
    Layout r front tail (Function.update l tail (l tail++[x])) k [] := by
  have hk := h.k_lt
  refine ⟨h.front_lt,hk,h.tail_eq,?_,fun _ => by simp,?_⟩
  · intro j hj hjk
    rw [h.tail_eq,h.update_slot (by omega) hk hjk.ne]
    exact h.full j hj hjk
  · intro j hj hjn
    rw [h.tail_eq,h.update_slot hjn hk hj.ne']
    exact h.ahead j hj hjn

theorem stage (h : Layout r front tail l k []) (hk : k+1 < r.count) (x : α) :
    Layout r front tail (Function.update l (slot r.count tail 1) [x]) k [x] := by
  rw [h.next_eq]
  refine ⟨h.front_lt,h.k_lt,h.tail_eq,?_,?_,?_⟩
  · intro j hj hjk
    rw [h.update_slot (by omega) hk (by omega)]
    exact h.full j hj hjk
  · intro hpos
    rw [h.tail_eq,h.update_slot h.k_lt hk (by omega),← h.tail_eq]
    exact h.reached hpos
  · intro j hj hjn
    split_ifs with hnext
    · rw [hnext,Function.update_self]
    · rw [h.update_slot hjn hk hnext,h.ahead j hj hjn,if_neg hnext]

theorem extend (h : Layout r front tail l k pending) (hne : pending ≠ [])
    (hfull : 0 < k → (l tail).length+1 = r.size) (hk : k+1 < r.count) :
    Layout r front (slot r.count tail 1) l (k+1) [] := by
  refine ⟨h.front_lt,hk,h.next_eq,?_,?_,?_⟩
  · intro j hj hjk
    rcases Nat.lt_or_ge j k with hlt | hge
    · exact h.full j hj hlt
    · rw [show j = k by omega,← h.tail_eq]
      exact hfull (by omega)
  · intro _
    rwa [h.next_ahead hk]
  · intro j hj hjn
    rw [h.ahead j (by omega) hjn,if_neg (by omega),ite_self]

theorem pop (h : Layout r front tail l k pending) (xs : List α) :
    Layout r front tail (Function.update l front xs) k pending := by
  have hpos := r.count_pos
  have hfront : slot r.count front 0 = front := slot_zero h.front_lt
  have hother : ∀ j, 0 < j → j < r.count →
      Function.update l front xs (slot r.count front j) = l (slot r.count front j) := by
    intro j hj hjn
    have hslot := h.update_slot hjn hpos hj.ne' xs
    rwa [hfront] at hslot
  refine ⟨h.front_lt,h.k_lt,h.tail_eq,?_,?_,?_⟩
  · intro j hj hjk
    rw [hother j hj (hjk.trans h.k_lt)]
    exact h.full j hj hjk
  · intro hk
    rw [h.tail_eq,hother k hk h.k_lt,← h.tail_eq]
    exact h.reached hk
  · intro j hj hjn
    rw [hother j (by omega) hjn]
    exact h.ahead j hj hjn

theorem advance (h : Layout r front tail l (k+1) pending) (hnil : l front = [])
    (hpend : pending ≠ [] → k+2 < r.count) :
    Layout r (slot r.count front 1) tail l k pending := by
  have hk := h.k_lt
  refine ⟨slot_lt r.count_pos _ _,by omega,?_,?_,fun _ => h.reached (by omega),?_⟩
  · rw [h.tail_eq,slot_slot,Nat.add_comm]
  · intro j hj hjk
    rw [slot_slot]
    exact h.full (1+j) (by omega) (by omega)
  · intro j hj hjn
    rw [slot_slot]
    rcases Nat.lt_or_ge (1+j) r.count with hlt | hge
    · rw [h.ahead (1+j) (by omega) hlt]
      congr 1
      exact propext (by omega)
    · rw [show 1+j = r.count by omega,slot_self h.front_lt,hnil]
      split_ifs with hnext
      · by_contra hne
        have := hpend (fun h => hne h.symm)
        omega
      · rfl

end Layout

theorem setBlock_consumer {q : Queue α} {t : ℕ} {b : Block α} (hf : b.front = (q.blocks t).front)
    (ht : b.localTail = (q.blocks t).localTail) (i : ℕ) :
    ((q.setBlock t b).blocks i).front = (q.blocks i).front ∧
      ((q.setBlock t b).blocks i).localTail = (q.blocks i).localTail :=
  ⟨setBlock_field Block.front hf i,setBlock_field Block.localTail ht i⟩

theorem setBlock_producer {q : Queue α} {t : ℕ} {b : Block α} (ht : b.tail = (q.blocks t).tail)
    (hf : b.localFront = (q.blocks t).localFront) (i : ℕ) :
    ((q.setBlock t b).blocks i).tail = (q.blocks i).tail ∧
      ((q.setBlock t b).blocks i).localFront = (q.blocks i).localFront :=
  ⟨setBlock_field Block.tail ht i,setBlock_field Block.localFront hf i⟩

section Producer

variable {r : Ring} {q : Queue α} {c : Consumer α} {sent received : List α} {l : ℕ → List α}
  {k : ℕ}

theorem Inv.producer_point {p p' : Producer α} (hi : Inv r q p c sent received l k)
    (hput : p'.putting = p.putting) (hpend : p'.pending = p.pending)
    (hok : ProducerOk r q l k p') : Inv r q p' c sent received l k := by
  obtain ⟨hb,hl,ho,-,hc⟩ := hi
  exact ⟨by simpa only [hput] using hb,by simpa only [hpend] using hl,ho,hok,hc⟩

theorem Inv.producer_block {p p' : Producer α} {t : ℕ} {b : Block α}
    (hi : Inv r q p c sent received l k)
    (hb : Holds r t b (l t) (c.taking t) (p'.putting t))
    (hother : ∀ i, i ≠ t → p'.putting i = p.putting i) (hpend : p'.pending = p.pending)
    (hfront : b.front = (q.blocks t).front) (htail : b.localTail = (q.blocks t).localTail)
    (hok : ProducerOk r (q.setBlock t b) l k p') :
    Inv r (q.setBlock t b) p' c sent received l k := by
  obtain ⟨hblocks,hl,ho,-,hc⟩ := hi
  refine ⟨holds_set hblocks hb fun i hne => ⟨rfl,rfl,hother i hne⟩,by rw [hpend]; exact hl,
    ho,hok,hc.frame rfl (setBlock_consumer hfront htail) le_rfl (fun _ => rfl)
      (List.prefix_refl _)⟩

theorem inv_tryEnqueue {p : Producer α} (hi : Inv r q p c sent received l k)
    (hrest : p.resting = true) (x : α) : Inv r q (tryEnqueue q x) c sent received l k := by
  have hb := hi.blocks q.tailBlock hi.layout.tail_lt
  have hmask := slot_mask (q.blocks q.tailBlock).tail r.size_eq
  rw [← hb.sizeMask] at hmask
  have hput : p.putting = fun _ => none := by
    funext i
    cases p <;> simp_all [Producer.resting,Producer.putting]
  have hpend : p.pending = [] := by cases p <;> simp_all [Producer.resting,Producer.pending]
  apply hi.producer_point
  · rw [hput]
    funext i
    simp only [tryEnqueue]
    split_ifs <;> rfl
  · rw [hpend]
    simp only [tryEnqueue]
    split_ifs <;> rfl
  · simp only [tryEnqueue,hmask]
    split_ifs with hne
    · exact ⟨rfl,rfl,rfl,hne⟩
    · exact ⟨rfl,rfl,rfl⟩

theorem inv_loadFront {x : α} {t tail next : ℕ}
    (hi : Inv r q (.loadFront x t tail next) c sent received l k) :
    Inv r (q.setBlock t { q.blocks t with localFront := (q.blocks t).front })
      (if next ≠ (q.blocks t).front then .construct x t tail next else .loadFrontBlock x t)
      c sent received l k := by
  obtain ⟨rfl,rfl,rfl⟩ := hi.producer
  have hb := hi.blocks _ hi.layout.tail_lt
  split_ifs with hne
  · refine hi.producer_block hb.loadFront (fun _ _ => rfl) rfl rfl rfl ?_
    simpa [ProducerOk] using hne
  · refine hi.producer_block hb.loadFront (fun _ _ => rfl) rfl rfl rfl ?_
    exact ⟨rfl,fun _ => hb.full_iff.mp (not_not.mp hne)⟩

theorem inv_construct {x : α} {t tail next : ℕ}
    (hi : Inv r q (.construct x t tail next) c sent received l k) :
    Inv r (q.setBlock t { q.blocks t with
        data := Function.update (q.blocks t).data tail (some x) })
      (.storeTail x t next) c sent received l k := by
  obtain ⟨rfl,rfl,rfl,hne⟩ := hi.producer
  have hb := (hi.blocks _ hi.layout.tail_lt).construct x
  refine hi.producer_block ?_ ?_ rfl rfl rfl ?_
  · simpa [Producer.putting] using hb
  · intro i hi
    simp [Producer.putting,hi.symm]
  · simpa [ProducerOk] using hne

theorem inv_loadFrontBlock {x : α} {t : ℕ}
    (hi : Inv r q (.loadFrontBlock x t) c sent received l k) :
    Inv r q (if (q.blocks t).next ≠ q.frontBlock then .loadNextFront x t else .returned false)
      c sent received l k := by
  obtain ⟨rfl,hfull⟩ := hi.producer
  have hnext := (hi.blocks _ hi.layout.tail_lt).next
  split_ifs with hne
  · rw [hnext] at hne
    exact hi.producer_point rfl rfl ⟨rfl,hfull,hi.layout.next_ne_front_iff.mp hne⟩
  · exact hi.producer_point rfl rfl trivial

theorem inv_loadNextFront {x : α} {t : ℕ}
    (hi : Inv r q (.loadNextFront x t) c sent received l k) :
    Inv r (q.setBlock (q.blocks t).next { q.blocks (q.blocks t).next with
        localFront := (q.blocks (q.blocks t).next).front })
      (if (q.blocks (q.blocks t).next).front = (q.blocks (q.blocks t).next).tail then
        .constructNext x (q.blocks t).next (q.blocks (q.blocks t).next).tail
      else .assertionFailed) c sent received l k := by
  obtain ⟨rfl,hfull,hk⟩ := hi.producer
  rw [(hi.blocks _ hi.layout.tail_lt).next]
  have hb := hi.blocks (slot r.count q.tailBlock 1) (slot_lt r.count_pos _ _)
  have hnil : l (slot r.count q.tailBlock 1) = [] := hi.layout.next_ahead hk
  have heq := hb.front_eq_tail_iff.mpr hnil
  rw [if_pos heq]
  refine hi.producer_block hb.loadFront (fun _ _ => rfl) rfl rfl rfl ⟨rfl,hfull,hk,by simp,?_⟩
  intro hsame
  have hone := hb.full_iff.mp (by simpa using hsame)
  rw [hnil] at hone
  have hwide := r.wide (by omega)
  rw [List.length_nil] at hone
  omega

theorem inv_constructNext {x : α} {n tail : ℕ}
    (hi : Inv r q (.constructNext x n tail) c sent received l k) :
    Inv r (q.setBlock n { q.blocks n with
        data := Function.update (q.blocks n).data tail (some x) })
      (.storeNextTail x n tail) c sent received l k := by
  obtain ⟨rfl,hfull,hk,rfl,hne⟩ := hi.producer
  have hb := (hi.blocks _ (slot_lt r.count_pos q.tailBlock 1)).construct x
  refine hi.producer_block ?_ ?_ rfl rfl rfl ?_
  · simpa [Producer.putting] using hb
  · intro i hi
    simp [Producer.putting,hi.symm]
  · exact ⟨rfl,hfull,hk,by simp,by simpa using hne⟩

theorem inv_storeTail {x : α} {t next : ℕ}
    (hi : Inv r q (.storeTail x t next) c sent received l k) :
    Inv r (q.setBlock t { q.blocks t with tail := next }) (.returned true) c (sent++[x]) received
      (Function.update l t (l t++[x])) k := by
  obtain ⟨rfl,rfl,hne⟩ := hi.producer
  have hl := hi.layout
  have hb := hi.blocks _ hl.tail_lt
  simp only [Producer.putting,if_true] at hb
  refine ⟨holds_set hi.blocks ?_ ?_,hl.push x,?_,trivial,
    hi.consumer.frame rfl (setBlock_consumer rfl rfl) le_rfl ?_ ?_⟩
  · simpa [Producer.putting] using hb.storeTail hne
  · intro i hi
    simp [hi,hi.symm,Producer.putting]
  · have hpush := gather_push (c := l) hl.front_lt hl.k_lt [x]
    rw [← hl.tail_eq] at hpush
    rw [setBlock_frontBlock,hpush,hi.order,List.append_assoc]
  · intro hk
    rw [Function.update_of_ne (hl.tail_ne_front_iff.mpr hk).symm]
  · by_cases hsame : q.frontBlock = q.tailBlock
    · simp [hsame]
    · simp [Function.update_of_ne hsame]

theorem inv_storeNextTail {x : α} {n tail : ℕ}
    (hi : Inv r q (.storeNextTail x n tail) c sent received l k) :
    Inv r (q.setBlock n { q.blocks n with tail := (tail+1) &&& (q.blocks n).sizeMask })
      (.storeTailBlock x n) c sent received (Function.update l n [x]) k := by
  obtain ⟨rfl,hfull,hk,rfl,hne⟩ := hi.producer
  have hl := hi.layout
  have hb := hi.blocks _ (slot_lt r.count_pos q.tailBlock 1)
  have hnil : l (slot r.count q.tailBlock 1) = [] := hl.next_ahead hk
  have hmask := slot_mask (q.blocks (slot r.count q.tailBlock 1)).tail r.size_eq
  rw [← hb.sizeMask] at hmask
  have hfront := Function.update_of_ne (hl.next_ne_front_iff.mpr hk).symm [x] l
  have htail : Function.update l (slot r.count q.tailBlock 1) [x] q.tailBlock = l q.tailBlock := by
    have hslot := hl.update_slot hl.k_lt hk (by omega) [x]
    rwa [← hl.next_eq,← hl.tail_eq] at hslot
  simp only [Producer.putting,if_true,hnil] at hb
  rw [hmask]
  refine ⟨holds_set hi.blocks ?_ ?_,hl.stage hk x,?_,⟨rfl,?_,hk⟩,
    hi.consumer.frame rfl (setBlock_consumer rfl rfl) le_rfl (fun _ => hfront) ?_⟩
  · simpa [Producer.putting] using hb.storeTail hne
  · intro i hi
    simp [hi,hi.symm,Producer.putting]
  · rw [hi.order,hl.next_eq]
    congr 1
    apply gather_congr
    intro j hj
    exact (hl.update_slot (by omega) hk (by omega) [x]).symm
  · rwa [setBlock_tailBlock,htail]
  · rw [hfront]

/-- The block ahead joins the blocks in use. -/
theorem inv_storeTailBlock {x : α} {n : ℕ}
    (hi : Inv r q (.storeTailBlock x n) c sent received l k) :
    Inv r { q with tailBlock := n } (.returned true) c (sent++[x]) received l (k+1) := by
  obtain ⟨rfl,hfull,hk⟩ := hi.producer
  have hl := hi.layout
  have hnext : l (slot r.count q.tailBlock 1) = [x] := hl.next_ahead hk
  refine ⟨hi.blocks,hl.extend (by simp [Producer.pending]) hfull hk,?_,trivial,
    hi.consumer.frame rfl (fun _ => ⟨rfl,rfl⟩) (by omega) (fun _ => rfl) (List.prefix_refl _)⟩
  rw [gather_succ,← hl.next_eq,hnext,hi.order,List.append_assoc]

end Producer

section Consumer

variable {r : Ring} {q : Queue α} {p : Producer α} {sent received : List α} {l : ℕ → List α}
  {k : ℕ}

theorem Inv.consumer_point {c c' : Consumer α} (hi : Inv r q p c sent received l k)
    (htake : c'.taking = c.taking) (hok : ConsumerOk r q l k c') :
    Inv r q p c' sent received l k := by
  obtain ⟨hb,hl,ho,hp,-⟩ := hi
  exact ⟨by simpa only [htake] using hb,hl,ho,hp,hok⟩

theorem Inv.consumer_block {c c' : Consumer α} {t : ℕ} {b : Block α}
    (hi : Inv r q p c sent received l k)
    (hb : Holds r t b (l t) (c'.taking t) (p.putting t))
    (hother : ∀ i, i ≠ t → c'.taking i = c.taking i)
    (htail : b.tail = (q.blocks t).tail) (hfront : b.localFront = (q.blocks t).localFront)
    (hok : ConsumerOk r (q.setBlock t b) l k c') :
    Inv r (q.setBlock t b) p c' sent received l k := by
  obtain ⟨hblocks,hl,ho,hp,-⟩ := hi
  exact ⟨holds_set hblocks hb fun i hne => ⟨rfl,hother i hne,rfl⟩,hl,ho,
    hp.frame rfl (setBlock_producer htail hfront) le_rfl (fun _ => rfl),hok⟩

theorem Inv.front (hi : Inv r q p c sent received l k) :
    Holds r q.frontBlock (q.blocks q.frontBlock) (l q.frontBlock) (c.taking q.frontBlock)
      (p.putting q.frontBlock) :=
  hi.blocks _ hi.layout.front_lt

theorem inv_tryDequeue {c : Consumer α} (hi : Inv r q p c sent received l k)
    (hrest : c.resting = true) : Inv r q p (tryDequeue q) sent received l k := by
  have htake : c.taking = fun _ => false := by
    funext i
    cases c <;> simp_all [Consumer.resting,Consumer.taking]
  apply hi.consumer_point
  · rw [htake]
    funext i
    simp only [tryDequeue]
    split_ifs <;> rfl
  · simp only [tryDequeue]
    split_ifs with hne
    · exact ⟨rfl,rfl,hne⟩
    · exact ⟨rfl,rfl⟩

theorem inv_sizeApprox {c : Consumer α} (hi : Inv r q p c sent received l k)
    (hrest : c.resting = true) :
    Inv r q p (.sizing q.frontBlock q.frontBlock 0) sent received l k := by
  apply hi.consumer_point
  · funext i
    cases c <;> simp_all [Consumer.resting,Consumer.taking]
  · exact ⟨rfl,hi.layout.front_lt⟩

theorem inv_loadTail {f front : ℕ} (hi : Inv r q p (.loadTail f front) sent received l k) :
    Inv r (q.setBlock f { q.blocks f with localTail := (q.blocks f).tail }) p
      (if front ≠ (q.blocks f).tail then .take f front else .loadTailBlock f)
      sent received l k := by
  obtain ⟨rfl,rfl⟩ := hi.consumer
  have hb := hi.front
  split_ifs with hne
  · refine hi.consumer_block hb.loadTail (fun _ _ => rfl) rfl rfl ?_
    simpa [ConsumerOk] using hne
  · exact hi.consumer_block hb.loadTail (fun _ _ => rfl) rfl rfl rfl

theorem inv_loadTailBlock {f : ℕ} (hi : Inv r q p (.loadTailBlock f) sent received l k) :
    Inv r q p (if f ≠ q.tailBlock then .reloadTail else .returned none) sent received l k := by
  obtain rfl := hi.consumer
  split_ifs with hne
  · exact hi.consumer_point rfl (hi.layout.tail_ne_front_iff.mp (Ne.symm hne))
  · exact hi.consumer_point rfl trivial

theorem inv_reloadTail (hi : Inv r q p .reloadTail sent received l k) :
    Inv r (q.setBlock q.frontBlock { q.blocks q.frontBlock with
        localTail := (q.blocks q.frontBlock).tail }) p
      (if (q.blocks q.frontBlock).front ≠ (q.blocks q.frontBlock).tail then
        .take q.frontBlock (q.blocks q.frontBlock).front
      else .loadNextTail q.frontBlock) sent received l k := by
  have hpos : 0 < k := hi.consumer
  have hb := hi.front
  split_ifs with hne
  · refine hi.consumer_block hb.loadTail (fun _ _ => rfl) rfl rfl ?_
    simpa [ConsumerOk] using hne
  · refine hi.consumer_block hb.loadTail (fun _ _ => rfl) rfl rfl ⟨rfl,hpos,?_⟩
    exact hb.front_eq_tail_iff.mp (not_not.mp hne)

theorem Layout.second_ne_nil {front tail : ℕ} {pending : List α}
    (h : Layout r front tail l k pending) (hpos : 0 < k) : l (slot r.count front 1) ≠ [] := by
  have hk := h.k_lt
  rcases Nat.lt_or_ge 1 k with hlt | hge
  · have hfull := h.full 1 (by omega) hlt
    have hwide := r.wide (by omega)
    intro hnil
    rw [hnil,List.length_nil] at hfull
    omega
  · have hone : k = 1 := by omega
    rw [← hone,← h.tail_eq]
    exact h.reached hpos

theorem inv_loadNextTail {f : ℕ} (hi : Inv r q p (.loadNextTail f) sent received l k) :
    Inv r (q.setBlock (q.blocks f).next { q.blocks (q.blocks f).next with
        localTail := (q.blocks (q.blocks f).next).tail }) p
      (if (q.blocks (q.blocks f).next).front ≠ (q.blocks (q.blocks f).next).tail then
        .storeFrontBlock (q.blocks f).next (q.blocks (q.blocks f).next).front
      else .assertionFailed) sent received l k := by
  obtain ⟨rfl,hpos,hnil⟩ := hi.consumer
  have hsecond := hi.layout.second_ne_nil hpos
  rw [hi.front.next]
  have hb := hi.blocks (slot r.count q.frontBlock 1) (slot_lt r.count_pos _ _)
  have hne : (q.blocks (slot r.count q.frontBlock 1)).front ≠
      (q.blocks (slot r.count q.frontBlock 1)).tail := by
    rwa [Ne,hb.front_eq_tail_iff]
  rw [if_pos hne]
  refine hi.consumer_block hb.loadTail (fun _ _ => rfl) rfl rfl ⟨rfl,hpos,hnil,by simp,?_⟩
  simpa using hne

/-- The consumer leaves an empty block for the next one. -/
theorem inv_storeFrontBlock {n front : ℕ}
    (hi : Inv r q p (.storeFrontBlock n front) sent received l (k+1)) :
    Inv r { q with frontBlock := n } p (.take n front) sent received l k := by
  obtain ⟨rfl,hpos,hnil,rfl,hne⟩ := hi.consumer
  have hl := hi.layout
  refine ⟨hi.blocks,hl.advance hnil ?_,?_,?_,⟨rfl,rfl,hne⟩⟩
  · intro hpend
    have hp := hi.producer
    cases p with
    | storeTailBlock x n =>
      have := hp.2.2
      omega
    | _ => exact absurd rfl hpend
  · rw [hi.order,gather_step hl.front_lt,hnil,List.nil_append]
  · exact hi.producer.frame rfl (fun _ => ⟨rfl,rfl⟩) (by omega) fun _ => rfl

theorem inv_take {f front : ℕ} (hi : Inv r q p (.take f front) sent received l k) :
    ∃ x, (q.blocks f).data front = some x ∧
      Inv r (q.setBlock f { q.blocks f with
          data := Function.update (q.blocks f).data front none }) p
        (.storeFront f front x) sent received l k := by
  obtain ⟨rfl,rfl,hne⟩ := hi.consumer
  have hb := hi.front
  obtain ⟨x,xs,hx,-⟩ := hb.cons_of_localTail hne
  rw [hx] at hb
  obtain ⟨hdata,htaken⟩ := hb.take
  refine ⟨x,hdata,hi.consumer_block ?_ ?_ rfl rfl ⟨rfl,by simp,by simpa using hne,by simp [hx]⟩⟩
  · simpa [Consumer.taking,hx] using htaken
  · intro i hi
    simp [Consumer.taking,hi.symm]

theorem inv_storeFront {f front : ℕ} {x : α}
    (hi : Inv r q p (.storeFront f front x) sent received l k) :
    Inv r (q.setBlock f { q.blocks f with front := (front+1) &&& (q.blocks f).sizeMask }) p
      (.returned (some x)) sent (received++[x]) (Function.update l f (l f).tail) k := by
  obtain ⟨rfl,rfl,hne,hhead⟩ := hi.consumer
  have hl := hi.layout
  have hb := hi.front
  have hmask := slot_mask (q.blocks q.frontBlock).front r.size_eq
  rw [← hb.sizeMask] at hmask
  obtain ⟨xs,hx⟩ : ∃ xs, l q.frontBlock = x::xs := ⟨_,List.eq_cons_of_mem_head? hhead⟩
  simp only [hx,Consumer.taking,beq_self_eq_true] at hb
  rw [hmask,hx,List.tail_cons]
  refine ⟨holds_set hi.blocks ?_ ?_,hl.pop xs,?_,?_,trivial⟩
  · simpa [Consumer.taking] using hb.storeFront hne
  · intro i hi
    simp [hi,hi.symm,Consumer.taking]
  · rw [hi.order,gather_pop hl.front_lt hl.k_lt hx,List.append_assoc]
    rfl
  · refine hi.producer.frame rfl (setBlock_producer rfl rfl) le_rfl fun hk => ?_
    rw [Function.update_of_ne (hl.tail_ne_front_iff.mpr hk)]

theorem inv_sizing {f block result : ℕ}
    (hi : Inv r q p (.sizing f block result) sent received l k) (result' : ℕ) :
    Inv r q p (if (q.blocks block).next ≠ f then .sizing f (q.blocks block).next result'
      else .sized result') sent received l k := by
  obtain ⟨rfl,hlt⟩ := hi.consumer
  split_ifs with hne
  · refine hi.consumer_point rfl ⟨rfl,?_⟩
    rw [(hi.blocks block hlt).next]
    exact slot_lt r.count_pos _ _
  · exact hi.consumer_point rfl trivial

end Consumer

theorem prefix_update (l : ℕ → List α) {t : ℕ} {xs : List α} (h : l t <+: xs) (i : ℕ) :
    l i <+: Function.update l t xs i := by
  by_cases ht : i = t
  · rw [ht,Function.update_self]
    exact h
  · rw [Function.update_of_ne ht]

/-- A step of the producer keeps the invariant, the front block, and what the blocks
already hold. -/
theorem inv_producerStep {r : Ring} {q q' : Queue α} {p p' : Producer α} {c : Consumer α}
    {sent received : List α} {l : ℕ → List α} {k : ℕ} (hi : Inv r q p c sent received l k)
    (h : producerStep q p = some (q',p')) :
    ∃ l' k', Inv r q' p' c (sent++p.publishes) received l' k' ∧
      q'.frontBlock = q.frontBlock ∧ ∀ i, l i <+: l' i := by
  have hsame : ∀ i, l i <+: l i := fun i => List.prefix_refl _
  cases p with
  | loadFront x t tail next =>
    cases h
    exact ⟨l,k,by simpa [Producer.publishes] using inv_loadFront hi,rfl,hsame⟩
  | construct x t tail next =>
    cases h
    exact ⟨l,k,by simpa [Producer.publishes] using inv_construct hi,rfl,hsame⟩
  | storeTail x t next =>
    cases h
    exact ⟨_,k,inv_storeTail hi,rfl,prefix_update l (List.prefix_append _ _)⟩
  | loadFrontBlock x t =>
    cases h
    exact ⟨l,k,by simpa [Producer.publishes] using inv_loadFrontBlock hi,rfl,hsame⟩
  | loadNextFront x t =>
    cases h
    exact ⟨l,k,by simpa [Producer.publishes] using inv_loadNextFront hi,rfl,hsame⟩
  | constructNext x n tail =>
    cases h
    exact ⟨l,k,by simpa [Producer.publishes] using inv_constructNext hi,rfl,hsame⟩
  | storeNextTail x n tail =>
    cases h
    obtain ⟨rfl,-,hk,-⟩ := hi.producer
    have hnil : l (slot r.count q.tailBlock 1) = [] := hi.layout.next_ahead hk
    exact ⟨_,k,by simpa [Producer.publishes] using inv_storeNextTail hi,rfl,
      prefix_update l (by simp [hnil])⟩
  | storeTailBlock x n =>
    cases h
    exact ⟨l,k+1,inv_storeTailBlock hi,rfl,hsame⟩
  | idle => cases h
  | returned result => cases h
  | assertionFailed => cases h

theorem inv_consumerStep {r : Ring} {q q' : Queue α} {p : Producer α} {c c' : Consumer α}
    {sent received : List α} {l : ℕ → List α} {k : ℕ} (hi : Inv r q p c sent received l k)
    (h : consumerStep q c = some (q',c')) :
    ∃ l' k', Inv r q' p c' sent (received++c.delivers) l' k' := by
  cases c with
  | loadTail f front =>
    cases h
    exact ⟨l,k,by simpa [Consumer.delivers] using inv_loadTail hi⟩
  | loadTailBlock f =>
    cases h
    exact ⟨l,k,by simpa [Consumer.delivers] using inv_loadTailBlock hi⟩
  | reloadTail =>
    cases h
    exact ⟨l,k,by simpa [Consumer.delivers] using inv_reloadTail hi⟩
  | loadNextTail f =>
    cases h
    exact ⟨l,k,by simpa [Consumer.delivers] using inv_loadNextTail hi⟩
  | storeFrontBlock n front =>
    cases h
    cases k with
    | zero => exact absurd hi.consumer.2.1 (by omega)
    | succ k => exact ⟨l,k,by simpa [Consumer.delivers] using inv_storeFrontBlock hi⟩
  | take f front =>
    obtain ⟨x,hx,hnext⟩ := inv_take hi
    simp only [consumerStep,hx,Option.some.injEq,Prod.mk.injEq] at h
    obtain ⟨rfl,rfl⟩ := h
    exact ⟨l,k,by simpa [Consumer.delivers] using hnext⟩
  | storeFront f front x =>
    cases h
    exact ⟨_,k,inv_storeFront hi⟩
  | sizing f block result =>
    cases h
    exact ⟨l,k,by simpa [Consumer.delivers] using inv_sizing hi _⟩
  | idle => cases h
  | returned result => cases h
  | sized result => cases h
  | assertionFailed => cases h
  | emptySlot => cases h

def Channel.Ok (r : Ring) (s : Channel α) : Prop :=
  ∃ l k, Inv r s.queue s.producer s.consumer s.sent s.received l k

theorem ok_step {r : Ring} {s t : Channel α} {e : Event α} (hi : s.Ok r)
    (h : step s e = some t) : t.Ok r := by
  obtain ⟨l,k,hi⟩ := hi
  cases e with
  | enqueue x =>
    simp only [step] at h
    split_ifs at h with hrest
    obtain rfl := Option.some.inj h
    exact ⟨l,k,inv_tryEnqueue hi hrest x⟩
  | producer =>
    obtain ⟨⟨q,p⟩,hstep,rfl⟩ := Option.map_eq_some_iff.mp h
    obtain ⟨l',k',hi',-⟩ := inv_producerStep hi hstep
    exact ⟨l',k',hi'⟩
  | dequeue =>
    simp only [step] at h
    split_ifs at h with hrest
    obtain rfl := Option.some.inj h
    exact ⟨l,k,inv_tryDequeue hi hrest⟩
  | sizeApprox =>
    simp only [step] at h
    split_ifs at h with hrest
    obtain rfl := Option.some.inj h
    exact ⟨l,k,inv_sizeApprox hi hrest⟩
  | consumer =>
    obtain ⟨⟨q,c⟩,hstep,rfl⟩ := Option.map_eq_some_iff.mp h
    exact inv_consumerStep hi hstep

theorem ok_start (maxQueueSize : UInt32) :
    ∃ r : Ring, maxQueueSize.toNat ≤ r.capacity ∧ (start maxQueueSize : Channel α).Ok r := by
  obtain ⟨r,hcap,hi⟩ := inv_start (α := α) maxQueueSize
  exact ⟨r,hcap,_,_,hi⟩

theorem ok_exec {r : Ring} {s t : Channel α} {es : List (Event α)} (hs : s.Ok r)
    (h : Exec step s es t) : t.Ok r :=
  h.invariant (A := fun _ => True) (fun _ _ _ hs _ hstep => ok_step hs hstep) hs (by simp)

end ReaderWriterQueue
end CloudServer
