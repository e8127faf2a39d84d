import CloudServer.QueueInvariant

/-! What a caller of the queue can rely on: elements come out once and in order, and a
call that fails, or reports a size, describes a moment at which it was under way. -/
namespace CloudServer
namespace ReaderWriterQueue

open Rings Execution

variable {α : Type}

/-- The queue is first-in first-out in every interleaving, whatever size it was asked
for: what came out is a prefix of what went in, no assertion of either thread fails, and
nothing is moved out of a slot that holds no element. -/
theorem queue_is_fifo (maxQueueSize : UInt32) (es : List (Event α)) (s : Channel α)
    (h : Exec step (start maxQueueSize) es s) :
    s.received <+: s.sent ∧ s.producer ≠ .assertionFailed ∧ s.consumer ≠ .assertionFailed ∧
      s.consumer ≠ .emptySlot := by
  obtain ⟨r,-,hstart⟩ := ok_start (α := α) maxQueueSize
  obtain ⟨l,k,hi⟩ := ok_exec hstart h
  refine ⟨⟨_,hi.order.symm⟩,?_,?_,?_⟩
  · intro hp
    have := hi.producer
    rwa [hp] at this
  · intro hc
    have := hi.consumer
    rwa [hc] at this
  · intro hc
    have := hi.consumer
    rwa [hc] at this

def overlap : List (Event ℕ) :=
  [.enqueue 7,.producer,.producer,.enqueue 8,.dequeue,.consumer,.consumer,.producer,.producer,
    .consumer,.dequeue,.consumer]

theorem queue_is_fifo_overlap :
    ∃ s, Exec step (start 3) overlap s ∧ s.sent = [7,8] ∧ s.received = [7] ∧
      s.received <+: s.sent := by
  have hrun : (run step (start 3) overlap).map (fun s => (s.sent,s.received)) =
      some ([7,8],[7]) := by decide
  obtain ⟨s,hs,hend⟩ := Exec.of_run_map _ hrun
  exact ⟨s,hs,congrArg Prod.fst hend,congrArg Prod.snd hend,(queue_is_fifo 3 _ s hs).1⟩

section Failing

variable {r : Ring} {q : Queue α} {p : Producer α} {c : Consumer α} {sent received : List α}
  {l : ℕ → List α} {k : ℕ}

theorem Inv.received_all (hi : Inv r q p c sent received l k)
    (hfront : (q.blocks q.frontBlock).front = (q.blocks q.frontBlock).tail)
    (hsame : q.tailBlock = q.frontBlock) : sent = received := by
  have hzero : k = 0 := by
    by_contra hk
    exact hi.layout.tail_ne_front_iff.mpr (by omega) hsame
  have hnil := hi.front.front_eq_tail_iff.mp hfront
  rw [hi.order,hzero]
  simp [gather,slot_zero hi.layout.front_lt,hnil]

/-- When the ring has come round and its tail block is full, so are all blocks that the
consumer has not reached. -/
theorem Layout.capacity_le {front tail : ℕ} {pending : List α}
    (h : Layout r front tail l k pending) (hall : ¬ k+1 < r.count)
    (hfull : (l tail).length+1 = r.size) : r.capacity ≤ (gather r.count l front k).length := by
  have hk := h.k_lt
  have hcount : r.count = k+1 := by omega
  rw [gather_length,Finset.sum_range_succ,← h.tail_eq,Ring.capacity,hcount]
  cases k with
  | zero =>
    simp
    omega
  | succ k =>
    have hmiddle : ∀ j ∈ Finset.range k,
        (l (slot r.count front (j+1))).length = r.size-1 := by
      intro j hj
      have := h.full (j+1) (by omega) (by simpa using hj)
      omega
    rw [Finset.sum_range_succ',← hcount,Finset.sum_congr rfl hmiddle,Finset.sum_const,
      Finset.card_range,if_neg (by omega),hcount,smul_eq_mul]
    have hsucc : (k+1+1-1)*(r.size-1) = k*(r.size-1)+(r.size-1) := by
      rw [Nat.add_sub_cancel,Nat.succ_mul]
    omega

theorem Inv.next_front_iff (hi : Inv r q p c sent received l k) :
    (q.blocks q.tailBlock).next = q.frontBlock ↔ ¬ k+1 < r.count := by
  rw [(hi.blocks _ hi.layout.tail_lt).next,← hi.layout.next_ne_front_iff,not_not]

/-- The consumer has found its block empty and it is the tail block. -/
def SeenEmpty (q : Queue α) (c : Consumer α) : Prop :=
  (c = .loadTailBlock q.frontBlock ∧ q.tailBlock = q.frontBlock) ∨ c = .returned none

theorem seenEmpty_producer {q' : Queue α} {p' : Producer α} (hi : Inv r q p c sent received l k)
    (h : producerStep q p = some (q',p')) (ht : SeenEmpty q' c) : SeenEmpty q c := by
  obtain ⟨-,-,-,hfront,-⟩ := inv_producerStep hi h
  have htail : q'.tailBlock = q'.frontBlock → q.tailBlock = q.frontBlock := by
    intro hsame
    cases p with
    | storeTailBlock x n =>
      cases h
      obtain ⟨rfl,-,hk⟩ := hi.producer
      exact absurd hsame (hi.layout.next_ne_front_iff.mpr hk)
    | idle => cases h
    | returned result => cases h
    | assertionFailed => cases h
    | _ =>
      cases h
      exact hsame
  rw [SeenEmpty,hfront] at ht
  exact ht.imp_left fun hc => ⟨hc.1,htail (hc.2.trans hfront.symm)⟩

theorem seenEmpty_consumer {q' : Queue α} {c' : Consumer α} (hi : Inv r q p c sent received l k)
    (h : consumerStep q c = some (q',c')) (ht : SeenEmpty q' c') :
    SeenEmpty q c ∨ sent = received := by
  cases c with
  | loadTail f front =>
    cases h
    obtain ⟨rfl,rfl⟩ := hi.consumer
    by_cases hne : (q.blocks q.frontBlock).front = (q.blocks q.frontBlock).tail
    · rcases ht with ⟨-,hsame⟩ | hc
      · exact .inr (hi.received_all hne hsame)
      · simp [hne] at hc
    · simp [SeenEmpty,hne] at ht
  | loadTailBlock f =>
    cases h
    obtain rfl := hi.consumer
    by_cases hne : q.frontBlock = q.tailBlock
    · exact .inl (.inl ⟨rfl,hne.symm⟩)
    · simp [SeenEmpty,hne] at ht
  | take f front =>
    obtain ⟨x,hx,-⟩ := inv_take hi
    simp only [consumerStep,hx,Option.some.injEq,Prod.mk.injEq] at h
    obtain ⟨rfl,rfl⟩ := h
    simp [SeenEmpty] at ht
  | reloadTail =>
    cases h
    simp only [SeenEmpty] at ht
    split_ifs at ht <;> simp at ht
  | loadNextTail f =>
    cases h
    simp only [SeenEmpty] at ht
    split_ifs at ht <;> simp at ht
  | storeFrontBlock n front =>
    cases h
    simp [SeenEmpty] at ht
  | storeFront f front x =>
    cases h
    simp [SeenEmpty] at ht
  | sizing f block result =>
    cases h
    simp only [SeenEmpty] at ht
    split_ifs at ht <;> simp at ht
  | idle => cases h
  | returned result => cases h
  | sized result => cases h
  | assertionFailed => cases h
  | emptySlot => cases h

theorem seenEmpty_step {s t : Channel α} {e : Event α} (hi : s.Ok r)
    (he : e ≠ .dequeue ∧ e ≠ .sizeApprox) (h : step s e = some t)
    (ht : SeenEmpty t.queue t.consumer) :
    SeenEmpty s.queue s.consumer ∨ s.sent = s.received := by
  obtain ⟨l,k,hi⟩ := hi
  cases e with
  | enqueue x =>
    simp only [step] at h
    split_ifs at h
    obtain rfl := Option.some.inj h
    exact .inl ht
  | producer =>
    obtain ⟨⟨q,p⟩,hstep,rfl⟩ := Option.map_eq_some_iff.mp h
    exact .inl (seenEmpty_producer hi hstep ht)
  | dequeue => exact absurd rfl he.1
  | sizeApprox => exact absurd rfl he.2
  | consumer =>
    obtain ⟨⟨q,c⟩,hstep,rfl⟩ := Option.map_eq_some_iff.mp h
    exact seenEmpty_consumer hi hstep ht

/-- The producer has found its block full and no free block behind it. -/
def SeenFull (q : Queue α) (p : Producer α) : Prop :=
  (∃ x, p = .loadFrontBlock x q.tailBlock ∧ (q.blocks q.tailBlock).next = q.frontBlock) ∨
    p = .returned false

theorem seenFull_producer {q' : Queue α} {p' : Producer α} (hi : Inv r q p c sent received l k)
    (h : producerStep q p = some (q',p')) (ht : SeenFull q' p') :
    SeenFull q p ∨ received.length+r.capacity ≤ sent.length := by
  cases p with
  | loadFront x t tail next =>
    cases h
    obtain ⟨rfl,rfl,rfl⟩ := hi.producer
    have hb := hi.blocks _ hi.layout.tail_lt
    by_cases hne : slot r.size (q.blocks q.tailBlock).tail 1 = (q.blocks q.tailBlock).front
    · rcases ht with ⟨x,-,hnext⟩ | hp
      · have hall := hi.next_front_iff.mp (by simpa using hnext)
        have hcap := hi.layout.capacity_le hall (hb.full_iff.mp hne)
        rw [hi.order,List.length_append]
        exact .inr (by omega)
      · simp [hne] at hp
    · simp [SeenFull,hne] at ht
  | loadFrontBlock x t =>
    cases h
    obtain ⟨rfl,-⟩ := hi.producer
    by_cases hne : (q.blocks q.tailBlock).next = q.frontBlock
    · exact .inl (.inl ⟨x,rfl,hne⟩)
    · simp [SeenFull,hne] at ht
  | construct x t tail next =>
    cases h
    simp [SeenFull] at ht
  | storeTail x t next =>
    cases h
    simp [SeenFull] at ht
  | loadNextFront x t =>
    cases h
    simp only [SeenFull] at ht
    split_ifs at ht <;> simp at ht
  | constructNext x n tail =>
    cases h
    simp [SeenFull] at ht
  | storeNextTail x n tail =>
    cases h
    simp [SeenFull] at ht
  | storeTailBlock x n =>
    cases h
    simp [SeenFull] at ht
  | idle => cases h
  | returned result => cases h
  | assertionFailed => cases h

theorem seenFull_consumer {q' : Queue α} {c' : Consumer α} (hi : Inv r q p c sent received l k)
    (h : consumerStep q c = some (q',c')) (ht : SeenFull q' p) : SeenFull q p := by
  obtain ⟨l',k',hi'⟩ := inv_consumerStep hi h
  have hsame : q'.tailBlock = q.tailBlock ∧
      ((q'.blocks q'.tailBlock).next = q'.frontBlock → q'.frontBlock = q.frontBlock) := by
    cases c with
    | storeFrontBlock n front =>
      cases h
      refine ⟨rfl,fun hnext => ?_⟩
      cases k with
      | zero => exact absurd hi.consumer.2.1 (by omega)
      | succ k =>
        have hall := (inv_storeFrontBlock hi).next_front_iff.mp hnext
        exact absurd hi.layout.k_lt hall
    | take f front =>
      obtain ⟨x,hx,-⟩ := inv_take hi
      simp only [consumerStep,hx,Option.some.injEq,Prod.mk.injEq] at h
      obtain ⟨rfl,rfl⟩ := h
      exact ⟨rfl,fun _ => rfl⟩
    | idle => cases h
    | returned result => cases h
    | sized result => cases h
    | assertionFailed => cases h
    | emptySlot => cases h
    | _ =>
      cases h
      exact ⟨rfl,fun _ => rfl⟩
  obtain ⟨htail,hfront⟩ := hsame
  rcases ht with ⟨x,hp,hnext⟩ | hp
  · refine .inl ⟨x,by rwa [← htail],?_⟩
    have hold := (hi.blocks _ hi.layout.tail_lt).next
    have hnew := (hi'.blocks _ hi'.layout.tail_lt).next
    rw [hold,← htail,← hnew,hnext,hfront hnext]
  · exact .inr hp

theorem seenFull_step {s t : Channel α} {e : Event α} (hi : s.Ok r)
    (he : ∀ x, e ≠ .enqueue x) (h : step s e = some t) (ht : SeenFull t.queue t.producer) :
    SeenFull s.queue s.producer ∨ s.received.length+r.capacity ≤ s.sent.length := by
  obtain ⟨l,k,hi⟩ := hi
  cases e with
  | enqueue x => exact absurd rfl (he x)
  | producer =>
    obtain ⟨⟨q,p⟩,hstep,rfl⟩ := Option.map_eq_some_iff.mp h
    exact seenFull_producer hi hstep ht
  | dequeue =>
    simp only [step] at h
    split_ifs at h
    obtain rfl := Option.some.inj h
    exact .inl ht
  | sizeApprox =>
    simp only [step] at h
    split_ifs at h
    obtain rfl := Option.some.inj h
    exact .inl ht
  | consumer =>
    obtain ⟨⟨q,c⟩,hstep,rfl⟩ := Option.map_eq_some_iff.mp h
    exact .inl (seenFull_consumer hi hstep ht)

end Failing

/-- `try_dequeue` returns false only if the queue was empty at a moment of the call. -/
theorem dequeue_fails_empty (maxQueueSize : UInt32) (es fs : List (Event α)) (s t : Channel α)
    (hs : Exec step (start maxQueueSize) es s) (h : Exec step s (.dequeue::fs) t)
    (hone : ∀ e ∈ fs, e ≠ .dequeue ∧ e ≠ .sizeApprox) (hret : t.consumer = .returned none) :
    ∃ fs₁ fs₂ u, fs = fs₁++fs₂ ∧ Exec step s (.dequeue::fs₁) u ∧ u.sent = u.received := by
  obtain ⟨r,-,hstart⟩ := ok_start (α := α) maxQueueSize
  have hok := ok_exec hstart hs
  cases h with
  | @succ _ s' _ _ _ hcall hrest =>
    have hbegin : ¬ SeenEmpty s'.queue s'.consumer := by
      simp only [step] at hcall
      split_ifs at hcall
      obtain rfl := Option.some.inj hcall
      simp only [SeenEmpty,tryDequeue]
      split_ifs <;> simp
    obtain ⟨fs₁,fs₂,u,rfl,h₁,hempty,-⟩ := hrest.passes (I := Channel.Ok r)
      (A := fun e => e ≠ .dequeue ∧ e ≠ .sizeApprox)
      (J := fun s => SeenEmpty s.queue s.consumer) (fun _ _ _ => ok_step)
      (fun _ _ _ hI hA hstep hJ => seenEmpty_step hI hA hstep hJ) (ok_step hok hcall) hone hbegin
      (.inr hret)
    exact ⟨fs₁,fs₂,u,rfl,.succ hcall h₁,hempty⟩

def late : List (Event ℕ) := [.consumer,.enqueue 7,.producer,.producer,.consumer]

theorem dequeue_fails_empty_late : ∃ t, Exec step (start 3) (.dequeue::late) t ∧ t.sent = [7] ∧
    ∃ fs₁ fs₂ u, late = fs₁++fs₂ ∧ Exec step (start 3) (.dequeue::fs₁) u ∧
      u.sent = u.received := by
  have hrun : (run step (start 3) (.dequeue::late)).map (fun s => s.sent) = some [7] := by decide
  obtain ⟨t,ht,hsent⟩ := Exec.of_run_map _ hrun
  have hret : (run step (start 3) (.dequeue::late)).map (fun s => s.consumer) =
      some (.returned none) := by rfl
  obtain ⟨t',ht',hret'⟩ := Exec.of_run_map _ hret
  obtain rfl := ht.deterministic ht'
  exact ⟨t,ht,hsent,dequeue_fails_empty 3 [] late _ t (.refl _) ht (by simp [late]) hret'⟩

/-- `try_enqueue` returns false only if as many elements as the queue was asked to have
room for were in it at a moment of the call. -/
theorem enqueue_fails_full (maxQueueSize : UInt32) (es fs : List (Event α)) (x : α)
    (s t : Channel α) (hs : Exec step (start maxQueueSize) es s)
    (h : Exec step s (.enqueue x::fs) t) (hone : ∀ e ∈ fs, ∀ y, e ≠ .enqueue y)
    (hret : t.producer = .returned false) :
    ∃ fs₁ fs₂ u, fs = fs₁++fs₂ ∧ Exec step s (.enqueue x::fs₁) u ∧
      u.received.length+maxQueueSize.toNat ≤ u.sent.length := by
  obtain ⟨r,hcap,hstart⟩ := ok_start (α := α) maxQueueSize
  have hok := ok_exec hstart hs
  cases h with
  | @succ _ s' _ _ _ hcall hrest =>
    have hbegin : ¬ SeenFull s'.queue s'.producer := by
      simp only [step] at hcall
      split_ifs at hcall
      obtain rfl := Option.some.inj hcall
      simp only [SeenFull,tryEnqueue]
      split_ifs <;> simp
    obtain ⟨fs₁,fs₂,u,rfl,h₁,hfull,-⟩ := hrest.passes (I := Channel.Ok r)
      (A := fun e => ∀ y, e ≠ .enqueue y) (J := fun s => SeenFull s.queue s.producer)
      (fun _ _ _ => ok_step)
      (fun _ _ _ hI hA hstep hJ => seenFull_step hI hA hstep hJ) (ok_step hok hcall) hone hbegin
      (.inr hret)
    exact ⟨fs₁,fs₂,u,rfl,.succ hcall h₁,by omega⟩

def tooLate : List (Event ℕ) :=
  [.producer,.dequeue,.consumer,.consumer,.consumer,.producer]

theorem enqueue_fails_full_too_late :
    ∃ s t, Exec step (start 1) [.enqueue 7,.producer,.producer] s ∧
      Exec step s (.enqueue 8::tooLate) t ∧ t.sent = t.received ∧
      ∃ fs₁ fs₂ u, tooLate = fs₁++fs₂ ∧ Exec step s (.enqueue 8::fs₁) u ∧
        u.received.length+1 ≤ u.sent.length := by
  have hrun : (run step (start 1) ([.enqueue 7,.producer,.producer]++.enqueue 8::tooLate)).map
      (fun s => (s.sent,s.received)) = some ([7],[7]) := by decide
  obtain ⟨t,hexec,hend⟩ := Exec.of_run_map _ hrun
  have hret : (run step (start 1)
      ([.enqueue 7,.producer,.producer]++.enqueue 8::tooLate)).map (fun s => s.producer) =
        some (.returned false) := by rfl
  obtain ⟨t',ht',hret'⟩ := Exec.of_run_map _ hret
  obtain rfl := hexec.deterministic ht'
  obtain ⟨s,hs,ht⟩ := hexec.of_append
  refine ⟨s,t,hs,ht,?_,enqueue_fails_full 1 _ tooLate 8 s t hs ht ?_ hret'⟩
  · exact (congrArg Prod.fst hend).trans (congrArg Prod.snd hend).symm
  · simp [tooLate]

section Sizing

variable {r : Ring} {q : Queue α} {p : Producer α} {c : Consumer α} {sent received : List α}
  {l : ℕ → List α} {k : ℕ}

def heldIn (r : Ring) (l : ℕ → List α) (front j : ℕ) : ℕ :=
  ∑ i ∈ Finset.range j, (l (slot r.count front i)).length

theorem heldIn_mono {l l' : ℕ → List α} (h : ∀ i, l i <+: l' i) (front j : ℕ) :
    heldIn r l front j ≤ heldIn r l' front j :=
  Finset.sum_le_sum fun _ _ => (h _).length_le

theorem Inv.heldIn_all (hi : Inv r q p c sent received l k) :
    received.length+heldIn r l q.frontBlock r.count =
      sent.length+if k+1 < r.count then p.pending.length else 0 := by
  have hk := hi.layout.k_lt
  have hahead : ∀ j, k < j → j < r.count →
      (l (slot r.count q.frontBlock j)).length = if j = k+1 then p.pending.length else 0 := by
    intro j hj hjn
    rw [hi.layout.ahead j hj hjn]
    split_ifs <;> rfl
  have hsplit : heldIn r l q.frontBlock r.count =
      (gather r.count l q.frontBlock k).length +
        ∑ j ∈ Finset.Ico (k+1) r.count, (l (slot r.count q.frontBlock j)).length := by
    rw [gather_length,heldIn,Finset.range_eq_Ico,Finset.range_eq_Ico]
    exact (Finset.sum_Ico_consecutive _ (by omega) (by omega)).symm
  have hrest : ∑ j ∈ Finset.Ico (k+1) r.count, (l (slot r.count q.frontBlock j)).length =
      if k+1 < r.count then p.pending.length else 0 := by
    rw [Finset.sum_congr rfl fun j hj => hahead j (by
      have := Finset.mem_Ico.mp hj
      omega) (Finset.mem_Ico.mp hj).2]
    simp
  rw [hsplit,hrest,hi.order,List.length_append]
  omega

/-- How far a walk of `size_approx` has come that began when the blocks held `l₀`. -/
def Walk (r : Ring) (l₀ : ℕ → List α) (front : ℕ) (s : Channel α) : Prop :=
  ∃ l k, Inv r s.queue s.producer s.consumer s.sent s.received l k ∧ (∀ i, l₀ i <+: l i) ∧
    s.queue.frontBlock = front ∧
    ((∃ j result, j < r.count ∧ s.consumer = .sizing front (slot r.count front j) result ∧
      heldIn r l₀ front j ≤ result ∧ result ≤ heldIn r l front j) ∨
    ∃ result, s.consumer = .sized result ∧ heldIn r l₀ front r.count ≤ result ∧
      result ≤ heldIn r l front r.count)

theorem walk_start {s t : Channel α}
    (hi : Inv r s.queue s.producer s.consumer s.sent s.received l k)
    (h : step s .sizeApprox = some t) : Walk r l s.queue.frontBlock t := by
  simp only [step] at h
  split_ifs at h with hrest
  obtain rfl := Option.some.inj h
  refine ⟨l,k,inv_sizeApprox hi hrest,fun _ => List.prefix_refl _,rfl,.inl ⟨0,0,?_⟩⟩
  simp [r.count_pos,slot_zero hi.layout.front_lt,heldIn]

theorem walk_producer {l₀ : ℕ → List α} {front : ℕ} {s t : Channel α} (hw : Walk r l₀ front s)
    (h : step s .producer = some t) : Walk r l₀ front t := by
  obtain ⟨l,k,hi,hl,hfront,hc⟩ := hw
  obtain ⟨⟨q,p⟩,hstep,rfl⟩ := Option.map_eq_some_iff.mp h
  obtain ⟨l',k',hi',hf,hmono⟩ := inv_producerStep hi hstep
  refine ⟨l',k',hi',fun i => (hl i).trans (hmono i),hf.trans hfront,?_⟩
  rcases hc with ⟨j,result,hj,hc,hlow,hhigh⟩ | ⟨result,hc,hlow,hhigh⟩
  · exact .inl ⟨j,result,hj,hc,hlow,hhigh.trans (heldIn_mono hmono _ _)⟩
  · exact .inr ⟨result,hc,hlow,hhigh.trans (heldIn_mono hmono _ _)⟩

theorem walk_consumer {l₀ : ℕ → List α} {front : ℕ} {s t : Channel α} (hw : Walk r l₀ front s)
    (h : step s .consumer = some t) : Walk r l₀ front t := by
  obtain ⟨l,k,hi,hl,rfl,hc⟩ := hw
  obtain ⟨⟨q,c⟩,hstep,rfl⟩ := Option.map_eq_some_iff.mp h
  rcases hc with ⟨j,result,hj,hc,hlow,hhigh⟩ | ⟨result,hc,-⟩
  · have hb := hi.blocks _ (slot_lt r.count_pos s.queue.frontBlock j)
    have hnext := hb.next
    rw [slot_slot] at hnext
    have hcount := hb.distance
    have hgrow := (hl (slot r.count s.queue.frontBlock j)).length_le
    rw [hc] at hi hstep
    simp only [consumerStep,hcount,hnext,Option.some.injEq,Prod.mk.injEq] at hstep
    obtain ⟨rfl,rfl⟩ := hstep
    have hinv := inv_sizing hi (result+(l (slot r.count s.queue.frontBlock j)).length)
    rw [hnext] at hinv
    refine ⟨l,k,by simpa [hc,Consumer.delivers] using hinv,hl,rfl,?_⟩
    have hlow' : heldIn r l₀ s.queue.frontBlock (j+1) ≤
        result+(l (slot r.count s.queue.frontBlock j)).length := by
      rw [heldIn,Finset.sum_range_succ]
      exact Nat.add_le_add hlow hgrow
    have hhigh' : result+(l (slot r.count s.queue.frontBlock j)).length ≤
        heldIn r l s.queue.frontBlock (j+1) := by
      rw [heldIn,Finset.sum_range_succ]
      exact Nat.add_le_add_right hhigh _
    have hinj := slot_inj hi.layout.front_lt (i := j+1) (j := 0)
    rcases Nat.lt_or_ge (j+1) r.count with hlt | hge
    · left
      refine ⟨j+1,_,hlt,if_pos ?_,hlow',hhigh'⟩
      have hne := hinj hlt r.count_pos
      rw [slot_zero hi.layout.front_lt] at hne
      rw [Ne,hne]
      omega
    · right
      have hend : j+1 = r.count := by omega
      rw [hend] at hlow' hhigh'
      refine ⟨_,if_neg ?_,hlow',hhigh'⟩
      rw [hend,slot_self hi.layout.front_lt,not_not]
  · rw [hc] at hstep
    cases hstep

theorem walk_step {l₀ : ℕ → List α} {front : ℕ} {s t : Channel α} {e : Event α}
    (hw : Walk r l₀ front s) (he : e ≠ .dequeue ∧ e ≠ .sizeApprox) (h : step s e = some t) :
    Walk r l₀ front t := by
  cases e with
  | enqueue x =>
    simp only [step] at h
    split_ifs at h with hrest
    obtain rfl := Option.some.inj h
    obtain ⟨l,k,hi,hl⟩ := hw
    exact ⟨l,k,inv_tryEnqueue hi hrest x,hl⟩
  | producer => exact walk_producer hw h
  | dequeue => exact absurd rfl he.1
  | sizeApprox => exact absurd rfl he.2
  | consumer => exact walk_consumer hw h

/-- A walk that has come round has counted what was there when it began, and no more
than what is there when it ends. -/
theorem walk_sized {q₀ : Queue α} {p₀ : Producer α} {c₀ : Consumer α} {sent₀ received₀ : List α}
    {l₀ : ℕ → List α} {k₀ n : ℕ} {t : Channel α}
    (hi₀ : Inv r q₀ p₀ c₀ sent₀ received₀ l₀ k₀) (hw : Walk r l₀ q₀.frontBlock t)
    (hret : t.consumer = .sized n) :
    sent₀.length ≤ received₀.length+n ∧
      t.received.length+n ≤ t.sent.length+t.producer.pending.length := by
  obtain ⟨l,k,hi,-,hfront,hc⟩ := hw
  obtain ⟨n',hc,hlow,hhigh⟩ := hc.resolve_left fun ⟨j,result,_,hc,_⟩ => by simp [hc] at hret
  obtain rfl : n' = n := by simpa [hc] using hret
  have hbegin := hi₀.heldIn_all
  have hend := hi.heldIn_all
  rw [hfront] at hend
  constructor
  · omega
  · split_ifs at hend <;> omega

end Sizing

/-- `size_approx` counts at least what was in the queue when it was called and at most
what is in it when it returns, but for an element that is just being published. -/
theorem size_approx_bounds (maxQueueSize : UInt32) (es fs : List (Event α)) (n : ℕ)
    (s t : Channel α) (hs : Exec step (start maxQueueSize) es s)
    (h : Exec step s (.sizeApprox::fs) t)
    (hone : ∀ e ∈ fs, e ≠ .dequeue ∧ e ≠ .sizeApprox) (hret : t.consumer = .sized n) :
    s.sent.length ≤ s.received.length+n ∧ t.received.length+n ≤ t.sent.length+1 ∧
      (t.producer.resting = true → t.received.length+n ≤ t.sent.length) := by
  obtain ⟨r,-,hstart⟩ := ok_start (α := α) maxQueueSize
  obtain ⟨l,k,hi⟩ := ok_exec hstart hs
  cases h with
  | @succ _ s' _ _ _ hcall hrest =>
    have hw := hrest.invariant (P := Walk r l s.queue.frontBlock)
      (A := fun e => e ≠ .dequeue ∧ e ≠ .sizeApprox)
      (fun _ _ _ hP hA hstep => walk_step hP hA hstep) (walk_start hi hcall) hone
    obtain ⟨hlow,hhigh⟩ := walk_sized hi hw hret
    have hpend : t.producer.pending.length ≤ 1 ∧
        (t.producer.resting = true → t.producer.pending.length = 0) := by
      cases t.producer <;> simp [Producer.pending,Producer.resting]
    refine ⟨hlow,by omega,fun hresting => ?_⟩
    have := hpend.2 hresting
    omega

theorem size_approx_bounds_late :
    ∃ s t, Exec step (start 3) [.enqueue 7,.producer,.producer,.enqueue 8,.producer] s ∧
      Exec step s [.sizeApprox,.producer,.consumer] t ∧ t.consumer = .sized 2 ∧
      s.sent.length ≤ s.received.length+2 ∧ t.received.length+2 ≤ t.sent.length+1 := by
  have hret : (run step (start 3) ([.enqueue 7,.producer,.producer,.enqueue 8,.producer]++
      [.sizeApprox,.producer,.consumer])).map (fun s => s.consumer) = some (.sized 2) := by rfl
  obtain ⟨t,hexec,hend⟩ := Exec.of_run_map _ hret
  obtain ⟨s,hs,ht⟩ := hexec.of_append
  have hbounds := size_approx_bounds 3 _ [.producer,.consumer] 2 s t hs ht (by simp) hend
  exact ⟨s,t,hs,ht,hend,hbounds.1,hbounds.2.1⟩

end ReaderWriterQueue
end CloudServer
