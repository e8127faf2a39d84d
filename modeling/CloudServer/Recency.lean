import Mathlib.Tactic

/-! Requests in the order of their last occurrence. A history is a list of requests, the
first one first; `recent` lists its distinct requests, the latest one first. -/
namespace CloudServer
namespace Recency

variable {α : Type} [DecidableEq α]

/-- The position of the last request of `a`, counted from one; zero if there is none. -/
def lastRequest (h : List α) (a : α) : ℕ := h.length-h.reverse.idxOf a

def since (h : List α) (a : α) : Finset α := (h.reverse.takeWhile fun b => b ≠ a).toFinset

/-- `keys` are the `n` distinct requests that were made most recently, or all of them if
there are fewer, in the order of their last requests. -/
structure MostRecent (n : ℕ) (h keys : List α) : Prop where
  length : keys.length = min n h.toFinset.card
  distinct : keys.Nodup
  requested : ∀ a ∈ keys, a ∈ h
  ordered : keys.Pairwise fun a b => lastRequest h b < lastRequest h a
  latest : ∀ a ∈ keys, ∀ b ∈ h, b ∉ keys → lastRequest h b < lastRequest h a

/-- A first request, or one that comes back after `n` others. -/
def Missed (n : ℕ) (h : List α) (a : α) : Prop := a ∉ h ∨ n ≤ (since h a).card

instance (n : ℕ) (h : List α) (a : α) : Decidable (Missed n h a) :=
  inferInstanceAs (Decidable (_ ∨ _))

def touch (l : List α) (a : α) : List α := a::l.filter fun b => b ≠ a

def recent (h : List α) : List α := h.foldl touch []

@[simp] theorem recent_append (h : List α) (b : α) : recent (h++[b]) = touch (recent h) b := by
  simp [recent]

@[simp] theorem mem_touch {l : List α} {a b : α} : a ∈ touch l b ↔ a = b ∨ a ∈ l := by
  by_cases hab : a = b <;> simp [touch,hab]

theorem nodup_touch {l : List α} (hl : l.Nodup) (b : α) : (touch l b).Nodup :=
  List.nodup_cons.mpr ⟨by simp,hl.filter _⟩

@[simp] theorem mem_recent {h : List α} {a : α} : a ∈ recent h ↔ a ∈ h := by
  induction h using List.reverseRecOn with
  | nil => simp [recent]
  | append_singleton h b ih => simp [ih,or_comm]

theorem nodup_recent (h : List α) : (recent h).Nodup := by
  induction h using List.reverseRecOn with
  | nil => simp [recent]
  | append_singleton h b ih =>
    rw [recent_append]
    exact nodup_touch ih b

theorem length_recent (h : List α) : (recent h).length = h.toFinset.card := by
  rw [← List.toFinset_card_of_nodup (nodup_recent h)]
  congr 1
  ext a
  simp

theorem lastRequest_self (h : List α) (b : α) : lastRequest (h++[b]) b = h.length+1 := by
  simp [lastRequest]

theorem lastRequest_ne (h : List α) {a b : α} (hab : a ≠ b) :
    lastRequest (h++[b]) a = lastRequest h a := by
  simp [lastRequest,List.idxOf_cons_ne _ hab.symm]

theorem lastRequest_le (h : List α) (a : α) : lastRequest h a ≤ h.length := Nat.sub_le _ _

theorem recent_ordered (h : List α) :
    (recent h).Pairwise fun a b => lastRequest h b < lastRequest h a := by
  induction h using List.reverseRecOn with
  | nil => simp [recent]
  | append_singleton h b ih =>
    rw [recent_append,touch,List.pairwise_cons]
    constructor
    · intro a ha
      have hab : a ≠ b := by simpa using (List.mem_filter.mp ha).2
      rw [lastRequest_self,lastRequest_ne h hab]
      exact Nat.lt_succ_of_le (lastRequest_le h a)
    · apply (ih.filter _).imp_of_mem
      intro a a' ha ha' hlt
      have hab : a ≠ b := by simpa using (List.mem_filter.mp ha).2
      have hab' : a' ≠ b := by simpa using (List.mem_filter.mp ha').2
      rw [lastRequest_ne h hab,lastRequest_ne h hab']
      exact hlt

theorem mostRecent_take (n : ℕ) (h : List α) : MostRecent n h ((recent h).take n) where
  length := by rw [List.length_take,length_recent]
  distinct := (nodup_recent h).sublist (List.take_sublist _ _)
  requested a ha := mem_recent.mp (List.mem_of_mem_take ha)
  ordered := (recent_ordered h).sublist (List.take_sublist _ _)
  latest := by
    intro a ha b hb hnot
    have hsplit := recent_ordered h
    rw [← List.take_append_drop n (recent h),List.pairwise_append] at hsplit
    have hmem : b ∈ (recent h).take n ++ (recent h).drop n := by
      rw [List.take_append_drop]
      exact mem_recent.mpr hb
    exact hsplit.2.2 a ha b ((List.mem_append.mp hmem).resolve_left hnot)

theorem takeWhile_filter {a b : α} (hab : a ≠ b) (l : List α) :
    (l.filter fun x => x ≠ b).takeWhile (fun x => x ≠ a) =
      (l.takeWhile fun x => x ≠ a).filter fun x => x ≠ b := by
  induction l with
  | nil => rfl
  | cons x l ih =>
    by_cases hxa : x = a
    · subst hxa
      simp [hab]
    · by_cases hxb : x = b
      · subst hxb
        simpa [hxa] using ih
      · simpa [hxa,hxb] using ih

theorem since_recent (h : List α) (a : α) :
    since h a = ((recent h).takeWhile fun b => b ≠ a).toFinset := by
  induction h using List.reverseRecOn with
  | nil => rfl
  | append_singleton h b ih =>
    by_cases hab : b = a
    · subst hab
      simp [since,touch]
    · have hstep : since (h++[b]) a = insert b (since h a) := by simp [since,hab]
      rw [hstep,ih,recent_append,touch,List.takeWhile_cons_of_pos (by simpa using hab),
        takeWhile_filter (Ne.symm hab)]
      ext x
      by_cases hx : x = b <;> simp [hx]

theorem idxOf_eq_takeWhile (l : List α) (a : α) :
    l.idxOf a = (l.takeWhile fun b => b ≠ a).length := by
  induction l with
  | nil => rfl
  | cons b l ih =>
    by_cases hab : b = a
    · simp [hab]
    · simp [hab,List.idxOf_cons_ne _ hab,ih]

theorem mem_take_recent {n : ℕ} {h : List α} {a : α} :
    a ∈ (recent h).take n ↔ ¬ Missed n h a := by
  have hcard : (since h a).card = (recent h).idxOf a := by
    rw [since_recent,idxOf_eq_takeWhile,
      List.toFinset_card_of_nodup ((nodup_recent h).sublist (List.takeWhile_sublist _))]
  rw [Missed,hcard]
  by_cases ha : a ∈ h
  · rw [List.mem_take_iff_idxOf_lt (mem_recent.mpr ha)]
    simp [ha]
  · have hnot : a ∉ (recent h).take n := fun hin => ha (mem_recent.mp (List.mem_of_mem_take hin))
    simp [ha,hnot]

theorem take_filter_of_mem {l : List α} {a : α} {n : ℕ} (hl : l.Nodup) (ha : a ∈ l.take (n+1)) :
    (l.filter fun b => b ≠ a).take n = (l.take (n+1)).filter fun b => b ≠ a := by
  induction l generalizing n with
  | nil => simp at ha
  | cons b l ih =>
    rw [List.nodup_cons] at hl
    by_cases hab : b = a
    · subst hab
      have hkeep : ∀ t ⊆ l, (t.filter fun x => x ≠ b) = t := by
        intro t ht
        apply List.filter_eq_self.mpr
        intro x hx
        simpa using fun hxb : x = b => hl.1 (hxb ▸ ht hx)
      rw [List.filter_cons_of_neg (by simp),hkeep l (List.Subset.refl l),List.take_succ_cons,
        List.filter_cons_of_neg (by simp),hkeep _ (List.take_subset n l)]
    · have hin : a ∈ l.take n := by simpa [Ne.symm hab] using ha
      cases n with
      | zero => simp at hin
      | succ n =>
        rw [List.filter_cons_of_pos (by simpa using hab),List.take_succ_cons,ih hl.2 hin,
          List.take_succ_cons (i := n+1),List.filter_cons_of_pos (by simpa using hab)]

theorem take_filter_of_notMem {l : List α} {a : α} {n : ℕ} (ha : a ∉ l.take (n+1)) :
    (l.filter fun b => b ≠ a).take n = l.take n := by
  induction l generalizing n with
  | nil => rfl
  | cons b l ih =>
    rw [List.take_succ_cons,List.mem_cons,not_or] at ha
    cases n with
    | zero => simp
    | succ n =>
      rw [List.filter_cons_of_pos (by simpa using Ne.symm ha.1),List.take_succ_cons,
        List.take_succ_cons,ih ha.2]

/-- A request that is among the `n` most recent ones moves to the front. -/
theorem take_recent_of_mem {n : ℕ} {h : List α} {a : α} (ha : a ∈ (recent h).take (n+1)) :
    (recent (h++[a])).take (n+1) = touch ((recent h).take (n+1)) a := by
  rw [recent_append,touch,touch,List.take_succ_cons,take_filter_of_mem (nodup_recent h) ha]

/-- Any other request comes in front, and the oldest of `n+1` requests leaves. -/
theorem take_recent_of_notMem {n : ℕ} {h : List α} {a : α} (ha : a ∉ (recent h).take (n+1)) :
    (recent (h++[a])).take (n+1) = a::(recent h).take n := by
  rw [recent_append,touch,List.take_succ_cons,take_filter_of_notMem ha]

end Recency
end CloudServer
