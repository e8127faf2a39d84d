import CloudServer.Execution

/-! Schedules that never end: every activity is scheduled again and again, and one that
is scheduled while it cannot move waits. -/
namespace CloudServer
namespace Fairness

open Execution

variable {σ ε ι α : Type}

def after (step : σ → ε → Option σ) (s : σ) (schedule : ℕ → ε) : ℕ → σ
  | 0 => s
  | n+1 => (step (after step s schedule n) (schedule n)).getD (after step s schedule n)

/-- No activity is left out from some time on. -/
def Fair (activity : ε → Option ι) (schedule : ℕ → ε) : Prop :=
  ∀ i n, ∃ m ≥ n, activity (schedule m) = some i

section After

variable {step : σ → ε → Option σ} {s t : σ} {schedule : ℕ → ε} {n : ℕ}

theorem after_some (h : step (after step s schedule n) (schedule n) = some t) :
    after step s schedule (n+1) = t := by
  rw [after,h,Option.getD_some]

theorem after_none (h : step (after step s schedule n) (schedule n) = none) :
    after step s schedule (n+1) = after step s schedule n := by
  rw [after,h,Option.getD_none]

theorem after_add (step : σ → ε → Option σ) (s : σ) (schedule : ℕ → ε) (n m : ℕ) :
    after step s schedule (n+m) =
      after step (after step s schedule n) (fun i => schedule (n+i)) m := by
  induction m with
  | zero => rfl
  | succ m ih => rw [← Nat.add_assoc,after,ih,after]

theorem after_invariant {P : σ → Prop} (hstep : ∀ s e t, P s → step s e = some t → P t)
    (hs : P s) (schedule : ℕ → ε) (n : ℕ) : P (after step s schedule n) := by
  induction n with
  | zero => exact hs
  | succ n ih =>
    cases h : step (after step s schedule n) (schedule n) with
    | none => rwa [after_none h]
    | some t =>
      rw [after_some h]
      exact hstep _ _ _ ih h

end After

/-- Until the goal is reached there is an activity that can move and that comes closer to
the goal when it does; no other step leads away from the goal, or hands the task to
another activity without coming closer. -/
structure Ranking [LT α] (step : σ → ε → Option σ) (activity : ε → Option ι) (P goal : σ → Prop)
    (helper : σ → ι) (rank : σ → α) : Prop where
  kept : ∀ s e t, P s → step s e = some t → P t
  enabled : ∀ s e, P s → ¬ goal s → activity e = some (helper s) → ∃ t, step s e = some t
  closer : ∀ s e t, P s → ¬ goal s → step s e = some t →
    rank t < rank s ∨ rank t = rank s ∧ helper t = helper s ∧ activity e ≠ some (helper s)

namespace Ranking

variable [LT α] {step : σ → ε → Option σ} {activity : ε → Option ι} {P goal : σ → Prop}
  {helper : σ → ι} {rank : σ → α} {s : σ} {schedule : ℕ → ε}

/-- By the time the helper of a state has been scheduled the rank is below that of the
state. -/
theorem descends (h : Ranking step activity P goal helper rank) (hs : P s) {m : ℕ}
    (hm : activity (schedule m) = some (helper s)) :
    ∃ n, goal (after step s schedule n) ∨ rank (after step s schedule n) < rank s := by
  by_contra hnever
  simp only [not_exists,not_or] at hnever
  have hsame : ∀ n, rank (after step s schedule n) = rank s ∧
      helper (after step s schedule n) = helper s := by
    intro n
    induction n with
    | zero => exact ⟨rfl,rfl⟩
    | succ n ih =>
      cases he : step (after step s schedule n) (schedule n) with
      | none => rwa [after_none he]
      | some t =>
        have hnext := (hnever (n+1)).2
        rw [after_some he] at hnext ⊢
        rcases h.closer _ _ _ (after_invariant h.kept hs schedule n) (hnever n).1 he with
          hlt | ⟨hrank,hhelper,-⟩
        · rw [ih.1] at hlt
          exact absurd hlt hnext
        · exact ⟨hrank.trans ih.1,hhelper.trans ih.2⟩
  have hP := after_invariant h.kept hs schedule m
  have hact := hm.trans (congrArg some (hsame m).2.symm)
  obtain ⟨t,ht⟩ := h.enabled _ _ hP (hnever m).1 hact
  have hnext := (hnever (m+1)).2
  rw [after_some ht] at hnext
  rcases h.closer _ _ _ hP (hnever m).1 ht with hlt | ⟨-,-,hother⟩
  · rw [(hsame m).1] at hlt
    exact hnext hlt
  · exact hother hact

/-- Every fair schedule reaches the goal, by induction on the rank. -/
theorem reaches [WellFoundedLT α] (h : Ranking step activity P goal helper rank) (hs : P s)
    (hfair : Fair activity schedule) : ∃ n, goal (after step s schedule n) := by
  induction hr : rank s using WellFoundedLT.induction generalizing s schedule with
  | ind a ih =>
    subst hr
    obtain ⟨m,-,hm⟩ := hfair (helper s) 0
    obtain ⟨n,hgoal | hlt⟩ := h.descends hs hm
    · exact ⟨n,hgoal⟩
    · have hfair' : Fair activity fun i => schedule (n+i) := by
        intro i k
        obtain ⟨j,hj,hact⟩ := hfair i (n+k)
        have hshift : n+(j-n) = j := by omega
        exact ⟨j-n,by omega,by simpa only [hshift] using hact⟩
      obtain ⟨k,hk⟩ := ih _ hlt (after_invariant h.kept hs schedule n) hfair' rfl
      rw [← after_add] at hk
      exact ⟨n+k,hk⟩

end Ranking

end Fairness
end CloudServer
