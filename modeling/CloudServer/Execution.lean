import Mathlib.Tactic

/-! Labelled executions of a partial step function, and the rules that carry an
invariant from one step to a whole run. -/
namespace CloudServer
namespace Execution

variable {σ ε : Type}

/-- A run performs its labels in order; a label whose step is disabled ends it. -/
inductive Exec (step : σ → ε → Option σ) : σ → List ε → σ → Prop
  | refl (s) : Exec step s [] s
  | succ {s t u e es} : step s e = some t → Exec step t es u → Exec step s (e::es) u

/-- The run as a computation, for executions of concrete schedules. -/
def run (step : σ → ε → Option σ) (s : σ) : List ε → Option σ
  | [] => some s
  | e::es => (step s e).bind fun t => run step t es

/-- Every step of the run is taken in a state that satisfies the condition. -/
def Along (step : σ → ε → Option σ) (C : σ → ε → Prop) : σ → List ε → Prop
  | _, [] => True
  | s, e::es => C s e ∧ ∀ t, step s e = some t → Along step C t es

theorem along_of_forall {step : σ → ε → Option σ} {C : σ → ε → Prop} {es : List ε}
    (h : ∀ e ∈ es, ∀ s, C s e) (s : σ) : Along step C s es := by
  induction es generalizing s with
  | nil => trivial
  | cons e es ih =>
    exact ⟨h e (by simp) s,fun t _ => ih (fun e' he' => h e' (by simp [he'])) t⟩

def Leads (f : σ → σ) (s t : σ) : Prop := ∃ n, f^[n] s = t

theorem Leads.refl (f : σ → σ) (s : σ) : Leads f s s := ⟨0,rfl⟩

theorem Leads.head {f : σ → σ} {s t u : σ} (hs : f s = t) (h : Leads f t u) : Leads f s u := by
  obtain ⟨n,hn⟩ := h
  use n+1
  rw [Function.iterate_succ_apply,hs,hn]

namespace Exec

variable {step : σ → ε → Option σ}

theorem of_append {s u : σ} {es fs : List ε} (h : Exec step s (es++fs) u) :
    ∃ t, Exec step s es t ∧ Exec step t fs u := by
  induction es generalizing s with
  | nil => exact ⟨s,Exec.refl s,h⟩
  | cons e es ih =>
    cases h with
    | succ hse hrest =>
      obtain ⟨t,hes,hfs⟩ := ih hrest
      exact ⟨t,Exec.succ hse hes,hfs⟩

theorem append {s t u : σ} {es fs : List ε} (h : Exec step s es t) (h' : Exec step t fs u) :
    Exec step s (es++fs) u := by
  induction h with
  | refl => exact h'
  | succ hse _ ih => exact Exec.succ hse (ih h')

theorem deterministic {s t u : σ} {es : List ε} (ht : Exec step s es t) (hu : Exec step s es u) :
    t = u := by
  induction ht with
  | refl =>
    cases hu
    rfl
  | succ hse _ ih =>
    cases hu with
    | succ hse' hrest =>
      obtain rfl := Option.some.inj (hse.symm.trans hse')
      exact ih hrest

/-- A property kept by every step whose label is admitted holds at the end of
every run of admitted labels. -/
theorem invariant {P : σ → Prop} {A : ε → Prop}
    (hstep : ∀ s e t, P s → A e → step s e = some t → P t)
    {s t : σ} {es : List ε} (h : Exec step s es t) (hs : P s) (hes : ∀ e ∈ es, A e) : P t := by
  induction h with
  | refl => exact hs
  | @succ s t u e es hse _ ih =>
    exact ih (hstep s e t hs (hes e (by simp)) hse) fun f hf => hes f (by simp [hf])

theorem invariant_along {P : σ → Prop} {A : ε → Prop} {C : σ → ε → Prop}
    (hstep : ∀ s e t, P s → A e → C s e → step s e = some t → P t)
    {s t : σ} {es : List ε} (h : Exec step s es t) (hs : P s) (hes : ∀ e ∈ es, A e)
    (hC : Along step C s es) : P t := by
  induction h with
  | refl => exact hs
  | @succ s t u e es hse _ ih =>
    exact ih (hstep s e t hs (hes e (by simp)) hC.1 hse) (fun f hf => hes f (by simp [hf]))
      (hC.2 t hse)

/-- Two conditions that agree on the states of an invariant agree along a run. The
invariant may depend on how the run ends. -/
theorem along_iff {P G : σ → Prop} {A : ε → Prop} {C D : σ → ε → Prop}
    (hstep : ∀ s e t es u, P s → A e → step s e = some t → Exec step t es u → G u → P t)
    (hiff : ∀ s e, P s → A e → (C s e ↔ D s e))
    {s u : σ} {es : List ε} (h : Exec step s es u) (hs : P s) (hes : ∀ e ∈ es, A e) (hu : G u) :
    Along step C s es ↔ Along step D s es := by
  induction h with
  | refl => exact Iff.rfl
  | @succ s t u e es hse hrest ih =>
    have he := hes e (by simp)
    have htail := ih (hstep s e t es u hs he hse hrest hu) (fun f hf => hes f (by simp [hf])) hu
    have hnext : ∀ E : σ → ε → Prop,
        (∀ t', step s e = some t' → Along step E t' es) ↔ Along step E t es := by
      intro E
      constructor
      · intro hall
        exact hall t hse
      · intro hE t' ht'
        rwa [Option.some.inj (ht'.symm.trans hse)]
    rw [Along,Along,hiff s e hs he,hnext C,hnext D,htail]

/-- A run that comes to satisfy `J` although it did not passes a state that satisfies
`P`, if only from there a step can lead to `J`. -/
theorem passes {I J P : σ → Prop} {A : ε → Prop}
    (hinv : ∀ s e t, I s → step s e = some t → I t)
    (hstep : ∀ s e t, I s → A e → step s e = some t → J t → J s ∨ P s)
    {s t : σ} {es : List ε} (h : Exec step s es t) (hs : I s) (hes : ∀ e ∈ es, A e)
    (hJs : ¬ J s) (hJt : J t) :
    ∃ es₁ es₂ u, es = es₁++es₂ ∧ Exec step s es₁ u ∧ P u ∧ Exec step u es₂ t := by
  induction h with
  | refl => exact absurd hJt hJs
  | @succ s t u e es hse hrest ih =>
    by_cases hJ : J t
    · have hP := (hstep s e t hs (hes e (by simp)) hse hJ).resolve_left hJs
      exact ⟨[],e::es,s,rfl,refl s,hP,succ hse hrest⟩
    · obtain ⟨es₁,es₂,v,rfl,h₁,hP,h₂⟩ := ih (hinv s e t hs hse)
        (fun f hf => hes f (by simp [hf])) hJ hJt
      exact ⟨e::es₁,es₂,v,rfl,succ hse h₁,hP,h₂⟩

/-- A relation between the two ends of every step that composes relates the ends
of every run. -/
theorem relate {R : σ → σ → Prop} (hrefl : ∀ s, R s s)
    (htrans : ∀ s t u, R s t → R t u → R s u)
    (hstep : ∀ s e t, step s e = some t → R s t)
    {s t : σ} {es : List ε} (h : Exec step s es t) : R s t := by
  induction h with
  | refl s => exact hrefl s
  | succ hs _ ih => exact htrans _ _ _ (hstep _ _ _ hs) ih

theorem of_run {s t : σ} {es : List ε} (h : run step s es = some t) : Exec step s es t := by
  induction es generalizing s with
  | nil =>
    obtain rfl := Option.some.inj h
    exact Exec.refl s
  | cons e es ih =>
    obtain ⟨u,hs,hu⟩ := Option.bind_eq_some_iff.mp h
    exact Exec.succ hs (ih hu)

/-- A schedule whose final state shows the observation `f` is an execution. -/
theorem of_run_map {β : Type} {s : σ} {es : List ε} (f : σ → β) {b : β}
    (h : (run step s es).map f = some b) : ∃ t, Exec step s es t ∧ f t = b := by
  obtain ⟨t,ht,hb⟩ := Option.map_eq_some_iff.mp h
  exact ⟨t,of_run ht,hb⟩

end Exec
end Execution
end CloudServer
