import Mathlib.Tactic

/-! Programs that ask an environment and continue with its answers. A program can
be run against fixed answers, or one question at a time while the environment
changes. Questions, answers and errors are parameters. -/
namespace CloudServer
namespace Interaction

variable {Q ε σ α β : Type} {R : Q → Type}

/-- A program finishes, gives up, or asks `q` and continues with the reply. -/
inductive Prog (R : Q → Type) (ε α : Type)
  | ret (a : α)
  | fail (e : ε)
  | ask (q : Q) (k : R q → Prog R ε α)

namespace Prog

def bind : Prog R ε α → (α → Prog R ε β) → Prog R ε β
  | ret a, f => f a
  | fail e, _ => fail e
  | ask q k, f => ask q fun r => bind (k r) f

instance : Monad (Prog R ε) where
  pure := ret
  bind := bind

def request (q : Q) : Prog R ε (R q) := ask q ret

def forRange (f : ℕ → σ → Prog R ε σ) : ℕ → σ → Prog R ε σ
  | 0, s => ret s
  | n+1, s => bind (forRange f n s) (f n)

/-- The questions asked and the outcome, when every question is answered by `answer`. -/
def eval (answer : (q : Q) → Except ε (R q)) : Prog R ε α → List Q × Except ε α
  | ret a => ([],.ok a)
  | fail e => ([],.error e)
  | ask q k =>
    match answer q with
    | .error e => ([q],.error e)
    | .ok r => let t := eval answer (k r); (q::t.1,t.2)

def Returns (answer : (q : Q) → Except ε (R q)) (p : Prog R ε α) (qs : List Q) (a : α) : Prop :=
  eval answer p = (qs,.ok a)

/-- The program returns `a`, whatever it asks on the way. -/
def Yields (answer : (q : Q) → Except ε (R q)) (p : Prog R ε α) (a : α) : Prop :=
  (eval answer p).2 = .ok a

variable {answer : (q : Q) → Except ε (R q)}

theorem Returns.yields {p : Prog R ε α} {qs : List Q} {a : α} (h : Returns answer p qs a) :
    Yields answer p a :=
  congrArg Prod.snd h

theorem Yields.eq {p : Prog R ε α} {qs : List Q} {a b : α} (hb : Yields answer p b)
    (h : Returns answer p qs a) : b = a :=
  Except.ok.inj (hb.symm.trans h.yields)

theorem returns_pure (a : α) : Returns answer (pure a : Prog R ε α) [] a := rfl

theorem returns_request {q : Q} {r : R q} (h : answer q = .ok r) :
    Returns answer (request q) [q] r := by
  simp [Returns,request,eval,h]

theorem returns_bind {p : Prog R ε α} {f : α → Prog R ε β} {qs qs' : List Q} {a : α} {b : β}
    (hp : Returns answer p qs a) (hf : Returns answer (f a) qs' b) :
    Returns answer (p >>= f) (qs++qs') b := by
  change eval answer (bind p f) = _
  induction p generalizing qs with
  | ret a' =>
    obtain ⟨rfl,rfl⟩ : [] = qs ∧ a' = a := by simpa [Returns,eval] using hp
    exact hf
  | fail e => simp [Returns,eval] at hp
  | ask q k ih =>
    cases hq : answer q with
    | error e => simp [Returns,eval,hq] at hp
    | ok r =>
      obtain ⟨rfl,hr⟩ : q::(eval answer (k r)).1 = qs ∧ (eval answer (k r)).2 = .ok a := by
        simpa [Returns,eval,hq] using hp
      have hrest := ih r (Prod.ext rfl hr)
      simp [bind,eval,hq,hrest]

/-- Better answers lead to the same outcome. -/
theorem returns_mono {answer' : (q : Q) → Except ε (R q)} {p : Prog R ε α} {qs : List Q} {a : α}
    (hmono : ∀ q r, answer q = .ok r → answer' q = .ok r) (h : Returns answer p qs a) :
    Returns answer' p qs a := by
  induction p generalizing qs with
  | ret b => exact h
  | fail e => simp [Returns,eval] at h
  | ask q k ih =>
    cases hq : answer q with
    | error e => simp [Returns,eval,hq] at h
    | ok r =>
      obtain ⟨rfl,hr⟩ : q::(eval answer (k r)).1 = qs ∧ (eval answer (k r)).2 = .ok a := by
        simpa [Returns,eval,hq] using h
      have hrest := ih r (Prod.ext rfl hr)
      simp only [Returns] at hrest
      simp [Returns,eval,hmono q r hq,hrest]

/-- A loop is established by what each round does to its state and to the questions. -/
theorem returns_forRange {I : ℕ → σ → List Q → Prop} {f : ℕ → σ → Prog R ε σ} {n : ℕ} {s : σ}
    (hstart : I 0 s [])
    (hround : ∀ i t tr, i < n → I i t tr →
      ∃ qs t', Returns answer (f i t) qs t' ∧ I (i+1) t' (tr++qs)) :
    ∃ qs t, Returns answer (forRange f n s) qs t ∧ I n t qs := by
  induction n with
  | zero => exact ⟨[],s,rfl,hstart⟩
  | succ n ih =>
    obtain ⟨qs,t,ht,hI⟩ := ih fun i t tr hi => hround i t tr (Nat.lt_succ_of_lt hi)
    obtain ⟨qs',t',ht',hI'⟩ := hround n t qs (Nat.lt_succ_self n) hI
    exact ⟨qs++qs',t',returns_bind ht ht',hI'⟩

theorem yields_bind {p : Prog R ε α} {f : α → Prog R ε β} {b : β}
    (h : Yields answer (p >>= f) b) : ∃ a, Yields answer p a ∧ Yields answer (f a) b := by
  change (eval answer (bind p f)).2 = _ at h
  induction p with
  | ret a => exact ⟨a,rfl,h⟩
  | fail e => simp [bind,eval] at h
  | ask q k ih =>
    cases hq : answer q with
    | error e => simp [bind,eval,hq] at h
    | ok r =>
      obtain ⟨a,ha,hb⟩ := ih r (by simpa [bind,eval,hq] using h)
      exact ⟨a,by simpa [Yields,eval,hq] using ha,hb⟩

theorem yields_pure {a b : α} (h : Yields answer (pure a : Prog R ε α) b) : b = a :=
  h.eq (returns_pure a)

theorem yields_request {q : Q} {r : R q} (h : Yields answer (request q : Prog R ε (R q)) r) :
    answer q = .ok r := by
  cases hq : answer q with
  | error e => simp [Yields,request,eval,hq] at h
  | ok r' =>
    obtain rfl := h.eq (returns_request hq)
    rfl

/-- What every round that returns preserves holds after a loop that returns. -/
theorem yields_forRange {I : ℕ → σ → Prop} {f : ℕ → σ → Prog R ε σ} {n : ℕ} {s t : σ}
    (hstart : I 0 s) (hround : ∀ i t t', i < n → I i t → Yields answer (f i t) t' → I (i+1) t')
    (h : Yields answer (forRange f n s) t) : I n t := by
  induction n generalizing t with
  | zero =>
    obtain rfl : s = t := Except.ok.inj h
    exact hstart
  | succ n ih =>
    obtain ⟨u,hu,ht⟩ := yields_bind (p := forRange f n s) h
    exact hround n u t (Nat.lt_succ_self n)
      (ih (fun i t t' hi => hround i t t' (Nat.lt_succ_of_lt hi)) hu) ht

/-- Whatever the replies are, the questions satisfy `A` and what is returned meets `post`. -/
def Asks (A : Q → Prop) (post : α → Prop) : Prog R ε α → Prop
  | ret a => post a
  | fail _ => True
  | ask q k => A q ∧ ∀ r, Asks A post (k r)

section Questions

variable {A : Q → Prop} {post : α → Prop}

theorem asks_pure {a : α} (h : post a) : Asks A post (pure a : Prog R ε α) := h

theorem asks_bind {p : Prog R ε α} {f : α → Prog R ε β} {post' : β → Prop} (hp : Asks A post p)
    (hf : ∀ a, post a → Asks A post' (f a)) : Asks A post' (p >>= f) := by
  change Asks A post' (bind p f)
  induction p with
  | ret a => exact hf a hp
  | fail e => trivial
  | ask q k ih => exact ⟨hp.1,fun r => ih r (hp.2 r)⟩

theorem asks_any (p : Prog R ε α) : Asks (fun _ => True) (fun _ => True) p := by
  induction p with
  | ret a => trivial
  | fail e => trivial
  | ask q k ih => exact ⟨trivial,ih⟩

end Questions

/-- A whole conversation: the questions asked and the outcome, when the replies are
any that the environment allows. -/
inductive Talk (allows : (q : Q) → R q → Prop) : Prog R ε α → List Q → Except ε α → Prop
  | ret (a : α) : Talk allows (ret a) [] (.ok a)
  | fail (e : ε) : Talk allows (fail e) [] (.error e)
  | ask {q : Q} {k : R q → Prog R ε α} {r : R q} {qs : List Q} {out : Except ε α}
    (hr : allows q r) (h : Talk allows (k r) qs out) : Talk allows (ask q k) (q::qs) out

def Completes (allows : (q : Q) → R q → Prop) (p : Prog R ε α) (post : List Q → α → Prop) : Prop :=
  ∀ qs out, Talk allows p qs out → ∃ a, out = .ok a ∧ post qs a

section Conversations

variable {allows : (q : Q) → R q → Prop}

theorem talk_exists (hreply : ∀ q, ∃ r, allows q r) (p : Prog R ε α) :
    ∃ qs out, Talk allows p qs out := by
  induction p with
  | ret a => exact ⟨[],_,.ret a⟩
  | fail e => exact ⟨[],_,.fail e⟩
  | ask q k ih =>
    obtain ⟨r,hr⟩ := hreply q
    obtain ⟨qs,out,h⟩ := ih r
    exact ⟨q::qs,out,.ask hr h⟩

theorem talk_seq {p : Prog R ε α} {f : α → Prog R ε β} {qs qs' : List Q} {a : α}
    {out : Except ε β} (hp : Talk allows p qs (.ok a)) (hf : Talk allows (f a) qs' out) :
    Talk allows (p >>= f) (qs++qs') out := by
  change Talk allows (bind p f) (qs++qs') out
  induction p generalizing qs with
  | ret b =>
    cases hp
    exact hf
  | fail e => cases hp
  | ask q k ih =>
    cases hp with
    | ask hr h => exact .ask hr (ih _ h)

theorem talk_bind {p : Prog R ε α} {f : α → Prog R ε β} {qs : List Q} {out : Except ε β}
    (h : Talk allows (p >>= f) qs out) :
    (∃ e, out = .error e ∧ Talk allows p qs (.error e)) ∨
    ∃ a qs₁ qs₂, qs = qs₁++qs₂ ∧ Talk allows p qs₁ (.ok a) ∧ Talk allows (f a) qs₂ out := by
  change Talk allows (bind p f) qs out at h
  induction p generalizing qs with
  | ret a => exact Or.inr ⟨a,[],qs,rfl,.ret a,h⟩
  | fail e =>
    cases h
    exact Or.inl ⟨e,rfl,.fail e⟩
  | ask q k ih =>
    cases h with
    | ask hr h =>
      rcases ih _ h with ⟨e,rfl,he⟩ | ⟨a,qs₁,qs₂,rfl,h₁,h₂⟩
      · exact Or.inl ⟨e,rfl,.ask hr he⟩
      · exact Or.inr ⟨a,_::qs₁,qs₂,rfl,.ask hr h₁,h₂⟩

theorem completes_pure {post : List Q → α → Prop} {a : α} (h : post [] a) :
    Completes allows (pure a : Prog R ε α) post := by
  intro qs out htalk
  change Talk allows (ret a) qs out at htalk
  cases htalk
  exact ⟨a,rfl,h⟩

theorem completes_request {q : Q} {post : List Q → R q → Prop}
    (h : ∀ r, allows q r → post [q] r) : Completes allows (request q : Prog R ε (R q)) post := by
  intro qs out htalk
  cases htalk with
  | ask hr hrest =>
    cases hrest
    exact ⟨_,rfl,h _ hr⟩

theorem completes_bind {p : Prog R ε α} {f : α → Prog R ε β} {mid : List Q → α → Prop}
    {post : List Q → β → Prop} (hp : Completes allows p mid)
    (hf : ∀ qs a, mid qs a → Completes allows (f a) fun qs' => post (qs++qs')) :
    Completes allows (p >>= f) post := by
  intro qs out htalk
  rcases talk_bind htalk with ⟨e,rfl,he⟩ | ⟨a,qs₁,qs₂,rfl,h₁,h₂⟩
  · obtain ⟨a,ha,_⟩ := hp _ _ he
    cases ha
  · obtain ⟨a',ha,hmid⟩ := hp _ _ h₁
    obtain rfl := Except.ok.inj ha
    exact hf _ _ hmid _ _ h₂

theorem completes_forRange {I : ℕ → σ → Prop} {f : ℕ → σ → Prog R ε σ} {n : ℕ} {s : σ}
    (hstart : I 0 s) (hround : ∀ i t, i < n → I i t → Completes allows (f i t) fun _ => I (i+1)) :
    Completes allows (forRange f n s) fun _ => I n := by
  induction n with
  | zero => exact completes_pure hstart
  | succ n ih =>
    have hn := ih fun i t hi => hround i t (Nat.lt_succ_of_lt hi)
    exact completes_bind hn fun _ t ht => hround n t (Nat.lt_succ_self n) ht

end Conversations

section Handlers

variable {Q' τ ε' : Type} {R' : Q' → Type}

/-- Answer the questions of a program by programs over other questions. -/
def handle (h : (q : Q) → Prog R' ε' (R q)) (err : ε → ε') : Prog R ε α → Prog R' ε' α
  | ret a => ret a
  | fail e => fail (err e)
  | ask q k => bind (h q) fun r => handle h err (k r)

/-- A conversation with an environment that has a state: `env q s r s'` says that in
`s` the question `q` may be answered by `r`, and leads to `s'`. -/
inductive Converse (env : (q : Q) → τ → R q → τ → Prop) : Prog R ε α → τ → τ → Except ε α → Prop
  | ret (a : α) (s : τ) : Converse env (ret a) s s (.ok a)
  | fail (e : ε) (s : τ) : Converse env (fail e) s s (.error e)
  | ask {q : Q} {k : R q → Prog R ε α} {r : R q} {s s₁ s₂ : τ} {out : Except ε α}
    (hr : env q s r s₁) (h : Converse env (k r) s₁ s₂ out) : Converse env (ask q k) s s₂ out

variable {env : (q : Q) → τ → R q → τ → Prop} {s s' : τ}

theorem converse_pure {a b : α} (h : Converse env (pure a : Prog R ε α) s s' (.ok b)) :
    s' = s ∧ b = a := by
  cases h
  exact ⟨rfl,rfl⟩

theorem converse_request {q : Q} {r : R q} (h : Converse env (request q : Prog R ε (R q)) s s' (.ok r)) :
    env q s r s' := by
  cases h with
  | ask hr h =>
    cases h
    exact hr

theorem converse_bind {p : Prog R ε α} {f : α → Prog R ε β} {b : β}
    (h : Converse env (p >>= f) s s' (.ok b)) :
    ∃ a s₁, Converse env p s s₁ (.ok a) ∧ Converse env (f a) s₁ s' (.ok b) := by
  change Converse env (bind p f) s s' (.ok b) at h
  induction p generalizing s with
  | ret a => exact ⟨a,s,.ret a s,h⟩
  | fail e => cases h
  | ask q k ih =>
    cases h with
    | ask hr h =>
      obtain ⟨a,s₁,h₁,h₂⟩ := ih _ h
      exact ⟨a,s₁,.ask hr h₁,h₂⟩

theorem converse_bind_error {p : Prog R ε α} {f : α → Prog R ε β} {e : ε}
    (h : Converse env (p >>= f) s s' (.error e)) :
    Converse env p s s' (.error e) ∨
    ∃ a s₁, Converse env p s s₁ (.ok a) ∧ Converse env (f a) s₁ s' (.error e) := by
  change Converse env (bind p f) s s' (.error e) at h
  induction p generalizing s with
  | ret a => exact Or.inr ⟨a,s,.ret a s,h⟩
  | fail e' =>
    cases h
    exact Or.inl (.fail e _)
  | ask q k ih =>
    cases h with
    | ask hr h =>
      rcases ih _ h with hp | ⟨a,s₁,h₁,h₂⟩
      · exact Or.inl (.ask hr hp)
      · exact Or.inr ⟨a,s₁,.ask hr h₁,h₂⟩

theorem converse_request_error {q : Q} {e : ε}
    (h : Converse env (request q : Prog R ε (R q)) s s' (.error e)) : False := by
  cases h with
  | ask _ h => cases h

theorem converse_handle_error {env' : (q : Q') → τ → R' q → τ → Prop}
    {h : (q : Q) → Prog R' ε' (R q)} {err : ε → ε'} {p : Prog R ε α} {e : ε'}
    (hc : Converse env' (handle h err p) s s' (.error e)) :
    (∃ e₀, e = err e₀) ∨ ∃ q t t', Converse env' (h q) t t' (.error e) := by
  induction p generalizing s with
  | ret a => cases hc
  | fail e₀ =>
    cases hc
    exact Or.inl ⟨e₀,rfl⟩
  | ask q k ih =>
    rcases converse_bind_error (f := fun r => handle h err (k r)) hc with hq | ⟨r,s₁,_,hk⟩
    · exact Or.inr ⟨q,s,s',hq⟩
    · exact ih r hk

variable (env) in
/-- Handlers that keep to `env` carry a conversation of the handled program over to one
of the program itself. -/
theorem converse_handle {env' : (q : Q') → τ → R' q → τ → Prop} {h : (q : Q) → Prog R' ε' (R q)}
    {err : ε → ε'} {p : Prog R ε α} {a : α}
    (hh : ∀ q s s' r, Converse env' (h q) s s' (.ok r) → env q s r s')
    (hc : Converse env' (handle h err p) s s' (.ok a)) : Converse env p s s' (.ok a) := by
  induction p generalizing s with
  | ret b =>
    cases hc
    exact .ret _ _
  | fail e => cases hc
  | ask q k ih =>
    obtain ⟨r,s₁,h₁,h₂⟩ := converse_bind (f := fun r => handle h err (k r)) hc
    exact .ask (hh q s s₁ r h₁) (ih r h₂)

theorem converse_silent {p : Prog R ε α} {out : Except ε α}
    (henv : ∀ q s r s', env q s r s' → s' = s) (h : Converse env p s s' out) : s' = s := by
  induction h with
  | ret => rfl
  | fail => rfl
  | ask hr _ ih => exact ih.trans (henv _ _ _ _ hr)

def interact (answer : (q : Q) → τ → R q × τ) : Prog R ε α → τ → τ × Except ε α
  | ret a, s => (s,.ok a)
  | fail e, s => (s,.error e)
  | ask q k, s => interact answer (k (answer q s).1) (answer q s).2

theorem converse_interact {answer : (q : Q) → τ → R q × τ}
    (h : ∀ q s, env q s (answer q s).1 (answer q s).2) (p : Prog R ε α) (s : τ) :
    Converse env p s (interact answer p s).1 (interact answer p s).2 := by
  induction p generalizing s with
  | ret a => exact .ret a s
  | fail e => exact .fail e s
  | ask q k ih => exact .ask (h q s) (ih _ _)

end Handlers

end Prog
end Interaction
end CloudServer
