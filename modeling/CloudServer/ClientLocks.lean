import CloudServer.Execution

/-! The locks of `ServerOptThread::Run`: a table with a mutex for each client, a second
mutex for the table, and any number of threads that take both in their turn. A thread
that has to wait has no step. -/
namespace CloudServer
namespace ClientLocks

open Execution

/-- Where a thread stands in `Run`, with `tmpLock` once it is set. -/
inductive Pc
  | login
  | guarded
  | found (tmpLock : ℕ)
  | missing
  | created (tmpLock : ℕ)
  | inserted (tmpLock : ℕ)
  | locked (tmpLock : ℕ)
  | handler (tmpLock : ℕ)
  | handled (tmpLock : ℕ)
  | returned
  deriving DecidableEq

namespace Pc

/-- The thread is in the block of the `lock_guard` on `clientLockSetLock_`. -/
def inScope : Pc → Bool
  | .guarded | .found _ | .missing | .created _ | .inserted _ | .locked _ => true
  | _ => false

def tmpLock : Pc → Option ℕ
  | .found m | .inserted m | .locked m | .handler m | .handled m => some m
  | _ => none

/-- The mutex the thread has locked and not unlocked. -/
def held : Pc → Option ℕ
  | .locked m | .handler m | .handled m => some m
  | _ => none

/-- The mutex whose `lock` the thread calls next. -/
def locking : Pc → Option ℕ
  | .found m | .inserted m => some m
  | _ => none

def isLogin : Pc → Bool
  | .login | .guarded | .found _ | .missing | .created _ | .inserted _ => true
  | _ => false

def running : Pc → Bool
  | .handler _ | .handled _ => true
  | _ => false

end Pc

variable {τ : Type} [DecidableEq τ]

/-- A mutex is the thread that owns it, if any. Pointers to the mutexes of the clients are
numbers, and `mutexes` is how many have been allocated. The table is keyed by `int`,
the client ID is a `uint32_t`. -/
structure World (τ : Type) where
  pc : τ → Pc
  clientLockSetLock : Option τ
  clientLockIndex : Int32 → Option ℕ
  mutexes : ℕ
  clientLock : ℕ → Option τ

def World.start : World τ := ⟨fun _ => .login,none,fun _ => none,0,fun _ => none⟩

def World.go (w : World τ) (t : τ) (pc : Pc) : World τ := { w with pc := Function.update w.pc t pc }

def World.putLock (w : World τ) (k : Int32) (m : ℕ) : World τ :=
  { w with clientLockIndex := Function.update w.clientLockIndex k (some m) }

def World.lockClient (w : World τ) (t : τ) (m : ℕ) : Option (World τ) :=
  if w.clientLock m = none then
    some ({ w with clientLock := Function.update w.clientLock m (some t) }.go t (.locked m))
  else none

def step (clientID : τ → UInt32) (w : World τ) (t : τ) : Option (World τ) :=
  match w.pc t with
  | .login =>
      if w.clientLockSetLock = none then
        some ({ w with clientLockSetLock := some t }.go t .guarded)
      else none
  | .guarded =>
      match w.clientLockIndex (clientID t).toInt32 with
      | some m => some (w.go t (.found m))
      | none => some (w.go t .missing)
  | .found m => w.lockClient t m
  | .missing => some ({ w with mutexes := w.mutexes+1 }.go t (.created w.mutexes))
  | .created m => some ((w.putLock (clientID t).toInt32 m).go t (.inserted m))
  | .inserted m => w.lockClient t m
  | .locked m => some ({ w with clientLockSetLock := none }.go t (.handler m))
  | .handler m => some (w.go t (.handled m))
  | .handled m =>
      some ({ w with clientLock := Function.update w.clientLock m none }.go t .returned)
  | .returned => none

/-- A session of the thread is between `lock` and `unlock`. -/
def Active (w : World τ) (t : τ) : Prop := ∃ m, (w.pc t).held = some m

structure Inv (clientID : τ → UInt32) (w : World τ) : Prop where
  guard : ∀ t, (w.pc t).inScope = true ↔ w.clientLockSetLock = some t
  owner : ∀ t m, (w.pc t).held = some m ↔ w.clientLock m = some t
  indexed : ∀ t m, (w.pc t).tmpLock = some m → w.clientLockIndex (clientID t).toInt32 = some m
  missing : ∀ t, w.pc t = .missing → w.clientLockIndex (clientID t).toInt32 = none
  created : ∀ t m, w.pc t = .created m → m < w.mutexes ∧
    w.clientLockIndex (clientID t).toInt32 = none ∧ ∀ k, w.clientLockIndex k ≠ some m
  allocated : ∀ k m, w.clientLockIndex k = some m → m < w.mutexes
  index_inj : ∀ k l m, w.clientLockIndex k = some m → w.clientLockIndex l = some m → k = l

variable {clientID : τ → UInt32} {w w' : World τ} {t : τ}

omit [DecidableEq τ] in
theorem inv_start : Inv clientID (World.start : World τ) := by
  constructor <;> simp [World.start,Pc.inScope,Pc.tmpLock,Pc.held]

inductive Moves (clientID : τ → UInt32) (w : World τ) (t : τ) : World τ → Prop
  | enter : w.pc t = .login → w.clientLockSetLock = none →
      Moves clientID w t ({ w with clientLockSetLock := some t }.go t .guarded)
  | find {m : ℕ} : w.pc t = .guarded → w.clientLockIndex (clientID t).toInt32 = some m →
      Moves clientID w t (w.go t (.found m))
  | miss : w.pc t = .guarded → w.clientLockIndex (clientID t).toInt32 = none →
      Moves clientID w t (w.go t .missing)
  | allocate : w.pc t = .missing →
      Moves clientID w t ({ w with mutexes := w.mutexes+1 }.go t (.created w.mutexes))
  | insert {m : ℕ} : w.pc t = .created m →
      Moves clientID w t ((w.putLock (clientID t).toInt32 m).go t (.inserted m))
  | lock {m : ℕ} : (w.pc t).locking = some m → w.clientLock m = none →
      Moves clientID w t
        ({ w with clientLock := Function.update w.clientLock m (some t) }.go t (.locked m))
  | leave {m : ℕ} : w.pc t = .locked m →
      Moves clientID w t ({ w with clientLockSetLock := none }.go t (.handler m))
  | handle {m : ℕ} : w.pc t = .handler m → Moves clientID w t (w.go t (.handled m))
  | unlock {m : ℕ} : w.pc t = .handled m →
      Moves clientID w t
        ({ w with clientLock := Function.update w.clientLock m none }.go t .returned)

theorem lockClient_iff {m : ℕ} : w.lockClient t m = some w' ↔ w.clientLock m = none ∧
    w' = { w with clientLock := Function.update w.clientLock m (some t) }.go t (.locked m) := by
  rw [World.lockClient]
  split <;> simp_all [eq_comm]

theorem step_iff : step clientID w t = some w' ↔ Moves clientID w t w' := by
  constructor
  · intro h
    cases hpc : w.pc t with
    | login =>
      simp only [step,hpc] at h
      split at h
      · next hset =>
        obtain rfl := Option.some.inj h
        exact .enter hpc hset
      · simp at h
    | guarded =>
      simp only [step,hpc] at h
      split at h
      · next m hm =>
        obtain rfl := Option.some.inj h
        exact .find hpc hm
      · next hm =>
        obtain rfl := Option.some.inj h
        exact .miss hpc hm
    | found m | inserted m =>
      simp only [step,hpc] at h
      obtain ⟨hfree,rfl⟩ := lockClient_iff.mp h
      exact .lock (by simp [hpc,Pc.locking]) hfree
    | missing =>
      simp only [step,hpc] at h
      obtain rfl := Option.some.inj h
      exact .allocate hpc
    | created m =>
      simp only [step,hpc] at h
      obtain rfl := Option.some.inj h
      exact .insert hpc
    | locked m =>
      simp only [step,hpc] at h
      obtain rfl := Option.some.inj h
      exact .leave hpc
    | handler m =>
      simp only [step,hpc] at h
      obtain rfl := Option.some.inj h
      exact .handle hpc
    | handled m =>
      simp only [step,hpc] at h
      obtain rfl := Option.some.inj h
      exact .unlock hpc
    | returned => simp [step,hpc] at h
  · intro h
    cases h with
    | lock hpc hfree => cases h' : w.pc t <;> simp_all [step,Pc.locking,World.lockClient]
    | _ => simp_all [step]

@[simp] theorem go_pc_self (w : World τ) (t : τ) (pc : Pc) : (w.go t pc).pc t = pc := by
  simp [World.go]

@[simp] theorem go_pc_ne (w : World τ) {t u : τ} (h : u ≠ t) (pc : Pc) :
    (w.go t pc).pc u = w.pc u := by
  simp [World.go,h]

theorem step_pc_ne {u : τ} (h : step clientID w t = some w') (hu : u ≠ t) :
    w'.pc u = w.pc u := by
  cases step_iff.mp h with
  | _ => exact go_pc_ne _ hu _

theorem Pc.tmpLock_of_held {pc : Pc} {m : ℕ} (h : pc.held = some m) : pc.tmpLock = some m := by
  cases pc <;> simp_all [Pc.held,Pc.tmpLock]

theorem Pc.of_locking {pc : Pc} {m : ℕ} (h : pc.locking = some m) :
    pc.tmpLock = some m ∧ pc.inScope = true ∧ pc.held = none := by
  cases pc <;> simp_all [Pc.locking,Pc.tmpLock,Pc.inScope,Pc.held]

/-- A step that leaves the table alone: it moves one thread, and takes or gives back
locks for that thread only. -/
theorem Inv.moved (h : Inv clientID w) {pc : Pc} {lock : Option τ} {locks : ℕ → Option τ}
    (hguard : pc.inScope = true ↔ lock = some t)
    (hguards : ∀ u, u ≠ t → (lock = some u ↔ w.clientLockSetLock = some u))
    (howner : ∀ m, pc.held = some m ↔ locks m = some t)
    (howners : ∀ u m, u ≠ t → (locks m = some u ↔ w.clientLock m = some u))
    (hindexed : ∀ m, pc.tmpLock = some m → w.clientLockIndex (clientID t).toInt32 = some m)
    (hmissing : pc = .missing → w.clientLockIndex (clientID t).toInt32 = none)
    (hcreated : ∀ m, pc ≠ .created m) :
    Inv clientID ({ w with clientLockSetLock := lock, clientLock := locks }.go t pc) where
  guard u := by
    by_cases hu : u = t
    · subst hu
      rw [go_pc_self]
      exact hguard
    · rw [go_pc_ne _ hu]
      exact (h.guard u).trans (hguards u hu).symm
  owner u m := by
    by_cases hu : u = t
    · subst hu
      rw [go_pc_self]
      exact howner m
    · rw [go_pc_ne _ hu]
      exact (h.owner u m).trans (howners u m hu).symm
  indexed u m hm := by
    by_cases hu : u = t
    · subst hu
      exact hindexed m (by simpa using hm)
    · rw [go_pc_ne _ hu] at hm
      exact h.indexed u m hm
  missing u hm := by
    by_cases hu : u = t
    · subst hu
      exact hmissing (by simpa using hm)
    · rw [go_pc_ne _ hu] at hm
      exact h.missing u hm
  created u m hm := by
    by_cases hu : u = t
    · subst hu
      exact absurd (by simpa using hm) (hcreated m)
    · rw [go_pc_ne _ hu] at hm
      exact h.created u m hm
  allocated := h.allocated
  index_inj := h.index_inj

theorem inv_step (h : Inv clientID w) (hs : step clientID w t = some w') : Inv clientID w' := by
  have hguard := h.guard t
  have howner := h.owner t
  have hindexed := h.indexed t
  cases step_iff.mp hs with
  | enter hpc hset =>
    rw [hpc] at howner
    exact h.moved (by simp [Pc.inScope]) (by simp [hset,eq_comm]) howner (by simp)
      (by simp [Pc.tmpLock]) (by simp) (by simp)
  | find hpc hm =>
    rw [hpc] at hguard howner
    exact h.moved hguard (by simp) howner (by simp) (by simp [Pc.tmpLock,hm]) (by simp) (by simp)
  | miss hpc hm =>
    rw [hpc] at hguard howner
    exact h.moved hguard (by simp) howner (by simp) (by simp [Pc.tmpLock]) (fun _ => hm) (by simp)
  | allocate hpc =>
    obtain ⟨hguards,howners,hindexes,hmissings,hcreated,halloc,hinj⟩ := h
    have hmissing := hmissings t hpc
    constructor <;> simp only [World.go,Function.update_apply] <;>
      grind [Pc.inScope,Pc.tmpLock,Pc.held]
  | insert hpc =>
    obtain ⟨hguards,howners,hindexes,hmissings,hcreated,halloc,hinj⟩ := h
    have hnew := hcreated t _ hpc
    constructor <;> simp only [World.go,World.putLock,Function.update_apply] <;>
      grind [Pc.inScope,Pc.tmpLock,Pc.held]
  | @lock m hpc hfree =>
    obtain ⟨htmp,hscope,hheld⟩ := Pc.of_locking hpc
    rw [hscope] at hguard
    rw [hheld] at howner
    refine h.moved hguard (by simp) ?_ ?_ ?_ (by simp) (by simp)
    · intro n
      by_cases hn : n = m
      · subst hn
        simp [Pc.held]
      · simpa [Pc.held,hn,Ne.symm hn] using howner n
    · intro u n hu
      by_cases hn : n = m
      · subst hn
        simp [hfree,Ne.symm hu]
      · simp [hn]
    · intro n hn
      obtain rfl : m = n := by simpa [Pc.tmpLock] using hn
      exact hindexed m htmp
  | leave hpc =>
    rw [hpc] at hguard howner hindexed
    refine h.moved (by simp [Pc.inScope]) ?_ howner (by simp) hindexed (by simp) (by simp)
    intro u hu
    simp [hguard.mp rfl,Ne.symm hu]
  | handle hpc =>
    rw [hpc] at hguard howner hindexed
    exact h.moved hguard (by simp) howner (by simp) hindexed (by simp) (by simp)
  | @unlock m hpc =>
    rw [hpc] at hguard howner
    refine h.moved hguard (by simp) ?_ ?_ (by simp [Pc.tmpLock]) (by simp) (by simp)
    · intro n
      by_cases hn : n = m
      · subst hn
        simp [Pc.held]
      · simpa [Pc.held,hn,Ne.symm hn] using howner n
    · intro u n hu
      by_cases hn : n = m
      · subst hn
        simp [(howner n).mp rfl,Ne.symm hu]
      · simp [hn]

theorem inv_exec {es : List τ} (h : Inv clientID w) (hes : Exec (step clientID) w es w') :
    Inv clientID w' :=
  hes.invariant (A := fun _ => True) (fun _ _ _ hv _ hs => inv_step hv hs) h (fun _ _ => trivial)

theorem toInt32_injective : Function.Injective UInt32.toInt32 :=
  Function.LeftInverse.injective UInt32.toUInt32_toInt32

omit [DecidableEq τ] in
/-- Two sessions of one client would have the same mutex. -/
theorem Inv.active_unique (h : Inv clientID w) {u : τ} (ht : Active w t) (hu : Active w u)
    (hid : clientID t = clientID u) : t = u := by
  obtain ⟨m,hm⟩ := ht
  obtain ⟨n,hn⟩ := hu
  have htm := h.indexed t m (Pc.tmpLock_of_held hm)
  have hun := h.indexed u n (Pc.tmpLock_of_held hn)
  rw [hid,hun] at htm
  obtain rfl := Option.some.inj htm
  have htu := ((h.owner t n).mp hm).symm.trans ((h.owner u n).mp hn)
  exact Option.some.inj htu

theorem index_step (h : Inv clientID w) (hs : step clientID w t = some w') {k : Int32} {m : ℕ}
    (hk : w.clientLockIndex k = some m) : w'.clientLockIndex k = some m := by
  cases step_iff.mp hs with
  | insert hpc =>
    have hnone := (h.created t _ hpc).2.1
    have hne : k ≠ (clientID t).toInt32 := by
      rintro rfl
      rw [hnone] at hk
      simp at hk
    simpa [World.go,World.putLock,Function.update_apply,hne] using hk
  | _ => exact hk

theorem index_exec {es : List τ} (h : Inv clientID w) (hes : Exec (step clientID) w es w')
    {k : Int32} {m : ℕ} (hk : w.clientLockIndex k = some m) : w'.clientLockIndex k = some m := by
  have hboth := hes.invariant (P := fun v => Inv clientID v ∧ v.clientLockIndex k = some m)
    (A := fun _ => True)
    (fun _ _ _ hv _ hs => ⟨inv_step hv.1 hs,index_step hv.1 hs hv.2⟩) ⟨h,hk⟩ (fun _ _ => trivial)
  exact hboth.2

/-- At most one session of a client is active, the table keeps the mutex of a client, and
a mutex that is locked is held by a session of the client it belongs to. -/
theorem one_session_per_client {es : List τ} (hes : Exec (step clientID) World.start es w) :
    (∀ t u, Active w t → Active w u → clientID t = clientID u → t = u) ∧
      (∀ fs w', Exec (step clientID) w fs w' →
        ∀ k m, w.clientLockIndex k = some m → w'.clientLockIndex k = some m) ∧
      ∀ m t, w.clientLock m = some t → (w.pc t).held = some m ∧
        ∀ id : UInt32, w.clientLockIndex id.toInt32 = some m ↔ id = clientID t := by
  have h := inv_exec inv_start hes
  refine ⟨fun t u => h.active_unique,fun fs w' hfs k m => index_exec h hfs,?_⟩
  intro m t hm
  have hheld := (h.owner t m).mpr hm
  have hindex := h.indexed t m (Pc.tmpLock_of_held hheld)
  refine ⟨hheld,?_⟩
  intro id
  constructor
  · intro hid
    exact toInt32_injective (h.index_inj _ _ m hid hindex)
  · rintro rfl
    exact hindex

theorem one_session_per_client_two_logins :
    ∃ w : World ℕ, Exec (step fun _ => 7) World.start [0,0,0,0,0,0,1,1] w ∧ Active w 0 ∧
      w.pc 1 = .found 0 ∧ ∀ t u, Active w t → Active w u → t = u := by
  have hobs : (run (step fun _ => 7) World.start [0,0,0,0,0,0,1,1]).map
      (fun w : World ℕ => (w.pc 0,w.pc 1)) = some (.handler 0,.found 0) := rfl
  obtain ⟨w,hrun,hpcs⟩ := Exec.of_run_map _ hobs
  have h := (one_session_per_client hrun).1
  obtain ⟨h0,h1⟩ := Prod.mk.inj hpcs
  refine ⟨w,hrun,⟨0,?_⟩,h1,fun t u ht hu => h t u ht hu rfl⟩
  rw [h0]
  rfl

/-- A thread that goes into the block of the `lock_guard` does so while no session of its
client is active. -/
def Alone (clientID : τ → UInt32) (w : World τ) (t : τ) : Prop :=
  w.pc t = .login → ∀ u, clientID u = clientID t → ¬Active w u

/-- No session of the client of `t` is active, unless it is the one of `t`. -/
def Free (clientID : τ → UInt32) (w : World τ) (t : τ) : Prop :=
  ∀ u, clientID u = clientID t → Active w u → u = t

theorem active_step (hs : step clientID w t = some w') {u : τ} (hu : Active w' u) :
    Active w u ∨ u = t ∧ ∃ m, (w.pc t).locking = some m := by
  by_cases hut : u = t
  · subst hut
    obtain ⟨m,hm⟩ := hu
    cases step_iff.mp hs with
    | lock hpc _ => exact Or.inr ⟨rfl,_,hpc⟩
    | leave hpc => exact Or.inl ⟨_,by rw [hpc]; rfl⟩
    | handle hpc => exact Or.inl ⟨_,by rw [hpc]; rfl⟩
    | _ => simp [World.go,World.putLock,Pc.held] at hm
  · rw [Active,step_pc_ne hs hut] at hu
    exact Or.inl hu

theorem scope_step (hs : step clientID w t = some w') (ht : (w'.pc t).inScope = true) :
    w.pc t = .login ∨ (w.pc t).inScope = true := by
  cases step_iff.mp hs with
  | enter hpc _ => exact Or.inl hpc
  | find hpc _ | miss hpc _ | allocate hpc | insert hpc =>
    rw [hpc]
    exact Or.inr rfl
  | lock hpc _ => exact Or.inr (Pc.of_locking hpc).2.1
  | _ => simp [World.go,Pc.inScope] at ht

/-- Under the condition the thread in the block finds the mutex of its client free. -/
def Unblocked (clientID : τ → UInt32) (w : World τ) : Prop :=
  ∀ t, (w.pc t).inScope = true → Free clientID w t

theorem unblocked_step (h : Inv clientID w) (hfree : Unblocked clientID w)
    (halone : Alone clientID w t) (hs : step clientID w t = some w') : Unblocked clientID w' := by
  intro u hu v hid hv
  by_cases hut : u = t
  · subst hut
    rcases active_step hs hv with hactive | ⟨rfl,-⟩
    · rcases scope_step hs hu with hlogin | hscope
      · exact absurd hactive (halone hlogin v hid)
      · exact hfree u hscope v hid hactive
    · rfl
  · rw [step_pc_ne hs hut] at hu
    rcases active_step hs hv with hactive | ⟨rfl,m,hlock⟩
    · exact hfree u hu v hid hactive
    · -- Two threads in the block at a time.
      have hu' := (h.guard u).mp hu
      have hv' := (h.guard v).mp (Pc.of_locking hlock).2.1
      exact Option.some.inj (hv'.symm.trans hu')

omit [DecidableEq τ] in
theorem Inv.lock_free (h : Inv clientID w) (hfree : Free clientID w t) {m : ℕ}
    (hlock : (w.pc t).locking = some m) : w.clientLock m = none := by
  obtain ⟨hm,-,hheld⟩ := Pc.of_locking hlock
  by_contra hne
  obtain ⟨u,hu⟩ := Option.ne_none_iff_exists'.mp hne
  have huheld := (h.owner u m).mpr hu
  have hid := h.index_inj _ _ m (h.indexed u m (Pc.tmpLock_of_held huheld)) (h.indexed t m hm)
  obtain rfl := hfree u (toInt32_injective hid) ⟨m,huheld⟩
  rw [huheld] at hheld
  simp at hheld

/-- The thread comes to its handler by steps of its own, and the others stay where they are. -/
def Finishes (clientID : τ → UInt32) (w : World τ) (t : τ) : Prop :=
  ∃ es w' m, Exec (step clientID) w es w' ∧ (∀ u ∈ es, u = t) ∧ w'.pc t = .handler m ∧
    w'.clientLockSetLock = none ∧ ∀ u, u ≠ t → w'.pc u = w.pc u

theorem Finishes.head (h : Finishes clientID w' t) (hs : step clientID w t = some w') :
    Finishes clientID w t := by
  obtain ⟨es,v,m,hes,hall,hpc,hset,hother⟩ := h
  refine ⟨t::es,v,m,Exec.succ hs hes,?_,hpc,hset,?_⟩
  · simpa using hall
  · intro u hu
    rw [hother u hu,step_pc_ne hs hu]

theorem free_step (h : Free clientID w t) (hs : step clientID w t = some w') :
    Free clientID w' t := by
  intro u hid hu
  rcases active_step hs hu with hactive | ⟨rfl,-⟩
  · exact h u hid hactive
  · rfl

theorem finishes_locked {m : ℕ} (hpc : w.pc t = .locked m) : Finishes clientID w t := by
  refine ⟨[t],_,m,Exec.succ (step_iff.mpr (.leave hpc)) (Exec.refl _),by simp,go_pc_self _ _ _,rfl,?_⟩
  intro u hu
  exact go_pc_ne _ hu _

theorem finishes_locking (h : Inv clientID w) (hfree : Free clientID w t) {m : ℕ}
    (hpc : (w.pc t).locking = some m) : Finishes clientID w t :=
  (finishes_locked (go_pc_self _ _ _)).head (step_iff.mpr (.lock hpc (h.lock_free hfree hpc)))

theorem finishes_created (h : Inv clientID w) (hfree : Free clientID w t) {m : ℕ}
    (hpc : w.pc t = .created m) : Finishes clientID w t := by
  have hs : step clientID w t = some _ := step_iff.mpr (.insert hpc)
  exact (finishes_locking (inv_step h hs) (free_step hfree hs) (by rw [go_pc_self]; rfl)).head hs

theorem finishes_missing (h : Inv clientID w) (hfree : Free clientID w t)
    (hpc : w.pc t = .missing) : Finishes clientID w t := by
  have hs : step clientID w t = some _ := step_iff.mpr (.allocate hpc)
  exact (finishes_created (inv_step h hs) (free_step hfree hs) (go_pc_self _ _ _)).head hs

theorem finishes_guarded (h : Inv clientID w) (hfree : Free clientID w t)
    (hpc : w.pc t = .guarded) : Finishes clientID w t := by
  cases hm : w.clientLockIndex (clientID t).toInt32 with
  | none =>
    have hs : step clientID w t = some _ := step_iff.mpr (.miss hpc hm)
    exact (finishes_missing (inv_step h hs) (free_step hfree hs) (go_pc_self _ _ _)).head hs
  | some m =>
    have hs : step clientID w t = some _ := step_iff.mpr (.find hpc hm)
    exact (finishes_locking (inv_step h hs) (free_step hfree hs) (by rw [go_pc_self]; rfl)).head hs

theorem finishes_scope (h : Inv clientID w) (hfree : Free clientID w t)
    (hscope : (w.pc t).inScope = true) : Finishes clientID w t := by
  cases hpc : w.pc t with
  | guarded => exact finishes_guarded h hfree hpc
  | found m | inserted m => exact finishes_locking h hfree (m := m) (by rw [hpc]; rfl)
  | missing => exact finishes_missing h hfree hpc
  | created m => exact finishes_created h hfree hpc
  | locked m => exact finishes_locked hpc
  | login | handler m | handled m | returned =>
    rw [hpc] at hscope
    simp [Pc.inScope] at hscope

theorem finishes_login (h : Inv clientID w) (hfree : Free clientID w t) (hpc : w.pc t = .login)
    (hset : w.clientLockSetLock = none) : Finishes clientID w t := by
  have hs : step clientID w t = some _ := step_iff.mpr (.enter hpc hset)
  exact (finishes_guarded (inv_step h hs) (free_step hfree hs) (go_pc_self _ _ _)).head hs

theorem Pc.eq_login {pc : Pc} (h : pc.isLogin = true) (hscope : pc.inScope ≠ true) :
    pc = .login := by
  cases pc <;> simp_all [Pc.isLogin,Pc.inScope]

theorem Pc.not_running_of_inScope {pc : Pc} (h : pc.inScope = true) : pc.running = false := by
  cases pc <;> simp_all [Pc.running,Pc.inScope]

theorem free_of_other {v : World τ} {u : τ} (hnone : ∀ x, clientID x = clientID t → ¬Active w x)
    (hother : ∀ x, x ≠ u → v.pc x = w.pc x) (hu : clientID u = clientID t → ¬Active v u) :
    Free clientID v t := by
  intro x hid hx
  by_cases hxu : x = u
  · subst hxu
    exact absurd hx (hu hid)
  · rw [Active,hother x hxu] at hx
    exact absurd hx (hnone x hid)

theorem clears_scope (h : Inv clientID w) {u : τ} (hfree : Free clientID w u)
    (hscope : (w.pc u).inScope = true) (hnone : ∀ x, clientID x = clientID t → ¬Active w x) :
    ∃ es v, Exec (step clientID) w es v ∧ (∀ x ∈ es, x = u) ∧ v.clientLockSetLock = none ∧
      (∀ x, x ≠ u → v.pc x = w.pc x) ∧ Free clientID v t := by
  obtain ⟨es,v,m,hes,hall,hpc,hset,hother⟩ := finishes_scope h hfree hscope
  by_cases hid : clientID u = clientID t
  · have hs₁ : step clientID v u = some _ := step_iff.mpr (.handle hpc)
    have hs₂ : step clientID (v.go u (.handled m)) u = some _ :=
      step_iff.mpr (.unlock (go_pc_self _ _ _))
    have hother' := fun x (hx : x ≠ u) =>
      (step_pc_ne hs₂ hx).trans ((step_pc_ne hs₁ hx).trans (hother x hx))
    refine ⟨es++[u,u],_,hes.append (Exec.succ hs₁ (Exec.succ hs₂ (Exec.refl _))),?_,hset,hother',?_⟩
    · intro x hx
      rcases List.mem_append.mp hx with hx | hx
      · exact hall x hx
      · simpa using hx
    · apply free_of_other hnone hother'
      rintro - ⟨n,hn⟩
      simp [Pc.held] at hn
  · exact ⟨es,v,hes,hall,hset,hother,free_of_other hnone hother fun hid' => absurd hid' hid⟩

/-- A login whose client has no active session comes to its handler without a step of a
session that another client is running. -/
theorem completes (h : Inv clientID w) (hun : Unblocked clientID w)
    (hlogin : (w.pc t).isLogin = true) (hnone : ∀ u, clientID u = clientID t → ¬Active w u) :
    ∃ fs w' m, Exec (step clientID) w fs w' ∧ w'.pc t = .handler m ∧
      ∀ u ∈ fs, (w.pc u).running = true → clientID u = clientID t := by
  have hfree : Free clientID w t := fun u hid hu => absurd hu (hnone u hid)
  by_cases hscope : (w.pc t).inScope = true
  · obtain ⟨es,v,m,hes,hall,hpc,-⟩ := finishes_scope h hfree hscope
    exact ⟨es,v,m,hes,hpc,fun u hu _ => by rw [hall u hu]⟩
  have hpc := Pc.eq_login hlogin hscope
  cases hset : w.clientLockSetLock with
  | none =>
    obtain ⟨es,v,m,hes,hall,hpc,-⟩ := finishes_login h hfree hpc hset
    exact ⟨es,v,m,hes,hpc,fun u hu _ => by rw [hall u hu]⟩
  | some u =>
    have hu := (h.guard u).mpr hset
    have htu : t ≠ u := by
      rintro rfl
      exact hscope hu
    obtain ⟨es,v,hes,hall,hset',hother,hfree'⟩ := clears_scope h (hun u hu) hu hnone
    obtain ⟨fs,v',m,hfs,hall',hpc',-⟩ :=
      finishes_login (inv_exec h hes) hfree' (by rw [hother t htu,hpc]) hset'
    refine ⟨es++fs,v',m,hes.append hfs,hpc',?_⟩
    intro x hx hrunning
    rcases List.mem_append.mp hx with hx | hx
    · rw [hall x hx,Pc.not_running_of_inScope hu] at hrunning
      simp at hrunning
    · rw [hall' x hx]

/-- In a run in which no login goes into the block while a session of its client is
active, no thread waits for a client's mutex inside the block, and a login whose client
has no active session needs no step of a session that another client is running. -/
theorem waiting_blocks_nobody {es : List τ} (hes : Exec (step clientID) World.start es w)
    (halone : Along (step clientID) (Alone clientID) World.start es) :
    (∀ t m, (w.pc t).inScope = true → (w.pc t).locking = some m → w.clientLock m = none) ∧
      ∀ t, (w.pc t).isLogin = true → (∀ u, clientID u = clientID t → ¬Active w u) →
        ∃ fs w' m, Exec (step clientID) w fs w' ∧ w'.pc t = .handler m ∧
          ∀ u ∈ fs, (w.pc u).running = true → clientID u = clientID t := by
  have hboth := hes.invariant_along (P := fun v => Inv clientID v ∧ Unblocked clientID v)
    (A := fun _ => True)
    (fun v t v' hv _ ha hs => ⟨inv_step hv.1 hs,unblocked_step hv.1 hv.2 ha hs⟩)
    ⟨inv_start,fun t ht => by simp [World.start,Pc.inScope] at ht⟩ (fun _ _ => trivial) halone
  refine ⟨fun t m hscope hlock => hboth.1.lock_free (hboth.2 t hscope) hlock,?_⟩
  intro t hlogin hnone
  exact completes hboth.1 hboth.2 hlogin hnone

omit [DecidableEq τ] in
theorem alone_of_injective (hinj : Function.Injective clientID) (w : World τ) (t : τ) :
    Alone clientID w t := by
  rintro hpc u hid ⟨m,hm⟩
  obtain rfl := hinj hid
  rw [hpc] at hm
  simp [Pc.held] at hm

def twoClients (t : Bool) : UInt32 := if t then 9 else 7

/-- A second client logs in while the first is in its handler. -/
theorem waiting_blocks_nobody_two_clients :
    ∃ w, Exec (step twoClients) World.start [false,false,false,false,false,false,true,true] w ∧
      w.pc false = .handler 0 ∧ w.pc true = .missing ∧
      ∃ fs w' m, Exec (step twoClients) w fs w' ∧ w'.pc true = .handler m ∧
        ∀ u ∈ fs, (w.pc u).running = true → twoClients u = twoClients true := by
  have hobs : (run (step twoClients) World.start
      [false,false,false,false,false,false,true,true]).map
      (fun w => (w.pc false,w.pc true)) = some (.handler 0,.missing) := rfl
  obtain ⟨w,hrun,hpcs⟩ := Exec.of_run_map _ hobs
  obtain ⟨h0,h1⟩ := Prod.mk.inj hpcs
  have hinj : Function.Injective twoClients := by decide
  have h := waiting_blocks_nobody hrun
    (along_of_forall (fun t _ w => alone_of_injective hinj w t) World.start)
  refine ⟨w,hrun,h0,h1,h.2 true (by rw [h1]; rfl) ?_⟩
  rintro u hid ⟨m,hm⟩
  rw [hinj hid,h1] at hm
  simp [Pc.held] at hm

theorem exec_pc_ne {es : List τ} (hes : Exec (step clientID) w es w') (ht : t ∉ es) :
    w'.pc t = w.pc t := by
  induction hes with
  | refl => rfl
  | @succ s v u e es hs _ ih =>
    rw [ih (by simp_all),step_pc_ne hs (by simp_all)]

def sharedClient (t : ℕ) : UInt32 := if t < 2 then 7 else 9

/-- A client logs in again during its session. Its second thread waits for the first in
the block, and then a thread of the other client gets no further than its login. -/
theorem waiting_login_blocks_others :
    ∃ w, Exec (step sharedClient) World.start [0,0,0,0,0,0,1,1] w ∧
      ((w.pc 1).inScope = true ∧ (w.pc 1).locking = some 0 ∧ w.clientLock 0 = some 0) ∧
      (w.pc 2).isLogin = true ∧ (∀ u, sharedClient u = sharedClient 2 → ¬Active w u) ∧
      ¬∃ fs w' m, Exec (step sharedClient) w fs w' ∧ w'.pc 2 = .handler m ∧
        ∀ u ∈ fs, (w.pc u).running = true → sharedClient u = sharedClient 2 := by
  have hobs : (run (step sharedClient) World.start [0,0,0,0,0,0,1,1]).map
      (fun w => (w.pc 0,w.pc 1,w.clientLockSetLock,w.clientLock 0)) =
      some (.handler 0,.found 0,some 1,some 0) := rfl
  obtain ⟨w,hrun,hw⟩ := Exec.of_run_map _ hobs
  simp only [Prod.mk.injEq] at hw
  obtain ⟨h0,h1,hset,hlock⟩ := hw
  have hlogin : ∀ u, 2 ≤ u → w.pc u = .login := by
    intro u hu
    rw [exec_pc_ne hrun (by simp; omega)]
    rfl
  refine ⟨w,hrun,⟨by rw [h1]; rfl,by rw [h1]; rfl,hlock⟩,by rw [hlogin 2 le_rfl]; rfl,?_,?_⟩
  · rintro u hid ⟨m,hm⟩
    have hu : 2 ≤ u := by
      by_contra hlt
      simp [sharedClient,show u < 2 by omega] at hid
    rw [hlogin u hu] at hm
    simp [Pc.held] at hm
  · rintro ⟨fs,w',m,hfs,hpc,hrunning⟩
    cases hfs with
    | refl =>
      rw [hlogin 2 le_rfl] at hpc
      simp at hpc
    | @succ _ v _ u fs hs _ =>
      match u with
      | 0 =>
        have hid := hrunning 0 (by simp) (by rw [h0]; rfl)
        simp [sharedClient] at hid
      | 1 => simp [step,h1,World.lockClient,hlock] at hs
      | u+2 => simp [step,hlogin (u+2) (by omega),hset] at hs

end ClientLocks
end CloudServer
