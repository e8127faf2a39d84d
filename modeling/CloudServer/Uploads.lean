import CloudServer.Packing
import CloudServer.PlainIndex
import CloudServer.DataWriter
import CloudServer.Catalog

/-! Any number of upload sessions on one server. A step is one login, one received
chunk message, one locked section of `ProcessOneBatch`, the flush of the last
container, the setting of `done_`, or one step of a session's writer thread. A push
that waits for room in the queue is a step that has not happened yet. -/
namespace CloudServer
namespace Uploads

open ByteMemory Execution StorageCore ContainerFormat Packing PlainIndex DataWriter Catalog

/-- An upload session: its client, the batch being processed, whether the receive
loop still runs, the flag `done_`, and its writer thread. -/
structure Session where
  client : ClientVar
  batch : Batch
  live : Bool
  done : Bool
  writer : Writer

structure World where
  shared : Shared
  disk : Disk
  sessions : ℕ → Option Session

inductive Event
  | login (i : ℕ) (prior : InmemoryContainer) (buffer : Mem UInt8)
  | message (i currentItemNum : ℕ) (payload : Bytes)
  | chunk (i : ℕ)
  | lastContainer (i : ℕ)
  | setDone (i : ℕ)
  | writer (i k : ℕ)

def World.put (w : World) (i : ℕ) (s : Session) : World :=
  { w with sessions := Function.update w.sessions i (some s) }

def newSession (uuid : Bytes) (prior : InmemoryContainer) (buffer : Mem UInt8) : Session where
  client := ⟨initUploadBuffer prior uuid,[]⟩
  batch := ⟨buffer,0,0,0,[]⟩
  live := true
  done := false
  writer := ⟨.testDone,[]⟩

def Session.pipe (s : Session) (disk : Disk) : Pipe := ⟨⟨s.client.inputMQ,s.done⟩,disk,s.writer⟩

def sessionStep (H : Digest) (uuid : ℕ → Bytes) (w : World) (i : ℕ) (s : Session) :
    Event → Option World
  | .login _ _ _ => none
  | .message _ currentItemNum payload =>
    if s.live ∧ ¬ s.batch.index < s.batch.chunkNum then
      some (w.put i { s with batch := Batch.receive s.batch.dataBuffer currentItemNum payload })
    else none
  | .chunk _ =>
    if s.live then
      (batchStep H uuid w.shared s.client s.batch).map fun r =>
        { (w.put i { s with client := r.2.1, batch := r.2.2 }) with shared := r.1 }
    else none
  | .lastContainer _ =>
    if s.live ∧ ¬ s.batch.index < s.batch.chunkNum then
      some (w.put i { s with client := StorageCore.lastContainer s.client, live := false })
    else none
  | .setDone _ => if s.live then none else some (w.put i { s with done := true })
  | .writer _ k =>
    (writerStep (s.pipe w.disk) k).map fun p =>
      { (w.put i { s with client.inputMQ := p.inputMQ.items, writer := p.writer }) with
        disk := p.disk }

def Event.session : Event → ℕ
  | .login i _ _ | .message i _ _ | .chunk i | .lastContainer i | .setDone i | .writer i _ => i

def step (H : Digest) (uuid : ℕ → Bytes) (w : World) (e : Event) : Option World :=
  match w.sessions e.session with
  | some s => sessionStep H uuid w e.session s e
  | none =>
    match e with
    | .login i prior buffer =>
      some { (w.put i (newSession (uuid w.shared.drawn) prior buffer)) with
        shared := { w.shared with drawn := w.shared.drawn+1 } }
    | _ => none

def empty : World := ⟨⟨∅,0,0,0⟩,fun _ => none,fun _ => none⟩

/-- Everything a session has pushed: saved, in the writer's hands, or queued. -/
def Session.pushes (s : Session) : List Container :=
  s.writer.saved ++ s.writer.point.held ++ s.client.inputMQ

theorem pushes_saved {s : Session} {k : ℕ} {c : Container} (h : s.writer.saved[k]? = some c) :
    s.pushes[k]? = some c := by
  have hk := (List.getElem?_eq_some_iff.mp h).1
  rw [Session.pushes,List.append_assoc,List.getElem?_append_left hk,h]

theorem pushes_unsaved {s : Session} {k : ℕ} {c : Container}
    (h : (s.writer.point.held ++ s.client.inputMQ)[k]? = some c) :
    s.pushes[s.writer.saved.length+k]? = some c := by
  rw [Session.pushes,List.append_assoc,List.getElem?_append_right (by omega),
    Nat.add_sub_cancel_left,h]

theorem pushes_held {s : Session} {k : ℕ} {c : Container} (h : s.writer.point.held[k]? = some c) :
    s.pushes[s.writer.saved.length+k]? = some c := by
  have hk := (List.getElem?_eq_some_iff.mp h).1
  exact pushes_unsaved (by rw [List.getElem?_append_left hk,h])

theorem pushes_queued {s : Session} {k : ℕ} {c : Container} (h : s.client.inputMQ[k]? = some c) :
    s.pushes[s.writer.saved.length+s.writer.point.held.length+k]? = some c := by
  rw [Nat.add_assoc]
  exact pushes_unsaved (by rw [List.getElem?_append_right (by omega),Nat.add_sub_cancel_left,h])

theorem pushes_cases {s : Session} {k : ℕ} {c : Container} (h : s.pushes[k]? = some c) :
    s.writer.saved[k]? = some c ∨
    (∃ j, k = s.writer.saved.length+j ∧ s.writer.point.held[j]? = some c) ∨
    (∃ j, k = s.writer.saved.length+s.writer.point.held.length+j ∧
      s.client.inputMQ[j]? = some c) := by
  rw [Session.pushes,List.append_assoc] at h
  rcases Nat.lt_or_ge k s.writer.saved.length with hk | hk
  · rw [List.getElem?_append_left hk] at h
    exact Or.inl h
  · rw [List.getElem?_append_right hk] at h
    rcases Nat.lt_or_ge (k-s.writer.saved.length) s.writer.point.held.length with hj | hj
    · rw [List.getElem?_append_left hj] at h
      exact Or.inr (Or.inl ⟨_,by omega,h⟩)
    · rw [List.getElem?_append_right hj] at h
      exact Or.inr (Or.inr ⟨_,by omega,h⟩)

/-- The places of the abstract store: the container a session is filling, and the
`k`-th container it has pushed, wherever that is by now. -/
inductive Place
  | memory (i : ℕ)
  | pushed (i k : ℕ)
  deriving DecidableEq

/-- A container as the decoder reads it, over memory that held zeros. -/
def contentOf (c : Container) : Group := (c.containerID,listChunks (write (fun _ => 0) 0 c.written))

def Session.inMemory (s : Session) : Option Group :=
  if s.live then some (s.client.curContainer.containerID,headerEntries s.client.curContainer)
  else none

def view (w : World) : View Place Bytes Bytes Bytes
  | .memory i => (w.sessions i).bind Session.inMemory
  | .pushed i k => (w.sessions i).bind fun s => (s.pushes[k]?).map contentOf

def World.index (w : World) (fp : Bytes) : Option Bytes := w.shared.indexStore.lookup fp

@[simp] theorem put_self (w : World) (i : ℕ) (s : Session) : (w.put i s).sessions i = some s :=
  Function.update_self _ _ _
theorem put_ne (w : World) {i j : ℕ} (s : Session) (h : j ≠ i) :
    (w.put i s).sessions j = w.sessions j := Function.update_of_ne h _ _

theorem put_cases {w : World} {i j : ℕ} {s t : Session} (h : (w.put i s).sessions j = some t) :
    (j = i ∧ t = s) ∨ (j ≠ i ∧ w.sessions j = some t) := by
  by_cases hj : j = i
  · subst hj
    rw [put_self] at h
    exact Or.inl ⟨rfl,(Option.some.inj h).symm⟩
  · rw [put_ne w s hj] at h
    exact Or.inr ⟨hj,h⟩

theorem view_put {w : World} {i : ℕ} {s s' : Session} (hs : w.sessions i = some s)
    (hp : s'.pushes = s.pushes) :
    view (w.put i s') = Function.update (view w) (.memory i) s'.inMemory := by
  funext a
  cases a with
  | memory j =>
    by_cases hj : j = i
    · subst hj
      simp [view]
    · simp [view,put_ne w s' hj,hj]
  | pushed j k =>
    by_cases hj : j = i
    · subst hj
      simp [view,hs,hp]
    · simp [view,put_ne w s' hj]

theorem view_put_same {w : World} {i : ℕ} {s s' : Session} (hs : w.sessions i = some s)
    (hp : s'.pushes = s.pushes) (hm : s'.inMemory = s.inMemory) : view (w.put i s') = view w := by
  rw [view_put hs hp,hm,Function.update_eq_self_iff]
  simp [view,hs]

theorem view_put_push {w : World} {i : ℕ} {s s' : Session} {c : Container}
    (hs : w.sessions i = some s) (hp : s'.pushes = s.pushes ++ [c]) :
    view (w.put i s') = Function.update (Function.update (view w) (.memory i) s'.inMemory)
      (.pushed i s.pushes.length) (some (contentOf c)) := by
  funext a
  cases a with
  | memory j =>
    by_cases hj : j = i
    · subst hj
      simp [view]
    · simp [view,put_ne w s' hj,hj]
  | pushed j k =>
    by_cases hj : j = i
    · subst hj
      by_cases hk : k = s.pushes.length
      · subst hk
        simp [view,hp]
      · rw [Function.update_of_ne (by simpa using hk),Function.update_of_ne (by simp)]
        simp only [view,put_self,hs,Option.bind_some,hp]
        congr 1
        rcases Nat.lt_or_gt_of_ne hk with hlt | hgt
        · exact List.getElem?_append_left hlt
        · rw [List.getElem?_eq_none (by simp; omega),List.getElem?_eq_none (by omega)]
    · simp [view,put_ne w s' hj,hj]

theorem view_pushed_length {w : World} {i : ℕ} {s : Session} (hs : w.sessions i = some s) :
    view w (.pushed i s.pushes.length) = none := by
  simp [view,hs]

/-- The writer thread moves containers along without changing what was pushed. -/
theorem writerStep_pushes {s : Session} {disk : Disk} {k : ℕ} {p : Pipe}
    (h : writerStep (s.pipe disk) k = some p) :
    p.writer.saved ++ p.writer.point.held ++ p.inputMQ.items = s.pushes ∧
      p.inputMQ.done = s.done := by
  obtain ⟨⟨cur,mq⟩,batch,live,done,⟨point,saved⟩⟩ := s
  cases point with
  | testDone =>
    simp only [writerStep,Session.pipe,Option.some.injEq] at h
    subst h
    cases done <;> simp [Session.pushes,Point.held]
  | testEmpty =>
    simp only [writerStep,Session.pipe,Option.some.injEq] at h
    subst h
    simp [Session.pushes,Point.held]
  | pop flag =>
    cases mq <;> simp only [writerStep,Session.pipe,Option.some.injEq] at h <;> subst h <;>
      simp [Session.pushes,Point.held]
  | openFile flag c =>
    simp only [writerStep,Session.pipe,Option.some.injEq] at h
    subst h
    simp [Session.pushes,Point.held]
  | writeFile flag c n =>
    simp only [writerStep,Session.pipe] at h
    split_ifs at h <;> obtain rfl := Option.some.inj h <;> simp [Session.pushes,Point.held]
  | testFlag flag =>
    simp only [writerStep,Session.pipe,Option.some.injEq] at h
    subst h
    cases flag <;> simp [Session.pushes,Point.held]
  | returned => simp [writerStep,Session.pipe] at h

inductive Takes (H : Digest) (uuid : ℕ → Bytes) (w : World) : Event → World → Prop
  | login {i : ℕ} (prior : InmemoryContainer) (buffer : Mem UInt8) (hs : w.sessions i = none) :
    Takes H uuid w (.login i prior buffer)
      { (w.put i (newSession (uuid w.shared.drawn) prior buffer)) with
        shared := { w.shared with drawn := w.shared.drawn+1 } }
  | message {i : ℕ} {s : Session} (currentItemNum : ℕ) (payload : Bytes)
    (hs : w.sessions i = some s) (hlive : s.live = true)
    (hidle : ¬ s.batch.index < s.batch.chunkNum) :
    Takes H uuid w (.message i currentItemNum payload)
      (w.put i { s with batch := Batch.receive s.batch.dataBuffer currentItemNum payload })
  | chunk {i : ℕ} {s : Session} {r : Locked} (hs : w.sessions i = some s) (hlive : s.live = true)
    (hbusy : s.batch.index < s.batch.chunkNum)
    (hr : r = dedupChunk uuid w.shared s.client (H.hash s.batch.chunk) s.batch.containerNameStr
      s.batch.chunk) :
    Takes H uuid w (.chunk i)
      { (w.put i { s with client := r.client, batch := s.batch.advance r.containerNameStr }) with
        shared := r.shared }
  | lastContainer {i : ℕ} {s : Session} (hs : w.sessions i = some s) (hlive : s.live = true)
    (hidle : ¬ s.batch.index < s.batch.chunkNum) :
    Takes H uuid w (.lastContainer i)
      (w.put i { s with client := StorageCore.lastContainer s.client, live := false })
  | setDone {i : ℕ} {s : Session} (hs : w.sessions i = some s) (hdead : s.live = false) :
    Takes H uuid w (.setDone i) (w.put i { s with done := true })
  | writer {i k : ℕ} {s : Session} {p : Pipe} (hs : w.sessions i = some s)
    (hp : writerStep (s.pipe w.disk) k = some p) :
    Takes H uuid w (.writer i k)
      { (w.put i { s with client.inputMQ := p.inputMQ.items, writer := p.writer }) with
        disk := p.disk }

theorem takes_of_step {H : Digest} {uuid : ℕ → Bytes} {w w' : World} {e : Event}
    (h : step H uuid w e = some w') : Takes H uuid w e w' := by
  unfold step at h
  cases hs : w.sessions e.session with
  | none =>
    rw [hs] at h
    cases e with
    | login i prior buffer =>
      obtain rfl := Option.some.inj h
      exact .login prior buffer hs
    | message | chunk | lastContainer | setDone | writer => simp at h
  | some s =>
    rw [hs] at h
    cases e with
    | login => simp [sessionStep] at h
    | message i n payload =>
      simp only [sessionStep] at h
      split_ifs at h with hcond
      obtain rfl := Option.some.inj h
      exact .message n payload hs hcond.1 hcond.2
    | chunk i =>
      simp only [sessionStep,batchStep] at h
      split_ifs at h with hlive hbusy
      · simp only [Option.map_some,Option.some.injEq] at h
        subst h
        exact .chunk hs hlive hbusy rfl
      · simp at h
    | lastContainer i =>
      simp only [sessionStep] at h
      split_ifs at h with hcond
      obtain rfl := Option.some.inj h
      exact .lastContainer hs hcond.1 hcond.2
    | setDone i =>
      simp only [sessionStep] at h
      split_ifs at h with hlive
      obtain rfl := Option.some.inj h
      exact .setDone hs (by simpa using hlive)
    | writer i k =>
      obtain ⟨p,hp,rfl⟩ := Option.map_eq_some_iff.mp h
      exact .writer hs hp

theorem sessions_other {H : Digest} {uuid : ℕ → Bytes} {w w' : World} {e : Event} {j : ℕ}
    (h : Takes H uuid w e w') (hj : e.session ≠ j) : w'.sessions j = w.sessions j := by
  cases h <;> exact put_ne _ _ hj.symm

theorem sessions_exec {H : Digest} {uuid : ℕ → Bytes} {w w' : World} {es : List Event} {j : ℕ}
    (h : Exec (step H uuid) w es w') (hes : ∀ e ∈ es, e.session ≠ j) :
    w'.sessions j = w.sessions j := by
  refine h.invariant (P := fun v => v.sessions j = w.sessions j) ?_ rfl hes
  intro v e v' hv he hstep
  rw [sessions_other (takes_of_step hstep) he,hv]

end Uploads
end CloudServer
