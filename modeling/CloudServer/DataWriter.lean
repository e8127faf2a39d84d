import CloudServer.Structures
import CloudServer.Execution

/-! The container queue between a session's receiver and its writer thread.
`writerStep` is `DataWriter::Run` at the granularity of its reads of shared state:
the flag, the emptiness test, the pop, and the opening and writing of a file. The
queue is a first-in first-out list, and its size is read only after the flag. -/
namespace CloudServer
namespace DataWriter

open ByteMemory Execution

structure MessageQueue where
  items : List Container
  done : Bool
  deriving DecidableEq

def MessageQueue.isEmpty (mq : MessageQueue) : Bool := mq.items.isEmpty

/-- A container file; `closed` tells that `fclose` has returned. -/
structure DiskFile where
  content : Bytes
  closed : Bool
  deriving DecidableEq

abbrev Disk := Bytes → Option DiskFile

/-- Control points of `DataWriter::Run` and, inside it, of `SaveToFile`. -/
inductive Point
  | testDone
  | testEmpty
  | pop (jobDoneFlag : Bool)
  | openFile (jobDoneFlag : Bool) (tmpContainer : Container)
  | writeFile (jobDoneFlag : Bool) (tmpContainer : Container) (size : ℕ)
  | testFlag (jobDoneFlag : Bool)
  | returned
  deriving DecidableEq

structure Writer where
  point : Point
  saved : List Container
  deriving DecidableEq

/-- The queue, the container directory and the writer that serves them. -/
structure Pipe where
  inputMQ : MessageQueue
  disk : Disk
  writer : Writer

def saveToFile (disk : Disk) (c : Container) : Disk :=
  Function.update disk c.containerID (some ⟨c.written,true⟩)

/-- One step of the writer. A write of the file makes `k` more bytes visible. -/
def writerStep (p : Pipe) (k : ℕ) : Option Pipe :=
  match p.writer.point with
  | .testDone =>
    some { p with writer.point := if p.inputMQ.done then .testEmpty else .pop false }
  | .testEmpty => some { p with writer.point := .pop p.inputMQ.isEmpty }
  | .pop flag =>
    match p.inputMQ.items with
    | [] => some { p with writer.point := .testFlag flag }
    | c::cs => some { p with inputMQ.items := cs, writer.point := .openFile flag c }
  | .openFile flag c =>
    some { p with
      disk := Function.update p.disk c.containerID (some ⟨[],false⟩)
      writer.point := .writeFile flag c 0 }
  | .writeFile flag c size =>
    if size+k < c.written.length then
      some { p with
        disk := Function.update p.disk c.containerID (some ⟨c.written.take (size+k),false⟩)
        writer.point := .writeFile flag c (size+k) }
    else some ⟨p.inputMQ,saveToFile p.disk c,⟨.testFlag flag,p.writer.saved ++ [c]⟩⟩
  | .testFlag flag => some { p with writer.point := if flag then .returned else .testDone }
  | .returned => none

def Point.held : Point → List Container
  | .openFile _ c => [c]
  | .writeFile _ c _ => [c]
  | _ => []

/-- The thread that runs `EdgeUploadThread`: it joins both threads, then deletes the
`ClientVar`, whose queue checks that it is empty. -/
inductive Main
  | joining | deleted | queueNotEmpty
  deriving DecidableEq

structure Session where
  unsent : List Container
  pipe : Pipe
  main : Main

inductive Event
  | push
  | setDone
  | writer (k : ℕ)
  | delete

/-- One step of an upload session whose receiver still has to push `unsent`. A push
on a queue of `capacity` containers spins. -/
def step (capacity : ℕ) (s : Session) : Event → Option Session
  | .push =>
    match s.unsent with
    | [] => none
    | c::cs =>
      if s.pipe.inputMQ.items.length < capacity then
        some { s with unsent := cs, pipe.inputMQ.items := s.pipe.inputMQ.items ++ [c] }
      else some s
  | .setDone =>
    if s.unsent = [] then some { s with pipe.inputMQ.done := true } else none
  | .writer k => (writerStep s.pipe k).map fun p => { s with pipe := p }
  | .delete =>
    if s.pipe.inputMQ.done = true ∧ s.pipe.writer.point = .returned ∧ s.main = .joining then
      some { s with main := if s.pipe.inputMQ.isEmpty then .deleted else .queueNotEmpty }
    else none

def start (disk : Disk) (containers : List Container) : Session :=
  ⟨containers,⟨⟨[],false⟩,disk,⟨.testDone,[]⟩⟩,.joining⟩

/-- What a flag carried at a control point promises about the shared state. -/
def Promise (p : Pipe) : Prop :=
  match p.writer.point with
  | .testEmpty => p.inputMQ.done = true
  | .pop flag => flag = true → p.inputMQ.done = true ∧ p.inputMQ.items = []
  | .openFile flag _ => flag = false
  | .writeFile flag _ _ => flag = false
  | .testFlag flag => flag = true → p.inputMQ.done = true ∧ p.inputMQ.items = []
  | .returned => p.inputMQ.done = true ∧ p.inputMQ.items = []
  | .testDone => True

/-- The directory after the saves so far, with the file being written on top. -/
def DiskOf (disk₀ : Disk) (p : Pipe) : Prop :=
  match p.writer.point with
  | .writeFile _ c n => p.disk = Function.update (p.writer.saved.foldl saveToFile disk₀)
      c.containerID (some ⟨c.written.take n,false⟩)
  | _ => p.disk = p.writer.saved.foldl saveToFile disk₀

/-- Nothing is lost, duplicated or reordered on the way from receiver to disk. -/
structure Inv (disk₀ : Disk) (containers : List Container) (s : Session) : Prop where
  order : s.pipe.writer.saved ++ s.pipe.writer.point.held ++ s.pipe.inputMQ.items ++ s.unsent =
    containers
  finished : s.pipe.inputMQ.done = true → s.unsent = []
  promise : Promise s.pipe
  disk : DiskOf disk₀ s.pipe
  main : s.main ≠ .queueNotEmpty

theorem inv_start (disk₀ : Disk) (containers : List Container) :
    Inv disk₀ containers (start disk₀ containers) :=
  ⟨by simp [start,Point.held],by simp [start],trivial,rfl,by simp [start]⟩

theorem writerStep_promise {p p' : Pipe} {k : ℕ} (hp : Promise p) (h : writerStep p k = some p') :
    Promise p' := by
  obtain ⟨mq,disk,⟨point,saved⟩⟩ := p
  cases point with
  | testDone =>
    simp only [writerStep,Option.some.injEq] at h
    subst h
    cases hdone : mq.done <;> simp_all [Promise]
  | testEmpty =>
    simp only [writerStep,Option.some.injEq] at h
    subst h
    simp_all [Promise,MessageQueue.isEmpty]
  | pop flag =>
    simp only [writerStep] at h
    cases hitems : mq.items with
    | nil =>
      simp only [hitems,Option.some.injEq] at h
      subst h
      simp_all [Promise]
    | cons c cs =>
      simp only [hitems,Option.some.injEq] at h
      subst h
      cases flag with
      | false => rfl
      | true => simp [Promise,hitems] at hp
  | openFile flag c =>
    simp only [writerStep,Option.some.injEq] at h
    subst h
    exact hp
  | writeFile flag c n =>
    simp only [writerStep] at h
    split_ifs at h with hlt
    · obtain rfl := Option.some.inj h
      exact hp
    · obtain rfl := Option.some.inj h
      simp_all [Promise]
  | testFlag flag =>
    simp only [writerStep,Option.some.injEq] at h
    subst h
    cases flag <;> simp_all [Promise]
  | returned => simp [writerStep] at h

theorem promise_push {p : Pipe} (hp : Promise p) (hopen : p.inputMQ.done = false)
    (items : List Container) : Promise { p with inputMQ.items := items } := by
  unfold Promise at hp ⊢
  cases hpoint : p.writer.point <;> simp_all

theorem promise_setDone {p : Pipe} (hp : Promise p) : Promise { p with inputMQ.done := true } := by
  unfold Promise at hp ⊢
  cases hpoint : p.writer.point <;> simp_all

theorem writerStep_inv {disk₀ : Disk} {p p' : Pipe} {k : ℕ} (hd : DiskOf disk₀ p)
    (h : writerStep p k = some p') :
    p'.inputMQ.done = p.inputMQ.done ∧
      p'.writer.saved ++ p'.writer.point.held ++ p'.inputMQ.items =
        p.writer.saved ++ p.writer.point.held ++ p.inputMQ.items ∧
      DiskOf disk₀ p' := by
  obtain ⟨mq,disk,⟨point,saved⟩⟩ := p
  cases point with
  | testDone =>
    simp only [writerStep,Option.some.injEq] at h
    subst h
    cases hdone : mq.done <;> simp_all [DiskOf,Point.held]
  | testEmpty =>
    simp only [writerStep,Option.some.injEq] at h
    subst h
    simp_all [DiskOf,Point.held]
  | pop flag =>
    simp only [writerStep] at h
    cases hitems : mq.items with
    | nil =>
      simp only [hitems,Option.some.injEq] at h
      subst h
      simp_all [DiskOf,Point.held]
    | cons c cs =>
      simp only [hitems,Option.some.injEq] at h
      subst h
      simp_all [DiskOf,Point.held]
  | openFile flag c =>
    simp only [writerStep,Option.some.injEq] at h
    subst h
    simp_all [DiskOf,Point.held]
  | writeFile flag c n =>
    simp only [writerStep] at h
    split_ifs at h with hlt
    · obtain rfl := Option.some.inj h
      simp_all [DiskOf,Point.held]
    · obtain rfl := Option.some.inj h
      simp_all [DiskOf,Point.held,saveToFile]
  | testFlag flag =>
    simp only [writerStep,Option.some.injEq] at h
    subst h
    cases flag <;> simp_all [DiskOf,Point.held]
  | returned => simp [writerStep] at h

theorem inv_step {disk₀ : Disk} {containers : List Container} {capacity : ℕ} {s s' : Session}
    {e : Event} (hi : Inv disk₀ containers s) (h : step capacity s e = some s') :
    Inv disk₀ containers s' := by
  obtain ⟨horder,hfin,hpromise,hdisk,hmain⟩ := hi
  cases e with
  | push =>
    simp only [step] at h
    split at h
    · simp at h
    · rename_i c cs hun
      split_ifs at h with hcap
      · obtain rfl := Option.some.inj h
        have hopen : s.pipe.inputMQ.done = false := by
          cases hd : s.pipe.inputMQ.done with
          | false => rfl
          | true => simp [hfin hd] at hun
        refine ⟨?_,by simp [hopen],?_,?_,hmain⟩
        · rw [← horder,hun]
          simp
        · exact promise_push hpromise hopen _
        · exact hdisk
      · obtain rfl := Option.some.inj h
        exact ⟨horder,hfin,hpromise,hdisk,hmain⟩
  | setDone =>
    simp only [step] at h
    split_ifs at h with hun
    obtain rfl := Option.some.inj h
    exact ⟨horder,fun _ => hun,promise_setDone hpromise,hdisk,hmain⟩
  | writer k =>
    simp only [step,Option.map_eq_some_iff] at h
    obtain ⟨p,hp,rfl⟩ := h
    obtain ⟨hdone,hord,hdk⟩ := writerStep_inv hdisk hp
    exact ⟨by rw [← horder]; exact congrArg (· ++ s.unsent) hord,fun h => hfin (hdone ▸ h),
      writerStep_promise hpromise hp,hdk,hmain⟩
  | delete =>
    by_cases hcond : s.pipe.inputMQ.done = true ∧ s.pipe.writer.point = .returned ∧
        s.main = .joining
    · have hempty : s.pipe.inputMQ.items = [] := by
        unfold Promise at hpromise
        rw [hcond.2.1] at hpromise
        exact hpromise.2
      rw [step,if_pos hcond] at h
      obtain rfl := Option.some.inj h
      exact ⟨horder,hfin,hpromise,hdisk,by simp [MessageQueue.isEmpty,hempty]⟩
    · rw [step,if_neg hcond] at h
      simp at h

/-- No container is lost between receiver and writer. In every interleaving, once
`DataWriter::Run` has returned, the saves are exactly the pushes in push order, the
directory is what those saves leave, nothing is queued, and deleting the client
never finds a container in the queue. -/
theorem writer_saves_all (capacity : ℕ) (disk₀ : Disk) (containers : List Container)
    (es : List Event) (s : Session)
    (h : Exec (step capacity) (start disk₀ containers) es s) :
    (s.pipe.writer.point = .returned →
      s.pipe.writer.saved = containers ∧ s.pipe.disk = containers.foldl saveToFile disk₀ ∧
      s.pipe.inputMQ.items = [] ∧ s.unsent = []) ∧
    s.main ≠ .queueNotEmpty := by
  have hi : Inv disk₀ containers s :=
    h.invariant (A := fun _ => True) (fun _ _ _ hs _ hstep => inv_step hs hstep)
      (inv_start disk₀ containers) (by simp)
  refine ⟨?_,hi.main⟩
  intro hret
  have hpromise := hi.promise
  have hdisk := hi.disk
  have horder := hi.order
  simp only [Promise,DiskOf,hret] at hpromise hdisk
  have hun := hi.finished hpromise.1
  rw [hret,hpromise.2,hun] at horder
  have hsaved : s.pipe.writer.saved = containers := by simpa [Point.held] using horder
  exact ⟨hsaved,hsaved ▸ hdisk,hpromise.2,hun⟩

def lateFlag : List Event :=
  [.push,.writer 0,.writer 0,.push,.setDone,.writer 0,.writer 1,.writer 1,.writer 0,.writer 0,
    .writer 0,.writer 0,.writer 0,.writer 1,.writer 0,.writer 0,.writer 0,.writer 0,.writer 0,
    .delete]

theorem writer_saves_all_late_flag :
    ∃ s, Exec (step 1) (start (fun _ => none) [⟨[1],[2,3],2⟩,⟨[4],[5],1⟩]) lateFlag s ∧
      s.pipe.writer.saved = [⟨[1],[2,3],2⟩,⟨[4],[5],1⟩] ∧ s.main = .deleted := by
  have hrun : (run (step 1) (start (fun _ => none) [⟨[1],[2,3],2⟩,⟨[4],[5],1⟩]) lateFlag).map
      (fun s => (s.pipe.writer.point,s.main)) = some (.returned,.deleted) := by decide
  obtain ⟨s,hexec,hend⟩ := Exec.of_run_map _ hrun
  exact ⟨s,hexec,((writer_saves_all 1 _ _ _ s hexec).1 (congrArg Prod.fst hend)).1,
    congrArg Prod.snd hend⟩

end DataWriter
end CloudServer
