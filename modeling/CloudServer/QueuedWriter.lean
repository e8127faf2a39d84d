import CloudServer.DataWriter
import CloudServer.QueueCalls

/-! The receiver and the writer thread of a session over the queue as it is
implemented: `MessageQueue` with every load and store of `Push`, `Pop` and `IsEmpty`. -/
namespace CloudServer
namespace QueuedWriter

open ReaderWriterQueue DataWriter Execution

inductive Main
  | joining | checking | deleted | queueNotEmpty
  deriving DecidableEq

/-- `pushing` tells that the receiver is inside `Push` with the first unsent container. -/
structure Session where
  unsent : List Container
  pushing : Bool
  inputMQ : Channel Container
  done : Bool
  point : Point
  saved : List Container
  disk : Disk
  main : Main

def Session.queueStep (s : Session) (e : ReaderWriterQueue.Event Container) : Option Session :=
  (ReaderWriterQueue.step s.inputMQ e).map fun q => { s with inputMQ := q }

/-- One step of the receiver: `Push` calls `try_enqueue` until it returns true. -/
def receiverStep (s : Session) : Option Session :=
  match s.unsent with
  | [] => none
  | c::cs =>
    if s.pushing then
      match s.inputMQ.producer with
      | .returned true => some { s with unsent := cs, pushing := false }
      | .returned false => s.queueStep (.enqueue c)
      | _ => s.queueStep .producer
    else { s with pushing := true }.queueStep (.enqueue c)

/-- The part of the session that the writer works on while it is outside the queue. -/
def Session.pipe (s : Session) : Pipe := ⟨⟨[],s.done⟩,s.disk,⟨s.point,s.saved⟩⟩

/-- One step of `DataWriter::Run`. It is inside `IsEmpty` at `testEmpty` and inside `Pop`
at `pop`. -/
def writerStep (s : Session) (k : ℕ) : Option Session :=
  match s.point with
  | .testDone =>
    if s.done then { s with point := .testEmpty }.queueStep .sizeApprox
    else { s with point := .pop false }.queueStep .dequeue
  | .testEmpty =>
    match s.inputMQ.consumer with
    | .sized count => { s with point := .pop (count == 0) }.queueStep .dequeue
    | _ => s.queueStep .consumer
  | .pop jobDoneFlag =>
    match s.inputMQ.consumer with
    | .returned (some tmpContainer) => some { s with point := .openFile jobDoneFlag tmpContainer }
    | .returned none => some { s with point := .testFlag jobDoneFlag }
    | _ => s.queueStep .consumer
  | _ =>
    (DataWriter.writerStep s.pipe k).map fun p =>
      { s with disk := p.disk, point := p.writer.point, saved := p.writer.saved }

def deleteStep (s : Session) : Option Session :=
  match s.main with
  | .joining =>
    if s.done = true ∧ s.point = .returned then { s with main := .checking }.queueStep .sizeApprox
    else none
  | .checking =>
    match s.inputMQ.consumer with
    | .sized count => some { s with main := if count = 0 then .deleted else .queueNotEmpty }
    | _ => s.queueStep .consumer
  | .deleted => none
  | .queueNotEmpty => none

inductive Event
  | receiver
  | setDone
  | writer (k : ℕ)
  | delete

def step (s : Session) : Event → Option Session
  | .receiver => receiverStep s
  | .setDone => if s.unsent = [] then some { s with done := true } else none
  | .writer k => writerStep s k
  | .delete => deleteStep s

def start (maxQueueSize : UInt32) (disk : Disk) (containers : List Container) : Session :=
  ⟨containers,false,ReaderWriterQueue.start maxQueueSize,false,.testDone,[],disk,.joining⟩

section Calls

variable {α : Type} {q q' : Queue α}

def element : Producer α → Option α
  | .loadFront x _ _ _ => some x
  | .construct x _ _ _ => some x
  | .storeTail x _ _ => some x
  | .loadFrontBlock x _ => some x
  | .loadNextFront x _ => some x
  | .constructNext x _ _ => some x
  | .storeNextTail x _ _ => some x
  | .storeTailBlock x _ => some x
  | .idle => none
  | .returned _ => none
  | .assertionFailed => none

theorem element_tryEnqueue (q : Queue α) (x : α) : element (tryEnqueue q x) = some x := by
  simp only [tryEnqueue]
  split_ifs <;> rfl

theorem producerStep_element {p p' : Producer α} {x : α} (hx : element p = some x)
    (h : producerStep q p = some (q',p')) :
    (p' = .returned true ∧ p.publishes = [x]) ∨
      (p.publishes = [] ∧ (p' = .returned false ∨ p' = .assertionFailed ∨ element p' = some x)) := by
  cases p with
  | storeTail y t next =>
    cases h
    cases hx
    exact .inl ⟨rfl,rfl⟩
  | storeTailBlock y n =>
    cases h
    cases hx
    exact .inl ⟨rfl,rfl⟩
  | loadFront y t tail next =>
    cases h
    split_ifs <;> exact .inr ⟨rfl,.inr (.inr hx)⟩
  | loadFrontBlock y t =>
    cases h
    split_ifs
    · exact .inr ⟨rfl,.inr (.inr hx)⟩
    · exact .inr ⟨rfl,.inl rfl⟩
  | loadNextFront y t =>
    cases h
    split_ifs
    · exact .inr ⟨rfl,.inr (.inr hx)⟩
    · exact .inr ⟨rfl,.inr (.inl rfl)⟩
  | construct y t tail next =>
    cases h
    exact .inr ⟨rfl,.inr (.inr hx)⟩
  | constructNext y n tail =>
    cases h
    exact .inr ⟨rfl,.inr (.inr hx)⟩
  | storeNextTail y n tail =>
    cases h
    exact .inr ⟨rfl,.inr (.inr hx)⟩
  | idle => cases hx
  | returned result => cases hx
  | assertionFailed => cases hx

def popped : Consumer α → List α
  | .returned (some x) => [x]
  | _ => []

theorem popped_tryDequeue (q : Queue α) : popped (tryDequeue q) = [] := by
  simp only [tryDequeue]
  split_ifs <;> rfl

theorem consumerStep_popped {c c' : Consumer α} (h : consumerStep q c = some (q',c')) :
    popped c' = c.delivers := by
  cases c with
  | take f front =>
    simp only [consumerStep] at h
    split at h <;> cases h <;> rfl
  | idle => cases h
  | returned result => cases h
  | sized result => cases h
  | assertionFailed => cases h
  | emptySlot => cases h
  | storeFrontBlock n front =>
    cases h
    rfl
  | storeFront f front x =>
    cases h
    rfl
  | _ =>
    cases h
    split_ifs <;> rfl

/-- A walk of `size_approx` over a queue in which nothing has moved since it began. -/
def Counting (r : Ring) (s : Channel α) : Prop :=
  ∃ q₀ p₀ c₀ l₀ k₀, Inv r q₀ p₀ c₀ s.sent s.received l₀ k₀ ∧ Walk r l₀ q₀.frontBlock s

theorem counting_start {r : Ring} {s t : Channel α} (hs : s.Ok r)
    (h : ReaderWriterQueue.step s .sizeApprox = some t) : Counting r t := by
  obtain ⟨l,k,hi⟩ := hs
  have hw := walk_start hi h
  simp only [ReaderWriterQueue.step] at h
  split_ifs at h
  obtain rfl := Option.some.inj h
  exact ⟨_,_,_,l,k,hi,hw⟩

theorem counting_step {r : Ring} {s t : Channel α} (hs : Counting r s)
    (h : ReaderWriterQueue.step s .consumer = some t) : Counting r t := by
  obtain ⟨q₀,p₀,c₀,l₀,k₀,hi,hw⟩ := hs
  have hnext := walk_consumer hw h
  obtain ⟨⟨q,c⟩,hstep,rfl⟩ := Option.map_eq_some_iff.mp h
  have hquiet : s.consumer.delivers = [] := by
    obtain ⟨-,-,-,-,-,⟨j,result,-,hc,-⟩ | ⟨result,hc,-⟩⟩ := hw
    · rw [hc]
      rfl
    · rw [hc]
      rfl
  exact ⟨q₀,p₀,c₀,l₀,k₀,by simpa [hquiet] using hi,hnext⟩

/-- The size it returns is the size of the queue, if the producer rests. -/
theorem counting_sized {r : Ring} {s : Channel α} {n : ℕ} (hs : Counting r s)
    (hrest : s.producer.resting = true) (hn : s.consumer = .sized n) :
    s.received.length+n = s.sent.length := by
  obtain ⟨q₀,p₀,c₀,l₀,k₀,hi,hw⟩ := hs
  obtain ⟨hlow,hhigh⟩ := walk_sized hi hw hn
  have hpend : s.producer.pending = [] := by
    cases hp : s.producer <;> simp_all [Producer.resting,Producer.pending]
  rw [hpend,List.length_nil] at hhigh
  omega

end Calls

inductive ReceiverOk (containers : List Container) :
    List Container → Bool → Producer Container → List Container → Prop
  | between {unsent p sent} : p.resting = true → sent++unsent = containers →
      ReceiverOk containers unsent false p sent
  | trying {c cs p sent} : element p = some c → sent++c::cs = containers →
      ReceiverOk containers (c::cs) true p sent
  | refused {c cs sent} : sent++c::cs = containers →
      ReceiverOk containers (c::cs) true (.returned false) sent
  | accepted {c cs sent} : sent++cs = containers →
      ReceiverOk containers (c::cs) true (.returned true) sent

theorem ReceiverOk.resting {containers sent : List Container} {pushing : Bool}
    {p : Producer Container} (h : ReceiverOk containers [] pushing p sent) : p.resting = true := by
  cases h with
  | between hrest _ => exact hrest

theorem ReceiverOk.sent_eq {containers sent : List Container} {pushing : Bool}
    {p : Producer Container} (h : ReceiverOk containers [] pushing p sent) : sent = containers := by
  cases h with
  | between _ hsent => simpa using hsent

def arriving (q : Channel Container) : Point → List Container
  | .pop _ => popped q.consumer
  | _ => []

def Promise (r : Ring) (q : Channel Container) (done : Bool) : Point → Prop
  | .testDone => True
  | .testEmpty => done = true ∧ Counting r q
  | .pop flag => flag = true → done = true ∧ q.sent = q.received ∧ popped q.consumer = []
  | .openFile flag _ => flag = false
  | .writeFile flag _ _ => flag = false
  | .testFlag flag => flag = true → done = true ∧ q.sent = q.received
  | .returned => done = true ∧ q.sent = q.received

def MainOk (r : Ring) (q : Channel Container) (point : Point) : Main → Prop
  | .joining => True
  | .checking => point = .returned ∧ Counting r q
  | .deleted => point = .returned
  | .queueNotEmpty => False

structure Inv (r : Ring) (disk₀ : Disk) (containers : List Container) (s : Session) : Prop where
  queue : s.inputMQ.Ok r
  receiver : ReceiverOk containers s.unsent s.pushing s.inputMQ.producer s.inputMQ.sent
  order : s.saved++s.point.held++arriving s.inputMQ s.point = s.inputMQ.received
  finished : s.done = true → s.unsent = []
  promise : Promise r s.inputMQ s.done s.point
  disk : DiskOf disk₀ s.pipe
  main : MainOk r s.inputMQ s.point s.main

section Steps

variable {r : Ring} {disk₀ : Disk} {containers : List Container} {s s' : Session}

theorem Inv.open_of_unsent (hi : Inv r disk₀ containers s) (hun : s.unsent ≠ []) :
    s.done = false := by
  cases hd : s.done with
  | false => rfl
  | true => exact absurd (hi.finished hd) hun

/-- As long as the flag is not set the queue may change. -/
theorem promise_open {q q' : Channel Container} {point : Point} (h : Promise r q false point) :
    Promise r q' false point := by
  cases point <;> simp_all [Promise]

theorem mainOk_open {q q' : Channel Container} {point : Point} {main : Main}
    (hp : Promise r q false point) (h : MainOk r q point main) : MainOk r q' point main := by
  cases main with
  | joining => trivial
  | checking =>
    obtain ⟨rfl,-⟩ := h
    exact absurd hp.1 (by simp)
  | deleted =>
    obtain rfl := h
    exact absurd hp.1 (by simp)
  | queueNotEmpty => exact h

theorem Inv.receive {q : Channel Container} (hi : Inv r disk₀ containers s)
    (unsent : List Container) (pushing : Bool) (hopen : s.done = false) (hok : q.Ok r)
    (hconsumer : q.consumer = s.inputMQ.consumer) (hreceived : q.received = s.inputMQ.received)
    (hreceiver : ReceiverOk containers unsent pushing q.producer q.sent) :
    Inv r disk₀ containers { s with unsent := unsent, pushing := pushing, inputMQ := q } := by
  have hpromise := hi.promise
  rw [hopen] at hpromise
  refine ⟨hok,hreceiver,?_,by simp [hopen],?_,hi.disk,mainOk_open hpromise hi.main⟩
  · have harrive : arriving q s.point = arriving s.inputMQ s.point := by
      cases s.point <;> simp [arriving,hconsumer]
    simp only [harrive,hreceived]
    exact hi.order
  · simp only [hopen]
    exact promise_open hpromise

theorem receiver_producer {q q' : Queue Container} {p p' : Producer Container}
    {unsent sent : List Container} (hok : p' ≠ .assertionFailed)
    (hr : ReceiverOk containers unsent true p sent) (h : producerStep q p = some (q',p')) :
    ReceiverOk containers unsent true p' (sent++p.publishes) := by
  cases hr with
  | trying hx hsent =>
    rcases producerStep_element hx h with ⟨rfl,hpub⟩ | ⟨hpub,rfl | rfl | hx'⟩
    · exact .accepted (by simpa [hpub] using hsent)
    · exact .refused (by simpa [hpub] using hsent)
    · exact absurd rfl hok
    · exact .trying hx' (by simpa [hpub] using hsent)
  | refused hsent => cases h
  | accepted hsent => cases h

theorem Channel.Ok.producer_ne {q : Channel Container} (h : q.Ok r) :
    q.producer ≠ .assertionFailed := by
  obtain ⟨l,k,hi⟩ := h
  intro hp
  have hfalse := hi.producer
  rwa [hp] at hfalse

theorem inv_enqueue {c : Container} {cs : List Container} (hi : Inv r disk₀ containers s)
    (hun : s.unsent = c::cs) (hsent : s.inputMQ.sent++c::cs = containers)
    (h : { s with pushing := true }.queueStep (.enqueue c) = some s') :
    Inv r disk₀ containers s' := by
  obtain ⟨q,hq,rfl⟩ := Option.map_eq_some_iff.mp h
  have hok := ok_step hi.queue hq
  simp only [ReaderWriterQueue.step] at hq
  split_ifs at hq
  obtain rfl := Option.some.inj hq
  apply hi.receive s.unsent true (hi.open_of_unsent (by simp [hun])) hok rfl rfl
  rw [hun]
  exact .trying (element_tryEnqueue _ c) hsent

theorem inv_receiver (hi : Inv r disk₀ containers s) (h : receiverStep s = some s') :
    Inv r disk₀ containers s' := by
  have hr := hi.receiver
  cases hun : s.unsent with
  | nil => simp [receiverStep,hun] at h
  | cons c cs =>
    have hopen := hi.open_of_unsent (by simp [hun])
    simp only [receiverStep,hun] at h
    rw [hun] at hr
    split_ifs at h with hpush
    · rw [hpush] at hr
      split at h
      · rename_i hp
        obtain rfl := Option.some.inj h
        refine hi.receive cs false hopen hi.queue rfl rfl ?_
        rw [hp] at hr ⊢
        cases hr with
        | trying hx _ => cases hx
        | accepted hsent => exact .between rfl hsent
      · rename_i hp
        rw [hp] at hr
        have hs : s = { s with pushing := true } := by rw [← hpush]
        rw [hs] at h
        cases hr with
        | trying hx _ => cases hx
        | refused hsent => exact inv_enqueue hi hun hsent h
      · obtain ⟨q,hq,rfl⟩ := Option.map_eq_some_iff.mp h
        have hok := ok_step hi.queue hq
        have hne := Channel.Ok.producer_ne hok
        obtain ⟨⟨queue,p⟩,hstep,rfl⟩ := Option.map_eq_some_iff.mp hq
        have hnext := receiver_producer hne hr hstep
        rw [← hun] at hnext
        have hreceive := hi.receive s.unsent true hopen hok rfl rfl hnext
        rwa [← hpush] at hreceive
    · simp only [Bool.not_eq_true] at hpush
      rw [hpush] at hr
      cases hr with
      | between _ hsent =>
        rw [← hun] at h
        exact inv_enqueue hi hun hsent h

theorem inv_setDone (hi : Inv r disk₀ containers s) (hun : s.unsent = []) :
    Inv r disk₀ containers { s with done := true } := by
  refine ⟨hi.queue,hi.receiver,hi.order,fun _ => hun,?_,hi.disk,hi.main⟩
  have hp := hi.promise
  cases hpoint : s.point <;> simp_all [Promise]

theorem Inv.consume {point : Point} {main : Main} {q : Channel Container}
    (hi : Inv r disk₀ containers s) (hok : q.Ok r) (hproducer : q.producer = s.inputMQ.producer)
    (hsent : q.sent = s.inputMQ.sent)
    (horder : s.saved++point.held++arriving q point = q.received)
    (hpromise : Promise r q s.done point) (hdisk : DiskOf disk₀ { s with point := point }.pipe)
    (hmain : MainOk r q point main) :
    Inv r disk₀ containers { s with inputMQ := q, point := point, main := main } := by
  refine ⟨hok,?_,horder,hi.finished,hpromise,hdisk,hmain⟩
  simp only [hproducer,hsent]
  exact hi.receiver

theorem step_dequeue {q q' : Channel Container}
    (h : ReaderWriterQueue.step q .dequeue = some q') :
    q' = { q with consumer := tryDequeue q.queue } := by
  simp only [ReaderWriterQueue.step] at h
  split_ifs at h
  exact (Option.some.inj h).symm

theorem step_sizeApprox {q q' : Channel Container}
    (h : ReaderWriterQueue.step q .sizeApprox = some q') :
    q' = { q with consumer := .sizing q.queue.frontBlock q.queue.frontBlock 0 } := by
  simp only [ReaderWriterQueue.step] at h
  split_ifs at h
  exact (Option.some.inj h).symm

theorem step_consumer {q q' : Channel Container}
    (h : ReaderWriterQueue.step q .consumer = some q') :
    q'.producer = q.producer ∧ q'.sent = q.sent ∧
      q'.received = q.received++popped q'.consumer ∧ popped q.consumer = [] := by
  obtain ⟨⟨queue,c⟩,hstep,rfl⟩ := Option.map_eq_some_iff.mp h
  refine ⟨rfl,rfl,by rw [consumerStep_popped hstep],?_⟩
  cases hc : q.consumer with
  | returned result =>
    rw [hc] at hstep
    cases hstep
  | _ => rfl

theorem Counting.popped {q : Channel Container} (h : Counting r q) : popped q.consumer = [] := by
  obtain ⟨q₀,p₀,c₀,l₀,k₀,-,l,k,-,-,-,hc⟩ := h
  rcases hc with ⟨j,result,-,hc,-⟩ | ⟨result,hc,-⟩
  · rw [hc]
    rfl
  · rw [hc]
    rfl

theorem MainOk.running {q q' : Channel Container} {point point' : Point} {main : Main}
    (h : MainOk r q point main) (hne : point ≠ .returned) : MainOk r q' point' main := by
  cases main with
  | joining => trivial
  | checking => exact absurd h.1 hne
  | deleted => exact absurd h hne
  | queueNotEmpty => exact h

theorem Channel.Ok.received_le {q : Channel Container} (h : q.Ok r) : q.received <+: q.sent := by
  obtain ⟨l,k,hi⟩ := h
  exact ⟨_,hi.order.symm⟩

theorem Inv.resting (hi : Inv r disk₀ containers s) (hdone : s.done = true) :
    s.inputMQ.producer.resting = true := by
  have hr := hi.receiver
  rw [hi.finished hdone] at hr
  exact hr.resting

theorem inv_testDone (hi : Inv r disk₀ containers s) (hpoint : s.point = .testDone) {k : ℕ}
    (h : writerStep s k = some s') : Inv r disk₀ containers s' := by
  have horder := hi.order
  have hdisk := hi.disk
  have hmain := hi.main
  simp only [hpoint,Point.held,arriving,List.append_nil] at horder hmain
  simp only [DiskOf,Session.pipe,hpoint] at hdisk
  simp only [writerStep,hpoint] at h
  split_ifs at h with hdone
  · obtain ⟨q,hq,rfl⟩ := Option.map_eq_some_iff.mp h
    have hcount := counting_start hi.queue hq
    have hok := ok_step hi.queue hq
    obtain rfl := step_sizeApprox hq
    refine hi.consume hok rfl rfl ?_ ⟨hdone,hcount⟩ hdisk (hmain.running (by simp))
    simpa [Point.held,arriving] using horder
  · obtain ⟨q,hq,rfl⟩ := Option.map_eq_some_iff.mp h
    have hok := ok_step hi.queue hq
    obtain rfl := step_dequeue hq
    refine hi.consume hok rfl rfl ?_ (by simp [Promise]) hdisk (hmain.running (by simp))
    simpa [Point.held,arriving,popped_tryDequeue] using horder

theorem inv_testEmpty (hi : Inv r disk₀ containers s) (hpoint : s.point = .testEmpty) {k : ℕ}
    (h : writerStep s k = some s') : Inv r disk₀ containers s' := by
  have horder := hi.order
  have hdisk := hi.disk
  have hmain := hi.main
  have hpromise := hi.promise
  rw [hpoint] at hpromise
  obtain ⟨hdone,hcount⟩ := hpromise
  simp only [hpoint,Point.held,arriving,List.append_nil] at horder hmain
  simp only [DiskOf,Session.pipe,hpoint] at hdisk
  simp only [writerStep,hpoint] at h
  split at h
  · rename_i n hn
    obtain ⟨q,hq,rfl⟩ := Option.map_eq_some_iff.mp h
    have hok := ok_step hi.queue hq
    have hsize := counting_sized hcount (hi.resting hdone) hn
    obtain rfl := step_dequeue hq
    refine hi.consume hok rfl rfl ?_ ?_ hdisk (hmain.running (by simp))
    · simpa [Point.held,arriving,popped_tryDequeue] using horder
    · intro hzero
      have hall := (Channel.Ok.received_le hi.queue).eq_of_length (by
        simp only [beq_iff_eq] at hzero
        omega)
      exact ⟨hdone,hall.symm,popped_tryDequeue _⟩
  · obtain ⟨q,hq,rfl⟩ := Option.map_eq_some_iff.mp h
    have hnext := counting_step hcount hq
    obtain ⟨hproducer,hsent,hreceived,-⟩ := step_consumer hq
    rw [Counting.popped hnext,List.append_nil] at hreceived
    refine hi.consume (ok_step hi.queue hq) hproducer hsent ?_ ?_ hi.disk ?_
    · simpa [hpoint,Point.held,arriving,hreceived] using horder
    · rw [hpoint]
      exact ⟨hdone,hnext⟩
    · rw [hpoint]
      exact hmain.running (by simp)

theorem inv_pop (hi : Inv r disk₀ containers s) {flag : Bool} (hpoint : s.point = .pop flag) {k : ℕ}
    (h : writerStep s k = some s') : Inv r disk₀ containers s' := by
  have horder := hi.order
  have hdisk := hi.disk
  have hmain := hi.main
  have hpromise := hi.promise
  simp only [hpoint,Point.held,arriving,List.append_nil] at horder hmain
  simp only [DiskOf,Session.pipe,hpoint] at hdisk
  rw [hpoint] at hpromise
  simp only [writerStep,hpoint] at h
  split at h
  · rename_i c hc
    obtain rfl := Option.some.inj h
    rw [hc] at horder
    refine hi.consume hi.queue rfl rfl ?_ ?_ hdisk (hmain.running (by simp))
    · simpa [Point.held,arriving,popped] using horder
    · cases flag with
      | false => rfl
      | true => exact absurd (hpromise rfl).2.2 (by simp [hc,popped])
  · rename_i hc
    obtain rfl := Option.some.inj h
    rw [hc] at horder
    refine hi.consume hi.queue rfl rfl ?_ ?_ hdisk (hmain.running (by simp))
    · simpa [Point.held,arriving,popped] using horder
    · exact fun hflag => ⟨(hpromise hflag).1,(hpromise hflag).2.1⟩
  · obtain ⟨q,hq,rfl⟩ := Option.map_eq_some_iff.mp h
    have hok := ok_step hi.queue hq
    obtain ⟨hproducer,hsent,hreceived,hnone⟩ := step_consumer hq
    rw [hnone,List.append_nil] at horder
    refine hi.consume hok hproducer hsent ?_ ?_ hi.disk ?_
    · simp [hpoint,Point.held,arriving,hreceived,horder]
    · rw [hpoint]
      intro hflag
      obtain ⟨hdone,hall,-⟩ := hpromise hflag
      have hle := (Channel.Ok.received_le hok).length_le
      rw [hreceived,hsent,hall,List.length_append] at hle
      have hnil : popped q.consumer = [] := List.length_eq_zero_iff.mp (by omega)
      rw [hnil,List.append_nil] at hreceived
      exact ⟨hdone,by rw [hsent,hreceived,hall],hnil⟩
    · rw [hpoint]
      exact hmain.running (by simp)

theorem inv_outside (hi : Inv r disk₀ containers s) {k : ℕ} {p : Pipe}
    (hout : ∀ flag, s.point ≠ .testDone ∧ s.point ≠ .testEmpty ∧ s.point ≠ .pop flag)
    (h : DataWriter.writerStep s.pipe k = some p) :
    Inv r disk₀ containers { s with
      disk := p.disk, point := p.writer.point, saved := p.writer.saved } := by
  have horder := hi.order
  have hpromise := hi.promise
  have hmain := hi.main
  have hdisk := (writerStep_inv hi.disk h).2.2
  cases hpoint : s.point with
  | testDone => exact absurd hpoint (hout false).1
  | testEmpty => exact absurd hpoint (hout false).2.1
  | pop flag => exact absurd hpoint (hout flag).2.2
  | returned => simp [DataWriter.writerStep,Session.pipe,hpoint] at h
  | openFile flag c =>
    rw [hpoint] at horder hpromise hmain
    simp only [DataWriter.writerStep,Session.pipe,hpoint,Option.some.injEq] at h
    subst h
    exact ⟨hi.queue,hi.receiver,horder,hi.finished,hpromise,hdisk,hmain.running (by simp)⟩
  | writeFile flag c n =>
    rw [hpoint] at horder hpromise hmain
    obtain rfl := hpromise
    simp only [DataWriter.writerStep,Session.pipe,hpoint] at h
    split_ifs at h
    · obtain rfl := Option.some.inj h
      exact ⟨hi.queue,hi.receiver,horder,hi.finished,rfl,hdisk,hmain.running (by simp)⟩
    · obtain rfl := Option.some.inj h
      refine ⟨hi.queue,hi.receiver,?_,hi.finished,by simp [Promise],hdisk,hmain.running (by simp)⟩
      simpa [Point.held,arriving] using horder
  | testFlag flag =>
    rw [hpoint] at horder hpromise hmain
    simp only [DataWriter.writerStep,Session.pipe,hpoint,Option.some.injEq] at h
    subst h
    cases flag with
    | false =>
      exact ⟨hi.queue,hi.receiver,horder,hi.finished,trivial,hdisk,hmain.running (by simp)⟩
    | true =>
      exact ⟨hi.queue,hi.receiver,horder,hi.finished,hpromise rfl,hdisk,hmain.running (by simp)⟩

theorem inv_writer (hi : Inv r disk₀ containers s) {k : ℕ} (h : writerStep s k = some s') :
    Inv r disk₀ containers s' := by
  cases hpoint : s.point with
  | testDone => exact inv_testDone hi hpoint h
  | testEmpty => exact inv_testEmpty hi hpoint h
  | pop flag => exact inv_pop hi hpoint h
  | _ =>
    simp only [writerStep,hpoint] at h
    obtain ⟨p,hp,rfl⟩ := Option.map_eq_some_iff.mp h
    exact inv_outside hi (by simp [hpoint]) hp

theorem inv_delete (hi : Inv r disk₀ containers s) (h : deleteStep s = some s') :
    Inv r disk₀ containers s' := by
  have horder := hi.order
  have hdisk := hi.disk
  have hmain := hi.main
  cases hm : s.main with
  | deleted => simp [deleteStep,hm] at h
  | queueNotEmpty => simp [deleteStep,hm] at h
  | joining =>
    simp only [deleteStep,hm] at h
    split_ifs at h with hcond
    obtain ⟨q,hq,rfl⟩ := Option.map_eq_some_iff.mp h
    have hcount := counting_start hi.queue hq
    have hok := ok_step hi.queue hq
    have hpromise := hi.promise
    obtain rfl := step_sizeApprox hq
    rw [hcond.2] at horder hpromise
    refine hi.consume hok rfl rfl ?_ ?_ hdisk ⟨hcond.2,hcount⟩
    · rw [hcond.2]
      exact horder
    · rw [hcond.2]
      exact hpromise
  | checking =>
    rw [hm] at hmain
    obtain ⟨hpoint,hcount⟩ := hmain
    have hpromise := hi.promise
    rw [hpoint] at horder hpromise
    simp only [deleteStep,hm] at h
    split at h
    · rename_i n hn
      obtain rfl := Option.some.inj h
      have hsize := counting_sized hcount (hi.resting hpromise.1) hn
      have hzero : n = 0 := by
        have hall := congrArg List.length hpromise.2
        omega
      refine ⟨hi.queue,hi.receiver,hi.order,hi.finished,hi.promise,hdisk,?_⟩
      simp only [hzero,if_true]
      exact hpoint
    · obtain ⟨q,hq,rfl⟩ := Option.map_eq_some_iff.mp h
      have hnext := counting_step hcount hq
      obtain ⟨hproducer,hsent,hreceived,-⟩ := step_consumer hq
      rw [Counting.popped hnext,List.append_nil] at hreceived
      refine hi.consume (ok_step hi.queue hq) hproducer hsent ?_ ?_ hdisk ?_
      · rw [hpoint,hreceived]
        exact horder
      · rw [hpoint]
        exact ⟨hpromise.1,by rw [hsent,hreceived,hpromise.2]⟩
      · rw [hm]
        exact ⟨hpoint,hnext⟩

theorem inv_step {e : Event} (hi : Inv r disk₀ containers s) (h : step s e = some s') :
    Inv r disk₀ containers s' := by
  cases e with
  | receiver => exact inv_receiver hi h
  | setDone =>
    simp only [step] at h
    split_ifs at h with hun
    obtain rfl := Option.some.inj h
    exact inv_setDone hi hun
  | writer k => exact inv_writer hi h
  | delete => exact inv_delete hi h

end Steps

theorem inv_start (maxQueueSize : UInt32) (disk₀ : Disk) (containers : List Container) :
    ∃ r : Ring, maxQueueSize.toNat ≤ r.capacity ∧
      Inv r disk₀ containers (start maxQueueSize disk₀ containers) := by
  obtain ⟨r,hcap,hok⟩ := ok_start (α := Container) maxQueueSize
  exact ⟨r,hcap,hok,.between rfl rfl,rfl,by simp [start],trivial,rfl,trivial⟩

theorem Inv.returned {r : Ring} {disk₀ : Disk} {containers : List Container} {s : Session}
    (hi : Inv r disk₀ containers s) (hret : s.point = .returned) :
    s.saved = containers ∧ s.disk = containers.foldl saveToFile disk₀ ∧
      s.inputMQ.received = containers ∧ s.unsent = [] := by
  have horder := hi.order
  have hpromise := hi.promise
  have hdisk := hi.disk
  have hr := hi.receiver
  simp only [Promise,Point.held,arriving,List.append_nil,DiskOf,Session.pipe,hret]
    at horder hpromise hdisk
  have hun := hi.finished hpromise.1
  rw [hun] at hr
  have hsent := hr.sent_eq
  have hsaved : s.saved = containers := by rw [horder,← hpromise.2,hsent]
  exact ⟨hsaved,hsaved ▸ hdisk,by rw [← hpromise.2,hsent],hun⟩

/-- No container is lost, doubled or reordered between the receiver and the disk, in
every interleaving of the loads and stores of the queue that carries them: once
`DataWriter::Run` has returned, the saves are the pushes in order and every one of them
has been taken out of the queue, and the check in `~MessageQueue` does not fail. -/
theorem queued_writer_saves_all (maxQueueSize : UInt32) (disk₀ : Disk)
    (containers : List Container) (es : List Event) (s : Session)
    (h : Exec step (start maxQueueSize disk₀ containers) es s) :
    (s.point = .returned → s.saved = containers ∧ s.disk = containers.foldl saveToFile disk₀ ∧
      s.inputMQ.received = containers ∧ s.unsent = []) ∧
    s.main ≠ .queueNotEmpty := by
  obtain ⟨r,-,hstart⟩ := inv_start maxQueueSize disk₀ containers
  have hi : Inv r disk₀ containers s := h.invariant (A := fun _ => True)
    (fun _ _ _ hs _ hstep => inv_step hs hstep) hstart (by simp)
  constructor
  · exact hi.returned
  · intro hm
    have hmain := hi.main
    rwa [hm] at hmain

/-- The queue has room for one container: the second `Push` fails once, and the writer
takes the first container while `try_enqueue` is under way again. -/
def retry : List Event :=
  List.replicate 7 .receiver++[.writer 9,.receiver]++List.replicate 5 (.writer 9)++
    List.replicate 4 .receiver++[.setDone]++List.replicate 19 (.writer 9)++
    List.replicate 3 .delete

theorem queued_writer_saves_all_retry :
    ∃ s, Exec step (start 1 (fun _ => none) [⟨[1],[2,3],2⟩,⟨[4],[5],1⟩]) retry s ∧
      s.saved = [⟨[1],[2,3],2⟩,⟨[4],[5],1⟩] ∧ s.main = .deleted := by
  have hrun : (run step (start 1 (fun _ => none) [⟨[1],[2,3],2⟩,⟨[4],[5],1⟩]) retry).map
      (fun s => (s.point,s.main)) = some (.returned,.deleted) := by decide +kernel
  obtain ⟨s,hexec,hend⟩ := Exec.of_run_map _ hrun
  exact ⟨s,hexec,((queued_writer_saves_all 1 _ _ _ s hexec).1 (congrArg Prod.fst hend)).1,
    congrArg Prod.snd hend⟩

end QueuedWriter
end CloudServer
