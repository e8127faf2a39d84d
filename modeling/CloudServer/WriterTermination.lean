import CloudServer.Fairness
import CloudServer.QueuedWriter

/-! A session of `QueuedWriter` comes to its end under every fair scheduler: `Push` does
not wait for ever, the writer empties the queue and returns, and the queue is deleted. -/
namespace CloudServer
namespace QueuedWriter

open ReaderWriterQueue DataWriter Execution Fairness Rings

section Calls

variable {α : Type} {r : Ring} {s t : Channel α}

/-- A call of `try_dequeue` that looks at the tail while the queue holds an element does not
come back without one. -/
theorem loadTail_finds (hok : s.Ok r) (hheld : s.received.length < s.sent.length) {f front : ℕ}
    (hc : s.consumer = .loadTail f front) (h : ReaderWriterQueue.step s .consumer = some t) :
    t.consumer = .take f front ∨ t.consumer = .loadTailBlock f ∧ f ≠ t.queue.tailBlock := by
  obtain ⟨l,k,hi⟩ := hok
  have hlayout := hi.layout
  have hcons := hi.consumer
  rw [hc] at hcons
  obtain ⟨rfl,rfl⟩ := hcons
  obtain ⟨⟨q,c⟩,hstep,rfl⟩ := Option.map_eq_some_iff.mp h
  rw [hc] at hstep
  simp only [consumerStep,Option.some.injEq,Prod.mk.injEq] at hstep
  obtain ⟨rfl,rfl⟩ := hstep
  split_ifs with htail
  · exact .inl rfl
  · right
    have hnil := (hi.blocks _ hlayout.front_lt).front_eq_tail_iff.mp (not_not.mp htail)
    have hk : 0 < k := by
      by_contra hzero
      obtain rfl : k = 0 := by omega
      have horder := congrArg List.length hi.order
      rw [List.length_append,gather_length] at horder
      simp only [Nat.zero_add,Finset.sum_range_one,slot_zero hlayout.front_lt,hnil,
        List.length_nil] at horder
      omega
    exact ⟨rfl,(hlayout.tail_ne_front_iff.mpr hk).symm⟩

theorem loadFront_room (hok : s.Ok r) (hempty : s.received.length = s.sent.length)
    (hsize : 2 ≤ r.size) {x : α} {tail last next : ℕ} (hp : s.producer = .loadFront x tail last next)
    (h : ReaderWriterQueue.step s .producer = some t) :
    t.producer = .construct x tail last next := by
  obtain ⟨l,k,hi⟩ := hok
  have hlayout := hi.layout
  have hprod := hi.producer
  rw [hp] at hprod
  obtain ⟨rfl,rfl,rfl⟩ := hprod
  have hnil : l s.queue.tailBlock = [] := by
    have horder := congrArg List.length hi.order
    rw [List.length_append,gather_length] at horder
    have hle := Finset.single_le_sum (f := fun j => (l (slot r.count s.queue.frontBlock j)).length)
      (fun _ _ => Nat.zero_le _) (Finset.self_mem_range_succ k)
    simp only [← hlayout.tail_eq] at hle
    exact List.length_eq_zero_iff.mp (by omega)
  have hroom := (hi.blocks _ hlayout.tail_lt).full_iff
  rw [hnil,List.length_nil] at hroom
  obtain ⟨⟨q,p⟩,hstep,rfl⟩ := Option.map_eq_some_iff.mp h
  rw [hp] at hstep
  simp only [producerStep,Option.some.injEq,Prod.mk.injEq] at hstep
  obtain ⟨rfl,rfl⟩ := hstep
  rw [if_pos (mt hroom.mp (by omega))]

theorem producerStep_tailBlock {q q' : Queue α} {p p' : Producer α} (hpub : p.publishes = [])
    (h : producerStep q p = some (q',p')) : q'.tailBlock = q.tailBlock := by
  cases p with
  | storeTailBlock x n => simp [Producer.publishes] at hpub
  | idle => cases h
  | returned result => cases h
  | assertionFailed => cases h
  | _ =>
    cases h
    rfl

theorem consumerStep_tailBlock {q q' : Queue α} {c c' : Consumer α}
    (h : consumerStep q c = some (q',c')) : q'.tailBlock = q.tailBlock := by
  cases c with
  | take f front =>
    simp only [consumerStep] at h
    split at h <;> cases h <;> rfl
  | idle => cases h
  | returned result => cases h
  | sized result => cases h
  | assertionFailed => cases h
  | emptySlot => cases h
  | _ =>
    cases h
    rfl

/-- Steps of `try_enqueue` until it publishes its element or has come back without, and one
more for a new call. -/
def enqueueLeft : Producer α → ℕ
  | .storeTail _ _ _ => 1
  | .storeTailBlock _ _ => 1
  | .construct _ _ _ _ => 2
  | .storeNextTail _ _ _ => 2
  | .loadFront _ _ _ _ => 3
  | .constructNext _ _ _ => 3
  | .loadNextFront _ _ => 4
  | .loadFrontBlock _ _ => 5
  | _ => 4

theorem enqueueLeft_tryEnqueue (q : Queue α) (x : α) : enqueueLeft (tryEnqueue q x) < 4 := by
  simp only [tryEnqueue]
  split_ifs <;> simp [enqueueLeft]

theorem enqueueLeft_step (hok : s.Ok r) (hempty : s.received.length = s.sent.length)
    (hsize : 2 ≤ r.size) (hpub : s.producer.publishes = [])
    (h : ReaderWriterQueue.step s .producer = some t) :
    enqueueLeft t.producer < enqueueLeft s.producer := by
  obtain ⟨l,k,hi⟩ := ok_step hok h
  have hprod := hi.producer
  obtain ⟨⟨q,p⟩,hstep,ht⟩ := Option.map_eq_some_iff.mp h
  obtain rfl : p = t.producer := by rw [← ht]
  cases hp : s.producer with
  | loadFront x tail last next =>
    rw [loadFront_room hok hempty hsize hp h]
    simp [enqueueLeft]
  | storeTail x tail next => simp [hp,Producer.publishes] at hpub
  | storeTailBlock x next => simp [hp,Producer.publishes] at hpub
  | construct x tail last next =>
    rw [hp] at hstep
    simp only [producerStep,Option.some.injEq,Prod.mk.injEq] at hstep
    simp [← hstep.2,enqueueLeft]
  | loadFrontBlock x tail =>
    rw [hp] at hstep
    simp only [producerStep,Option.some.injEq,Prod.mk.injEq] at hstep
    rw [← hstep.2]
    split_ifs <;> simp [enqueueLeft]
  | loadNextFront x tail =>
    rw [hp] at hstep
    simp only [producerStep,Option.some.injEq,Prod.mk.injEq] at hstep
    rw [← hstep.2] at hprod ⊢
    split_ifs at hprod ⊢
    · simp [enqueueLeft]
    · exact hprod.elim
  | constructNext x next tail =>
    rw [hp] at hstep
    simp only [producerStep,Option.some.injEq,Prod.mk.injEq] at hstep
    simp [← hstep.2,enqueueLeft]
  | storeNextTail x next tail =>
    rw [hp] at hstep
    simp only [producerStep,Option.some.injEq,Prod.mk.injEq] at hstep
    simp [← hstep.2,enqueueLeft]
  | idle => simp [hp,producerStep] at hstep
  | returned result => simp [hp,producerStep] at hstep
  | assertionFailed => simp [hp,producerStep] at hstep

end Calls

inductive Activity
  | receiver | setDone | writer | delete
  deriving DecidableEq

/-- The activity that an event is a step of. A write that makes no byte visible counts for
none. -/
def activity : Event → Option Activity
  | .receiver => some .receiver
  | .setDone => some .setDone
  | .writer k => if k = 0 then none else some .writer
  | .delete => some .delete

/-- The activity whose next steps the rest waits for: the writer as long as there is a
container to save, then the receiver, the flag and the end of the writer, and last the
thread that deletes the queue. -/
def helper (s : Session) : Activity :=
  if s.point = .returned then .delete
  else if s.saved.length < s.inputMQ.sent.length ∨ s.done = true then .writer
  else if s.unsent = [] then .setDone
  else .receiver

def mainLeft : Main → ℕ
  | .joining => 2
  | .checking => 1
  | .deleted => 0
  | .queueNotEmpty => 0

/-- What is left of the whole session, in containers handed on and in changes of state. -/
def workLeft (containers : List Container) (s : Session) : ℕ :=
  s.unsent.length+(containers.length-s.inputMQ.sent.length)+
    (containers.length-s.inputMQ.received.length)+(containers.length-s.saved.length)+
    (if s.done then 0 else 1)+(if s.point = .returned then 0 else 1)+mainLeft s.main

def receiverLeft (s : Session) : ℕ := if s.pushing then enqueueLeft s.inputMQ.producer else 4

def sizeLeft (r : Ring) : Consumer Container → ℕ
  | .sizing front block _ => r.count-behind r.count front block
  | _ => 0

def flagLeft (r : Ring) (jobDoneFlag : Bool) : ℕ := if jobDoneFlag then 1 else r.count+10

/-- Steps of a call of `try_dequeue`; `miss` is what is left when it comes back without an
element and `fresh` what is left at its beginning. -/
def dequeueLeft (tailBlock miss fresh : ℕ) : Consumer Container → ℕ
  | .storeFront _ _ _ => 1
  | .take _ _ => 2
  | .storeFrontBlock _ _ => 3
  | .loadNextTail _ => 4
  | .reloadTail => 5
  | .loadTailBlock front => if front = tailBlock then miss+1 else 6
  | .loadTail _ _ => fresh
  | .returned (some c) => c.written.length+3
  | _ => miss

/-- A call that began on a queue that was empty may come back without an element, after
which the writer goes round its loop once more. -/
def freshLeft (r : Ring) (s : Session) (jobDoneFlag : Bool) : ℕ :=
  if jobDoneFlag = false ∧ s.inputMQ.received.length = s.inputMQ.sent.length then
    flagLeft r jobDoneFlag+3
  else 7

def writerLeft (r : Ring) (s : Session) : ℕ :=
  match s.point with
  | .testDone => r.count+9
  | .testEmpty => 8+sizeLeft r s.inputMQ.consumer
  | .pop jobDoneFlag =>
    dequeueLeft s.inputMQ.queue.tailBlock (flagLeft r jobDoneFlag+1) (freshLeft r s jobDoneFlag)
      s.inputMQ.consumer
  | .openFile _ c => c.written.length+2
  | .writeFile _ c size => c.written.length+1-size
  | .testFlag jobDoneFlag => flagLeft r jobDoneFlag
  | .returned => 0

/-- Steps of the helper until the work left gets less. -/
def stepsLeft (r : Ring) (s : Session) : ℕ :=
  match helper s with
  | .receiver => receiverLeft s
  | .setDone => 0
  | .writer => writerLeft r s
  | .delete => sizeLeft r s.inputMQ.consumer

def rank (r : Ring) (containers : List Container) (s : Session) : ℕ ×ₗ ℕ :=
  toLex (workLeft containers s,stepsLeft r s)

def calls : Consumer Container → Bool
  | .idle => false
  | .sizing _ _ _ => false
  | .sized _ => false
  | .assertionFailed => false
  | .emptySlot => false
  | _ => true

def Calling (s : Session) : Prop :=
  match s.point with
  | .testEmpty => True
  | .pop _ => calls s.inputMQ.consumer = true
  | .returned => s.main = .joining → s.inputMQ.consumer.resting = true
  | _ => s.inputMQ.consumer.resting = true

section Reads

variable {r : Ring} {s t : Channel Container}

theorem calls_tryDequeue (q : Queue Container) : calls (tryDequeue q) = true := by
  simp only [tryDequeue]
  split_ifs <;> rfl

theorem dequeueLeft_tryDequeue (q : Queue Container) (tailBlock miss : ℕ) :
    dequeueLeft tailBlock miss 7 (tryDequeue q) < 8 := by
  simp only [tryDequeue]
  split_ifs <;> simp [dequeueLeft]

theorem calls_step (hok : s.Ok r) (hcall : calls s.consumer = true)
    (h : ReaderWriterQueue.step s .consumer = some t) : calls t.consumer = true := by
  obtain ⟨l,k,hi⟩ := ok_step hok h
  have hcons := hi.consumer
  obtain ⟨⟨q,c⟩,hstep,rfl⟩ := Option.map_eq_some_iff.mp h
  cases hc : s.consumer with
  | take f front =>
    rw [hc] at hstep
    simp only [consumerStep] at hstep
    split at hstep
    · cases hstep
      rfl
    · cases hstep
      exact hcons.elim
  | loadNextTail f =>
    rw [hc] at hstep
    simp only [consumerStep,Option.some.injEq,Prod.mk.injEq] at hstep
    obtain ⟨rfl,rfl⟩ := hstep
    dsimp only at hcons ⊢
    split_ifs at hcons ⊢
    · rfl
    · exact hcons.elim
  | sizing f block result => simp [hc,calls] at hcall
  | idle => simp [hc,calls] at hcall
  | sized result => simp [hc,calls] at hcall
  | assertionFailed => simp [hc,calls] at hcall
  | emptySlot => simp [hc,calls] at hcall
  | returned result => simp [hc,consumerStep] at hstep
  | storeFront f front x =>
    rw [hc] at hstep
    cases hstep
    rfl
  | storeFrontBlock n front =>
    rw [hc] at hstep
    cases hstep
    rfl
  | _ =>
    rw [hc] at hstep
    simp only [consumerStep,Option.some.injEq,Prod.mk.injEq] at hstep
    rw [← hstep.2]
    split_ifs <;> rfl

/-- Every step of a call of `try_dequeue` that delivers nothing comes closer to its end,
if a call that finds the queue empty had to expect that from its beginning. -/
theorem dequeueLeft_step (hok : s.Ok r) (hcall : calls s.consumer = true)
    (hquiet : s.consumer.delivers = []) {miss fresh : ℕ} (hsix : 6 < fresh)
    (hfresh : s.received.length < s.sent.length ∨ miss+1 < fresh)
    (h : ReaderWriterQueue.step s .consumer = some t) :
    dequeueLeft t.queue.tailBlock miss fresh t.consumer <
      dequeueLeft s.queue.tailBlock miss fresh s.consumer := by
  have hnext := calls_step hok hcall h
  have hfinds := fun hheld f front (hc : s.consumer = .loadTail f front) =>
    loadTail_finds hok hheld hc h
  obtain ⟨⟨q,c⟩,hstep,rfl⟩ := Option.map_eq_some_iff.mp h
  have htail := consumerStep_tailBlock hstep
  dsimp only at hnext hfinds htail ⊢
  rw [htail] at hfinds ⊢
  cases hc : s.consumer with
  | loadTail f front =>
    have hcases : c = .take f front ∨ c = .loadTailBlock f ∧
        (f = s.queue.tailBlock → miss+1 < fresh) := by
      rcases hfresh with hheld | hlt
      · exact (hfinds hheld f front hc).imp_right fun h => ⟨h.1,fun heq => absurd heq h.2⟩
      · rw [hc] at hstep
        simp only [consumerStep,Option.some.injEq,Prod.mk.injEq] at hstep
        rw [← hstep.2]
        split_ifs
        · exact .inl rfl
        · exact .inr ⟨rfl,fun _ => hlt⟩
    rcases hcases with rfl | ⟨rfl,hmiss⟩
    · simp only [dequeueLeft]
      omega
    · simp only [dequeueLeft]
      split_ifs with heq
      · exact hmiss heq
      · exact hsix
  | loadTailBlock f =>
    rw [hc] at hstep
    simp only [consumerStep,Option.some.injEq,Prod.mk.injEq] at hstep
    rw [← hstep.2]
    split_ifs with hne
    · simp [dequeueLeft,hne]
    · simp [dequeueLeft,not_not.mp hne]
  | reloadTail =>
    rw [hc] at hstep
    simp only [consumerStep,Option.some.injEq,Prod.mk.injEq] at hstep
    rw [← hstep.2]
    split_ifs <;> simp [dequeueLeft]
  | loadNextTail f =>
    rw [hc] at hstep
    simp only [consumerStep,Option.some.injEq,Prod.mk.injEq] at hstep
    rw [← hstep.2] at hnext ⊢
    split_ifs at hnext ⊢
    · simp [dequeueLeft]
    · simp [calls] at hnext
  | storeFrontBlock n front =>
    rw [hc] at hstep
    simp only [consumerStep,Option.some.injEq,Prod.mk.injEq] at hstep
    simp [← hstep.2,dequeueLeft]
  | take f front =>
    rw [hc] at hstep
    simp only [consumerStep] at hstep
    split at hstep <;> cases hstep
    · simp [dequeueLeft]
    · simp [calls] at hnext
  | storeFront f front x => simp [hc,Consumer.delivers] at hquiet
  | returned result => simp [hc,consumerStep] at hstep
  | sizing f block result => simp [hc,calls] at hcall
  | idle => simp [hc,calls] at hcall
  | sized result => simp [hc,calls] at hcall
  | assertionFailed => simp [hc,calls] at hcall
  | emptySlot => simp [hc,calls] at hcall

/-- A walk over the blocks does not go round twice. -/
theorem sizeLeft_step (hcount : Counting r s)
    (h : ReaderWriterQueue.step s .consumer = some t) :
    sizeLeft r t.consumer < sizeLeft r s.consumer := by
  obtain ⟨q₀,p₀,c₀,l₀,k₀,-,l,k,hi,-,hfront,hc⟩ := hcount
  have hlt := hi.layout.front_lt
  rw [hfront] at hlt
  obtain ⟨⟨q,c⟩,hstep,rfl⟩ := Option.map_eq_some_iff.mp h
  rcases hc with ⟨j,result,hj,hc,-⟩ | ⟨result,hc,-⟩
  · have hnext := (hi.blocks _ (slot_lt r.count_pos q₀.frontBlock j)).next
    rw [slot_slot] at hnext
    rw [hc] at hstep ⊢
    simp only [consumerStep,hnext,Option.some.injEq,Prod.mk.injEq] at hstep
    rw [← hstep.2]
    split_ifs with hne
    · have hj' : j+1 < r.count := by
        by_contra hge
        exact hne (by rw [show j+1 = r.count by omega,slot_self hlt])
      simp only [sizeLeft,behind_slot hlt hj,behind_slot hlt hj']
      omega
    · simp only [sizeLeft,behind_slot hlt hj]
      omega
  · simp [hc,consumerStep] at hstep

end Reads

section Steps

variable {r : Ring} {disk₀ : Disk} {containers : List Container} {s t : Session}

theorem rank_lt_of_work (h : workLeft containers t < workLeft containers s) :
    rank r containers t < rank r containers s := Prod.Lex.toLex_lt_toLex.mpr (.inl h)

theorem rank_lt_of_steps (hwork : workLeft containers t = workLeft containers s)
    (h : stepsLeft r t < stepsLeft r s) : rank r containers t < rank r containers s :=
  Prod.Lex.toLex_lt_toLex.mpr (.inr ⟨hwork,h⟩)

theorem ReceiverOk.sent_le {unsent sent : List Container} {pushing : Bool} {p : Producer Container}
    (h : ReceiverOk containers unsent pushing p sent) : sent.length ≤ containers.length := by
  cases h with
  | between _ hsent => simp [← hsent]
  | trying _ hsent => simp [← hsent]
  | refused hsent => simp [← hsent]
  | accepted hsent => simp [← hsent]

theorem Inv.bounds (hi : Inv r disk₀ containers s) :
    s.saved.length ≤ s.inputMQ.received.length ∧
      s.inputMQ.received.length ≤ s.inputMQ.sent.length ∧
      s.inputMQ.sent.length ≤ containers.length := by
  have horder := congrArg List.length hi.order
  simp only [List.length_append] at horder
  exact ⟨by omega,(Channel.Ok.received_le hi.queue).length_le,hi.receiver.sent_le⟩

theorem receiver_cases (hi : Inv r disk₀ containers s) (h : receiverStep s = some t) :
    ∃ unsent pushing queue producer sent,
      t = { s with
        unsent := unsent
        pushing := pushing
        inputMQ := { s.inputMQ with queue := queue, producer := producer, sent := sent } } ∧
      (unsent.length < s.unsent.length ∧ sent = s.inputMQ.sent ∨
        unsent = s.unsent ∧ s.inputMQ.sent.length < sent.length ∨
        unsent = s.unsent ∧ sent = s.inputMQ.sent ∧
          queue.tailBlock = s.inputMQ.queue.tailBlock ∧
          (2 ≤ r.size → s.inputMQ.received.length = s.inputMQ.sent.length →
            receiverLeft t < receiverLeft s)) := by
  cases hun : s.unsent with
  | nil => simp [receiverStep,hun] at h
  | cons c cs =>
    simp only [receiverStep,hun] at h
    split_ifs at h with hpush
    · split at h
      · obtain rfl := Option.some.inj h
        exact ⟨cs,false,_,_,_,rfl,.inl ⟨by simp,rfl⟩⟩
      · rename_i hp
        obtain ⟨q,hq,rfl⟩ := Option.map_eq_some_iff.mp h
        simp only [ReaderWriterQueue.step] at hq
        split_ifs at hq
        obtain rfl := Option.some.inj hq
        refine ⟨_,_,_,_,_,rfl,.inr (.inr ⟨hun,rfl,rfl,fun _ _ => ?_⟩)⟩
        simpa [receiverLeft,hpush,hp,enqueueLeft] using enqueueLeft_tryEnqueue s.inputMQ.queue c
      · obtain ⟨q,hq,rfl⟩ := Option.map_eq_some_iff.mp h
        have hleft := fun hsize hempty hpub => enqueueLeft_step hi.queue hempty hsize hpub hq
        obtain ⟨⟨queue,p⟩,hstep,rfl⟩ := Option.map_eq_some_iff.mp hq
        refine ⟨_,_,_,_,_,rfl,.inr ?_⟩
        by_cases hpub : s.inputMQ.producer.publishes = []
        · refine .inr ⟨hun,by simp [hpub],producerStep_tailBlock hpub hstep,?_⟩
          intro hsize hempty
          simpa [receiverLeft,hpush] using hleft hsize hempty hpub
        · have hpos := List.length_pos_iff.mpr hpub
          exact .inl ⟨hun,by simp only [List.length_append]; omega⟩
    · obtain ⟨q,hq,rfl⟩ := Option.map_eq_some_iff.mp h
      simp only [ReaderWriterQueue.step] at hq
      split_ifs at hq
      obtain rfl := Option.some.inj hq
      refine ⟨_,_,_,_,_,rfl,.inr (.inr ⟨rfl,rfl,rfl,fun _ _ => ?_⟩)⟩
      simpa [receiverLeft,hpush] using enqueueLeft_tryEnqueue s.inputMQ.queue c

theorem closer_receiver (hi : Inv r disk₀ containers s) (hsize : 2 ≤ r.size)
    (h : receiverStep s = some t) :
    rank r containers t < rank r containers s ∨
      rank r containers t = rank r containers s ∧ helper t = helper s ∧
        helper s ≠ .receiver := by
  obtain ⟨hsaved,hreceived,hsent⟩ := hi.bounds
  have hsent' := (inv_receiver hi h).bounds.2.2
  obtain ⟨unsent,pushing,queue,producer,sent,rfl,hcases⟩ := receiver_cases hi h
  rcases hcases with ⟨hlt,rfl⟩ | ⟨rfl,hlt⟩ | ⟨rfl,rfl,htail,hleft⟩
  · left
    apply rank_lt_of_work
    simp only [workLeft]
    omega
  · left
    apply rank_lt_of_work
    dsimp only at hsent'
    simp only [workLeft]
    omega
  · have hwork : workLeft containers { s with
        pushing := pushing
        inputMQ := { s.inputMQ with queue := queue, producer := producer } } =
        workLeft containers s := rfl
    have hhelper : helper { s with
        pushing := pushing
        inputMQ := { s.inputMQ with queue := queue, producer := producer } } = helper s := rfl
    by_cases hr : helper s = .receiver
    · left
      apply rank_lt_of_steps hwork
      have hempty : s.inputMQ.received.length = s.inputMQ.sent.length := by
        simp only [helper] at hr
        split_ifs at hr with h1 h2 h3
        omega
      simpa only [stepsLeft,hhelper,hr] using hleft hsize hempty
    · right
      refine ⟨?_,hhelper,hr⟩
      simp only [rank,hwork,stepsLeft,hhelper]
      congr 2
      cases hh : helper s with
      | receiver => exact absurd hh hr
      | setDone => rfl
      | writer => simp only [writerLeft,freshLeft,htail]
      | delete => rfl

structure SameReceiver (s t : Session) : Prop where
  unsent : t.unsent = s.unsent
  pushing : t.pushing = s.pushing
  producer : t.inputMQ.producer = s.inputMQ.producer
  sent : t.inputMQ.sent = s.inputMQ.sent
  done : t.done = s.done
  main : t.main = s.main

theorem sameReceiver_queue {e : ReaderWriterQueue.Event Container} {u : Session}
    (h : u.queueStep e = some t) (he : e = .dequeue ∨ e = .sizeApprox ∨ e = .consumer)
    (hu : SameReceiver s u) : SameReceiver s t := by
  obtain ⟨q,hq,rfl⟩ := Option.map_eq_some_iff.mp h
  have hsame : q.producer = u.inputMQ.producer ∧ q.sent = u.inputMQ.sent := by
    rcases he with rfl | rfl | rfl
    · obtain rfl := step_dequeue hq
      exact ⟨rfl,rfl⟩
    · obtain rfl := step_sizeApprox hq
      exact ⟨rfl,rfl⟩
    · obtain ⟨hproducer,hsent,-⟩ := step_consumer hq
      exact ⟨hproducer,hsent⟩
  exact ⟨hu.unsent,hu.pushing,hsame.1.trans hu.producer,hsame.2.trans hu.sent,hu.done,hu.main⟩

theorem sameReceiver_writer {k : ℕ} (h : writerStep s k = some t) : SameReceiver s t := by
  simp only [writerStep] at h
  split at h
  · split_ifs at h
    · exact sameReceiver_queue h (.inr (.inl rfl)) ⟨rfl,rfl,rfl,rfl,rfl,rfl⟩
    · exact sameReceiver_queue h (.inl rfl) ⟨rfl,rfl,rfl,rfl,rfl,rfl⟩
  · split at h
    · exact sameReceiver_queue h (.inl rfl) ⟨rfl,rfl,rfl,rfl,rfl,rfl⟩
    · exact sameReceiver_queue h (.inr (.inr rfl)) ⟨rfl,rfl,rfl,rfl,rfl,rfl⟩
  · split at h
    · obtain rfl := Option.some.inj h
      exact ⟨rfl,rfl,rfl,rfl,rfl,rfl⟩
    · obtain rfl := Option.some.inj h
      exact ⟨rfl,rfl,rfl,rfl,rfl,rfl⟩
    · exact sameReceiver_queue h (.inr (.inr rfl)) ⟨rfl,rfl,rfl,rfl,rfl,rfl⟩
  · obtain ⟨p,-,rfl⟩ := Option.map_eq_some_iff.mp h
    exact ⟨rfl,rfl,rfl,rfl,rfl,rfl⟩

/-- What the writer does in one step: it takes a container, saves one, returns, or is one
step further in its loop. -/
inductive Writes (r : Ring) (s t : Session) (k : ℕ) : Prop
  | takes : s.inputMQ.received.length < t.inputMQ.received.length → t.saved = s.saved →
      t.point ≠ .returned → Writes r s t k
  | saves : s.saved.length < t.saved.length → t.inputMQ.received = s.inputMQ.received →
      t.point ≠ .returned → Writes r s t k
  | returns : t.saved = s.saved → t.inputMQ.received = s.inputMQ.received →
      t.point = .returned → Writes r s t k
  | moves : t.saved = s.saved → t.inputMQ.received = s.inputMQ.received → t.point ≠ .returned →
      (s.saved.length < s.inputMQ.sent.length ∨ s.done = true →
        writerLeft r t < writerLeft r s ∨ k = 0 ∧ writerLeft r t = writerLeft r s) → Writes r s t k

theorem writes_testDone (hi : Inv r disk₀ containers s) (hpoint : s.point = .testDone) {k : ℕ}
    (h : writerStep s k = some t) : Writes r s t k ∧ Calling t := by
  have horder := congrArg List.length hi.order
  simp only [hpoint,Point.held,arriving,List.append_nil] at horder
  simp only [writerStep,hpoint] at h
  split_ifs at h with hdone
  · obtain ⟨q,hq,rfl⟩ := Option.map_eq_some_iff.mp h
    obtain rfl := step_sizeApprox hq
    refine ⟨.moves rfl rfl (by simp) fun _ => .inl ?_,trivial⟩
    simp only [writerLeft,hpoint,sizeLeft]
    omega
  · obtain ⟨q,hq,rfl⟩ := Option.map_eq_some_iff.mp h
    obtain rfl := step_dequeue hq
    refine ⟨.moves rfl rfl (by simp) fun hbusy => .inl ?_,calls_tryDequeue _⟩
    have hheld : s.inputMQ.received.length ≠ s.inputMQ.sent.length := by
      rcases hbusy with hbusy | hbusy
      · omega
      · exact absurd hbusy hdone
    have hleft := dequeueLeft_tryDequeue s.inputMQ.queue s.inputMQ.queue.tailBlock
      (flagLeft r false+1)
    simp only [writerLeft,hpoint,freshLeft,hheld,and_false,if_false]
    omega

theorem writes_testEmpty (hi : Inv r disk₀ containers s) (hpoint : s.point = .testEmpty) {k : ℕ}
    (h : writerStep s k = some t) : Writes r s t k ∧ Calling t := by
  have hpromise := hi.promise
  rw [hpoint] at hpromise
  obtain ⟨hdone,hcount⟩ := hpromise
  simp only [writerStep,hpoint] at h
  split at h
  · rename_i n hn
    have hsize := counting_sized hcount (hi.resting hdone) hn
    obtain ⟨q,hq,rfl⟩ := Option.map_eq_some_iff.mp h
    obtain rfl := step_dequeue hq
    refine ⟨.moves rfl rfl (by simp) fun _ => .inl ?_,calls_tryDequeue _⟩
    have hfresh : ¬ ((n == 0) = false ∧ s.inputMQ.received.length = s.inputMQ.sent.length) := by
      simp only [beq_eq_false_iff_ne]
      omega
    have hleft := dequeueLeft_tryDequeue s.inputMQ.queue s.inputMQ.queue.tailBlock
      (flagLeft r (n == 0)+1)
    simp only [writerLeft,hpoint,freshLeft,hfresh,if_false]
    omega
  · obtain ⟨q,hq,rfl⟩ := Option.map_eq_some_iff.mp h
    obtain ⟨-,-,hreceived,-⟩ := step_consumer hq
    rw [Counting.popped (counting_step hcount hq),List.append_nil] at hreceived
    refine ⟨.moves rfl hreceived (by simp [hpoint]) fun _ => .inl ?_,by simp [Calling,hpoint]⟩
    have hleft := sizeLeft_step hcount hq
    simp only [writerLeft,hpoint]
    omega

theorem writes_pop (hi : Inv r disk₀ containers s) (hcall : Calling s) {flag : Bool}
    (hpoint : s.point = .pop flag) {k : ℕ} (h : writerStep s k = some t) :
    Writes r s t k ∧ Calling t := by
  simp only [Calling,hpoint] at hcall
  simp only [writerStep,hpoint] at h
  split at h
  · rename_i c hc
    obtain rfl := Option.some.inj h
    refine ⟨.moves rfl rfl (by simp) fun _ => .inl ?_,by simp [Calling,hc,Consumer.resting]⟩
    simp [writerLeft,hpoint,hc,dequeueLeft]
  · rename_i hc
    obtain rfl := Option.some.inj h
    refine ⟨.moves rfl rfl (by simp) fun _ => .inl ?_,by simp [Calling,hc,Consumer.resting]⟩
    simp [writerLeft,hpoint,hc,dequeueLeft]
  · obtain ⟨q,hq,rfl⟩ := Option.map_eq_some_iff.mp h
    have hcalling : Calling { s with inputMQ := q } := by
      simpa only [Calling,hpoint] using calls_step hi.queue hcall hq
    refine ⟨?_,hcalling⟩
    obtain ⟨-,hsent,-,-⟩ := step_consumer hq
    have hreceived : q.received = s.inputMQ.received++s.inputMQ.consumer.delivers := by
      obtain ⟨⟨queue,c⟩,-,rfl⟩ := Option.map_eq_some_iff.mp hq
      rfl
    by_cases hquiet : s.inputMQ.consumer.delivers = []
    · rw [hquiet,List.append_nil] at hreceived
      refine .moves rfl hreceived (by simp [hpoint]) fun _ => .inl ?_
      simp only [writerLeft,hpoint,freshLeft,hreceived,hsent]
      apply dequeueLeft_step hi.queue hcall hquiet _ _ hq
      · cases flag with
        | true => simp
        | false =>
          simp only [flagLeft]
          split_ifs <;> simp_all
      · have hle := hi.bounds.2.1
        by_cases hheld : s.inputMQ.received.length = s.inputMQ.sent.length
        · right
          cases flag <;> simp [flagLeft,hheld]
        · exact .inl (by omega)
    · have hpos := List.length_pos_iff.mpr hquiet
      refine .takes ?_ rfl (by simp [hpoint])
      simp only [hreceived,List.length_append]
      omega

theorem writes_outside (hcall : Calling s) {k : ℕ} {p : Pipe}
    (hout : ∀ flag, s.point ≠ .testDone ∧ s.point ≠ .testEmpty ∧ s.point ≠ .pop flag)
    (h : DataWriter.writerStep s.pipe k = some p) :
    Writes r s { s with disk := p.disk, point := p.writer.point, saved := p.writer.saved } k ∧
      Calling { s with disk := p.disk, point := p.writer.point, saved := p.writer.saved } := by
  cases hpoint : s.point with
  | testDone => exact absurd hpoint (hout false).1
  | testEmpty => exact absurd hpoint (hout false).2.1
  | pop flag => exact absurd hpoint (hout flag).2.2
  | returned => simp [DataWriter.writerStep,Session.pipe,hpoint] at h
  | openFile flag c =>
    simp only [Calling,hpoint] at hcall
    simp only [DataWriter.writerStep,Session.pipe,hpoint,Option.some.injEq] at h
    subst h
    refine ⟨.moves rfl rfl (by simp) fun _ => .inl ?_,hcall⟩
    simp [writerLeft,hpoint]
  | writeFile flag c n =>
    simp only [Calling,hpoint] at hcall
    simp only [DataWriter.writerStep,Session.pipe,hpoint] at h
    split_ifs at h with hmore
    · obtain rfl := Option.some.inj h
      refine ⟨.moves rfl rfl (by simp) fun _ => ?_,hcall⟩
      simp only [writerLeft,hpoint]
      rcases Nat.eq_zero_or_pos k with rfl | hk
      · exact .inr ⟨rfl,rfl⟩
      · exact .inl (by omega)
    · obtain rfl := Option.some.inj h
      exact ⟨.saves (by simp) rfl (by simp),hcall⟩
  | testFlag flag =>
    simp only [Calling,hpoint] at hcall
    simp only [DataWriter.writerStep,Session.pipe,hpoint,Option.some.injEq] at h
    subst h
    cases flag with
    | false =>
      refine ⟨.moves rfl rfl (by simp) fun _ => .inl ?_,hcall⟩
      simp [writerLeft,flagLeft,hpoint]
    | true => exact ⟨.returns rfl rfl rfl,fun _ => hcall⟩

theorem writes_writer (hi : Inv r disk₀ containers s) (hcall : Calling s) {k : ℕ}
    (h : writerStep s k = some t) : Writes r s t k ∧ Calling t := by
  cases hpoint : s.point with
  | testDone => exact writes_testDone hi hpoint h
  | testEmpty => exact writes_testEmpty hi hpoint h
  | pop flag => exact writes_pop hi hcall hpoint h
  | _ =>
    simp only [writerStep,hpoint] at h
    obtain ⟨p,hp,rfl⟩ := Option.map_eq_some_iff.mp h
    exact writes_outside hcall (by simp [hpoint]) hp

theorem writer_running {k : ℕ} (h : writerStep s k = some t) : s.point ≠ .returned := by
  intro hpoint
  simp [writerStep,DataWriter.writerStep,Session.pipe,hpoint] at h

theorem closer_writer (hi : Inv r disk₀ containers s) (hcall : Calling s) {k : ℕ}
    (h : writerStep s k = some t) :
    rank r containers t < rank r containers s ∨
      rank r containers t = rank r containers s ∧ helper t = helper s ∧
        activity (.writer k) ≠ some (helper s) := by
  have hrun := writer_running h
  have hsame := sameReceiver_writer h
  obtain ⟨hsaved,hreceived,hsent⟩ := (inv_writer hi h).bounds
  cases (writes_writer hi hcall h).1 with
  | takes hlt hsv hpoint =>
    left
    apply rank_lt_of_work
    simp only [workLeft,hsame.unsent,hsame.sent,hsame.done,hsame.main,hsv,hrun,hpoint]
    omega
  | saves hlt hrc hpoint =>
    left
    apply rank_lt_of_work
    simp only [workLeft,hsame.unsent,hsame.sent,hsame.done,hsame.main,hrc,hrun,hpoint]
    omega
  | returns hsv hrc hpoint =>
    left
    apply rank_lt_of_work
    simp only [workLeft,hsame.unsent,hsame.sent,hsame.done,hsame.main,hsv,hrc,hrun,hpoint,
      if_true,if_false]
    omega
  | moves hsv hrc hpoint hleft =>
    have hwork : workLeft containers t = workLeft containers s := by
      simp only [workLeft,hsame.unsent,hsame.sent,hsame.done,hsame.main,hsv,hrc,hrun,hpoint]
    have hhelper : helper t = helper s := by
      simp only [helper,hsame.unsent,hsame.sent,hsame.done,hsv,hrun,hpoint]
    cases hh : helper s with
    | receiver =>
      refine .inr ⟨?_,hhelper.trans hh,by simp [activity]⟩
      simp only [rank,hwork,stepsLeft,hhelper,hh,receiverLeft,hsame.pushing,hsame.producer]
    | setDone =>
      refine .inr ⟨?_,hhelper.trans hh,by simp [activity]⟩
      simp only [rank,hwork,stepsLeft,hhelper,hh]
    | writer =>
      have hbusy : s.saved.length < s.inputMQ.sent.length ∨ s.done = true := by
        simp only [helper] at hh
        split_ifs at hh with h1 h2
        exact h2
      rcases hleft hbusy with hlt | ⟨rfl,heq⟩
      · left
        apply rank_lt_of_steps hwork
        simpa only [stepsLeft,hhelper,hh] using hlt
      · refine .inr ⟨?_,hhelper.trans hh,by simp [activity]⟩
        simp only [rank,hwork,stepsLeft,hhelper,hh,heq]
    | delete =>
      simp only [helper,hrun,if_false] at hh
      split_ifs at hh

theorem closer_setDone :
    rank r containers { s with done := true } < rank r containers s ∨
      rank r containers { s with done := true } = rank r containers s ∧
        helper { s with done := true } = helper s ∧ helper s ≠ .setDone := by
  cases hdone : s.done with
  | true =>
    right
    have hs : { s with done := true } = s := by rw [← hdone]
    refine ⟨by rw [hs],by rw [hs],?_⟩
    simp only [helper,hdone,or_true,if_true]
    split_ifs <;> simp
  | false =>
    left
    apply rank_lt_of_work
    simp only [workLeft,hdone,Bool.false_eq_true,if_true,if_false]
    omega

theorem closer_delete (hi : Inv r disk₀ containers s) (h : deleteStep s = some t) :
    rank r containers t < rank r containers s := by
  cases hm : s.main with
  | deleted => simp [deleteStep,hm] at h
  | queueNotEmpty => simp [deleteStep,hm] at h
  | joining =>
    simp only [deleteStep,hm] at h
    split_ifs at h
    obtain ⟨q,hq,rfl⟩ := Option.map_eq_some_iff.mp h
    obtain rfl := step_sizeApprox hq
    apply rank_lt_of_work
    simp only [workLeft,hm,mainLeft]
    omega
  | checking =>
    have hmain := hi.main
    rw [hm] at hmain
    obtain ⟨hpoint,hcount⟩ := hmain
    simp only [deleteStep,hm] at h
    split at h
    · obtain rfl := Option.some.inj h
      apply rank_lt_of_work
      simp only [workLeft,hm]
      split_ifs <;> simp only [mainLeft] <;> omega
    · obtain ⟨q,hq,rfl⟩ := Option.map_eq_some_iff.mp h
      obtain ⟨-,hsent,hreceived,-⟩ := step_consumer hq
      rw [Counting.popped (counting_step hcount hq),List.append_nil] at hreceived
      apply rank_lt_of_steps
      · simp only [workLeft,hsent,hreceived]
      · simpa only [stepsLeft,helper,hpoint,if_true] using sizeLeft_step hcount hq

theorem calling_step {e : Event} (hi : Inv r disk₀ containers s) (hcall : Calling s)
    (h : step s e = some t) : Calling t := by
  cases e with
  | receiver =>
    obtain ⟨unsent,pushing,queue,producer,sent,rfl,-⟩ := receiver_cases hi h
    exact hcall
  | setDone =>
    simp only [step] at h
    split_ifs at h
    obtain rfl := Option.some.inj h
    exact hcall
  | writer k => exact (writes_writer hi hcall h).2
  | delete =>
    have hi' := inv_step hi h
    have hmain := hi'.main
    have hleft : t.main ≠ .joining := by
      simp only [step,deleteStep] at h
      split at h
      · split_ifs at h
        obtain ⟨q,-,rfl⟩ := Option.map_eq_some_iff.mp h
        simp
      · rename_i hm
        split at h
        · obtain rfl := Option.some.inj h
          dsimp only
          split_ifs <;> simp
        · obtain ⟨q,-,rfl⟩ := Option.map_eq_some_iff.mp h
          simp [hm]
      · cases h
      · cases h
    have hpoint : t.point = .returned := by
      cases hm : t.main with
      | joining => exact absurd hm hleft
      | checking =>
        rw [hm] at hmain
        exact hmain.1
      | deleted =>
        rw [hm] at hmain
        exact hmain
      | queueNotEmpty =>
        rw [hm] at hmain
        exact hmain.elim
    simp [Calling,hpoint,hleft]

theorem receiver_enabled (hi : Inv r disk₀ containers s) (hun : s.unsent ≠ []) :
    ∃ t, receiverStep s = some t := by
  have hr := hi.receiver
  cases hcs : s.unsent with
  | nil => exact absurd hcs hun
  | cons c cs =>
    rw [hcs] at hr
    simp only [receiverStep,hcs]
    generalize s.pushing = pushing at hr ⊢
    cases hp : s.inputMQ.producer <;> rw [hp] at hr <;> cases hr <;>
      simp_all [Session.queueStep,ReaderWriterQueue.step,producerStep,Producer.resting,element]

theorem consumer_enabled {q : Channel Container} (hcall : calls q.consumer = true)
    (hret : q.consumer.resting = false) : ∃ t, ReaderWriterQueue.step q .consumer = some t := by
  simp only [ReaderWriterQueue.step]
  cases hc : q.consumer with
  | take f front =>
    simp only [consumerStep]
    split <;> simp
  | idle => simp [hc,Consumer.resting] at hret
  | returned result => simp [hc,Consumer.resting] at hret
  | sized result => simp [hc,Consumer.resting] at hret
  | sizing f block result => simp [hc,calls] at hcall
  | assertionFailed => simp [hc,calls] at hcall
  | emptySlot => simp [hc,calls] at hcall
  | _ => simp [consumerStep]

theorem sizing_enabled {q : Channel Container} (hcount : Counting r q) :
    (∃ n, q.consumer = .sized n) ∨
      q.consumer.resting = false ∧ ∃ t, ReaderWriterQueue.step q .consumer = some t := by
  obtain ⟨q₀,p₀,c₀,l₀,k₀,-,l,k,-,-,-,⟨j,result,-,hc,-⟩ | ⟨result,hc,-⟩⟩ := hcount
  · exact .inr ⟨by simp [hc,Consumer.resting],by simp [ReaderWriterQueue.step,hc,consumerStep]⟩
  · exact .inl ⟨result,hc⟩

theorem writer_enabled (hi : Inv r disk₀ containers s) (hcall : Calling s)
    (hrun : s.point ≠ .returned) (k : ℕ) : ∃ t, writerStep s k = some t := by
  have hpromise := hi.promise
  cases hpoint : s.point with
  | returned => exact absurd hpoint hrun
  | testDone =>
    simp only [Calling,hpoint] at hcall
    simp only [writerStep,hpoint]
    split_ifs <;> simp [Session.queueStep,ReaderWriterQueue.step,hcall]
  | testEmpty =>
    rw [hpoint] at hpromise
    simp only [writerStep,hpoint]
    rcases sizing_enabled hpromise.2 with ⟨n,hn⟩ | ⟨hwalk,q,hq⟩
    · simp [hn,Session.queueStep,ReaderWriterQueue.step,Consumer.resting]
    · split
      · rename_i hn
        simp [hn,Consumer.resting] at hwalk
      · simp [Session.queueStep,hq]
  | pop flag =>
    simp only [Calling,hpoint] at hcall
    simp only [writerStep,hpoint]
    split
    · simp
    · simp
    · rename_i hsome hnone
      have hbusy : s.inputMQ.consumer.resting = false := by
        cases hc : s.inputMQ.consumer with
        | returned result =>
          cases result with
          | none => exact absurd hc hnone
          | some c => exact absurd hc (hsome c)
        | idle => simp [hc,calls] at hcall
        | sized result => simp [hc,calls] at hcall
        | _ => rfl
      obtain ⟨q,hq⟩ := consumer_enabled hcall hbusy
      simp [Session.queueStep,hq]
  | writeFile flag c n =>
    simp only [writerStep,hpoint,Session.pipe,DataWriter.writerStep]
    split_ifs <;> simp
  | _ => simp [writerStep,hpoint,Session.pipe,DataWriter.writerStep]

theorem delete_enabled (hi : Inv r disk₀ containers s) (hcall : Calling s)
    (hpoint : s.point = .returned) (hm : s.main ≠ .deleted) : ∃ t, deleteStep s = some t := by
  have hmain := hi.main
  have hpromise := hi.promise
  rw [hpoint] at hpromise
  simp only [Calling,hpoint] at hcall
  cases hcase : s.main with
  | deleted => exact absurd hcase hm
  | queueNotEmpty =>
    rw [hcase] at hmain
    exact hmain.elim
  | joining =>
    simp [deleteStep,hcase,hpromise.1,hpoint,Session.queueStep,ReaderWriterQueue.step,hcall hcase]
  | checking =>
    rw [hcase] at hmain
    simp only [deleteStep,hcase]
    rcases sizing_enabled hmain.2 with ⟨n,hn⟩ | ⟨hwalk,q,hq⟩
    · simp [hn]
    · split
      · simp
      · simp [Session.queueStep,hq]

def Deleted (s : Session) : Prop := s.main = .deleted

theorem ranking (hsize : 2 ≤ r.size) :
    Ranking step activity (fun s => Inv r disk₀ containers s ∧ Calling s) Deleted helper
      (rank r containers) where
  kept _ _ _ hs h := ⟨inv_step hs.1 h,calling_step hs.1 hs.2 h⟩
  enabled s e hs hgoal hact := by
    obtain ⟨hi,hcall⟩ := hs
    cases e with
    | receiver =>
      apply receiver_enabled hi
      have hh := (Option.some.inj hact).symm
      simp only [helper] at hh
      split_ifs at hh with h1 h2 h3
      exact h3
    | setDone =>
      have hh := (Option.some.inj hact).symm
      simp only [helper] at hh
      split_ifs at hh with h1 h2 h3
      exact ⟨_,if_pos h3⟩
    | writer k =>
      apply writer_enabled hi hcall
      intro hpoint
      simp only [activity,helper,hpoint,if_true] at hact
      split_ifs at hact
      cases hact
    | delete =>
      apply delete_enabled hi hcall _ hgoal
      have hh := (Option.some.inj hact).symm
      simp only [helper] at hh
      split_ifs at hh with h1
      exact h1
  closer s e t hs _ h := by
    obtain ⟨hi,hcall⟩ := hs
    cases e with
    | receiver =>
      exact (closer_receiver hi hsize h).imp_right fun hr => ⟨hr.1,hr.2.1,fun heq =>
        hr.2.2 (Option.some.inj heq).symm⟩
    | setDone =>
      simp only [step] at h
      split_ifs at h
      obtain rfl := Option.some.inj h
      exact closer_setDone.imp_right fun hr => ⟨hr.1,hr.2.1,fun heq =>
        hr.2.2 (Option.some.inj heq).symm⟩
    | writer k => exact closer_writer hi hcall h
    | delete => exact .inl (closer_delete hi h)

theorem deleted_step {e : Event} (hi : Inv r disk₀ containers s) (hs : Deleted s)
    (h : step s e = some t) : Deleted t := by
  cases e with
  | receiver =>
    obtain ⟨unsent,pushing,queue,producer,sent,rfl,-⟩ := receiver_cases hi h
    exact hs
  | setDone =>
    simp only [step] at h
    split_ifs at h
    obtain rfl := Option.some.inj h
    exact hs
  | writer k => exact (sameReceiver_writer h).main.trans hs
  | delete =>
    have hm : s.main = .deleted := hs
    simp [step,deleteStep,hm] at h

end Steps

/-- Every container has been saved, in order, and the queue has been deleted. -/
structure Ended (disk₀ : Disk) (containers : List Container) (s : Session) : Prop where
  deleted : s.main = .deleted
  saved : s.saved = containers
  disk : s.disk = containers.foldl saveToFile disk₀
  received : s.inputMQ.received = containers

/-- Under a scheduler that leaves no thread out for ever a session ends, whatever the
interleaving of the loads and stores of the queue: no `Push` on a full queue and no
`Pop` on an empty one repeats for ever, every container comes to the disk, and the queue
is deleted. -/
theorem queued_writer_terminates (maxQueueSize : UInt32) (disk₀ : Disk)
    (containers : List Container) (schedule : ℕ → Event) (hsize : maxQueueSize ≠ 0)
    (hfair : Fair activity schedule) :
    ∃ n, ∀ m ≥ n, Ended disk₀ containers
      (after step (start maxQueueSize disk₀ containers) schedule m) := by
  obtain ⟨r,hcap,hi⟩ := inv_start maxQueueSize disk₀ containers
  have hwide : 2 ≤ r.size := by
    have hpos : 0 < maxQueueSize.toNat :=
      Nat.pos_of_ne_zero fun hzero => hsize (UInt32.toNat_inj.mp hzero)
    by_contra hnarrow
    have hone : r.size-1 = 0 := by omega
    simp only [Ring.capacity,hone,Nat.mul_zero,ite_self] at hcap
    omega
  have hstart : Inv r disk₀ containers (start maxQueueSize disk₀ containers) ∧
      Calling (start maxQueueSize disk₀ containers) := ⟨hi,rfl⟩
  obtain ⟨n,hn⟩ := (ranking hwide).reaches hstart hfair
  refine ⟨n,fun m hm => ?_⟩
  have hend : Inv r disk₀ containers (after step (start maxQueueSize disk₀ containers) schedule m) ∧
      Deleted (after step (start maxQueueSize disk₀ containers) schedule m) := by
    induction m, hm using Nat.le_induction with
    | base => exact ⟨after_invariant (fun _ _ _ hs h => inv_step hs h) hi schedule n,hn⟩
    | succ m _ ih =>
      cases h : step (after step (start maxQueueSize disk₀ containers) schedule m) (schedule m) with
      | none => rwa [after_none h]
      | some t =>
        rw [after_some h]
        exact ⟨inv_step ih.1 h,deleted_step ih.1 ih.2 h⟩
  obtain ⟨hinv,hdeleted⟩ := hend
  have hmain := hinv.main
  rw [show _ = Main.deleted from hdeleted] at hmain
  obtain ⟨hsaved,hdisk,hreceived,-⟩ := hinv.returned hmain
  exact ⟨hdeleted,hsaved,hdisk,hreceived⟩

def inTurn (n : ℕ) : Event :=
  if n%4 = 0 then .delete else if n%4 = 1 then .receiver
  else if n%4 = 2 then .writer 1 else .setDone

theorem fair_inTurn : Fair activity inTurn := by
  intro i n
  cases i with
  | delete => exact ⟨4*n,by omega,by simp [inTurn,activity]⟩
  | receiver => exact ⟨4*n+1,by omega,by simp [inTurn,activity,Nat.add_mod]⟩
  | writer => exact ⟨4*n+2,by omega,by simp [inTurn,activity,Nat.add_mod]⟩
  | setDone => exact ⟨4*n+3,by omega,by simp [inTurn,activity,Nat.add_mod]⟩

theorem queued_writer_terminates_inTurn :
    ∃ n, ∀ m ≥ n, Ended (fun _ => none) [⟨[1],[2,3],2⟩,⟨[4],[5],1⟩]
      (after step (start 1 (fun _ => none) [⟨[1],[2,3],2⟩,⟨[4],[5],1⟩]) inTurn m) :=
  queued_writer_terminates 1 _ _ inTurn (by decide) fair_inTurn

end QueuedWriter
end CloudServer
