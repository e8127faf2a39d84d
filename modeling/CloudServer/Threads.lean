import CloudServer.Durability
import CloudServer.RoundTrip

/-! The thread list of the server. The interrupt handler joins the threads in it before
it saves the index, so it has to list every upload whose receiver or writer still runs.
`Happens` is the inversion of a step of the process: what it does to the uploads, to
the thread list and to the files that outlive the process. -/
namespace CloudServer
namespace Threads

open ByteMemory Execution StorageCore ContainerFormat Packing PlainIndex Database DataReceiver
  Lifecycle
open Uploads (World Session Takes put_self put_ne put_cases)
open DataWriter (Promise writerStep writerStep_promise promise_push promise_setDone)
open RecvDecoder (Message)
open RecipeSender (edgeDownloadRecipeThread)

def Busy (p : Process) (i : ℕ) : Prop :=
  (p.server.downloads i).isSome = true ∨ (p.senders i).isSome = true

def Returned (s : Session) : Prop := s.live = false ∧ s.writer.point = .returned

def MayLeave (p : Process) (i : ℕ) : Prop :=
  Busy p i ∨ ∃ s, p.world.sessions i = some s ∧ Returned s

/-- Clients that follow the upload protocol with chunks of `T`, in each lifetime. -/
def Admitted (T : Set Bytes) : Event → Prop
  | .login _ memory _ _ => memory.prior.chunkNum = 0
  | .uploadMessage i (some m) => m.header.messageType = .edgeMigrationChunk →
      m.payload.length ≤ recvChunkBufSize →
      UploadInvariant.Admitted T (.message i m.header.currentItemNum m.payload)
  | _ => True

/-- What stays of the process when a step does not end it. -/
structure Goes (p q : Process) : Prop where
  before : p.status = .running
  after : q.status = .running
  dbFile : q.dbFile = p.dbFile

def Opens (p q : Process) : Uploads.Event → Prop
  | .login i _ _ => i ∈ q.thList ∧ ¬ Busy p i
  | _ => True

/-- What a step does, as far as uploads, threads and the lasting files are concerned. -/
inductive Happens (S : Setting) (p : Process) (e : Event) (q : Process) : Prop
  | upload {ue : Uploads.Event} (hgo : Goes p q)
    (hw : Uploads.step S.digest S.uuid p.world ue = some q.world)
    (hadm : ∀ T, Admitted T e → UploadInvariant.Admitted T ue) (hopen : Opens p q ue)
    (hlist : ∀ i ∈ p.thList, i ∈ q.thList) (hbusy : ∀ i, Busy q i → Busy p i)
  | buffer {i : ℕ} {s : Session} (b : Mem UInt8) (hgo : Goes p q)
    (hs : p.world.sessions i = some s) (hlive : s.live = true)
    (hidle : ¬ s.batch.index < s.batch.chunkNum)
    (hw : q.world = p.world.put i { s with batch := { s.batch with dataBuffer := b } })
    (hlist : ∀ i ∈ p.thList, i ∈ q.thList) (hbusy : ∀ i, Busy q i → Busy p i)
  | other (hgo : Goes p q) (hw : q.world = p.world)
    (hlist : ∀ i ∈ p.thList, i ∈ q.thList ∨ MayLeave p i)
    (hbusy : ∀ i, Busy q i → Busy p i ∨ p.world.sessions i = none)
  | exits (hp : p.status = .running) (hq : q.status = .ended) (hw : q.world = p.world)
    (hdb : q.dbFile = p.dbFile) (hbad : ¬ Benign S p e)
  | saves (order : Order) (hp : p.status = .running) (hq : q.status = .ended)
    (hw : q.world = p.world) (hjoined : p.thList = [])
    (horder : order.toFinmap = p.world.shared.indexStore) (hdb : q.dbFile = some (saveDB order))
  | starts (m : Index) (hp : p.status = .ended) (hq : q.status = .running)
    (hm : openDB p.dbFile = .ok m) (hdb : q.dbFile = p.dbFile)
    (hw : q.world = ⟨⟨m,p.statFile.1,p.statFile.2,p.world.shared.drawn⟩,p.world.disk,
      fun _ => none⟩)

variable {S : Setting} {p q : Process} {e : Event} {T : Set Bytes}

theorem isSome_of_update {α : Type} {f : ℕ → Option α} {i j : ℕ} {x : Option α}
    (h : (Function.update f i x j).isSome = true) (hi : (f i).isSome = true) :
    (f j).isSome = true := by
  by_cases hj : j = i
  · rwa [hj]
  · rwa [Function.update_of_ne hj] at h

theorem downloads_of_step {s t : Downloads.Server} {de : Downloads.Event} {i : ℕ}
    (h : Downloads.step S.digest S.uuid s de = some t) (hi : (t.downloads i).isSome = true) :
    (s.downloads i).isSome = true ∨ ∃ c, de = .login i c := by
  unfold Downloads.step at h
  split_ifs at h
  cases de with
  | upload ue =>
    obtain ⟨w,_,rfl⟩ := Option.map_eq_some_iff.mp h
    exact Or.inl hi
  | login j c =>
    simp only at h
    split at h
    · simp at h
    · obtain rfl := Option.some.inj h
      by_cases hij : i = j
      · exact Or.inr ⟨c,by rw [hij]⟩
      · exact Or.inl (by simpa [Downloads.Server.put,hij] using hi)
  | receive j m =>
    obtain ⟨d,hd,hrec⟩ := Option.bind_eq_some_iff.mp h
    simp only [Downloads.receive] at hrec
    split at hrec
    · split_ifs at hrec <;> obtain rfl := Option.some.inj hrec <;>
        exact Or.inl (isSome_of_update hi (by simp [hd]))
    · simp at hrec
  | download j =>
    obtain ⟨d,hd,hadv⟩ := Option.bind_eq_some_iff.mp h
    simp only [Downloads.advance] at hadv
    split at hadv
    · simp at hadv
    · obtain rfl := Option.some.inj hadv
      exact Or.inl hi
    · split at hadv <;> obtain rfl := Option.some.inj hadv
      · exact Or.inl (isSome_of_update hi (by simp [hd]))
      · exact Or.inl hi

theorem not_busy_of_fresh {i : ℕ} (h : fresh p i = true) :
    p.world.sessions i = none ∧ ¬ Busy p i := by
  simp only [fresh,Bool.and_eq_true,Option.isNone_iff_eq_none] at h
  obtain ⟨⟨hs,hd⟩,ht⟩ := h
  exact ⟨hs,by simp [Busy,hd,ht]⟩

theorem mem_joined {i j : ℕ} (hi : MayLeave p i) (hj : j ∈ p.thList) :
    j ∈ (p.joined i).thList ∨ MayLeave p j := by
  by_cases hji : j = i
  · exact Or.inr (hji ▸ hi)
  · exact Or.inl ((List.mem_erase_of_ne hji).mpr hj)

theorem busy_download {t : Downloads.Server} {de : Downloads.Event} {i : ℕ}
    (ht : Downloads.step S.digest S.uuid p.server de = some t) (hde : ∀ c, de ≠ .login i c)
    (hbusy : Busy { p with server := t } i) : Busy p i :=
  hbusy.imp_left fun hd => (downloads_of_step ht hd).resolve_right fun ⟨c,hc⟩ => hde c hc

theorem happens_performs (hp : p.status = .running) (h : Performs S p e q) : Happens S p e q := by
  cases h with
  | exits hbad => exact .exits hp rfl rfl rfl hbad
  | changeFails _ hbad => exact .exits hp rfl rfl rfl hbad
  | uploadLogin hfresh _ hw =>
    exact .upload ⟨hp,hp,rfl⟩ hw (fun _ hT => hT) ⟨List.mem_cons_self,(not_busy_of_fresh hfresh).2⟩
      (fun j hj => List.mem_cons_of_mem _ hj) fun _ hj => hj
  | @recipeLogin i memory m delivered hfresh htype =>
    refine .other ⟨hp,hp,rfl⟩ rfl (fun j hj => Or.inl (List.mem_cons_of_mem _ hj)) fun j hj => ?_
    by_cases hji : j = i
    · exact Or.inr (hji ▸ (not_busy_of_fresh hfresh).1)
    · refine Or.inl (hj.imp_right fun ht => ?_)
      simpa [Function.update_of_ne hji] using ht
  | @chunkLogin i memory m delivered t hfresh htype ht hworld =>
    refine .other ⟨hp,hp,rfl⟩ hworld (fun j hj => Or.inl (List.mem_cons_of_mem _ hj)) fun j hj => ?_
    by_cases hji : j = i
    · exact Or.inr (hji ▸ (not_busy_of_fresh hfresh).1)
    · refine Or.inl (busy_download ht (fun c hc => hji ?_) hj)
      exact (Downloads.Event.login.inj hc).1.symm
  | @uploads _ ue w he hw =>
    obtain ⟨hadm,hopen⟩ : (∀ T, UploadInvariant.Admitted T ue) ∧ Opens p (p.setWorld w) ue := by
      unfold uploadsEvent at he
      split at he <;> cases he <;> exact ⟨fun _ => trivial,trivial⟩
    exact .upload ⟨hp,hp,rfl⟩ hw (fun T _ => hadm T) hopen (fun _ hj => hj) fun _ hj => hj
  | chunkMessage _ htype hfit hw =>
    exact .upload ⟨hp,hp,rfl⟩ hw (fun _ hT => hT htype hfit) trivial (fun _ hj => hj) fun _ hj => hj
  | message hs _ hlive hidle =>
    exact .buffer _ ⟨hp,hp,rfl⟩ hs hlive hidle rfl (fun _ hj => hj) fun _ hj => hj
  | uploadEnds hs _ hret =>
    exact .other ⟨hp,hp,rfl⟩ rfl (fun _ hj => mem_joined (Or.inr ⟨_,hs,hret⟩) hj)
      fun _ hj => Or.inl hj
  | receives ht hworld =>
    exact .other ⟨hp,hp,rfl⟩ hworld (fun _ hj => Or.inl hj)
      fun _ hj => Or.inl (busy_download ht (by simp) hj)
  | downloads ht hworld =>
    exact .other ⟨hp,hp,rfl⟩ hworld (fun _ hj => Or.inl hj)
      fun _ hj => Or.inl (busy_download ht (by simp) hj)
  | downloadEnds hd =>
    exact .other ⟨hp,hp,rfl⟩ rfl (fun _ hj => mem_joined (Or.inl (Or.inl (by simp [hd]))) hj)
      fun _ hj => Or.inl (hj.imp_left fun h => isSome_of_update h (by simp [hd]))
  | replies _ ht =>
    exact .other ⟨hp,hp,rfl⟩ rfl (fun _ hj => Or.inl hj)
      fun _ hj => Or.inl (hj.imp_right fun h => isSome_of_update h (by simp [ht]))
  | recipeEnds ht =>
    exact .other ⟨hp,hp,rfl⟩ rfl (fun _ hj => mem_joined (Or.inl (Or.inr (by simp [ht]))) hj)
      fun _ hj => Or.inl (hj.imp_right fun h => isSome_of_update h (by simp [ht]))
  | interrupt hjoined horder => exact .saves _ hp rfl rfl hjoined horder rfl

theorem happens_of_step (h : step S p e = some q) : Happens S p e q := by
  rcases step_cases h with ⟨hp,hperf⟩ | ⟨hp,rfl,hstart⟩
  · exact happens_performs hp hperf
  · obtain ⟨m,hm,rfl⟩ := restart_eq_some.mp hstart
    exact .starts m hp rfl hm rfl rfl

structure Paired (s : Session) : Prop where
  promise : Promise (s.pipe fun _ => none)
  done : s.done = true → s.live = false
  idle : s.live = false → ¬ s.batch.index < s.batch.chunkNum

/-- Every upload that still runs is in the list, and no download shares its connection. -/
structure Listed (p : Process) : Prop where
  paired : ∀ i s, p.world.sessions i = some s → Paired s
  listed : ∀ i s, p.world.sessions i = some s → i ∈ p.thList ∨ Returned s
  apart : ∀ i s, p.world.sessions i = some s → ¬ Busy p i

theorem paired_newSession (uuid : Bytes) (prior : InmemoryContainer) (buffer : Mem UInt8) :
    Paired (Uploads.newSession uuid prior buffer) :=
  ⟨trivial,nofun,nofun⟩

theorem notDone_of_live {s : Session} (h : Paired s) (hlive : s.live = true) : s.done = false := by
  cases hd : s.done with
  | false => rfl
  | true => simp [h.done hd] at hlive

theorem paired_takes {w w' : World} {ue : Uploads.Event} (h : Takes S.digest S.uuid w ue w')
    (hw : ∀ i s, w.sessions i = some s → Paired s) :
    ∀ i s, w'.sessions i = some s → Paired s ∧
      ((∃ prior buffer, ue = .login i prior buffer) ∨
        ∃ s₀, w.sessions i = some s₀ ∧ (Returned s₀ → Returned s)) := by
  intro j t ht
  have hkeep : w.sessions j = some t → Paired t ∧
      ((∃ prior buffer, ue = .login j prior buffer) ∨
        ∃ s₀, w.sessions j = some s₀ ∧ (Returned s₀ → Returned t)) := fun hold =>
    ⟨hw j t hold,Or.inr ⟨t,hold,id⟩⟩
  cases h with
  | @login i prior buffer hs =>
    rcases put_cases ht with ⟨rfl,rfl⟩ | ⟨_,hold⟩
    · exact ⟨paired_newSession _ _ _,Or.inl ⟨prior,buffer,rfl⟩⟩
    · exact hkeep hold
  | @message i s n payload hs hlive hidle =>
    rcases put_cases ht with ⟨rfl,rfl⟩ | ⟨_,hold⟩
    · have hp := hw j s hs
      exact ⟨⟨hp.promise,hp.done,by simp [hlive]⟩,Or.inr ⟨s,hs,id⟩⟩
    · exact hkeep hold
  | @chunk i s r hs hlive hbusy hr =>
    rcases put_cases ht with ⟨rfl,rfl⟩ | ⟨_,hold⟩
    · have hp := hw j s hs
      exact ⟨⟨promise_push hp.promise (notDone_of_live hp hlive) _,hp.done,by simp [hlive]⟩,
        Or.inr ⟨s,hs,id⟩⟩
    · exact hkeep hold
  | @lastContainer i s hs hlive hidle =>
    rcases put_cases ht with ⟨rfl,rfl⟩ | ⟨_,hold⟩
    · have hp := hw j s hs
      exact ⟨⟨promise_push hp.promise (notDone_of_live hp hlive) _,fun _ => rfl,fun _ => hidle⟩,
        Or.inr ⟨s,hs,fun hret => ⟨rfl,hret.2⟩⟩⟩
    · exact hkeep hold
  | @setDone i s hs hdead =>
    rcases put_cases ht with ⟨rfl,rfl⟩ | ⟨_,hold⟩
    · have hp := hw j s hs
      exact ⟨⟨promise_setDone hp.promise,fun _ => hdead,hp.idle⟩,Or.inr ⟨s,hs,id⟩⟩
    · exact hkeep hold
  | @writer i k s pipe hs hstep =>
    rcases put_cases ht with ⟨rfl,rfl⟩ | ⟨_,hold⟩
    · have hp := hw j s hs
      have hdone := (Uploads.writerStep_pushes hstep).2
      have hpromise : Promise pipe := writerStep_promise (p := s.pipe w.disk) hp.promise hstep
      refine ⟨⟨?_,hp.done,hp.idle⟩,Or.inr ⟨s,hs,?_⟩⟩
      · obtain ⟨⟨items,done⟩,disk,writer⟩ := pipe
        simp only at hdone
        subst hdone
        exact hpromise
      · rintro ⟨_,hret⟩
        simp [writerStep,Session.pipe,hret] at hstep
    · exact hkeep hold

theorem listed_start : Listed start where
  paired := by simp [start,Process.world,Downloads.start,Uploads.empty]
  listed := by simp [start,Process.world,Downloads.start,Uploads.empty]
  apart := by simp [start,Process.world,Downloads.start,Uploads.empty]

theorem listed_same (h : Listed p) (hw : q.world = p.world)
    (hlist : ∀ i ∈ p.thList, i ∈ q.thList ∨ MayLeave p i)
    (hbusy : ∀ i, Busy q i → Busy p i ∨ p.world.sessions i = none) : Listed q where
  paired := hw ▸ h.paired
  listed := by
    intro i s hs
    rw [hw] at hs
    refine (h.listed i s hs).elim (fun hi => ?_) Or.inr
    rcases hlist i hi with hq | hbusy | ⟨t,ht,hret⟩
    · exact Or.inl hq
    · exact absurd hbusy (h.apart i s hs)
    · exact Or.inr (Option.some.inj (ht.symm.trans hs) ▸ hret)
  apart := by
    intro i s hs hbusyq
    rw [hw] at hs
    rcases hbusy i hbusyq with hbusyp | hnone
    · exact h.apart i s hs hbusyp
    · simp [hs] at hnone

theorem listed_upload {ue : Uploads.Event} (h : Listed p)
    (hw : Takes S.digest S.uuid p.world ue q.world) (hopen : Opens p q ue)
    (hlist : ∀ i ∈ p.thList, i ∈ q.thList) (hbusy : ∀ i, Busy q i → Busy p i) : Listed q where
  paired i s hs := (paired_takes hw h.paired i s hs).1
  listed := by
    intro i s hs
    rcases (paired_takes hw h.paired i s hs).2 with ⟨prior,buffer,rfl⟩ | ⟨s₀,hs₀,hret⟩
    · exact Or.inl hopen.1
    · exact (h.listed i s₀ hs₀).imp (hlist i) hret
  apart := by
    intro i s hs hbusyq
    rcases (paired_takes hw h.paired i s hs).2 with ⟨prior,buffer,rfl⟩ | ⟨s₀,hs₀,_⟩
    · exact hopen.2 (hbusy i hbusyq)
    · exact h.apart i s₀ hs₀ (hbusy i hbusyq)

theorem listed_buffer {i : ℕ} {s : Session} {b : Mem UInt8} (h : Listed p)
    (hs : p.world.sessions i = some s)
    (hw : q.world = p.world.put i { s with batch := { s.batch with dataBuffer := b } })
    (hlist : ∀ i ∈ p.thList, i ∈ q.thList) (hbusy : ∀ i, Busy q i → Busy p i) : Listed q := by
  have hp := h.paired i s hs
  have hq : ∀ j t, q.world.sessions j = some t →
      Paired t ∧ (j ∈ p.thList ∨ Returned t) ∧ ¬ Busy p j := by
    intro j t ht
    rw [hw] at ht
    rcases put_cases ht with ⟨rfl,rfl⟩ | ⟨_,hold⟩
    · exact ⟨⟨hp.promise,hp.done,hp.idle⟩,h.listed j s hs,h.apart j s hs⟩
    · exact ⟨h.paired j t hold,h.listed j t hold,h.apart j t hold⟩
  exact ⟨fun j t ht => (hq j t ht).1,fun j t ht => (hq j t ht).2.1.imp_left (hlist j),
    fun j t ht hb => (hq j t ht).2.2 (hbusy j hb)⟩

theorem listed_step (h : p.status = .running → Listed p) (hstep : step S p e = some q)
    (hq : q.status = .running) : Listed q := by
  cases happens_of_step hstep with
  | upload hgo hw hadm hopen hlist hbusy =>
    exact listed_upload (h hgo.before) (Uploads.takes_of_step hw) hopen hlist hbusy
  | buffer b hgo hs hlive hidle hw hlist hbusy =>
    exact listed_buffer (h hgo.before) hs hw hlist hbusy
  | other hgo hw hlist hbusy => exact listed_same (h hgo.before) hw hlist hbusy
  | exits hp hended => simp [hended] at hq
  | saves order hp hended => simp [hended] at hq
  | starts m hp hrun hm hdb hw => exact ⟨by simp [hw],by simp [hw],by simp [hw]⟩

/-- When the list is empty, every upload has come to its end: it has nothing left to
process, to push or to write. -/
theorem returned_of_joined (h : Listed p) (hjoined : p.thList = []) {i : ℕ} {s : Session}
    (hs : p.world.sessions i = some s) : Returned s := by
  rcases h.listed i s hs with hin | hret
  · simp [hjoined] at hin
  · exact hret

theorem quiescent_of_joined (h : Listed p) (hjoined : p.thList = []) :
    RoundTrip.Quiescent p.world := by
  intro i s hs
  have hret := returned_of_joined h hjoined hs
  have hpromise := (h.paired i s hs).promise
  unfold Promise at hpromise
  simp only [Session.pipe,hret.2] at hpromise
  exact ⟨hret.1,hpromise.2,by rw [hret.2]; rfl⟩

end Threads
end CloudServer
