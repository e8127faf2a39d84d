import CloudServer.RoundTrip

/-! The uploads of a server over several lifetimes, seen as those of one. The sessions
of the running process take the even places, those of the processes before it the odd
ones, and the directory is the part of the real one that the saved index accounts for:
files that a lost process left behind are not in it. A step of the running process is
a step of the joint world, so the invariant of one lifetime carries over. -/
namespace CloudServer
namespace Generations

open ByteMemory Execution StorageCore ContainerFormat Packing PlainIndex Catalog Uploads
  UploadInvariant
open DataWriter hiding Session Event step Inv
open RoundTrip (Quiescent)

def Beneath (d disk : Disk) : Prop := ∀ id f, d id = some f → disk id = some f

def joint (w : World) (d : Disk) (old : ℕ → Option Session) : World where
  shared := w.shared
  disk := d
  sessions n := if n%2 = 0 then w.sessions (n/2) else old (n/2)

def current : Event → Event
  | .login i prior buffer => .login (2*i) prior buffer
  | .message i n payload => .message (2*i) n payload
  | .chunk i => .chunk (2*i)
  | .lastContainer i => .lastContainer (2*i)
  | .setDone i => .setDone (2*i)
  | .writer i k => .writer (2*i) k

variable {H : Digest} {uuid : ℕ → Bytes} {T : Set Bytes} {w w' : World} {d disk : Disk}
  {old : ℕ → Option Session} {e : Event}

theorem beneath_refl (d : Disk) : Beneath d d := fun _ _ h => h

theorem Beneath.trans {d₁ d₂ d₃ : Disk} (h : Beneath d₁ d₂) (h' : Beneath d₂ d₃) :
    Beneath d₁ d₃ :=
  fun id f hf => h' id f (h id f hf)

theorem Beneath.update (h : Beneath d disk) (id : Bytes) (f : Option DiskFile) :
    Beneath (Function.update d id f) (Function.update disk id f) := by
  intro id' f' hf
  by_cases hid : id' = id
  · subst hid
    simpa using hf
  · rw [Function.update_of_ne hid] at hf ⊢
    exact h id' f' hf

@[simp] theorem joint_even (w : World) (d : Disk) (old : ℕ → Option Session) (i : ℕ) :
    (joint w d old).sessions (2*i) = w.sessions i := by
  simp [joint]

@[simp] theorem joint_odd (w : World) (d : Disk) (old : ℕ → Option Session) (i : ℕ) :
    (joint w d old).sessions (2*i+1) = old i := by
  have hmod : (2*i+1)%2 ≠ 0 := by omega
  have hdiv : (2*i+1)/2 = i := by omega
  simp only [joint,if_neg hmod,hdiv]

theorem joint_cases {n : ℕ} {s : Session} (h : (joint w d old).sessions n = some s) :
    (∃ i, n = 2*i ∧ w.sessions i = some s) ∨ ∃ i, n = 2*i+1 ∧ old i = some s := by
  by_cases hn : n%2 = 0
  · obtain ⟨i,rfl⟩ : ∃ i, n = 2*i := ⟨n/2,by omega⟩
    rw [joint_even] at h
    exact Or.inl ⟨i,rfl,h⟩
  · obtain ⟨i,rfl⟩ : ∃ i, n = 2*i+1 := ⟨n/2,by omega⟩
    rw [joint_odd] at h
    exact Or.inr ⟨i,rfl,h⟩

theorem joint_put (w : World) (d : Disk) (old : ℕ → Option Session) (i : ℕ) (s : Session)
    (sh : Shared) (dk : Disk) :
    joint ⟨sh,dk,(w.put i s).sessions⟩ d old =
      ⟨sh,d,((joint w d old).put (2*i) s).sessions⟩ := by
  unfold joint World.put
  congr 1
  funext n
  by_cases hn : n%2 = 0
  · by_cases hi : n/2 = i
    · have hni : n = 2*i := by omega
      subst hni
      simp
    · have hni : n ≠ 2*i := by omega
      simp [hn,hi,hni]
  · have hni : n ≠ 2*i := by omega
    simp [hn,hni]

theorem writerStep_beneath {mq : MessageQueue} {writer : Writer} {k : ℕ} {p : Pipe}
    (h : writerStep ⟨mq,disk,writer⟩ k = some p) (hd : Beneath d disk) :
    ∃ d', writerStep ⟨mq,d,writer⟩ k = some ⟨p.inputMQ,d',p.writer⟩ ∧ Beneath d' p.disk := by
  obtain ⟨point,saved⟩ := writer
  cases point with
  | testDone | testEmpty | testFlag =>
    simp only [writerStep,Option.some.injEq] at h
    subst h
    exact ⟨d,rfl,hd⟩
  | pop flag =>
    cases hitems : mq.items <;> simp only [writerStep,hitems,Option.some.injEq] at h <;> subst h <;>
      exact ⟨d,by simp [writerStep,hitems],hd⟩
  | openFile flag c =>
    simp only [writerStep,Option.some.injEq] at h
    subst h
    exact ⟨_,rfl,hd.update _ _⟩
  | writeFile flag c n =>
    simp only [writerStep] at h
    split_ifs at h with hlt
    · obtain rfl := Option.some.inj h
      exact ⟨_,by simp only [writerStep,if_pos hlt],hd.update _ _⟩
    · obtain rfl := Option.some.inj h
      exact ⟨_,by simp only [writerStep,if_neg hlt,saveToFile],hd.update _ _⟩
  | returned => simp [writerStep] at h

theorem step_of_takes (h : Takes H uuid w e w') : step H uuid w e = some w' := by
  cases h with
  | login prior buffer hs => simp [step,Event.session,hs]
  | message n payload hs hlive hidle => simp [step,Event.session,sessionStep,hs,hlive,hidle]
  | chunk hs hlive hbusy hr =>
    subst hr
    simp [step,Event.session,sessionStep,batchStep,hs,hlive,hbusy]
  | lastContainer hs hlive hidle => simp [step,Event.session,sessionStep,hs,hlive,hidle]
  | setDone hs hdead => simp [step,Event.session,sessionStep,hs,hdead]
  | writer hs hp => simp [step,Event.session,sessionStep,hs,hp]

/-- A step of the running process is one of the joint world. -/
theorem takes_joint (old : ℕ → Option Session) (h : Takes H uuid w e w') (hd : Beneath d w.disk) :
    ∃ d' g, Takes H uuid (joint w d old) (current e) g ∧ g = joint w' d' old ∧
      Beneath d' w'.disk := by
  cases h with
  | login prior buffer hs =>
    exact ⟨d,_,.login prior buffer (by simpa using hs),(joint_put w d old _ _ _ _).symm,hd⟩
  | message n payload hs hlive hidle =>
    exact ⟨d,_,.message n payload (by simpa using hs) hlive hidle,
      (joint_put w d old _ _ _ w.disk).symm,hd⟩
  | chunk hs hlive hbusy hr =>
    exact ⟨d,_,.chunk (by simpa using hs) hlive hbusy hr,(joint_put w d old _ _ _ w.disk).symm,hd⟩
  | lastContainer hs hlive hidle =>
    exact ⟨d,_,.lastContainer (by simpa using hs) hlive hidle,
      (joint_put w d old _ _ _ w.disk).symm,hd⟩
  | setDone hs hdead =>
    exact ⟨d,_,.setDone (by simpa using hs) hdead,(joint_put w d old _ _ _ w.disk).symm,hd⟩
  | @writer i k s p hs hp =>
    obtain ⟨d',hp',hd'⟩ := writerStep_beneath hp hd
    exact ⟨d',_,.writer (by simpa using hs) hp',(joint_put w d' old _ _ _ p.disk).symm,hd'⟩

theorem admitted_current (h : Admitted T e) : Admitted T (current e) := by
  cases e <;> exact h

theorem inv_joint_step (h : Inv H uuid T (joint w d old)) (hd : Beneath d w.disk)
    (he : Admitted T e) (hstep : step H uuid w e = some w')
    (hid : Set.InjOn uuid {n | n < w'.shared.drawn}) :
    ∃ d', Inv H uuid T (joint w' d' old) ∧ Beneath d' w'.disk := by
  obtain ⟨d',g,htakes,rfl,hd'⟩ := takes_joint old (takes_of_step hstep) hd
  exact ⟨d',inv_step h (admitted_current he) (step_of_takes htakes) hid,hd'⟩

theorem inv_joint_buffer (h : Inv H uuid T (joint w d old)) {i : ℕ} {s : Session}
    (hs : w.sessions i = some s) (hidle : ¬ s.batch.index < s.batch.chunkNum) (b : Mem UInt8) :
    Inv H uuid T (joint (w.put i { s with batch := { s.batch with dataBuffer := b } }) d old) := by
  have hs' : (joint w d old).sessions (2*i) = some s := by simpa using hs
  obtain ⟨hcur,hpushed,rest,hrest,hin⟩ := h.sessions _ s hs'
  obtain rfl : rest = [] := (remaining_nil_iff hrest).mpr hidle
  have hkeep : Inv H uuid T ((joint w d old).put (2*i)
      { s with batch := { s.batch with dataBuffer := b } }) :=
    h.keep hs' rfl ⟨hcur,hpushed,[],⟨hrest.count,holds_nil _ _,hrest.small⟩,hin⟩ rfl rfl
  exact (joint_put w d old i _ w.shared w.disk).symm ▸ hkeep

/-- The files of a world at rest stay beneath the directory of every joint world that it
is the past of. -/
theorem beneath_joint {C : World} (hC : Inv H uuid T C) (hend : Quiescent C)
    (h : Inv H uuid T (joint w d C.sessions)) : Beneath C.disk d := by
  intro id f hf
  obtain ⟨i,wr,hwr,⟨c,hc,rfl,rfl⟩ | ⟨flag,c,n,hpoint,_⟩⟩ := hC.disk.files id f hf
  · obtain ⟨s,hs,rfl⟩ := Option.map_eq_some_iff.mp hwr
    exact h.disk.saved (2*i+1) s.writer c (by simp [writers,hs]) hc
  · obtain ⟨s,hs,rfl⟩ := Option.map_eq_some_iff.mp hwr
    have := (hend i s hs).2.2
    simp [hpoint,Point.held] at this

theorem quiescent_joint (hw : Quiescent w) (hold : Quiescent ⟨w.shared,d,old⟩) :
    Quiescent (joint w d old) := by
  intro n s hs
  rcases joint_cases hs with ⟨i,_,hi⟩ | ⟨i,_,hi⟩
  · exact hw i s hi
  · exact hold i s hi

theorem view_past {C : World} (hend : Quiescent C) {a : Place} {g : Group}
    (h : view C a = some g) : ∃ i k, a = .pushed i k := by
  cases a with
  | memory i =>
    obtain ⟨s,hs,hmem⟩ := Option.bind_eq_some_iff.mp h
    simp [Session.inMemory,(hend i s hs).1] at hmem
  | pushed i k => exact ⟨i,k,rfl⟩

theorem inv_restart {C : World} (hC : Inv H uuid T C) (hend : Quiescent C) {sh : Shared}
    (hindex : sh.indexStore = C.shared.indexStore) (hdrawn : C.shared.drawn ≤ sh.drawn)
    (disk : Disk) : Inv H uuid T (joint ⟨sh,disk,fun _ => none⟩ C.disk C.sessions) := by
  have hodd : ∀ i k, view (joint ⟨sh,disk,fun _ => none⟩ C.disk C.sessions) (.pushed (2*i+1) k) =
      view C (.pushed i k) := by
    intro i k
    simp [view]
  have hfrom : ∀ a g, view (joint ⟨sh,disk,fun _ => none⟩ C.disk C.sessions) a = some g →
      ∃ i k, a = .pushed (2*i+1) k ∧ view C (.pushed i k) = some g := by
    intro a g hg
    cases a with
    | memory n =>
      obtain ⟨s,hs,hmem⟩ := Option.bind_eq_some_iff.mp hg
      rcases joint_cases hs with ⟨i,_,hi⟩ | ⟨i,_,hi⟩
      · simp at hi
      · simp [Session.inMemory,(hend i s hi).1] at hmem
    | pushed n k =>
      obtain ⟨s,hs,hk⟩ := Option.bind_eq_some_iff.mp hg
      rcases joint_cases hs with ⟨i,_,hi⟩ | ⟨i,rfl,hi⟩
      · simp at hi
      · exact ⟨i,k,rfl,by rw [← hodd]; exact hg⟩
  refine ⟨?_,?_,?_,?_⟩
  · have hx : World.index (joint ⟨sh,disk,fun _ => none⟩ C.disk C.sessions) = C.index := by
      funext fp
      simp only [World.index,joint,hindex]
    rw [hx]
    refine hC.catalog.transfer
      (R := fun a b => ∃ i k, a = .pushed (2*i+1) k ∧ b = .pushed i k) ?_ ?_ ?_
    · rintro a a' b ⟨i,k,rfl,rfl⟩ ⟨i',k',rfl,hb⟩
      obtain ⟨rfl,rfl⟩ := Place.pushed.inj hb
      rfl
    · intro a g hg
      obtain ⟨i,k,rfl,hk⟩ := hfrom a g hg
      exact ⟨_,⟨i,k,rfl,rfl⟩,hk⟩
    · intro b g hg
      obtain ⟨i,k,rfl⟩ := view_past hend hg
      exact ⟨_,(hodd i k).trans hg⟩
  · intro a g hg
    obtain ⟨i,k,rfl,hk⟩ := hfrom a g hg
    exact hC.named.mono hdrawn _ _ hk
  · intro n s hs
    rcases joint_cases hs with ⟨i,_,hi⟩ | ⟨i,_,hi⟩
    · simp at hi
    · exact hC.sessions i s hi
  · constructor
    · intro n wr c hwr hc
      obtain ⟨s,hs,rfl⟩ := Option.map_eq_some_iff.mp hwr
      rcases joint_cases hs with ⟨i,_,hi⟩ | ⟨i,_,hi⟩
      · simp at hi
      · exact hC.disk.saved i s.writer c (by simp [writers,hi]) hc
    · intro id f hf
      obtain ⟨i,wr,hwr,hx⟩ := hC.disk.files id f hf
      exact ⟨2*i+1,wr,by simpa [writers] using hwr,hx⟩

end Generations
end CloudServer
