import CloudServer.RecipeDirectory
import CloudServer.RecipeRoundTrip

/-! One upload session in a process that does other things between its steps: the files
that it opens come to hold what its messages say, and keep it after its end. -/
namespace CloudServer
namespace UploadSessions

open ByteMemory OutputStream Execution PlainIndex DataReceiver RecipeUpload Lifecycle
  RecipeDirectory
open Uploads (World Session Takes put_self put_ne)
open RecvDecoder (Message SendMsgBuffer)

def messageOf (i : ℕ) : Event → Option Message
  | .uploadMessage j (some m) => if j = i then some m else none
  | _ => none

def messagesOf (i : ℕ) (es : List Event) : List Message := es.filterMap (messageOf i)

section Openings

variable {o o' : Opening} {os : List Opening} {m : Message} {ms : List Message}

theorem openings_ne_nil (o : Opening) (ms : List Message) : openings o ms ≠ [] := by
  intro hnil
  have hcur := lastOpened_current o ms
  simp [hnil,lastOpened] at hcur

theorem openings_append (h : openings o ms = os ++ [o']) (m : Message) :
    openings o (ms++[m]) = if m.header.messageType = .edgeMigrationNewfile then
        os ++ [o',openingOf m] else os ++ [{ o' with batches := o'.batches ++ [m] }] := by
  induction ms generalizing o os with
  | nil =>
    obtain ⟨rfl,rfl⟩ : os = [] ∧ o' = o := by
      cases os with
      | nil => simpa [openings,eq_comm] using h
      | cons a as => simp [openings] at h
    simp only [List.nil_append,openings]
  | cons m' ms ih =>
    simp only [List.cons_append,openings] at h ⊢
    by_cases hnew : m'.header.messageType = .edgeMigrationNewfile
    · rw [if_pos hnew] at h ⊢
      cases os with
      | nil => exact absurd (List.cons.inj h).2 (openings_ne_nil _ _)
      | cons a as =>
        obtain ⟨rfl,hrest⟩ := List.cons.inj h
        rw [ih hrest]
        split_ifs <;> rfl
    · rw [if_neg hnew] at h ⊢
      exact ih h

theorem lastOpened_append (fileName : Bytes) (os : List Opening) (o : Opening) :
    lastOpened fileName (os++[o]) = if o.fileName = fileName then some o
      else lastOpened fileName os := by
  induction os with
  | nil => simp [lastOpened]
  | cons a as ih =>
    rw [List.cons_append,lastOpened,ih,lastOpened]
    by_cases h : o.fileName = fileName
    · simp [h]
    · simp [h]

end Openings

/-- The upload `i` has closed the files of `os` and writes those of `cur`; all their names
are in `names`, and no other upload has a file of such a name open. -/
structure Uploading (S : Setting) (names : Set Bytes) (i : ℕ) (os : List Opening) (cur : Opening)
    (p : Process) : Prop where
  session : ∃ s, p.world.sessions i = some s
  upload : ∃ u, p.uploads i = some u ∧
    ∀ k, u.writeHandler k = ⟨some (S.cfg.path cur.fileName k),cur.content k⟩
  truncated : ∀ k, p.files (S.cfg.path cur.fileName k) = some []
  closed : ∀ fileName o, fileName ≠ cur.fileName → lastOpened fileName os = some o →
    ∀ k, p.files (S.cfg.path fileName k) = some (o.content k)
  named : ∀ o ∈ os ++ [cur], o.fileName ∈ names
  unheld : ∀ fileName ∈ names, Unheld S {i} fileName p

section Steps

variable {S : Setting} {p q : Process} {e : Event} {i : ℕ} {names : Set Bytes}
  {os : List Opening} {cur : Opening}

theorem sessions_step (hstep : step S p e = some q) (he : e ≠ .restart) {s : Session}
    (hs : p.world.sessions i = some s) : ∃ s', q.world.sessions i = some s' := by
  have hput : ∀ {w : World} {j : ℕ} (t : Session), w.sessions i = some s →
      ∃ s', (w.put j t).sessions i = some s' := by
    intro w j t hw
    by_cases hij : i = j
    · exact ⟨t,by rw [hij,put_self]⟩
    · exact ⟨s,by rw [put_ne _ _ hij,hw]⟩
  cases Threads.happens_of_step hstep with
  | @upload ue hgo hw =>
    revert hw
    generalize q.world = w
    intro hw
    cases Uploads.takes_of_step hw with
    | login prior buffer hnone => exact hput _ hs
    | message n payload => exact hput _ hs
    | chunk => exact hput _ hs
    | lastContainer => exact hput _ hs
    | setDone => exact hput _ hs
    | writer => exact hput _ hs
  | buffer b hgo hs' hlive hidle hw =>
    rw [hw]
    exact hput _ hs
  | other hgo hw => exact ⟨s,hw ▸ hs⟩
  | exits hp hq hw => exact ⟨s,hw ▸ hs⟩
  | saves order hp hq hw => exact ⟨s,hw ▸ hs⟩
  | starts m hp =>
    have hrun := step_running hstep he
    simp [hp] at hrun

theorem uploads_other {s : Session} (hs : p.world.sessions i = some s) (he : e ≠ .restart)
    (hown : ¬ Own {i} e) (hstep : step S p e = some q) : q.uploads i = p.uploads i := by
  cases files_of_step hstep with
  | same _ hup => rw [hup]
  | @opens j memory m delivered he' hfresh htype hfiles hup =>
    have hij : i ≠ j := by
      rintro rfl
      simp [(Threads.not_busy_of_fresh hfresh).1] at hs
    rw [hup,Function.update_of_ne hij]
  | @chunks j u m he' hu hm hfiles hup =>
    subst he'
    rw [hup,Function.update_of_ne fun hij => hown hij.symm]
  | @receives j s' u m r he' hs' hu hr hm hfiles hup =>
    subst he'
    rw [hup,Function.update_of_ne fun hij => hown hij.symm]
  | breaks _ _ _ _ hup => rw [hup]
  | @closes j s' u he' hs' hu hfiles hup =>
    subst he'
    rw [hup,Function.update_of_ne fun hij => hown hij.symm]
  | restarts he' => exact absurd he' he

theorem uploading_other (hlen : ∀ fileName ∈ names, fileName.length = fileNameLength)
    (h : Uploading S names i os cur p) (he : e ≠ .restart) (hown : ¬ Own {i} e)
    (ha : ∀ fileName ∈ names, Avoids {i} fileName p e) (hstep : step S p e = some q) :
    Uploading S names i os cur q := by
  have hfiles : ∀ fileName ∈ names, ∀ k,
      q.files (S.cfg.path fileName k) = p.files (S.cfg.path fileName k) := fun f hf =>
    files_unheld (hlen f hf) (h.unheld f hf) (ha f hf) hown hstep
  obtain ⟨s,hs⟩ := h.session
  refine ⟨sessions_step hstep he hs,?_,?_,?_,h.named,?_⟩
  · rw [uploads_other hs he hown hstep]
    exact h.upload
  · intro k
    rw [hfiles _ (h.named cur (by simp)) k]
    exact h.truncated k
  · intro f o hne ho k
    obtain ⟨hmem,hname⟩ := RecipeRoundTrip.lastOpened_mem ho
    rw [hfiles f (hname ▸ h.named o (by simp [hmem])) k]
    exact h.closed f o hne ho k
  · exact fun f hf => unheld_step (hlen f hf) (h.unheld f hf) (ha f hf) hstep

theorem Uploading.writing (h : Uploading S names i os cur p) {u : Upload}
    (hu : p.uploads i = some u) (s : Session) : At S.cfg (receiver p s u) cur := by
  obtain ⟨u',hu',hwrite⟩ := h.upload
  obtain rfl := Option.some.inj (hu.symm.trans hu')
  exact ⟨hwrite,h.truncated⟩

theorem Uploading.closeFiles (h : Uploading S names i os cur p)
    (hlen : ∀ fileName ∈ names, fileName.length = fileNameLength) {fileName : Bytes} {o : Opening}
    (ho : lastOpened fileName (os++[cur]) = some o) (k : Kind) :
    closeFiles S.cfg cur.fileName cur.content p.files (S.cfg.path fileName k) =
      some (o.content k) := by
  obtain ⟨hmem,hof⟩ := RecipeRoundTrip.lastOpened_mem ho
  have hf := hlen fileName (hof ▸ h.named o hmem)
  have hcur := hlen cur.fileName (h.named cur (by simp))
  rw [closeFiles_stored h.truncated (hf.trans hcur.symm) k,stored,lastOpened]
  rw [lastOpened_append] at ho
  by_cases hfc : cur.fileName = fileName
  · rw [if_pos hfc] at ho
    obtain rfl := Option.some.inj ho
    simp [hfc,lastOpened]
  · rw [if_neg hfc] at ho
    simpa [hfc,lastOpened] using h.closed fileName o (Ne.symm hfc) ho k

theorem uploading_batch (h : Uploading S names i os cur p) {m : Message} {v : Upload}
    (hses : ∃ s, q.world.sessions i = some s) (hup : q.uploads i = some v)
    (hwrite : ∀ k, v.writeHandler k =
      ⟨some (S.cfg.path cur.fileName k),
        Opening.content { cur with batches := cur.batches ++ [m] } k⟩)
    (hfiles : q.files = p.files) (hunheld : ∀ f ∈ names, Unheld S {i} f q) :
    Uploading S names i os { cur with batches := cur.batches ++ [m] } q := by
  refine ⟨hses,⟨v,hup,hwrite⟩,?_,?_,?_,hunheld⟩
  · rw [hfiles]
    exact h.truncated
  · rw [hfiles]
    exact h.closed
  · intro o ho
    rcases List.mem_append.mp ho with hin | hlast
    · exact h.named o (by simp [hin])
    · rw [List.mem_singleton.mp hlast]
      exact h.named cur (by simp)

theorem uploading_newfile (h : Uploading S names i os cur p) {m : Message} {s : Session}
    {u : Upload} {r : Receiver}
    (hlen : ∀ fileName ∈ names, fileName.length = fileNameLength)
    (hname : (openingOf m).fileName ∈ names) (hat : At S.cfg r (openingOf m))
    (hr : ∀ x, (∀ k, x ≠ S.cfg.path (openingOf m).fileName k) →
      r.files x = closeFiles S.cfg cur.fileName cur.content (receiver p s u).files x)
    (hses : ∃ s, q.world.sessions i = some s) (hup : q.uploads i = some (uploadOf r))
    (hfiles : q.files = r.files) (hunheld : ∀ f ∈ names, Unheld S {i} f q) :
    Uploading S names i (os++[cur]) (openingOf m) q := by
  refine ⟨hses,⟨_,hup,hat.handler⟩,?_,?_,?_,hunheld⟩
  · rw [hfiles]
    exact hat.truncated
  · intro f o hne ho k
    obtain ⟨hmem,hof⟩ := RecipeRoundTrip.lastOpened_mem ho
    have hfl : f.length = fileNameLength := hlen f (hof ▸ h.named o hmem)
    rw [hfiles,hr _ fun k' => path_ne (hfl.trans (hlen _ hname).symm) hne k k']
    exact h.closeFiles hlen ho k
  · intro o ho
    rcases List.mem_append.mp ho with hin | hlast
    · exact h.named o hin
    · rw [List.mem_singleton.mp hlast]
      exact hname

theorem uploading_message (hlen : ∀ fileName ∈ names, fileName.length = fileNameLength)
    (h : Uploading S names i os cur p) {m : Message} (hm : InSession m)
    (hname : m.header.messageType = .edgeMigrationNewfile → (openingOf m).fileName ∈ names)
    (hb : Benign S p (.uploadMessage i (some m)))
    (ha : ∀ fileName ∈ names, Avoids {i} fileName p (.uploadMessage i (some m)))
    (hstep : step S p (.uploadMessage i (some m)) = some q) :
    ∃ os' cur', (os' ++ [cur'] = if m.header.messageType = .edgeMigrationNewfile then
        os ++ [cur,openingOf m] else os ++ [{ cur with batches := cur.batches ++ [m] }]) ∧
      Uploading S names i os' cur' q := by
  obtain ⟨s₀,hs₀⟩ := h.session
  have hses := sessions_step hstep (by simp) hs₀
  have hunheld : ∀ f ∈ names, Unheld S {i} f q :=
    fun f hf => unheld_step (hlen f hf) (h.unheld f hf) (ha f hf) hstep
  cases files_of_step hstep with
  | same _ _ hbad => exact absurd hb (hbad trivial)
  | breaks _ _ hbad => exact absurd hb hbad
  | opens he => cases he
  | closes he => cases he
  | restarts he => cases he
  | @chunks j u m' he hu htype hfiles hup =>
    cases he
    have hnew : m.header.messageType ≠ .edgeMigrationNewfile := by simp [htype]
    have hother : ∀ k, m.header.messageType ≠ uploadType k := by
      intro k
      cases k <;> simp [htype,uploadType]
    refine ⟨os,_,(if_neg hnew).symm,uploading_batch h hses
      (by rw [hup,Function.update_self]) (fun k => ?_) hfiles hunheld⟩
    rw [content_append,if_neg (hother k),List.append_nil]
    exact (h.writing hu s₀).handler k
  | @receives j s u m' r he hs hu hr hchunk hfiles hup =>
    cases he
    have hat := h.writing hu s
    have hserved := served_of_receive hr
    have hup' : q.uploads i = some (uploadOf r) := by rw [hup,Function.update_self]
    by_cases hnew : m.header.messageType = .edgeMigrationNewfile
    · obtain ⟨r',hr',hat',hclosed⟩ := receive_newfile S.digest S.uuid hat
        (inSession_newfile hm hnew) hserved hnew
      obtain rfl := Except.ok.inj (hr'.symm.trans hr)
      exact ⟨os++[cur],openingOf m,by rw [if_pos hnew]; simp,
        uploading_newfile h hlen (hname hnew) hat' hclosed hses hup' hfiles hunheld⟩
    · obtain ⟨r',hr',hat',hsame⟩ := receive_batch S.digest S.uuid hat hm hserved hnew
      obtain rfl := Except.ok.inj (hr'.symm.trans hr)
      exact ⟨os,_,(if_neg hnew).symm,uploading_batch h hses hup' hat'.handler
        (hfiles.trans hsame) hunheld⟩

theorem at_login (cfg : Configure) (uuid : ℕ → Bytes) (env : Environment) {m : Message}
    (hm : NamesFile m) : At cfg (edgeUploadThread uuid cfg env m) (openingOf m) := by
  obtain ⟨hname,hhead⟩ := openingOf_received env.recvBuf hm.1.ge
  simp only [edgeUploadThread,hname,hhead]
  have hopen := openRecipes_writing cfg (openingOf m).fileName (openingOf m).head
  exact ⟨fun k => ((hopen _).handler k).trans (by rw [content_openingOf]),
    fun k => (hopen _).truncated k⟩

theorem uploading_login {memory : Memory} {m : Message} {delivered : Bool}
    (htype : m.header.messageType = .edgeMigrateLogin) (hm : NamesFile m)
    (hname : (openingOf m).fileName ∈ names) (hfree : ∀ fileName ∈ names, Unheld S ∅ fileName p)
    (hb : Benign S p (.login i memory (some m) delivered))
    (hstep : step S p (.login i memory (some m) delivered) = some q) :
    Uploading S names i [] (openingOf m) q := by
  cases files_of_step hstep with
  | same _ _ hbad => exact absurd hb (hbad htype)
  | breaks he => cases he
  | chunks he => cases he
  | receives he => cases he
  | closes he => cases he
  | restarts he => cases he
  | @opens j memory m delivered he hfresh htype hfiles hup hs =>
    cases he
    have hat := at_login S.cfg S.uuid
      ⟨p.files,p.world.shared,memory.prior,memory.recvBuf,memory.recvChunkBuf⟩ hm
    refine ⟨hs,⟨_,by rw [hup,Function.update_self],hat.handler⟩,?_,?_,?_,?_⟩
    · rw [hfiles]
      exact hat.truncated
    · simp [lastOpened]
    · simpa using hname
    · intro f hf j v hj hv
      rw [hup,Function.update_of_ne hj] at hv
      exact hfree f hf j v (by simp) hv

theorem uploading_ends (hlen : ∀ fileName ∈ names, fileName.length = fileNameLength)
    (h : Uploading S names i os cur p) (hstep : step S p (.uploadEnds i) = some q) :
    (∀ fileName o k, lastOpened fileName (os++[cur]) = some o →
      q.files (S.cfg.path fileName k) = some (o.content k)) ∧
    ∀ fileName ∈ names, Unheld S ∅ fileName q := by
  cases files_of_step hstep with
  | same _ _ hbad => exact absurd trivial (hbad trivial)
  | breaks he => cases he
  | opens he => cases he
  | chunks he => cases he
  | receives he => cases he
  | restarts he => cases he
  | @closes j s u he hs hu hfiles hup =>
    cases he
    have hat := h.writing hu s
    constructor
    · intro f o k ho
      rw [hfiles,deleteClientVar_writing hat]
      exact h.closeFiles hlen ho k
    · intro f hf j v _ hv
      rw [hup] at hv
      by_cases hji : j = i
      · simp [hji] at hv
      · rw [Function.update_of_ne hji] at hv
        exact h.unheld f hf j v hji hv

/-- The steps of a run between the login and the end of the session: clients send messages
of the protocol, and no other upload opens a file of this one. -/
structure During (S : Setting) (names : Set Bytes) (i : ℕ) (p : Process) (fs : List Event) :
    Prop where
  within : ∀ e ∈ fs, e ≠ .restart ∧ e ≠ .uploadEnds i
  messages : ∀ m ∈ messagesOf i fs, InSession m ∧
    (m.header.messageType = .edgeMigrationNewfile → (openingOf m).fileName ∈ names)
  benign : Along (step S) (Benign S) p fs
  alone : ∀ fileName ∈ names, Along (step S) (Avoids {i} fileName) p fs

theorem During.tail {fs : List Event} (h : During S names i p (e::fs))
    (hstep : step S p e = some q) : During S names i q fs := by
  refine ⟨fun e' he' => h.within e' (by simp [he']),fun m hm => h.messages m ?_,
    h.benign.2 q hstep,fun f hf => (h.alone f hf).2 q hstep⟩
  simp only [messagesOf,List.filterMap_cons]
  split
  · exact hm
  · exact List.mem_cons_of_mem _ hm

/-- A property of the messages so far and the process that the messages of the session and
the steps of all others keep holds at the end of a run within the session. -/
theorem during_exec {P : List Message → Process → Prop} {A : Event → Prop}
    (hown : ∀ ms p q m, P ms p → InSession m →
      (m.header.messageType = .edgeMigrationNewfile → (openingOf m).fileName ∈ names) →
      Benign S p (.uploadMessage i (some m)) →
      (∀ fileName ∈ names, Avoids {i} fileName p (.uploadMessage i (some m))) →
      A (.uploadMessage i (some m)) → step S p (.uploadMessage i (some m)) = some q →
      P (ms++[m]) q)
    (hother : ∀ ms p q e, P ms p → e ≠ .restart → ¬ Own {i} e → Benign S p e →
      (∀ fileName ∈ names, Avoids {i} fileName p e) → A e → step S p e = some q → P ms q)
    {fs : List Event} (hrun : Exec (step S) p fs q) (hd : During S names i p fs)
    (hfs : ∀ e ∈ fs, A e) (ms : List Message) (h : P ms p) : P (ms ++ messagesOf i fs) q := by
  induction hrun generalizing ms with
  | refl => simpa [messagesOf] using h
  | @succ p t q e fs hstep hrest ih =>
    have htail := hd.tail hstep
    have hfs' : ∀ e' ∈ fs, A e' := fun e' he' => hfs e' (by simp [he'])
    obtain ⟨hrestart,hends⟩ := hd.within e (by simp)
    have halone := fun f hf => (hd.alone f hf).1
    by_cases hmine : Own {i} e
    · cases e with
      | uploadMessage j m =>
        cases m with
        | none => exact hmine.elim
        | some m =>
          obtain rfl : j = i := hmine
          have hcons : messagesOf j (.uploadMessage j (some m)::fs) = m::messagesOf j fs := by
            simp [messagesOf,messageOf]
          have hm := hd.messages m (by simp [hcons])
          have hnext := hown ms p t m h hm.1 hm.2 hd.benign.1 halone (hfs _ (by simp)) hstep
          have hend := ih htail hfs' _ hnext
          rwa [List.append_assoc,List.singleton_append,← hcons] at hend
      | uploadEnds j =>
        obtain rfl : j = i := hmine
        exact absurd rfl hends
      | _ => exact hmine.elim
    · have hnone : messageOf i e = none := by
        cases e with
        | uploadMessage j m =>
          cases m with
          | none => rfl
          | some m => exact if_neg hmine
        | _ => rfl
      have hsame : messagesOf i (e::fs) = messagesOf i fs := by
        simp [messagesOf,hnone]
      rw [hsame]
      exact ih htail hfs' _ (hother ms p t e h hrestart hmine hd.benign.1 halone (hfs e (by simp))
        hstep)

theorem uploading_exec {fs : List Event} (hrun : Exec (step S) p fs q)
    (hlen : ∀ fileName ∈ names, fileName.length = fileNameLength)
    (hd : During S names i p fs) (h : Uploading S names i [] cur p) :
    ∃ os' cur', openings cur (messagesOf i fs) = os' ++ [cur'] ∧
      Uploading S names i os' cur' q := by
  refine during_exec (P := fun ms p => ∃ os' cur', openings cur ms = os' ++ [cur'] ∧
    Uploading S names i os' cur' p) (A := fun _ => True) ?_ ?_ hrun hd (fun _ _ => trivial)
    [] ⟨[],cur,rfl,h⟩
  · rintro ms p q m ⟨os',cur',ho,h⟩ hm hname hb ha - hstep
    obtain ⟨os'',cur'',hos,hnext⟩ := uploading_message hlen h hm hname hb ha hstep
    have happend := openings_append ho m
    rw [← hos] at happend
    exact ⟨os'',cur'',happend,hnext⟩
  · rintro ms p q e ⟨os',cur',ho,h⟩ he hmine - ha - hstep
    exact ⟨os',cur',ho,uploading_other hlen h he hmine ha hstep⟩

/-- After the session the files of a name stay until it is opened again. -/
theorem files_exec {fileName : Bytes} (hlen : fileName.length = fileNameLength) {gs : List Event}
    (hrun : Exec (step S) p gs q) (h : Unheld S ∅ fileName p)
    (ha : Along (step S) (Avoids ∅ fileName) p gs) (k : Kind) :
    q.files (S.cfg.path fileName k) = p.files (S.cfg.path fileName k) := by
  induction hrun with
  | refl => rfl
  | @succ p t q e gs hstep hrest ih =>
    have hown : ¬ Own ∅ e := by
      cases e with
      | uploadMessage j m => cases m <;> simp [Own]
      | _ => simp [Own]
    rw [ih (unheld_step hlen h ha.1 hstep) (ha.2 t hstep),files_unheld hlen h ha.1 hown hstep]

end Steps

end UploadSessions
end CloudServer
