import CloudServer.DedupInvariant
import CloudServer.RestoreTable

/-! Chunk downloads while uploads go on. A download session runs the program of
`RecvDecoder`; each of its questions is one step, answered by the index and the
container directory as they are at that moment. -/
namespace CloudServer
namespace Downloads

open ByteMemory Execution Interaction ContainerFormat Packing PlainIndex Catalog Uploads
  UploadInvariant DedupInvariant
open DataWriter hiding Session Event step Inv
open RecvDecoder hiding ClientVar

/-- A download session: the program it runs, whether the client has reported that it
is ready, and the names that its index lookups have returned. -/
structure Download where
  task : Decoder RecvDecoder.ClientVar
  ready : Bool
  found : List Bytes

/-- How a download ended the process: a question that could not be answered, or a
failure of its own. -/
inductive Exit
  | refused (j : ℕ) (f : Fault)
  | failed (j : ℕ) (f : Fault)
  deriving DecidableEq

structure Server where
  world : World
  downloads : ℕ → Option Download
  exited : Option Exit

inductive Event
  | upload (e : Uploads.Event)
  | login (j : ℕ) (c : RecvDecoder.ClientVar)
  | receive (j : ℕ) (m : Message)
  | download (j : ℕ)

def serve (w : World) : (q : Request) → Except Fault (Reply q) :=
  RestoreTable.answer w.index fun id => (w.disk id).map DiskFile.content

def foundBy (w : World) : Request → List Bytes
  | .readIndexStore key => (w.index key).toList
  | _ => []

def Server.put (s : Server) (j : ℕ) (d : Download) : Server :=
  { s with downloads := Function.update s.downloads j (some d) }

def receive (s : Server) (j : ℕ) (d : Download) (m : Message) : Option Server :=
  match d.task with
  | .ret c =>
    if d.ready then some (s.put j { d with task := receiveRequest m c })
    else some (s.put j { d with task := receiveReady m c, ready := true })
  | _ => none

def advance (s : Server) (j : ℕ) (d : Download) : Option Server :=
  match d.task with
  | .ret _ => none
  | .fail f => some { s with exited := some (.failed j f) }
  | .ask q k =>
    match serve s.world q with
    | .ok r => some (s.put j { d with task := k r, found := d.found ++ foundBy s.world q })
    | .error f => some { s with exited := some (.refused j f) }

def step (H : Digest) (uuid : ℕ → Bytes) (s : Server) (e : Event) : Option Server :=
  if s.exited.isSome then none
  else
    match e with
    | .upload e => (Uploads.step H uuid s.world e).map fun w => { s with world := w }
    | .login j c =>
      match s.downloads j with
      | some _ => none
      | none => some (s.put j ⟨.ret c,false,[]⟩)
    | .receive j m => (s.downloads j).bind fun d => receive s j d m
    | .download j => (s.downloads j).bind fun d => advance s j d

def start : Server := ⟨Uploads.empty,fun _ => none,none⟩

/-- The file of a container exists with all that was pushed under its name. -/
def Complete (w : World) (name : Bytes) : Prop :=
  ∃ i s c, w.sessions i = some s ∧ c ∈ s.pushes ∧ c.containerID = name ∧
    w.disk name = some ⟨c.written,true⟩

/-- No upload session holds the container any more: it is neither the one in memory
nor queued nor in the hands of a writer. -/
def Unheld (w : World) (name : Bytes) : Prop :=
  ∀ i s, w.sessions i = some s →
    (s.live = true → s.client.curContainer.containerID ≠ name) ∧
    ∀ c ∈ s.writer.point.held ++ s.client.inputMQ, c.containerID ≠ name

/-- The condition on the container files that a download is about to open because
the index named them. -/
def AtOpen (C : World → Bytes → Prop) (s : Server) : Event → Prop
  | .download j => ∀ d name k, s.downloads j = some d → d.task = .ask (.openContainer name) k →
      name ∈ d.found → C s.world name
  | _ => True

def Admitted : Event → Prop
  | .upload e => UploadInvariant.Admitted Set.univ e
  | _ => True

variable {H : Digest} {uuid : ℕ → Bytes} {S : Set Bytes} {w : World}

/-- A container that the index names is on disk in full exactly when no upload
session holds it. -/
theorem complete_iff_unheld (h : UploadInvariant.Inv H uuid S w) {fp name : Bytes}
    (hfp : w.index fp = some name) : Complete w name ↔ Unheld w name := by
  constructor
  · rintro ⟨i,s,c,hs,hc,hname,hdisk⟩
    obtain ⟨i',s',k,e,hs',he,rfl,_⟩ := saved_of_closed h hdisk rfl
    have hplace := view_pushed hs' (pushes_saved he)
    intro j t ht
    refine ⟨?_,fun a ha => (h.saved_ne hs' (List.mem_of_getElem? he) ht ha).symm⟩
    intro hlive hcur
    obtain ⟨ps,hps,_⟩ := (h.sessions j t ht).current
    have hmem : view w (.memory j) = some (t.client.curContainer.containerID,ps) := by
      rw [view_memory ht,inMemory_of_packed hlive hps]
    have := h.catalog.distinct _ _ _ _ hplace hmem hcur.symm
    simp at this
  · intro hun
    obtain ⟨b,g,hb,rfl,_⟩ := h.catalog.located fp name hfp
    cases b with
    | memory i =>
      obtain ⟨s,hs,hmem⟩ := Option.bind_eq_some_iff.mp hb
      cases hlive : s.live with
      | false => simp [Session.inMemory,hlive] at hmem
      | true =>
        simp only [Session.inMemory,hlive,if_true,Option.some.injEq] at hmem
        exact absurd (congrArg Prod.fst hmem) ((hun i s hs).1 hlive)
    | pushed i k =>
      obtain ⟨s,hs,hk⟩ := Option.bind_eq_some_iff.mp hb
      obtain ⟨c,hc,rfl⟩ := Option.map_eq_some_iff.mp hk
      rcases pushes_cases hc with hsaved | ⟨_,_,hheld⟩ | ⟨_,_,hqueued⟩
      · exact ⟨i,s,c,hs,List.mem_of_getElem? hc,rfl,
          h.disk.saved i s.writer c (by simp [writers,hs]) (List.mem_of_getElem? hsaved)⟩
      · exact absurd rfl ((hun i s hs).2 c (by simp [List.mem_of_getElem? hheld]))
      · exact absurd rfl ((hun i s hs).2 c (by simp [List.mem_of_getElem? hqueued]))

/-- What the names in the hands of a download have to do with the index. -/
structure ServerInv (H : Digest) (uuid : ℕ → Bytes) (s : Server) : Prop where
  world : UploadInvariant.Inv H uuid Set.univ s.world
  known : ∀ j d name, s.downloads j = some d → name ∈ d.found → ∃ fp, s.world.index fp = some name

theorem serve_error {q : Request} {f : Fault} (h : serve w q = .error f) :
    ∃ name, q = .openContainer name ∧ f = .cannotOpen name ∧ w.disk name = none := by
  cases q with
  | readIndexStore key => simp [serve,RestoreTable.answer] at h
  | openContainer name =>
    cases hd : w.disk name with
    | none =>
      simp only [serve,RestoreTable.answer,hd,Option.map_none,Except.error.injEq] at h
      exact ⟨name,rfl,h.symm,hd⟩
    | some file => simp [serve,RestoreTable.answer,hd] at h
  | sendData m => simp [serve,RestoreTable.answer] at h

/-- The effect of a step: an upload step, or a step of a download that leaves the
uploads alone and learns only names that the index holds, or the end of the process. -/
theorem step_cases {s t : Server} {e : Event} (h : step H uuid s e = some t) :
    (∃ e', e = .upload e' ∧ Uploads.step H uuid s.world e' = some t.world ∧
      t.downloads = s.downloads ∧ t.exited = none) ∨
    (∃ j d, t = s.put j d ∧ s.exited = none ∧ ∀ name ∈ d.found,
      (∃ d', s.downloads j = some d' ∧ name ∈ d'.found) ∨ ∃ fp, s.world.index fp = some name) ∨
    (∃ j d f, e = .download j ∧ s.downloads j = some d ∧ d.task = .fail f ∧
      t = { s with exited := some (.failed j f) }) ∨
    (∃ j d name k, e = .download j ∧ s.downloads j = some d ∧
      d.task = .ask (.openContainer name) k ∧ s.world.disk name = none ∧
      t = { s with exited := some (.refused j (.cannotOpen name)) }) := by
  unfold step at h
  cases hexit : s.exited with
  | some x => simp [hexit] at h
  | none =>
    simp only [hexit,Option.isSome_none,Bool.false_eq_true,if_false] at h
    cases e with
    | upload e' =>
      obtain ⟨w',hw,rfl⟩ := Option.map_eq_some_iff.mp h
      exact Or.inl ⟨e',rfl,hw,rfl,rfl⟩
    | login j c =>
      cases hj : s.downloads j with
      | some d => simp [hj] at h
      | none =>
        simp only [hj,Option.some.injEq] at h
        exact Or.inr (Or.inl ⟨j,_,h.symm,rfl,by simp⟩)
    | receive j m =>
      obtain ⟨d,hd,hrec⟩ := Option.bind_eq_some_iff.mp h
      unfold receive at hrec
      split at hrec
      · split_ifs at hrec <;> obtain rfl := Option.some.inj hrec <;>
          exact Or.inr (Or.inl ⟨j,_,rfl,rfl,fun name hn => Or.inl ⟨d,hd,hn⟩⟩)
      · simp at hrec
    | download j =>
      obtain ⟨d,hd,hadv⟩ := Option.bind_eq_some_iff.mp h
      unfold advance at hadv
      split at hadv
      · simp at hadv
      · rename_i f htask
        obtain rfl := Option.some.inj hadv
        exact Or.inr (Or.inr (Or.inl ⟨j,d,f,rfl,hd,htask,rfl⟩))
      · rename_i q k htask
        split at hadv
        · obtain rfl := Option.some.inj hadv
          refine Or.inr (Or.inl ⟨j,_,rfl,rfl,?_⟩)
          intro name hn
          rcases List.mem_append.mp hn with hold | hnew
          · exact Or.inl ⟨d,hd,hold⟩
          · cases q with
            | readIndexStore key => exact Or.inr ⟨key,by simpa [foundBy] using hnew⟩
            | openContainer name' => simp [foundBy] at hnew
            | sendData m => simp [foundBy] at hnew
        · rename_i f hserve
          obtain rfl := Option.some.inj hadv
          obtain ⟨name,rfl,rfl,hdisk⟩ := serve_error hserve
          exact Or.inr (Or.inr (Or.inr ⟨j,d,name,k,rfl,hd,htask,hdisk,rfl⟩))

theorem serverInv_start (H : Digest) (uuid : ℕ → Bytes) : ServerInv H uuid start :=
  ⟨inv_empty H uuid Set.univ,by simp [start]⟩

theorem server_drawn_mono {s t : Server} {e : Event} (h : step H uuid s e = some t) :
    s.world.shared.drawn ≤ t.world.shared.drawn := by
  rcases step_cases h with ⟨e',_,hw,_⟩ | ⟨j,d,rfl,_⟩ | ⟨j,d,f,_,_,_,rfl⟩ |
    ⟨j,d,name,k,_,_,_,_,rfl⟩
  · exact drawn_mono (takes_of_step hw)
  · exact le_refl _
  · exact le_refl _
  · exact le_refl _

theorem serverInv_step {s t : Server} {e : Event} (h : ServerInv H uuid s) (he : Admitted e)
    (hstep : step H uuid s e = some t) (hid : Set.InjOn uuid {n | n < t.world.shared.drawn}) :
    ServerInv H uuid t := by
  rcases step_cases hstep with ⟨e',rfl,hw,hdl,_⟩ | ⟨j,d,rfl,_,hfound⟩ | ⟨j,d,f,_,_,_,rfl⟩ |
    ⟨j,d,name,k,_,_,_,_,rfl⟩
  · refine ⟨inv_step h.world he hw hid,?_⟩
    intro j d name hd hn
    obtain ⟨fp,hfp⟩ := h.known j d name (hdl ▸ hd) hn
    exact ⟨fp,index_step (takes_of_step hw) hfp⟩
  · refine ⟨h.world,?_⟩
    intro i d' name hd' hn
    by_cases hi : i = j
    · subst hi
      obtain rfl : d = d' := by simpa [Server.put] using hd'
      rcases hfound name hn with ⟨d₀,hd₀,hn₀⟩ | hfp
      · exact h.known i d₀ name hd₀ hn₀
      · exact hfp
    · exact h.known i d' name (by simpa [Server.put,hi] using hd') hn
  · exact ⟨h.world,h.known⟩
  · exact ⟨h.world,h.known⟩

theorem atOpen_iff {s : Server} (h : ServerInv H uuid s) (e : Event) :
    AtOpen Complete s e ↔ AtOpen Unheld s e := by
  cases e with
  | upload | login | receive => exact Iff.rfl
  | download j =>
    have hname : ∀ d name, s.downloads j = some d → name ∈ d.found →
        (Complete s.world name ↔ Unheld s.world name) := by
      intro d name hd hn
      obtain ⟨fp,hfp⟩ := h.known j d name hd hn
      exact complete_iff_unheld h.world hfp
    constructor
    · intro hc d name k hd hk hn
      exact (hname d name hd hn).mp (hc d name k hd hk hn)
    · intro hu d name k hd hk hn
      exact (hname d name hd hn).mpr (hu d name k hd hk hn)

theorem along_complete_iff {s : Server} {es : List Event} (h : Exec (step H uuid) start es s)
    (hes : ∀ e ∈ es, Admitted e) (hid : Set.InjOn uuid {n | n < s.world.shared.drawn}) :
    Along (step H uuid) (AtOpen Complete) start es ↔
      Along (step H uuid) (AtOpen Unheld) start es := by
  refine h.along_iff (P := ServerInv H uuid) (A := Admitted)
    (G := fun u => Set.InjOn uuid {n | n < u.world.shared.drawn}) ?_ (fun s e hs _ => atOpen_iff hs e)
    (serverInv_start H uuid) hes hid
  intro s e t es u hs he hstep hrest hu
  have hmono : t.world.shared.drawn ≤ u.world.shared.drawn :=
    hrest.relate (R := fun a b : Server => a.world.shared.drawn ≤ b.world.shared.drawn)
      (fun _ => le_refl _) (fun _ _ _ => le_trans) fun _ _ _ h => server_drawn_mono h
  exact serverInv_step hs he hstep (hu.mono fun n hn => Nat.lt_of_lt_of_le hn hmono)

theorem exit_not_found {s : Server} {es : List Event} (h : Exec (step H uuid) start es s)
    (hes : ∀ e ∈ es, Admitted e) (hid : Set.InjOn uuid {n | n < s.world.shared.drawn})
    (hun : Along (step H uuid) (AtOpen Unheld) start es) (j : ℕ) (name : Bytes)
    (hexit : s.exited = some (.refused j (.cannotOpen name))) :
    ∃ d, s.downloads j = some d ∧ name ∉ d.found := by
  refine (h.invariant_along (A := Admitted) (P := fun s =>
    Set.InjOn uuid {n | n < s.world.shared.drawn} → ServerInv H uuid s ∧
      (s.exited = some (.refused j (.cannotOpen name)) →
        ∃ d, s.downloads j = some d ∧ name ∉ d.found)) ?_ ?_ hes hun hid).2 hexit
  · intro s e t hs he hC hstep hid
    have hmono := server_drawn_mono hstep
    have hinv := (hs (hid.mono fun n hn => Nat.lt_of_lt_of_le hn hmono)).1
    refine ⟨serverInv_step hinv he hstep hid,?_⟩
    rcases step_cases hstep with ⟨e',_,_,_,hnone⟩ | ⟨i,d,rfl,hnone,_⟩ | ⟨i,d,f,_,_,_,rfl⟩ |
      ⟨i,d,name',k,rfl,hd,htask,hdisk,rfl⟩
    · simp [hnone]
    · simp [Server.put,hnone]
    · simp
    · intro heq
      obtain ⟨rfl,rfl⟩ : i = j ∧ name' = name := by simpa using heq
      refine ⟨d,hd,?_⟩
      intro hn
      obtain ⟨_,_,_,_,_,_,hfile⟩ := (atOpen_iff hinv (.download i)).mpr hC d name' k hd htask hn
      simp [hdisk] at hfile
  · intro _
    exact ⟨serverInv_start H uuid,by simp [start]⟩

/-- Containers that the index names and downloads open. In every run, every such
container is complete when it is opened if and only if none is still held by an
upload session at that moment; and then the process never ends because a container
that the index had named could not be opened. -/
theorem opened_containers_complete_iff (H : Digest) (uuid : ℕ → Bytes) (es : List Event)
    (s : Server) (h : Exec (step H uuid) start es s) (hes : ∀ e ∈ es, Admitted e)
    (hid : Set.InjOn uuid {n | n < s.world.shared.drawn}) :
    (Along (step H uuid) (AtOpen Complete) start es ↔
      Along (step H uuid) (AtOpen Unheld) start es) ∧
    (Along (step H uuid) (AtOpen Unheld) start es →
      ∀ j name, s.exited = some (.refused j (.cannotOpen name)) →
        ∃ d, s.downloads j = some d ∧ name ∉ d.found) :=
  ⟨along_complete_iff h hes hid,exit_not_found h hes hid⟩

def uploadOne : List Event :=
  [.upload (.login 0 ⟨[],0,fun _ => 0,0,fun _ => 0,0⟩ fun _ => 0),
    .upload (.message 0 1 (encodeChunks [[5,6]])),.upload (.chunk 0)]

def saveOne : List Event :=
  [.upload (.lastContainer 0),.upload (.writer 0 0),.upload (.writer 0 0),.upload (.writer 0 0),
    .upload (.writer 0 100)]

def downloadOne : List Event :=
  [.login 0 ⟨⟨⟨.edgeDownloadChunkLogin,2,0,0⟩,fun _ => 0⟩,fun _ => [],fun _ _ => 0,0,
      ReadCache.new 1 fun _ _ => 0,fun _ => ⟨[],[],0,0,0⟩⟩,
    .receive 0 ⟨⟨.edgeReceiveReady,2,0,0⟩,[]⟩,
    .receive 0 ⟨⟨.edgeDownloadChunkReady,2,32,1⟩,paddedDigest.hash [5,6]⟩,.download 0,.download 0]

theorem uploadOne_admitted : ∀ e ∈ uploadOne ++ saveOne ++ downloadOne, Admitted e := by
  have hmessage : ∃ chunks : List Bytes, 1 = chunks.length ∧
      encodeChunks [[5,6]] = encodeChunks chunks ∧ ∀ d ∈ chunks, d.length ≤ maxChunkSize :=
    ⟨[[5,6]],rfl,rfl,by decide⟩
  simpa [uploadOne,saveOne,downloadOne,Admitted,UploadInvariant.Admitted] using hmessage

theorem injOn_one {uuid : ℕ → Bytes} {n : ℕ} (hn : n = 1) : Set.InjOn uuid {k | k < n} := by
  intro a ha b hb _
  change a < n at ha
  change b < n at hb
  omega

theorem opened_containers_complete_iff_saved :
    ∃ s, Exec (step paddedDigest fun n => [UInt8.ofNat n]) start
        (uploadOne ++ saveOne ++ downloadOne) s ∧ s.exited = none ∧
      (Along (step paddedDigest fun n => [UInt8.ofNat n]) (AtOpen Complete) start
          (uploadOne ++ saveOne ++ downloadOne) ↔
        Along (step paddedDigest fun n => [UInt8.ofNat n]) (AtOpen Unheld) start
          (uploadOne ++ saveOne ++ downloadOne)) := by
  have hrun : (run (step paddedDigest fun n => [UInt8.ofNat n]) start
      (uploadOne ++ saveOne ++ downloadOne)).map (fun s => (s.exited,s.world.shared.drawn)) =
        some (none,1) := by decide
  obtain ⟨s,hexec,hend⟩ := Exec.of_run_map _ hrun
  exact ⟨s,hexec,congrArg Prod.fst hend,(opened_containers_complete_iff _ _ _ s hexec
    uploadOne_admitted (injOn_one (congrArg Prod.snd hend))).1⟩

/-- The chunk of an upload session in progress is asked for: the index names its
container, no file of that name exists, and the process ends. -/
theorem open_before_flush :
    ∃ s, Exec (step paddedDigest fun n => [UInt8.ofNat n]) start (uploadOne ++ downloadOne) s ∧
      (∀ e ∈ uploadOne ++ downloadOne, Admitted e) ∧
      Set.InjOn (fun n => [UInt8.ofNat n]) {n | n < s.world.shared.drawn} ∧
      (s.downloads 0).map Download.found = some [[0]] ∧
      s.exited = some (.refused 0 (.cannotOpen [0])) ∧
      ¬ Along (step paddedDigest fun n => [UInt8.ofNat n]) (AtOpen Complete) start
        (uploadOne ++ downloadOne) := by
  have hrun : (run (step paddedDigest fun n => [UInt8.ofNat n]) start
      (uploadOne ++ downloadOne)).map (fun s => (s.exited,s.world.shared.drawn,
        (s.downloads 0).map Download.found)) =
        some (some (.refused 0 (.cannotOpen [0])),1,some [[0]]) := by decide
  obtain ⟨s,hexec,hend⟩ := Exec.of_run_map _ hrun
  simp only [Prod.mk.injEq] at hend
  obtain ⟨hexit,hdrawn,hfound⟩ := hend
  have hadmitted : ∀ e ∈ uploadOne ++ downloadOne, Admitted e := by
    intro e he
    refine uploadOne_admitted e ?_
    simp only [List.mem_append] at he ⊢
    rcases he with h | h
    · exact Or.inl (Or.inl h)
    · exact Or.inr h
  have hid : Set.InjOn (fun n => [UInt8.ofNat n]) {n | n < s.world.shared.drawn} :=
    injOn_one hdrawn
  refine ⟨s,hexec,hadmitted,hid,hfound,hexit,?_⟩
  intro hcomplete
  have hunheld := (along_complete_iff hexec hadmitted hid).mp hcomplete
  obtain ⟨d,hd,hnot⟩ := exit_not_found hexec hadmitted hid hunheld 0 [0] hexit
  rw [hd,Option.map_some,Option.some.injEq] at hfound
  simp [hfound] at hnot

end Downloads
end CloudServer
