import CloudServer.UploadSessions
import CloudServer.CrashConsistency

/-! A file from its upload to its download. The client asks which fingerprints the server
knows and sends the chunks of the others; the recipes and the chunks come back together,
whatever else the process does meanwhile and however often it is started anew. -/
namespace CloudServer
namespace WholeFiles

open ByteMemory Execution PlainIndex DataReceiver RecipeUpload Lifecycle Threads RecipeDirectory
  UploadSessions CrashConsistency Database RestoreTable RestoreStream RoundTrip
open Interaction Interaction.Prog
open RecvDecoder (Message initDownloadChunkBuffer)
open Durability (demoSetting demoMemory uploadAll writerSteps)

/-- The fingerprints that a status request asks about. -/
def askedBy (m : Message) : List Bytes :=
  (List.range m.header.currentItemNum).map fun j =>
    (m.payload.drop (chunkHashSize*j)).take chunkHashSize

def asked (ms : List Message) : List Bytes :=
  (ms.filter fun m => m.header.messageType = .edgeUploadSecRecipe).flatMap askedBy

def statusOf (shared : Shared) (fp : Bytes) : UInt8 :=
  if (shared.indexStore.lookup fp).isSome then 0 else 1

def answers (u : Upload) : Bytes := u.sent.tail.flatMap Message.payload

/-- The client has asked about the fingerprint and was told that the server has it. -/
def ToldKnown (ms : List Message) (u : Upload) (fp : Bytes) : Prop :=
  (fp,0) ∈ (asked ms).zip (answers u)

def Carries (m : Message) (d : Bytes) : Prop :=
  m.header.messageType = .edgeMigrationChunk ∧ ∃ chunks : List Bytes,
    m.header.currentItemNum = chunks.length ∧ m.payload = encodeChunks chunks ∧
    (∀ c ∈ chunks, c.length ≤ maxChunkSize) ∧ d ∈ chunks

section Requests

variable {α β : Type}

theorem exists_batches {f : α → β} {xss : List (List β)} {ds : List α}
    (h : xss.flatten = ds.map f) :
    ∃ batches : List (List α), xss = batches.map (List.map f) ∧ batches.flatten = ds := by
  induction xss generalizing ds with
  | nil => exact ⟨[],rfl,by simpa [eq_comm] using h⟩
  | cons xs xss ih =>
    obtain ⟨a,b,rfl,rfl,hb⟩ := List.append_eq_map_iff.mp (List.flatten_cons ▸ h)
    obtain ⟨batches,rfl,rfl⟩ := ih hb.symm
    exact ⟨a::batches,rfl,rfl⟩

theorem pieces_eq {n : ℕ} (hn : 0 < n) {xss yss : List (List β)} (hx : ∀ xs ∈ xss, xs.length = n)
    (hy : ∀ ys ∈ yss, ys.length = n) (h : xss.flatten = yss.flatten) : xss = yss := by
  have hxs := List.map_eq_replicate_iff.mpr hx
  have hys := List.map_eq_replicate_iff.mpr hy
  have hlen : xss.length*n = yss.length*n := by
    have hflat := congrArg List.length h
    rwa [List.length_flatten,List.length_flatten,hxs,hys,List.sum_replicate,List.sum_replicate,
      smul_eq_mul,smul_eq_mul] at hflat
  rw [List.eq_iff_flatten_eq,hxs,hys,Nat.eq_of_mul_eq_mul_right hn hlen]
  exact ⟨h,rfl⟩

theorem exists_mem_zip {xs : List α} {ys : List β} (h : xs.length = ys.length) {x : α}
    (hx : x ∈ xs) : ∃ y, (x,y) ∈ xs.zip ys := by
  obtain ⟨n,hn,rfl⟩ := List.getElem_of_mem hx
  exact ⟨ys[n],List.mem_of_getElem (i := n) (h := by simp [← h,hn]) (by simp)⟩

end Requests

section Answers

variable {H : Digest} {uuid : ℕ → Bytes} {cfg : Configure} {r r' : Receiver} {m : Message}
  {ms : List Message}

@[simp] theorem asked_append (ms ms' : List Message) : asked (ms++ms') = asked ms ++ asked ms' := by
  simp [asked]

theorem asked_of_type (h : m.header.messageType = .edgeUploadSecRecipe) :
    asked [m] = askedBy m := by
  simp [asked,h]

theorem asked_of_other (h : m.header.messageType ≠ .edgeUploadSecRecipe) : asked [m] = [] := by
  simp [asked,h]

theorem flatten_askedBy (h : ItemBatch m) : (askedBy m).flatten = m.payload := by
  have hlen : m.payload.length = chunkHashSize*m.header.currentItemNum := h.2.trans h.1
  have hpieces : ∀ n, ∀ b : Bytes, b.length = chunkHashSize*n →
      ((List.range n).map fun j => (b.drop (chunkHashSize*j)).take chunkHashSize).flatten = b := by
    intro n
    induction n with
    | zero =>
      intro b hb
      simp [List.length_eq_zero_iff.mp hb]
    | succ n ih =>
      intro b hb
      have hrest := ih (b.drop chunkHashSize) (by rw [List.length_drop,hb,Nat.mul_succ]; omega)
      rw [List.range_succ_eq_map,List.map_cons,List.map_map,List.flatten_cons]
      simp only [List.drop_drop] at hrest
      have hshift : (List.range n).map ((fun j => (b.drop (chunkHashSize*j)).take chunkHashSize) ∘
          Nat.succ) = (List.range n).map fun j =>
            (b.drop (chunkHashSize+chunkHashSize*j)).take chunkHashSize := by
        refine List.map_congr_left fun j _ => ?_
        simp only [Function.comp,Nat.mul_succ,Nat.add_comm]
      rw [hshift,hrest,Nat.mul_zero,List.drop_zero,List.take_append_drop]
  exact hpieces _ _ hlen

theorem length_of_askedBy (h : ItemBatch m) : ∀ fp ∈ askedBy m, fp.length = chunkHashSize := by
  intro fp hfp
  obtain ⟨j,hj,rfl⟩ := List.mem_map.mp hfp
  have hin : chunkHashSize*j+chunkHashSize ≤ m.payload.length := by
    rw [h.2,h.1,← Nat.mul_succ]
    exact Nat.mul_le_mul_left _ (List.mem_range.mp hj)
  rw [List.length_take,List.length_drop]
  omega

theorem batches_openings {o : Opening} {ms : List Message} :
    ∀ o' ∈ openings o ms, ∀ m ∈ o'.batches, m ∈ o.batches ++ ms := by
  induction ms generalizing o with
  | nil =>
    intro o' ho' m hm
    rw [List.mem_singleton.mp ho'] at hm
    simpa using hm
  | cons m ms ih =>
    intro o' ho' m' hm'
    by_cases hnew : m.header.messageType = .edgeMigrationNewfile
    · rw [openings,if_pos hnew] at ho'
      rcases List.mem_cons.mp ho' with rfl | hin
      · simp [hm']
      · have hlater := ih o' hin m' hm'
        rw [openingOf,List.nil_append] at hlater
        simp [hlater]
    · rw [openings,if_neg hnew] at ho'
      have hlater := ih (o := { o with batches := o.batches ++ [m] }) o' ho' m' hm'
      simpa using hlater

/-- The client has asked about everything that the secure recipe of a file lists. -/
theorem asked_of_opening {o o' : Opening} (hstart : o.batches = [])
    (hms : ∀ m ∈ ms, InSession m) (ho' : o' ∈ openings o ms) {fps : List Bytes}
    (hlen : ∀ fp ∈ fps, fp.length = chunkHashSize) (hbody : o'.body .secureRecipe = fps.flatten) :
    ∀ fp ∈ fps, fp ∈ asked ms := by
  have hbatch : ∀ m ∈ o'.batches.filter fun m => m.header.messageType = .edgeUploadSecRecipe,
      m ∈ ms.filter (fun m => m.header.messageType = .edgeUploadSecRecipe) ∧ ItemBatch m := by
    intro m hm
    obtain ⟨hin,htype⟩ := List.mem_filter.mp hm
    have hsession : m ∈ ms := by simpa [hstart] using batches_openings o' ho' m hin
    refine ⟨List.mem_filter.mpr ⟨hsession,htype⟩,?_⟩
    simpa [InSession,of_decide_eq_true htype] using hms m hsession
  have hpieces : fps = (o'.batches.filter fun m =>
      m.header.messageType = .edgeUploadSecRecipe).flatMap askedBy := by
    refine pieces_eq (n := chunkHashSize) (by decide) hlen ?_ ?_
    · intro fp hfp
      obtain ⟨m,hm,hin⟩ := List.mem_flatMap.mp hfp
      exact length_of_askedBy (hbatch m hm).2 fp hin
    · rw [← hbody,Opening.body,uploadType,List.flatMap_def,List.flatMap_def,List.flatten_flatten,
        List.map_map]
      exact congrArg List.flatten
        (List.map_congr_left fun m hm => (flatten_askedBy (hbatch m hm).2).symm)
  intro fp hfp
  rw [hpieces] at hfp
  obtain ⟨m,hm,hin⟩ := List.mem_flatMap.mp hfp
  exact List.mem_flatMap.mpr ⟨m,(hbatch m hm).1,hin⟩

theorem statusList_received (h : ItemBatch m) :
    statusList { r with recvChunkBuf := receiveData m r.recvChunkBuf } =
      (askedBy m).map (statusOf r.shared) := by
  simp only [statusList,askedBy,List.map_map]
  refine List.map_congr_left fun j hj => ?_
  have hin : chunkHashSize*j+chunkHashSize ≤ m.payload.length := by
    rw [h.2,h.1,← Nat.mul_succ]
    exact Nat.mul_le_mul_left _ (List.mem_range.mp hj)
  exact congrArg (statusOf r.shared) (read_write_part r.recvChunkBuf.dataBuffer m.payload hin)

theorem sent_closeRecipe (k : Kind) (r : Receiver) : (closeRecipe k r).sent = r.sent := by
  unfold closeRecipe
  split_ifs <;> rfl

theorem sent_of_receive (hm : InSession m) (hchunk : m.header.messageType ≠ .edgeMigrationChunk)
    (h : receive H uuid cfg m r = .ok r') :
    ∃ replies, r'.sent = r.sent ++ replies ∧
      replies.flatMap Message.payload = (asked [m]).map (statusOf r.shared) := by
  unfold receive at h
  split_ifs at h
  have htype : (receiveData m r.recvChunkBuf).header.messageType = m.header.messageType := rfl
  have hquiet : m.header.messageType ≠ .edgeUploadSecRecipe → r'.sent = r.sent →
      ∃ replies, r'.sent = r.sent ++ replies ∧
        replies.flatMap Message.payload = (asked [m]).map (statusOf r.shared) := by
    intro hother hsent
    exact ⟨[],by simp [hsent],by simp [asked_of_other hother]⟩
  simp only [dispatch,htype] at h
  cases ht : m.header.messageType <;> simp only [ht] at h hquiet hchunk
  case edgeUploadSecRecipe =>
    have hbatch : ItemBatch m := by simpa [InSession,ht] using hm
    obtain rfl := Except.ok.inj h
    refine ⟨_,rfl,?_⟩
    have hstatus := statusList_received (r := r) hbatch
    have hlen : ((askedBy m).map (statusOf r.shared)).length = m.header.currentItemNum := by
      simp [askedBy]
    rw [asked_of_type ht,List.flatMap_singleton]
    simp only [processRecipeBatch,hstatus]
    change read (write _ 0 _) 0 m.header.currentItemNum = _
    rw [← hlen,read_write_self]
  case edgeMigrationChunk => exact absurd rfl hchunk
  case edgeMigrationChunkFinal =>
    obtain rfl := Except.ok.inj h
    exact hquiet (by simp) rfl
  case edgeUploadSecRecipeEnd =>
    obtain rfl := Except.ok.inj h
    exact hquiet (by simp) rfl
  case edgeMigrationNewfile =>
    obtain rfl := Except.ok.inj h
    refine hquiet (by simp) ?_
    change (closeRecipe .secureRecipe (closeRecipe .keyRecipe (closeRecipe .recipe _))).sent = _
    simp only [sent_closeRecipe]
  case edgeUploadRecipe =>
    obtain rfl := Except.ok.inj h
    exact hquiet (by simp) rfl
  case edgeUploadKeyRecipe =>
    obtain rfl := Except.ok.inj h
    exact hquiet (by simp) rfl
  case edgeUploadRecipeEnd =>
    obtain rfl := Except.ok.inj h
    exact hquiet (by simp) rfl
  all_goals cases h

end Answers

/-- What the messages of connection `i` have brought so far: it was answered about each
fingerprint it asked for, what it was told to be known is so, and its chunks are kept. -/
structure Taken (S : Setting) (T : Set Bytes) (i : ℕ) (ms : List Message) (p : Process) : Prop where
  reached : Reached S T p
  session : ∃ s, p.world.sessions i = some s
  upload : ∃ u, p.uploads i = some u ∧ u.sent ≠ [] ∧ (answers u).length = (asked ms).length ∧
    ∀ fp, ToldKnown ms u fp → ∃ name, Durability.Found p fp name
  kept : ∀ m ∈ ms, ∀ d, Carries m d → Kept S p i d

section Steps

variable {S : Setting} {T : Set Bytes} {p q : Process} {e : Event} {i : ℕ} {m : Message}
  {ms : List Message}

theorem taken_other (h : Taken S T i ms p) (he : e ≠ .restart) (hown : ¬ Own {i} e)
    (hb : Benign S p e) (ha : Admitted T e) (hstep : step S p e = some q) : Taken S T i ms q := by
  obtain ⟨s,hs⟩ := h.session
  obtain ⟨u,hu,hne,hlen,hknown⟩ := h.upload
  refine ⟨reached_step h.reached ha hstep,sessions_step hstep he hs,⟨u,?_,hne,hlen,?_⟩,?_⟩
  · rw [uploads_other hs he hown hstep]
    exact hu
  · intro fp hfp
    obtain ⟨name,hname⟩ := hknown fp hfp
    exact ⟨name,Durability.found_step h.reached.sound hb hstep hname⟩
  · exact fun m hm d hd => kept_step h.reached hb hstep (h.kept m hm d hd)

theorem told_append {u v : Upload} {replies : List Message} {shared : Shared}
    (hne : u.sent ≠ []) (hlen : (answers u).length = (asked ms).length)
    (hsent : v.sent = u.sent ++ replies)
    (hreplies : replies.flatMap Message.payload = (asked [m]).map (statusOf shared)) :
    v.sent ≠ [] ∧ (answers v).length = (asked (ms++[m])).length ∧
      ∀ fp, ToldKnown (ms++[m]) v fp → ToldKnown ms u fp ∨ statusOf shared fp = 0 := by
  have hanswers : answers v = answers u ++ (asked [m]).map (statusOf shared) := by
    rw [answers,hsent,List.tail_append_of_ne_nil hne,List.flatMap_append,hreplies,answers]
  refine ⟨by simp [hsent,hne],by simp [hanswers,hlen],fun fp hfp => ?_⟩
  rw [ToldKnown,asked_append,hanswers,List.zip_append hlen.symm,List.mem_append,
    ← List.map_prod_left_eq_zip] at hfp
  rcases hfp with hold | hnew
  · exact Or.inl hold
  · obtain ⟨fp',_,heq⟩ := List.mem_map.mp hnew
    obtain ⟨rfl,hstatus⟩ := Prod.mk.inj heq
    exact Or.inr hstatus

theorem found_of_status (hp : p.status = .running) {fp : Bytes}
    (h : statusOf p.world.shared fp = 0) : ∃ name, Durability.Found p fp name := by
  cases hlookup : p.world.shared.indexStore.lookup fp with
  | none => simp [statusOf,hlookup] at h
  | some name => exact ⟨name,(Durability.found_running hp fp name).mpr hlookup⟩

theorem taken_message (h : Taken S T i ms p) (hm : InSession m)
    (hb : Benign S p (.uploadMessage i (some m))) (ha : Admitted T (.uploadMessage i (some m)))
    (hstep : step S p (.uploadMessage i (some m)) = some q) : Taken S T i (ms++[m]) q := by
  obtain ⟨s₀,hs₀⟩ := h.session
  obtain ⟨u₀,hu₀,hne,hlen,hknown⟩ := h.upload
  have hgrow : ∀ (v : Upload) (replies : List Message), q.uploads i = some v →
      v.sent = u₀.sent ++ replies →
      replies.flatMap Message.payload = (asked [m]).map (statusOf p.world.shared) →
      Taken S T i (ms++[m]) q := by
    intro v replies hv hsent hreplies
    obtain ⟨hne',hlen',htold⟩ := told_append hne hlen hsent hreplies
    refine ⟨reached_step h.reached ha hstep,sessions_step hstep (by simp) hs₀,
      ⟨v,hv,hne',hlen',fun fp hfp => ?_⟩,fun m' hm' d hd => ?_⟩
    · have hbefore : ∃ name, Durability.Found p fp name := by
        rcases htold fp hfp with hold | hstatus
        · exact hknown fp hold
        · exact found_of_status (step_running hstep (by simp)) hstatus
      obtain ⟨name,hname⟩ := hbefore
      exact ⟨name,Durability.found_step h.reached.sound hb hstep hname⟩
    · rcases List.mem_append.mp hm' with hold | hlast
      · exact kept_step h.reached hb hstep (h.kept m' hold d hd)
      · rw [List.mem_singleton.mp hlast] at hd
        obtain ⟨htype,chunks,hcount,hpayload,hsmall,hin⟩ := hd
        exact kept_of_message htype hcount hpayload hsmall hb hstep hin
  cases files_of_step hstep with
  | same _ _ hbad => exact absurd hb (hbad trivial)
  | breaks _ _ hbad => exact absurd hb hbad
  | opens he => cases he
  | closes he => cases he
  | restarts he => cases he
  | @chunks j u m' he hu htype hfiles hup =>
    cases he
    obtain rfl := Option.some.inj (hu.symm.trans hu₀)
    have hquiet : asked [m] = [] := asked_of_other (by simp [htype])
    exact hgrow _ [] (by rw [hup,Function.update_self]) (by simp) (by simp [hquiet])
  | @receives j s u m' r he hs hu hr hchunk hfiles hup =>
    cases he
    obtain rfl := Option.some.inj (hu.symm.trans hu₀)
    have hfit := (served_of_receive hr).2
    obtain ⟨replies,hsent,hreplies⟩ := sent_of_receive hm (fun ht => hchunk ⟨ht,hfit⟩) hr
    exact hgrow _ replies (by rw [hup,Function.update_self]) hsent hreplies

theorem taken_login {memory : Memory} {delivered : Bool} (hp : Reached S T p)
    (htype : m.header.messageType = .edgeMigrateLogin)
    (hb : Benign S p (.login i memory (some m) delivered))
    (ha : Admitted T (.login i memory (some m) delivered))
    (hstep : step S p (.login i memory (some m) delivered) = some q) : Taken S T i [] q := by
  cases files_of_step hstep with
  | same _ _ hbad => exact absurd hb (hbad htype)
  | breaks he => cases he
  | chunks he => cases he
  | receives he => cases he
  | closes he => cases he
  | restarts he => cases he
  | @opens j memory m delivered he hfresh htype hfiles hup hs =>
    cases he
    refine ⟨reached_step hp ha hstep,hs,⟨_,by rw [hup,Function.update_self],?_,?_,?_⟩,by simp⟩
    · simp [uploadOf,edgeUploadThread,openRecipes,openRecipe]
    · simp [answers,asked,uploadOf,edgeUploadThread,openRecipes,openRecipe]
    · simp [ToldKnown,asked]

theorem taken_exec {names : Set Bytes} {fs : List Event} (hrun : Exec (step S) p fs q)
    (hd : During S names i p fs) (hfs : ∀ e ∈ fs, Admitted T e) (h : Taken S T i [] p) :
    Taken S T i (messagesOf i fs) q :=
  during_exec (P := fun ms p => Taken S T i ms p) (A := Admitted T)
    (fun _ _ _ _ h hm _ hb _ ha hstep => taken_message h hm hb ha hstep)
    (fun _ _ _ _ h he hown hb _ ha hstep => taken_other h he hown hb ha hstep) hrun hd hfs [] h

end Steps

/-- A run in which connection `i` uploads the files of `names`. The session begins in `p`,
its messages are in `fs`, it ends in `p₂`, and the process, or a later one, is in `q`. No other
upload has these files open, and no step after the login loses the process. -/
structure UploadRun (S : Setting) (T : Set Bytes) where
  i : ℕ
  memory : Memory
  login : Message
  names : Set Bytes
  es : List Event
  fs : List Event
  gs : List Event
  p : Process
  p₁ : Process
  p₂ : Process
  q : Process
  u : Upload
  before : Exec (step S) start es p
  logs : step S p (.login i memory (some login) true) = some p₁
  sends : Exec (step S) p₁ fs p₂
  after : Exec (step S) p₂ (.uploadEnds i::gs) q
  upload : p₂.uploads i = some u
  admitted : ∀ e ∈ es ++ .login i memory (some login) true::fs ++ .uploadEnds i::gs, Admitted T e
  loginType : login.header.messageType = .edgeMigrateLogin
  loginName : NamesFile login ∧ (openingOf login).fileName ∈ names
  accepted : Benign S p (.login i memory (some login) true)
  lengths : ∀ fileName ∈ names, fileName.length = fileNameLength
  free : ∀ fileName ∈ names, Unheld S ∅ fileName p
  during : During S names i p₁ fs
  saved : Along (step S) (Benign S) p₂ (.uploadEnds i::gs)

namespace UploadRun

variable {S : Setting} {T : Set Bytes} (R : UploadRun S T)

def messages : List Message := messagesOf R.i R.fs

def opening (fileName : Bytes) : Option Opening :=
  lastOpened fileName (openings (openingOf R.login) R.messages)

theorem taken : Taken S T R.i R.messages R.p₂ := by
  have hes : ∀ e ∈ R.es, Admitted T e := fun e he => R.admitted e (by simp [he])
  have hlogin : Admitted T (.login R.i R.memory (some R.login) true) := R.admitted _ (by simp)
  have hfs : ∀ e ∈ R.fs, Admitted T e := fun e he => R.admitted e (by simp [he])
  exact taken_exec R.sends R.during hfs
    (taken_login (reached_exec R.before reached_start hes) R.loginType R.accepted hlogin R.logs)

theorem admitted_after : ∀ e ∈ .uploadEnds R.i::R.gs, Admitted T e :=
  fun e he => R.admitted e (List.mem_append_right _ he)

theorem reached : Reached S T R.q := reached_exec R.after R.taken.reached R.admitted_after

/-- The files of a name hold its last opening for as long as no one opens them again. -/
theorem stored {fileName : Bytes} {o : Opening} (ho : R.opening fileName = some o)
    (hkeep : Along (step S) (Avoids ∅ fileName) R.p₂ (.uploadEnds R.i::R.gs)) (k : Kind) :
    R.q.files (S.cfg.path fileName k) = some (o.content k) := by
  have hstart := uploading_login R.loginType R.loginName.1 R.loginName.2 R.free R.accepted R.logs
  obtain ⟨os,cur,hos,hsession⟩ := uploading_exec R.sends R.lengths R.during hstart
  rw [opening,messages,hos] at ho
  obtain ⟨hmem,hof⟩ := RecipeRoundTrip.lastOpened_mem ho
  have hname : fileName ∈ R.names := hof ▸ hsession.named o hmem
  cases R.after with
  | @succ _ t _ _ _ hend hrest =>
    obtain ⟨hfiles,hunheld⟩ := uploading_ends R.lengths hsession hend
    rw [files_exec (R.lengths fileName hname) hrest (hunheld fileName hname) (hkeep.2 t hend) k]
    exact hfiles fileName o k ho

theorem answered : (answers R.u).length = (asked R.messages).length := by
  obtain ⟨u,hu,_,hlen,_⟩ := R.taken.upload
  obtain rfl := Option.some.inj (hu.symm.trans R.upload)
  exact hlen

/-- A chunk that the client has sent, or need not send. -/
def Brought (d : Bytes) : Prop :=
  (∃ m ∈ R.messages, Carries m d) ∨ ToldKnown R.messages R.u (S.digest.hash d)

theorem indexed (hrun : R.q.status = .running) (hjoined : R.q.thList = []) {d : Bytes}
    (hd : R.Brought d) : ∃ name, R.q.world.index (S.digest.hash d) = some name := by
  have hkept : Kept S R.p₂ R.i d := by
    rcases hd with ⟨m,hm,hcarries⟩ | hknown
    · exact R.taken.kept m hm d hcarries
    · obtain ⟨u,hu,_,_,htold⟩ := R.taken.upload
      obtain rfl := Option.some.inj (hu.symm.trans R.upload)
      exact Or.inr (htold _ hknown)
  have hend := R.after.invariant_along (P := fun v => Reached S T v ∧ Kept S v R.i d)
    (fun _ _ _ hv he hb hstep => ⟨reached_step hv.1 he hstep,kept_step hv.1 hb hstep hv.2⟩)
    ⟨R.taken.reached,hkept⟩ R.admitted_after R.saved
  exact indexed_of_kept R.reached hrun hjoined hend.2

end UploadRun

/-- A file comes back whole. A client uploads the recipes of a file, whose secure recipe lists
the fingerprints of the chunks `ds`, and sends each chunk that the server does not answer to
have. Then, after any steps of other connections, interrupts and restarts, the download of the
recipes delivers what was uploaded, and requests for the fingerprints of its secure recipe
are answered with exactly `ds`. -/
theorem file_comes_back (S : Setting) (T : Set Bytes) (R : UploadRun S T) (fileName : Bytes)
    (o : Opening) (ds : List Bytes) (ho : R.opening fileName = some o)
    (hsecure : o.body .secureRecipe = (ds.map S.digest.hash).flatten)
    (hsends : ∀ d ∈ ds, ∀ status, (S.digest.hash d,status) ∈ (asked R.messages).zip (answers R.u) →
      status ≠ 0 → ∃ m ∈ R.messages, Carries m d)
    (hkeep : Along (step S) (Avoids ∅ fileName) R.p₂ (.uploadEnds R.i::R.gs))
    (hds : ∀ d ∈ ds, d ∈ T) (hcoll : Set.InjOn S.digest.hash T)
    (hid : Set.InjOn S.uuid {n | n < R.q.world.shared.drawn}) (hcache : 1 ≤ S.readCacheSize)
    (hbatch : 1 ≤ S.cfg.sendRecipeBatchSize ∧ 16+chunkHashSize*S.cfg.sendRecipeBatchSize < 2^31)
    (hrun : R.q.status = .running) (hjoined : R.q.thList = []) :
    (∀ recvBuf sendRecipeBuf download, RecipeRoundTrip.IsDownloadLogin fileName download →
      Completes (RecipeRoundTrip.polite (RecipeSender.readSize S.cfg.sendRecipeBatchSize))
        (RecipeSender.edgeDownloadRecipeThread S.cfg ⟨R.q.files,recvBuf,sendRecipeBuf⟩ download)
        fun qs _ => RecipeRoundTrip.Delivers S.cfg.sendRecipeBatchSize o
          (RecipeRoundTrip.sentMessages qs)) ∧
    ∀ (requests : List (List Bytes)) (ready : Message) (prior : RecvDecoder.ClientVar)
      (clientID : ℕ) (pool : Mem (Mem UInt8)), ready.header.messageType = .edgeReceiveReady →
      (∀ fps ∈ requests, fps.length ≤ 256 ∧ ∀ fp ∈ fps, fp.length = chunkHashSize) →
      requests.flatten.flatten = o.body .secureRecipe →
      ∃ qs c', eval (Downloads.serve R.q.world)
          (RecvDecoder.run ready (requests.map (requestOf clientID))
            (initDownloadChunkBuffer prior clientID S.readCacheSize pool)) = (qs,.ok c') ∧
        received (Restore.sent qs) = ds := by
  obtain ⟨hmem,hof⟩ := RecipeRoundTrip.lastOpened_mem ho
  have hms : ∀ m ∈ R.messages, InSession m := fun m hm => (R.during.messages m hm).1
  have hhash : ∀ fp ∈ ds.map S.digest.hash, fp.length = chunkHashSize := by
    intro fp hfp
    obtain ⟨d,_,rfl⟩ := List.mem_map.mp hfp
    exact S.digest.hash_length d
  constructor
  · intro recvBuf sendRecipeBuf download hdownload
    have hsound := RecipeRoundTrip.sound_openings
      (RecipeRoundTrip.sound_openingOf R.loginName.1) hms o hmem
    subst hof
    exact (RecipeRoundTrip.download_iff hsound hdownload fun k => R.stored ho hkeep k).mpr
      fun k => RecipeRoundTrip.sendable_of_batch hbatch.1 hbatch.2 _
  · intro requests ready prior clientID pool hready hfps hflat
    have hall : requests.flatten = ds.map S.digest.hash := by
      refine pieces_eq (n := chunkHashSize) (by decide) ?_ hhash (hflat.trans hsecure)
      intro fp hfp
      obtain ⟨fps,hin,hfp⟩ := List.mem_flatten.mp hfp
      exact (hfps fps hin).2 fp hfp
    obtain ⟨batches,rfl,rfl⟩ := exists_batches hall
    have hbrought : ∀ d ∈ batches.flatten, R.Brought d := by
      intro d hd
      have hasked := asked_of_opening rfl hms hmem hhash hsecure _ (List.mem_map_of_mem hd)
      obtain ⟨status,hstatus⟩ := exists_mem_zip R.answered.symm hasked
      by_cases hzero : status = 0
      · rw [hzero] at hstatus
        exact Or.inr hstatus
      · exact Or.inl (hsends d hd status hstatus hzero)
    have hrequests : (batches.map (List.map S.digest.hash)).map (requestOf clientID) =
        batches.map (requestFor S.digest clientID) := by
      simp [requestFor_eq]
    rw [hrequests]
    obtain ⟨C,hC,hliving⟩ := R.reached.intact hid
    obtain ⟨d,hd⟩ := hliving hrun
    refine returns_rest hd.inv (R.reached.rest hrun hjoined hC) rfl hd.files hcoll hcache ?_ hready
      prior clientID pool
    intro cs hcs
    refine ⟨?_,fun c hc => ?_⟩
    · have hle := (hfps _ (List.mem_map_of_mem hcs)).1
      rwa [List.length_map] at hle
    · have hin : c ∈ batches.flatten := List.mem_flatten.mpr ⟨cs,hcs,hc⟩
      exact ⟨hds c hin,R.indexed hrun hjoined (hbrought c hin)⟩

def statusRequest : Message :=
  ⟨⟨.edgeUploadSecRecipe,7,64,2⟩,([[65,65],[66,66]].map demoSetting.digest.hash).flatten⟩

def dedupLogin : Message := RecipeRoundTrip.opensFile .edgeMigrateLogin 66 ⟨4,2⟩

def dedupSession : List Event :=
  [.uploadMessage 1 (some statusRequest),.uploadMessage 1 (some (chunkUpload 7 [[66,66]])),.chunk 1,
    .uploadMessage 1 none,.setDone 1] ++ writerSteps 1

def twoEntries : Order :=
  ⟨[⟨demoSetting.digest.hash [66,66],List.replicate 8 1⟩,
    ⟨demoSetting.digest.hash [65,65],List.replicate 8 0⟩],
    by simp [List.NodupKeys,List.keys]; decide⟩

def dedupFile : Opening :=
  { openingOf dedupLogin with batches := [statusRequest,chunkUpload 7 [[66,66]]] }

theorem inSession_dedup : ∀ m ∈ [statusRequest,chunkUpload 7 [[66,66]]], InSession m ∧
    m.header.messageType ≠ .edgeMigrationNewfile := by
  simp only [List.forall_mem_cons]
  refine ⟨⟨⟨rfl,rfl⟩,by simp [statusRequest]⟩,⟨⟨[[66,66]],rfl,rfl,?_⟩,by simp [chunkUpload]⟩,by simp⟩
  simp [maxChunkSize]

theorem during_dedup (p : Process) :
    During demoSetting {List.replicate 64 66} 1 p dedupSession := by
  have hsmall : statusRequest.payload.length ≤ recvChunkBufSize ∧
      (chunkUpload 7 [[66,66]]).payload.length ≤ recvChunkBufSize := by decide
  have hcount : chunkHashSize*2 ≤ recvChunkBufSize ∧ 64 ≤ recvChunkBufSize := by decide
  have hwriter : ∀ e ∈ writerSteps 1, ∃ k, e = .writer 1 k := by simp [writerSteps]
  refine ⟨?_,?_,along_of_forall ?_ p,fun f _ => along_of_forall ?_ p⟩
  · simp [dedupSession,writerSteps]
  · intro m hm
    obtain ⟨hsession,hother⟩ := inSession_dedup m hm
    exact ⟨hsession,fun hnew => absurd hnew hother⟩
  · refine List.forall_mem_append.mpr ⟨?_,fun e he t => ?_⟩
    · simp only [List.forall_mem_cons]
      exact ⟨fun _ _ _ _ _ => ⟨hsmall.1,hcount⟩,
        fun _ _ _ _ _ => ⟨hsmall.2,batchFits_receive rfl (by simp [maxChunkSize]) hsmall.2 _⟩,
        fun _ => trivial,
        fun _ => trivial,fun _ => trivial,by simp⟩
    · obtain ⟨k,rfl⟩ := hwriter e he
      trivial
  · refine List.forall_mem_append.mpr ⟨?_,fun e he t => ?_⟩
    · simp only [List.forall_mem_cons]
      exact ⟨fun _ hother => absurd rfl hother,fun _ hother => absurd rfl hother,fun _ => trivial,
        fun _ => trivial,fun _ => trivial,by simp⟩
    · obtain ⟨k,rfl⟩ := hwriter e he
      trivial

theorem unheld_dedup {p : Process} (h : Exec (step demoSetting) start (uploadAll 0 65) p) :
    Unheld demoSetting ∅ (List.replicate 64 66) p := by
  have hother : loginName demoMemory ⟨⟨.edgeMigrateLogin,1,80,0⟩,List.replicate 80 65⟩ ≠
      List.replicate 64 66 := by decide
  have hwriter : ∀ e ∈ writerSteps 0, ∃ k, e = .writer 0 k := by simp [writerSteps]
  refine h.invariant_along (P := Unheld demoSetting ∅ (List.replicate 64 66)) (A := fun _ => True)
    (C := Avoids ∅ (List.replicate 64 66))
    (fun _ _ _ hp _ ha hstep => unheld_step (by simp [fileNameLength,chunkHashSize]) hp ha hstep)
    (by simp [Unheld,start]) (fun _ _ => trivial) (along_of_forall ?_ start)
  rw [uploadAll,List.append_assoc]
  refine List.forall_mem_append.mpr ⟨?_,List.forall_mem_append.mpr ⟨fun e he t => ?_,by simp [Avoids]⟩⟩
  · simp only [List.forall_mem_cons]
    exact ⟨fun _ _ => hother,fun _ _ hnew => by simp at hnew,fun _ => trivial,
      fun _ _ hnew => by simp at hnew,fun _ => trivial,fun _ => trivial,by simp⟩
  · obtain ⟨k,rfl⟩ := hwriter e he
    trivial

theorem admitted_dedup : ∀ e ∈ uploadAll 0 65 ++ .login 1 demoMemory (some dedupLogin) true::dedupSession
    ++ [.uploadEnds 1,.interrupt twoEntries,.restart], Admitted twoUploads e := by
  have hfirst := admitted_uploadAll (T := twoUploads) 0 (Or.inl rfl : [65,65] ∈ twoUploads)
  have hchunk : Admitted twoUploads (.uploadMessage 1 (some (chunkUpload 7 [[66,66]]))) :=
    admitted_chunkUpload (by simp [maxChunkSize,twoUploads])
  have hwriter : ∀ e ∈ writerSteps 1, ∃ k, e = .writer 1 k := by simp [writerSteps]
  have hsession : ∀ e ∈ dedupSession, Admitted twoUploads e := by
    refine List.forall_mem_append.mpr ⟨?_,fun e he => ?_⟩
    · simp only [List.forall_mem_cons]
      exact ⟨fun htype => by simp [statusRequest] at htype,hchunk,trivial,trivial,trivial,by simp⟩
    · obtain ⟨k,rfl⟩ := hwriter e he
      trivial
  refine List.forall_mem_append.mpr ⟨List.forall_mem_append.mpr ⟨hfirst,?_⟩,?_⟩
  · exact List.forall_mem_cons.mpr ⟨rfl,hsession⟩
  · simp only [List.forall_mem_cons]
    exact ⟨trivial,trivial,trivial,by simp⟩

/-- The second upload sends one of its two chunks, and both come back after a restart. -/
theorem file_comes_back_dedup :
    ∃ (q : Process) (qs : List RecvDecoder.Request) (c' : RecvDecoder.ClientVar),
      Exec (step demoSetting) start (uploadAll 0 65 ++ .login 1 demoMemory (some dedupLogin) true::
        dedupSession ++ [.uploadEnds 1,.interrupt twoEntries,.restart]) q ∧
      (∀ download, RecipeRoundTrip.IsDownloadLogin (List.replicate 64 66) download →
        Completes (RecipeRoundTrip.polite 64) (RecipeSender.edgeDownloadRecipeThread demoSetting.cfg
          ⟨q.files,demoMemory.recvBuf,demoMemory.sendRecipeBuf⟩ download)
          fun qs _ => RecipeRoundTrip.Delivers 2 dedupFile (RecipeRoundTrip.sentMessages qs)) ∧
      eval (Downloads.serve q.world) (RecvDecoder.run ⟨⟨.edgeReceiveReady,4,0,0⟩,[]⟩
        ([[[65,65],[66,66]].map demoSetting.digest.hash].map (requestOf 4))
        (initDownloadChunkBuffer demoMemory.decoder 4 demoSetting.readCacheSize
          demoMemory.pool)) = (qs,.ok c') ∧
      received (Restore.sent qs) = [[65,65],[66,66]] := by
  have hrun : ((run (step demoSetting) start (uploadAll 0 65)).bind fun p =>
      (step demoSetting p (.login 1 demoMemory (some dedupLogin) true)).bind fun p₁ =>
        (run (step demoSetting) p₁ dedupSession).bind fun p₂ =>
          (run (step demoSetting) p₂ [.uploadEnds 1,.interrupt twoEntries,.restart]).map fun q =>
            ((p₂.uploads 1).map answers,q.world.shared.drawn,q.status,q.thList)) =
      some (some [0,1],2,.running,[]) := by decide +kernel
  obtain ⟨p,hp,hobs⟩ := Option.bind_eq_some_iff.mp hrun
  obtain ⟨p₁,hp₁,hobs⟩ := Option.bind_eq_some_iff.mp hobs
  obtain ⟨p₂,hp₂,hobs⟩ := Option.bind_eq_some_iff.mp hobs
  obtain ⟨q,hq,hend⟩ := Option.map_eq_some_iff.mp hobs
  simp only [Prod.mk.injEq,Option.map_eq_some_iff] at hend
  obtain ⟨⟨u,hu,hanswers⟩,hdrawn,hrunning,hjoined⟩ := hend
  replace hp := Exec.of_run hp
  replace hp₂ := Exec.of_run hp₂
  replace hq := Exec.of_run hq
  have haccepted : Benign demoSetting p (.login 1 demoMemory (some dedupLogin) true) := by
    refine ⟨?_,rfl,rfl⟩
    rw [dedupLogin,RecipeRoundTrip.opensFile_length]
    decide
  let R : UploadRun demoSetting twoUploads :=
    { i := 1, memory := demoMemory, login := dedupLogin, names := {List.replicate 64 66}
      es := uploadAll 0 65, fs := dedupSession, gs := [.interrupt twoEntries,.restart]
      p := p, p₁ := p₁, p₂ := p₂, q := q, u := u
      before := hp, logs := hp₁, sends := hp₂, after := hq, upload := hu
      admitted := admitted_dedup
      loginType := rfl
      loginName := ⟨RecipeRoundTrip.namesFile_opensFile _ (by decide) _,rfl⟩
      accepted := haccepted
      lengths := by simp [fileNameLength,chunkHashSize]
      free := by simpa using unheld_dedup hp
      during := during_dedup p₁
      saved := along_of_forall (by simp [Benign]) p₂ }
  have hopening : R.opening (List.replicate 64 66) = some dedupFile := rfl
  have hzip : (asked R.messages).zip (answers R.u) =
      [(demoSetting.digest.hash [65,65],0),(demoSetting.digest.hash [66,66],1)] := by
    rw [show answers R.u = [0,1] from hanswers]
    rfl
  have hsends : ∀ d ∈ [[65,65],[66,66]], ∀ status, (demoSetting.digest.hash d,status) ∈
      (asked R.messages).zip (answers R.u) → status ≠ 0 → ∃ m ∈ R.messages, Carries m d := by
    intro d hd status hstatus hne
    rw [hzip] at hstatus
    simp only [List.mem_cons,List.not_mem_nil,or_false,Prod.mk.injEq] at hd hstatus
    rcases hstatus with ⟨_,rfl⟩ | ⟨hfp,rfl⟩
    · exact absurd rfl hne
    · rcases hd with rfl | rfl
      · exact absurd hfp (by decide)
      · exact ⟨chunkUpload 7 [[66,66]],List.mem_cons_of_mem _ List.mem_cons_self,rfl,[[66,66]],rfl,
          rfl,by simp [maxChunkSize],by simp⟩
  have hkeep : Along (step demoSetting) (Avoids ∅ (List.replicate 64 66)) p₂
      [.uploadEnds 1,.interrupt twoEntries,.restart] := along_of_forall (by simp [Avoids]) p₂
  obtain ⟨hrecipes,hchunks⟩ := file_comes_back demoSetting twoUploads R (List.replicate 64 66)
    dedupFile [[65,65],[66,66]] hopening rfl hsends hkeep (by simp [twoUploads]) injOn_twoUploads
    (injOn_demo (by rw [hdrawn]; omega)) le_rfl (by decide) hrunning hjoined
  obtain ⟨qs,c',heval,hreceived⟩ := hchunks [[[65,65],[66,66]].map demoSetting.digest.hash]
    ⟨⟨.edgeReceiveReady,4,0,0⟩,[]⟩ demoMemory.decoder 4 demoMemory.pool rfl
    (by simp [demoSetting.digest.hash_length]) rfl
  exact ⟨q,qs,c',(hp.append (Exec.succ hp₁ hp₂)).append hq,fun d => hrecipes _ _ d,heval,hreceived⟩

end WholeFiles
end CloudServer
