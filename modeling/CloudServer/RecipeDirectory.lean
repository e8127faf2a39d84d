import CloudServer.RecipeUpload
import CloudServer.Threads

/-! The recipe directory of a process with many connections. The files of a name change
by the connections that have them open, and by no others; what a session has written is
there from its end on, and over restarts, until the name is opened again. -/
namespace CloudServer
namespace RecipeDirectory

open ByteMemory OutputStream Execution PlainIndex DataReceiver RecipeUpload Lifecycle
open Uploads (World Session Takes put_self put_ne put_cases)
open RecvDecoder (Message SendMsgBuffer)

section Streams

variable {H : Digest} {uuid : ℕ → Bytes} {cfg : Configure} {r r' : Receiver} {x : Bytes}

def Away (writeHandler : Kind → Sink Bytes UInt8) (x : Bytes) : Prop :=
  ∀ k, (writeHandler k).path ≠ some x

def Untouched (x : Bytes) (r r' : Receiver) : Prop :=
  Away r.writeHandler x → r'.files x = r.files x ∧ Away r'.writeHandler x

theorem Untouched.trans {r₁ r₂ r₃ : Receiver} (h : Untouched x r₁ r₂) (h' : Untouched x r₂ r₃) :
    Untouched x r₁ r₃ := by
  intro haway
  obtain ⟨hfiles,haway'⟩ := h haway
  exact ⟨(h' haway').1.trans hfiles,(h' haway').2⟩

theorem untouched_same (hfiles : r'.files = r.files) (hhandler : r'.writeHandler = r.writeHandler) :
    Untouched x r r' := fun haway => ⟨by rw [hfiles],hhandler ▸ haway⟩

theorem flush_away {s : Sink Bytes UInt8} (h : s.path ≠ some x) (fs : Files Bytes UInt8) :
    s.flush fs x = fs x := by
  cases hp : s.path with
  | none => simp [Sink.flush,hp]
  | some p =>
    simp only [Sink.flush,hp]
    exact Function.update_of_ne (fun heq => h (by rw [hp,heq])) _ _

theorem away_update {f : Kind → Sink Bytes UInt8} (h : Away f x) {k : Kind} {s : Sink Bytes UInt8}
    (hs : s.path ≠ some x) : Away (Function.update f k s) x := by
  intro k'
  by_cases hk : k' = k
  · rw [hk,Function.update_self]
    exact hs
  · rw [Function.update_of_ne hk]
    exact h k'

theorem untouched_close (k : Kind) : Untouched x r (closeRecipe k r) := by
  intro haway
  unfold closeRecipe
  split_ifs
  · exact ⟨flush_away (haway k) _,away_update haway (by simp [closed])⟩
  · exact ⟨rfl,haway⟩

theorem untouched_open {fileName : Bytes} (head : FileRecipeHead)
    (hx : ∀ k, cfg.path fileName k ≠ x) : Untouched x r (openRecipes cfg fileName head r) := by
  intro haway
  refine ⟨openRecipes_files_ne head fun k => (hx k).symm,?_⟩
  intro k
  rw [(openRecipes_writing cfg fileName head r).handler k]
  exact fun heq => hx k (Option.some.inj heq)

theorem put_path (s : Sink Bytes UInt8) (l : Bytes) : (s.put l).path = s.path := by
  unfold Sink.put
  split_ifs <;> rfl

theorem untouched_write (k : Kind) (n : ℕ) : Untouched x r (writeRecipe k n r) := by
  refine fun haway => ⟨rfl,away_update haway ?_⟩
  rw [put_path]
  exact haway k

theorem untouched_change {fileName : Bytes} (head : FileRecipeHead)
    (hx : ∀ k, cfg.path fileName k ≠ x) : Untouched x r (changeFile cfg fileName head r) :=
  (untouched_close _).trans ((untouched_close _).trans
    ((untouched_close _).trans (untouched_open head hx)))

theorem untouched_delete : Untouched x r (deleteClientVar r) := by
  have hdestroy : Untouched x r (destoryUploadBuffer r) := by
    have htwo : Untouched x r (closeRecipe .keyRecipe (closeRecipe .recipe r)) :=
      (untouched_close _).trans (untouched_close _)
    unfold destoryUploadBuffer
    simp only
    split_ifs
    · exact htwo.trans (untouched_close _)
    · exact htwo
  exact hdestroy.trans ((untouched_close _).trans ((untouched_close _).trans (untouched_close _)))

/-- A message touches no file but those that are open and those that it opens. -/
theorem untouched_receive {m : Message} (hnew : m.header.messageType = .edgeMigrationNewfile →
      ∀ k, cfg.path (fileNameOf (receiveData m r.recvChunkBuf).dataBuffer) k ≠ x)
    (h : receive H uuid cfg m r = .ok r') : Untouched x r r' := by
  unfold receive at h
  split_ifs at h
  have htype : (receiveData m r.recvChunkBuf).header.messageType = m.header.messageType := rfl
  have hsame : Untouched x r { r with recvChunkBuf := receiveData m r.recvChunkBuf } :=
    untouched_same rfl rfl
  cases ht : m.header.messageType <;> simp only [dispatch,htype,ht] at h
  case edgeMigrationChunk =>
    obtain rfl := Except.ok.inj h
    exact untouched_same rfl rfl
  case edgeMigrationChunkFinal =>
    obtain rfl := Except.ok.inj h
    exact hsame
  case edgeUploadSecRecipe =>
    obtain rfl := Except.ok.inj h
    refine hsame.trans ((untouched_write .secureRecipe m.header.dataSize).trans ?_)
    exact untouched_same rfl rfl
  case edgeUploadSecRecipeEnd =>
    obtain rfl := Except.ok.inj h
    exact hsame
  case edgeMigrationNewfile =>
    obtain rfl := Except.ok.inj h
    exact hsame.trans (untouched_change _ (hnew ht))
  case edgeUploadRecipe =>
    obtain rfl := Except.ok.inj h
    exact hsame.trans (untouched_write .recipe _)
  case edgeUploadKeyRecipe =>
    obtain rfl := Except.ok.inj h
    exact hsame.trans (untouched_write .keyRecipe _)
  case edgeUploadRecipeEnd =>
    obtain rfl := Except.ok.inj h
    exact untouched_same rfl rfl
  all_goals cases h

end Streams

/-- An event that opens, writes or closes the streams of an upload. -/
def Handles : Event → Prop
  | .login _ _ (some m) _ => m.header.messageType = .edgeMigrateLogin
  | .uploadMessage _ (some _) => True
  | .uploadEnds _ => True
  | _ => False

/-- What a step does to the recipe directory and to the streams of the uploads. -/
inductive Files (S : Setting) (p : Process) (e : Event) (q : Process) : Prop
  | same (hfiles : q.files = p.files) (hup : q.uploads = p.uploads)
    (hbad : Handles e → ¬ Benign S p e)
  | opens {i : ℕ} {memory : Memory} {m : Message} {delivered : Bool}
    (he : e = .login i memory (some m) delivered) (hfresh : fresh p i = true)
    (htype : m.header.messageType = .edgeMigrateLogin)
    (hfiles : q.files = (edgeUploadThread S.uuid S.cfg
      ⟨p.files,p.world.shared,memory.prior,memory.recvBuf,memory.recvChunkBuf⟩ m).files)
    (hup : q.uploads = Function.update p.uploads i (some (uploadOf (edgeUploadThread S.uuid S.cfg
      ⟨p.files,p.world.shared,memory.prior,memory.recvBuf,memory.recvChunkBuf⟩ m))))
    (hs : ∃ s, q.world.sessions i = some s)
  | chunks {i : ℕ} {u : Upload} {m : Message} (he : e = .uploadMessage i (some m))
    (hu : p.uploads i = some u) (hm : m.header.messageType = .edgeMigrationChunk)
    (hfiles : q.files = p.files)
    (hup : q.uploads = Function.update p.uploads i (some { u with header := m.header }))
  | receives {i : ℕ} {s : Session} {u : Upload} {m : Message} {r : Receiver}
    (he : e = .uploadMessage i (some m)) (hs : p.world.sessions i = some s)
    (hu : p.uploads i = some u) (hr : receive S.digest S.uuid S.cfg m (receiver p s u) = .ok r)
    (hm : ¬ (m.header.messageType = .edgeMigrationChunk ∧ m.payload.length ≤ recvChunkBufSize))
    (hfiles : q.files = r.files) (hup : q.uploads = Function.update p.uploads i (some (uploadOf r)))
  | breaks {i : ℕ} {s : Session} {u : Upload} {m : Message} (he : e = .uploadMessage i (some m))
    (hu : p.uploads i = some u) (hbad : ¬ Benign S p e)
    (hfiles : q.files = (closeRecipe .secureRecipe (closeRecipe .keyRecipe
      (closeRecipe .recipe (receiver p s u)))).files) (hup : q.uploads = p.uploads)
  | closes {i : ℕ} {s : Session} {u : Upload} (he : e = .uploadEnds i)
    (hs : p.world.sessions i = some s) (hu : p.uploads i = some u)
    (hfiles : q.files = (deleteClientVar (receiver p s u)).files)
    (hup : q.uploads = Function.update p.uploads i none)
  | restarts (he : e = .restart) (hfiles : q.files = p.files) (hup : q.uploads = fun _ => none)

section Steps

variable {S : Setting} {p q : Process} {e : Event}

theorem files_performs (h : Performs S p e q) : Files S p e q := by
  cases h with
  | exits hbad => exact .same rfl rfl fun _ => hbad
  | changeFails hu hbad => exact .breaks rfl hu hbad rfl rfl
  | uploadLogin hfresh htype hw =>
    refine .opens rfl hfresh htype rfl rfl ?_
    cases Uploads.takes_of_step hw with
    | login prior buffer hs => exact ⟨_,put_self _ _ _⟩
  | recipeLogin _ htype => exact .same rfl rfl fun h => by simp [Handles,htype] at h
  | chunkLogin _ htype => exact .same rfl rfl fun h => by simp [Handles,htype] at h
  | uploads he _ =>
    refine .same rfl rfl fun h => ?_
    unfold uploadsEvent at he
    split at he
    · exact h.elim
    · exact h.elim
    · exact h.elim
    · exact h.elim
    · cases he
  | chunkMessage hu htype => exact .chunks rfl hu htype rfl rfl
  | message hs hu _ _ hchunk hr => exact .receives rfl hs hu hr hchunk rfl rfl
  | uploadEnds hs hu => exact .closes rfl hs hu rfl rfl
  | receives => exact .same rfl rfl False.elim
  | downloads => exact .same rfl rfl False.elim
  | downloadEnds => exact .same rfl rfl False.elim
  | @replies e _ _ _ he =>
    refine .same rfl rfl fun h => ?_
    cases e with
    | recipeMessage => exact h.elim
    | recipeSent => exact h.elim
    | _ => exact he.elim
  | recipeEnds => exact .same rfl rfl False.elim
  | interrupt => exact .same rfl rfl False.elim

theorem files_of_step (h : step S p e = some q) : Files S p e q := by
  rcases step_cases h with ⟨_,hperf⟩ | ⟨_,rfl,hstart⟩
  · exact files_performs hperf
  · obtain ⟨_,_,rfl⟩ := restart_eq_some.mp hstart
    exact .restarts rfl rfl rfl

/-- No upload has a file of this name open, apart from those in `mine`. -/
def Unheld (S : Setting) (mine : Set ℕ) (fileName : Bytes) (p : Process) : Prop :=
  ∀ i u, i ∉ mine → p.uploads i = some u → ∀ k, Away u.writeHandler (S.cfg.path fileName k)

/-- The event is no login for an upload of this name, and no switch to it by an upload that
is not in `mine`. -/
def Avoids (mine : Set ℕ) (fileName : Bytes) (p : Process) : Event → Prop
  | .login _ memory (some m) _ =>
    m.header.messageType = .edgeMigrateLogin → loginName memory m ≠ fileName
  | .uploadMessage i (some m) => i ∉ mine → m.header.messageType = .edgeMigrationNewfile →
      ∀ s u, p.world.sessions i = some s → p.uploads i = some u →
        fileNameOf (receiveData m (receiver p s u).recvChunkBuf).dataBuffer ≠ fileName
  | _ => True

def Own (mine : Set ℕ) : Event → Prop
  | .uploadMessage i (some _) => i ∈ mine
  | .uploadEnds i => i ∈ mine
  | _ => False

variable {mine : Set ℕ} {fileName : Bytes}

theorem fileNameOf_length (dataBuffer : Mem UInt8) :
    (fileNameOf dataBuffer).length = fileNameLength := read_length _ _ _

theorem untouched_login (hlen : fileName.length = fileNameLength) (env : Environment)
    {m : Message} (hne : fileNameOf (receiveData m env.recvBuf).dataBuffer ≠ fileName) (k : Kind) :
    (edgeUploadThread S.uuid S.cfg env m).files (S.cfg.path fileName k) =
      env.files (S.cfg.path fileName k) ∧
    Away (edgeUploadThread S.uuid S.cfg env m).writeHandler (S.cfg.path fileName k) := by
  refine untouched_open _ (fun k' => ?_) (by simp [Away,closed])
  exact path_ne ((fileNameOf_length _).trans hlen.symm) hne k' k

theorem untouched_message (hlen : fileName.length = fileNameLength) {i : ℕ} {s : Session}
    {u : Upload} {m : Message} {r : Receiver} (ha : Avoids mine fileName p (.uploadMessage i (some m)))
    (hi : i ∉ mine) (hs : p.world.sessions i = some s) (hu : p.uploads i = some u)
    (hr : receive S.digest S.uuid S.cfg m (receiver p s u) = .ok r) (k : Kind) :
    Untouched (S.cfg.path fileName k) (receiver p s u) r :=
  untouched_receive (fun hnew k' => path_ne ((fileNameOf_length _).trans hlen.symm)
    (ha hi hnew s u hs hu) k' k) hr

theorem unheld_step (hlen : fileName.length = fileNameLength) (h : Unheld S mine fileName p)
    (ha : Avoids mine fileName p e) (hstep : step S p e = some q) :
    Unheld S mine fileName q := by
  intro j v hj hv k
  cases files_of_step hstep with
  | same _ hup =>
    rw [hup] at hv
    exact h j v hj hv k
  | @opens i memory m delivered he hfresh htype hfiles hup =>
    subst he
    rw [hup] at hv
    by_cases hji : j = i
    · rw [hji,Function.update_self] at hv
      obtain rfl := Option.some.inj hv
      exact (untouched_login hlen
        ⟨p.files,p.world.shared,memory.prior,memory.recvBuf,memory.recvChunkBuf⟩ (ha htype) k).2
    · rw [Function.update_of_ne hji] at hv
      exact h j v hj hv k
  | @chunks i u m he hu hm hfiles hup =>
    rw [hup] at hv
    by_cases hji : j = i
    · rw [hji,Function.update_self] at hv
      obtain rfl := Option.some.inj hv
      exact h i u (hji ▸ hj) hu k
    · rw [Function.update_of_ne hji] at hv
      exact h j v hj hv k
  | @receives i s u m r he hs hu hr hm hfiles hup =>
    subst he
    rw [hup] at hv
    by_cases hji : j = i
    · subst hji
      rw [Function.update_self] at hv
      obtain rfl := Option.some.inj hv
      exact (untouched_message hlen ha hj hs hu hr k (h j u hj hu k)).2
    · rw [Function.update_of_ne hji] at hv
      exact h j v hj hv k
  | breaks _ _ _ _ hup =>
    rw [hup] at hv
    exact h j v hj hv k
  | @closes i s u he hs hu hfiles hup =>
    rw [hup] at hv
    by_cases hji : j = i
    · simp [hji] at hv
    · rw [Function.update_of_ne hji] at hv
      exact h j v hj hv k
  | restarts _ _ hup => simp [hup] at hv

/-- The files of a name that no other upload holds stay as they are. -/
theorem files_unheld (hlen : fileName.length = fileNameLength) (h : Unheld S mine fileName p)
    (ha : Avoids mine fileName p e) (hown : ¬ Own mine e) (hstep : step S p e = some q) (k : Kind) :
    q.files (S.cfg.path fileName k) = p.files (S.cfg.path fileName k) := by
  cases files_of_step hstep with
  | same hfiles => rw [hfiles]
  | @opens i memory m delivered he hfresh htype hfiles =>
    subst he
    rw [hfiles]
    exact (untouched_login hlen
      ⟨p.files,p.world.shared,memory.prior,memory.recvBuf,memory.recvChunkBuf⟩ (ha htype) k).1
  | chunks _ _ _ hfiles => rw [hfiles]
  | receives he hs hu hr hm hfiles =>
    subst he
    rw [hfiles]
    exact (untouched_message hlen ha hown hs hu hr k (h _ _ hown hu k)).1
  | @breaks i s u m he hu hbad hfiles =>
    subst he
    rw [hfiles]
    exact ((untouched_close _).trans ((untouched_close _).trans (untouched_close _))
      (h i u hown hu k)).1
  | @closes i s u he hs hu hfiles =>
    subst he
    rw [hfiles]
    exact (untouched_delete (r := receiver p s u) (h i u hown hu k)).1
  | restarts _ hfiles => rw [hfiles]

end Steps

end RecipeDirectory
end CloudServer
