import CloudServer.DataReceiver

/-! What an upload session leaves in the recipe directory. A session is cut into
openings, one for the login and one for each switch to a new file; the files of a name
hold the header and the batches of its last opening. -/
namespace CloudServer
namespace RecipeUpload

open ByteMemory OutputStream PlainIndex DataReceiver
open RecvDecoder (Message SendMsgBuffer)

/-- One file of a session, from its opening up to the next one. -/
structure Opening where
  fileName : Bytes
  head : FileRecipeHead
  batches : List Message

def uploadType : Kind → MessageType
  | .recipe => .edgeUploadRecipe
  | .keyRecipe => .edgeUploadKeyRecipe
  | .secureRecipe => .edgeUploadSecRecipe

def Opening.body (o : Opening) (k : Kind) : Bytes :=
  (o.batches.filter fun m => m.header.messageType = uploadType k).flatMap Message.payload

def Opening.content (o : Opening) (k : Kind) : Bytes := o.head.bytes ++ o.body k

def openingOf (m : Message) : Opening :=
  ⟨m.payload.take fileNameLength,
    FileRecipeHead.parse ((m.payload.drop fileNameLength).take headSize),[]⟩

def openings (o : Opening) : List Message → List Opening
  | [] => [o]
  | m::ms =>
    if m.header.messageType = .edgeMigrationNewfile then o::openings (openingOf m) ms
    else openings { o with batches := o.batches ++ [m] } ms

def lastOpened (fileName : Bytes) : List Opening → Option Opening
  | [] => none
  | o::os => (lastOpened fileName os).or (if o.fileName = fileName then some o else none)

/-- A name that is one component of a path and survives as a C string. -/
def ValidName (fileName : Bytes) : Prop :=
  fileName.length = fileNameLength ∧ 0 ∉ fileName ∧ 47 ∉ fileName

def NamesFile (m : Message) : Prop :=
  m.payload.length = fileNameLength+headSize ∧ ValidName (m.payload.take fileNameLength)

def ItemBatch (m : Message) : Prop :=
  m.header.dataSize = chunkHashSize*m.header.currentItemNum ∧ m.payload.length = m.header.dataSize

def InSession (m : Message) : Prop :=
  match m.header.messageType with
  | .edgeUploadRecipe | .edgeUploadKeyRecipe | .edgeUploadSecRecipe => ItemBatch m
  | .edgeMigrationChunk => ∃ chunks : List Bytes, m.header.currentItemNum = chunks.length ∧
      m.payload = encodeChunks chunks ∧ ∀ d ∈ chunks, d.length ≤ maxChunkSize
  | .edgeMigrationNewfile => NamesFile m
  | .edgeUploadRecipeEnd | .edgeUploadKeyRecipeEnd | .edgeUploadSecRecipeEnd
  | .edgeMigrationChunkFinal => True
  | _ => False

/-- The server has a case for the message and room to receive it. -/
def Served (m : Message) : Prop :=
  m.header.messageType ≠ .edgeUploadKeyRecipeEnd ∧ m.payload.length ≤ recvChunkBufSize

variable {H : Digest} {uuid : ℕ → Bytes} {cfg : Configure} {r : Receiver} {m : Message}

@[simp] theorem path_eq_iff (fileName : Bytes) (k k' : Kind) :
    cfg.path fileName k = cfg.path fileName k' ↔ k = k' := by
  constructor
  · intro h
    have hsuffix : k.suffix = k'.suffix := List.append_cancel_left h
    cases k <;> cases k' <;> first | rfl | exact absurd hsuffix (by decide)
  · rintro rfl
    rfl

theorem path_ne {fileName fileName' : Bytes} (hlen : fileName.length = fileName'.length)
    (hne : fileName ≠ fileName') (k k' : Kind) : cfg.path fileName k ≠ cfg.path fileName' k' := by
  intro h
  rw [Configure.path,Configure.path,List.append_assoc,List.append_assoc] at h
  exact hne (List.append_inj (List.append_cancel_left h) hlen).1

structure Writing (cfg : Configure) (r : Receiver) (fileName : Bytes) (content : Kind → Bytes) :
    Prop where
  handler : ∀ k, r.writeHandler k = ⟨some (cfg.path fileName k),content k⟩
  truncated : ∀ k, r.files (cfg.path fileName k) = some []

theorem closeRecipe_open {k : Kind} {p b : Bytes} (h : r.writeHandler k = ⟨some p,b⟩) :
    closeRecipe k r = { r with
      files := Sink.flush ⟨some p,b⟩ r.files
      writeHandler := Function.update r.writeHandler k closed } := by
  simp [closeRecipe,h,Sink.isOpen]

theorem closeRecipe_closed {k : Kind} (h : r.writeHandler k = closed) : closeRecipe k r = r := by
  simp [closeRecipe,h,closed,Sink.isOpen]

/-- The directory after all three files of `fileName` have been closed. -/
def closeFiles (cfg : Configure) (fileName : Bytes) (content : Kind → Bytes)
    (fs : Files Bytes UInt8) : Files Bytes UInt8 :=
  Sink.flush ⟨some (cfg.path fileName .secureRecipe),content .secureRecipe⟩
    (Sink.flush ⟨some (cfg.path fileName .keyRecipe),content .keyRecipe⟩
      (Sink.flush ⟨some (cfg.path fileName .recipe),content .recipe⟩ fs))

theorem closeFiles_self {fileName : Bytes} {content : Kind → Bytes} {fs : Files Bytes UInt8}
    (h : ∀ k, fs (cfg.path fileName k) = some []) (k : Kind) :
    closeFiles cfg fileName content fs (cfg.path fileName k) = some (content k) := by
  cases k <;> simp [closeFiles,Sink.flush,h]

theorem closeFiles_ne {fileName : Bytes} {content : Kind → Bytes} {fs : Files Bytes UInt8} {p : Bytes}
    (h : ∀ k, p ≠ cfg.path fileName k) : closeFiles cfg fileName content fs p = fs p := by
  rw [closeFiles,flush_ne (h _),flush_ne (h _),flush_ne (h _)]

theorem closeRecipes_writing {fileName : Bytes} {content : Kind → Bytes}
    (h : Writing cfg r fileName content) :
    closeRecipe .secureRecipe (closeRecipe .keyRecipe (closeRecipe .recipe r)) = { r with
      files := closeFiles cfg fileName content r.files
      writeHandler := fun _ => closed } := by
  rw [closeRecipe_open (h.handler .recipe)]
  rw [closeRecipe_open (k := .keyRecipe) (by simpa using h.handler .keyRecipe)]
  rw [closeRecipe_open (k := .secureRecipe) (by simpa using h.handler .secureRecipe)]
  congr 1
  funext k
  cases k <;> simp

/-- The destructor closes the key recipe twice and leaves the secure recipe to its
stream, and all three files are written all the same. -/
theorem deleteClientVar_writing {fileName : Bytes} {content : Kind → Bytes}
    (h : Writing cfg r fileName content) :
    (deleteClientVar r).files = closeFiles cfg fileName content r.files := by
  have hopen : destoryUploadBuffer r = closeRecipe .keyRecipe (closeRecipe .recipe r) := by
    rw [destoryUploadBuffer,closeRecipe_open (h.handler .recipe)]
    rw [closeRecipe_open (k := .keyRecipe) (by simpa using h.handler .keyRecipe)]
    rw [closeRecipe_closed (k := .keyRecipe) (by simp)]
    simp
  rw [deleteClientVar,hopen,closeRecipes_writing h,closeRecipe_closed rfl,closeRecipe_closed rfl]

theorem openRecipes_writing (cfg : Configure) (fileName : Bytes) (head : FileRecipeHead)
    (r : Receiver) :
    Writing cfg (openRecipes cfg fileName head r) fileName fun _ => head.bytes := by
  constructor
  · intro k
    cases k <;> simp [openRecipes,openRecipe,opened]
  · intro k
    cases k <;> simp [openRecipes,openRecipe,openTrunc]

theorem openRecipes_files_ne {fileName p : Bytes} (head : FileRecipeHead)
    (h : ∀ k, p ≠ cfg.path fileName k) : (openRecipes cfg fileName head r).files p = r.files p := by
  simp [openRecipes,openRecipe,openTrunc,h]

def At (cfg : Configure) (r : Receiver) (o : Opening) : Prop := Writing cfg r o.fileName o.content

theorem content_openingOf (m : Message) (k : Kind) :
    (openingOf m).content k = (openingOf m).head.bytes := by
  simp [Opening.content,Opening.body,openingOf]

theorem content_append (o : Opening) (m : Message) (k : Kind) :
    Opening.content { o with batches := o.batches ++ [m] } k =
      o.content k ++ if m.header.messageType = uploadType k then m.payload else [] := by
  by_cases h : m.header.messageType = uploadType k
  · simp [Opening.content,Opening.body,h]
  · simp [Opening.content,Opening.body,h]

theorem read_payload (buf : SendMsgBuffer) (h : ItemBatch m)
    (hfit : m.payload.length ≤ recvChunkBufSize) :
    read (receiveData m buf).dataBuffer 0 (u32 (m.header.currentItemNum*chunkHashSize)) = m.payload ∧
      read (receiveData m buf).dataBuffer 0 m.header.dataSize = m.payload := by
  have hcount : u32 (m.header.currentItemNum*chunkHashSize) = m.payload.length := by
    rw [h.2,h.1,Nat.mul_comm,u32_of_lt]
    rw [← h.1,← h.2]
    exact Nat.lt_of_le_of_lt hfit (by decide)
  rw [hcount,← h.2]
  exact ⟨read_write_self _ 0 _,read_write_self _ 0 _⟩

theorem writing_put {o : Opening} (h : At cfg r o) {r' : Receiver} {k : Kind}
    (hk : m.header.messageType = uploadType k) (hfiles : r'.files = r.files)
    (hhandler : r'.writeHandler = Function.update r.writeHandler k
      ((r.writeHandler k).put m.payload)) :
    At cfg r' { o with batches := o.batches ++ [m] } := by
  refine ⟨?_,fun k' => hfiles ▸ h.truncated k'⟩
  intro k'
  rw [hhandler,content_append]
  by_cases hkk : k' = k
  · subst hkk
    simp [h.handler,hk]
  · have hother : ¬ m.header.messageType = uploadType k' := by
      rw [hk]
      cases k <;> cases k' <;> simp_all [uploadType]
    simp [h.handler,hkk,hother]

theorem writing_same {o : Opening} (h : At cfg r o) {r' : Receiver}
    (hm : ∀ k, m.header.messageType ≠ uploadType k) (hfiles : r'.files = r.files)
    (hhandler : r'.writeHandler = r.writeHandler) :
    At cfg r' { o with batches := o.batches ++ [m] } := by
  refine ⟨?_,fun k => hfiles ▸ h.truncated k⟩
  intro k
  rw [hhandler,content_append,h.handler,if_neg (hm k),List.append_nil]

theorem receive_batch (H : Digest) (uuid : ℕ → Bytes) {o : Opening} (h : At cfg r o) (hm : InSession m) (hs : Served m)
    (hnew : m.header.messageType ≠ .edgeMigrationNewfile) :
    ∃ r', receive H uuid cfg m r = .ok r' ∧ At cfg r' { o with batches := o.batches ++ [m] } ∧
      r'.files = r.files := by
  rw [receive,if_pos hs.2]
  have hread : ItemBatch m → _ := fun hb => read_payload r.recvChunkBuf hb hs.2
  have hkey := hs.1
  have htype : (receiveData m r.recvChunkBuf).header.messageType = m.header.messageType := rfl
  unfold InSession at hm
  cases ht : m.header.messageType <;> simp only [ht] at hm htype <;> simp only [dispatch,htype]
  case edgeUploadRecipe =>
    refine ⟨_,rfl,writing_put h (k := .recipe) ht rfl ?_,rfl⟩
    simp only [writeRecipe]
    exact congrArg (fun b => Function.update r.writeHandler .recipe (Sink.put _ b)) (hread hm).1
  case edgeUploadKeyRecipe =>
    refine ⟨_,rfl,writing_put h (k := .keyRecipe) ht rfl ?_,rfl⟩
    simp only [writeRecipe]
    exact congrArg (fun b => Function.update r.writeHandler .keyRecipe (Sink.put _ b)) (hread hm).1
  case edgeUploadSecRecipe =>
    refine ⟨_,rfl,writing_put h (k := .secureRecipe) ht rfl ?_,rfl⟩
    simp only [sendBuffer,processRecipeBatch,writeRecipe]
    exact congrArg (fun b => Function.update r.writeHandler .secureRecipe (Sink.put _ b)) (hread hm).2
  case edgeMigrationNewfile => exact absurd ht hnew
  case edgeUploadKeyRecipeEnd => exact absurd ht hkey
  case edgeMigrationChunk =>
    exact ⟨_,rfl,writing_same h (by intro k; cases k <;> simp [ht,uploadType]) rfl rfl,rfl⟩
  case edgeMigrationChunkFinal =>
    exact ⟨_,rfl,writing_same h (by intro k; cases k <;> simp [ht,uploadType]) rfl rfl,rfl⟩
  case edgeUploadRecipeEnd =>
    exact ⟨_,rfl,writing_same h (by intro k; cases k <;> simp [ht,uploadType]) rfl rfl,rfl⟩
  case edgeUploadSecRecipeEnd =>
    exact ⟨_,rfl,writing_same h (by intro k; cases k <;> simp [ht,uploadType]) rfl rfl,rfl⟩

theorem openingOf_received (buf : SendMsgBuffer)
    (hlen : fileNameLength+headSize ≤ m.payload.length) :
    fileNameOf (receiveData m buf).dataBuffer = (openingOf m).fileName ∧
      headOf (receiveData m buf).dataBuffer fileNameLength = (openingOf m).head := by
  constructor
  · simp [fileNameOf,receiveData,openingOf,read_write_part buf.dataBuffer m.payload
      (show 0+fileNameLength ≤ m.payload.length by omega)]
  · simp [headOf,receiveData,openingOf,read_write_part buf.dataBuffer m.payload
      (show fileNameLength+headSize ≤ m.payload.length by omega)]

theorem receive_newfile (H : Digest) (uuid : ℕ → Bytes) {o : Opening} (h : At cfg r o)
    (hm : NamesFile m) (hs : Served m) (hnew : m.header.messageType = .edgeMigrationNewfile) :
    ∃ r', receive H uuid cfg m r = .ok r' ∧ At cfg r' (openingOf m) ∧
      ∀ p, (∀ k, p ≠ cfg.path (openingOf m).fileName k) →
        r'.files p = closeFiles cfg o.fileName o.content r.files p := by
  obtain ⟨hname,hhead⟩ := openingOf_received r.recvChunkBuf hm.1.ge
  have htype : (receiveData m r.recvChunkBuf).header.messageType = .edgeMigrationNewfile := hnew
  rw [receive,if_pos hs.2]
  simp only [dispatch,htype,hname,hhead]
  refine ⟨_,rfl,?_,?_⟩
  · have hopen := openRecipes_writing cfg (openingOf m).fileName (openingOf m).head
      (closeRecipe .secureRecipe (closeRecipe .keyRecipe
        (closeRecipe .recipe { r with recvChunkBuf := receiveData m r.recvChunkBuf })))
    exact ⟨fun k => (hopen.handler k).trans (by rw [content_openingOf]),hopen.truncated⟩
  · intro p hp
    have hw : Writing cfg { r with recvChunkBuf := receiveData m r.recvChunkBuf } o.fileName o.content :=
      ⟨h.handler,h.truncated⟩
    rw [changeFile,openRecipes_files_ne _ hp,closeRecipes_writing hw]

/-- The content that a list of openings leaves under a name, over an old directory. -/
def stored (cfg : Configure) (fs : Files Bytes UInt8) (os : List Opening) (fileName : Bytes)
    (k : Kind) : Option Bytes :=
  match lastOpened fileName os with
  | some o => some (o.content k)
  | none => fs (cfg.path fileName k)

theorem lastOpened_current (o : Opening) (ms : List Message) :
    (lastOpened o.fileName (openings o ms)).isSome := by
  induction ms generalizing o with
  | nil => simp [openings,lastOpened]
  | cons m ms ih =>
    by_cases hnew : m.header.messageType = .edgeMigrationNewfile
    · simp [openings,hnew,lastOpened]
    · simpa [openings,hnew] using ih { o with batches := o.batches ++ [m] }

theorem closeSession_files {o : Opening} (h : At cfg r o) :
    (closeSession r).files = closeFiles cfg o.fileName o.content r.files :=
  deleteClientVar_writing (r := { r with client := StorageCore.lastContainer r.client })
    ⟨h.handler,h.truncated⟩

theorem closeFiles_stored {o : Opening} {fs : Files Bytes UInt8}
    (htrunc : ∀ k, fs (cfg.path o.fileName k) = some []) {fileName : Bytes}
    (hlen : fileName.length = o.fileName.length) (k : Kind) :
    closeFiles cfg o.fileName o.content fs (cfg.path fileName k) = stored cfg fs [o] fileName k := by
  by_cases hn : o.fileName = fileName
  · subst hn
    simp [stored,lastOpened,closeFiles_self htrunc]
  · rw [closeFiles_ne fun k' => path_ne hlen (Ne.symm hn) k k']
    simp [stored,lastOpened,hn]

theorem inSession_newfile (hm : InSession m)
    (hnew : m.header.messageType = .edgeMigrationNewfile) : NamesFile m := by
  simpa [InSession,hnew] using hm

theorem fileName_length (hm : NamesFile m) : (openingOf m).fileName.length = fileNameLength := hm.2.1

theorem receiveAll_stored (H : Digest) (uuid : ℕ → Bytes) {o : Opening}
    (ho : o.fileName.length = fileNameLength) (h : At cfg r o) {ms : List Message}
    (hms : ∀ m ∈ ms, InSession m) (hserved : ∀ m ∈ ms, Served m) :
    ∃ r', receiveAll H uuid cfg ms r = .ok r' ∧ ∀ fileName k, fileName.length = fileNameLength →
      (closeSession r').files (cfg.path fileName k) =
        stored cfg r.files (openings o ms) fileName k := by
  induction ms generalizing r o with
  | nil =>
    refine ⟨r,rfl,?_⟩
    intro fileName k hlen
    rw [closeSession_files h]
    exact closeFiles_stored h.truncated (hlen.trans ho.symm) k
  | cons m ms ih =>
    have hm := hms m (by simp)
    have hs := hserved m (by simp)
    by_cases hnew : m.header.messageType = .edgeMigrationNewfile
    · have hnames := inSession_newfile hm hnew
      obtain ⟨r₁,hr₁,hat,hfiles⟩ := receive_newfile H uuid h hnames hs hnew
      obtain ⟨r',hr',hstored⟩ := ih (fileName_length hnames) hat
        (fun m' hm' => hms m' (by simp [hm'])) fun m' hm' => hserved m' (by simp [hm'])
      refine ⟨r',by simp [receiveAll,hr₁,hr',bind,Except.bind],?_⟩
      intro fileName k hlen
      rw [hstored fileName k hlen,openings,if_pos hnew]
      -- a name that is not opened again later has what this opening wrote, or what was there
      cases hlast : lastOpened fileName (openings (openingOf m) ms) with
      | some o' => simp [stored,lastOpened,hlast]
      | none =>
        have hne : fileName ≠ (openingOf m).fileName := by
          rintro rfl
          simpa [hlast] using lastOpened_current (openingOf m) ms
        have hother : ∀ k', cfg.path fileName k ≠ cfg.path (openingOf m).fileName k' :=
          fun k' => path_ne (hlen.trans (fileName_length hnames).symm) hne k k'
        have hclosed := closeFiles_stored h.truncated (hlen.trans ho.symm) k
        simp only [stored,lastOpened,hlast,Option.none_or] at hclosed ⊢
        rw [hfiles _ hother,hclosed]
    · obtain ⟨r₁,hr₁,hat,hfiles⟩ := receive_batch H uuid h hm hs hnew
      obtain ⟨r',hr',hstored⟩ := ih (o := { o with batches := o.batches ++ [m] }) ho hat
        (fun m' hm' => hms m' (by simp [hm'])) fun m' hm' => hserved m' (by simp [hm'])
      refine ⟨r',by simp [receiveAll,hr₁,hr',bind,Except.bind],?_⟩
      intro fileName k hlen
      rw [hstored fileName k hlen,openings,if_neg hnew,hfiles]

theorem exists_of_bind_ok {α β : Type} {x : Except Fault α} {f : α → Except Fault β} {b : β}
    (h : x >>= f = .ok b) : ∃ a, x = .ok a ∧ f a = .ok b := by
  cases x with
  | error e => cases h
  | ok a => exact ⟨a,rfl,h⟩

/-- A message that is not served ends the process. -/
theorem served_of_receive {r' : Receiver} (h : receive H uuid cfg m r = .ok r') : Served m := by
  unfold receive at h
  split_ifs at h with hfit
  refine ⟨?_,hfit⟩
  intro hkey
  have htype : (receiveData m r.recvChunkBuf).header.messageType = .edgeUploadKeyRecipeEnd := hkey
  simp [dispatch,htype] at h

theorem served_of_receiveAll {ms : List Message} {r' : Receiver}
    (h : receiveAll H uuid cfg ms r = .ok r') : ∀ m ∈ ms, Served m := by
  induction ms generalizing r with
  | nil => simp
  | cons m ms ih =>
    obtain ⟨r₁,hr,hrest⟩ := exists_of_bind_ok h
    intro m' hm'
    rcases List.mem_cons.mp hm' with rfl | hin
    · exact served_of_receive hr
    · exact ih hrest m' hin

/-- A session whose messages are all served leaves, under every name, the header and
the batches of the last opening. -/
theorem uploadSession_stored (H : Digest) (uuid : ℕ → Bytes) (cfg : Configure) (env : Environment)
    {login : Message} (hlogin : NamesFile login)
    {ms : List Message} (hms : ∀ m ∈ ms, InSession m) (hserved : ∀ m ∈ ms, Served m) :
    ∃ r, uploadSession H uuid cfg env login ms = .ok r ∧ ∀ fileName k o,
      lastOpened fileName (openings (openingOf login) ms) = some o →
      fileName.length = fileNameLength → r.files (cfg.path fileName k) = some (o.content k) := by
  have hat : At cfg (edgeUploadThread uuid cfg env login) (openingOf login) := by
    obtain ⟨hname,hhead⟩ := openingOf_received env.recvBuf hlogin.1.ge
    simp only [edgeUploadThread,hname,hhead]
    have hopen := openRecipes_writing cfg (openingOf login).fileName (openingOf login).head
    exact ⟨fun k => ((hopen _).handler k).trans (by rw [content_openingOf]),
      fun k => (hopen _).truncated k⟩
  obtain ⟨r,hr,hstored⟩ := receiveAll_stored H uuid (fileName_length hlogin) hat hms
    hserved
  refine ⟨closeSession r,by simp [uploadSession,hr,Except.map],?_⟩
  intro fileName k o ho hlen
  rw [hstored fileName k hlen,stored,ho]

theorem served_of_uploadSession {env : Environment} {login : Message} {ms : List Message}
    {r : Receiver} (h : uploadSession H uuid cfg env login ms = .ok r) : ∀ m ∈ ms, Served m := by
  unfold uploadSession at h
  cases hr : receiveAll H uuid cfg ms (edgeUploadThread uuid cfg env login) with
  | error e => simp [hr,Except.map] at h
  | ok r₁ => exact served_of_receiveAll hr

end RecipeUpload
end CloudServer
