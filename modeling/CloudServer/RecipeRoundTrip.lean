import CloudServer.RecipeUpload
import CloudServer.RecipeSender

/-! Recipes come back as they were uploaded. The loop of the sender is described by one
round; a whole download is put together from its conversations. -/
namespace CloudServer
namespace RecipeRoundTrip

open ByteMemory InputStream Interaction Interaction.Prog RecipeUpload RecipeSender
open DataReceiver hiding Fault Environment sendBuffer
open RecvDecoder (Message SendMsgBuffer)

/-- A client that reports ready whenever it is waited for, with messages that fit the
buffer, and a transport that delivers. -/
def polite (bufferSize : ℕ) : (q : Request) → Reply q → Prop
  | .receiveReady, r => ∃ m : Message, r = some m ∧ m.header.messageType = .edgeReceiveReady ∧
      m.payload.length ≤ bufferSize
  | .receiveLast, r => ∀ m : Message, r = some m → m.payload.length ≤ bufferSize
  | .sendData _, r => r = true

def sentMessages (qs : List Request) : List Message :=
  qs.filterMap fun
    | .sendData m => some m
    | _ => none

@[simp] theorem sentMessages_append (qs qs' : List Request) :
    sentMessages (qs++qs') = sentMessages qs ++ sentMessages qs' := List.filterMap_append

@[simp] theorem sentMessages_nil : sentMessages [] = [] := rfl

@[simp] theorem sentMessages_ready (qs : List Request) :
    sentMessages (.receiveReady::qs) = sentMessages qs := rfl

@[simp] theorem sentMessages_send (m : Message) (qs : List Request) :
    sentMessages (.sendData m::qs) = m::sentMessages qs := rfl

structure IsBatch (bound : ℕ) (messageType : MessageType) (m : Message) : Prop where
  nonempty : m.payload ≠ []
  messageType : m.header.messageType = messageType
  dataSize : m.header.dataSize = m.payload.length
  currentItemNum : m.header.currentItemNum = m.header.dataSize/chunkHashSize
  small : m.header.dataSize ≤ bound

structure Batches (bound : ℕ) (messageType : MessageType) (body : Bytes) (ms : List Message) :
    Prop where
  each : ∀ m ∈ ms, IsBatch bound messageType m
  content : ms.flatMap Message.payload = body

/-- The batches of the body are within the transport's lengths. -/
def Sendable (bufferSize : ℕ) (body : Bytes) : Prop :=
  body = [] ∨ 0 < bufferSize ∧ 16+min bufferSize body.length < 2^31

variable {n fuel : ℕ} {t : MessageType} {buf : SendMsgBuffer} {body : Bytes} {qs : List Request}

theorem talk_sendData {size : ℕ} {out : Except Fault Unit}
    (h : Talk (polite n) (sendData buf size) qs out) :
    (16+size < 2^31 ∧ qs = [.sendData ⟨buf.header,read buf.dataBuffer 0 size⟩] ∧ out = .ok ()) ∨
    (2^31 ≤ 16+size ∧ qs = [] ∧ out = .error .lengthOverflow) := by
  unfold sendData at h
  split_ifs at h with hsize
  · change Talk (polite n) (.ask (.sendData _) fun success : Bool =>
      if success then .ret () else .fail .sendError) qs out at h
    cases h with
    | ask hr hrest =>
      obtain rfl : _ = true := hr
      cases hrest
      exact Or.inl ⟨hsize,rfl,rfl⟩
  · cases h
    exact Or.inr ⟨by omega,rfl,rfl⟩

theorem talk_receiveReady {out : Except Fault SendMsgBuffer}
    (h : Talk (polite n) (receiveReady n buf) qs out) :
    qs = [.receiveReady] ∧ ∃ buf', out = .ok buf' := by
  change Talk (polite n) (.ask .receiveReady _) qs out at h
  cases h with
  | ask hr hrest =>
    obtain ⟨m,rfl,htype,hfit⟩ := hr
    change Talk (polite n) (if m.header.messageType = .edgeReceiveReady then intoBuffer n m buf
      else .fail .wrongType) _ out at hrest
    simp only [htype,if_true,intoBuffer,hfit] at hrest
    cases hrest
    exact ⟨rfl,_,rfl⟩

theorem talk_pure {α : Type} {a : α} {out : Except Fault α}
    (h : Talk (polite n) (pure a : Sender α) qs out) : qs = [] ∧ out = .ok a := by
  cases h
  exact ⟨rfl,rfl⟩

def batchMessage (t : MessageType) (got : Bytes) (buf : SendMsgBuffer) : Message :=
  ⟨(fillBuffer t got buf).header,got.take (u32 got.length)⟩

theorem talk_round {out : Except Fault SendMsgBuffer} (hn : 0 < n) (hbody : body ≠ [])
    (h : Talk (polite n) (sendRecipe n t (fuel+1) (opened body) buf) qs out) :
    (2^31 ≤ 16+u32 (min n body.length) ∧ out = .error .lengthOverflow) ∨
    (16+u32 (min n body.length) < 2^31 ∧ ∃ qs' buf',
      qs = .sendData (batchMessage t (body.take n) buf)::.receiveReady::qs' ∧
      ((body.length < n ∧ qs' = [] ∧ out = .ok buf') ∨
        (n ≤ body.length ∧ Talk (polite n) (sendRecipe n t fuel (opened (body.drop n)) buf') qs' out))) := by
  have hgot : (get (opened body) n).1 = body.take n := by
    rcases Nat.lt_or_ge body.length n with hlt | hge
    · rw [get_short hlt,List.take_of_length_le (by omega)]
    · rw [get_full hge]
  have hlen : (body.take n).length = min n body.length := List.length_take
  have hpos : (body.take n).length ≠ 0 := by
    have := List.length_pos_of_ne_nil hbody
    omega
  have hpayload : read (fillBuffer t (body.take n) buf).dataBuffer 0 (u32 (body.take n).length) =
      (body.take n).take (u32 (body.take n).length) := by
    rw [fillBuffer,read_write_part _ _ (by rw [Nat.zero_add]; exact Nat.mod_le _ _),List.drop_zero]
  simp only [sendRecipe,hgot,hpos,if_false] at h
  rcases talk_bind h with ⟨e,rfl,he⟩ | ⟨_,qs₁,qs₂,rfl,h₁,h₂⟩
  · rcases talk_sendData he with ⟨_,_,hok⟩ | ⟨hlong,_,herr⟩
    · simp at hok
    · exact Or.inl ⟨hlen ▸ hlong,by rw [Except.error.inj herr]⟩
  · rcases talk_sendData h₁ with ⟨hshort,rfl,_⟩ | ⟨_,_,herr⟩
    · refine Or.inr ⟨hlen ▸ hshort,?_⟩
      rcases talk_bind h₂ with ⟨e,_,he⟩ | ⟨buf',qs₃,qs₄,rfl,h₃,h₄⟩
      · obtain ⟨_,_,hok⟩ := talk_receiveReady he
        simp at hok
      · obtain ⟨rfl,_⟩ := talk_receiveReady h₃
        refine ⟨qs₄,buf',?_,?_⟩
        · simp only [batchMessage,← hpayload]
          rfl
        · rcases Nat.lt_or_ge body.length n with hlt | hge
          · simp only [get_short hlt,if_true] at h₄
            exact Or.inl ⟨hlt,talk_pure h₄⟩
          · simp only [get_full hge] at h₄
            exact Or.inr ⟨hge,h₄⟩
    · simp at herr

/-- The loop ends at once on an empty body, and when a batch has no room. -/
theorem talk_idle {out : Except Fault SendMsgBuffer} (hidle : body = [] ∨ n = 0)
    (h : Talk (polite n) (sendRecipe n t (fuel+1) (opened body) buf) qs out) : qs = [] ∧ out = .ok buf := by
  have hget : (get (opened body) n).1 = [] := by
    rcases Nat.eq_zero_or_pos n with rfl | hn
    · rw [get_full (Nat.zero_le _),List.take_zero]
    · rcases hidle with rfl | rfl
      · rw [get_end n hn]
      · omega
  simp only [sendRecipe,hget,List.length_nil,if_true] at h
  exact talk_pure h

theorem isBatch_message {got : Bytes} (hne : got ≠ []) (hn : got.length ≤ n)
    (hshort : got.length < 2^31) (buf : SendMsgBuffer) : IsBatch n t (batchMessage t got buf) := by
  have hsize : u32 got.length = got.length := u32_of_lt (by omega)
  have hcount : u32 (got.length/chunkHashSize) = got.length/chunkHashSize :=
    u32_of_lt (by have := Nat.div_le_self got.length chunkHashSize; omega)
  have hpayload : (batchMessage t got buf).payload = got := by
    rw [batchMessage,hsize,List.take_length]
  exact ⟨by rw [hpayload]; exact hne,rfl,by rw [hpayload]; exact hsize,
    by simp only [batchMessage,fillBuffer,hsize,hcount],by simp only [batchMessage,fillBuffer,hsize]; exact hn⟩

theorem batches_nil : Batches n t [] [] := ⟨by simp,rfl⟩

theorem batches_cons {got rest : Bytes} {m : Message} {ms : List Message} (hm : IsBatch n t m)
    (hgot : m.payload = got) (hms : Batches n t rest ms) : Batches n t (got++rest) (m::ms) := by
  refine ⟨?_,by rw [List.flatMap_cons,hgot,hms.content]⟩
  intro m' hm'
  rcases List.mem_cons.mp hm' with rfl | hin
  · exact hm
  · exact hms.each m' hin

/-- The whole loop sends the body, with batches that end exactly at its end or not. -/
theorem talk_sendRecipe {out : Except Fault SendMsgBuffer} (hn : 0 < n)
    (hsize : 16+min n body.length < 2^31) (hfuel : body.length < fuel)
    (h : Talk (polite n) (sendRecipe n t fuel (opened body) buf) qs out) :
    ∃ buf', out = .ok buf' ∧ Batches n t body (sentMessages qs) := by
  induction fuel generalizing body buf qs with
  | zero => omega
  | succ fuel ih =>
    by_cases hbody : body = []
    · subst hbody
      obtain ⟨rfl,rfl⟩ := talk_idle (Or.inl rfl) h
      exact ⟨buf,rfl,batches_nil⟩
    · have hu : u32 (min n body.length) = min n body.length := u32_of_lt (by omega)
      have hlen : (body.take n).length = min n body.length := List.length_take
      have hne : body.take n ≠ [] := by
        have := List.length_pos_of_ne_nil hbody
        exact List.ne_nil_of_length_pos (by omega)
      have hmessage : IsBatch n t (batchMessage t (body.take n) buf) :=
        isBatch_message hne (by omega) (by omega) buf
      have hpayload : (batchMessage t (body.take n) buf).payload = body.take n := by
        rw [batchMessage,hlen,hu,← hlen,List.take_length]
      rcases talk_round hn hbody h with ⟨hlong,_⟩ | ⟨_,qs',buf',rfl,hrest⟩
      · omega
      · rcases hrest with ⟨hshort,rfl,rfl⟩ | ⟨hfull,hrest⟩
        · refine ⟨buf',rfl,?_⟩
          have hall := batches_cons hmessage hpayload batches_nil
          have htake : body.take n = body := List.take_of_length_le (by omega)
          rw [List.append_nil,htake] at hall
          rw [htake]
          exact hall
        · have hdrop : (body.drop n).length = body.length-n := List.length_drop
          obtain ⟨buf'',rfl,hbatches⟩ := ih (by omega) (by omega) hrest
          refine ⟨buf'',rfl,?_⟩
          have hall := batches_cons hmessage hpayload hbatches
          rw [List.take_append_drop] at hall
          exact hall

def SentAs (t : MessageType) (bound : ℕ) (qs : List Request) : Prop :=
  (∀ m ∈ sentMessages qs, m.header.messageType = t) ∧
    ((sentMessages qs).flatMap Message.payload).length ≤ bound

theorem sentAs_nil (bound : ℕ) : SentAs t bound [] := by
  simp [SentAs]

theorem sentAs_round (buf : SendMsgBuffer) (got : Bytes) {bound : ℕ} {qs' : List Request} (h : SentAs t bound qs') :
    SentAs t (min got.length (u32 got.length)+bound)
      (.sendData (batchMessage t got buf)::.receiveReady::qs') := by
  refine ⟨?_,?_⟩
  · intro m hm
    rw [sentMessages_send,sentMessages_ready] at hm
    rcases List.mem_cons.mp hm with rfl | hin
    · rfl
    · exact h.1 m hin
  · have hle := h.2
    rw [sentMessages_send,sentMessages_ready,List.flatMap_cons,List.length_append,batchMessage,List.length_take,
      Nat.min_comm]
    omega

theorem talk_sendRecipe_le {out : SendMsgBuffer}
    (h : Talk (polite n) (sendRecipe n t fuel (opened body) buf) qs (.ok out)) :
    SentAs t body.length qs := by
  induction fuel generalizing body buf qs with
  | zero => cases h
  | succ fuel ih =>
    by_cases hidle : body = [] ∨ n = 0
    · obtain ⟨rfl,_⟩ := talk_idle hidle h
      exact sentAs_nil _
    · obtain ⟨hbody,hn⟩ := not_or.mp hidle
      have hlen : (body.take n).length = min n body.length := List.length_take
      rcases talk_round (Nat.pos_of_ne_zero hn) hbody h with ⟨_,herr⟩ | ⟨_,qs',buf',rfl,hrest⟩
      · simp at herr
      · rcases hrest with ⟨_,rfl,_⟩ | ⟨hfull,hrest⟩
        · have hround := sentAs_round buf (body.take n) (sentAs_nil (t := t) 0)
          exact ⟨hround.1,hround.2.trans (by omega)⟩
        · have hround := sentAs_round buf (body.take n) (ih hrest)
          rw [List.length_drop] at hround
          exact ⟨hround.1,hround.2.trans (by omega)⟩

/-- A loop over a body that is not sendable does not send all of it. -/
theorem talk_sendRecipe_lt {out : SendMsgBuffer} (hbad : ¬ Sendable n body)
    (h : Talk (polite n) (sendRecipe n t fuel (opened body) buf) qs (.ok out)) :
    ((sentMessages qs).flatMap Message.payload).length < body.length := by
  obtain ⟨hbody,hsize⟩ := not_or.mp hbad
  have hpos := List.length_pos_of_ne_nil hbody
  cases fuel with
  | zero => cases h
  | succ fuel =>
    rcases Nat.eq_zero_or_pos n with hn | hn
    · obtain ⟨rfl,_⟩ := talk_idle (Or.inr hn) h
      simpa using hpos
    · have hlong : 2^31 ≤ 16+min n body.length := by
        by_contra hlt
        exact hsize ⟨hn,by omega⟩
      have hlen : (body.take n).length = min n body.length := List.length_take
      rcases talk_round hn hbody h with ⟨_,herr⟩ | ⟨hwrap,qs',buf',rfl,hrest⟩
      · simp at herr
      · -- the length was cut to 32 bits, so the batch is shorter than what was read
        have hless : u32 (body.take n).length < (body.take n).length := by
          rw [hlen]
          omega
        rcases hrest with ⟨_,rfl,_⟩ | ⟨hfull,hrest⟩
        · have hround := (sentAs_round buf (body.take n) (sentAs_nil (t := t) 0)).2
          omega
        · have hround := (sentAs_round buf (body.take n) (talk_sendRecipe_le hrest)).2
          rw [List.length_drop] at hround
          omega

def sendType : Kind → MessageType
  | .recipe => .cloudSendRecipe
  | .keyRecipe => .cloudSendKeyRecipe
  | .secureRecipe => .cloudSendSecureRecipe

def LoopTalk (n : ℕ) (body : Kind → Bytes) (k : Kind) (qs : List Request)
    (out : Except Fault SendMsgBuffer) : Prop :=
  ∃ buf, Talk (polite n) (sendFile n (sendType k) (opened (body k)) buf) qs out

def IsEnd (m : Message) : Prop :=
  m.header.messageType = .cloudSendRecipeEnd ∧ m.header.currentItemNum = 0 ∧
    m.header.dataSize = 0 ∧ m.payload = []

/-- A finished download: its loops, and the messages they add up to. -/
structure Sent (n : ℕ) (body : Kind → Bytes) (qs : List Request) : Prop where
  parts : ∃ (q : Kind → List Request) (last : Message),
    (∀ k, ∃ buf, LoopTalk n body k (q k) (.ok buf)) ∧ IsEnd last ∧
    sentMessages qs = sentMessages (q .recipe) ++ sentMessages (q .secureRecipe) ++
      sentMessages (q .keyRecipe) ++ [last]

theorem talk_last {out : Except Fault Unit}
    (h : Talk (polite n) (do
      match ← awaitLast with
      | none => pure ()
      | some m => do
        let _ ← intoBuffer n m buf
        pure ()) qs out) : sentMessages qs = [] ∧ out = .ok () := by
  rcases talk_bind h with ⟨e,_,he⟩ | ⟨reply,qs₁,qs₂,rfl,h₁,h₂⟩
  · change Talk (polite n) (.ask .receiveLast .ret) qs (.error e) at he
    cases he with
    | ask hr hrest => cases hrest
  · change Talk (polite n) (.ask .receiveLast .ret) qs₁ (.ok reply) at h₁
    cases h₁ with
    | ask hr hrest =>
      cases hrest
      cases reply with
      | none =>
        obtain ⟨rfl,rfl⟩ := talk_pure h₂
        exact ⟨rfl,rfl⟩
      | some m =>
        have hfit : m.payload.length ≤ n := hr m rfl
        simp only [intoBuffer,hfit,if_true] at h₂
        obtain ⟨rfl,rfl⟩ := talk_pure h₂
        exact ⟨rfl,rfl⟩

theorem talk_run {batch : ℕ} {body : Kind → Bytes} {head : Bytes} (hhead : head.length = headSize)
    {out : Except Fault Unit}
    (h : Talk (polite (readSize batch)) (run batch (opened (body .recipe)) (opened (head ++ body .secureRecipe))
      (opened (head ++ body .keyRecipe)) buf) qs out) :
    (∃ e k q, out = .error e ∧ LoopTalk (readSize batch) body k q (.error e)) ∨
    (out = .ok () ∧ Sent (readSize batch) body qs) := by
  unfold run at h
  rw [get_append_of_length hhead,get_append_of_length hhead] at h
  rcases talk_bind h with ⟨e,_,he⟩ | ⟨buf₀,q₀,_,rfl,h₀,hloops⟩
  · obtain ⟨_,_,hok⟩ := talk_receiveReady he
    simp at hok
  obtain ⟨rfl,_⟩ := talk_receiveReady h₀
  rcases talk_bind hloops with ⟨e,rfl,he⟩ | ⟨buf₁,q₁,_,rfl,h₁,hloops'⟩
  · exact Or.inl ⟨e,.recipe,_,rfl,_,he⟩
  rcases talk_bind hloops' with ⟨e,rfl,he⟩ | ⟨buf₂,q₂,_,rfl,h₂,hloop⟩
  · exact Or.inl ⟨e,.secureRecipe,_,rfl,_,he⟩
  rcases talk_bind hloop with ⟨e,rfl,he⟩ | ⟨buf₃,q₃,_,rfl,h₃,htail⟩
  · exact Or.inl ⟨e,.keyRecipe,_,rfl,_,he⟩
  rcases talk_bind htail with ⟨e,_,he⟩ | ⟨_,q₄,q₅,rfl,h₄,h₅⟩
  · rcases talk_sendData he with ⟨_,_,hok⟩ | ⟨hlong,_⟩
    · simp at hok
    · omega
  obtain ⟨hlast,rfl⟩ := talk_last h₅
  rcases talk_sendData h₄ with ⟨_,rfl,_⟩ | ⟨hlong,_⟩
  · refine Or.inr ⟨rfl,fun | .recipe => q₁ | .secureRecipe => q₂ | .keyRecipe => q₃,
      ⟨(endBuffer buf₃).header,[]⟩,?_,⟨rfl,rfl,rfl,rfl⟩,?_⟩
    · intro k
      cases k
      · exact ⟨buf₁,_,h₁⟩
      · exact ⟨buf₃,_,h₃⟩
      · exact ⟨buf₂,_,h₂⟩
    · simp [hlast]
  · omega

structure IsDownloadLogin (fileName : Bytes) (m : Message) : Prop where
  messageType : m.header.messageType = .edgeDownloadRecipeLogin
  fits : m.payload.length ≤ fileNameLength+headSize
  fileName : m.payload.take fileNameLength = fileName

def IsResponse (head : FileRecipeHead) (m : Message) : Prop :=
  m.header.messageType = .edgeLoginResponse ∧ m.payload.length = headSize ∧
    FileRecipeHead.parse m.payload = head

theorem bytes_length (head : FileRecipeHead) : head.bytes.length = headSize := rfl

theorem parse_bytes {head : FileRecipeHead} (hs : head.fileSize < 2^64)
    (hn : head.totalChunkNum < 2^64) : FileRecipeHead.parse head.bytes = head := by
  have htake : head.bytes.take 8 = leBytes64 head.fileSize := rfl
  have hdrop : (head.bytes.drop 8).take 8 = leBytes64 head.totalChunkNum := rfl
  rw [FileRecipeHead.parse,htake,hdrop,leWord_leBytes64 hs,leWord_leBytes64 hn]

theorem parse_lt (b : Bytes) :
    (FileRecipeHead.parse b).fileSize < 2^64 ∧ (FileRecipeHead.parse b).totalChunkNum < 2^64 := by
  have hword : ∀ c : Bytes, leWord (c.take 8) < 2^64 := by
    intro c
    calc leWord (c.take 8) < 256^(c.take 8).length := leWord_lt _
      _ ≤ 256^8 := Nat.pow_le_pow_right (by decide) (List.length_take_le 8 c)
      _ = 2^64 := by norm_num
  exact ⟨hword b,hword (b.drop 8)⟩

theorem talk_download {cfg : Configure} {env : Environment} {login : Message} {fileName : Bytes}
    {head : FileRecipeHead} {body : Kind → Bytes} (hname : fileName.length = fileNameLength)
    (hlogin : IsDownloadLogin fileName login) (hs : head.fileSize < 2^64)
    (hn : head.totalChunkNum < 2^64)
    (hfiles : ∀ k, env.files (cfg.path fileName k) = some (head.bytes ++ body k))
    {out : Except Fault Unit}
    (h : Talk (polite (readSize cfg.sendRecipeBatchSize)) (edgeDownloadRecipeThread cfg env login)
      qs out) :
    (∃ e k q, out = .error e ∧ LoopTalk (readSize cfg.sendRecipeBatchSize) body k q (.error e)) ∨
    (out = .ok () ∧ ∃ response qs', IsResponse head response ∧
      Sent (readSize cfg.sendRecipeBatchSize) body qs' ∧
      sentMessages qs = response::sentMessages qs') := by
  have hread : fileNameOf (receiveData login env.recvBuf).dataBuffer = fileName := by
    have hlen : fileNameLength ≤ login.payload.length := by
      have := congrArg List.length hlogin.fileName
      rw [List.length_take,hname] at this
      omega
    rw [fileNameOf,receiveData,read_write_part _ _ (by omega),List.drop_zero,hlogin.fileName]
  unfold edgeDownloadRecipeThread at h
  simp only [hread,hfiles] at h
  rw [get_append_of_length (bytes_length head)] at h
  rcases talk_bind h with ⟨e,_,he⟩ | ⟨_,q₀,qs',rfl,h₀,hrun⟩
  · rcases talk_sendData he with ⟨_,_,hok⟩ | ⟨hlong,_⟩
    · simp at hok
    · simp [headSize] at hlong
  · rcases talk_sendData h₀ with ⟨_,rfl,_⟩ | ⟨hlong,_⟩
    · rcases talk_run (bytes_length head) hrun with herr | ⟨rfl,hsent⟩
      · exact Or.inl herr
      · refine Or.inr ⟨rfl,_,qs',⟨rfl,read_length _ _ _,?_⟩,hsent,rfl⟩
        have hpayload : read (loginResponse (receiveData login env.recvBuf) head.bytes).dataBuffer 0
            headSize = head.bytes := read_write_self _ 0 head.bytes
        rw [hpayload,parse_bytes hs hn]
    · simp [headSize] at hlong

/-- The messages of a download that returns an opening: the header in the login
response, the three recipes in batches, and one end. -/
def Delivers (batch : ℕ) (o : Opening) (ms : List Message) : Prop :=
  ∃ (response : Message) (part : Kind → List Message) (last : Message),
    ms = response::(part .recipe ++ part .secureRecipe ++ part .keyRecipe ++ [last]) ∧
    IsResponse o.head response ∧
    (∀ k, Batches (chunkHashSize*batch) (sendType k) (o.body k) (part k)) ∧ IsEnd last

theorem filter_part {part : Kind → List Message}
    (h : ∀ k, ∀ m ∈ part k, m.header.messageType = sendType k) (k k' : Kind) :
    (part k').filter (fun m => m.header.messageType = sendType k) = if k' = k then part k' else [] := by
  split_ifs with hk
  · subst hk
    exact List.filter_eq_self.mpr fun m hm => by simpa using h k' m hm
  · refine List.filter_eq_nil_iff.mpr fun m hm => ?_
    rw [h k' m hm]
    cases k <;> cases k' <;> simp_all [sendType]

theorem filter_parts {response last : Message} {part : Kind → List Message}
    (hr : response.header.messageType = .edgeLoginResponse)
    (hl : last.header.messageType = .cloudSendRecipeEnd)
    (hp : ∀ k, ∀ m ∈ part k, m.header.messageType = sendType k) (k : Kind) :
    (response::(part .recipe ++ part .secureRecipe ++ part .keyRecipe ++ [last])).filter
      (fun m => m.header.messageType = sendType k) = part k := by
  simp only [List.filter_cons,List.filter_append,filter_part hp,hr,hl,List.filter_nil]
  cases k <;> simp [sendType]

/-- What the name and the header of an opening satisfy when they come from a message. -/
def Sound (o : Opening) : Prop :=
  o.fileName.length = fileNameLength ∧ o.head.fileSize < 2^64 ∧ o.head.totalChunkNum < 2^64

theorem sound_openingOf {m : Message} (h : NamesFile m) : Sound (openingOf m) :=
  ⟨fileName_length h,parse_lt _⟩

theorem sound_openings {o : Opening} (ho : Sound o) {ms : List Message}
    (hms : ∀ m ∈ ms, InSession m) : ∀ o' ∈ openings o ms, Sound o' := by
  induction ms generalizing o with
  | nil =>
    intro o' ho'
    rw [List.mem_singleton.mp ho']
    exact ho
  | cons m ms ih =>
    have hrest : ∀ m' ∈ ms, InSession m' := fun m' hm' => hms m' (by simp [hm'])
    intro o' ho'
    by_cases hnew : m.header.messageType = .edgeMigrationNewfile
    · rw [openings,if_pos hnew] at ho'
      rcases List.mem_cons.mp ho' with rfl | hin
      · exact ho
      · exact ih (sound_openingOf (inSession_newfile (hms m (by simp)) hnew)) hrest o' hin
    · rw [openings,if_neg hnew] at ho'
      exact ih (o := { o with batches := o.batches ++ [m] }) ho hrest o' ho'

theorem lastOpened_mem {fileName : Bytes} {os : List Opening} {o : Opening}
    (h : lastOpened fileName os = some o) : o ∈ os ∧ o.fileName = fileName := by
  induction os with
  | nil => simp [lastOpened] at h
  | cons o' os ih =>
    rcases Option.or_eq_some_iff.mp h with hlater | ⟨_,hthis⟩
    · exact ⟨by simp [(ih hlater).1],(ih hlater).2⟩
    · split_ifs at hthis with hn
      obtain rfl := Option.some.inj hthis
      exact ⟨by simp,hn⟩

theorem polite_reply (n : ℕ) (q : Request) : ∃ r, polite n q r := by
  cases q with
  | receiveReady => exact ⟨some ⟨⟨.edgeReceiveReady,0,0,0⟩,[]⟩,_,rfl,rfl,Nat.zero_le _⟩
  | receiveLast => exact ⟨none,by simp [polite]⟩
  | sendData m => exact ⟨true,rfl⟩

theorem readSize_le (batch : ℕ) : readSize batch ≤ chunkHashSize*batch := Nat.mod_le _ _

/-- Every batch size whose batches fit a message serves every body. -/
theorem sendable_of_batch {batch : ℕ} (hpos : 1 ≤ batch) (hfit : 16+chunkHashSize*batch < 2^31)
    (body : Bytes) : Sendable (readSize batch) body := by
  simp only [chunkHashSize] at hfit
  have hsize : readSize batch = 32*batch := Nat.mod_eq_of_lt (by simp only [chunkHashSize]; omega)
  right
  rw [hsize]
  omega

theorem loopTalk_sendable {body : Kind → Bytes} {k : Kind} {out : Except Fault SendMsgBuffer}
    (hsend : Sendable n (body k)) (h : LoopTalk n body k qs out) :
    ∃ buf, out = .ok buf ∧ Batches n (sendType k) (body k) (sentMessages qs) := by
  obtain ⟨buf,htalk⟩ := h
  rcases hsend with hempty | ⟨hn,hsize⟩
  · rw [hempty] at htalk ⊢
    obtain ⟨rfl,rfl⟩ := talk_idle (Or.inl rfl) htalk
    exact ⟨buf,rfl,batches_nil⟩
  · exact talk_sendRecipe hn hsize (Nat.lt_succ_self _) htalk

theorem Batches.mono {bound bound' : ℕ} {ms : List Message} (h : Batches bound t body ms)
    (hle : bound ≤ bound') : Batches bound' t body ms :=
  ⟨fun m hm => { h.each m hm with small := (h.each m hm).small.trans hle },h.content⟩

/-- The download of an opening delivers it if and only if its bodies are sendable. -/
theorem download_iff {cfg : Configure} {env : Environment} {login : Message} {o : Opening}
    (ho : Sound o) (hlogin : IsDownloadLogin o.fileName login)
    (hfiles : ∀ k, env.files (cfg.path o.fileName k) = some (o.content k)) :
    Completes (polite (readSize cfg.sendRecipeBatchSize)) (edgeDownloadRecipeThread cfg env login)
        (fun qs _ => Delivers cfg.sendRecipeBatchSize o (sentMessages qs)) ↔
      ∀ k, Sendable (readSize cfg.sendRecipeBatchSize) (o.body k) := by
  constructor
  · intro hall k
    obtain ⟨qs,out,htalk⟩ := talk_exists (polite_reply _) (edgeDownloadRecipeThread cfg env login)
    obtain ⟨_,rfl,response,part,last,hms,hresponse,hbatches,hend⟩ := hall qs out htalk
    rcases talk_download ho.1 hlogin ho.2.1 ho.2.2 hfiles htalk with ⟨e,_,_,herr,_⟩ |
      ⟨_,response',qs',hresponse',⟨q,last',hloop,hend',hsent⟩,hall'⟩
    · simp at herr
    · by_contra hbad
      have hpart := filter_parts hresponse.1 hend.1 (fun k m hm => ((hbatches k).each m hm).messageType) k
      have htypes : ∀ k, ∀ m ∈ sentMessages (q k), m.header.messageType = sendType k := by
        intro k'
        obtain ⟨_,_,hk⟩ := hloop k'
        exact (talk_sendRecipe_le hk).1
      have hpart' := filter_parts hresponse'.1 hend'.1 htypes k
      rw [← hsent,← hall',hms,hpart] at hpart'
      obtain ⟨_,_,hk⟩ := hloop k
      have hlt := talk_sendRecipe_lt hbad hk
      rw [← hpart',(hbatches k).content] at hlt
      omega
  · intro hsend qs out htalk
    rcases talk_download ho.1 hlogin ho.2.1 ho.2.2 hfiles htalk with ⟨e,k,_,rfl,hloop⟩ |
      ⟨rfl,response,qs',hresponse,⟨q,last,hloop,hend,hsent⟩,hms⟩
    · obtain ⟨_,hok,_⟩ := loopTalk_sendable (hsend k) hloop
      simp at hok
    · refine ⟨(),rfl,response,fun k => sentMessages (q k),last,by rw [hms,hsent],hresponse,?_,hend⟩
      intro k
      obtain ⟨_,hk⟩ := hloop k
      obtain ⟨_,_,hbatches⟩ := loopTalk_sendable (hsend k) hk
      exact hbatches.mono (readSize_le _)

/-- After the session every file that was opened in it can be downloaded as it was
uploaded since its last opening. -/
def RoundTrips (H : PlainIndex.Digest) (uuid : ℕ → Bytes) (cfg : Configure)
    (env : DataReceiver.Environment) (login : Message) (ms : List Message) : Prop :=
  ∃ r, uploadSession H uuid cfg env login ms = .ok r ∧
    ∀ fileName o, lastOpened fileName (openings (openingOf login) ms) = some o →
      ∀ recvBuf sendRecipeBuf download, IsDownloadLogin fileName download →
        Completes (polite (readSize cfg.sendRecipeBatchSize))
          (edgeDownloadRecipeThread cfg ⟨r.files,recvBuf,sendRecipeBuf⟩ download)
          fun qs _ => Delivers cfg.sendRecipeBatchSize o (sentMessages qs)

/-- Recipes round trip: a session brings back every file it opened if and only if it
holds no end marker of a key recipe and no message that overruns the receive buffer,
and the batches of the recipes stay within the lengths of the transport. The last
condition is met by every batch size from one on whose batches fit a message. -/
theorem recipe_round_trip_iff (H : PlainIndex.Digest) (uuid : ℕ → Bytes) (cfg : Configure)
    (env : DataReceiver.Environment) (login : Message) (ms : List Message)
    (hlogin : login.header.messageType = .edgeMigrateLogin ∧ NamesFile login)
    (hms : ∀ m ∈ ms, InSession m) :
    (RoundTrips H uuid cfg env login ms ↔
      (∀ m ∈ ms, Served m) ∧
      ∀ fileName o k, lastOpened fileName (openings (openingOf login) ms) = some o →
        Sendable (readSize cfg.sendRecipeBatchSize) (o.body k)) ∧
    (1 ≤ cfg.sendRecipeBatchSize → 16+chunkHashSize*cfg.sendRecipeBatchSize < 2^31 →
      ∀ body, Sendable (readSize cfg.sendRecipeBatchSize) body) := by
  have hsound := sound_openings (sound_openingOf hlogin.2) hms
  refine ⟨⟨?_,?_⟩,sendable_of_batch⟩
  · rintro ⟨r,hr,hdownload⟩
    have hserved := served_of_uploadSession hr
    refine ⟨hserved,?_⟩
    intro fileName o k ho
    obtain ⟨r',hr',hstored⟩ := uploadSession_stored H uuid cfg env hlogin.2 hms hserved
    obtain rfl := Except.ok.inj (hr.symm.trans hr')
    obtain ⟨hmem,rfl⟩ := lastOpened_mem ho
    have hs := hsound o hmem
    have hdl : IsDownloadLogin o.fileName ⟨⟨.edgeDownloadRecipeLogin,0,0,0⟩,o.fileName⟩ :=
      ⟨rfl,by simp [hs.1],by rw [List.take_of_length_le (Nat.le_of_eq hs.1)]⟩
    exact (download_iff hs hdl fun k => hstored _ k o ho hs.1).mp
      (hdownload _ o ho ⟨⟨.edgeLoginResponse,0,0,0⟩,fun _ => 0⟩ ⟨⟨.edgeLoginResponse,0,0,0⟩,fun _ => 0⟩
        _ hdl) k
  · rintro ⟨hserved,hsend⟩
    obtain ⟨r,hr,hstored⟩ := uploadSession_stored H uuid cfg env hlogin.2 hms hserved
    refine ⟨r,hr,?_⟩
    intro fileName o ho recvBuf sendRecipeBuf download hdl
    obtain ⟨hmem,rfl⟩ := lastOpened_mem ho
    have hs := hsound o hmem
    exact (download_iff hs hdl fun k => hstored _ k o ho hs.1).mpr fun k => hsend _ o k ho

def opensFile (t : MessageType) (c : UInt8) (head : FileRecipeHead) : Message :=
  ⟨⟨t,7,80,0⟩,List.replicate 64 c ++ head.bytes⟩

def items (t : MessageType) (count : ℕ) (c : UInt8) : Message :=
  ⟨⟨t,7,32*count,count⟩,List.replicate (32*count) c⟩

@[simp] theorem opensFile_type (t : MessageType) (c : UInt8) (head : FileRecipeHead) :
    (opensFile t c head).header.messageType = t := rfl

@[simp] theorem items_type (t : MessageType) (count : ℕ) (c : UInt8) :
    (items t count c).header.messageType = t := rfl

@[simp] theorem opensFile_length (t : MessageType) (c : UInt8) (head : FileRecipeHead) :
    (opensFile t c head).payload.length = 80 := by
  rw [opensFile,List.length_append,List.length_replicate,bytes_length]
  rfl

@[simp] theorem items_length (t : MessageType) (count : ℕ) (c : UInt8) :
    (items t count c).payload.length = 32*count := List.length_replicate

theorem namesFile_opensFile (t : MessageType) {c : UInt8} (hc : 0 ≠ c ∧ 47 ≠ c)
    (head : FileRecipeHead) : NamesFile (opensFile t c head) := by
  have htake : (opensFile t c head).payload.take fileNameLength = List.replicate 64 c :=
    List.take_left' (by simp [fileNameLength,chunkHashSize])
  refine ⟨opensFile_length t c head,?_⟩
  rw [htake]
  exact ⟨by simp [fileNameLength,chunkHashSize],by simp [hc],by simp [hc]⟩

theorem itemBatch_items (t : MessageType) (count : ℕ) (c : UInt8) : ItemBatch (items t count c) :=
  ⟨rfl,items_length t count c⟩

def threeOpenings : List Message :=
  [items .edgeUploadRecipe 3 1,items .edgeUploadSecRecipe 2 4,
    opensFile .edgeMigrationNewfile 66 ⟨2^40,5⟩,items .edgeUploadKeyRecipe 4 2,
    ⟨⟨.edgeUploadRecipeEnd,7,0,0⟩,[]⟩,opensFile .edgeMigrationNewfile 65 ⟨96,3⟩,
    items .edgeUploadRecipe 2 8]

def emptyStore : DataReceiver.Environment :=
  ⟨fun _ => none,⟨∅,0,0,0⟩,⟨[],0,fun _ => 0,0,fun _ => 0,0⟩,⟨⟨.edgeLoginResponse,0,0,0⟩,fun _ => 0⟩,
    ⟨⟨.edgeLoginResponse,0,0,0⟩,fun _ => 0⟩⟩

def constDigest : PlainIndex.Digest := ⟨fun _ => List.replicate chunkHashSize 0,fun _ => by simp⟩

theorem recipe_round_trip_three_openings :
    RoundTrips constDigest (fun n => [UInt8.ofNat n]) ⟨ascii ['R','/'],2⟩ emptyStore
      (opensFile .edgeMigrateLogin 65 ⟨64,2⟩) threeOpenings := by
  have htrip := recipe_round_trip_iff constDigest (fun n => [UInt8.ofNat n]) ⟨ascii ['R','/'],2⟩
    emptyStore (opensFile .edgeMigrateLogin 65 ⟨64,2⟩) threeOpenings
    ⟨rfl,namesFile_opensFile _ (by decide) _⟩ (by
      simp only [threeOpenings,List.forall_mem_cons]
      exact ⟨itemBatch_items _ 3 1,itemBatch_items _ 2 4,namesFile_opensFile _ (by decide) _,
        itemBatch_items _ 4 2,trivial,namesFile_opensFile _ (by decide) _,itemBatch_items _ 2 8,by simp⟩)
  refine htrip.1.mpr ⟨?_,fun _ o k _ => htrip.2 (by decide) (by decide) (o.body k)⟩
  simp [threeOpenings,Served,recvChunkBufSize,sendChunkBatchSize,maxChunkSize]

/-- The end marker of a key recipe has no case in the switch and ends the process. -/
def keyRecipeEnd : List Message :=
  [items .edgeUploadKeyRecipe 1 2,⟨⟨.edgeUploadKeyRecipeEnd,7,0,0⟩,[]⟩]

theorem key_recipe_end_unserved :
    NamesFile (opensFile .edgeMigrateLogin 65 ⟨64,2⟩) ∧ (∀ m ∈ keyRecipeEnd, InSession m) ∧
    ¬ RoundTrips constDigest (fun n => [UInt8.ofNat n]) ⟨ascii ['R','/'],2⟩ emptyStore
      (opensFile .edgeMigrateLogin 65 ⟨64,2⟩) keyRecipeEnd := by
  refine ⟨namesFile_opensFile _ (by decide) _,?_,?_⟩
  · simp only [keyRecipeEnd,List.forall_mem_cons]
    exact ⟨itemBatch_items _ 1 2,trivial,by simp⟩
  · rintro ⟨r,hr,_⟩
    have hserved := served_of_uploadSession hr ⟨⟨.edgeUploadKeyRecipeEnd,7,0,0⟩,[]⟩
      (by simp [keyRecipeEnd])
    exact hserved.1 rfl

end RecipeRoundTrip
end CloudServer
