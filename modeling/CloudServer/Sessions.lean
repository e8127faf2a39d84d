import CloudServer.RecipeSender

/-! A whole session of `ServerOptThread::Run`: the login, the lock of the client, one of
the three handlers with its worker, and the clean-up. What a session acquires and
releases are actions of its program; everything else it asks its surroundings for. -/
namespace CloudServer
namespace Sessions

open ByteMemory InputStream Interaction Interaction.Prog
open RecvDecoder (Message SendMsgBuffer)
open DataReceiver (Configure headSize fileNameOf)

/-- What `curClient` can be when it is deleted. -/
inductive Pointer
  | uninitialised
  | clientVar
  deriving DecidableEq

inductive Action
  | lock (clientID : ℕ)
  | newClientVar
  | delete (p : Pointer)
  | clearAcceptedClientSd
  | unlock (clientID : ℕ)
  deriving DecidableEq

/-- `sharedState` is the index as the other sessions have left it. -/
inductive Request
  | receiveData
  | sendData (m : Message)
  | sharedState
  | readIndexStore (key : Bytes)
  | openContainer (containerNameStr : Bytes)
  | perform (a : Action)

def Reply : Request → Type
  | .receiveData => Option Message
  | .sendData _ => Bool
  | .sharedState => PlainIndex.Shared
  | .readIndexStore _ => Option Bytes
  | .openContainer _ => Option Bytes
  | .perform _ => Unit

/-- The ways in which a session ends the process before it comes to the end of `Run`. -/
inductive Fault
  | recvLogin
  | loginType
  | recvReady
  | sendError
  | receiver (f : DataReceiver.Fault)
  | sender (f : RecipeSender.Fault)
  | decoder (f : RecvDecoder.Fault)
  | fuel

abbrev Server := Prog Reply Fault

def receiveData : Server (Option Message) := request (R := Reply) .receiveData
def sendData (m : Message) : Server Bool := request (R := Reply) (.sendData m)
def sharedState : Server PlainIndex.Shared := request (R := Reply) .sharedState
def perform (a : Action) : Server Unit := request (R := Reply) (.perform a)

def sendOrExit (m : Message) : Server Unit := do
  let success ← sendData m
  if success then pure () else fail .sendError

def sendAnswers : List Message → Server Unit
  | [] => pure ()
  | m::ms => do
    let _ ← sendData m
    sendAnswers ms

structure Host where
  H : PlainIndex.Digest
  uuid : ℕ → Bytes
  cfg : Configure
  upload : DataReceiver.Environment
  recipe : RecipeSender.Environment
  download : RecvDecoder.ClientVar
  readCacheSize : ℕ
  pool : Mem (Mem UInt8)

/-- `DataReceiver::Run`, for at most `fuel` messages. -/
def dataReceiverRun (h : Host) : ℕ → DataReceiver.Receiver → Server DataReceiver.Receiver
  | 0, _ => fail .fuel
  | fuel+1, r => do
    match ← receiveData with
    | none => do
      perform .clearAcceptedClientSd
      pure r
    | some m => do
      let shared ← sharedState
      match DataReceiver.receive h.H h.uuid h.cfg m { r with shared := shared } with
      | .error f => fail (.receiver f)
      | .ok r' => do
        sendAnswers (r'.sent.drop r.sent.length)
        dataReceiverRun h fuel r'

def edgeUploadThread (h : Host) (fuel : ℕ) (login : Message) : Server Unit := do
  perform .newClientVar
  sendOrExit ⟨{ login.header with messageType := .edgeLoginResponse },[]⟩
  let _ ← dataReceiverRun h fuel (DataReceiver.edgeUploadThread h.uuid h.cfg h.upload login)
  perform (.delete .clientVar)

/-- Only the receive after the end of the recipes looks at a connection that was closed. -/
def senderRequest : (q : RecipeSender.Request) → Server (RecipeSender.Reply q)
  | .receiveReady => receiveData
  | .receiveLast => do
    match ← receiveData with
    | none => do
      perform .clearAcceptedClientSd
      pure none
    | some m => pure (some m)
  | .sendData m => sendData m

/-- Without the three files no `ClientVar` is built, and `curClient` is deleted all the
same. -/
def edgeDownloadRecipeThread (h : Host) (login : Message) : Server Unit :=
  let recvBuf := DataReceiver.receiveData login h.recipe.recvBuf
  let fileName := fileNameOf recvBuf.dataBuffer
  if (h.recipe.files (h.cfg.path fileName .recipe)).isSome ∧
      (h.recipe.files (h.cfg.path fileName .secureRecipe)).isSome ∧
      (h.recipe.files (h.cfg.path fileName .keyRecipe)).isSome then do
    perform .newClientVar
    handle senderRequest .sender (RecipeSender.edgeDownloadRecipeThread h.cfg h.recipe login)
    perform (.delete .clientVar)
  else do
    handle senderRequest .sender (RecipeSender.sendData
      { recvBuf with header := { recvBuf.header with messageType := .cloudFileNonExist } } headSize)
    perform (.delete .uninitialised)

def decoderRequest : (q : RecvDecoder.Request) → Server (RecvDecoder.Reply q)
  | .readIndexStore key => request (R := Reply) (.readIndexStore key)
  | .openContainer name => do
    match ← request (R := Reply) (.openContainer name) with
    | some content => pure content
    | none => fail (.decoder (.cannotOpen name))
  | .sendData m => sendOrExit m

def decoderLoop : ℕ → RecvDecoder.ClientVar → Server RecvDecoder.ClientVar
  | 0, _ => fail .fuel
  | fuel+1, c => do
    match ← receiveData with
    | none => do
      perform .clearAcceptedClientSd
      pure c
    | some m => do
      let c ← handle decoderRequest .decoder (RecvDecoder.receiveRequest m c)
      decoderLoop fuel c

def recvDecoderRun (fuel : ℕ) (c : RecvDecoder.ClientVar) : Server RecvDecoder.ClientVar := do
  match ← receiveData with
  | none => fail .recvReady
  | some m => do
    let c ← handle decoderRequest .decoder (RecvDecoder.receiveReady m c)
    decoderLoop fuel c

def edgeDownloadChunkThread (h : Host) (fuel : ℕ) (login : Message) : Server Unit := do
  perform .newClientVar
  sendOrExit ⟨{ login.header with messageType := .edgeLoginResponse },[]⟩
  let _ ← recvDecoderRun fuel
    (RecvDecoder.initDownloadChunkBuffer h.download login.header.clientID h.readCacheSize h.pool)
  perform (.delete .clientVar)

def dispatch (h : Host) (fuel : ℕ) (login : Message) : Server Unit :=
  match login.header.messageType with
  | .edgeMigrateLogin => edgeUploadThread h fuel login
  | .edgeDownloadRecipeLogin => edgeDownloadRecipeThread h login
  | .edgeDownloadChunkLogin => edgeDownloadChunkThread h fuel login
  | _ => fail .loginType

def run (h : Host) (fuel : ℕ) : Server Unit := do
  match ← receiveData with
  | none => fail .recvLogin
  | some login => do
    perform (.lock login.header.clientID)
    dispatch h fuel login
    perform (.unlock login.header.clientID)

/-- A client that still sends `messages` and then closes, and what the session has
done so far. -/
structure Peer where
  messages : List Message
  actions : List Action

/-- The answers of the surroundings. Whether a send succeeds, and what the index and
the container files hold, is left open. -/
def peer : (q : Request) → Peer → Reply q → Peer → Prop
  | .receiveData, s, r, s' => r = s.messages.head? ∧ s' = { s with messages := s.messages.tail }
  | .perform a, s, _, s' => s' = { s with actions := s.actions ++ [a] }
  | .sendData _, s, _, s' | .sharedState, s, _, s' | .readIndexStore _, s, _, s'
  | .openContainer _, s, _, s' => s' = s

section Conversations

variable {h : Host} {fuel : ℕ} {s s' : Peer}

theorem converse_perform {a : Action} {u : Unit} (hc : Converse peer (perform a) s s' (.ok u)) :
    s' = { s with actions := s.actions ++ [a] } :=
  converse_request hc

theorem converse_receive {r : Option Message} (hc : Converse peer receiveData s s' (.ok r)) :
    r = s.messages.head? ∧ s' = { s with messages := s.messages.tail } :=
  converse_request hc

theorem converse_send {m : Message} {b : Bool} (hc : Converse peer (sendData m) s s' (.ok b)) :
    s' = s :=
  converse_request hc

theorem converse_sendOrExit {m : Message} {u : Unit}
    (hc : Converse peer (sendOrExit m) s s' (.ok u)) : s' = s := by
  obtain ⟨b,s₁,hsend,hrest⟩ := converse_bind hc
  obtain rfl := converse_send hsend
  cases b with
  | true => exact (converse_pure hrest).1
  | false => cases hrest

theorem converse_sendAnswers {ms : List Message} {u : Unit}
    (hc : Converse peer (sendAnswers ms) s s' (.ok u)) : s' = s := by
  induction ms generalizing s with
  | nil => exact (converse_pure hc).1
  | cons m ms ih =>
    obtain ⟨b,s₁,hsend,hrest⟩ := converse_bind hc
    obtain rfl := converse_send hsend
    exact ih hrest

theorem converse_clear {α : Type} {a b : α}
    (hc : Converse peer (do perform .clearAcceptedClientSd; pure a) s s' (.ok b)) :
    s'.actions = s.actions ++ [.clearAcceptedClientSd] := by
  obtain ⟨_,s₁,hclear,hrest⟩ := converse_bind hc
  obtain rfl := converse_perform hclear
  rw [(converse_pure hrest).1]

theorem converse_dataReceiverRun {r r' : DataReceiver.Receiver}
    (hc : Converse peer (dataReceiverRun h fuel r) s s' (.ok r')) :
    s'.actions = s.actions ++ [.clearAcceptedClientSd] := by
  induction fuel generalizing r s with
  | zero => cases hc
  | succ fuel ih =>
    obtain ⟨reply,s₁,hrecv,hrest⟩ := converse_bind hc
    obtain ⟨_,rfl⟩ := converse_receive hrecv
    cases reply with
    | none =>
      have hclear := converse_clear hrest
      exact hclear
    | some m =>
      obtain ⟨shared,s₂,hshared,hrest⟩ := converse_bind hrest
      obtain rfl : s₂ = _ := converse_request hshared
      cases hm : DataReceiver.receive h.H h.uuid h.cfg m { r with shared := shared } with
      | error f =>
        simp only [hm] at hrest
        cases hrest
      | ok r₁ =>
        simp only [hm] at hrest
        obtain ⟨_,s₃,hsend,hloop⟩ := converse_bind hrest
        obtain rfl := converse_sendAnswers hsend
        have htail := ih hloop
        exact htail

theorem converse_decoder {α : Type} {p : RecvDecoder.Decoder α} {a : α}
    (hc : Converse peer (handle decoderRequest .decoder p) s s' (.ok a)) : s' = s := by
  have hsilent : ∀ (q : RecvDecoder.Request) (t t' : Peer) (r : RecvDecoder.Reply q),
      Converse peer (decoderRequest q) t t' (.ok r) → t' = t := by
    intro q t t' r hq
    cases q with
    | readIndexStore key => exact converse_request (R := Reply) hq
    | openContainer name =>
      obtain ⟨content,t₁,hopen,hrest⟩ := converse_bind hq
      obtain rfl : t₁ = t := converse_request hopen
      cases content with
      | some bytes => exact (converse_pure hrest).1
      | none => cases hrest
    | sendData m => exact converse_sendOrExit hq
  have hp := converse_handle (fun _ t _ t' => t' = t) hsilent hc
  exact converse_silent (fun _ _ _ _ heq => heq) hp

theorem converse_decoderLoop {c c' : RecvDecoder.ClientVar}
    (hc : Converse peer (decoderLoop fuel c) s s' (.ok c')) :
    s'.actions = s.actions ++ [.clearAcceptedClientSd] := by
  induction fuel generalizing c s with
  | zero => cases hc
  | succ fuel ih =>
    obtain ⟨reply,s₁,hrecv,hrest⟩ := converse_bind hc
    obtain ⟨_,rfl⟩ := converse_receive hrecv
    cases reply with
    | none =>
      have hclear := converse_clear hrest
      exact hclear
    | some m =>
      obtain ⟨c₁,s₂,hbatch,hloop⟩ := converse_bind hrest
      obtain rfl := converse_decoder hbatch
      have htail := ih hloop
      exact htail

theorem converse_recvDecoderRun {c c' : RecvDecoder.ClientVar}
    (hc : Converse peer (recvDecoderRun fuel c) s s' (.ok c')) :
    s'.actions = s.actions ++ [.clearAcceptedClientSd] := by
  obtain ⟨reply,s₁,hrecv,hrest⟩ := converse_bind hc
  obtain ⟨_,rfl⟩ := converse_receive hrecv
  cases reply with
  | none => cases hrest
  | some m =>
    obtain ⟨c₁,s₂,hready,hloop⟩ := converse_bind hrest
    obtain rfl := converse_decoder hready
    have htail := converse_decoderLoop hloop
    exact htail

end Conversations

def served : (q : RecipeSender.Request) → Peer → RecipeSender.Reply q → Peer → Prop
  | .receiveReady, s, r, s' => r = s.messages.head? ∧ s' = { s with messages := s.messages.tail }
  | .receiveLast, s, r, s' => r = s.messages.head? ∧ s' = ⟨s.messages.tail,
      if s.messages = [] then s.actions ++ [.clearAcceptedClientSd] else s.actions⟩
  | .sendData _, s, _, s' => s' = s

def recipeBatches (bufferSize : ℕ) (file : Bytes) : ℕ :=
  (file.length-headSize+bufferSize-1)/bufferSize

section RecipeDownload

variable {s s' : Peer} {buf buf' : SendMsgBuffer} {n fuel : ℕ} {t : MessageType}

theorem served_request (q : RecipeSender.Request) (s s' : Peer) (r : RecipeSender.Reply q)
    (hc : Converse peer (senderRequest q) s s' (.ok r)) : served q s r s' := by
  cases q with
  | receiveReady => exact converse_receive hc
  | sendData m => exact converse_send hc
  | receiveLast =>
    obtain ⟨reply,s₁,hrecv,hrest⟩ := converse_bind hc
    obtain ⟨rfl,rfl⟩ := converse_receive hrecv
    obtain ⟨messages,actions⟩ := s
    cases messages with
    | nil =>
      obtain ⟨_,s₂,hclear,hrest⟩ := converse_bind hrest
      obtain rfl := converse_perform hclear
      obtain ⟨rfl,rfl⟩ := converse_pure hrest
      exact ⟨rfl,rfl⟩
    | cons m ms =>
      obtain ⟨rfl,rfl⟩ := converse_pure hrest
      exact ⟨rfl,rfl⟩

theorem served_sendData {size : ℕ} {u : Unit}
    (hc : Converse served (RecipeSender.sendData buf size) s s' (.ok u)) : s' = s := by
  unfold RecipeSender.sendData at hc
  split_ifs at hc
  · obtain ⟨b,s₁,hsend,hrest⟩ := converse_bind hc
    obtain rfl : s₁ = s := converse_request hsend
    cases b with
    | true => exact (converse_pure hrest).1
    | false => cases hrest
  · cases hc

theorem served_intoBuffer {m : Message}
    (hc : Converse served (RecipeSender.intoBuffer n m buf) s s' (.ok buf')) : s' = s := by
  unfold RecipeSender.intoBuffer at hc
  split_ifs at hc
  · exact (converse_pure hc).1
  · cases hc

theorem served_receiveReady
    (hc : Converse served (RecipeSender.receiveReady n buf) s s' (.ok buf')) :
    s.messages.length = s'.messages.length+1 ∧ s'.actions = s.actions := by
  obtain ⟨reply,s₁,hrecv,hrest⟩ := converse_bind hc
  obtain ⟨hreply,rfl⟩ : reply = s.messages.head? ∧ s₁ = { s with messages := s.messages.tail } :=
    converse_request hrecv
  obtain ⟨messages,actions⟩ := s
  cases messages with
  | nil =>
    subst hreply
    cases hrest
  | cons m ms =>
    subst hreply
    simp only [List.head?_cons] at hrest
    split_ifs at hrest
    · obtain rfl := served_intoBuffer hrest
      exact ⟨rfl,rfl⟩
    · cases hrest

theorem served_sendRecipe {body : Bytes}
    (hc : Converse served (RecipeSender.sendRecipe n t fuel (opened body) buf) s s' (.ok buf')) :
    s.messages.length = s'.messages.length+(body.length+n-1)/n ∧ s'.actions = s.actions := by
  induction fuel generalizing body buf s with
  | zero => cases hc
  | succ fuel ih =>
    simp only [RecipeSender.sendRecipe] at hc
    rcases Nat.lt_or_ge body.length n with hlt | hge
    · simp only [get_short hlt] at hc
      by_cases hempty : body.length = 0
      · rw [if_pos hempty] at hc
        obtain rfl := (converse_pure hc).1
        have hzero : (body.length+n-1)/n = 0 := Nat.div_eq_of_lt (by omega)
        exact ⟨by omega,rfl⟩
      · rw [if_neg hempty] at hc
        obtain ⟨_,s₁,hsend,hrest⟩ := converse_bind hc
        obtain rfl := served_sendData hsend
        obtain ⟨buf₁,s₂,hready,hrest⟩ := converse_bind hrest
        obtain ⟨hlen,hact⟩ := served_receiveReady hready
        obtain rfl := (converse_pure hrest).1
        have hone : (body.length+n-1)/n = 1 := by
          apply Nat.div_eq_of_lt_le <;> omega
        exact ⟨by omega,hact⟩
    · simp only [get_full hge,List.length_take,Nat.min_eq_left hge] at hc
      by_cases hempty : n = 0
      · rw [if_pos hempty] at hc
        obtain rfl := (converse_pure hc).1
        subst hempty
        exact ⟨by simp,rfl⟩
      · rw [if_neg hempty] at hc
        obtain ⟨_,s₁,hsend,hrest⟩ := converse_bind hc
        obtain rfl := served_sendData hsend
        obtain ⟨buf₁,s₂,hready,hrest⟩ := converse_bind hrest
        obtain ⟨hlen,hact⟩ := served_receiveReady hready
        change Converse served
          (RecipeSender.sendRecipe n t fuel (opened (body.drop n)) buf₁) s₂ s' (.ok buf') at hrest
        obtain ⟨hloop,hact'⟩ := ih hrest
        have hcount : (body.length+n-1)/n = ((body.drop n).length+n-1)/n+1 := by
          rw [← Nat.add_div_right _ (Nat.pos_of_ne_zero hempty),List.length_drop]
          congr 1
          omega
        exact ⟨by omega,hact'.trans hact⟩

theorem served_sendFile {file : Bytes}
    (hc : Converse served (RecipeSender.sendFile n t (get (opened file) headSize).2 buf) s s'
      (.ok buf')) :
    s.messages.length = s'.messages.length+recipeBatches n file ∧ s'.actions = s.actions := by
  rcases Nat.lt_or_ge file.length headSize with hlt | hge
  · rw [get_short hlt] at hc
    obtain rfl := (converse_pure (a := buf) hc).1
    have hzero : recipeBatches n file = 0 := by
      rw [recipeBatches,Nat.sub_eq_zero_of_le (Nat.le_of_lt hlt)]
      rcases Nat.eq_zero_or_pos n with rfl | hpos
      · rfl
      · exact Nat.div_eq_of_lt (by omega)
    exact ⟨by omega,rfl⟩
  · rw [get_full hge] at hc
    have hloop := served_sendRecipe hc
    rwa [List.length_drop] at hloop

/-- The sender takes one message to start and one for each batch; what it does about the
connection depends on whether the client has anything left to say. -/
theorem served_run {batch : ℕ} {recipe secureRecipe keyRecipe : Bytes} {u : Unit}
    (hc : Converse served (RecipeSender.run batch (get (opened recipe) headSize).2
      (opened secureRecipe) (opened keyRecipe) buf) s s' (.ok u)) :
    s'.actions = s.actions ++ if s.messages.length =
        1+recipeBatches (RecipeSender.readSize batch) recipe+
          recipeBatches (RecipeSender.readSize batch) secureRecipe+
          recipeBatches (RecipeSender.readSize batch) keyRecipe
      then [.clearAcceptedClientSd] else [] := by
  obtain ⟨buf₁,s₁,hready,hrest⟩ := converse_bind hc
  obtain ⟨buf₂,s₂,hplain,hrest⟩ := converse_bind hrest
  obtain ⟨buf₃,s₃,hsecure,hrest⟩ := converse_bind hrest
  obtain ⟨buf₄,s₄,hkey,hrest⟩ := converse_bind hrest
  obtain ⟨_,s₅,hend,hlast⟩ := converse_bind hrest
  obtain ⟨hlen₁,hact₁⟩ := served_receiveReady hready
  obtain ⟨hlen₂,hact₂⟩ := served_sendFile hplain
  obtain ⟨hlen₃,hact₃⟩ := served_sendFile hsecure
  obtain ⟨hlen₄,hact₄⟩ := served_sendFile hkey
  obtain rfl := served_sendData hend
  have hactions : s₅.actions = s.actions := by rw [hact₄,hact₃,hact₂,hact₁]
  have hleft : s₅.messages = [] ↔ s.messages.length =
      1+recipeBatches (RecipeSender.readSize batch) recipe+
        recipeBatches (RecipeSender.readSize batch) secureRecipe+
        recipeBatches (RecipeSender.readSize batch) keyRecipe := by
    rw [← List.length_eq_zero_iff]
    omega
  obtain ⟨reply,s₆,hrecv,hrest⟩ := converse_bind hlast
  obtain ⟨hreply,hs₆⟩ : reply = s₅.messages.head? ∧ s₆ = ⟨s₅.messages.tail,
      if s₅.messages = [] then s₅.actions ++ [Action.clearAcceptedClientSd] else s₅.actions⟩ :=
    converse_request hrecv
  have hfinal : s' = s₆ := by
    cases reply with
    | none => exact (converse_pure hrest).1
    | some m =>
      obtain ⟨buf₆,s₇,hinto,hstop⟩ := converse_bind hrest
      exact (converse_pure hstop).1.trans (served_intoBuffer hinto)
  rw [hfinal,hs₆,hactions]
  simp only [hleft]
  split_ifs <;> simp

end RecipeDownload

def mutexActions (actions : List Action) : List Action :=
  actions.filter fun
    | .lock _ | .unlock _ => true
    | _ => false

/-- A session has deleted a `ClientVar` if and only if it built one, and then once; it
has freed its connection once and unlocked the mutex of its client once. -/
structure Released (actions : List Action) : Prop where
  clientVar : actions.count (.delete .clientVar) = actions.count .newClientVar
  once : actions.count .newClientVar ≤ 1
  initialised : .delete .uninitialised ∉ actions
  connection : actions.count .clearAcceptedClientSd = 1
  mutex : ∃ clientID, mutexActions actions = [.lock clientID,.unlock clientID]

/-- A download of recipes finds its three files, and the client sends its readiness for
each batch and closes; other logins are free. -/
def Orderly (h : Host) : List Message → Prop
  | [] => True
  | login::rest => login.header.messageType = .edgeDownloadRecipeLogin →
    let fileName := fileNameOf (DataReceiver.receiveData login h.recipe.recvBuf).dataBuffer
    let bufferSize := RecipeSender.readSize h.cfg.sendRecipeBatchSize
    ∃ recipe secureRecipe keyRecipe, h.recipe.files (h.cfg.path fileName .recipe) = some recipe ∧
      h.recipe.files (h.cfg.path fileName .secureRecipe) = some secureRecipe ∧
      h.recipe.files (h.cfg.path fileName .keyRecipe) = some keyRecipe ∧
      rest.length = 1+recipeBatches bufferSize recipe+recipeBatches bufferSize secureRecipe+
        recipeBatches bufferSize keyRecipe

section Handlers

variable {h : Host} {fuel : ℕ} {login : Message} {s s' : Peer}

theorem released_normal (clientID : ℕ) :
    Released [.lock clientID,.newClientVar,.clearAcceptedClientSd,.delete .clientVar,
      .unlock clientID] := by
  constructor <;> simp [mutexActions]

theorem converse_edgeUploadThread {u : Unit}
    (hc : Converse peer (edgeUploadThread h fuel login) s s' (.ok u)) :
    s'.actions = s.actions ++ [.newClientVar,.clearAcceptedClientSd,.delete .clientVar] := by
  obtain ⟨_,s₁,hnew,hrest⟩ := converse_bind hc
  obtain rfl := converse_perform hnew
  obtain ⟨_,s₂,hsend,hrest⟩ := converse_bind hrest
  obtain rfl := converse_sendOrExit hsend
  obtain ⟨_,s₃,hrun,hdelete⟩ := converse_bind hrest
  have hclear := converse_dataReceiverRun hrun
  obtain rfl := converse_perform hdelete
  simp [hclear]

theorem converse_edgeDownloadChunkThread {u : Unit}
    (hc : Converse peer (edgeDownloadChunkThread h fuel login) s s' (.ok u)) :
    s'.actions = s.actions ++ [.newClientVar,.clearAcceptedClientSd,.delete .clientVar] := by
  obtain ⟨_,s₁,hnew,hrest⟩ := converse_bind hc
  obtain rfl := converse_perform hnew
  obtain ⟨_,s₂,hsend,hrest⟩ := converse_bind hrest
  obtain rfl := converse_sendOrExit hsend
  obtain ⟨_,s₃,hrun,hdelete⟩ := converse_bind hrest
  have hclear := converse_recvDecoderRun hrun
  obtain rfl := converse_perform hdelete
  simp [hclear]

theorem converse_recipes_present {u : Unit} {recipe secureRecipe keyRecipe fileName : Bytes}
    (hname : fileNameOf (DataReceiver.receiveData login h.recipe.recvBuf).dataBuffer = fileName)
    (hrecipe : h.recipe.files (h.cfg.path fileName .recipe) = some recipe)
    (hsecure : h.recipe.files (h.cfg.path fileName .secureRecipe) = some secureRecipe)
    (hkey : h.recipe.files (h.cfg.path fileName .keyRecipe) = some keyRecipe)
    (hc : Converse peer (edgeDownloadRecipeThread h login) s s' (.ok u)) :
    s'.actions = s.actions ++ [.newClientVar] ++ (if s.messages.length =
        1+recipeBatches (RecipeSender.readSize h.cfg.sendRecipeBatchSize) recipe+
          recipeBatches (RecipeSender.readSize h.cfg.sendRecipeBatchSize) secureRecipe+
          recipeBatches (RecipeSender.readSize h.cfg.sendRecipeBatchSize) keyRecipe
      then [.clearAcceptedClientSd] else []) ++ [.delete .clientVar] := by
  simp only [edgeDownloadRecipeThread,hname,hrecipe,hsecure,hkey,Option.isSome_some,and_self,
    if_true] at hc
  obtain ⟨_,s₁,hnew,hrest⟩ := converse_bind hc
  obtain rfl := converse_perform hnew
  obtain ⟨_,s₂,hwork,hdelete⟩ := converse_bind hrest
  obtain rfl := converse_perform hdelete
  have hserved := converse_handle served served_request hwork
  simp only [RecipeSender.edgeDownloadRecipeThread,hname,hrecipe,hsecure,hkey] at hserved
  obtain ⟨_,s₃,hsend,hrun⟩ := converse_bind hserved
  obtain rfl := served_sendData hsend
  simp only [served_run hrun]

theorem converse_recipes_missing {u : Unit} {fileName : Bytes}
    (hname : fileNameOf (DataReceiver.receiveData login h.recipe.recvBuf).dataBuffer = fileName)
    (hmissing : ¬ ((h.recipe.files (h.cfg.path fileName .recipe)).isSome ∧
      (h.recipe.files (h.cfg.path fileName .secureRecipe)).isSome ∧
      (h.recipe.files (h.cfg.path fileName .keyRecipe)).isSome))
    (hc : Converse peer (edgeDownloadRecipeThread h login) s s' (.ok u)) :
    s'.actions = s.actions ++ [.delete .uninitialised] := by
  simp only [edgeDownloadRecipeThread,hname,if_neg hmissing] at hc
  obtain ⟨_,s₁,hsend,hdelete⟩ := converse_bind hc
  obtain rfl := served_sendData (converse_handle served served_request hsend)
  obtain rfl := converse_perform hdelete
  rfl

/-- What the handler of a login does about resources, when it comes to its end. -/
theorem converse_dispatch {rest : List Message} {actions : List Action} {u : Unit}
    (hc : Converse peer (dispatch h fuel login) ⟨rest,actions⟩ s' (.ok u)) :
    (Orderly h (login::rest) ∧ s'.actions =
        actions ++ [.newClientVar,.clearAcceptedClientSd,.delete .clientVar]) ∨
    (¬ Orderly h (login::rest) ∧ (s'.actions = actions ++ [.newClientVar,.delete .clientVar] ∨
      s'.actions = actions ++ [.delete .uninitialised])) := by
  unfold dispatch at hc
  split at hc
  · rename_i htype
    exact Or.inl ⟨by simp [Orderly,htype],converse_edgeUploadThread hc⟩
  · rename_i htype
    generalize hname : fileNameOf (DataReceiver.receiveData login h.recipe.recvBuf).dataBuffer =
      fileName
    by_cases hfiles : (h.recipe.files (h.cfg.path fileName .recipe)).isSome ∧
        (h.recipe.files (h.cfg.path fileName .secureRecipe)).isSome ∧
        (h.recipe.files (h.cfg.path fileName .keyRecipe)).isSome
    · simp only [Option.isSome_iff_exists] at hfiles
      obtain ⟨⟨recipe,hrecipe⟩,⟨secureRecipe,hsecure⟩,keyRecipe,hkey⟩ := hfiles
      have hactions := converse_recipes_present hname hrecipe hsecure hkey hc
      have hiff : Orderly h (login::rest) ↔ rest.length =
          1+recipeBatches (RecipeSender.readSize h.cfg.sendRecipeBatchSize) recipe+
            recipeBatches (RecipeSender.readSize h.cfg.sendRecipeBatchSize) secureRecipe+
            recipeBatches (RecipeSender.readSize h.cfg.sendRecipeBatchSize) keyRecipe := by
        simp [Orderly,htype,hname,hrecipe,hsecure,hkey]
      rw [hiff]
      simp only at hactions
      split_ifs at hactions with hlen
      · exact Or.inl ⟨hlen,by simpa using hactions⟩
      · exact Or.inr ⟨hlen,Or.inl (by simpa using hactions)⟩
    · refine Or.inr ⟨?_,Or.inr (converse_recipes_missing hname hfiles hc)⟩
      intro hord
      obtain ⟨recipe,secureRecipe,keyRecipe,hrecipe,hsecure,hkey,_⟩ := hord htype
      rw [hname] at hrecipe hsecure hkey
      exact hfiles ⟨by simp [hrecipe],by simp [hsecure],by simp [hkey]⟩
  · rename_i htype
    exact Or.inl ⟨by simp [Orderly,htype],converse_edgeDownloadChunkThread hc⟩
  · cases hc

/-- A session that comes to the end of `Run` has released exactly what it acquired if
and only if it was an orderly one. -/
theorem released_iff (h : Host) (fuel : ℕ) (ms : List Message) (s' : Peer)
    (hc : Converse peer (run h fuel) ⟨ms,[]⟩ s' (.ok ())) :
    Released s'.actions ↔ Orderly h ms := by
  obtain ⟨reply,s₁,hrecv,hrest⟩ := converse_bind hc
  obtain ⟨hreply,rfl⟩ := converse_receive hrecv
  cases ms with
  | nil =>
    subst hreply
    cases hrest
  | cons login rest =>
    subst hreply
    obtain ⟨_,s₂,hlock,hrest⟩ := converse_bind hrest
    obtain rfl := converse_perform hlock
    obtain ⟨_,s₃,hwork,hunlock⟩ := converse_bind hrest
    obtain rfl := converse_perform hunlock
    rcases converse_dispatch hwork with ⟨hord,hactions⟩ | ⟨hdis,hactions | hactions⟩
    · simp only [hactions]
      exact ⟨fun _ => hord,fun _ => released_normal _⟩
    · refine ⟨fun hrel => ?_,fun hord => absurd hord hdis⟩
      have hone := hrel.connection
      simp [hactions] at hone
    · refine ⟨fun hrel => ?_,fun hord => absurd hord hdis⟩
      have hinit := hrel.initialised
      simp [hactions] at hinit

end Handlers

section Fuel

variable {h : Host} {fuel : ℕ} {s s' : Peer} {e : Fault}

theorem error_sendOrExit {m : Message} (hc : Converse peer (sendOrExit m) s s' (.error e)) :
    e ≠ .fuel := by
  rcases converse_bind_error hc with hsend | ⟨b,s₁,_,hrest⟩
  · exact (converse_request_error hsend).elim
  · cases b with
    | true => cases hrest
    | false =>
      cases hrest
      simp

theorem error_clear {α : Type} {a : α} :
    ¬ Converse peer (do perform .clearAcceptedClientSd; pure a) s s' (.error e) := by
  intro hc
  rcases converse_bind_error hc with hclear | ⟨_,s₁,_,hstop⟩
  · exact converse_request_error hclear
  · cases hstop

theorem tail_length_lt {ms : List Message} {m : Message} (hm : some m = ms.head?)
    (hlen : ms.length < fuel+1) : ms.tail.length < fuel := by
  cases ms with
  | nil => simp at hm
  | cons a ms => simpa using hlen

theorem error_sendAnswers {ms : List Message} : ¬ Converse peer (sendAnswers ms) s s' (.error e) := by
  induction ms generalizing s with
  | nil =>
    intro hc
    cases hc
  | cons m ms ih =>
    intro hc
    rcases converse_bind_error hc with hsend | ⟨b,s₁,_,hrest⟩
    · exact converse_request_error hsend
    · exact ih hrest

theorem error_decoder {α : Type} {p : RecvDecoder.Decoder α}
    (hc : Converse peer (handle decoderRequest .decoder p) s s' (.error e)) : e ≠ .fuel := by
  rcases converse_handle_error hc with ⟨e₀,rfl⟩ | ⟨q,t,t',hq⟩
  · simp
  · cases q with
    | readIndexStore key => exact (converse_request_error (R := Reply) hq).elim
    | openContainer name =>
      rcases converse_bind_error hq with hopen | ⟨content,t₁,_,hrest⟩
      · exact (converse_request_error hopen).elim
      · cases content with
        | some bytes => cases hrest
        | none =>
          cases hrest
          simp
    | sendData m => exact error_sendOrExit hq

theorem error_sender {α : Type} {p : RecipeSender.Sender α}
    (hc : Converse peer (handle senderRequest .sender p) s s' (.error e)) : e ≠ .fuel := by
  rcases converse_handle_error hc with ⟨e₀,rfl⟩ | ⟨q,t,t',hq⟩
  · simp
  · cases q with
    | receiveReady => exact (converse_request_error (R := Reply) hq).elim
    | sendData m => exact (converse_request_error (R := Reply) hq).elim
    | receiveLast =>
      rcases converse_bind_error hq with hrecv | ⟨reply,t₁,_,hrest⟩
      · exact (converse_request_error hrecv).elim
      · cases reply with
        | none => exact (error_clear hrest).elim
        | some m => cases hrest

theorem error_dataReceiverRun {r : DataReceiver.Receiver}
    (hc : Converse peer (dataReceiverRun h fuel r) s s' (.error e))
    (hfuel : s.messages.length < fuel) : e ≠ .fuel := by
  induction fuel generalizing r s with
  | zero => omega
  | succ fuel ih =>
    rcases converse_bind_error hc with hrecv | ⟨reply,s₁,hrecv,hrest⟩
    · exact (converse_request_error hrecv).elim
    · obtain ⟨hreply,rfl⟩ := converse_receive hrecv
      cases reply with
      | none => exact (error_clear hrest).elim
      | some m =>
        have hlen := tail_length_lt hreply hfuel
        rcases converse_bind_error hrest with hshared | ⟨shared,s₂,hshared,hrest⟩
        · exact (converse_request_error hshared).elim
        · obtain rfl : s₂ = _ := converse_request hshared
          cases hm : DataReceiver.receive h.H h.uuid h.cfg m { r with shared := shared } with
          | error f =>
            simp only [hm] at hrest
            cases hrest
            simp
          | ok r₁ =>
            simp only [hm] at hrest
            rcases converse_bind_error hrest with hsend | ⟨_,s₃,hsend,hloop⟩
            · exact (error_sendAnswers hsend).elim
            · obtain rfl := converse_sendAnswers hsend
              exact ih hloop hlen

theorem error_decoderLoop {c : RecvDecoder.ClientVar}
    (hc : Converse peer (decoderLoop fuel c) s s' (.error e))
    (hfuel : s.messages.length < fuel) : e ≠ .fuel := by
  induction fuel generalizing c s with
  | zero => omega
  | succ fuel ih =>
    rcases converse_bind_error hc with hrecv | ⟨reply,s₁,hrecv,hrest⟩
    · exact (converse_request_error hrecv).elim
    · obtain ⟨hreply,rfl⟩ := converse_receive hrecv
      cases reply with
      | none => exact (error_clear hrest).elim
      | some m =>
        have hlen := tail_length_lt hreply hfuel
        rcases converse_bind_error hrest with hbatch | ⟨c₁,s₂,hbatch,hloop⟩
        · exact error_decoder hbatch
        · obtain rfl := converse_decoder hbatch
          exact ih hloop hlen

theorem error_dispatch {login : Message}
    (hc : Converse peer (dispatch h fuel login) s s' (.error e))
    (hfuel : s.messages.length < fuel) : e ≠ .fuel := by
  unfold dispatch at hc
  split at hc
  · rcases converse_bind_error hc with hnew | ⟨_,s₁,hnew,hrest⟩
    · exact (converse_request_error hnew).elim
    · obtain rfl := converse_perform hnew
      rcases converse_bind_error hrest with hsend | ⟨_,s₂,hsend,hrest⟩
      · exact error_sendOrExit hsend
      · obtain rfl := converse_sendOrExit hsend
        rcases converse_bind_error hrest with hrun | ⟨_,s₃,_,hdelete⟩
        · exact error_dataReceiverRun hrun hfuel
        · exact (converse_request_error hdelete).elim
  · simp only [edgeDownloadRecipeThread] at hc
    split_ifs at hc
    · rcases converse_bind_error hc with hnew | ⟨_,s₁,_,hrest⟩
      · exact (converse_request_error hnew).elim
      · rcases converse_bind_error hrest with hwork | ⟨_,s₂,_,hdelete⟩
        · exact error_sender hwork
        · exact (converse_request_error hdelete).elim
    · rcases converse_bind_error hc with hsend | ⟨_,s₁,_,hdelete⟩
      · exact error_sender hsend
      · exact (converse_request_error hdelete).elim
  · rcases converse_bind_error hc with hnew | ⟨_,s₁,hnew,hrest⟩
    · exact (converse_request_error hnew).elim
    · obtain rfl := converse_perform hnew
      rcases converse_bind_error hrest with hsend | ⟨_,s₂,hsend,hrest⟩
      · exact error_sendOrExit hsend
      · obtain rfl := converse_sendOrExit hsend
        rcases converse_bind_error hrest with hrun | ⟨_,s₃,_,hdelete⟩
        · rcases converse_bind_error hrun with hrecv | ⟨reply,s₄,hrecv,hrest⟩
          · exact (converse_request_error hrecv).elim
          · obtain ⟨_,rfl⟩ := converse_receive hrecv
            cases reply with
            | none =>
              cases hrest
              simp
            | some m =>
              rcases converse_bind_error hrest with hready | ⟨c,s₅,hready,hloop⟩
              · exact error_decoder hready
              · obtain rfl := converse_decoder hready
                refine error_decoderLoop hloop ?_
                change s.messages.tail.length < fuel
                rw [List.length_tail]
                omega
        · exact (converse_request_error hdelete).elim
  · cases hc
    simp

/-- With more rounds than messages no session is cut short by the bound on its loops. -/
theorem error_run {ms : List Message}
    (hc : Converse peer (run h fuel) ⟨ms,[]⟩ s' (.error e)) (hfuel : ms.length < fuel) :
    e ≠ .fuel := by
  rcases converse_bind_error hc with hrecv | ⟨reply,s₁,hrecv,hrest⟩
  · exact (converse_request_error hrecv).elim
  · obtain ⟨_,rfl⟩ := converse_receive hrecv
    cases reply with
    | none =>
      cases hrest
      simp
    | some login =>
      rcases converse_bind_error hrest with hlock | ⟨_,s₂,hlock,hrest⟩
      · exact (converse_request_error hlock).elim
      · obtain rfl := converse_perform hlock
        rcases converse_bind_error hrest with hwork | ⟨_,s₃,_,hunlock⟩
        · refine error_dispatch hwork ?_
          change ms.tail.length < fuel
          rw [List.length_tail]
          omega
        · exact (converse_request_error hunlock).elim

end Fuel

def attentive : (q : Request) → Peer → Reply q × Peer
  | .receiveData, s => (s.messages.head?,{ s with messages := s.messages.tail })
  | .sendData _, s => (true,s)
  | .sharedState, s => (⟨∅,0,0,0⟩,s)
  | .readIndexStore _, s => (none,s)
  | .openContainer _, s => (none,s)
  | .perform a, s => ((),{ s with actions := s.actions ++ [a] })

theorem peer_attentive (q : Request) (s : Peer) : peer q s (attentive q s).1 (attentive q s).2 := by
  cases q with
  | receiveData => exact ⟨rfl,rfl⟩
  | sendData | sharedState | readIndexStore | openContainer | perform => rfl

theorem attentive_run (h : Host) (fuel : ℕ) (ms : List Message) (actions : List Action)
    (hrun : (interact attentive (run h fuel) ⟨ms,[]⟩).1.actions = actions ∧
      (interact attentive (run h fuel) ⟨ms,[]⟩).2.toBool = true) :
    ∃ s', Converse peer (run h fuel) ⟨ms,[]⟩ s' (.ok ()) ∧ s'.actions = actions := by
  have hc := converse_interact peer_attentive (run h fuel) ⟨ms,[]⟩
  refine ⟨(interact attentive (run h fuel) ⟨ms,[]⟩).1,?_,hrun.1⟩
  cases hout : (interact attentive (run h fuel) ⟨ms,[]⟩).2 with
  | ok u => rwa [hout] at hc
  | error e => simp [hout,Except.toBool] at hrun

theorem plainHash_length (_ : Bytes) : (List.replicate chunkHashSize (0 : UInt8)).length = chunkHashSize :=
  List.length_replicate

def plainHost (files : OutputStream.Files Bytes UInt8) : Host where
  H := ⟨fun _ => List.replicate chunkHashSize 0,plainHash_length⟩
  uuid := fun n => [UInt8.ofNat n]
  cfg := ⟨[],1⟩
  upload := ⟨files,⟨∅,0,0,0⟩,⟨[],0,fun _ => 0,0,fun _ => 0,0⟩,⟨⟨.edgeMigrateLogin,0,0,0⟩,fun _ => 0⟩,
    ⟨⟨.edgeMigrateLogin,0,0,0⟩,fun _ => 0⟩⟩
  recipe := ⟨files,⟨⟨.edgeDownloadRecipeLogin,0,0,0⟩,fun _ => 0⟩,
    ⟨⟨.edgeDownloadRecipeLogin,0,0,0⟩,fun _ => 0⟩⟩
  download := ⟨⟨⟨.edgeDownloadChunkLogin,0,0,0⟩,fun _ => 0⟩,fun _ => [],fun _ _ => 0,0,
    ReadCache.new 1 fun _ _ => 0,fun _ => ⟨[],[],0,0,0⟩⟩
  readCacheSize := 1
  pool := fun _ _ => 0

def loginMessage (t : MessageType) : Message := ⟨⟨t,3,0,0⟩,List.replicate 80 1⟩

def readyMessage : Message := ⟨⟨.edgeReceiveReady,3,0,0⟩,[]⟩

theorem released_iff_recipes :
    ∃ s', Converse peer (run (plainHost fun _ => some (List.replicate 17 0)) 0)
        ⟨[loginMessage .edgeDownloadRecipeLogin,readyMessage,readyMessage,readyMessage,
          readyMessage],[]⟩ s' (.ok ()) ∧ Released s'.actions := by
  obtain ⟨s',hc,_⟩ := attentive_run (plainHost fun _ => some (List.replicate 17 0)) 0
    [loginMessage .edgeDownloadRecipeLogin,readyMessage,readyMessage,readyMessage,readyMessage]
    [.lock 3,.newClientVar,.clearAcceptedClientSd,.delete .clientVar,.unlock 3] (by decide +kernel)
  refine ⟨s',hc,(released_iff _ 0 _ s' hc).mpr ?_⟩
  intro _
  exact ⟨_,_,_,rfl,rfl,rfl,by decide⟩

/-- A download of recipes that do not exist deletes an uninitialised pointer and keeps
the connection; one whose client speaks again after the end keeps it too. -/
theorem recipe_sessions_leak :
    (∃ s', Converse peer (run (plainHost fun _ => none) 0)
        ⟨[loginMessage .edgeDownloadRecipeLogin],[]⟩ s' (.ok ()) ∧ ¬ Released s'.actions) ∧
    ∃ s', Converse peer (run (plainHost fun _ => some (List.replicate 16 0)) 0)
        ⟨[loginMessage .edgeDownloadRecipeLogin,readyMessage,readyMessage],[]⟩ s' (.ok ()) ∧
      ¬ Released s'.actions := by
  constructor
  · obtain ⟨s',hc,hactions⟩ := attentive_run (plainHost fun _ => none) 0
      [loginMessage .edgeDownloadRecipeLogin] [.lock 3,.delete .uninitialised,.unlock 3]
      (by decide +kernel)
    refine ⟨s',hc,fun hrel => ?_⟩
    exact hrel.initialised (by simp [hactions])
  · obtain ⟨s',hc,hactions⟩ := attentive_run (plainHost fun _ => some (List.replicate 16 0)) 0
      [loginMessage .edgeDownloadRecipeLogin,readyMessage,readyMessage]
      [.lock 3,.newClientVar,.delete .clientVar,.unlock 3] (by decide +kernel)
    refine ⟨s',hc,fun hrel => ?_⟩
    have hone := hrel.connection
    simp [hactions] at hone

end Sessions
end CloudServer
