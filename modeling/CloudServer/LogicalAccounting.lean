import CloudServer.RecipeUpload

/-! The logical-data counters over upload sessions. `DataReceiver::Run` adds the header of
the login once; `ClientVar::ChangeFile` only replaces the fields that were added. -/
namespace CloudServer
namespace LogicalAccounting

open ByteMemory OutputStream DataReceiver RecipeUpload
open RecvDecoder (Message SendMsgBuffer)
open PlainIndex (Digest Shared)

/-- `_logicalDataSize` and `_logicalChunkNum` of `AbsIndex`. -/
structure Totals where
  logicalDataSize : ℕ
  logicalChunkNum : ℕ
  deriving DecidableEq

def Totals.add (t : Totals) (head : FileRecipeHead) : Totals :=
  ⟨(t.logicalDataSize+head.fileSize) % 2^64,(t.logicalChunkNum+head.totalChunkNum) % 2^64⟩

structure Session where
  receiver : Receiver
  head : FileRecipeHead
  totals : Totals

def loginHead (login : Message) (recvBuf : SendMsgBuffer) : FileRecipeHead :=
  headOf (receiveData login recvBuf).dataBuffer fileNameLength

/-- The header that a message hands to `ChangeFile`. -/
def switchHead (m : Message) (r : Receiver) : Option FileRecipeHead :=
  if m.header.messageType = .edgeMigrationNewfile then
    some (headOf (receiveData m r.recvChunkBuf).dataBuffer fileNameLength)
  else none

def beginSession (uuid : ℕ → Bytes) (cfg : Configure) (env : Environment) (login : Message)
    (totals : Totals) : Session :=
  let head := loginHead login env.recvBuf
  ⟨edgeUploadThread uuid cfg env login,head,totals.add head⟩

def receive (H : Digest) (uuid : ℕ → Bytes) (cfg : Configure) (m : Message) (s : Session) :
    Except Fault Session := do
  let r ← DataReceiver.receive H uuid cfg m s.receiver
  return ⟨r,(switchHead m s.receiver).getD s.head,s.totals⟩

def receiveAll (H : Digest) (uuid : ℕ → Bytes) (cfg : Configure) :
    List Message → Session → Except Fault Session
  | [], s => .ok s
  | m::ms, s => do
    let s ← receive H uuid cfg m s
    receiveAll H uuid cfg ms s

structure Store where
  files : Files Bytes UInt8
  shared : Shared
  totals : Totals

structure Visit where
  prior : InmemoryContainer
  recvBuf : SendMsgBuffer
  recvChunkBuf : SendMsgBuffer
  login : Message
  messages : List Message

def Visit.environment (v : Visit) (st : Store) : Environment :=
  ⟨st.files,st.shared,v.prior,v.recvBuf,v.recvChunkBuf⟩

def visit (H : Digest) (uuid : ℕ → Bytes) (cfg : Configure) (v : Visit) (st : Store) :
    Except Fault Store := do
  let s ← receiveAll H uuid cfg v.messages
    (beginSession uuid cfg (v.environment st) v.login st.totals)
  let r := closeSession s.receiver
  return ⟨r.files,r.shared,s.totals⟩

def visits (H : Digest) (uuid : ℕ → Bytes) (cfg : Configure) :
    List Visit → Store → Except Fault Store
  | [], st => .ok st
  | v::vs, st => do
    let st ← visit H uuid cfg v st
    visits H uuid cfg vs st

def begun (H : Digest) (uuid : ℕ → Bytes) (cfg : Configure) :
    List Visit → Store → List (Visit × Store)
  | [], _ => []
  | v::vs, st =>
    (v,st) :: match visit H uuid cfg v st with
      | .ok st => begun H uuid cfg vs st
      | .error _ => []

/-- The headers of the files that the messages of a session switch to. -/
def switchedHeads (H : Digest) (uuid : ℕ → Bytes) (cfg : Configure) :
    List Message → Receiver → List FileRecipeHead
  | [], _ => []
  | m::ms, r =>
    (switchHead m r).toList ++ match DataReceiver.receive H uuid cfg m r with
      | .ok r => switchedHeads H uuid cfg ms r
      | .error _ => []

def switched (H : Digest) (uuid : ℕ → Bytes) (cfg : Configure) (p : Visit × Store) :
    List FileRecipeHead :=
  switchedHeads H uuid cfg p.1.messages (edgeUploadThread uuid cfg (p.1.environment p.2) p.1.login)

def openedFiles (H : Digest) (uuid : ℕ → Bytes) (cfg : Configure) (p : Visit × Store) :
    List FileRecipeHead :=
  loginHead p.1.login p.1.recvBuf :: switched H uuid cfg p

def CarriesHead (m : Message) : Prop :=
  m.header.messageType = .edgeMigrationNewfile → fileNameLength+headSize ≤ m.payload.length

def messageHeads (ms : List Message) : List FileRecipeHead :=
  (ms.filter fun m => m.header.messageType = .edgeMigrationNewfile).map fun m => (openingOf m).head

def fileSizes (hs : List FileRecipeHead) : ℕ := (hs.map FileRecipeHead.fileSize).sum

def chunkNums (hs : List FileRecipeHead) : ℕ := (hs.map FileRecipeHead.totalChunkNum).sum

structure Increased (t t' : Totals) (hs : List FileRecipeHead) : Prop where
  dataSize : t'.logicalDataSize ≡ t.logicalDataSize+fileSizes hs [MOD 2^64]
  chunkNum : t'.logicalChunkNum ≡ t.logicalChunkNum+chunkNums hs [MOD 2^64]

/-- Headers that a 64-bit counter would not show. -/
structure Balanced (hs : List FileRecipeHead) : Prop where
  dataSize : fileSizes hs ≡ 0 [MOD 2^64]
  chunkNum : chunkNums hs ≡ 0 [MOD 2^64]

@[simp] theorem fileSizes_cons (h : FileRecipeHead) (hs : List FileRecipeHead) :
    fileSizes (h::hs) = h.fileSize+fileSizes hs := by
  simp [fileSizes]

@[simp] theorem fileSizes_append (hs hs' : List FileRecipeHead) :
    fileSizes (hs ++ hs') = fileSizes hs+fileSizes hs' := by
  simp [fileSizes]

@[simp] theorem chunkNums_cons (h : FileRecipeHead) (hs : List FileRecipeHead) :
    chunkNums (h::hs) = h.totalChunkNum+chunkNums hs := by
  simp [chunkNums]

@[simp] theorem chunkNums_append (hs hs' : List FileRecipeHead) :
    chunkNums (hs ++ hs') = chunkNums hs+chunkNums hs' := by
  simp [chunkNums]

theorem increased_nil (t : Totals) : Increased t t [] :=
  ⟨Nat.ModEq.refl _,Nat.ModEq.refl _⟩

theorem Increased.append {t t' t'' : Totals} {hs hs' : List FileRecipeHead}
    (h : Increased t t' hs) (h' : Increased t' t'' hs') : Increased t t'' (hs ++ hs') := by
  constructor
  · rw [fileSizes_append,← Nat.add_assoc]
    exact h'.dataSize.trans (h.dataSize.add_right _)
  · rw [chunkNums_append,← Nat.add_assoc]
    exact h'.chunkNum.trans (h.chunkNum.add_right _)

theorem increased_add_iff (t : Totals) (head : FileRecipeHead) (hs : List FileRecipeHead) :
    Increased t (t.add head) (head::hs) ↔ Balanced hs := by
  have hsize : (t.add head).logicalDataSize ≡ t.logicalDataSize+head.fileSize [MOD 2^64] :=
    Nat.mod_modEq _ _
  have hnum : (t.add head).logicalChunkNum ≡ t.logicalChunkNum+head.totalChunkNum [MOD 2^64] :=
    Nat.mod_modEq _ _
  have hcancel : ∀ a b : ℕ, a ≡ a+b [MOD 2^64] ↔ b ≡ 0 [MOD 2^64] := fun a b =>
    ⟨fun h => (Nat.ModEq.add_left_cancel' a h).symm,fun h => (Nat.ModEq.add_left a h).symm⟩
  constructor
  · intro h
    have hd := hsize.symm.trans h.dataSize
    have hc := hnum.symm.trans h.chunkNum
    rw [fileSizes_cons,← Nat.add_assoc] at hd
    rw [chunkNums_cons,← Nat.add_assoc] at hc
    exact ⟨(hcancel _ _).mp hd,(hcancel _ _).mp hc⟩
  · intro h
    constructor
    · rw [fileSizes_cons,← Nat.add_assoc]
      exact hsize.trans ((hcancel _ _).mpr h.dataSize)
    · rw [chunkNums_cons,← Nat.add_assoc]
      exact hnum.trans ((hcancel _ _).mpr h.chunkNum)

section Run

variable {H : Digest} {uuid : ℕ → Bytes} {cfg : Configure}

theorem receive_ok {m : Message} {s s' : Session} (h : receive H uuid cfg m s = .ok s') :
    DataReceiver.receive H uuid cfg m s.receiver = .ok s'.receiver ∧ s'.totals = s.totals := by
  obtain ⟨r,hr,hs⟩ := exists_of_bind_ok h
  obtain rfl := Except.ok.inj hs
  exact ⟨hr,rfl⟩

theorem receiveAll_ok {ms : List Message} {s s' : Session}
    (h : receiveAll H uuid cfg ms s = .ok s') :
    DataReceiver.receiveAll H uuid cfg ms s.receiver = .ok s'.receiver ∧ s'.totals = s.totals := by
  induction ms generalizing s with
  | nil =>
    obtain rfl := Except.ok.inj h
    exact ⟨rfl,rfl⟩
  | cons m ms ih =>
    obtain ⟨mid,hm,hrest⟩ := exists_of_bind_ok h
    obtain ⟨hr,ht⟩ := receive_ok hm
    obtain ⟨hrs,hts⟩ := ih hrest
    refine ⟨?_,hts.trans ht⟩
    rw [DataReceiver.receiveAll,hr]
    exact hrs

theorem visit_ok {v : Visit} {st st' : Store} (h : visit H uuid cfg v st = .ok st') :
    (∃ r, DataReceiver.receiveAll H uuid cfg v.messages
      (edgeUploadThread uuid cfg (v.environment st) v.login) = .ok r) ∧
    st'.totals = st.totals.add (loginHead v.login v.recvBuf) := by
  obtain ⟨s,hs,hst⟩ := exists_of_bind_ok h
  obtain rfl := Except.ok.inj hst
  obtain ⟨hr,ht⟩ := receiveAll_ok hs
  exact ⟨⟨_,hr⟩,ht⟩

/-- A session counts its files if and only if those it switches to leave no trace. -/
theorem visit_increased_iff {v : Visit} {st st' : Store} (h : visit H uuid cfg v st = .ok st') :
    Increased st.totals st'.totals (openedFiles H uuid cfg (v,st)) ↔
      Balanced (switched H uuid cfg (v,st)) := by
  rw [(visit_ok h).2]
  exact increased_add_iff _ _ _

theorem visits_cons {v : Visit} {vs : List Visit} {st st' : Store}
    (h : visits H uuid cfg (v::vs) st = .ok st') :
    ∃ mid, visit H uuid cfg v st = .ok mid ∧ visits H uuid cfg vs mid = .ok st' ∧
      begun H uuid cfg (v::vs) st = (v,st) :: begun H uuid cfg vs mid := by
  obtain ⟨mid,hv,hrest⟩ := exists_of_bind_ok h
  exact ⟨mid,hv,hrest,by rw [begun,hv]⟩

theorem visit_of_begun {vs : List Visit} {st st' : Store} (h : visits H uuid cfg vs st = .ok st')
    {p : Visit × Store} (hp : p ∈ begun H uuid cfg vs st) : ∃ mid, visit H uuid cfg p.1 p.2 = .ok mid := by
  induction vs generalizing st with
  | nil => simp [begun] at hp
  | cons v vs ih =>
    obtain ⟨mid,hv,hrest,hbegun⟩ := visits_cons h
    rw [hbegun,List.mem_cons] at hp
    rcases hp with rfl | hp
    · exact ⟨mid,hv⟩
    · exact ih hrest hp

theorem visits_increased {vs : List Visit} {st st' : Store} (h : visits H uuid cfg vs st = .ok st')
    (hcounted : ∀ p ∈ begun H uuid cfg vs st, ∀ t, visit H uuid cfg p.1 p.2 = .ok t →
      Increased p.2.totals t.totals (openedFiles H uuid cfg p)) :
    Increased st.totals st'.totals ((begun H uuid cfg vs st).flatMap (openedFiles H uuid cfg)) := by
  induction vs generalizing st with
  | nil =>
    obtain rfl := Except.ok.inj h
    exact increased_nil _
  | cons v vs ih =>
    obtain ⟨mid,hv,hrest,hbegun⟩ := visits_cons h
    rw [hbegun,List.forall_mem_cons] at hcounted
    rw [hbegun,List.flatMap_cons]
    exact (hcounted.1 mid hv).append (ih hrest hcounted.2)

/-- Where the switch messages carry a header, it is the header that counts. -/
theorem switchedHeads_eq {ms : List Message} {r r' : Receiver}
    (h : DataReceiver.receiveAll H uuid cfg ms r = .ok r') (hcarry : ∀ m ∈ ms, CarriesHead m) :
    switchedHeads H uuid cfg ms r = messageHeads ms := by
  induction ms generalizing r with
  | nil => rfl
  | cons m ms ih =>
    obtain ⟨mid,hm,hrest⟩ := exists_of_bind_ok h
    rw [List.forall_mem_cons] at hcarry
    rw [switchedHeads,hm,switchHead,messageHeads]
    by_cases hnew : m.header.messageType = .edgeMigrationNewfile
    · rw [if_pos hnew,List.filter_cons_of_pos (by simpa using hnew),List.map_cons,
        (openingOf_received r.recvChunkBuf (hcarry.1 hnew)).2]
      exact congrArg _ (ih hrest hcarry.2)
    · rw [if_neg hnew,List.filter_cons_of_neg (by simpa using hnew)]
      exact ih hrest hcarry.2

end Run

/-- The logical counters over a sequence of upload sessions. Every session goes up by all
files it opened, and with them the totals, if and only if in each session the headers of
the files after the first one leave no trace; these are the headers of its switch
messages. -/
theorem logical_accounting_iff (H : Digest) (uuid : ℕ → Bytes) (cfg : Configure)
    (vs : List Visit) (st st' : Store) (h : visits H uuid cfg vs st = .ok st') :
    ((∀ p ∈ begun H uuid cfg vs st, ∀ t, visit H uuid cfg p.1 p.2 = .ok t →
        Increased p.2.totals t.totals (openedFiles H uuid cfg p)) ∧
      Increased st.totals st'.totals
        ((begun H uuid cfg vs st).flatMap (openedFiles H uuid cfg)) ↔
      ∀ p ∈ begun H uuid cfg vs st, Balanced (switched H uuid cfg p)) ∧
    ∀ p ∈ begun H uuid cfg vs st, (∀ m ∈ p.1.messages, CarriesHead m) →
      switched H uuid cfg p = messageHeads p.1.messages := by
  refine ⟨⟨?_,?_⟩,?_⟩
  · rintro ⟨hcounted,-⟩ p hp
    obtain ⟨t,ht⟩ := visit_of_begun h hp
    exact (visit_increased_iff ht).mp (hcounted p hp t ht)
  · intro hbalanced
    have hcounted : ∀ p ∈ begun H uuid cfg vs st, ∀ t, visit H uuid cfg p.1 p.2 = .ok t →
        Increased p.2.totals t.totals (openedFiles H uuid cfg p) :=
      fun p hp t ht => (visit_increased_iff ht).mpr (hbalanced p hp)
    exact ⟨hcounted,visits_increased h hcounted⟩
  · intro p hp hcarry
    obtain ⟨t,ht⟩ := visit_of_begun h hp
    obtain ⟨r,hr⟩ := (visit_ok ht).1
    exact switchedHeads_eq hr hcarry

def connection (login : Message) (messages : List Message) : Visit :=
  ⟨⟨[],0,fun _ => 0,0,fun _ => 0,0⟩,⟨⟨.edgeLoginResponse,0,0,0⟩,fun _ => 0⟩,
    ⟨⟨.edgeLoginResponse,0,0,0⟩,fun _ => 0⟩,login,messages⟩

def announces (t : MessageType) (letter : UInt8) (head : FileRecipeHead) : Message :=
  ⟨⟨t,7,80,0⟩,List.replicate fileNameLength letter ++ head.bytes⟩

def twoHashes : Message := ⟨⟨.edgeUploadRecipe,7,64,2⟩,List.replicate 64 1⟩

def sameHash : Digest := ⟨fun _ => List.replicate chunkHashSize 9,fun _ => List.length_replicate⟩

def noTotals : Store := ⟨fun _ => none,⟨∅,0,0,0⟩,⟨0,0⟩⟩

/-- A session with one file, and one that goes on to an empty file. -/
def emptySecondFile : List Visit :=
  [connection (announces .edgeMigrateLogin 65 ⟨64,2⟩) [twoHashes],
    connection (announces .edgeMigrateLogin 66 ⟨96,2⟩)
      [twoHashes,announces .edgeMigrationNewfile 67 ⟨0,0⟩]]

theorem logical_accounting_empty_file :
    ∃ st, visits sameHash (fun n => [UInt8.ofNat n]) ⟨ascii ['R','/'],2⟩ emptySecondFile
        noTotals = .ok st ∧ st.totals = ⟨160,4⟩ ∧
      Increased noTotals.totals st.totals [⟨64,2⟩,⟨96,2⟩,⟨0,0⟩] := by
  refine ⟨_,rfl,rfl,?_⟩
  have hcounted := (logical_accounting_iff sameHash (fun n => [UInt8.ofNat n])
    ⟨ascii ['R','/'],2⟩ emptySecondFile noTotals _ rfl).1.mpr (by
      intro p hp
      rcases List.mem_cons.mp hp with rfl | hp
      · exact ⟨rfl,rfl⟩
      · obtain rfl := List.mem_singleton.mp hp
        exact ⟨rfl,rfl⟩)
  exact hcounted.2

def secondFile : Visit :=
  connection (announces .edgeMigrateLogin 65 ⟨64,2⟩)
    [twoHashes,announces .edgeMigrationNewfile 66 ⟨100,3⟩,twoHashes]

theorem second_file_uncounted :
    ∃ st, visit sameHash (fun n => [UInt8.ofNat n]) ⟨ascii ['R','/'],2⟩ secondFile
        noTotals = .ok st ∧
      openedFiles sameHash (fun n => [UInt8.ofNat n]) ⟨ascii ['R','/'],2⟩
        (secondFile,noTotals) = [⟨64,2⟩,⟨100,3⟩] ∧
      st.totals = ⟨64,2⟩ ∧ ¬ Increased noTotals.totals st.totals [⟨64,2⟩,⟨100,3⟩] := by
  refine ⟨_,rfl,rfl,rfl,?_⟩
  intro h
  exact absurd h.dataSize (by decide)

end LogicalAccounting
end CloudServer
