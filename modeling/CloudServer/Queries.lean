import CloudServer.DedupInvariant
import CloudServer.DataReceiver

/-! Recipe batches among concurrent uploads. `PlainIndex::ProcessRecipeBatch` asks the
index for one fingerprint after the other without the index lock, so every query is a
step of its own between the steps of the other sessions; the answer goes out when all
queries have been made. -/
namespace CloudServer
namespace Queries

open ByteMemory Execution PlainIndex Uploads UploadInvariant
open RecvDecoder (Message SendMsgBuffer)
open DataReceiver (cloudQueryReturn)

/-- The variables of the loop of `ProcessRecipeBatch`. The receive buffer holds the
batch until the loop has ended. -/
structure RecipeBatch where
  recvChunkBuf : SendMsgBuffer
  index : ℕ
  entryBase : ℕ
  tmpContainerNameStr : Bytes
  statusList : Bytes

def RecipeBatch.entryNum (b : RecipeBatch) : ℕ := b.recvChunkBuf.header.currentItemNum

def RecipeBatch.tmpHashStr (b : RecipeBatch) : Bytes :=
  read b.recvChunkBuf.dataBuffer b.entryBase chunkHashSize

def RecipeBatch.ask (indexStore : Database.Index) (b : RecipeBatch) : RecipeBatch :=
  let status := Database.query indexStore b.tmpHashStr b.tmpContainerNameStr
  { b with
    index := b.index+1
    entryBase := b.entryBase+chunkHashSize
    tmpContainerNameStr := status.2
    statusList := b.statusList ++ [if status.1 then 0 else 1] }

def RecipeBatch.answer (b : RecipeBatch) : SendMsgBuffer :=
  ⟨{ b.recvChunkBuf.header with messageType := cloudQueryReturn, dataSize := b.entryNum },
    write b.recvChunkBuf.dataBuffer 0 b.statusList⟩

theorem ask_iterate (indexStore : Database.Index) (buf : SendMsgBuffer) (name : Bytes) (n : ℕ) :
    ∃ name', (RecipeBatch.ask indexStore)^[n] ⟨buf,0,0,name,[]⟩ =
      ⟨buf,n,chunkHashSize*n,name',(List.range n).map fun i =>
        if (indexStore.lookup (read buf.dataBuffer (chunkHashSize*i) chunkHashSize)).isSome then 0
        else 1⟩ := by
  induction n with
  | zero => exact ⟨name,rfl⟩
  | succ n ih =>
    obtain ⟨name',h⟩ := ih
    refine ⟨(Database.query indexStore (read buf.dataBuffer (chunkHashSize*n) chunkHashSize)
      name').2,?_⟩
    rw [Function.iterate_succ_apply',h,List.range_succ,List.map_append]
    cases hq : indexStore.lookup (read buf.dataBuffer (chunkHashSize*n) chunkHashSize) <;>
      simp [RecipeBatch.ask,RecipeBatch.tmpHashStr,Database.query,hq,Nat.mul_succ]

/-- With no other session in between, the loop is the one of a receiver on its own. -/
theorem answer_uninterrupted (r : DataReceiver.Receiver) (name : Bytes) :
    ((RecipeBatch.ask r.shared.indexStore)^[r.recvChunkBuf.header.currentItemNum]
      ⟨r.recvChunkBuf,0,0,name,[]⟩).answer = (DataReceiver.processRecipeBatch r).recvChunkBuf := by
  obtain ⟨name',h⟩ := ask_iterate r.shared.indexStore r.recvChunkBuf name
    r.recvChunkBuf.header.currentItemNum
  rw [h]
  rfl

/-- The receiver of a session: the recipe batch it is working on, the bytes it has
written to the secure recipe, and what it has sent. -/
structure Receiver where
  recipe : Option RecipeBatch
  secureRecipe : Bytes
  sent : List Message

structure State where
  world : World
  receivers : ℕ → Receiver

inductive Event
  | upload (e : Uploads.Event)
  | recipe (i : ℕ) (m : Message)
  | query (i : ℕ)
  | reply (i : ℕ)

def State.put (d : State) (i : ℕ) (r : Receiver) : State :=
  { d with receivers := Function.update d.receivers i r }

def byReceiver : Uploads.Event → Bool
  | .message _ _ _ | .chunk _ | .lastContainer _ | .setDone _ => true
  | .login _ _ _ | .writer _ _ => false

/-- A received recipe batch is written to the secure recipe, and the loop starts. -/
def startBatch (r : Receiver) (buffer : Mem UInt8) (m : Message) : Receiver :=
  let buf := DataReceiver.receiveData m ⟨m.header,buffer⟩
  { r with
    recipe := some ⟨buf,0,0,List.replicate containerIdLength 0,[]⟩
    secureRecipe := r.secureRecipe ++ read buf.dataBuffer 0 m.header.dataSize }

def sendAnswer (r : Receiver) (b : RecipeBatch) : Receiver :=
  { r with
    recipe := none
    sent := r.sent ++ [⟨b.answer.header,read b.answer.dataBuffer 0 b.answer.header.dataSize⟩] }

def step (H : Digest) (uuid : ℕ → Bytes) (d : State) : Event → Option State
  | .upload e =>
    if byReceiver e ∧ (d.receivers e.session).recipe.isSome then none
    else (Uploads.step H uuid d.world e).map fun w => { d with world := w }
  | .recipe i m =>
    (d.world.sessions i).bind fun s =>
      if s.live ∧ ¬ s.batch.index < s.batch.chunkNum ∧ (d.receivers i).recipe.isNone ∧
          m.header.messageType = .edgeUploadSecRecipe then
        some (d.put i (startBatch (d.receivers i) s.batch.dataBuffer m))
      else none
  | .query i =>
    (d.receivers i).recipe.bind fun b =>
      if b.index < b.entryNum then
        some (d.put i { d.receivers i with recipe := some (b.ask d.world.shared.indexStore) })
      else none
  | .reply i =>
    (d.receivers i).recipe.bind fun b => (d.world.sessions i).bind fun s =>
      if b.index < b.entryNum then none
      else some { (d.put i (sendAnswer (d.receivers i) b)) with
        world := d.world.put i { s with batch.dataBuffer := b.answer.dataBuffer } }

inductive Takes (H : Digest) (uuid : ℕ → Bytes) (d : State) : Event → State → Prop
  | upload {e : Uploads.Event} {w : World}
    (hfree : byReceiver e = true → (d.receivers e.session).recipe = none)
    (hw : Uploads.step H uuid d.world e = some w) :
    Takes H uuid d (.upload e) { d with world := w }
  | recipe {i : ℕ} {s : Session} (m : Message) (hs : d.world.sessions i = some s)
    (hlive : s.live = true) (hidle : ¬ s.batch.index < s.batch.chunkNum)
    (hfree : (d.receivers i).recipe = none) (htype : m.header.messageType = .edgeUploadSecRecipe) :
    Takes H uuid d (.recipe i m) (d.put i (startBatch (d.receivers i) s.batch.dataBuffer m))
  | query {i : ℕ} {b : RecipeBatch} (hb : (d.receivers i).recipe = some b)
    (hbusy : b.index < b.entryNum) :
    Takes H uuid d (.query i)
      (d.put i { d.receivers i with recipe := some (b.ask d.world.shared.indexStore) })
  | reply {i : ℕ} {b : RecipeBatch} {s : Session} (hb : (d.receivers i).recipe = some b)
    (hs : d.world.sessions i = some s) (hend : ¬ b.index < b.entryNum) :
    Takes H uuid d (.reply i) { (d.put i (sendAnswer (d.receivers i) b)) with
      world := d.world.put i { s with batch.dataBuffer := b.answer.dataBuffer } }

section Steps

variable {H : Digest} {uuid : ℕ → Bytes} {d d' : State} {i : ℕ}

theorem takes_of_step {e : Event} (h : step H uuid d e = some d') : Takes H uuid d e d' := by
  cases e with
  | upload e =>
    simp only [step] at h
    split_ifs at h with hcond
    obtain ⟨w,hw,rfl⟩ := Option.map_eq_some_iff.mp h
    refine .upload (fun hrecv => ?_) hw
    simpa [hrecv] using hcond
  | recipe i m =>
    obtain ⟨s,hs,h⟩ := Option.bind_eq_some_iff.mp h
    split_ifs at h with hcond
    obtain rfl := Option.some.inj h
    obtain ⟨hlive,hidle,hfree,htype⟩ := hcond
    exact .recipe m hs hlive hidle (by simpa using hfree) htype
  | query i =>
    obtain ⟨b,hb,h⟩ := Option.bind_eq_some_iff.mp h
    split_ifs at h with hbusy
    obtain rfl := Option.some.inj h
    exact .query hb hbusy
  | reply i =>
    obtain ⟨b,hb,h⟩ := Option.bind_eq_some_iff.mp h
    obtain ⟨s,hs,h⟩ := Option.bind_eq_some_iff.mp h
    split_ifs at h with hend
    obtain rfl := Option.some.inj h
    exact .reply hb hs hend

@[simp] theorem put_self (d : State) (i : ℕ) (r : Receiver) : (d.put i r).receivers i = r :=
  Function.update_self _ _ _
theorem put_ne (d : State) {i j : ℕ} (r : Receiver) (h : j ≠ i) :
    (d.put i r).receivers j = d.receivers j := Function.update_of_ne h _ _

theorem index_step {e : Event} (h : Takes H uuid d e d') {fp id : Bytes}
    (hfp : d.world.index fp = some id) : d'.world.index fp = some id := by
  cases h with
  | upload _ hw => exact UploadInvariant.index_step (Uploads.takes_of_step hw) hfp
  | recipe | query | reply => exact hfp

theorem index_exec {es : List Event} (h : Exec (step H uuid) d es d') {fp id : Bytes}
    (hfp : d.world.index fp = some id) : d'.world.index fp = some id :=
  h.relate (R := fun v v' : State => v.world.index fp = some id → v'.world.index fp = some id)
    (fun _ hv => hv) (fun _ _ _ h₁ h₂ hv => h₂ (h₁ hv))
    (fun _ _ _ hstep hv => index_step (takes_of_step hstep) hv) hfp

def isQuery (i : ℕ) : Event → Bool
  | .query j => j == i
  | _ => false

theorem receiver_step {e : Event} {b : RecipeBatch} (h : Takes H uuid d e d')
    (hb : (d.receivers i).recipe = some b) (hreply : e ≠ .reply i) :
    (e = .query i ∧ b.index < b.entryNum ∧
      d'.receivers i = { d.receivers i with recipe := some (b.ask d.world.shared.indexStore) }) ∨
    (isQuery i e = false ∧ d'.receivers i = d.receivers i) := by
  cases h with
  | upload => exact Or.inr ⟨rfl,rfl⟩
  | @recipe j s m _ _ _ hfree =>
    have hij : i ≠ j := by
      rintro rfl
      simp [hfree] at hb
    exact Or.inr ⟨rfl,put_ne d _ hij⟩
  | @query j c hc hbusy =>
    by_cases hij : i = j
    · subst hij
      obtain rfl : b = c := Option.some.inj (hb.symm.trans hc)
      exact Or.inl ⟨rfl,hbusy,put_self d i _⟩
    · exact Or.inr ⟨by simp [isQuery,Ne.symm hij],put_ne d _ hij⟩
  | @reply j c s =>
    have hij : i ≠ j := by
      rintro rfl
      exact hreply rfl
    exact Or.inr ⟨rfl,put_ne d _ hij⟩

end Steps

/-- In the run `es` from `d`, the query of session `i` after `k` others is made in `v`. -/
def AskedAt (H : Digest) (uuid : ℕ → Bytes) (d : State) (es : List Event) (i k : ℕ) (v : State) :
    Prop :=
  ∃ pre post, es = pre ++ .query i::post ∧ pre.countP (isQuery i) = k ∧ Exec (step H uuid) d pre v

/-- What the status byte of a fingerprint is in a given state. -/
def statusOf (w : World) (fp : Bytes) : UInt8 := if (w.index fp).isSome then 0 else 1

section Loop

variable {H : Digest} {uuid : ℕ → Bytes} {d d' : State} {i : ℕ}

theorem AskedAt.cons {e : Event} {es : List Event} {k : ℕ} {v : State}
    (hstep : step H uuid d e = some d') (h : AskedAt H uuid d' es i k v) :
    AskedAt H uuid d (e::es) i ([e].countP (isQuery i)+k) v := by
  obtain ⟨pre,post,rfl,hcount,hexec⟩ := h
  refine ⟨e::pre,post,rfl,?_,.succ hstep hexec⟩
  rw [← List.singleton_append,List.countP_append,hcount]

theorem AskedAt.append {es : List Event} {k : ℕ} {v : State} (h : AskedAt H uuid d es i k v)
    (fs : List Event) : AskedAt H uuid d (es++fs) i k v := by
  obtain ⟨pre,post,rfl,hcount,hexec⟩ := h
  exact ⟨pre,post++fs,by simp,hcount,hexec⟩

theorem ask_statusList (b : RecipeBatch) (w : World) :
    (b.ask w.shared.indexStore).statusList = b.statusList ++ [statusOf w b.tmpHashStr] := by
  cases h : w.shared.indexStore.lookup b.tmpHashStr <;>
    simp [RecipeBatch.ask,Database.query,statusOf,World.index,h]

structure Continues (b b' : RecipeBatch) (answers : Bytes) : Prop where
  recvChunkBuf : b'.recvChunkBuf = b.recvChunkBuf
  index : b'.index = b.index+answers.length
  bounded : b.index ≤ b.entryNum → b'.index ≤ b.entryNum
  entryBase : b'.entryBase = b.entryBase+chunkHashSize*answers.length
  statusList : b'.statusList = b.statusList ++ answers

/-- A run of any steps but the reply continues the loop by the answers to the queries
in it, each computed on the index of the moment. -/
theorem loop_exec {fs : List Event} (h : Exec (step H uuid) d fs d') (hreply : .reply i ∉ fs)
    {b : RecipeBatch} (hb : (d.receivers i).recipe = some b) :
    ∃ b' answers, d'.receivers i = { d.receivers i with recipe := some b' } ∧
      Continues b b' answers ∧
      ∀ k a, answers[k]? = some a → ∃ v, AskedAt H uuid d fs i k v ∧
        a = statusOf v.world (read b.recvChunkBuf.dataBuffer (b.entryBase+chunkHashSize*k)
          chunkHashSize) := by
  induction h generalizing b with
  | refl d =>
    refine ⟨b,[],?_,⟨rfl,rfl,id,rfl,by simp⟩,by simp⟩
    rw [← hb]
  | @succ d d₁ d' e es hstep hrest ih =>
    have hne : e ≠ .reply i := fun he => hreply (by simp [he])
    have hes : .reply i ∉ es := fun he => hreply (by simp [he])
    rcases receiver_step (takes_of_step hstep) hb hne with ⟨rfl,hlt,hnext⟩ | ⟨hquery,hnext⟩
    · obtain ⟨b',answers,hend,hcont,hall⟩ := ih hes (b := b.ask d.world.shared.indexStore)
        (by rw [hnext])
      refine ⟨b',statusOf d.world b.tmpHashStr::answers,by rw [hend,hnext],?_,?_⟩
      · constructor
        · exact hcont.recvChunkBuf
        · rw [hcont.index]
          simp only [RecipeBatch.ask,List.length_cons]
          omega
        · exact fun _ => hcont.bounded hlt
        · rw [hcont.entryBase]
          simp only [RecipeBatch.ask,List.length_cons]
          ring
        · rw [hcont.statusList,ask_statusList]
          simp
      · intro k a hk
        cases k with
        | zero =>
          refine ⟨d,⟨[],es,rfl,rfl,.refl d⟩,?_⟩
          simpa [RecipeBatch.tmpHashStr] using hk.symm
        | succ k =>
          obtain ⟨v,hv,rfl⟩ := hall k a (by simpa using hk)
          refine ⟨v,?_,?_⟩
          · have := hv.cons hstep
            simpa [isQuery,Nat.add_comm] using this
          · simp only [RecipeBatch.ask]
            congr 2
            ring
    · obtain ⟨b',answers,hend,hcont,hall⟩ := ih hes (b := b) (by rw [hnext,hb])
      refine ⟨b',answers,by rw [hend,hnext],hcont,?_⟩
      intro k a hk
      obtain ⟨v,hv,ha⟩ := hall k a hk
      have := hv.cons hstep
      exact ⟨v,by simpa [hquery] using this,ha⟩

end Loop

/-- A session that works on a recipe batch has no chunk batch in progress. -/
def Coherent (d : State) : Prop :=
  ∀ i s, (d.receivers i).recipe.isSome → d.world.sessions i = some s →
    ¬ s.batch.index < s.batch.chunkNum

def start (w : World) : State := ⟨w,fun _ => ⟨none,[],[]⟩⟩

section Runs

variable {H : Digest} {uuid : ℕ → Bytes} {d d' : State} {j : ℕ} {c : Bytes}

theorem batch_takes {w w' : World} {e : Uploads.Event} {s' : Session}
    (h : Uploads.Takes H uuid w e w') (hj : byReceiver e = true → e.session ≠ j)
    (hs' : w'.sessions j = some s') :
    ¬ s'.batch.index < s'.batch.chunkNum ∨ ∃ s, w.sessions j = some s ∧ s'.batch = s.batch := by
  cases h with
  | login prior buffer hs =>
    rcases put_cases hs' with ⟨_,rfl⟩ | ⟨_,hold⟩
    · exact Or.inl (Nat.lt_irrefl 0)
    · exact Or.inr ⟨s',hold,rfl⟩
  | message | chunk | lastContainer | setDone =>
    rcases put_cases hs' with ⟨rfl,_⟩ | ⟨_,hold⟩
    · exact absurd rfl (hj rfl)
    · exact Or.inr ⟨s',hold,rfl⟩
  | writer hs =>
    rcases put_cases hs' with ⟨rfl,rfl⟩ | ⟨_,hold⟩
    · exact Or.inr ⟨_,hs,rfl⟩
    · exact Or.inr ⟨s',hold,rfl⟩

theorem coherent_step {e : Event} (h : Takes H uuid d e d') (hd : Coherent d) : Coherent d' := by
  intro i t hrecipe ht
  cases h with
  | @upload e w hfree hw =>
    have hother : byReceiver e = true → e.session ≠ i := by
      rintro hrecv rfl
      have hbusy : (d.receivers e.session).recipe.isSome := hrecipe
      simp [hfree hrecv] at hbusy
    rcases batch_takes (Uploads.takes_of_step hw) hother ht with hidle | ⟨s,hs,hbatch⟩
    · exact hidle
    · rw [hbatch]
      exact hd i s hrecipe hs
  | @recipe j s m hs _ hidle =>
    by_cases hij : i = j
    · subst hij
      rwa [← Option.some.inj (hs.symm.trans ht)]
    · rw [put_ne d _ hij] at hrecipe
      exact hd i t hrecipe ht
  | @query j b hb =>
    by_cases hij : i = j
    · subst hij
      exact hd i t (by simp [hb]) ht
    · rw [put_ne d _ hij] at hrecipe
      exact hd i t hrecipe ht
  | @reply j b s hb hs =>
    rcases put_cases ht with ⟨rfl,rfl⟩ | ⟨hij,hold⟩
    · exact hd i s (by simp [hb]) hs
    · have hsame : (d.put j (sendAnswer (d.receivers j) b)).receivers i = d.receivers i :=
        put_ne d _ hij
      exact hd i t (hsame ▸ hrecipe) hold

theorem coherent_exec {es : List Event} (h : Exec (step H uuid) d es d') (hd : Coherent d) :
    Coherent d' :=
  h.invariant (A := fun _ => True) (fun _ _ _ hs _ hstep => coherent_step (takes_of_step hstep) hs)
    hd (fun _ _ => trivial)

theorem covered_step {e : Event} (h : Takes H uuid d e d') (hd : Coherent d)
    (hc : Covered H d.world j c) : Covered H d'.world j c := by
  cases h with
  | upload _ hw => exact covered_takes (Uploads.takes_of_step hw) hc
  | recipe | query => exact hc
  | @reply i b s hb hs hend =>
    refine covered_start _ (fun t ht => ?_) hc
    exact hd i t (by simp [hb]) ht

theorem covered_exec {es : List Event} (h : Exec (step H uuid) d es d') (hd : Coherent d)
    (hc : Covered H d.world j c) : Covered H d'.world j c :=
  (h.invariant (P := fun v => Coherent v ∧ Covered H v.world j c) (A := fun _ => True)
    (fun _ _ _ hs _ hstep => ⟨coherent_step (takes_of_step hstep) hs.1,
      covered_step (takes_of_step hstep) hs.1 hs.2⟩) ⟨hd,hc⟩ (fun _ _ => trivial)).2

end Runs

/-- In the events `gs` some session is sent a chunk with this fingerprint, and at their
end it has processed its batches. -/
def Delivers (H : Digest) (gs : List Event) (d : State) (fp : Bytes) : Prop :=
  ∃ j chunks, .upload (.message j chunks.length (encodeChunks chunks)) ∈ gs ∧
    (∀ c ∈ chunks, c.length < 2^32) ∧ (∃ c ∈ chunks, H.hash c = fp) ∧
    ∀ s, d.world.sessions j = some s → ¬ s.batch.index < s.batch.chunkNum

section Delivery

variable {H : Digest} {uuid : ℕ → Bytes} {d d' : State} {i : ℕ}

theorem coherent_start (w : World) : Coherent (start w) := by
  intro i s hrecipe
  simp [start] at hrecipe

theorem delivered_indexed {gs : List Event} {fp : Bytes} (h : Exec (step H uuid) d gs d')
    (hd : Coherent d) (hfp : Delivers H gs d' fp) : ∃ id, d'.world.index fp = some id := by
  obtain ⟨j,chunks,hmem,hsizes,⟨c,hc,rfl⟩,hidle⟩ := hfp
  obtain ⟨pre,post,rfl⟩ := List.append_of_mem hmem
  obtain ⟨v,hpre,hrest⟩ := h.of_append
  have hv := coherent_exec hpre hd
  cases hrest with
  | @succ _ v' _ _ _ hstep hpost =>
    have hv' := coherent_step (takes_of_step hstep) hv
    have hcov : Covered H v'.world j c := by
      cases takes_of_step hstep with
      | upload _ hw =>
        cases Uploads.takes_of_step hw with
        | message _ _ hs =>
          exact Or.inr ⟨_,chunks,Uploads.put_self _ _ _,pending_receive _ hsizes,hc⟩
    rcases covered_exec hpost hv' hcov with hid | ⟨s,rest,hs,hrest,hin⟩
    · exact hid
    · simp [pending_nil_of_idle hrest (hidle s hs)] at hin

/-- The whole batch: what is sent at its end, and when each byte of it was decided. -/
theorem recipe_reply {fs : List Event} {m : Message} {fps : List Bytes}
    (hfps : ∀ fp ∈ fps, fp.length = chunkHashSize) (hnum : m.header.currentItemNum = fps.length)
    (hpay : m.payload = fps.flatten)
    (hrun : Exec (step H uuid) d (.recipe i m::(fs ++ [.reply i])) d') (hfs : .reply i ∉ fs) :
    ∃ status : Bytes, (d'.receivers i).sent = (d.receivers i).sent ++
        [⟨{ m.header with messageType := cloudQueryReturn, dataSize := fps.length },status⟩] ∧
      status.length = fps.length ∧
      ∀ k fp, fps[k]? = some fp → ∃ v, AskedAt H uuid d (.recipe i m::(fs ++ [.reply i])) i k v ∧
        status[k]? = some (statusOf v.world fp) := by
  cases hrun with
  | @succ _ d₁ _ _ _ hstep hrest =>
    cases takes_of_step hstep with
    | @recipe _ s _ hs _ _ hfree htype =>
      obtain ⟨d₂,hloop,hlast⟩ := hrest.of_append
      obtain ⟨b,status,hend,hcont,hall⟩ := loop_exec hloop hfs
        (b := ⟨⟨m.header,write s.batch.dataBuffer 0 m.payload⟩,0,0,
          List.replicate containerIdLength 0,[]⟩) (by rw [put_self]; rfl)
      rw [put_self] at hend
      cases hlast with
      | succ hreply hdone =>
        cases hdone
        cases takes_of_step hreply with
        | @reply _ b' t hb' ht hstop =>
          obtain rfl : b = b' := by
            rw [hend] at hb'
            exact Option.some.inj hb'
          have hheader : b.recvChunkBuf.header = m.header := by rw [hcont.recvChunkBuf]
          have hentry : b.entryNum = fps.length := by rw [RecipeBatch.entryNum,hheader,hnum]
          have hlist : b.statusList = status := by simpa using hcont.statusList
          have hlen : status.length = fps.length := by
            have hle := hcont.bounded (Nat.zero_le _)
            have hindex := hcont.index
            simp only [RecipeBatch.entryNum,hnum,Nat.zero_add] at hle hindex
            omega
          refine ⟨status,?_,hlen,?_⟩
          · have hsent : (d₂.receivers i).sent = (d.receivers i).sent := by
              rw [hend]
              rfl
            have hread : read (write b.recvChunkBuf.dataBuffer 0 status) 0 fps.length = status := by
              rw [← hlen,read_write_self]
            change ((d₂.put i (sendAnswer (d₂.receivers i) b)).receivers i).sent = _
            rw [put_self]
            simp only [sendAnswer,RecipeBatch.answer,hheader,hentry,hlist,hread,hsent]
          · intro k fp hk
            obtain ⟨hk',rfl⟩ := List.getElem?_eq_some_iff.mp hk
            have hstatus : status[k]? = some status[k] := List.getElem?_eq_getElem (by omega)
            obtain ⟨v,hv,hbyte⟩ := hall k _ hstatus
            refine ⟨v,?_,?_⟩
            · have hcons := (hv.append [.reply i]).cons hstep
              simpa [isQuery] using hcons
            · have hholds : Holds (write s.batch.dataBuffer 0 m.payload) 0 fps.flatten := by
                rw [← hpay]
                exact holds_write_self s.batch.dataBuffer 0 m.payload
              rw [hstatus,hbyte]
              simp only [Nat.zero_add,read_record hholds hfps hk']

end Delivery

theorem statusOf_eq_zero (w : World) (fp : Bytes) :
    statusOf w fp = 0 ↔ ∃ id, w.index fp = some id := by
  cases h : w.index fp <;> simp [statusOf,h]

theorem statusOf_eq_one (w : World) (fp : Bytes) : statusOf w fp = 1 ↔ w.index fp = none := by
  cases h : w.index fp <;> simp [statusOf,h]

/-- A client that asks for a batch of fingerprints and then sends what is missing ends
with all of them indexed, whatever other sessions do in between: each byte of the
answer tells whether the fingerprint was indexed when it was asked for, and once the
missing chunks are processed every fingerprint is bound for good. -/
theorem query_then_upload (H : Digest) (uuid : ℕ → Bytes) (w₀ : World) (es fs : List Event)
    (d d' : State) (i : ℕ) (m : Message) (fps : List Bytes)
    (hreach : Exec (step H uuid) (start w₀) es d)
    (hfps : ∀ fp ∈ fps, fp.length = chunkHashSize) (hnum : m.header.currentItemNum = fps.length)
    (hpay : m.payload = fps.flatten)
    (hrun : Exec (step H uuid) d (.recipe i m::(fs ++ [.reply i])) d') (hfs : .reply i ∉ fs) :
    ∃ status : Bytes, (d'.receivers i).sent = (d.receivers i).sent ++
        [⟨{ m.header with messageType := cloudQueryReturn, dataSize := fps.length },status⟩] ∧
      status.length = fps.length ∧
      (∀ k fp, fps[k]? = some fp → ∃ v, AskedAt H uuid d (.recipe i m::(fs ++ [.reply i])) i k v ∧
        (status[k]? = some 0 ↔ ∃ id, v.world.index fp = some id) ∧
        (status[k]? = some 1 ↔ v.world.index fp = none)) ∧
      ∀ gs u, Exec (step H uuid) d' gs u →
        (∀ (k : ℕ) fp, fps[k]? = some fp → status[k]? = some 1 → Delivers H gs u fp) →
        ∀ fp ∈ fps, ∃ id, u.world.index fp = some id ∧
          ∀ hs v, Exec (step H uuid) u hs v → v.world.index fp = some id := by
  obtain ⟨status,hsent,hlen,hall⟩ := recipe_reply hfps hnum hpay hrun hfs
  refine ⟨status,hsent,hlen,?_,?_⟩
  · intro k fp hk
    obtain ⟨v,hv,hbyte⟩ := hall k fp hk
    refine ⟨v,hv,?_,?_⟩
    · rw [hbyte,Option.some.injEq,statusOf_eq_zero]
    · rw [hbyte,Option.some.injEq,statusOf_eq_one]
  · intro gs u hgs hsend fp hfp
    have hd' : Coherent d' := coherent_exec hrun (coherent_exec hreach (coherent_start w₀))
    obtain ⟨k,hk⟩ := List.mem_iff_getElem?.mp hfp
    obtain ⟨v,⟨pre,post,hsplit,_,hpre⟩,hbyte⟩ := hall k fp hk
    have hindexed : ∃ id, u.world.index fp = some id := by
      cases hv : v.world.index fp with
      | some id =>
        -- it was indexed when it was asked for, and has stayed so
        rw [hsplit] at hrun
        obtain ⟨v',hpre',hpost⟩ := hrun.of_append
        obtain rfl := hpre.deterministic hpre'
        exact ⟨id,index_exec hgs (index_exec hpost hv)⟩
      | none =>
        have hone := (statusOf_eq_one v.world fp).mpr hv
        exact delivered_indexed hgs hd' (hsend k fp hk (hbyte.trans (congrArg some hone)))
    obtain ⟨id,hid⟩ := hindexed
    exact ⟨id,hid,fun hs v hexec => index_exec hexec hid⟩

def askedFor : List Bytes := [DedupInvariant.paddedDigest.hash [7],DedupInvariant.paddedDigest.hash [5,6]]

def beforeBatch : List Event :=
  [.upload (.login 0 ⟨[],0,fun _ => 0,0,fun _ => 0,0⟩ fun _ => 0),
    .upload (.login 1 ⟨[],0,fun _ => 0,0,fun _ => 0,0⟩ fun _ => 0),
    .upload (.message 1 1 (encodeChunks [[5,6]]))]

def batchMessage : Message := ⟨⟨.edgeUploadSecRecipe,3,64,2⟩,askedFor.flatten⟩

def duringBatch : List Event := [.query 0,.upload (.chunk 1),.query 0]

def afterBatch : List Event := [.upload (.message 0 1 (encodeChunks [[7]])),.upload (.chunk 0)]

theorem query_then_upload_two_sessions :
    ∃ d d' u : State, Exec (step DedupInvariant.paddedDigest fun n => [UInt8.ofNat n])
        d (.recipe 0 batchMessage::(duringBatch ++ [.reply 0])) d' ∧
      Exec (step DedupInvariant.paddedDigest fun n => [UInt8.ofNat n]) d' afterBatch u ∧
      ∀ fp ∈ askedFor, ∃ id, u.world.index fp = some id ∧ ∀ hs v,
        Exec (step DedupInvariant.paddedDigest fun n => [UInt8.ofNat n]) u hs v →
          v.world.index fp = some id := by
  have hanswer : (run (step DedupInvariant.paddedDigest fun n => [UInt8.ofNat n])
      (start Uploads.empty) (beforeBatch ++ .recipe 0 batchMessage::(duringBatch ++ [.reply 0]))).map
      (fun v => (v.receivers 0).sent.map Message.payload) = some [[1,0]] := by decide +kernel
  have hrun : (run (step DedupInvariant.paddedDigest fun n => [UInt8.ofNat n]) (start Uploads.empty)
      ((beforeBatch ++ .recipe 0 batchMessage::(duringBatch ++ [.reply 0])) ++ afterBatch)).map
      (fun v => (v.world.sessions 0).map fun s => decide (s.batch.index < s.batch.chunkNum)) =
      some (some false) := by decide +kernel
  obtain ⟨u,hexec,hidle⟩ := Exec.of_run_map _ hrun
  obtain ⟨d',hfirst,hafter⟩ := hexec.of_append
  obtain ⟨v,hv,hpayload⟩ := Exec.of_run_map _ hanswer
  obtain rfl := hv.deterministic hfirst
  obtain ⟨d,hreach,hbatch⟩ := hfirst.of_append
  obtain ⟨status,hsent,_,_,hfinal⟩ := query_then_upload DedupInvariant.paddedDigest
    (fun n => [UInt8.ofNat n]) Uploads.empty beforeBatch duringBatch d v 0 batchMessage askedFor
    hreach (by decide) rfl rfl hbatch (by simp [duringBatch])
  have hstatus : status = [1,0] := by
    rw [hsent,List.map_append,← List.nil_append [[1,0]]] at hpayload
    exact List.singleton_inj.mp (List.append_inj_right' hpayload rfl)
  refine ⟨d,v,u,hbatch,hafter,hfinal afterBatch u hafter ?_⟩
  intro k fp hk hone
  have hfp : fp = DedupInvariant.paddedDigest.hash [7] := by
    subst hstatus
    match k with
    | 0 => exact (Option.some.inj hk).symm
    | 1 => simp at hone
    | k+2 => simp at hone
  refine ⟨0,[[7]],by simp [afterBatch],by simp,⟨[7],by simp,hfp.symm⟩,?_⟩
  intro s hs
  simpa [hs] using hidle

end Queries
end CloudServer
