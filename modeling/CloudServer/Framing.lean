import CloudServer.Execution
import CloudServer.Transport

/-! Messages over a channel of records. The sender splits what it writes in its own
way and the receiver reads what is left of the current record, so the two sides cut
the same bytes at different places. What keeps them together is that the length of a
message is a record of its own and no record crosses the end of a message. -/
namespace CloudServer
namespace Framing

open ByteMemory Transport Execution

/-- The records that have been written and not been read. -/
abbrev Channel := List Bytes

/-- One successful `SSL_write`: it accepts a positive part of the buffer, and a buffer of
at most one record's size becomes one record. -/
structure Wrote (maxRecord : ℕ) (buf : Bytes) (rs : List Bytes) : Prop where
  positive : rs ≠ []
  records : ∀ r ∈ rs, r ≠ []
  part : rs.flatten <+: buf
  whole : buf.length ≤ maxRecord → rs = [buf]

/-- `split k buf` is what the `k`-th `SSL_write` of the connection makes of its buffer. -/
abbrev Splitting := ℕ → Bytes → List Bytes

def Splitting.Sound (maxRecord : ℕ) (split : Splitting) : Prop :=
  ∀ k buf, buf ≠ [] → Wrote maxRecord buf (split k buf)

/-- The smaller of `n` and what is left of the current record; an empty channel blocks. -/
def sslRead (n : ℕ) : Channel → Option (Bytes × Channel)
  | [] => none
  | r::rs => some (r.take n,if n < r.length then r.drop n::rs else rs)

structure Sender where
  state : SendState
  writes : ℕ
  channel : Channel

def Sender.step (split : Splitting) (p : Payload) (s : Sender) : Sender :=
  match s.state.buffer p with
  | none => s
  | some buf =>
    let rs := split s.writes buf
    ⟨s.state.next p.dataSize rs.flatten.length,s.writes+1,s.channel++rs⟩

structure Receiver where
  state : RecvState
  data : Mem UInt8
  channel : Channel

def Receiver.step (s : Receiver) : Receiver :=
  match s.state.wanted with
  | none => s
  | some n =>
    match sslRead n s.channel with
    | none => s
    | some (d,channel) => ⟨s.state.next d.length d,s.state.store s.data d,channel⟩

def SendsAll (split : Splitting) : List Payload → ℕ → Channel → ℕ → Channel → Prop
  | [], k, ch, k', ch' => k' = k ∧ ch' = ch
  | p::ps, k, ch, k', ch' => ∃ k₁ ch₁,
      Leads (Sender.step split p) ⟨.writeSize,k,ch⟩ ⟨.returned true,k₁,ch₁⟩ ∧
        SendsAll split ps k₁ ch₁ k' ch'

/-- Successive calls of `ReceiveData`, all of which return `true`, each into a buffer of
its own: the sizes and the bytes they hand out, and the channel they leave. -/
def ReceivesAll : List (Mem UInt8) → Channel → List (ℕ × Bytes) → Channel → Prop
  | [], ch, out, ch' => out = [] ∧ ch' = ch
  | data::bufs, ch, out, ch' => ∃ n data' ch₁ out',
      Leads Receiver.step ⟨.readSize,data,ch⟩ ⟨.done n,data',ch₁⟩ ∧
        out = (n,read data' 0 n)::out' ∧ ReceivesAll bufs ch₁ out' ch'

structure Framed (m : Bytes) (rs : List Bytes) : Prop where
  frame : ∃ body, rs = leBytes m.length::body ∧ body.flatten = m ∧ ∀ r ∈ body, r ≠ []

variable {maxRecord : ℕ} {split : Splitting} {p : Payload}

theorem Wrote.length_pos {buf : Bytes} {rs : List Bytes} (h : Wrote maxRecord buf rs) :
    0 < rs.flatten.length := by
  obtain ⟨r,rs',rfl⟩ := List.exists_cons_of_ne_nil h.positive
  have hr := List.length_pos_of_ne_nil (h.records r (by simp))
  rw [List.flatten_cons,List.length_append]
  omega

theorem Wrote.flatten_eq {m : Mem UInt8} {off n : ℕ} {rs : List Bytes}
    (h : Wrote maxRecord (read m off n) rs) :
    rs.flatten.length ≤ n ∧ rs.flatten = read m off rs.flatten.length := by
  have hle := h.part.length_le
  rw [read_length] at hle
  constructor
  · exact hle
  · obtain ⟨tail,htail⟩ := h.part
    have hsplit : n = rs.flatten.length+(n-rs.flatten.length) := by omega
    rw [hsplit,read_add] at htail
    exact (List.append_inj htail (by simp)).1

/-- The loop of `SendData`: from any point on, what is still to be sent goes out in some
number of records. The induction is on the bytes that are left. -/
theorem sends_rest (hsplit : split.Sound maxRecord) (hp : p.dataSize < 2^31) (left : ℕ) :
    ∀ n, n+left = p.dataSize → ∀ k ch, ∃ k' body,
      Leads (Sender.step split p) ⟨.loop p.dataSize n,k,ch⟩ ⟨.returned true,k',ch++body⟩ ∧
        body.flatten = read p.data n left ∧ ∀ r ∈ body, r ≠ [] := by
  induction left using Nat.strong_induction_on with
  | _ left ih =>
    intro n hn k ch
    rw [SendState.loop_natCast (show n ≤ p.dataSize by omega)]
    by_cases hleft : left = 0
    · rw [if_pos (by omega),hleft]
      exact ⟨k,[],by simpa using Leads.refl _ _,rfl,by simp⟩
    · rw [if_neg (by omega)]
      have hbuf := SendState.buffer_writeData hp (show n ≤ p.dataSize by omega)
      rw [show p.dataSize-n = left by omega] at hbuf
      have hwrote := hsplit k (read p.data n left)
        (List.ne_nil_of_length_pos (by rw [read_length]; omega))
      have hpos := hwrote.length_pos
      obtain ⟨hle,hflat⟩ := hwrote.flatten_eq
      generalize hrs : split k (read p.data n left) = rs at hwrote hpos hle hflat
      generalize hw : rs.flatten.length = w at hpos hle hflat
      have hstep : Sender.step split p ⟨.writeData n,k,ch⟩ =
          ⟨.loop p.dataSize (n+w : ℕ),k+1,ch++rs⟩ := by
        simp only [Sender.step,hbuf,hrs,hw]
        rw [SendState.next_writeData hp (by omega)]
      obtain ⟨k',body,hlead,hbody,hne⟩ := ih (left-w) (by omega) (n+w) (by omega) (k+1) (ch++rs)
      refine ⟨k',rs++body,?_,?_,?_⟩
      · rw [← List.append_assoc]
        exact hlead.head hstep
      · rw [List.flatten_append,hflat,hbody,← read_add,Nat.add_sub_of_le hle]
      · intro r hr
        rcases List.mem_append.mp hr with h | h
        · exact hwrote.records r h
        · exact hne r h

theorem sendData_frames (hmax : 4 ≤ maxRecord) (hsplit : split.Sound maxRecord)
    (hp : p.dataSize < 2^31) (k : ℕ) (ch : Channel) :
    ∃ k' rs, Leads (Sender.step split p) ⟨.writeSize,k,ch⟩ ⟨.returned true,k',ch++rs⟩ ∧
      Framed p.bytes rs := by
  have hrecord : split k (leBytes p.dataSize) = [leBytes p.dataSize] :=
    (hsplit k _ (by simp [leBytes])).whole (by simpa using hmax)
  have hstep : Sender.step split p ⟨.writeSize,k,ch⟩ =
      ⟨.loop p.dataSize (0 : ℕ),k+1,ch++[leBytes p.dataSize]⟩ := by
    simp [Sender.step,SendState.buffer,SendState.next,hrecord]
  obtain ⟨k',body,hlead,hbody,hne⟩ :=
    sends_rest hsplit hp p.dataSize 0 (by omega) (k+1) (ch++[leBytes p.dataSize])
  refine ⟨k',leBytes p.dataSize::body,?_,⟨body,by rw [p.bytes_length],hbody,hne⟩⟩
  rw [List.append_cons]
  exact hlead.head hstep

/-- The loop of `ReceiveData`, with `body` the records of the message that are still on
the channel. It asks for all that is left of the message, so it takes whole records. -/
theorem receives_rest {n : ℕ} (hn : n < 2^31) (rest : Channel) (body : List Bytes)
    (hne : ∀ r ∈ body, r ≠ []) :
    ∀ m, m+body.flatten.length = n → ∀ data, ∃ data',
      Leads Receiver.step ⟨.loop n m,data,body++rest⟩ ⟨.done n,data',rest⟩ ∧
        read data' 0 n = read data 0 m ++ body.flatten := by
  induction body with
  | nil =>
    intro m hm data
    rw [List.flatten_nil,List.length_nil,Nat.add_zero] at hm
    rw [RecvState.loop_natCast (by omega) (by omega),if_pos hm,hm]
    exact ⟨data,Leads.refl _ _,by simp⟩
  | cons r body ih =>
    intro m hm data
    have hr := List.length_pos_of_ne_nil (hne r (by simp))
    rw [List.flatten_cons,List.length_append] at hm
    rw [RecvState.loop_natCast (by omega) (by omega),if_neg (by omega)]
    have hstep : Receiver.step ⟨.readData n m,data,r::(body++rest)⟩ =
        ⟨.loop n (m+r.length : ℕ),write data m r,body++rest⟩ := by
      have hread : sslRead (n-m) (r::(body++rest)) = some (r,body++rest) := by
        rw [sslRead,List.take_of_length_le (by omega),if_neg (by omega)]
      simp only [Receiver.step,RecvState.wanted_readData hn (show m ≤ n by omega),hread,
        RecvState.store,Int.toNat_natCast]
      rw [RecvState.next_readData hn (by omega)]
    obtain ⟨data',hlead,hread⟩ := ih (fun s hs => hne s (by simp [hs])) (m+r.length) (by omega)
      (write data m r)
    refine ⟨data',hlead.head hstep,?_⟩
    rw [hread,read_write_append,List.flatten_cons,List.append_assoc]

theorem receiveData_framed {m : Bytes} {rs : List Bytes} (h : Framed m rs)
    (hm : m.length < 2^31) (data : Mem UInt8) (rest : Channel) :
    ∃ data', Leads Receiver.step ⟨.readSize,data,rs++rest⟩ ⟨.done m.length,data',rest⟩ ∧
      read data' 0 m.length = m := by
  obtain ⟨body,rfl,rfl,hne⟩ := h.frame
  have hstep : Receiver.step ⟨.readSize,data,leBytes body.flatten.length::(body++rest)⟩ =
      ⟨.loop body.flatten.length (0 : ℕ),data,body++rest⟩ := by
    have hnext := RecvState.next_readSize hm
    simp only [Receiver.step,RecvState.wanted,sslRead,leBytes_length,lt_irrefl,if_false,
      List.take_of_length_le (leBytes_length _).le,RecvState.store]
    exact congrArg (Receiver.mk · data (body++rest)) hnext
  obtain ⟨data',hlead,hread⟩ := receives_rest hm rest body hne 0 (by omega) data
  exact ⟨data',hlead.head hstep,by simpa using hread⟩

/-- Whatever the splitting, successive `SendData` calls return `true`, and successive
`ReceiveData` calls into any buffers hand out the same sizes and bytes in order and
leave the channel where the messages end. -/
theorem receives_sent (hmax : 4 ≤ maxRecord) (hsplit : split.Sound maxRecord)
    (ps : List Payload) (hps : ∀ p ∈ ps, p.dataSize < 2^31) (k : ℕ) (ch : Channel) :
    ∃ k' rs, SendsAll split ps k ch k' (ch++rs) ∧
      ∀ bufs, bufs.length = ps.length → ∀ rest,
        ReceivesAll bufs (rs++rest) (ps.map fun p => (p.dataSize,p.bytes)) rest := by
  induction ps generalizing k ch with
  | nil =>
    refine ⟨k,[],by simp [SendsAll],?_⟩
    intro bufs hbufs rest
    rw [List.length_eq_zero_iff.mp hbufs]
    simp [ReceivesAll]
  | cons p ps ih =>
    have hp := hps p (by simp)
    obtain ⟨k₁,rs₁,hsend,hframe⟩ := sendData_frames hmax hsplit hp k ch
    obtain ⟨k',rs,hsends,hreceives⟩ := ih (fun q hq => hps q (by simp [hq])) k₁ (ch++rs₁)
    refine ⟨k',rs₁++rs,⟨k₁,ch++rs₁,hsend,?_⟩,?_⟩
    · rwa [← List.append_assoc]
    · intro bufs hbufs rest
      obtain ⟨data,bufs,rfl⟩ := List.exists_cons_of_length_eq_add_one hbufs
      obtain ⟨data',hlead,hread⟩ :=
        receiveData_framed hframe (by rwa [p.bytes_length]) data (rs++rest)
      rw [p.bytes_length] at hlead hread
      rw [List.append_assoc]
      refine ⟨p.dataSize,data',rs++rest,ps.map fun p => (p.dataSize,p.bytes),hlead,?_,?_⟩
      · rw [hread,List.map_cons]
      · exact hreceives bufs (by simpa using hbufs) rest

def oneRecord (maxRecord : ℕ) : Splitting := fun _ buf => [buf.take maxRecord]

theorem oneRecord_sound (h : 0 < maxRecord) : (oneRecord maxRecord).Sound maxRecord := by
  intro k buf hbuf
  have hpos := List.length_pos_of_ne_nil hbuf
  constructor
  · simp [oneRecord]
  · intro r hr
    rw [List.mem_singleton.mp hr]
    apply List.ne_nil_of_length_pos
    rw [List.length_take]
    omega
  · simpa [oneRecord] using List.take_prefix maxRecord buf
  · intro hle
    rw [oneRecord,List.take_of_length_le hle]

theorem receives_sent_three_messages :
    ∃ k rs, SendsAll (oneRecord 16384)
        [⟨fun i => UInt8.ofNat i,40000,by decide⟩,⟨fun _ => 7,0,by decide⟩,
          ⟨fun _ => 9,3,by decide⟩] 0 [] k ([]++rs) ∧
      ∀ bufs : List (Mem UInt8), bufs.length = 3 → ∀ rest,
        ReceivesAll bufs (rs++rest)
          [(40000,read (fun i => UInt8.ofNat i) 0 40000),(0,[]),(3,[9,9,9])] rest :=
  receives_sent (by decide) (oneRecord_sound (by decide)) _
    (by simp only [List.forall_mem_cons]; simp) 0 []

end Framing
end CloudServer
