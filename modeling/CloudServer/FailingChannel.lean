import CloudServer.Transport

/-! `SendData` and `ReceiveData` on a channel that fails. The library answers with
positive counts up to some call, and with 0 or -1 from then on. Both loops add the
answer to their counter without a look at its sign, so once the length of a message
has gone through neither function reports an error. -/
namespace CloudServer
namespace FailingChannel

open ByteMemory Transport Finset

def Permanent (ret : ℕ → ℤ) : Prop := ∀ k, -1 ≤ ret k ∧ (ret k ≤ 0 → ret (k+1) ≤ 0)

/-- The calls after the one for the length succeed until they come to `n` bytes. -/
def Delivers (ret : ℕ → ℤ) (n : ℕ) : Prop :=
  ∃ t, (∀ i < t, 0 < ret (i+1)) ∧ ∑ i ∈ range t, ret (i+1) = n

theorem Permanent.le_zero {ret : ℕ → ℤ} (h : Permanent ret) {k : ℕ} (hk : ret k ≤ 0) :
    ∀ j, k ≤ j → ret j ≤ 0 := by
  intro j hj
  induction j, hj using Nat.le_induction with
  | base => exact hk
  | succ j _ ih => exact (h j).2 ih

section Counting

/-! A loop that counts up to `n`: `At t m` says that `t` rounds have counted to `m`. -/

variable {ret : ℕ → ℤ} {n : ℕ} {At : ℕ → ℕ → Prop}

theorem counts_of_progress (h0 : At 0 0) (hle : ∀ t m, At t m → m ≤ n)
    (hround : ∀ t m, At t m → m < n → ∃ w : ℕ, 0 < w ∧ ret (t+1) = w ∧ At (t+1) (m+w)) :
    ∃ t, (∀ i < t, 0 < ret (i+1)) ∧ ∑ i ∈ range t, ret (i+1) = n ∧ At t n := by
  have hfrom : ∀ left t m, m+left = n → At t m → (∀ i < t, 0 < ret (i+1)) →
      ∑ i ∈ range t, ret (i+1) = m →
      ∃ t, (∀ i < t, 0 < ret (i+1)) ∧ ∑ i ∈ range t, ret (i+1) = n ∧ At t n := by
    intro left
    induction left using Nat.strong_induction_on with
    | _ left ih =>
      intro t m hm hAt hpos hsum
      by_cases hleft : left = 0
      · obtain rfl : m = n := by omega
        exact ⟨t,hpos,hsum,hAt⟩
      · obtain ⟨w,hw,hret,hnext⟩ := hround t m hAt (by omega)
        have hbound := hle _ _ hnext
        apply ih (left-w) (by omega) (t+1) (m+w) (by omega) hnext
        · intro i hi
          rcases Nat.lt_succ_iff_lt_or_eq.mp hi with h | rfl
          · exact hpos i h
          · omega
        · rw [sum_range_succ,hsum,hret,Nat.cast_add]
  exact hfrom n 0 0 (by omega) h0 (by omega) (by simp)

theorem at_of_counts (h0 : At 0 0)
    (hround : ∀ t m w : ℕ, At t m → 0 < w → ret (t+1) = w → m+w ≤ n → At (t+1) (m+w))
    {t : ℕ} (hpos : ∀ i < t, 0 < ret (i+1)) (hsum : ∑ i ∈ range t, ret (i+1) = n) :
    ∀ s ≤ t, ∃ m : ℕ, ∑ i ∈ range s, ret (i+1) = m ∧ At s m := by
  intro s
  induction s with
  | zero =>
    intro _
    exact ⟨0,by simp,h0⟩
  | succ s ih =>
    intro hs
    obtain ⟨m,hm,hAt⟩ := ih (by omega)
    have hw := hpos s (by omega)
    have hle : ∑ i ∈ range (s+1), ret (i+1) ≤ ∑ i ∈ range t, ret (i+1) := by
      apply sum_le_sum_of_subset_of_nonneg (range_mono hs)
      intro i hi _
      exact (hpos i (mem_range.mp hi)).le
    rw [hsum,sum_range_succ,hm] at hle
    have hcast : ret (s+1) = (ret (s+1)).toNat := by omega
    refine ⟨m+(ret (s+1)).toNat,?_,?_⟩
    · rw [sum_range_succ,hm,Nat.cast_add,← hcast]
    · exact hround s m _ hAt (by omega) hcast (by omega)

theorem count_lt {t s m : ℕ} (hpos : ∀ i < t, 0 < ret (i+1))
    (hsum : ∑ i ∈ range t, ret (i+1) = n) (hs : s < t) (hm : ∑ i ∈ range s, ret (i+1) = m) :
    m < n := by
  have hlt : ∑ i ∈ range s, ret (i+1) < ∑ i ∈ range t, ret (i+1) := by
    apply sum_lt_sum_of_subset (range_mono hs.le) (mem_range.mpr hs) (by simp) (hpos s hs)
    intro i hi _
    exact (hpos i (mem_range.mp hi)).le
  omega

theorem stopped_iff {σ : Type} (run : ℕ → σ) (Stopped : σ → Prop) {t : ℕ}
    (hafter : ∀ k, Stopped (run k) → ∀ j, k ≤ j → run j = run k) (hstart : ¬Stopped (run 0))
    (hrunning : ∀ s < t, ¬Stopped (run (s+1))) (hend : Stopped (run (t+1))) (k : ℕ) :
    Stopped (run k) ↔ t+1 ≤ k := by
  constructor
  · intro hk
    by_contra hlt
    cases k with
    | zero => exact hstart hk
    | succ s => exact hrunning s (by omega) hk
  · intro hge
    rwa [hafter _ hend k hge]

theorem end_le_error {t : ℕ} (h0 : 0 < ret 0) (hpos : ∀ i < t, 0 < ret (i+1)) {k : ℕ}
    (hk : ret k ≤ 0) : t+1 ≤ k := by
  by_contra hlt
  cases k with
  | zero => omega
  | succ s => exact absurd hk (not_le.mpr (hpos s (by omega)))

end Counting

structure Sending where
  state : SendState
  accepted : Bytes

/-- `accepted` is what the library has taken of the buffer of the caller. -/
def Sending.step (p : Payload) (s : Sending) (w : ℤ) : Sending :=
  match s.state with
  | .writeSize => ⟨s.state.next p.dataSize w,s.accepted⟩
  | .writeData _ =>
      ⟨s.state.next p.dataSize w,s.accepted++((s.state.buffer p).getD []).take w.toNat⟩
  | .returned _ => s

def sending (p : Payload) (w : ℕ → ℤ) : ℕ → Sending
  | 0 => ⟨.writeSize,[]⟩
  | k+1 => (sending p w k).step p (w k)

/-- What `SSL_write` can answer to this call: never more than it was given. -/
structure WriteReturns (p : Payload) (w : ℕ → ℤ) : Prop where
  permanent : Permanent w
  bounded : ∀ k buf, (sending p w k).state.buffer p = some buf → w k ≤ buf.length

structure SendHonest (p : Payload) (w : ℕ → ℤ) : Prop where
  complete : ∀ k, (sending p w k).state = .returned true → (sending p w k).accepted = p.bytes
  reported : ∀ k, (∀ j, k ≤ j → w j ≤ 0) → (∀ b, (sending p w k).state ≠ .returned b) →
    ∃ j, (sending p w j).state = .returned false

variable {p : Payload} {w : ℕ → ℤ}

theorem sending_stopped (k : ℕ) (h : ∃ b, (sending p w k).state = .returned b) :
    ∀ j, k ≤ j → sending p w j = sending p w k := by
  obtain ⟨b,hb⟩ := h
  intro j hj
  induction j, hj using Nat.le_induction with
  | base => rfl
  | succ j _ ih => rw [sending,ih,Sending.step,hb]

theorem sending_one (h : 0 < w 0) : sending p w 1 = ⟨.loop p.dataSize 0,[]⟩ := by
  simp [sending,Sending.step,SendState.next,not_le.mpr h]

theorem sending_one_failed (h : w 0 ≤ 0) : sending p w 1 = ⟨.returned false,[]⟩ := by
  simp [sending,Sending.step,SendState.next,h]

theorem sending_succ (h : 0 < w 0) (k : ℕ) :
    (sending p w (k+1)).state = .returned true ∨
      ∃ n, (sending p w (k+1)).state = .writeData n := by
  have hloop : ∀ n, SendState.loop p.dataSize n = .returned true ∨
      ∃ m, SendState.loop p.dataSize n = .writeData m := by
    intro n
    rw [SendState.loop]
    split
    · exact Or.inr ⟨n,rfl⟩
    · exact Or.inl rfl
  induction k with
  | zero =>
    rw [sending_one h]
    exact hloop 0
  | succ k ih =>
    rw [sending]
    rcases ih with hdone | ⟨n,hn⟩
    · simp only [Sending.step,hdone]
      exact Or.inl trivial
    · simp only [Sending.step,hn,SendState.next]
      exact hloop _

theorem sending_ne_failed (h : 0 < w 0) (k : ℕ) : (sending p w k).state ≠ .returned false := by
  cases k with
  | zero => simp [sending]
  | succ k =>
    rcases sending_succ (p := p) h k with hdone | ⟨n,hn⟩
    · simp [hdone]
    · simp [hn]

/-- `t` writes of payload have brought the loop of `SendData` to `m` bytes. -/
def SentAt (p : Payload) (w : ℕ → ℤ) (t m : ℕ) : Prop :=
  m ≤ p.dataSize ∧ sending p w (t+1) = ⟨.loop p.dataSize m,read p.data 0 m⟩

theorem sentAt_zero (h : 0 < w 0) : SentAt p w 0 0 :=
  ⟨Nat.zero_le _,by simpa using sending_one h⟩

theorem sentAt_running {t m : ℕ} (h : SentAt p w t m) (hm : m < p.dataSize) :
    sending p w (t+1) = ⟨.writeData m,read p.data 0 m⟩ := by
  rw [h.2,SendState.loop_natCast h.1,if_neg (by omega)]

theorem sentAt_end {t : ℕ} (h : SentAt p w t p.dataSize) :
    sending p w (t+1) = ⟨.returned true,p.bytes⟩ := by
  rw [h.2,SendState.loop_natCast h.1,if_pos rfl]
  rfl

theorem sentAt_succ (hsize : p.dataSize < 2^31) {t m v : ℕ} (h : SentAt p w t m) (hv : 0 < v)
    (hret : w (t+1) = v) (hle : m+v ≤ p.dataSize) : SentAt p w (t+1) (m+v) := by
  constructor
  · exact hle
  · rw [sending,sentAt_running h (by omega),hret]
    simp only [Sending.step]
    rw [SendState.next_writeData hsize hle,SendState.buffer_writeData hsize (by omega),
      Option.getD_some,Int.toNat_natCast,read_take p.data m (by omega),read_add,Nat.zero_add]

theorem dataSize_lt_of_accepted (hw : WriteReturns p w) (h0 : 0 < w 0) (h1 : 0 < w 1) :
    p.dataSize < 2^31 := by
  by_contra hsize
  have hlt := p.dataSize_lt
  have hstate := sentAt_running (sentAt_zero h0) (show 0 < p.dataSize by omega)
  have hbound := hw.bounded 1 _ (by rw [hstate]; rfl)
  rw [read_length,Nat.cast_zero,sub_zero] at hbound
  unfold int32 at hbound
  omega

theorem SendHonest.answer_pos (hw : WriteReturns p w) (h0 : 0 < w 0) (h : SendHonest p w)
    {t m : ℕ} (hAt : SentAt p w t m) (hm : m < p.dataSize) : 0 < w (t+1) := by
  by_contra herr
  obtain ⟨j,hj⟩ := h.reported (t+1) (hw.permanent.le_zero (by omega))
    (by rw [sentAt_running hAt hm]; simp)
  exact sending_ne_failed h0 j hj

theorem delivers_of_sendHonest (hw : WriteReturns p w) (h0 : 0 < w 0) (h : SendHonest p w) :
    Delivers w p.dataSize := by
  by_cases hzero : p.dataSize = 0
  · exact ⟨0,by omega,by simp [hzero]⟩
  have hsize := dataSize_lt_of_accepted hw h0 (h.answer_pos hw h0 (sentAt_zero h0) (by omega))
  have hround : ∀ t m, SentAt p w t m → m < p.dataSize →
      ∃ v : ℕ, 0 < v ∧ w (t+1) = v ∧ SentAt p w (t+1) (m+v) := by
    intro t m hAt hm
    have hv := h.answer_pos hw h0 hAt hm
    have hbound := hw.bounded (t+1) _ (by
      rw [sentAt_running hAt hm]
      exact SendState.buffer_writeData hsize hAt.1)
    rw [read_length] at hbound
    have hcast : w (t+1) = (w (t+1)).toNat := by omega
    exact ⟨_,by omega,hcast,sentAt_succ hsize hAt (by omega) hcast (by omega)⟩
  obtain ⟨t,hpos,hsum,-⟩ := counts_of_progress (sentAt_zero h0) (fun t m hAt => hAt.1) hround
  exact ⟨t,hpos,hsum⟩

theorem sendHonest_of_delivers (hw : WriteReturns p w) (h0 : 0 < w 0)
    (h : Delivers w p.dataSize) : SendHonest p w := by
  obtain ⟨t,hpos,hsum⟩ := h
  have hsize : p.dataSize < 2^31 := by
    by_cases ht : t = 0
    · simp only [ht,range_zero,sum_empty] at hsum
      omega
    · exact dataSize_lt_of_accepted hw h0 (hpos 0 (by omega))
  have hAt := at_of_counts (sentAt_zero h0) (fun t m v => sentAt_succ hsize (t := t)) hpos hsum
  have hend : sending p w (t+1) = ⟨.returned true,p.bytes⟩ := by
    obtain ⟨m,hm,hsent⟩ := hAt t le_rfl
    obtain rfl : m = p.dataSize := by omega
    exact sentAt_end hsent
  have hstops := stopped_iff (sending p w) (fun s => ∃ b, s.state = .returned b) sending_stopped
    (by simp [sending])
    (by
      intro s hs
      obtain ⟨m,hm,hsent⟩ := hAt s hs.le
      simp [sentAt_running hsent (count_lt hpos hsum hs hm)])
    (by simp [hend])
  constructor
  · intro k hk
    rw [sending_stopped (t+1) (by simp [hend]) k ((hstops k).mp ⟨true,hk⟩),hend]
  · intro k herr hrunning
    obtain ⟨b,hb⟩ := (hstops k).mpr (end_le_error h0 hpos (herr k le_rfl))
    exact absurd hb (hrunning b)

theorem sendHonest_of_refused (h : w 0 ≤ 0) : SendHonest p w := by
  have hafter := sending_stopped (p := p) 1 ⟨false,by rw [sending_one_failed h]⟩
  constructor
  · intro k hk
    cases k with
    | zero => simp [sending] at hk
    | succ k =>
      rw [hafter (k+1) (by omega),sending_one_failed h] at hk
      simp at hk
  · intro _ _ _
    exact ⟨1,by rw [sending_one_failed h]⟩

/-- `SendData` is honest exactly when the channel does not fail between the length and
the last byte. -/
theorem sendHonest_iff (hw : WriteReturns p w) :
    SendHonest p w ↔ w 0 ≤ 0 ∨ Delivers w p.dataSize := by
  by_cases h0 : w 0 ≤ 0
  · simp [h0,sendHonest_of_refused h0]
  · simp only [h0,false_or]
    exact ⟨delivers_of_sendHonest hw (by omega),sendHonest_of_delivers hw (by omega)⟩

structure Receiving where
  state : RecvState
  data : Mem UInt8
  pos : ℕ

/-- What the peer sends: the length it announces, then the payload. -/
def stream (announced : ℕ) (payload : Mem UInt8) : Mem UInt8 :=
  write (fun i => payload (i-4)) 0 (leBytes announced)

/-- `pos` is the number of bytes of the stream that have been read. -/
def Receiving.step (src : Mem UInt8) (s : Receiving) (r : ℤ) : Receiving :=
  match s.state.wanted with
  | none => s
  | some _ =>
    let d := read src s.pos r.toNat
    ⟨s.state.next r d,s.state.store s.data d,s.pos+r.toNat⟩

def receiving (announced : ℕ) (payload data : Mem UInt8) (r : ℕ → ℤ) : ℕ → Receiving
  | 0 => ⟨.readSize,data,0⟩
  | k+1 => (receiving announced payload data r k).step (stream announced payload) (r k)

/-- What `SSL_read` can answer, whatever the payload: never more than it was asked for. -/
structure ReadReturns (announced : ℕ) (r : ℕ → ℤ) : Prop where
  permanent : Permanent r
  bounded : ∀ payload data k n,
    (receiving announced payload data r k).state.wanted = some n → r k ≤ n

structure RecvHonest (announced : ℕ) (payload data : Mem UInt8) (r : ℕ → ℤ) : Prop where
  complete : ∀ k n, (receiving announced payload data r k).state = .done n → n = announced ∧
    (receiving announced payload data r k).data = write data 0 (read payload 0 announced)
  reported : ∀ k, (∀ j, k ≤ j → r j ≤ 0) →
    (receiving announced payload data r k).state.wanted ≠ none →
    ∃ j, (receiving announced payload data r j).state = .failed

variable {announced : ℕ} {payload data : Mem UInt8} {r : ℕ → ℤ}

theorem ReadReturns.first_le (hr : ReadReturns announced r) : r 0 ≤ 4 :=
  hr.bounded (fun _ => 0) (fun _ => 0) 0 4 rfl

theorem receiving_stopped (k : ℕ)
    (h : (receiving announced payload data r k).state.wanted = none) :
    ∀ j, k ≤ j → receiving announced payload data r j = receiving announced payload data r k := by
  intro j hj
  induction j, hj using Nat.le_induction with
  | base => rfl
  | succ j _ ih => rw [receiving,ih,Receiving.step,h]

theorem receiving_one_failed (h : r 0 ≤ 0) :
    receiving announced payload data r 1 = ⟨.failed,data,0⟩ := by
  simp [receiving,Receiving.step,RecvState.wanted,RecvState.next,RecvState.store,h]

theorem read_stream_announced {c : ℕ} (hc : c ≤ 4) :
    read (stream announced payload) 0 c = (leBytes announced).take c := by
  have hall := read_write_self (fun i => payload (i-4)) 0 (leBytes announced)
  rw [leBytes_length] at hall
  rw [← read_take _ 0 hc,stream,hall]

theorem read_stream_payload (n : ℕ) : read (stream announced payload) 4 n = read payload 0 n := by
  apply List.ext_getElem (by simp)
  intro i hi hi'
  simp [ByteMemory.read,stream,write,leBytes]

def lenAfter (announced c : ℕ) : ℤ := int32 (leWord ((leBytes announced).take c))

theorem receiving_one (h : 0 < r 0) (hle : r 0 ≤ 4) :
    receiving announced payload data r 1 =
      ⟨.loop (lenAfter announced (r 0).toNat) 0,data,(r 0).toNat⟩ := by
  simp only [receiving,Receiving.step,RecvState.wanted,RecvState.next,RecvState.store,
    if_neg (not_le.mpr h),Nat.zero_add]
  rw [read_stream_announced (by omega)]
  rfl

theorem receiving_succ (h : 0 < r 0) (hle : r 0 ≤ 4) (k : ℕ) :
    (∃ n, (receiving announced payload data r (k+1)).state = .done n) ∨
      ∃ len n, (receiving announced payload data r (k+1)).state = .readData len n := by
  have hloop : ∀ len n, (∃ m, RecvState.loop len n = .done m) ∨
      ∃ l m, RecvState.loop len n = .readData l m := by
    intro len n
    rw [RecvState.loop]
    split
    · exact Or.inr ⟨len,n,rfl⟩
    · exact Or.inl ⟨_,rfl⟩
  induction k with
  | zero =>
    simp only [Nat.zero_add,receiving_one h hle]
    exact hloop (lenAfter announced (r 0).toNat) 0
  | succ k ih =>
    rw [receiving]
    rcases ih with ⟨n,hdone⟩ | ⟨len,n,hn⟩
    · simp only [Receiving.step,hdone,RecvState.wanted]
      exact Or.inl ⟨n,rfl⟩
    · simp only [Receiving.step,hn,RecvState.wanted,RecvState.next]
      exact hloop _ _

theorem receiving_ne_failed (h : 0 < r 0) (hle : r 0 ≤ 4) (k : ℕ) :
    (receiving announced payload data r k).state ≠ .failed := by
  cases k with
  | zero => simp [receiving]
  | succ k =>
    rcases @receiving_succ announced payload data r h hle k with ⟨n,hn⟩ | ⟨len,n,hn⟩
    · simp [hn]
    · simp [hn]

/-- `t` reads of payload have brought the loop of `ReceiveData` to `m` bytes of `len`. -/
def ReceivedAt (announced : ℕ) (payload data : Mem UInt8) (r : ℕ → ℤ) (len t m : ℕ) : Prop :=
  m ≤ len ∧ receiving announced payload data r (t+1) =
    ⟨.loop len m,write data 0 (read (stream announced payload) (r 0).toNat m),(r 0).toNat+m⟩

theorem receivedAt_zero (payload data : Mem UInt8) (h : 0 < r 0) (hle : r 0 ≤ 4) {len : ℕ}
    (hlen : lenAfter announced (r 0).toNat = len) :
    ReceivedAt announced payload data r len 0 0 := by
  constructor
  · exact Nat.zero_le _
  · rw [receiving_one h hle,hlen,read_zero,write_nil,Nat.cast_zero,Nat.add_zero]

section Loop

variable {len : ℕ} (hlen : len < 2^31)
include hlen

theorem receivedAt_running {t m : ℕ} (h : ReceivedAt announced payload data r len t m)
    (hm : m < len) : (receiving announced payload data r (t+1)).state = .readData len m := by
  rw [h.2,RecvState.loop_natCast (by omega) h.1,if_neg (by omega)]

theorem receivedAt_end {t : ℕ} (h : ReceivedAt announced payload data r len t len) :
    (receiving announced payload data r (t+1)).state = .done len := by
  rw [h.2,RecvState.loop_natCast (by omega) h.1,if_pos rfl]

theorem receivedAt_succ {t m v : ℕ} (h : ReceivedAt announced payload data r len t m) (hv : 0 < v)
    (hret : r (t+1) = v) (hle : m+v ≤ len) :
    ReceivedAt announced payload data r len (t+1) (m+v) := by
  constructor
  · exact hle
  · have hstate := receivedAt_running hlen h (by omega)
    rw [receiving,Receiving.step,hstate,hret]
    simp only [RecvState.wanted,RecvState.store,Int.toNat_natCast]
    rw [RecvState.next_readData hlen hle,h.2,Nat.add_assoc,read_add]
    have hwrite := write_append data 0 (read (stream announced payload) (r 0).toNat m)
      (read (stream announced payload) ((r 0).toNat+m) v)
    rw [read_length,Nat.zero_add] at hwrite
    rw [hwrite]

theorem RecvHonest.answer_pos (hr : ReadReturns announced r) (h0 : 0 < r 0)
    (h : RecvHonest announced payload data r) {t m : ℕ}
    (hAt : ReceivedAt announced payload data r len t m) (hm : m < len) : 0 < r (t+1) := by
  by_contra herr
  obtain ⟨j,hj⟩ := h.reported (t+1) (hr.permanent.le_zero (by omega))
    (by rw [receivedAt_running hlen hAt hm]; simp [RecvState.wanted])
  exact receiving_ne_failed h0 hr.first_le j hj

theorem counts_of_recvHonest (hr : ReadReturns announced r) (h0 : 0 < r 0)
    (hfirst : lenAfter announced (r 0).toNat = len) (h : RecvHonest announced payload data r) :
    ∃ t, (∀ i < t, 0 < r (i+1)) ∧ ∑ i ∈ range t, r (i+1) = len ∧
      ReceivedAt announced payload data r len t len := by
  apply counts_of_progress (receivedAt_zero payload data h0 hr.first_le hfirst) (fun t m hAt => hAt.1)
  intro t m hAt hm
  have hv := h.answer_pos hlen hr h0 hAt hm
  have hbound := hr.bounded payload data (t+1) (len-m) (by
    rw [receivedAt_running hlen hAt hm]
    exact RecvState.wanted_readData hlen hAt.1)
  have hcast : r (t+1) = (r (t+1)).toNat := by omega
  exact ⟨_,by omega,hcast,receivedAt_succ hlen hAt (by omega) hcast (by omega)⟩

end Loop

theorem recvHonest_of_refused (h : r 0 ≤ 0) : RecvHonest announced payload data r := by
  have hfailed := @receiving_one_failed announced payload data r h
  constructor
  · intro k n hk
    cases k with
    | zero => simp [receiving] at hk
    | succ k =>
      rw [receiving_stopped 1 (by rw [hfailed]; rfl) (k+1) (by omega),hfailed] at hk
      simp at hk
  · intro _ _ _
    exact ⟨1,by rw [hfailed]⟩

theorem recvHonest_of_counts (hr : ReadReturns announced r) (h0 : 0 < r 0)
    (hsize : announced < 2^31) (hfirst : lenAfter announced (r 0).toNat = announced)
    (hstored : read (stream announced payload) (r 0).toNat announced = read payload 0 announced)
    (h : Delivers r announced) : RecvHonest announced payload data r := by
  obtain ⟨t,hpos,hsum⟩ := h
  have hAt := at_of_counts (receivedAt_zero payload data h0 hr.first_le hfirst)
    (fun t m v => receivedAt_succ hsize (t := t)) hpos hsum
  obtain ⟨m,hm,hlast⟩ := hAt t le_rfl
  obtain rfl : m = announced := by omega
  have hend := receivedAt_end hsize hlast
  have hwanted : (receiving m payload data r (t+1)).state.wanted = none := by
    rw [hend,RecvState.wanted]
  have hstops := stopped_iff (receiving m payload data r) (fun s => s.state.wanted = none)
    receiving_stopped (by simp [receiving,RecvState.wanted])
    (by
      intro s hs
      obtain ⟨l,hl,hmid⟩ := hAt s hs.le
      simp [receivedAt_running hsize hmid (count_lt hpos hsum hs hl),RecvState.wanted])
    hwanted
  constructor
  · intro k n hk
    have hge := (hstops k).mp (by rw [hk,RecvState.wanted])
    rw [receiving_stopped (t+1) hwanted k hge] at hk ⊢
    rw [hend,RecvState.done.injEq] at hk
    exact ⟨hk.symm,by rw [hlast.2,hstored]⟩
  · intro k herr hrunning
    exact absurd ((hstops k).mpr (end_le_error h0 hpos (herr k le_rfl))) hrunning

/-- A payload that differs from a byte of the length shows a read of the length that
came back short. -/
theorem four_bytes_of_recvHonest (hr : ReadReturns announced r) (h0 : 0 < r 0)
    (hN : announced ≠ 0) (h : ∀ payload data, RecvHonest announced payload data r) :
    announced < 2^31 ∧ r 0 = 4 ∧ Delivers r announced := by
  have hle := hr.first_le
  by_cases hlen : lenAfter announced (r 0).toNat ≤ 0
  · -- The loop is not entered, and the buffer keeps what it held.
    have hone := @receiving_one announced (fun _ => 1) (fun _ => 0) r h0 hle
    rw [RecvState.loop,if_neg (by omega)] at hone
    have hdata := ((h (fun _ => 1) (fun _ => 0)).complete 1 _ (by rw [hone])).2
    rw [hone] at hdata
    have hread := congrArg (read · 0 announced) hdata
    simp only [read_copy] at hread
    exact absurd (apply_eq_of_read hN hread) (by decide)
  · have hlt := int32_lt (leWord ((leBytes announced).take (r 0).toNat))
    change lenAfter announced (r 0).toNat < 2^31 at hlt
    have hcast : lenAfter announced (r 0).toNat = (lenAfter announced (r 0).toNat).toNat := by omega
    generalize (lenAfter announced (r 0).toNat).toNat = len at hcast
    have hlen' : len < 2^31 := by omega
    let payload : Mem UInt8 := fun _ => ((leBytes announced)[(r 0).toNat]?).getD 0 + 1
    obtain ⟨t,hpos,hsum,hAt⟩ := counts_of_recvHonest hlen' hr h0 hcast (h payload fun _ => 0)
    obtain ⟨rfl,hdata⟩ := (h payload fun _ => 0).complete (t+1) _ (receivedAt_end hlen' hAt)
    have hread := congrArg (read · 0 len) (hAt.2 ▸ hdata)
    simp only [read_copy] at hread
    have hbyte := apply_eq_of_read hN hread
    have hfour : r 0 = 4 := by
      by_contra hne
      have hc : (r 0).toNat < (leBytes len).length := by
        rw [leBytes_length]
        omega
      simp [stream,write,payload,List.getElem?_eq_getElem hc] at hbyte
    exact ⟨hlen',hfour,t,hpos,hsum⟩

theorem lenAfter_four (hN : announced < 2^31) : lenAfter announced 4 = announced := by
  rw [lenAfter,List.take_of_length_le (by simp),leWord_leBytes,u32_of_lt (by omega),
    int32_natCast_of_lt hN]

theorem lenAfter_of_zero (c : ℕ) : lenAfter 0 c = 0 := by
  have hbytes : leBytes 0 = List.replicate 4 0 := rfl
  have hword : ∀ n, leWord (List.replicate n 0) = 0 := by
    intro n
    induction n with
    | zero => rfl
    | succ n ih => simp [List.replicate_succ,leWord,ih]
  rw [lenAfter,hbytes,List.take_replicate,hword]
  rfl

/-- `ReceiveData` is honest, whatever the payload and the buffer, exactly when the length
is refused, or is zero, or comes whole, fits an `int` and is followed by that many bytes. -/
theorem recvHonest_iff (hr : ReadReturns announced r) :
    (∀ payload data, RecvHonest announced payload data r) ↔
      r 0 ≤ 0 ∨ announced = 0 ∨ announced < 2^31 ∧ r 0 = 4 ∧ Delivers r announced := by
  constructor
  · intro h
    by_cases h0 : r 0 ≤ 0
    · exact Or.inl h0
    by_cases hN : announced = 0
    · exact Or.inr (Or.inl hN)
    exact Or.inr (Or.inr (four_bytes_of_recvHonest hr (by omega) hN h))
  · intro h payload data
    by_cases h0 : r 0 ≤ 0
    · exact recvHonest_of_refused h0
    rcases h with h | rfl | ⟨hsize,hfour,hdel⟩
    · exact absurd h h0
    · exact recvHonest_of_counts hr (by omega) (by decide) (lenAfter_of_zero _) rfl
        ⟨0,by omega,by simp⟩
    · apply recvHonest_of_counts hr (by omega) hsize
      · rw [hfour]
        exact lenAfter_four hsize
      · rw [hfour]
        exact read_stream_payload announced
      · exact hdel

/-- Both directions of the transport on a channel that may fail at any call. -/
theorem honest_iff (p : Payload) (w : ℕ → ℤ) (hw : WriteReturns p w) (announced : ℕ) (r : ℕ → ℤ)
    (hr : ReadReturns announced r) :
    (SendHonest p w ↔ w 0 ≤ 0 ∨ Delivers w p.dataSize) ∧
      ((∀ payload data, RecvHonest announced payload data r) ↔
        r 0 ≤ 0 ∨ announced = 0 ∨ announced < 2^31 ∧ r 0 = 4 ∧ Delivers r announced) :=
  ⟨sendHonest_iff hw,recvHonest_iff hr⟩

def answers (l : List ℤ) : ℕ → ℤ := fun k => (l[k]?).getD (-1)

theorem answers_past {l : List ℤ} {k : ℕ} (h : l.length ≤ k) : answers l k = -1 := by
  rw [answers,List.getElem?_eq_none h,Option.getD_none]

theorem permanent_answers {l : List ℤ} (h : ∀ a ∈ l, 0 < a) : Permanent (answers l) := by
  intro k
  rcases Nat.lt_or_ge k l.length with hk | hk
  · have hpos := h _ (List.getElem_mem hk)
    have hanswer : answers l k = l[k] := by rw [answers,List.getElem?_eq_getElem hk,Option.getD_some]
    omega
  · rw [answers_past hk,answers_past (by omega)]
    omega

def threeBytes : Payload := ⟨fun _ => 7,3,by decide⟩

theorem writeReturns_threeBytes : WriteReturns threeBytes (answers [4,2,1]) := by
  constructor
  · exact permanent_answers (by decide)
  · intro k buf hbuf
    rcases k with _ | _ | _ | k
    · obtain rfl := Option.some.inj hbuf
      decide
    · obtain rfl := Option.some.inj hbuf
      decide
    · obtain rfl := Option.some.inj hbuf
      decide
    · rw [answers_past (by simp)]
      omega

theorem readReturns_three : ReadReturns 3 (answers [4,2,1]) := by
  constructor
  · exact permanent_answers (by decide)
  · intro payload data k n hn
    have hAt0 : ReceivedAt 3 payload data (answers [4,2,1]) 3 0 0 :=
      receivedAt_zero payload data (by decide) (by decide) (lenAfter_four (by decide))
    have hAt1 : ReceivedAt 3 payload data (answers [4,2,1]) 3 1 2 :=
      receivedAt_succ (v := 2) (by decide) hAt0 (by decide) rfl (by decide)
    rcases k with _ | _ | _ | k
    · obtain rfl := Option.some.inj hn
      decide
    · rw [receivedAt_running (by decide) hAt0 (by decide)] at hn
      obtain rfl := Option.some.inj hn
      decide
    · rw [receivedAt_running (by decide) hAt1 (by decide)] at hn
      obtain rfl := Option.some.inj hn
      decide
    · rw [answers_past (by simp)]
      omega

theorem honest_iff_error_after_end :
    SendHonest threeBytes (answers [4,2,1]) ∧
      ∀ payload data, RecvHonest 3 payload data (answers [4,2,1]) := by
  have h := honest_iff threeBytes _ writeReturns_threeBytes 3 _ readReturns_three
  have hdel : Delivers (answers [4,2,1]) 3 := ⟨2,by decide,by decide⟩
  exact ⟨h.1.mpr (Or.inr hdel),h.2.mpr (Or.inr (Or.inr ⟨by decide,by decide,hdel⟩))⟩

theorem returns_of_broken (p : Payload) (announced : ℕ) :
    WriteReturns p (answers [4]) ∧ ReadReturns announced (answers [4]) := by
  have hperm : Permanent (answers [4]) := permanent_answers (by decide)
  refine ⟨⟨hperm,?_⟩,⟨hperm,?_⟩⟩
  · intro k buf hbuf
    cases k with
    | zero =>
      obtain rfl := Option.some.inj hbuf
      exact le_rfl
    | succ k =>
      rw [answers_past (by simp)]
      omega
  · intro payload data k n hn
    cases k with
    | zero =>
      obtain rfl := Option.some.inj hn
      exact le_rfl
    | succ k =>
      rw [answers_past (by simp)]
      omega

/-- The connection breaks right after the length: `SendData` returns `true` with nothing
accepted, and `ReceiveData` never returns `false`. -/
theorem broken_after_length :
    WriteReturns threeBytes (answers [4]) ∧ ReadReturns 3 (answers [4]) ∧
      (sending threeBytes (answers [4]) 2).state = .returned true ∧
      (sending threeBytes (answers [4]) 2).accepted = [] ∧
      ¬SendHonest threeBytes (answers [4]) ∧
      ∀ payload data, ¬RecvHonest 3 payload data (answers [4]) := by
  obtain ⟨hw,hr⟩ := returns_of_broken threeBytes 3
  have hstate : (sending threeBytes (answers [4]) 2).state = .returned true := by decide
  refine ⟨hw,hr,hstate,by decide,?_,?_⟩
  · intro h
    have hall := h.complete 2 hstate
    revert hall
    decide
  · intro payload data h
    have hpos := h.answer_pos (by decide) hr (by decide)
      (receivedAt_zero payload data (by decide) hr.first_le (lenAfter_four (by decide))) (by decide)
    revert hpos
    decide

end FailingChannel
end CloudServer
