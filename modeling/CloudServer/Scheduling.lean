import CloudServer.DedupInvariant

/-! Two schedules of the same uploads. Which session stores a shared chunk, where the
flushes fall and how the containers are named differ from run to run; the keys of the
index, the counters and the bytes behind each key do not. Every run is compared with
the list of the chunks that it stored. -/
namespace CloudServer
namespace Scheduling

open ByteMemory Execution StorageCore ContainerFormat Packing PlainIndex Catalog Uploads
  UploadInvariant DedupInvariant
open DataWriter hiding Session Event step Inv

/-- The chunks that the messages of a run carry, client by client, however they are
cut into batches. -/
inductive Carries : List Event → (ℕ → List Bytes) → Prop
  | nil : Carries [] fun _ => []
  | message {es : List Event} {stream : ℕ → List Bytes} (i : ℕ) (chunks : List Bytes)
    (hsmall : ∀ d ∈ chunks, d.length ≤ maxChunkSize) (h : Carries es stream) :
    Carries (.message i chunks.length (encodeChunks chunks)::es)
      (Function.update stream i (chunks ++ stream i))
  | other {e : Event} {es : List Event} {stream : ℕ → List Bytes}
    (he : ∀ i n payload, e ≠ .message i n payload) (h : Carries es stream) : Carries (e::es) stream

/-- The memory in which a session's `ClientVar` is built has a zero chunk count. -/
def FreshMemory : Event → Prop
  | .login _ prior _ => prior.chunkNum = 0
  | _ => True

def Sends (T : Set Bytes) : Event → Prop
  | .message _ currentItemNum payload => ∃ chunks : List Bytes, currentItemNum = chunks.length ∧
      payload = encodeChunks chunks ∧ ∀ d ∈ chunks, d.length ≤ maxChunkSize ∧ d ∈ T
  | _ => True

def Idle (w : World) : Prop := ∀ i s, w.sessions i = some s → ¬ s.batch.index < s.batch.chunkNum

/-- The bytes that the index leads to: those of the fingerprint's entry in the
container that the index names, wherever that container is by now. -/
def Leads (w : World) (fp d : Bytes) : Prop :=
  ∃ id, w.index fp = some id ∧ Has (contents w) id (fp,d)

/-- The outcome of two runs, up to the containers and their names. -/
structure SameOutcome (w₁ w₂ : World) : Prop where
  keys : ∀ fp, (∃ id, w₁.index fp = some id) ↔ ∃ id, w₂.index fp = some id
  uniqueChunkNum : w₁.shared.uniqueChunkNum = w₂.shared.uniqueChunkNum
  uniqueDataSize : w₁.shared.uniqueDataSize = w₂.shared.uniqueDataSize
  stored : ∀ fp id, w₁.index fp = some id →
    ∃ d, ∀ d', (Leads w₁ fp d' ↔ d' = d) ∧ (Leads w₂ fp d' ↔ d' = d)

section Streams

variable {es : List Event} {stream : ℕ → List Bytes}

theorem Carries.event (h : Carries es stream) {i n : ℕ} {payload : Bytes}
    (he : .message i n payload ∈ es) : ∃ chunks : List Bytes, n = chunks.length ∧
      payload = encodeChunks chunks ∧ ∀ d ∈ chunks, d.length ≤ maxChunkSize ∧ d ∈ stream i := by
  induction h with
  | nil => simp at he
  | @message es stream j chunks hsmall _ ih =>
    rcases List.mem_cons.mp he with heq | hin
    · cases heq
      exact ⟨chunks,rfl,rfl,fun d hd => ⟨hsmall d hd,by simp [hd]⟩⟩
    · obtain ⟨chunks',hn,hp,hall⟩ := ih hin
      refine ⟨chunks',hn,hp,fun d hd => ⟨(hall d hd).1,?_⟩⟩
      by_cases hij : i = j
      · subst hij
        simp [(hall d hd).2]
      · rw [Function.update_of_ne hij]
        exact (hall d hd).2
  | other hother _ ih =>
    rcases List.mem_cons.mp he with heq | hin
    · exact absurd heq.symm (hother i n payload)
    · exact ih hin

theorem Carries.sends (h : Carries es stream) : ∀ e ∈ es, Sends {d | ∃ i, d ∈ stream i} e := by
  intro e he
  cases e with
  | message i n payload =>
    obtain ⟨chunks,hn,hp,hall⟩ := h.event he
    exact ⟨chunks,hn,hp,fun d hd => ⟨(hall d hd).1,i,(hall d hd).2⟩⟩
  | login | chunk | lastContainer | setDone | writer => trivial

theorem Carries.sent (h : Carries es stream) {i : ℕ} {d : Bytes} (hd : d ∈ stream i) :
    ∃ chunks : List Bytes, .message i chunks.length (encodeChunks chunks) ∈ es ∧
      (∀ c ∈ chunks, c.length ≤ maxChunkSize) ∧ d ∈ chunks := by
  induction h with
  | nil => simp at hd
  | @message es stream j chunks hsmall _ ih =>
    have hlater : d ∈ stream i → ∃ chunks' : List Bytes,
        .message i chunks'.length (encodeChunks chunks') ∈
          Event.message j chunks.length (encodeChunks chunks)::es ∧
        (∀ c ∈ chunks', c.length ≤ maxChunkSize) ∧ d ∈ chunks' := by
      intro hin
      obtain ⟨chunks',hmem,hall⟩ := ih hin
      exact ⟨chunks',by simp [hmem],hall⟩
    by_cases hij : i = j
    · subst hij
      rw [Function.update_self] at hd
      rcases List.mem_append.mp hd with hnow | hin
      · exact ⟨chunks,by simp,hsmall,hnow⟩
      · exact hlater hin
    · rw [Function.update_of_ne hij] at hd
      exact hlater hd
  | other _ _ ih =>
    obtain ⟨chunks,hmem,hall⟩ := ih hd
    exact ⟨chunks,by simp [hmem],hall⟩

end Streams

def Received (T : Set Bytes) (w : World) : Prop :=
  ∀ i s, w.sessions i = some s → ∃ rest, s.batch.Remaining rest ∧ ∀ d ∈ rest, d ∈ T

/-- What a run from `w₀` has stored so far: new chunks of `T`, each fingerprint once,
all of them counted. -/
structure Ledger (H : Digest) (T : Set Bytes) (w₀ w : World) (stored : List Bytes) : Prop where
  sent : ∀ d ∈ stored, d ∈ T
  fresh : ∀ d ∈ stored, w₀.index (H.hash d) = none
  nodup : (stored.map H.hash).Nodup
  keys : ∀ fp, (∃ id, w.index fp = some id) ↔
    (∃ id, w₀.index fp = some id) ∨ fp ∈ stored.map H.hash
  uniqueChunkNum : w.shared.uniqueChunkNum =
    stored.foldl (fun n _ => (n+1) % 2^64) w₀.shared.uniqueChunkNum
  uniqueDataSize : w.shared.uniqueDataSize =
    stored.foldl (fun n d => (n+d.length) % 2^64) w₀.shared.uniqueDataSize

section Steps

variable {H : Digest} {uuid : ℕ → Bytes} {T : Set Bytes} {w w' : World} {i : ℕ} {s : Session}

theorem shared_takes {e : Event} (h : Takes H uuid w e w') :
    (w'.shared.indexStore = w.shared.indexStore ∧
      w'.shared.uniqueChunkNum = w.shared.uniqueChunkNum ∧
      w'.shared.uniqueDataSize = w.shared.uniqueDataSize) ∨
    ∃ i s id, w.sessions i = some s ∧ s.batch.index < s.batch.chunkNum ∧
      w.index (H.hash s.batch.chunk) = none ∧
      w'.shared.indexStore = Database.insert w.shared.indexStore (H.hash s.batch.chunk) id ∧
      w'.shared.uniqueChunkNum = (w.shared.uniqueChunkNum+1) % 2^64 ∧
      w'.shared.uniqueDataSize = (w.shared.uniqueDataSize+s.batch.chunk.length) % 2^64 := by
  cases h with
  | login | message | lastContainer | setDone | writer => exact Or.inl ⟨rfl,rfl,rfl⟩
  | @chunk i s r hs _ hbusy hr =>
    subst hr
    rcases dedupChunk_cases uuid w.shared s.client (H.hash s.batch.chunk) s.batch.containerNameStr
      s.batch.chunk with ⟨_,_,hdup⟩ | ⟨hnew,hsave⟩
    · rw [hdup]
      exact Or.inl ⟨rfl,rfl,rfl⟩
    · rw [hsave]
      exact Or.inr ⟨i,s,_,hs,hbusy,hnew,rfl,rfl,rfl⟩

theorem received_put {s' : Session} (h : Received T w)
    (hs' : ∃ rest, s'.batch.Remaining rest ∧ ∀ d ∈ rest, d ∈ T) : Received T (w.put i s') := by
  intro j t ht
  rcases put_cases ht with ⟨_,rfl⟩ | ⟨_,hold⟩
  · exact hs'
  · exact h j t hold

theorem received_takes {e : Event} (h : Takes H uuid w e w') (hw : Received T w)
    (he : Sends T e) : Received T w' := by
  cases h with
  | login => exact received_put hw ⟨[],⟨rfl,holds_nil _ _,by simp⟩,by simp⟩
  | message n payload hs =>
    obtain ⟨chunks,rfl,rfl,hall⟩ := he
    exact received_put hw ⟨chunks,remaining_receive _ fun d hd => (hall d hd).1,
      fun d hd => (hall d hd).2⟩
  | @chunk i s r hs _ hbusy hr =>
    obtain ⟨rest,hrest,hin⟩ := hw i s hs
    cases rest with
    | nil => exact absurd hbusy ((remaining_nil_iff hrest).mp rfl)
    | cons d ds =>
      exact received_put hw ⟨ds,(remaining_cons hrest).2.2 _,fun e he => hin e (by simp [he])⟩
  | @lastContainer i s hs => exact received_put hw (hw i s hs)
  | @setDone i s hs => exact received_put hw (hw i s hs)
  | @writer i k s p hs => exact received_put hw (hw i s hs)

theorem Received.chunk_mem (hw : Received T w) (hs : w.sessions i = some s)
    (hbusy : s.batch.index < s.batch.chunkNum) : s.batch.chunk ∈ T := by
  obtain ⟨rest,hrest,hin⟩ := hw i s hs
  cases rest with
  | nil => exact absurd hbusy ((remaining_nil_iff hrest).mp rfl)
  | cons d ds =>
    rw [(remaining_cons hrest).2.1]
    exact hin d (by simp)

theorem ledger_refl (H : Digest) (T : Set Bytes) (w : World) : Ledger H T w w [] := by
  constructor <;> simp

theorem ledger_takes {e : Event} {w₀ : World} {stored : List Bytes} (h : Takes H uuid w e w')
    (hw : Received T w) (hl : Ledger H T w₀ w stored) : ∃ stored', Ledger H T w₀ w' stored' := by
  rcases shared_takes h with ⟨hindex,hnum,hsize⟩ | ⟨i,s,id,hs,hbusy,hnew,hindex,hnum,hsize⟩
  · refine ⟨stored,hl.sent,hl.fresh,hl.nodup,?_,hnum.trans hl.uniqueChunkNum,
      hsize.trans hl.uniqueDataSize⟩
    intro fp
    rw [World.index,hindex]
    exact hl.keys fp
  · have hunknown : ¬ ((∃ id, w₀.index (H.hash s.batch.chunk) = some id) ∨
        H.hash s.batch.chunk ∈ stored.map H.hash) := by
      rw [← hl.keys]
      simp [hnew]
    rw [not_or] at hunknown
    refine ⟨stored ++ [s.batch.chunk],?_,?_,?_,?_,?_,?_⟩
    · intro d hd
      rcases List.mem_append.mp hd with hold | hlast
      · exact hl.sent d hold
      · rw [List.mem_singleton.mp hlast]
        exact hw.chunk_mem hs hbusy
    · intro d hd
      rcases List.mem_append.mp hd with hold | hlast
      · exact hl.fresh d hold
      · rw [List.mem_singleton.mp hlast]
        simpa [Option.eq_none_iff_forall_ne_some] using hunknown.1
    · rw [List.map_append,List.map_singleton]
      exact hl.nodup.append (List.nodup_singleton _) (List.disjoint_singleton.mpr hunknown.2)
    · intro fp
      rw [World.index,hindex,List.map_append,List.map_singleton,List.mem_append,
        List.mem_singleton,← or_assoc,← hl.keys]
      by_cases hfp : fp = H.hash s.batch.chunk
      · subst hfp
        simp [Database.insert]
      · rw [Database.insert,Finmap.lookup_insert_of_ne _ hfp]
        simp [World.index,hfp]
    · rw [hnum,hl.uniqueChunkNum,List.foldl_append]
      rfl
    · rw [hsize,hl.uniqueDataSize,List.foldl_append]
      rfl

theorem ledger_exec {es : List Event} {w₀ : World} (h : Exec (step H uuid) w₀ es w)
    (hw₀ : Received T w₀) (hes : ∀ e ∈ es, Sends T e) :
    Received T w ∧ ∃ stored, Ledger H T w₀ w stored := by
  refine h.invariant (P := fun v => Received T v ∧ ∃ stored, Ledger H T w₀ v stored) ?_
    ⟨hw₀,[],ledger_refl H T w₀⟩ hes
  rintro v e v' ⟨hv,stored,hl⟩ he hstep
  have htakes := takes_of_step hstep
  exact ⟨received_takes htakes hv he,ledger_takes htakes hv hl⟩

end Steps

section Entries

variable {H : Digest} {uuid : ℕ → Bytes} {S : Set Bytes} {w w' : World} {i : ℕ} {s : Session}

theorem has_chunk (h : Inv H uuid S w) (hs : w.sessions i = some s) (hlive : s.live = true)
    (hbusy : s.batch.index < s.batch.chunkNum) {r : Locked}
    (hr : r = dedupChunk uuid w.shared s.client (H.hash s.batch.chunk) s.batch.containerNameStr
      s.batch.chunk) {b : Batch} :
    (∀ id p, Has (view w) id p → Has (view (w.put i { s with client := r.client, batch := b })) id p) ∧
    (w.index (H.hash s.batch.chunk) = none → ∃ id,
      Has (view (w.put i { s with client := r.client, batch := b })) id
        (H.hash s.batch.chunk,s.batch.chunk)) := by
  obtain ⟨⟨ps,hc,hps⟩,_,rest,hrest,_⟩ := h.sessions i s hs
  have hmem : view w (.memory i) = some (s.client.curContainer.containerID,ps) := by
    rw [view_memory hs,inMemory_of_packed hlive hc]
  have hsmall : s.batch.chunk.length ≤ maxChunkSize := by
    cases rest with
    | nil => exact absurd hbusy ((remaining_nil_iff hrest).mp rfl)
    | cons d ds =>
      rw [(remaining_cons hrest).2.1]
      exact hrest.small d (by simp)
  rcases dedupChunk_cases uuid w.shared s.client (H.hash s.batch.chunk) s.batch.containerNameStr
    s.batch.chunk with ⟨id,hid,hdup⟩ | ⟨hnew,hsave⟩
  · rw [hdup] at hr
    subst hr
    have hview : view (w.put i { s with client := s.client, batch := b }) = view w :=
      view_put_same hs rfl rfl
    rw [hview]
    refine ⟨fun _ _ hp => hp,fun hnone => ?_⟩
    simp [World.index,hid] at hnone
  · rw [hsave] at hr
    obtain ⟨c,⟨hout,hname,hc'⟩ | ⟨hout,hname,hc'⟩⟩ := saveChunk_packed uuid w.shared.drawn
      (p := (H.hash s.batch.chunk,s.batch.chunk)) hc (H.hash_length _) (fits_of_small hsmall)
    · simp only at hout hr
      rw [hout] at hr
      subst hr
      rw [view_append hs hlive hc',hname]
      refine ⟨fun id p hp => hp.update fun qs hqs hin => ?_,fun _ =>
        ⟨_,.memory i,_,Function.update_self _ _ _,by simp⟩⟩
      obtain ⟨rfl,rfl⟩ : s.client.curContainer.containerID = id ∧ ps = qs := by
        simpa using hmem.symm.trans hqs
      exact ⟨_,rfl,by simp [hin]⟩
    · simp only at hout hr
      rw [hout] at hr
      subst hr
      rw [view_flush hs hlive (sound_of_packed hc hps) hc']
      refine ⟨fun id p hp => hp.move hmem (view_pushed_length hs) _,fun _ =>
        ⟨c.containerID,.memory i,[(H.hash s.batch.chunk,s.batch.chunk)],?_,by simp⟩⟩
      rw [Function.update_of_ne (by simp),Function.update_self]

theorem has_takes {e : Event} (h : Inv H uuid S w) (ht : Takes H uuid w e w') (he : FreshMemory e)
    {id : Bytes} {p : Pair} (hp : Has (view w) id p) : Has (view w') id p := by
  cases ht with
  | @login i prior buffer hs =>
    change Has (view (w.put i (newSession (uuid w.shared.drawn) prior buffer))) id p
    rw [view_login hs buffer _ he]
    apply hp.update
    intro ps hps
    simp [view,hs] at hps
  | @message i s n payload hs =>
    have hview : view (w.put i { s with
        batch := Batch.receive s.batch.dataBuffer n payload }) = view w := view_put_same hs rfl rfl
    rwa [hview]
  | @chunk i s r hs hlive hbusy hr => exact (has_chunk h hs hlive hbusy hr).1 id p hp
  | @lastContainer i s hs hlive =>
    obtain ⟨⟨ps,hc,hps⟩,_,_⟩ := h.sessions i s hs
    have hmem : view w (.memory i) = some (s.client.curContainer.containerID,ps) := by
      rw [view_memory hs,inMemory_of_packed hlive hc]
    rcases lastContainer_packed hc with ⟨rfl,hlast⟩ | hlast
    · rw [view_drop hs hlast]
      apply hp.update
      intro qs hqs hin
      obtain ⟨rfl,rfl⟩ : s.client.curContainer.containerID = id ∧ [] = qs := by
        simpa using hmem.symm.trans hqs
      simp at hin
    · rw [view_seal hs (sound_of_packed hc hps) hlast]
      exact hp.move hmem (view_pushed_length hs) none
  | @setDone i s hs =>
    have hview : view (w.put i { s with done := true }) = view w := view_put_same hs rfl rfl
    rwa [hview]
  | @writer i k s q hs hq =>
    have hview : view (w.put i { s with client.inputMQ := q.inputMQ.items, writer := q.writer }) =
        view w := view_put_same hs (writerStep_pushes hq).1 rfl
    change Has (view (w.put i { s with client.inputMQ := q.inputMQ.items, writer := q.writer })) id p
    rwa [hview]

/-- Every fingerprint that is new since `w₀` leads to a chunk of `T` with that hash. -/
def Filed (H : Digest) (T : Set Bytes) (w₀ w : World) : Prop :=
  ∀ fp, (∃ id, w.index fp = some id) → w₀.index fp = none →
    ∃ d ∈ T, H.hash d = fp ∧ ∃ id, Has (view w) id (fp,d)

theorem filed_takes {e : Event} {T : Set Bytes} {w₀ : World} (h : Inv H uuid S w)
    (hw : Received T w) (ht : Takes H uuid w e w') (he : FreshMemory e) (hf : Filed H T w₀ w) :
    Filed H T w₀ w' := by
  intro fp hfp hnone
  by_cases hold : ∃ id, w.index fp = some id
  · obtain ⟨d,hd,hhash,id,hhas⟩ := hf fp hold hnone
    exact ⟨d,hd,hhash,id,has_takes h ht he hhas⟩
  · -- the step has stored it
    cases ht with
    | login | message | lastContainer | setDone | writer => exact absurd hfp hold
    | @chunk i s r hs hlive hbusy hr =>
      have hnew : fp = H.hash s.batch.chunk ∧ w.index (H.hash s.batch.chunk) = none := by
        rcases dedupChunk_cases uuid w.shared s.client (H.hash s.batch.chunk)
          s.batch.containerNameStr s.batch.chunk with ⟨_,_,hdup⟩ | ⟨hunknown,hsave⟩
        · rw [hr,hdup] at hfp
          exact absurd hfp hold
        · refine ⟨?_,hunknown⟩
          by_contra hne
          rw [hr,hsave] at hfp
          simp only [World.index,Database.insert,Finmap.lookup_insert_of_ne _ hne] at hfp
          exact hold hfp
      obtain ⟨rfl,hunknown⟩ := hnew
      obtain ⟨id,hhas⟩ := (has_chunk h hs hlive hbusy hr).2 hunknown
      exact ⟨_,hw.chunk_mem hs hbusy,rfl,id,hhas⟩

end Entries

section Runs

variable {H : Digest} {uuid : ℕ → Bytes} {T : Set Bytes} {w₀ w : World} {es : List Event}

theorem admitted_of_sends {e : Event} (hs : Sends T e) (hf : FreshMemory e) :
    Admitted Set.univ e := by
  cases e with
  | login => exact hf
  | message =>
    obtain ⟨chunks,hn,hp,hall⟩ := hs
    exact ⟨chunks,hn,hp,fun d hd => ⟨(hall d hd).1,trivial⟩⟩
  | chunk | lastContainer | setDone | writer => trivial

theorem filed_exec (h : Exec (step H uuid) w₀ es w) (hw₀ : Inv H uuid Set.univ w₀)
    (hr : Received T w₀) (hes : ∀ e ∈ es, Sends T e ∧ FreshMemory e)
    (hid : Set.InjOn uuid {n | n < w.shared.drawn}) :
    Inv H uuid Set.univ w ∧ Filed H T w₀ w ∧ ∀ id p, Has (view w₀) id p → Has (view w) id p := by
  refine (h.invariant (A := fun e => Sends T e ∧ FreshMemory e) (P := fun v => Received T v ∧
    (Set.InjOn uuid {n | n < v.shared.drawn} → Inv H uuid Set.univ v ∧ Filed H T w₀ v ∧
      ∀ id p, Has (view w₀) id p → Has (view v) id p)) ?_ ⟨hr,fun _ => ⟨hw₀,?_,?_⟩⟩ hes).2 hid
  · rintro v e v' ⟨hrv,hv⟩ ⟨hsend,hfresh⟩ hstep
    have htakes := takes_of_step hstep
    refine ⟨received_takes htakes hrv hsend,fun hid' => ?_⟩
    have hmono := drawn_mono htakes
    obtain ⟨hinv,hfiled,hkept⟩ := hv (hid'.mono fun n hn => Nat.lt_of_lt_of_le hn hmono)
    exact ⟨inv_step hinv (admitted_of_sends hsend hfresh) hstep hid',
      filed_takes hinv hrv htakes hfresh hfiled,
      fun id p hp => has_takes hinv htakes hfresh (hkept id p hp)⟩
  · rintro fp ⟨id,hfp⟩ hnone
    simp [hnone] at hfp
  · exact fun _ _ hp => hp

theorem received_of_idle {S : Set Bytes} (h : Inv H uuid S w) (hidle : Idle w) : Received T w := by
  intro i s hs
  obtain ⟨rest,hrest,_⟩ := (h.sessions i s hs).batch
  have hnil := (remaining_nil_iff hrest).mpr (hidle i s hs)
  exact ⟨rest,hrest,by simp [hnil]⟩

/-- When no batch is in progress, every chunk of the streams is indexed. -/
theorem carried_indexed {stream : ℕ → List Bytes} (h : Exec (step H uuid) w₀ es w)
    (hes : Carries es stream) (hidle : Idle w) {i : ℕ} {d : Bytes} (hd : d ∈ stream i) :
    ∃ id, w.index (H.hash d) = some id := by
  obtain ⟨chunks,hmem,hsmall,hin⟩ := hes.sent hd
  obtain ⟨before,after,rfl⟩ := List.append_of_mem hmem
  obtain ⟨v,_,hrest⟩ := h.of_append
  cases hrest with
  | @succ _ v' _ _ _ hstep hafter =>
    have hstart : Covered H v' i d := by
      cases takes_of_step hstep with
      | message _ _ hs =>
        exact Or.inr ⟨_,chunks,put_self _ _ _,(remaining_receive _ hsmall).pending,hin⟩
    have hfinal : Covered H w i d := hafter.invariant (A := fun _ => True)
      (fun u e u' hu _ hstep => covered_takes (takes_of_step hstep) hu) hstart (by simp)
    rcases hfinal with hid | ⟨s,rest,hs,hrest,hpend⟩
    · exact hid
    · simp [pending_nil_of_idle hrest (hidle i s hs)] at hpend

/-- An entry in view is what the index leads to. -/
theorem leads_iff {S : Set Bytes} (h : Inv H uuid S w) {id fp d : Bytes}
    (hd : Has (view w) id (fp,d)) (d' : Bytes) : Leads w fp d' ↔ d' = d := by
  have hcons := contents_consistent h
  have hhas : Has (contents w) id (fp,d) := by
    obtain ⟨b,ps,hb,hp⟩ := hd
    obtain ⟨a,ha⟩ := content_of_place h hb
    exact ⟨a,ps,ha,hp⟩
  constructor
  · rintro ⟨id',_,hd'⟩
    exact (hcons.has_unique hhas hd').2
  · rintro rfl
    obtain ⟨a,ps,ha,hp⟩ := hhas
    exact ⟨id,hcons.bound a _ _ ha hp,a,ps,ha,hp⟩

end Runs

theorem stored_perm {H : Digest} {T : Set Bytes} {w₀ w₁ w₂ : World} {l₁ l₂ : List Bytes}
    (h₁ : Ledger H T w₀ w₁ l₁) (h₂ : Ledger H T w₀ w₂ l₂) (hcoll : Set.InjOn H.hash T)
    (hall₁ : ∀ d ∈ T, ∃ id, w₁.index (H.hash d) = some id)
    (hall₂ : ∀ d ∈ T, ∃ id, w₂.index (H.hash d) = some id) : l₁.Perm l₂ := by
  -- a chunk stored in one run is indexed in the other, and was not at the start
  have hsub : ∀ {w w' : World} {l l' : List Bytes}, Ledger H T w₀ w l → Ledger H T w₀ w' l' →
      (∀ d ∈ T, ∃ id, w'.index (H.hash d) = some id) → ∀ d ∈ l, d ∈ l' := by
    intro w w' l l' h h' hall d hd
    rcases (h'.keys _).mp (hall d (h.sent d hd)) with ⟨id,hold⟩ | hin
    · simp [h.fresh d hd] at hold
    · obtain ⟨d',hd',hhash⟩ := List.mem_map.mp hin
      rwa [← hcoll (h'.sent d' hd') (h.sent d hd) hhash]
  rw [List.perm_ext_iff_of_nodup h₁.nodup.of_map h₂.nodup.of_map]
  exact fun d => ⟨hsub h₁ h₂ hall₂ d,hsub h₂ h₁ hall₁ d⟩

theorem ledger_perm {H : Digest} {T : Set Bytes} {w₀ w₁ w₂ : World} {l₁ l₂ : List Bytes}
    (h₁ : Ledger H T w₀ w₁ l₁) (h₂ : Ledger H T w₀ w₂ l₂) (hperm : l₁.Perm l₂) :
    (∀ fp, (∃ id, w₁.index fp = some id) ↔ ∃ id, w₂.index fp = some id) ∧
    w₁.shared.uniqueChunkNum = w₂.shared.uniqueChunkNum ∧
    w₁.shared.uniqueDataSize = w₂.shared.uniqueDataSize := by
  refine ⟨fun fp => ?_,?_,?_⟩
  · rw [h₁.keys,h₂.keys,(hperm.map H.hash).mem_iff]
  · rw [h₁.uniqueChunkNum,h₂.uniqueChunkNum]
    exact hperm.foldl_eq' (fun _ _ _ _ _ => rfl) _
  · rw [h₁.uniqueDataSize,h₂.uniqueDataSize]
    apply hperm.foldl_eq'
    intro a _ b _ n
    omega

theorem inv_agree {H : Digest} {uuid uuid' : ℕ → Bytes} {S : Set Bytes} {w : World}
    (h : Inv H uuid S w) (heq : ∀ n < w.shared.drawn, uuid' n = uuid n) : Inv H uuid' S w := by
  refine ⟨h.catalog,?_,h.sessions,h.disk⟩
  intro a g hg
  obtain ⟨n,hn,hname⟩ := h.named a g hg
  exact ⟨n,hn,hname.trans (heq n hn).symm⟩

/-- Two schedules of the same client streams, cut into batches in any two ways, from
the same store: the same keys, the same counters and the same bytes behind each key. -/
theorem same_outcome (H : Digest) (uuid₁ uuid₂ : ℕ → Bytes) (w₀ w₁ w₂ : World)
    (es₁ es₂ : List Event) (stream : ℕ → List Bytes) (hw₀ : Inv H uuid₁ Set.univ w₀)
    (hagree : ∀ n < w₀.shared.drawn, uuid₂ n = uuid₁ n) (hidle : Idle w₀)
    (hrun₁ : Exec (step H uuid₁) w₀ es₁ w₁) (hrun₂ : Exec (step H uuid₂) w₀ es₂ w₂)
    (hes₁ : Carries es₁ stream) (hes₂ : Carries es₂ stream) (hend₁ : Idle w₁) (hend₂ : Idle w₂)
    (hid₁ : Set.InjOn uuid₁ {n | n < w₁.shared.drawn})
    (hid₂ : Set.InjOn uuid₂ {n | n < w₂.shared.drawn})
    (hcoll : Set.InjOn H.hash {d | ∃ i, d ∈ stream i})
    (hfresh₁ : ∀ e ∈ es₁, FreshMemory e) (hfresh₂ : ∀ e ∈ es₂, FreshMemory e) :
    SameOutcome w₁ w₂ := by
  have hw₀' := inv_agree hw₀ hagree
  obtain ⟨l₁,hl₁⟩ := (ledger_exec hrun₁ (received_of_idle hw₀ hidle) hes₁.sends).2
  obtain ⟨l₂,hl₂⟩ := (ledger_exec hrun₂ (received_of_idle hw₀ hidle) hes₂.sends).2
  have hperm := stored_perm hl₁ hl₂ hcoll
    (fun d ⟨_,hd⟩ => carried_indexed hrun₁ hes₁ hend₁ hd)
    (fun d ⟨_,hd⟩ => carried_indexed hrun₂ hes₂ hend₂ hd)
  obtain ⟨hkeys,hnum,hsize⟩ := ledger_perm hl₁ hl₂ hperm
  obtain ⟨hinv₁,hfiled₁,hkept₁⟩ := filed_exec hrun₁ hw₀ (received_of_idle hw₀ hidle)
    (fun e he => ⟨hes₁.sends e he,hfresh₁ e he⟩) hid₁
  obtain ⟨hinv₂,hfiled₂,hkept₂⟩ := filed_exec hrun₂ hw₀' (received_of_idle hw₀ hidle)
    (fun e he => ⟨hes₂.sends e he,hfresh₂ e he⟩) hid₂
  refine ⟨hkeys,hnum,hsize,?_⟩
  intro fp id hfp
  have hboth : ∃ d id₁ id₂, Has (view w₁) id₁ (fp,d) ∧ Has (view w₂) id₂ (fp,d) := by
    cases hold : w₀.index fp with
    | some id₀ =>
      obtain ⟨a,g,hg,rfl,hk⟩ := hw₀.catalog.located fp id₀ hold
      obtain ⟨⟨_,d⟩,hp,rfl⟩ := List.mem_map.mp hk
      have hhas : Has (view w₀) g.1 (_,d) := ⟨a,g.2,hg,hp⟩
      exact ⟨d,g.1,g.1,hkept₁ _ _ hhas,hkept₂ _ _ hhas⟩
    | none =>
      obtain ⟨d₁,hd₁,hhash₁,id₁,hhas₁⟩ := hfiled₁ fp ⟨id,hfp⟩ hold
      obtain ⟨d₂,hd₂,hhash₂,id₂,hhas₂⟩ := hfiled₂ fp ((hkeys fp).mp ⟨id,hfp⟩) hold
      obtain rfl := hcoll hd₁ hd₂ (hhash₁.trans hhash₂.symm)
      exact ⟨d₁,id₁,id₂,hhas₁,hhas₂⟩
  obtain ⟨d,id₁,id₂,hhas₁,hhas₂⟩ := hboth
  exact ⟨d,fun d' => ⟨leads_iff hinv₁ hhas₁ d',leads_iff hinv₂ hhas₂ d'⟩⟩

theorem idle_of_sessions {H : Digest} {uuid : ℕ → Bytes} {es : List Event} {w : World}
    (h : Exec (step H uuid) empty es w) (ids : List ℕ) (hes : ∀ e ∈ es, e.session ∈ ids)
    (hobs : (ids.all fun i => (w.sessions i).all fun s =>
      !decide (s.batch.index < s.batch.chunkNum)) = true) : Idle w := by
  intro i s hs
  by_cases hi : i ∈ ids
  · simpa [hs] using List.all_eq_true.mp hobs i hi
  · have hnone : w.sessions i = none := by
      apply sessions_exec h
      rintro e he rfl
      exact hi (hes e he)
    simp [hnone] at hs

def freshLogin (i : ℕ) : Event := .login i ⟨[],0,fun _ => 0,0,fun _ => 0,0⟩ fun _ => 0

def sendChunks (i : ℕ) (chunks : List Bytes) : Event :=
  .message i chunks.length (encodeChunks chunks)

def sharedSecond : List Event :=
  [freshLogin 0,freshLogin 1,sendChunks 0 [[5,6],[7]],.chunk 0,.chunk 0,sendChunks 1 [[5,6]],.chunk 1]

def sharedFirst : List Event :=
  [freshLogin 1,sendChunks 1 [[5,6]],freshLogin 0,.chunk 1,sendChunks 0 [[5,6]],.chunk 0,
    sendChunks 0 [[7]],.chunk 0]

def twoStreams : ℕ → List Bytes
  | 0 => [[5,6],[7]]
  | 1 => [[5,6]]
  | _ => []

theorem carries_sharedSecond : Carries sharedSecond twoStreams := by
  have h : Carries sharedSecond _ := .other (by simp [freshLogin]) (.other (by simp [freshLogin])
    (.message 0 [[5,6],[7]] (by decide) (.other (by simp) (.other (by simp)
      (.message 1 [[5,6]] (by decide) (.other (by simp) .nil))))))
  convert h using 1
  funext i
  match i with
  | 0 => rfl
  | 1 => rfl
  | i+2 => rfl

theorem carries_sharedFirst : Carries sharedFirst twoStreams := by
  have h : Carries sharedFirst _ := .other (by simp [freshLogin]) (.message 1 [[5,6]] (by decide)
    (.other (by simp [freshLogin]) (.other (by simp) (.message 0 [[5,6]] (by decide)
      (.other (by simp) (.message 0 [[7]] (by decide) (.other (by simp) .nil)))))))
  convert h using 1
  funext i
  match i with
  | 0 => rfl
  | 1 => rfl
  | i+2 => rfl

theorem same_outcome_shared_chunk :
    ∃ w₁ w₂, Exec (step paddedDigest fun n => [UInt8.ofNat n]) empty sharedSecond w₁ ∧
      Exec (step paddedDigest fun n => [UInt8.ofNat n]) empty sharedFirst w₂ ∧
      w₁.index (paddedDigest.hash [5,6]) = some [0] ∧ w₂.index (paddedDigest.hash [5,6]) = some [0] ∧
      SameOutcome w₁ w₂ := by
  have hrun₁ : (run (step paddedDigest fun n => [UInt8.ofNat n]) empty sharedSecond).map
      (fun w => (w.index (paddedDigest.hash [5,6]),w.shared.drawn,[0,1].all fun i =>
        (w.sessions i).all fun s => !decide (s.batch.index < s.batch.chunkNum))) =
      some (some [0],2,true) := by decide +kernel
  have hrun₂ : (run (step paddedDigest fun n => [UInt8.ofNat n]) empty sharedFirst).map
      (fun w => (w.index (paddedDigest.hash [5,6]),w.shared.drawn,[0,1].all fun i =>
        (w.sessions i).all fun s => !decide (s.batch.index < s.batch.chunkNum))) =
      some (some [0],2,true) := by decide +kernel
  obtain ⟨w₁,hexec₁,hobs₁⟩ := Exec.of_run_map _ hrun₁
  obtain ⟨w₂,hexec₂,hobs₂⟩ := Exec.of_run_map _ hrun₂
  simp only [Prod.mk.injEq] at hobs₁ hobs₂
  obtain ⟨hindex₁,hdrawn₁,hidle₁⟩ := hobs₁
  obtain ⟨hindex₂,hdrawn₂,hidle₂⟩ := hobs₂
  have hcoll : Set.InjOn paddedDigest.hash {d | ∃ i, d ∈ twoStreams i} := by
    apply injOn_paddedDigest
    rintro d ⟨i,hd⟩
    match i with
    | 0 => simpa [twoStreams] using hd
    | 1 => exact Or.inl (by simpa [twoStreams] using hd)
    | i+2 => simp [twoStreams] at hd
  refine ⟨w₁,w₂,hexec₁,hexec₂,hindex₁,hindex₂,?_⟩
  exact same_outcome paddedDigest _ _ empty w₁ w₂ sharedSecond sharedFirst twoStreams
    (inv_empty _ _ _) (fun _ _ => rfl) (by simp [Idle,empty]) hexec₁ hexec₂ carries_sharedSecond
    carries_sharedFirst (idle_of_sessions hexec₁ [0,1] (by decide) hidle₁)
    (idle_of_sessions hexec₂ [0,1] (by decide) hidle₂) (injOn_small_ids (by omega))
    (injOn_small_ids (by omega)) hcoll (by simp [sharedSecond,freshLogin,sendChunks,FreshMemory])
    (by simp [sharedFirst,freshLogin,sendChunks,FreshMemory])

/-- Two clients at the same time, or one after the other with the second `ClientVar`
built where the first one was: its chunk count starts at 1. -/
def atTheSameTime : List Event :=
  [freshLogin 0,freshLogin 1,sendChunks 0 [[5,6]],sendChunks 1 [[7]],.chunk 0,.chunk 1,
    .lastContainer 0,.lastContainer 1]

def oneAfterTheOther : List Event :=
  [freshLogin 0,sendChunks 0 [[5,6]],.chunk 0,.lastContainer 0,.setDone 0,
    .login 1 ⟨[0],1,fun _ => 0,2,fun _ => 0,40⟩ fun _ => 0,sendChunks 1 [[7]],.chunk 1,
    .lastContainer 1]

def oneChunkEach : ℕ → List Bytes
  | 0 => [[5,6]]
  | 1 => [[7]]
  | _ => []

theorem carries_atTheSameTime : Carries atTheSameTime oneChunkEach := by
  have h : Carries atTheSameTime _ := .other (by simp [freshLogin]) (.other (by simp [freshLogin])
    (.message 0 [[5,6]] (by decide) (.message 1 [[7]] (by decide) (.other (by simp)
      (.other (by simp) (.other (by simp) (.other (by simp) .nil)))))))
  convert h using 1
  funext i
  match i with
  | 0 => rfl
  | 1 => rfl
  | i+2 => rfl

theorem carries_oneAfterTheOther : Carries oneAfterTheOther oneChunkEach := by
  have h : Carries oneAfterTheOther _ := .other (by simp [freshLogin])
    (.message 0 [[5,6]] (by decide) (.other (by simp) (.other (by simp) (.other (by simp)
      (.other (by simp) (.message 1 [[7]] (by decide) (.other (by simp)
        (.other (by simp) .nil))))))))
  convert h using 1
  funext i
  match i with
  | 0 => rfl
  | 1 => rfl
  | i+2 => rfl

/-- The second client's chunk is stored under its fingerprint, but a reader of the
container takes the bytes from behind its end. -/
theorem stale_chunkNum_outcome :
    ∃ w₁ w₂, Exec (step paddedDigest fun n => [UInt8.ofNat n]) empty atTheSameTime w₁ ∧
      Exec (step paddedDigest fun n => [UInt8.ofNat n]) empty oneAfterTheOther w₂ ∧
      Carries atTheSameTime oneChunkEach ∧ Carries oneAfterTheOther oneChunkEach ∧
      Idle w₁ ∧ Idle w₂ ∧ Set.InjOn (fun n => [UInt8.ofNat n]) {n | n < w₁.shared.drawn} ∧
      Set.InjOn (fun n => [UInt8.ofNat n]) {n | n < w₂.shared.drawn} ∧
      Set.InjOn paddedDigest.hash {d | ∃ i, d ∈ oneChunkEach i} ∧ ¬ SameOutcome w₁ w₂ := by
  have hrun₁ : (run (step paddedDigest fun n => [UInt8.ofNat n]) empty atTheSameTime).map
      (fun w => (w.shared.drawn,[0,1].all fun i =>
        (w.sessions i).all fun s => !decide (s.batch.index < s.batch.chunkNum))) =
      some (2,true) := by decide +kernel
  have hrun₂ : (run (step paddedDigest fun n => [UInt8.ofNat n]) empty oneAfterTheOther).map
      (fun w => (w.shared.drawn,[0,1].all fun i =>
        (w.sessions i).all fun s => !decide (s.batch.index < s.batch.chunkNum))) =
      some (2,true) := by decide +kernel
  have hbytes₁ : (run (step paddedDigest fun n => [UInt8.ofNat n]) empty atTheSameTime).map
      (fun w => (w.index (paddedDigest.hash [7]),entryAt (contents w) (.queued 1 0,0))) =
      some (some [1],some ([1],paddedDigest.hash [7],[7])) := by decide +kernel
  have hbytes₂ : (run (step paddedDigest fun n => [UInt8.ofNat n]) empty oneAfterTheOther).map
      (fun w => (w.index (paddedDigest.hash [7]),entryAt (contents w) (.queued 1 0,0))) =
      some (some [1],some ([1],paddedDigest.hash [7],[0])) := by decide +kernel
  obtain ⟨w₁,hexec₁,hobs₁⟩ := Exec.of_run_map _ hrun₁
  obtain ⟨w₂,hexec₂,hobs₂⟩ := Exec.of_run_map _ hrun₂
  obtain ⟨v₁,hv₁,hread₁⟩ := Exec.of_run_map _ hbytes₁
  obtain ⟨v₂,hv₂,hread₂⟩ := Exec.of_run_map _ hbytes₂
  obtain rfl := hexec₁.deterministic hv₁
  obtain rfl := hexec₂.deterministic hv₂
  simp only [Prod.mk.injEq] at hobs₁ hobs₂ hread₁ hread₂
  have hcoll : Set.InjOn paddedDigest.hash {d | ∃ i, d ∈ oneChunkEach i} := by
    apply injOn_paddedDigest
    rintro d ⟨i,hd⟩
    match i with
    | 0 => exact Or.inl (by simpa [oneChunkEach] using hd)
    | 1 => exact Or.inr (by simpa [oneChunkEach] using hd)
    | i+2 => simp [oneChunkEach] at hd
  refine ⟨w₁,w₂,hexec₁,hexec₂,carries_atTheSameTime,carries_oneAfterTheOther,
    idle_of_sessions hexec₁ [0,1] (by decide) hobs₁.2,
    idle_of_sessions hexec₂ [0,1] (by decide) hobs₂.2,injOn_small_ids (by omega),
    injOn_small_ids (by omega),hcoll,?_⟩
  intro hsame
  obtain ⟨d,hd⟩ := hsame.stored _ _ hread₁.1
  have hseven : [7] = d := (hd [7]).1.mp ⟨[1],hread₁.1,has_iff_entryAt.mpr ⟨_,hread₁.2⟩⟩
  have hzero : [0] = d := (hd [0]).2.mp ⟨[1],hread₂.1,has_iff_entryAt.mpr ⟨_,hread₂.2⟩⟩
  simp [← hzero] at hseven

end Scheduling
end CloudServer
