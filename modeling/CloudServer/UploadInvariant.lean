import CloudServer.Uploads

/-! The invariant of concurrent uploads: the shared index agrees with the containers
of all sessions, every container is named by its own identifier and well packed, and
the container directory holds what the writers have done so far. Each kind of step
is one operation on the catalog of containers. -/
namespace CloudServer
namespace UploadInvariant

open ByteMemory Execution StorageCore ContainerFormat Packing PlainIndex Catalog Uploads
open DataWriter hiding Session Event step Inv

/-- Events of clients that follow the protocol: a session starts in memory with a
zero chunk count, and a message carries chunks of `S` of at most `MAX_CHUNK_SIZE`
bytes. -/
def Admitted (S : Set Bytes) : Event → Prop
  | .login _ prior _ => prior.chunkNum = 0
  | .message _ currentItemNum payload => ∃ chunks : List Bytes, currentItemNum = chunks.length ∧
      payload = encodeChunks chunks ∧ ∀ d ∈ chunks, d.length ≤ maxChunkSize ∧ d ∈ S
  | _ => True

def Stored (S : Set Bytes) (ps : List Pair) : Prop := ∀ p ∈ ps, p.2.length ≤ maxChunkSize ∧ p.2 ∈ S

structure Sound (S : Set Bytes) (g : Group) : Prop where
  hashed : Hashed g.2
  size : (image g.2).length < maxContainerSize
  stored : Stored S g.2

structure SessionOk (S : Set Bytes) (s : Session) : Prop where
  current : ∃ ps, Packed s.client.curContainer ps ∧ Stored S ps
  pushed : ∀ c ∈ s.pushes, ∃ g, c = sealed g ∧ Sound S g
  batch : ∃ rest, s.batch.Remaining rest ∧ ∀ d ∈ rest, d ∈ S

/-- The reason why a file is in the directory: a writer has saved it, or is writing
it and has not come to its end. -/
def Explains (wr : Writer) (id : Bytes) (f : DiskFile) : Prop :=
  (∃ c ∈ wr.saved, c.containerID = id ∧ f = ⟨c.written,true⟩) ∨
  ∃ flag c n, wr.point = .writeFile flag c n ∧ c.containerID = id ∧ n < c.written.length ∧
    f = ⟨c.written.take n,false⟩

structure DiskOk (disk : Disk) (writers : ℕ → Option Writer) : Prop where
  saved : ∀ i wr c, writers i = some wr → c ∈ wr.saved → disk c.containerID = some ⟨c.written,true⟩
  files : ∀ id f, disk id = some f → ∃ i wr, writers i = some wr ∧ Explains wr id f

def writers (w : World) (i : ℕ) : Option Writer := (w.sessions i).map Session.writer

def Named (uuid : ℕ → Bytes) (drawn : ℕ) (v : View Place Bytes Bytes Bytes) : Prop :=
  ∀ a g, v a = some g → ∃ n < drawn, g.1 = uuid n

structure Inv (H : Digest) (uuid : ℕ → Bytes) (S : Set Bytes) (w : World) : Prop where
  catalog : Consistent H.hash (view w) w.index
  named : Named uuid w.shared.drawn (view w)
  sessions : ∀ i s, w.sessions i = some s → SessionOk S s
  disk : DiskOk w.disk (writers w)

theorem contentOf_sealed {S : Set Bytes} {g : Group} (h : Sound S g) : contentOf (sealed g) = g := by
  rw [contentOf,listChunks_sealed h.hashed h.size]
  rfl

theorem sound_of_packed {S : Set Bytes} {c : InmemoryContainer} {ps : List Pair} (hc : Packed c ps)
    (hs : Stored S ps) : Sound S (c.containerID,ps) :=
  ⟨hc.hashed,by rw [image_length_packed hc]; exact hc.room,hs⟩

theorem stored_append {S : Set Bytes} {ps qs : List Pair} :
    Stored S (ps++qs) ↔ Stored S ps ∧ Stored S qs := by
  simp only [Stored,List.mem_append]
  exact ⟨fun h => ⟨fun p hp => h p (.inl hp),fun p hp => h p (.inr hp)⟩,
    fun h p hp => hp.elim (h.1 p) (h.2 p)⟩

theorem inMemory_of_packed {s : Session} {ps : List Pair} (hlive : s.live = true)
    (hc : Packed s.client.curContainer ps) :
    s.inMemory = some (s.client.curContainer.containerID,ps) := by
  rw [Session.inMemory,if_pos hlive,headerEntries_packed hc]

theorem written_sealed (g : Group) : (sealed g).written = image g.2 := List.take_length

theorem view_memory {w : World} {i : ℕ} {s : Session} (hs : w.sessions i = some s) :
    view w (.memory i) = s.inMemory := by
  simp [view,hs]

theorem view_pushed {w : World} {i k : ℕ} {s : Session} {c : Container}
    (hs : w.sessions i = some s) (hk : s.pushes[k]? = some c) :
    view w (.pushed i k) = some (contentOf c) := by
  simp [view,hs,hk]

theorem writers_put_same {w : World} {i : ℕ} {s s' : Session} (hs : w.sessions i = some s)
    (hw : s'.writer = s.writer) : writers (w.put i s') = writers w := by
  funext j
  by_cases hj : j = i
  · subst hj
    simp [writers,hs,hw]
  · simp [writers,put_ne w s' hj]

theorem writers_put {w : World} {i : ℕ} (s : Session) :
    writers (w.put i s) = Function.update (writers w) i (some s.writer) := by
  funext j
  by_cases hj : j = i
  · subst hj
    simp [writers]
  · simp [writers,put_ne w s hj,hj]

theorem Inv.fresh {H : Digest} {uuid : ℕ → Bytes} {S : Set Bytes} {w : World}
    (h : Inv H uuid S w) (hid : Set.InjOn uuid {n | n < w.shared.drawn+1}) (a : Place) (g : Group)
    (hg : view w a = some g) : g.1 ≠ uuid w.shared.drawn := by
  obtain ⟨n,hn,hname⟩ := h.named a g hg
  intro heq
  have := hid (Nat.lt_succ_of_lt hn) (Nat.lt_succ_self _) (hname.symm.trans heq)
  omega

/-- What a step of a writer can do to the directory and to its list of saves. -/
theorem writerStep_disk {p p' : Pipe} {k : ℕ} (h : writerStep p k = some p')
    (hpos : ∀ c ∈ p.writer.point.held, 0 < c.written.length) :
    (p'.disk = p.disk ∧ p'.writer.saved = p.writer.saved ∧
      ∀ flag c n, p.writer.point ≠ .writeFile flag c n) ∨
    (∃ flag c n, p.writer.point.held = [c] ∧ n < c.written.length ∧
      p'.writer = ⟨.writeFile flag c n,p.writer.saved⟩ ∧
      p'.disk = Function.update p.disk c.containerID (some ⟨c.written.take n,false⟩)) ∨
    (∃ c, p.writer.point.held = [c] ∧ p'.writer.saved = p.writer.saved ++ [c] ∧
      p'.disk = Function.update p.disk c.containerID (some ⟨c.written,true⟩)) := by
  obtain ⟨mq,disk,⟨point,saved⟩⟩ := p
  cases point with
  | testDone | testEmpty | testFlag =>
    simp only [writerStep,Option.some.injEq] at h
    subst h
    exact Or.inl ⟨rfl,rfl,by simp⟩
  | pop flag =>
    simp only [writerStep] at h
    split at h <;> obtain rfl := Option.some.inj h <;> exact Or.inl ⟨rfl,rfl,by simp⟩
  | openFile flag c =>
    simp only [writerStep,Option.some.injEq] at h
    subst h
    exact Or.inr (Or.inl ⟨flag,c,0,rfl,hpos c (by simp [Point.held]),rfl,rfl⟩)
  | writeFile flag c n =>
    simp only [writerStep] at h
    split_ifs at h with hlt
    · obtain rfl := Option.some.inj h
      exact Or.inr (Or.inl ⟨flag,c,n+k,rfl,hlt,rfl,rfl⟩)
    · obtain rfl := Option.some.inj h
      exact Or.inr (Or.inr ⟨c,rfl,rfl,rfl⟩)
  | returned => simp [writerStep] at h

/-- The file that a writer holds may change under `DiskOk`: no saved container has
its name. -/
theorem diskOk_update {disk : Disk} {ws : ℕ → Option Writer} {i : ℕ} {wr wr' : Writer}
    {c : Container} {f : DiskFile} (h : DiskOk disk ws) (hi : ws i = some wr)
    (hheld : wr.point.held = [c])
    (hfree : ∀ j v e, ws j = some v → e ∈ v.saved → e.containerID ≠ c.containerID)
    (hsaved : ∀ e, e ∈ wr'.saved ↔ e ∈ wr.saved ∨ (e = c ∧ f = ⟨c.written,true⟩))
    (hexpl : Explains wr' c.containerID f) :
    DiskOk (Function.update disk c.containerID (some f)) (Function.update ws i (some wr')) := by
  constructor
  · intro j v e hv he
    by_cases hj : j = i
    · subst hj
      obtain rfl : wr' = v := by simpa using hv
      rcases (hsaved e).mp he with hold | ⟨rfl,rfl⟩
      · rw [Function.update_of_ne (hfree j wr e hi hold)]
        exact h.saved j wr e hi hold
      · exact Function.update_self _ _ _
    · rw [Function.update_of_ne hj] at hv
      rw [Function.update_of_ne (hfree j v e hv he)]
      exact h.saved j v e hv he
  · intro id g hg
    by_cases hid : id = c.containerID
    · subst hid
      rw [Function.update_self,Option.some.injEq] at hg
      subst hg
      exact ⟨i,wr',Function.update_self _ _ _,hexpl⟩
    · rw [Function.update_of_ne hid] at hg
      obtain ⟨j,v,hv,hx⟩ := h.files id g hg
      by_cases hj : j = i
      · subst hj
        obtain rfl : wr = v := Option.some.inj (hi.symm.trans hv)
        refine ⟨j,wr',Function.update_self _ _ _,Or.inl ?_⟩
        rcases hx with ⟨e,he,hname,hf⟩ | ⟨flag,e,n,hpoint,hname,_⟩
        · exact ⟨e,(hsaved e).mpr (Or.inl he),hname,hf⟩
        · rw [hpoint] at hheld
          obtain rfl : e = c := by simpa [Point.held] using hheld
          exact absurd hname.symm hid
      · exact ⟨j,v,by rwa [Function.update_of_ne hj],hx⟩

theorem diskOk_writer {ws : ℕ → Option Writer} {i k : ℕ} {p p' : Pipe} (h : DiskOk p.disk ws)
    (hi : ws i = some p.writer) (hstep : writerStep p k = some p')
    (hpos : ∀ c ∈ p.writer.point.held, 0 < c.written.length)
    (hfree : ∀ c ∈ p.writer.point.held, ∀ j v e, ws j = some v → e ∈ v.saved →
      e.containerID ≠ c.containerID) :
    DiskOk p'.disk (Function.update ws i (some p'.writer)) := by
  rcases writerStep_disk hstep hpos with ⟨hdisk,hsaved,hpoint⟩ | ⟨flag,c,n,hheld,hn,hw,hdisk⟩ |
    ⟨c,hheld,hsaved,hdisk⟩
  · rw [hdisk]
    constructor
    · intro j v e hv he
      by_cases hj : j = i
      · subst hj
        obtain rfl : p'.writer = v := by simpa using hv
        exact h.saved j _ e hi (hsaved ▸ he)
      · exact h.saved j v e (by simpa [hj] using hv) he
    · intro id f hf
      obtain ⟨j,v,hv,hx⟩ := h.files id f hf
      by_cases hj : j = i
      · subst hj
        obtain rfl : p.writer = v := Option.some.inj (hi.symm.trans hv)
        refine ⟨j,p'.writer,Function.update_self _ _ _,Or.inl ?_⟩
        rcases hx with hold | ⟨flag,c,n,hpt,_⟩
        · rwa [hsaved]
        · exact absurd hpt (hpoint flag c n)
      · exact ⟨j,v,by rwa [Function.update_of_ne hj],hx⟩
  · rw [hdisk]
    refine diskOk_update h hi hheld (hfree c (by simp [hheld])) ?_ ?_
    · simp [hw]
    · exact Or.inr ⟨flag,c,n,by rw [hw],rfl,hn,rfl⟩
  · rw [hdisk]
    refine diskOk_update h hi hheld (hfree c (by simp [hheld])) ?_ ?_
    · simp [hsaved]
    · exact Or.inl ⟨c,by simp [hsaved],rfl,rfl⟩

theorem Named.mono {uuid : ℕ → Bytes} {m n : ℕ} {v : View Place Bytes Bytes Bytes}
    (h : Named uuid m v) (hmn : m ≤ n) : Named uuid n v := by
  intro a g hg
  obtain ⟨k,hk,hname⟩ := h a g hg
  exact ⟨k,hk.trans_le hmn,hname⟩

theorem Named.update {uuid : ℕ → Bytes} {n : ℕ} {v : View Place Bytes Bytes Bytes}
    (h : Named uuid n v) (a : Place) {o : Option Group}
    (ho : ∀ g, o = some g → ∃ k < n, g.1 = uuid k) : Named uuid n (Function.update v a o) := by
  intro b g hb
  by_cases hba : b = a
  · subst hba
    exact ho g (by simpa using hb)
  · exact h b g (by simpa [hba] using hb)

section Steps

variable {H : Digest} {uuid : ℕ → Bytes} {S : Set Bytes} {w : World} {i : ℕ} {s : Session}

theorem inv_empty (H : Digest) (uuid : ℕ → Bytes) (S : Set Bytes) : Inv H uuid S empty where
  catalog := by
    have hv : view empty = fun _ => none := by
      funext a
      cases a <;> rfl
    have hx : empty.index = fun _ => none := by
      funext fp
      exact Finmap.lookup_empty _
    rw [hv,hx]
    exact consistent_empty H.hash
  named := by
    intro a g hg
    cases a <;> simp [view,empty] at hg
  sessions := by simp [empty]
  disk := ⟨by simp [writers,empty],by simp [empty]⟩

theorem Inv.replace (h : Inv H uuid S w) (hs : w.sessions i = some s) {s' : Session} {sh : Shared}
    (hw : s'.writer = s.writer) (hok : SessionOk S s')
    (hcat : Consistent H.hash (view (w.put i s')) fun fp => sh.indexStore.lookup fp)
    (hnamed : Named uuid sh.drawn (view (w.put i s'))) :
    Inv H uuid S { (w.put i s') with shared := sh } where
  catalog := hcat
  named := hnamed
  sessions := by
    intro j t ht
    rcases put_cases ht with ⟨_,rfl⟩ | ⟨_,hold⟩
    · exact hok
    · exact h.sessions j t hold
  disk := by
    have hwr := writers_put_same hs hw
    exact ⟨fun j => hwr ▸ h.disk.saved j,hwr ▸ h.disk.files⟩

/-- A change of a session that neither its containers nor the index notice. -/
theorem Inv.keep (h : Inv H uuid S w) (hs : w.sessions i = some s) {s' : Session}
    (hw : s'.writer = s.writer) (hok : SessionOk S s') (hp : s'.pushes = s.pushes)
    (hm : s'.inMemory = s.inMemory) : Inv H uuid S (w.put i s') := by
  have hv := view_put_same hs hp hm
  exact h.replace hs hw hok (hv ▸ h.catalog) (hv ▸ h.named)

theorem packed_newSession {prior : InmemoryContainer} (id : Bytes) (hprior : prior.chunkNum = 0) :
    Packed (initUploadBuffer prior id) [] :=
  packed_of_empty rfl rfl hprior

theorem view_login (hs : w.sessions i = none) {prior : InmemoryContainer} (buffer : Mem UInt8)
    (id : Bytes) (hprior : prior.chunkNum = 0) :
    view (w.put i (newSession id prior buffer)) =
      Function.update (view w) (.memory i) (some (id,[])) := by
  have hmem : (newSession id prior buffer).inMemory = some (id,[]) :=
    inMemory_of_packed rfl (packed_newSession id hprior)
  funext a
  cases a with
  | memory j =>
    by_cases hj : j = i
    · subst hj
      simpa [view] using hmem
    · simp [view,put_ne w _ hj,hj]
  | pushed j k =>
    by_cases hj : j = i
    · subst hj
      simp [view,hs,newSession,Session.pushes,Point.held]
    · simp [view,put_ne w _ hj]

theorem inv_login (h : Inv H uuid S w) (hid : Set.InjOn uuid {n | n < w.shared.drawn+1})
    (hs : w.sessions i = none) (prior : InmemoryContainer) (buffer : Mem UInt8)
    (hprior : prior.chunkNum = 0) :
    Inv H uuid S { (w.put i (newSession (uuid w.shared.drawn) prior buffer)) with
      shared := { w.shared with drawn := w.shared.drawn+1 } } := by
  have hpacked := packed_newSession (uuid w.shared.drawn) hprior
  have hview := view_login hs buffer (uuid w.shared.drawn) hprior
  refine ⟨?_,?_,?_,?_⟩
  · exact hview ▸ h.catalog.addEmpty (by simp [view,hs]) (h.fresh hid)
  · refine hview ▸ (h.named.mono (Nat.le_succ _)).update _ ?_
    rintro g ⟨⟩
    exact ⟨_,Nat.lt_succ_self _,rfl⟩
  · intro j t ht
    rcases put_cases ht with ⟨_,rfl⟩ | ⟨_,hold⟩
    · exact ⟨⟨[],hpacked,by simp [Stored]⟩,by simp [newSession,Session.pushes,Point.held],
        ⟨[],⟨rfl,holds_nil _ _,by simp⟩,by simp⟩⟩
    · exact h.sessions j t hold
  · have hnone : writers w i = none := by simp [writers,hs]
    have hwr := writers_put (w := w) (i := i) (newSession (uuid w.shared.drawn) prior buffer)
    refine ⟨?_,?_⟩
    · intro j v c hv hc
      change writers (w.put i _) j = some v at hv
      rw [hwr] at hv
      by_cases hj : j = i
      · subst hj
        simp only [Function.update_self,Option.some.injEq] at hv
        subst hv
        simp [newSession] at hc
      · exact h.disk.saved j v c (by simpa [hj] using hv) hc
    · intro id f hf
      obtain ⟨j,v,hv,hx⟩ := h.disk.files id f hf
      have hj : j ≠ i := by
        rintro rfl
        simp [hnone] at hv
      refine ⟨j,v,?_,hx⟩
      change writers (w.put i _) j = some v
      rw [hwr,Function.update_of_ne hj,hv]

theorem inv_message (h : Inv H uuid S w) (hs : w.sessions i = some s) (chunks : List Bytes)
    (hchunks : ∀ d ∈ chunks, d.length ≤ maxChunkSize ∧ d ∈ S) :
    Inv H uuid S (w.put i { s with
      batch := Batch.receive s.batch.dataBuffer chunks.length (encodeChunks chunks) }) := by
  have hok := h.sessions i s hs
  refine h.keep hs rfl ⟨hok.current,hok.pushed,?_⟩ rfl rfl
  exact ⟨chunks,remaining_receive _ fun d hd => (hchunks d hd).1,fun d hd => (hchunks d hd).2⟩

theorem view_append (hs : w.sessions i = some s) (hlive : s.live = true) {ps : List Pair}
    {c : InmemoryContainer} {b : Batch} (hc : Packed c ps) :
    view (w.put i { s with client := ⟨c,s.client.inputMQ⟩, batch := b }) =
      Function.update (view w) (.memory i) (some (c.containerID,ps)) := by
  have hp : Session.pushes { s with client := ⟨c,s.client.inputMQ⟩, batch := b } = s.pushes := rfl
  rw [view_put hs hp,inMemory_of_packed (by exact hlive) hc]

theorem inv_append (h : Inv H uuid S w) (hs : w.sessions i = some s) (hlive : s.live = true)
    {ps : List Pair} {d : Bytes} {c : InmemoryContainer} {b : Batch} {sh : Shared}
    (hc : Packed s.client.curContainer ps) (hname : c.containerID = s.client.curContainer.containerID)
    (hc' : Packed c (ps ++ [(H.hash d,d)])) (hnew : w.index (H.hash d) = none)
    (hstored : Stored S (ps ++ [(H.hash d,d)])) (hb : ∃ rest, b.Remaining rest ∧ ∀ e ∈ rest, e ∈ S)
    (hindex : sh.indexStore = Database.insert w.shared.indexStore (H.hash d) c.containerID)
    (hdrawn : sh.drawn = w.shared.drawn) :
    Inv H uuid S { (w.put i { s with client := ⟨c,s.client.inputMQ⟩, batch := b }) with
      shared := sh } := by
  have hmem : view w (.memory i) = some (c.containerID,ps) := by
    rw [view_memory hs,inMemory_of_packed hlive hc,hname]
  have hview := view_append (b := b) hs hlive hc'
  refine h.replace hs rfl ⟨⟨_,hc',hstored⟩,(h.sessions i s hs).pushed,hb⟩ ?_ ?_
  · rw [hview,hindex]
    refine h.catalog.append hmem hnew rfl ?_ ?_
    · exact Finmap.lookup_insert _
    · intro fp hfp
      exact Finmap.lookup_insert_of_ne _ hfp
  · rw [hview,hdrawn]
    refine h.named.update _ ?_
    rintro g ⟨⟩
    exact h.named _ (c.containerID,ps) hmem

theorem view_flush (hs : w.sessions i = some s) (hlive : s.live = true) {ps qs : List Pair}
    {c : InmemoryContainer} {b : Batch} (hsound : Sound S (s.client.curContainer.containerID,ps))
    (hc : Packed c qs) :
    view (w.put i { s with
        client := ⟨c,s.client.inputMQ ++ [sealed (s.client.curContainer.containerID,ps)]⟩,
        batch := b }) =
      Function.update (Function.update (view w) (.memory i) (some (c.containerID,qs)))
        (.pushed i s.pushes.length) (some (s.client.curContainer.containerID,ps)) := by
  have hp : Session.pushes { s with
      client := ⟨c,s.client.inputMQ ++ [sealed (s.client.curContainer.containerID,ps)]⟩,
      batch := b } = s.pushes ++ [sealed (s.client.curContainer.containerID,ps)] := by
    simp [Session.pushes]
  rw [view_put_push hs hp,inMemory_of_packed (by exact hlive) hc,contentOf_sealed hsound]

theorem inv_flush (h : Inv H uuid S w) (hid : Set.InjOn uuid {n | n < w.shared.drawn+1})
    (hs : w.sessions i = some s) (hlive : s.live = true)
    {ps : List Pair} {d : Bytes} {c : InmemoryContainer} {b : Batch} {sh : Shared}
    (hc : Packed s.client.curContainer ps) (hstored : Stored S ps)
    (hname : c.containerID = uuid w.shared.drawn)
    (hc' : Packed c [(H.hash d,d)]) (hnew : w.index (H.hash d) = none)
    (hd : Stored S [(H.hash d,d)]) (hb : ∃ rest, b.Remaining rest ∧ ∀ e ∈ rest, e ∈ S)
    (hindex : sh.indexStore = Database.insert w.shared.indexStore (H.hash d) c.containerID)
    (hdrawn : sh.drawn = w.shared.drawn+1) :
    Inv H uuid S { (w.put i { s with
      client := ⟨c,s.client.inputMQ ++ [sealed (s.client.curContainer.containerID,ps)]⟩,
      batch := b }) with shared := sh } := by
  have hsound : Sound S (s.client.curContainer.containerID,ps) := sound_of_packed hc hstored
  have hmem : view w (.memory i) = some (s.client.curContainer.containerID,ps) := by
    rw [view_memory hs,inMemory_of_packed hlive hc]
  have hfree := view_pushed_length hs
  have hview := view_flush (b := b) hs hlive hsound hc'
  -- seen as catalog operations: the group moves to its place among the pushed ones,
  -- an empty group takes the memory, and the chunk is appended to it
  have hmoved := h.catalog.move hmem hfree
  have hopened := hmoved.addEmpty (a := .memory i) (i := uuid w.shared.drawn) (by simp) (by
    intro b g hg
    rcases Consistent.update_cases hg with ⟨_,rfl⟩ | ⟨_,hv⟩
    · exact h.fresh hid _ _ hmem
    · by_cases hbm : b = .memory i
      · simp [hbm] at hv
      · exact h.fresh hid b g (by simpa [hbm] using hv))
  refine h.replace hs rfl ⟨⟨_,hc',hd⟩,?_,hb⟩ ?_ ?_
  · intro e he
    have hsplit : e ∈ s.pushes ++ [sealed (s.client.curContainer.containerID,ps)] := by
      simpa [Session.pushes] using he
    rcases List.mem_append.mp hsplit with hold | hlast
    · exact (h.sessions i s hs).pushed e hold
    · exact ⟨_,List.mem_singleton.mp hlast,hsound⟩
  · have happended : Consistent H.hash _ fun fp => sh.indexStore.lookup fp :=
      hopened.append (k := H.hash d) (d := d) (Function.update_self _ _ _) hnew rfl
      (by rw [hindex,hname]; exact Finmap.lookup_insert _)
      (by intro fp hfp; rw [hindex]; exact Finmap.lookup_insert_of_ne _ hfp)
    rw [hview,hname]
    rw [Function.update_idem,Function.update_comm (by simp),Function.update_idem] at happended
    exact happended
  · rw [hview,hdrawn]
    refine ((h.named.mono (Nat.le_succ _)).update _ ?_).update _ ?_
    · rintro g ⟨⟩
      exact ⟨_,Nat.lt_succ_self _,hname⟩
    · rintro g ⟨⟩
      exact h.named.mono (Nat.le_succ _) _ _ hmem

theorem inv_chunk (h : Inv H uuid S w) (hs : w.sessions i = some s) (hlive : s.live = true)
    (hbusy : s.batch.index < s.batch.chunkNum) {r : Locked}
    (hr : r = dedupChunk uuid w.shared s.client (H.hash s.batch.chunk) s.batch.containerNameStr
      s.batch.chunk)
    (hid : Set.InjOn uuid {n | n < r.shared.drawn}) :
    Inv H uuid S { (w.put i { s with
      client := r.client, batch := s.batch.advance r.containerNameStr }) with
        shared := r.shared } := by
  obtain ⟨⟨ps,hc,hps⟩,hpushed,rest,hrest,hin⟩ := h.sessions i s hs
  cases rest with
  | nil => exact absurd hbusy ((remaining_nil_iff hrest).mp rfl)
  | cons d ds =>
    obtain ⟨_,hchunk,hadvance⟩ := remaining_cons hrest
    have hb : ∀ name, ∃ rest, (s.batch.advance name).Remaining rest ∧ ∀ e ∈ rest, e ∈ S :=
      fun name => ⟨ds,hadvance name,fun e he => hin e (by simp [he])⟩
    have hd : d.length ≤ maxChunkSize ∧ d ∈ S := ⟨hrest.small d (by simp),hin d (by simp)⟩
    have hstored : Stored S [(H.hash d,d)] := by
      intro p hp
      obtain rfl := List.mem_singleton.mp hp
      exact hd
    rw [hchunk] at hr
    rcases dedupChunk_cases uuid w.shared s.client (H.hash d) s.batch.containerNameStr d with
      ⟨id,_,hdup⟩ | ⟨hnew,hsave⟩
    · rw [hdup] at hr
      subst hr
      exact h.keep hs rfl ⟨⟨ps,hc,hps⟩,hpushed,hb id⟩ rfl rfl
    · rw [hsave] at hr
      obtain ⟨c,⟨hout,hname,hc'⟩ | ⟨hout,hname,hc'⟩⟩ := saveChunk_packed uuid
        w.shared.drawn (p := (H.hash d,d)) hc (H.hash_length d) (fits_of_small hd.1)
      · simp only at hout hr
        rw [hout] at hr
        subst hr
        exact inv_append h hs hlive hc hname hc' hnew (stored_append.mpr ⟨hps,hstored⟩) (hb _)
          (by simp [hname]) rfl
      · simp only at hout hr
        rw [hout] at hr
        subst hr
        exact inv_flush h hid hs hlive hc hps hname hc' hnew hstored (hb _) (by simp [hname]) rfl

theorem lastContainer_packed {cl : ClientVar} {ps : List Pair} (hc : Packed cl.curContainer ps) :
    (ps = [] ∧ lastContainer cl = cl) ∨
    lastContainer cl = ⟨cl.curContainer,
      cl.inputMQ ++ [sealed (cl.curContainer.containerID,ps)]⟩ := by
  by_cases hzero : cl.curContainer.currentHeaderSize = 0
  · have hnil : ps = [] := by
      have hsize := hc.headerSize
      rw [hzero,hc.chunkNum,entrySize,chunkHashSize] at hsize
      exact List.length_eq_zero_iff.mp (by omega)
    exact Or.inl ⟨hnil,by simp [lastContainer,hzero]⟩
  · exact Or.inr (by simp [lastContainer,hzero,ocallWriteContainer_packed hc])

theorem view_drop (hs : w.sessions i = some s) (hlast : lastContainer s.client = s.client) :
    view (w.put i { s with client := lastContainer s.client, live := false }) =
      Function.update (view w) (.memory i) none := by
  have hp : Session.pushes { s with client := lastContainer s.client, live := false } = s.pushes := by
    rw [hlast]
    rfl
  exact view_put hs hp

theorem pushes_seal {ps : List Pair} (hlast : lastContainer s.client = ⟨s.client.curContainer,
      s.client.inputMQ ++ [sealed (s.client.curContainer.containerID,ps)]⟩) :
    Session.pushes { s with client := lastContainer s.client, live := false } =
      s.pushes ++ [sealed (s.client.curContainer.containerID,ps)] := by
  simp [Session.pushes,hlast]

theorem view_seal (hs : w.sessions i = some s) {ps : List Pair}
    (hsound : Sound S (s.client.curContainer.containerID,ps))
    (hlast : lastContainer s.client = ⟨s.client.curContainer,
      s.client.inputMQ ++ [sealed (s.client.curContainer.containerID,ps)]⟩) :
    view (w.put i { s with client := lastContainer s.client, live := false }) =
      Function.update (Function.update (view w) (.memory i) none)
        (.pushed i s.pushes.length) (some (s.client.curContainer.containerID,ps)) := by
  rw [view_put_push hs (pushes_seal hlast),contentOf_sealed hsound]
  rfl

theorem inv_lastContainer (h : Inv H uuid S w) (hs : w.sessions i = some s)
    (hlive : s.live = true) :
    Inv H uuid S (w.put i { s with client := lastContainer s.client, live := false }) := by
  obtain ⟨⟨ps,hc,hps⟩,hpushed,hb⟩ := h.sessions i s hs
  have hmem : view w (.memory i) = some (s.client.curContainer.containerID,ps) := by
    rw [view_memory hs,inMemory_of_packed hlive hc]
  rcases lastContainer_packed hc with ⟨hnil,hlast⟩ | hlast
  · have hview := view_drop hs hlast
    refine h.replace hs rfl ⟨⟨ps,by rw [hlast]; exact hc,hps⟩,?_,hb⟩ ?_ ?_
    · rw [hlast]
      exact hpushed
    · exact hview ▸ h.catalog.dropEmpty (hnil ▸ hmem)
    · rw [hview]
      exact h.named.update _ (by simp)
  · have hsound : Sound S (s.client.curContainer.containerID,ps) := sound_of_packed hc hps
    have hp := pushes_seal hlast
    have hview := view_seal hs hsound hlast
    refine h.replace hs rfl ⟨⟨ps,by rw [hlast]; exact hc,hps⟩,?_,hb⟩ ?_ ?_
    · intro e he
      rcases List.mem_append.mp (hp ▸ he) with hold | hnew
      · exact hpushed e hold
      · exact ⟨_,List.mem_singleton.mp hnew,hsound⟩
    · exact hview ▸ h.catalog.move hmem (view_pushed_length hs)
    · rw [hview]
      refine (h.named.update _ (by simp)).update _ ?_
      rintro g ⟨⟩
      exact h.named _ _ hmem

theorem Inv.pushed_inj (h : Inv H uuid S w) {j k l : ℕ} {t : Session} {c e : Container}
    (hs : w.sessions i = some s) (ht : w.sessions j = some t) (hc : s.pushes[k]? = some c)
    (he : t.pushes[l]? = some e) (hname : c.containerID = e.containerID) : i = j ∧ k = l := by
  have hplace := h.catalog.distinct _ _ _ _ (view_pushed hs hc) (view_pushed ht he) hname
  simpa using hplace

theorem Inv.saved_ne (h : Inv H uuid S w) {j : ℕ} {t : Session} {e c : Container}
    (hs : w.sessions i = some s) (he : e ∈ s.writer.saved) (ht : w.sessions j = some t)
    (hc : c ∈ t.writer.point.held ++ t.client.inputMQ) : e.containerID ≠ c.containerID := by
  intro hname
  obtain ⟨l,hl⟩ := List.mem_iff_getElem?.mp he
  obtain ⟨m,hm⟩ := List.mem_iff_getElem?.mp hc
  obtain ⟨rfl,hlm⟩ := h.pushed_inj hs ht (pushes_saved hl) (pushes_unsaved hm) hname
  obtain rfl : s = t := Option.some.inj (hs.symm.trans ht)
  have := (List.getElem?_eq_some_iff.mp hl).1
  omega

theorem inv_writer (h : Inv H uuid S w) (hs : w.sessions i = some s) {k : ℕ} {p : Pipe}
    (hp : writerStep (s.pipe w.disk) k = some p) :
    Inv H uuid S { (w.put i { s with client.inputMQ := p.inputMQ.items, writer := p.writer }) with
      disk := p.disk } := by
  have hok := h.sessions i s hs
  have hpushes : Session.pushes { s with client.inputMQ := p.inputMQ.items, writer := p.writer } =
      s.pushes := (writerStep_pushes hp).1
  have hview := view_put_same hs hpushes rfl
  refine ⟨?_,?_,?_,?_⟩
  · exact hview ▸ h.catalog
  · exact hview ▸ h.named
  · intro j t ht
    rcases put_cases ht with ⟨_,rfl⟩ | ⟨_,hold⟩
    · exact ⟨hok.current,fun c hc => hok.pushed c (hpushes ▸ hc),hok.batch⟩
    · exact h.sessions j t hold
  · have hwi : writers w i = some s.writer := by simp [writers,hs]
    have hstep := diskOk_writer (p := s.pipe w.disk) h.disk hwi hp ?_ ?_
    · have hwr := writers_put (w := w) (i := i)
        { s with client.inputMQ := p.inputMQ.items, writer := p.writer }
      exact ⟨fun j => hwr ▸ hstep.saved j,hwr ▸ hstep.files⟩
    · intro c hc
      obtain ⟨g,rfl,hg⟩ := hok.pushed c (by simp [Session.pushes,show c ∈ s.writer.point.held from hc])
      rw [written_sealed,image_length hg.hashed]
      omega
    · intro c hc j v e hv he
      obtain ⟨t,ht,rfl⟩ := Option.map_eq_some_iff.mp hv
      exact h.saved_ne ht he hs (List.mem_append_left _ hc)

theorem drawn_mono {w' : World} {e : Event} (h : Takes H uuid w e w') :
    w.shared.drawn ≤ w'.shared.drawn := by
  cases h with
  | login => exact Nat.le_succ _
  | message | lastContainer | setDone | writer => exact le_refl _
  | @chunk i s r hs _ _ hr =>
    subst hr
    rcases dedupChunk_cases uuid w.shared s.client (H.hash s.batch.chunk) s.batch.containerNameStr
      s.batch.chunk with ⟨id,_,hdup⟩ | ⟨_,hsave⟩
    · rw [hdup]
    · rw [hsave]
      rcases saveChunk_cases uuid w.shared.drawn s.client (H.hash s.batch.chunk) s.batch.chunk with
        ⟨_,hout⟩ | ⟨_,hout⟩
      · simp [hout]
      · simp [hout]

theorem inv_step {w' : World} {e : Event} (h : Inv H uuid S w) (he : Admitted S e)
    (hstep : step H uuid w e = some w') (hid : Set.InjOn uuid {n | n < w'.shared.drawn}) :
    Inv H uuid S w' := by
  cases takes_of_step hstep with
  | login prior buffer hs => exact inv_login h hid hs prior buffer he
  | message n payload hs =>
    obtain ⟨chunks,rfl,rfl,hchunks⟩ := he
    exact inv_message h hs chunks hchunks
  | chunk hs hlive hbusy hr => exact inv_chunk h hs hlive hbusy hr hid
  | lastContainer hs hlive => exact inv_lastContainer h hs hlive
  | @setDone i s hs hdead =>
    have hok := h.sessions i s hs
    exact h.keep hs rfl ⟨hok.current,hok.pushed,hok.batch⟩ rfl rfl
  | writer hs hp => exact inv_writer h hs hp

/-- The invariant holds in every state that admitted events reach, as long as the
identifiers drawn up to it are distinct. -/
theorem inv_exec {w' : World} {es : List Event} (h : Exec (step H uuid) w es w')
    (hw : Inv H uuid S w) (hes : ∀ e ∈ es, Admitted S e)
    (hid : Set.InjOn uuid {n | n < w'.shared.drawn}) : Inv H uuid S w' := by
  refine h.invariant (P := fun v => Set.InjOn uuid {n | n < v.shared.drawn} → Inv H uuid S v)
    ?_ (fun _ => hw) hes hid
  intro v e v' hv he hstep hid'
  have hmono := drawn_mono (takes_of_step hstep)
  exact inv_step (hv (hid'.mono fun n hn => Nat.lt_of_lt_of_le hn hmono)) he hstep hid'

/-- A step never removes or rebinds a fingerprint. -/
theorem index_step {w' : World} {e : Event} (h : Takes H uuid w e w') {fp id : Bytes}
    (hfp : w.index fp = some id) : w'.index fp = some id := by
  cases h with
  | login | message | lastContainer | setDone | writer => exact hfp
  | @chunk i s r hs _ _ hr =>
    subst hr
    rcases dedupChunk_cases uuid w.shared s.client (H.hash s.batch.chunk) s.batch.containerNameStr
      s.batch.chunk with ⟨_,_,hdup⟩ | ⟨hnew,hsave⟩
    · rw [hdup]
      exact hfp
    · rw [hsave]
      have hne : fp ≠ H.hash s.batch.chunk := by
        rintro rfl
        simp [World.index,hnew] at hfp
      exact (Finmap.lookup_insert_of_ne _ hne).trans hfp

theorem index_exec {w' : World} {es : List Event} (h : Exec (step H uuid) w es w') {fp id : Bytes}
    (hfp : w.index fp = some id) : w'.index fp = some id :=
  h.relate (R := fun v v' : World => v.index fp = some id → v'.index fp = some id) (fun _ hv => hv)
    (fun _ _ _ h₁ h₂ hv => h₂ (h₁ hv)) (fun _ _ _ hstep hv => index_step (takes_of_step hstep) hv) hfp

end Steps

/-- A chunk whose fingerprint is indexed, or that session `j` has still to process. -/
def Covered (H : Digest) (w : World) (j : ℕ) (c : Bytes) : Prop :=
  (∃ id, w.index (H.hash c) = some id) ∨
  ∃ s rest, w.sessions j = some s ∧ s.batch.Pending rest ∧ c ∈ rest

section Uploaded

variable {H : Digest} {uuid : ℕ → Bytes} {j : ℕ} {c : Bytes}

theorem covered_put {w : World} {i : ℕ} {s s' : Session} (hs : w.sessions i = some s)
    (hbatch : s'.batch = s.batch) (h : Covered H w j c) : Covered H (w.put i s') j c := by
  apply Or.imp_right _ h
  rintro ⟨t,rest,ht,hrest,hc⟩
  by_cases hji : j = i
  · subst hji
    obtain rfl : s = t := Option.some.inj (hs.symm.trans ht)
    exact ⟨s',rest,put_self w j s',hbatch ▸ hrest,hc⟩
  · exact ⟨t,rest,(put_ne w s' hji).trans ht,hrest,hc⟩

theorem covered_start {w : World} {i : ℕ} (s' : Session)
    (hidle : ∀ s, w.sessions i = some s → ¬ s.batch.index < s.batch.chunkNum)
    (h : Covered H w j c) : Covered H (w.put i s') j c := by
  apply Or.imp_right _ h
  rintro ⟨t,rest,ht,hrest,hc⟩
  have hji : j ≠ i := by
    rintro rfl
    simp [pending_nil_of_idle hrest (hidle t ht)] at hc
  exact ⟨t,rest,(put_ne w s' hji).trans ht,hrest,hc⟩

theorem covered_chunk {w : World} {i : ℕ} {s : Session} {r : Locked} (hs : w.sessions i = some s)
    (hr : r = dedupChunk uuid w.shared s.client (H.hash s.batch.chunk) s.batch.containerNameStr
      s.batch.chunk)
    (hkept : ∀ fp id, w.index fp = some id → r.shared.indexStore.lookup fp = some id)
    (h : Covered H w j c) :
    Covered H { (w.put i { s with client := r.client, batch := s.batch.advance r.containerNameStr })
      with shared := r.shared } j c := by
  rcases h with ⟨id,hid⟩ | ⟨t,rest,ht,hrest,hc⟩
  · exact Or.inl ⟨id,hkept _ id hid⟩
  · by_cases hji : j = i
    · subst hji
      obtain rfl : s = t := Option.some.inj (hs.symm.trans ht)
      cases rest with
      | nil => simp at hc
      | cons c₀ cs =>
        obtain ⟨_,hchunk,hnext⟩ := pending_cons hrest
        rcases List.mem_cons.mp hc with rfl | hin
        · left
          subst hr
          rw [hchunk]
          exact dedupChunk_indexed uuid w.shared s.client (H.hash c) s.batch.containerNameStr c
        · exact Or.inr ⟨_,cs,put_self w j _,hnext _,hin⟩
    · exact Or.inr ⟨t,rest,(put_ne w _ hji).trans ht,hrest,hc⟩

theorem covered_takes {w w' : World} {e : Event} (h : Takes H uuid w e w')
    (hc : Covered H w j c) : Covered H w' j c := by
  have hkept : ∀ fp id, w.index fp = some id → w'.index fp = some id :=
    fun fp id hfp => index_step h hfp
  cases h with
  | @login i prior buffer hs =>
    exact covered_start (newSession (uuid w.shared.drawn) prior buffer) (by simp [hs]) hc
  | @message i s n payload hs _ hidle =>
    refine covered_start _ (fun t ht => ?_) hc
    rwa [← Option.some.inj (hs.symm.trans ht)]
  | chunk hs _ _ hr => exact covered_chunk hs hr hkept hc
  | lastContainer hs => exact covered_put hs rfl hc
  | setDone hs => exact covered_put hs rfl hc
  | writer hs =>
    exact covered_put hs rfl hc

end Uploaded

end UploadInvariant
end CloudServer
