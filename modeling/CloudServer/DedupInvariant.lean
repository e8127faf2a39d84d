import CloudServer.UploadInvariant
import CloudServer.InputStream

/-! The deduplication index against everything that stores chunks: the container in
the memory of each session, the containers in its queue and in the hands of its
writer, and the container files that have been written. -/
namespace CloudServer
namespace DedupInvariant

open ByteMemory Execution StorageCore ContainerFormat Packing PlainIndex Catalog Uploads
  UploadInvariant
open DataWriter hiding Session Event step Inv

inductive Location
  | memory (i : ℕ)
  | queued (i k : ℕ)
  | writing (i k : ℕ)
  | file (id : Bytes)

def fileContent (id : Bytes) (f : DiskFile) : Option Group :=
  if f.closed then some (id,listChunks (write (fun _ => 0) 0 f.content)) else none

/-- The named header entries found at each location. -/
def contents (w : World) : View Location Bytes Bytes Bytes
  | .memory i => (w.sessions i).bind Session.inMemory
  | .queued i k => (w.sessions i).bind fun s => (s.client.inputMQ[k]?).map contentOf
  | .writing i k => (w.sessions i).bind fun s => (s.writer.point.held[k]?).map contentOf
  | .file id => (w.disk id).bind (fileContent id)

/-- Where the container of an abstract place is by now. -/
def locate (w : World) : Place → Option Location
  | .memory i => some (.memory i)
  | .pushed i k => (w.sessions i).map fun s =>
    match s.writer.saved[k]? with
    | some c => .file c.containerID
    | none =>
      if k < s.writer.saved.length+s.writer.point.held.length then
        .writing i (k-s.writer.saved.length)
      else .queued i (k-s.writer.saved.length-s.writer.point.held.length)

variable {H : Digest} {uuid : ℕ → Bytes} {S : Set Bytes} {w : World}

theorem locate_saved {i k : ℕ} {s : Session} {c : Container} (hs : w.sessions i = some s)
    (hc : s.writer.saved[k]? = some c) : locate w (.pushed i k) = some (.file c.containerID) := by
  simp [locate,hs,hc]

theorem locate_held {i k : ℕ} {s : Session} (hs : w.sessions i = some s)
    (hk : k < s.writer.point.held.length) :
    locate w (.pushed i (s.writer.saved.length+k)) = some (.writing i k) := by
  simp [locate,hs,hk]

theorem locate_queued (i k : ℕ) {s : Session} (hs : w.sessions i = some s) :
    locate w (.pushed i (s.writer.saved.length+s.writer.point.held.length+k)) =
      some (.queued i k) := by
  have hnone : s.writer.saved[s.writer.saved.length+s.writer.point.held.length+k]? = none :=
    List.getElem?_eq_none (by omega)
  simp only [locate,hs,Option.map_some,hnone]
  rw [if_neg (by omega),show _-_-_ = k by omega]

theorem fileContent_saved (h : Inv H uuid S w) {i : ℕ} {s : Session} {c : Container}
    (hs : w.sessions i = some s) (hc : c ∈ s.writer.saved) :
    contents w (.file c.containerID) = some (contentOf c) := by
  have hdisk := h.disk.saved i s.writer c (by simp [writers,hs]) hc
  simp [contents,hdisk,fileContent,contentOf]

theorem saved_of_closed (h : Inv H uuid S w) {id : Bytes} {f : DiskFile} (hf : w.disk id = some f)
    (hclosed : f.closed = true) :
    ∃ (i : ℕ) (s : Session) (k : ℕ) (c : Container), w.sessions i = some s ∧
      s.writer.saved[k]? = some c ∧ c.containerID = id ∧ f = ⟨c.written,true⟩ := by
  obtain ⟨i,wr,hwr,⟨c,hc,hname,hfc⟩ | ⟨_,c,n,_,_,_,hfc⟩⟩ := h.disk.files id f hf
  · obtain ⟨s,hs,rfl⟩ := Option.map_eq_some_iff.mp hwr
    obtain ⟨k,hk⟩ := List.mem_iff_getElem?.mp hc
    exact ⟨i,s,k,c,hs,hk,hname,hfc⟩
  · simp [hfc] at hclosed

theorem place_of_content (h : Inv H uuid S w) {a : Location} {g : Group}
    (hg : contents w a = some g) : ∃ b, locate w b = some a ∧ view w b = some g := by
  cases a with
  | memory i => exact ⟨.memory i,rfl,hg⟩
  | queued i k =>
    obtain ⟨s,hs,hk⟩ := Option.bind_eq_some_iff.mp hg
    obtain ⟨c,hc,rfl⟩ := Option.map_eq_some_iff.mp hk
    exact ⟨_,locate_queued i k hs,view_pushed hs (pushes_queued hc)⟩
  | writing i k =>
    obtain ⟨s,hs,hk⟩ := Option.bind_eq_some_iff.mp hg
    obtain ⟨c,hc,rfl⟩ := Option.map_eq_some_iff.mp hk
    exact ⟨_,locate_held hs (List.getElem?_eq_some_iff.mp hc).1,view_pushed hs (pushes_held hc)⟩
  | file id =>
    obtain ⟨f,hf,hfc⟩ := Option.bind_eq_some_iff.mp hg
    have hclosed : f.closed = true := by
      cases hcl : f.closed with
      | true => rfl
      | false => simp [fileContent,hcl] at hfc
    obtain ⟨i,s,k,c,hs,hk,rfl,rfl⟩ := saved_of_closed h hf hclosed
    refine ⟨.pushed i k,locate_saved hs hk,?_⟩
    rw [view_pushed hs (pushes_saved hk),← hg]
    exact (fileContent_saved h hs (List.mem_of_getElem? hk)).symm

theorem content_of_place (h : Inv H uuid S w) {b : Place} {g : Group} (hg : view w b = some g) :
    ∃ a, contents w a = some g := by
  cases b with
  | memory i => exact ⟨.memory i,hg⟩
  | pushed i k =>
    obtain ⟨s,hs,hk⟩ := Option.bind_eq_some_iff.mp hg
    obtain ⟨c,hc,rfl⟩ := Option.map_eq_some_iff.mp hk
    rcases pushes_cases hc with hsaved | ⟨j,_,hheld⟩ | ⟨j,_,hqueued⟩
    · exact ⟨.file c.containerID,fileContent_saved h hs (List.mem_of_getElem? hsaved)⟩
    · exact ⟨.writing i j,by simp [contents,hs,hheld]⟩
    · exact ⟨.queued i j,by simp [contents,hs,hqueued]⟩

/-- Index and containers agree, wherever the containers are by now. -/
theorem contents_consistent (h : Inv H uuid S w) : Consistent H.hash (contents w) w.index :=
  h.catalog.transfer (R := fun a b => locate w b = some a)
    (fun _ _ _ ha ha' => Option.some.inj (ha.symm.trans ha'))
    (fun _ _ hg => place_of_content h hg) (fun _ _ hg => content_of_place h hg)

/-- The deduplication index in every reachable state: a fingerprint is indexed
exactly when one header entry of one container carries it, that container is the one
the index names, its bytes hash to the fingerprint, and no later step unbinds it. -/
theorem dedup_index_invariant (H : Digest) (uuid : ℕ → Bytes) (es : List Event) (w : World)
    (h : Exec (step H uuid) empty es w) (hes : ∀ e ∈ es, Admitted Set.univ e)
    (hid : Set.InjOn uuid {n | n < w.shared.drawn}) :
    (∀ fp, (∃ id, w.index fp = some id) ↔
      ∃! a : Location × ℕ, ∃ id d, entryAt (contents w) a = some (id,fp,d)) ∧
    (∀ a id fp d, entryAt (contents w) a = some (id,fp,d) →
      w.index fp = some id ∧ H.hash d = fp) ∧
    (∀ fs w' fp id, Exec (step H uuid) w fs w' → w.index fp = some id → w'.index fp = some id) := by
  have hcons := contents_consistent (inv_exec h (inv_empty H uuid Set.univ) hes hid)
  exact ⟨hcons.indexed_iff,fun _ _ _ _ he => hcons.entry he,
    fun _ _ _ _ hrun hfp => index_exec hrun hfp⟩

def paddedDigest : Digest := ⟨fun d => InputStream.resize d chunkHashSize 0,fun _ => by simp⟩

theorem injOn_paddedDigest {T : Set Bytes} (hT : ∀ d ∈ T, d = [5,6] ∨ d = [7]) :
    Set.InjOn paddedDigest.hash T := by
  intro a ha b hb hab
  rcases hT a ha with rfl | rfl <;> rcases hT b hb with rfl | rfl
  · rfl
  · exact absurd hab (by decide)
  · exact absurd hab (by decide)
  · rfl

theorem injOn_small_ids {n : ℕ} (hn : n ≤ 256) :
    Set.InjOn (fun n => [UInt8.ofNat n]) {m | m < n} := by
  intro a ha b hb hab
  have hmod : a % 256 = b % 256 := by simpa [← UInt8.toNat_inj] using hab
  change a < n at ha
  change b < n at hb
  omega

def sharedChunk : List Event :=
  [.login 0 ⟨[],0,fun _ => 0,0,fun _ => 0,0⟩ fun _ => 0,
    .login 1 ⟨[],0,fun _ => 0,0,fun _ => 0,0⟩ fun _ => 0,
    .message 1 1 (encodeChunks [[5,6]]),.message 0 1 (encodeChunks [[5,6]]),.chunk 1,.chunk 0,
    .lastContainer 1,.writer 1 0,.writer 1 0,.writer 1 0]

theorem dedup_index_invariant_shared_chunk :
    ∃ w, Exec (step paddedDigest fun n => [UInt8.ofNat n]) empty sharedChunk w ∧
      w.index (paddedDigest.hash [5,6]) = some [1] ∧
      ∃! a : Location × ℕ, ∃ id d, entryAt (contents w) a = some (id,paddedDigest.hash [5,6],d) := by
  have hrun : (run (step paddedDigest fun n => [UInt8.ofNat n]) empty sharedChunk).map
      (fun w => (w.index (paddedDigest.hash [5,6]),w.shared.drawn)) = some (some [1],2) := by decide
  obtain ⟨w,hexec,hend⟩ := Exec.of_run_map _ hrun
  have hindex := congrArg Prod.fst hend
  have hdrawn : w.shared.drawn = 2 := congrArg Prod.snd hend
  have hmessage : ∃ chunks : List Bytes, 1 = chunks.length ∧
      encodeChunks [[5,6]] = encodeChunks chunks ∧ ∀ d ∈ chunks, d.length ≤ maxChunkSize :=
    ⟨[[5,6]],rfl,rfl,by decide⟩
  have hid : Set.InjOn (fun n => [UInt8.ofNat n]) {n | n < w.shared.drawn} :=
    injOn_small_ids (by omega)
  have hall := dedup_index_invariant paddedDigest (fun n => [UInt8.ofNat n]) sharedChunk w hexec
    (by simpa [sharedChunk,Admitted] using hmessage) hid
  exact ⟨w,hexec,hindex,(hall.1 _).mp ⟨_,hindex⟩⟩

end DedupInvariant
end CloudServer
