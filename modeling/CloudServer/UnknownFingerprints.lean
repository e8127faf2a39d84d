import CloudServer.SendBuffer

/-! Download requests with fingerprints that are not indexed. On a miss the first loop
leaves the name of the container before, so that the entry joins a group to which it does
not belong; the table of the group has no such fingerprint, and the restore loop does not
test what it has found. -/
namespace CloudServer
namespace UnknownFingerprints

open ByteMemory Execution ContainerFormat Packing PlainIndex Uploads UploadInvariant DedupInvariant
  RestoreTable Restore RestoreLoop RestoreStream RoundTrip SendBuffer
open Interaction Interaction.Prog
open DataWriter hiding Session Event step Inv
open RecvDecoder hiding ClientVar
open StorageCore (RestoreIndex indexConstruct restoreEntries)

/-- What the answer to a batch of `recipeNum` fingerprints promises: every table entry that
is used has been found, the container noted for an entry is that of its own fingerprint,
and a chunk is sent for indexed fingerprints only. -/
structure Answered (index disk : Bytes → Option Bytes) (recipeNum : ℕ)
    (c : RecvDecoder.ClientVar) : Prop where
  found : ∀ table k c', AtEntry (answer index disk) recipeNum c table k c' →
    ∃ r, table.lookup (c'.downloadChunkBase k).chunkHash = some r
  recorded : ∀ s, Yields (answer index disk)
      (forRange lookupEntry recipeNum (c,List.replicate containerIdLength 0)) s →
    ∀ i < recipeNum, index (s.1.downloadChunkBase i).chunkHash =
      some (s.1.downloadChunkBase i).containerName
  emitted : ∀ table k c' r, AtEntry (answer index disk) recipeNum c table k c' →
    table.lookup (c'.downloadChunkBase k).chunkHash = some r →
    ∃ id, index (c'.downloadChunkBase k).chunkHash = some id

/-- The files of a quiescent state and the index satisfy the invariant. -/
theorem quiescent_deduped {H : Digest} {uuid : ℕ → Bytes} {S : Set Bytes} {w : World}
    (h : Inv H uuid S w) (hend : Quiescent w) : Deduped w.index (filesOf w) where
  toPlaced := (quiescent_store h hend).placed
  indexed id ps k hps hk := by
    obtain ⟨p,hp,rfl⟩ := List.mem_map.mp hk
    exact (contents_consistent h).bound _ _ p (filesOf_eq h hend hps).2.2 hp

variable {index disk : Bytes → Option Bytes} {files : Bytes → Option (List Pair)}
  {fps : List Bytes} {c c' : RecvDecoder.ClientVar}

theorem yields_assign {i : ℕ} {p p' : Pass}
    (h : Yields (answer index disk) (assignContainer i p) p') :
    p'.client.containerCache = p.client.containerCache ∧ p'.startEntry = p.startEntry ∧
      ∀ j, (p'.client.downloadChunkBase j).chunkHash = (p.client.downloadChunkBase j).chunkHash := by
  have hsame : ∀ n j, (Function.update p.client.downloadChunkBase i
      { p.client.downloadChunkBase i with containerID := n } j).chunkHash =
      (p.client.downloadChunkBase j).chunkHash := by
    intro n j
    by_cases hj : j = i
    · subst hj
      simp
    · simp [hj]
  unfold assignContainer at h
  cases hk : p.tmpContainerMap.lookup (p.client.downloadChunkBase i).containerName with
  | some k =>
    simp only [hk] at h
    rw [yields_pure h]
    exact ⟨rfl,rfl,hsame k⟩
  | none =>
    simp only [hk] at h
    split_ifs at h with hroom
    · rw [yields_pure h]
      exact ⟨rfl,rfl,hsame p.client.idNum⟩
    · simp [Yields,eval] at h

theorem yields_recover {table : RestoreIndex} {k : ℕ}
    (h : Yields (answer index disk) (recoverEntry table k c) c') :
    (∃ r, table.lookup (c.downloadChunkBase k).chunkHash = some r) ∧
      c'.containerCache = c.containerCache ∧
      ∀ j, (c'.downloadChunkBase j).chunkHash = (c.downloadChunkBase j).chunkHash := by
  cases hr : table.lookup (c.downloadChunkBase k).chunkHash with
  | none => simp [recoverEntry,hr,Yields,eval] at h
  | some r =>
    obtain ⟨_,buf,hret,_⟩ := returns_recover index disk hr
    rw [h.eq hret]
    refine ⟨⟨r,rfl⟩,rfl,?_⟩
    intro j
    by_cases hj : j = k
    · subst hj
      simp [recovered,placed]
    · simp [recovered,hj]

theorem yields_recoverGroup {table : RestoreIndex} {start n : ℕ}
    (h : Yields (answer index disk) (forRange (fun k => recoverEntry table (start+k)) n c) c') :
    c'.containerCache = c.containerCache ∧
      (∀ j, (c'.downloadChunkBase j).chunkHash = (c.downloadChunkBase j).chunkHash) ∧
      ∀ j < n, ∃ r, table.lookup (c.downloadChunkBase (start+j)).chunkHash = some r := by
  refine yields_forRange (I := fun m t => t.containerCache = c.containerCache ∧
    (∀ j, (t.downloadChunkBase j).chunkHash = (c.downloadChunkBase j).chunkHash) ∧
    ∀ j < m, ∃ r, table.lookup (c.downloadChunkBase (start+j)).chunkHash = some r)
    ⟨rfl,fun _ => rfl,by simp⟩ ?_ h
  intro m t t' _ ⟨hcache,hhash,hfound⟩ hround
  obtain ⟨hlookup,hcache',hhash'⟩ := yields_recover hround
  rw [hhash] at hlookup
  refine ⟨hcache'.trans hcache,fun j => (hhash' j).trans (hhash j),?_⟩
  intro j hj
  rcases Nat.lt_succ_iff_lt_or_eq.mp hj with hlt | rfl
  · exact hfound j hlt
  · exact hlookup

theorem yields_getReqContainer
    (hsize : ∀ name content, disk name = some content → content.length ≤ maxContainerSize) {i : ℕ}
    (hcache : c.containerCache.Agrees disk)
    (h : Yields (answer index disk) (getReqContainer i c) c') :
    ∃ content m cache, disk (c.idBuffer i) = some content ∧ Holds m 0 content ∧
      cache.Agrees disk ∧ c' = { c with
        containerArray := Function.update c.containerArray i m, containerCache := cache } := by
  cases hfile : disk (c.idBuffer i) with
  | none =>
    have hmiss : c.containerCache.existsInCache (c.idBuffer i) = false := by
      rw [Bool.eq_false_iff]
      intro hit
      obtain ⟨slot,hslot⟩ := Option.isSome_iff_exists.mp hit
      obtain ⟨content,hcontent,_⟩ := hcache.cached _ (LruCache.find_eq_some hslot)
      simp [hfile] at hcontent
    simp only [getReqContainer,hmiss,Bool.false_eq_true,if_false] at h
    obtain ⟨content,hcontent,_⟩ := yields_bind h
    have hopen := yields_request hcontent
    simp [answer,hfile] at hopen
  | some content =>
    obtain ⟨_,m,cache,hret,_,hm,hagrees,_⟩ := returns_getReqContainer index hsize hcache hfile
    exact ⟨content,m,cache,rfl,hm,hagrees,h.eq hret⟩

theorem yields_getReqContainers
    (hsize : ∀ name content, disk name = some content → content.length ≤ maxContainerSize)
    (hcache : c.containerCache.Agrees disk)
    (h : Yields (answer index disk) (getReqContainers c) c') :
    ∃ array cache, c' = { c with containerArray := array, containerCache := cache } ∧
      cache.Agrees disk ∧
      ∀ k < c.idNum, ∃ content, disk (c.idBuffer k) = some content ∧ Holds (array k) 0 content := by
  refine yields_forRange (I := fun i t => ∃ array cache,
    t = { c with containerArray := array, containerCache := cache } ∧ cache.Agrees disk ∧
    ∀ k < i, ∃ content, disk (c.idBuffer k) = some content ∧ Holds (array k) 0 content)
    ⟨_,_,rfl,hcache,by simp⟩ ?_ h
  rintro i t t' _ ⟨array,cache,rfl,hagrees,harray⟩ ht
  obtain ⟨content,m,cache',hfile,hm,hagrees',rfl⟩ := yields_getReqContainer hsize hagrees ht
  refine ⟨_,cache',rfl,hagrees',?_⟩
  intro k hk
  by_cases hki : k = i
  · subst hki
    exact ⟨content,hfile,by rwa [Function.update_self]⟩
  · rw [Function.update_of_ne hki]
    exact harray k (by omega)

theorem mem_of_lookup_insertions {k : Bytes} {r : RestoreIndexEntry}
    (L : List (Bytes × RestoreIndexEntry))
    (h : (L.foldl (fun t e => Finmap.insert e.1 e.2 t) (∅ : RestoreIndex)).lookup k = some r) :
    (k,r) ∈ L := by
  induction L using List.reverseRecOn with
  | nil => simp at h
  | append_singleton L e ih =>
    rw [List.foldl_append] at h
    simp only [List.foldl_cons,List.foldl_nil] at h
    by_cases hk : k = e.1
    · subst hk
      rw [Finmap.lookup_insert,Option.some.injEq] at h
      simp [← h]
    · rw [Finmap.lookup_insert_of_ne _ hk] at h
      simp [ih h]

theorem indexed_of_lookup (hstore : Deduped index files) {names : ℕ → Bytes} {idNum : ℕ}
    {array : Mem (Mem UInt8)} {fp : Bytes} {r : RestoreIndexEntry}
    (harray : ∀ k < idNum, ∃ content, onDisk files (names k) = some content ∧
      Holds (array k) 0 content)
    (hr : (indexConstruct ∅ array idNum).lookup fp = some r) : ∃ id, index fp = some id := by
  obtain ⟨k,hk,he⟩ := List.mem_flatMap.mp (mem_of_lookup_insertions _ hr)
  obtain ⟨content,hfile,hcontent⟩ := harray k (List.mem_range.mp hk)
  obtain ⟨ps,hps,rfl⟩ := onDisk_eq_some hfile
  have hpair := mem_restoreEntries (hstore.hashed _ ps hps) (hstore.size _ ps hps) hcontent he
  exact ⟨_,hstore.indexed _ ps _ hps (List.mem_map_of_mem hpair)⟩

structure Passed (index : Bytes → Option Bytes) (files : Bytes → Option (List Pair))
    (fps : List Bytes) (i : ℕ) (p : Pass) : Prop where
  cache : p.client.containerCache.Agrees (onDisk files)
  hashes : ∀ (j : ℕ) (fp : Bytes), fps[j]? = some fp → (p.client.downloadChunkBase j).chunkHash = fp
  start : p.startEntry ≤ i
  ended : i = fps.length → p.startEntry = i
  restored : ∀ (j : ℕ) (fp : Bytes), j < p.startEntry → fps[j]? = some fp → ∃ id, index fp = some id

theorem passed_processGroup (hstore : Deduped index files) {i : ℕ} {p p' : Pass}
    (hcache : p.client.containerCache.Agrees (onDisk files))
    (hhashes : ∀ (j : ℕ) (fp : Bytes), fps[j]? = some fp →
      (p.client.downloadChunkBase j).chunkHash = fp)
    (hrestored : ∀ (j : ℕ) (fp : Bytes), j < p.startEntry → fps[j]? = some fp →
      ∃ id, index fp = some id)
    (h : Yields (answer index (onDisk files)) (processGroup fps.length i p) p') :
    Passed index files fps (i+1) p' := by
  obtain ⟨c₁,hc₁,h⟩ := yields_bind h
  obtain ⟨c₂,hc₂,h⟩ := yields_bind h
  obtain ⟨c₃,hc₃,h⟩ := yields_bind h
  obtain ⟨array,cache,hfetched,hagrees,harray⟩ :=
    yields_getReqContainers (onDisk_size hstore.toPlaced) hcache hc₁
  subst hfetched
  obtain ⟨hcache₂,hhash₂,hfound⟩ := yields_recoverGroup hc₂
  obtain ⟨_,buf,hret,_⟩ := returns_sendLast index (onDisk files) fps.length i c₂
  have hc₃' := hc₃.eq hret
  subst hc₃'
  rw [yields_pure h]
  refine ⟨?_,?_,le_rfl,fun _ => rfl,?_⟩
  · simp only [hcache₂]
    exact hagrees
  · intro j fp hfp
    exact (hhash₂ j).trans (hhashes j fp hfp)
  · intro j fp hj hfp
    rcases Nat.lt_or_ge j p.startEntry with hold | hnew
    · exact hrestored j fp hold hfp
    · obtain ⟨r,hr⟩ := hfound (j-p.startEntry) (by simp only at hj; omega)
      rw [Nat.add_sub_cancel' hnew,hhashes j fp hfp] at hr
      exact indexed_of_lookup hstore harray hr

theorem passed_processEntry (hstore : Deduped index files) {i : ℕ} {p p' : Pass}
    (hp : Passed index files fps i p)
    (h : Yields (answer index (onDisk files)) (processEntry fps.length i p) p') :
    Passed index files fps (i+1) p' := by
  obtain ⟨p₁,hassign,h⟩ := yields_bind h
  obtain ⟨hcache,hstart,hhash⟩ := yields_assign hassign
  have hcache₁ : p₁.client.containerCache.Agrees (onDisk files) := by
    rw [hcache]
    exact hp.cache
  have hhashes₁ : ∀ (j : ℕ) (fp : Bytes), fps[j]? = some fp →
      (p₁.client.downloadChunkBase j).chunkHash = fp :=
    fun j fp hfp => (hhash j).trans (hp.hashes j fp hfp)
  have hrestored₁ : ∀ (j : ℕ) (fp : Bytes), j < p₁.startEntry → fps[j]? = some fp →
      ∃ id, index fp = some id := by
    rw [hstart]
    exact hp.restored
  split_ifs at h with hend
  · exact passed_processGroup hstore hcache₁ hhashes₁ hrestored₁ h
  · rw [yields_pure h]
    exact ⟨hcache₁,hhashes₁,by rw [hstart]; exact Nat.le_succ_of_le hp.start,
      fun hlast => absurd (Or.inr hlast) hend,hrestored₁⟩

theorem passed_rounds (hstore : Deduped index files) (hasked : Asked files fps c)
    {s : RecvDecoder.ClientVar × Bytes} {i : ℕ} {p : Pass}
    (hs : Yields (answer index (onDisk files))
      (forRange lookupEntry fps.length (c,List.replicate containerIdLength 0)) s)
    (hp : Yields (answer index (onDisk files)) (forRange (processEntry fps.length) i ⟨s.1,∅,0⟩) p) :
    Passed index files fps i p := by
  obtain ⟨_,s₀,hret,_,base,hbase,hrecorded⟩ := returns_recorded index (onDisk files) c
    (List.replicate containerIdLength 0) hasked.length hasked.size_lt hasked.request
  obtain rfl := hs.eq hret
  refine yields_forRange (I := Passed index files fps) ⟨?_,?_,le_rfl,fun _ => rfl,by simp⟩
    (fun _ _ _ _ => passed_processEntry hstore) hp
  · rw [hbase]
    exact hasked.cache
  · intro j fp hfp
    rw [hbase]
    exact (hrecorded j fp hfp (List.getElem?_eq_some_iff.mp hfp).1).1

theorem emitted_indexed (hstore : Deduped index files) (hasked : Asked files fps c) {k : ℕ}
    {table : RestoreIndex} {fp : Bytes} {r : RestoreIndexEntry}
    (h : AtEntry (answer index (onDisk files)) fps.length c table k c')
    (hr : table.lookup fp = some r) : ∃ id, index fp = some id := by
  obtain ⟨s,i,p,p',c₁,j,hs,_,hp,hp',_,hc₁,rfl,_⟩ := h
  have hcache := (passed_rounds hstore hasked hs hp).cache
  rw [← (yields_assign hp').1] at hcache
  obtain ⟨array,cache,rfl,_,harray⟩ :=
    yields_getReqContainers (onDisk_size hstore.toPlaced) hcache hc₁
  exact indexed_of_lookup hstore harray hr

theorem kept_any (index : Bytes → Option Bytes) (files : Bytes → Option (List Pair))
    (fps : List Bytes) : Kept index files fps (fun _ _ _ => True) fun _ _ => True where
  recover c k ms fp d table r _ _ hhash _ htable _ := by
    obtain ⟨qs,buf,hret,_⟩ := returns_recover index (onDisk files) (hhash ▸ htable)
    exact ⟨qs,buf,hret,trivial⟩
  last c i ms _ _ := by
    obtain ⟨qs,buf,hret,_⟩ := returns_sendLast index (onDisk files) fps.length i c
    exact ⟨qs,buf,hret,by simp⟩

/-- A batch is answered to its end exactly if all of its fingerprints are indexed: any
other one ends the process on its way. -/
theorem completes_iff (hstore : Deduped index files) (hasked : Asked files fps c) :
    (∃ c', Yields (answer index (onDisk files)) (processRecipeBatch fps.length c) c') ↔
      ∀ fp ∈ fps, ∃ id, index fp = some id := by
  constructor
  · rintro ⟨c',h⟩ fp hfp
    obtain ⟨s,hs,h⟩ := yields_bind h
    obtain ⟨p,hp,_⟩ := yields_bind h
    have hpassed := passed_rounds hstore hasked hs hp
    obtain ⟨j,hj,rfl⟩ := List.mem_iff_getElem.mp hfp
    refine hpassed.restored j _ ?_ (List.getElem?_eq_getElem hj)
    rw [hpassed.ended rfl]
    exact hj
  · intro hindexed
    have hstart : Advanced (fun _ _ _ => True) (fun _ _ => True) fps.length 0 [] ⟨c,∅,0⟩ := by
      unfold Advanced
      split_ifs
      · exact ⟨by simp [hasked.idNum,containerCappingValue],trivial⟩
      · exact ⟨hasked.idNum,trivial⟩
    obtain ⟨_,s,hs,hrounds⟩ := returns_rounds hstore.toPlaced (kept_any index files fps) hasked
      hindexed hstart
    obtain ⟨_,p,hp,_⟩ := hrounds fps.length le_rfl
    have htail : Returns (answer index (onDisk files)) (processRecipeTailBatch p.client) _ _ :=
      returns_bind (returns_request rfl) (returns_pure _)
    exact ⟨_,(returns_bind hs (returns_bind hp htail)).yields⟩

theorem indexed_of_recorded (hasked : Asked files fps c)
    (h : ∀ s, Yields (answer index (onDisk files))
        (forRange lookupEntry fps.length (c,List.replicate containerIdLength 0)) s →
      ∀ i < fps.length, index (s.1.downloadChunkBase i).chunkHash =
        some (s.1.downloadChunkBase i).containerName) :
    ∀ fp ∈ fps, ∃ id, index fp = some id := by
  obtain ⟨_,s,hret,_,base,hbase,hrecorded⟩ := returns_recorded index (onDisk files) c
    (List.replicate containerIdLength 0) hasked.length hasked.size_lt hasked.request
  intro fp hfp
  obtain ⟨i,hi,rfl⟩ := List.mem_iff_getElem.mp hfp
  have hname := h s hret.yields i hi
  rw [hbase,(hrecorded i _ (List.getElem?_eq_getElem hi) hi).1] at hname
  exact ⟨_,hname⟩

/-- A batch is answered as promised exactly if all of its fingerprints are indexed. -/
theorem answered_iff (index : Bytes → Option Bytes) (files : Bytes → Option (List Pair))
    (hstore : Deduped index files) (fps : List Bytes) (c : RecvDecoder.ClientVar)
    (hasked : Asked files fps c) :
    Answered index (onDisk files) fps.length c ↔ ∀ fp ∈ fps, ∃ id, index fp = some id := by
  constructor
  · intro h
    exact indexed_of_recorded hasked h.recorded
  · intro hindexed
    refine ⟨?_,?_,?_⟩
    · intro table k c' hat
      obtain ⟨⟨_,d,r,_,hr,_⟩,_⟩ :=
        found_atEntry hstore.toPlaced (kept_any index files fps) hasked hindexed trivial hat
      exact ⟨r,hr⟩
    · intro s hs i hi
      obtain ⟨_,s₀,hret,_,base,hbase,hlooked⟩ := returns_lookups (onDisk files) c
        (List.replicate containerIdLength 0) hasked.length hasked.size_lt hindexed hasked.request
      obtain ⟨hhash,hname⟩ := hlooked i _ (List.getElem?_eq_getElem hi) hi
      rw [hs.eq hret,hbase,hhash]
      exact hname
    · intro table k c' r hat hr
      exact emitted_indexed hstore hasked hat hr

theorem deduped_one : Deduped (entryIndex (List.replicate 32 1) (List.replicate 8 9))
    (entryFile (List.replicate 32 1) (List.replicate 8 9) [5,6]) :=
  deduped_entry _ rfl (by decide)

theorem answered_iff_twice :
    Answered (entryIndex (List.replicate 32 1) (List.replicate 8 9))
      (onDisk (entryFile (List.replicate 32 1) (List.replicate 8 9) [5,6])) 2
      (withRequest (requestOf 4 [List.replicate 32 1,List.replicate 32 1]) blank) :=
  (answered_iff _ _ deduped_one [List.replicate 32 1,List.replicate 32 1] _
    (asked_withRequest deduped_one.toPlaced (idle_blank _) 4 (by simp [entryIndex]) (by decide))).mpr
    (by simp [entryIndex])

/-- An unknown fingerprint behind a known one is noted with the container of the known
one, and the restore loop runs into the end of the table. -/
theorem unknown_behind_known :
    Deduped (entryIndex (List.replicate 32 1) (List.replicate 8 9))
        (entryFile (List.replicate 32 1) (List.replicate 8 9) [5,6]) ∧
      Asked (entryFile (List.replicate 32 1) (List.replicate 8 9) [5,6])
        [List.replicate 32 1,List.replicate 32 2]
        (withRequest (requestOf 4 [List.replicate 32 1,List.replicate 32 2]) blank) ∧
      ¬ Answered (entryIndex (List.replicate 32 1) (List.replicate 8 9))
        (onDisk (entryFile (List.replicate 32 1) (List.replicate 8 9) [5,6])) 2
        (withRequest (requestOf 4 [List.replicate 32 1,List.replicate 32 2]) blank) ∧
      (eval (answer (entryIndex (List.replicate 32 1) (List.replicate 8 9))
          (onDisk (entryFile (List.replicate 32 1) (List.replicate 8 9) [5,6])))
        (processRecipeBatch 2
          (withRequest (requestOf 4 [List.replicate 32 1,List.replicate 32 2]) blank))).2 =
        .error .endDereference := by
  have hasked : Asked (entryFile (List.replicate 32 1) (List.replicate 8 9) [5,6])
      [List.replicate 32 1,List.replicate 32 2]
      (withRequest (requestOf 4 [List.replicate 32 1,List.replicate 32 2]) blank) :=
    ⟨by decide,by decide,holds_write_self _ 0 _,rfl,rfl,rfl,(idle_blank _).cache⟩
  refine ⟨deduped_one,hasked,?_,rfl⟩
  intro h
  have hindexed := indexed_of_recorded hasked h.recorded (List.replicate 32 2) (by simp)
  simp [entryIndex] at hindexed

end UnknownFingerprints
end CloudServer
