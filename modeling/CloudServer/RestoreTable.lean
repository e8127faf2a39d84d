import CloudServer.ContainerFormat
import CloudServer.RecvDecoder

/-! A store as the decoder sees it, and the table that it rebuilds from the
containers of a group. The table is keyed by hash alone: it leads to the right
bytes because a fingerprint lies in one container only. -/
namespace CloudServer
namespace RestoreTable

open ByteMemory StorageCore ContainerFormat RecvDecoder

/-- An index and container files, each the image of a list of pairs, such that
every indexed fingerprint lies in the container that the index names and in no other. -/
structure Store (index : Bytes → Option Bytes) (files : Bytes → Option (List Pair)) : Prop where
  hashed : ∀ id ps, files id = some ps → Hashed ps
  size : ∀ id ps, files id = some ps → (image ps).length < maxContainerSize
  nodup : ∀ id ps, files id = some ps → (ps.map Prod.fst).Nodup
  small : ∀ id ps p, files id = some ps → p ∈ ps → p.2.length ≤ maxChunkSize
  unique : ∀ id id' ps ps' k, files id = some ps → files id' = some ps' → k ∈ ps.map Prod.fst →
    k ∈ ps'.map Prod.fst → id = id'
  located : ∀ k id, index k = some id → ∃ ps, files id = some ps ∧ k ∈ ps.map Prod.fst

/-- The part of a store in which the sizes of the chunks do not matter. -/
structure Placed (index : Bytes → Option Bytes) (files : Bytes → Option (List Pair)) : Prop where
  hashed : ∀ id ps, files id = some ps → Hashed ps
  size : ∀ id ps, files id = some ps → (image ps).length < maxContainerSize
  nodup : ∀ id ps, files id = some ps → (ps.map Prod.fst).Nodup
  unique : ∀ id id' ps ps' k, files id = some ps → files id' = some ps' → k ∈ ps.map Prod.fst →
    k ∈ ps'.map Prod.fst → id = id'
  located : ∀ k id, index k = some id → ∃ ps, files id = some ps ∧ k ∈ ps.map Prod.fst

/-- The index invariant of a store at rest: the index names the container of every
fingerprint in a container, and no other. -/
structure Deduped (index : Bytes → Option Bytes) (files : Bytes → Option (List Pair)) : Prop
    extends Placed index files where
  indexed : ∀ id ps k, files id = some ps → k ∈ ps.map Prod.fst → index k = some id

def onDisk (files : Bytes → Option (List Pair)) (id : Bytes) : Option Bytes := (files id).map image

/-- The answers of a server whose index and files do not change. -/
def answer (index disk : Bytes → Option Bytes) : (q : Request) → Except Fault (Reply q)
  | .readIndexStore key => .ok (index key)
  | .openContainer name =>
    match disk name with
    | some content => .ok content
    | none => .error (.cannotOpen name)
  | .sendData _ => .ok ()

def chunkOf (index : Bytes → Option Bytes) (files : Bytes → Option (List Pair)) (fp : Bytes) :
    Option Bytes :=
  (index fp).bind fun id => (files id).bind fun ps => (ps.find? fun p => p.1 = fp).map Prod.snd

variable {index : Bytes → Option Bytes} {files : Bytes → Option (List Pair)}

theorem Store.placed (h : Store index files) : Placed index files :=
  ⟨h.hashed,h.size,h.nodup,h.unique,h.located⟩

def entryIndex (fp id k : Bytes) : Option Bytes := if k = fp then some id else none

def entryFile (fp id d name : Bytes) : Option (List Pair) := if name = id then some [(fp,d)] else none

theorem deduped_entry {fp d : Bytes} (id : Bytes) (hfp : fp.length = chunkHashSize)
    (hsize : (image [(fp,d)]).length < maxContainerSize) :
    Deduped (entryIndex fp id) (entryFile fp id d) := by
  have hone : ∀ name ps, entryFile fp id d name = some ps → name = id ∧ ps = [(fp,d)] := by
    intro name ps hps
    unfold entryFile at hps
    split_ifs at hps with hname
    exact ⟨hname,(Option.some.inj hps).symm⟩
  refine ⟨⟨?_,?_,?_,?_,?_⟩,?_⟩
  · intro name ps hps
    rw [(hone name ps hps).2]
    simp [Hashed,hfp]
  · intro name ps hps
    rw [(hone name ps hps).2]
    exact hsize
  · intro name ps hps
    rw [(hone name ps hps).2]
    simp
  · intro name name' ps ps' k hps hps' _ _
    rw [(hone name ps hps).1,(hone name' ps' hps').1]
  · intro k name hk
    unfold entryIndex at hk
    split_ifs at hk with hkey
    obtain rfl := Option.some.inj hk
    exact ⟨[(fp,d)],if_pos rfl,by simp [hkey]⟩
  · intro name ps k hps hk
    obtain ⟨rfl,rfl⟩ := hone name ps hps
    simpa [entryIndex] using hk

theorem Placed.chunk (h : Placed index files) {fp id : Bytes} (hi : index fp = some id) :
    ∃ ps d, files id = some ps ∧ (fp,d) ∈ ps ∧ chunkOf index files fp = some d := by
  obtain ⟨ps,hps,hk⟩ := h.located fp id hi
  obtain ⟨q,hq,hqk⟩ := List.mem_map.mp hk
  cases hf : ps.find? fun p => decide (p.1 = fp) with
  | none =>
    have := List.find?_eq_none.mp hf q hq
    simp [hqk] at this
  | some p =>
    have hpk : p.1 = fp := by simpa using List.find?_some hf
    refine ⟨ps,p.2,hps,?_,?_⟩
    · rw [← hpk]
      exact List.mem_of_find?_eq_some hf
    · simp [chunkOf,hi,hps,hf]

theorem Placed.fingerprint (h : Placed index files) {fp id : Bytes} (hi : index fp = some id) :
    fp.length = chunkHashSize := by
  obtain ⟨ps,hps,hk⟩ := h.located fp id hi
  obtain ⟨p,hp,rfl⟩ := List.mem_map.mp hk
  exact h.hashed id ps hps p hp

theorem mem_of_chunkOf {fp d : Bytes} (h : chunkOf index files fp = some d) :
    ∃ id ps p, files id = some ps ∧ p ∈ ps ∧ p.2 = d := by
  obtain ⟨id,_,h⟩ := Option.bind_eq_some_iff.mp h
  obtain ⟨ps,hps,h⟩ := Option.bind_eq_some_iff.mp h
  obtain ⟨p,hp,hd⟩ := Option.map_eq_some_iff.mp h
  exact ⟨id,ps,p,hps,List.mem_of_find?_eq_some hp,hd⟩

theorem Store.chunk_small (h : Store index files) {fp d : Bytes}
    (hd : chunkOf index files fp = some d) : d.length ≤ maxChunkSize := by
  obtain ⟨id,ps,p,hps,hp,rfl⟩ := mem_of_chunkOf hd
  exact h.small id ps p hps hp

theorem Placed.chunk_lt (h : Placed index files) {fp d : Bytes}
    (hd : chunkOf index files fp = some d) : d.length < maxContainerSize := by
  obtain ⟨id,ps,p,hps,hp,rfl⟩ := mem_of_chunkOf hd
  obtain ⟨pre,post,rfl⟩ := List.append_of_mem hp
  have hsize := h.size _ _ hps
  rw [image_length (h.hashed _ _ hps)] at hsize
  simp only [bodyOf_append,bodyOf_cons,List.length_append] at hsize
  omega

theorem lookup_insertions {k : Bytes} {P : RestoreIndexEntry → Prop} {t : RestoreIndex}
    (L : List (Bytes × RestoreIndexEntry)) (hex : ∃ e ∈ L, e.1 = k)
    (hall : ∀ e ∈ L, e.1 = k → P e.2) :
    ∃ r, (L.foldl (fun t e => Finmap.insert e.1 e.2 t) t).lookup k = some r ∧ P r := by
  induction L using List.reverseRecOn with
  | nil => simp at hex
  | append_singleton L e ih =>
    rw [List.foldl_append]
    simp only [List.foldl_cons,List.foldl_nil]
    by_cases hk : e.1 = k
    · subst hk
      exact ⟨e.2,Finmap.lookup_insert _,hall e (by simp) rfl⟩
    · rw [Finmap.lookup_insert_of_ne _ (Ne.symm hk)]
      refine ih ?_ fun f hf => hall f (by simp [hf])
      obtain ⟨f,hf,hfk⟩ := hex
      rcases List.mem_append.mp hf with hin | hin
      · exact ⟨f,hin,hfk⟩
      · obtain rfl := List.mem_singleton.mp hin
        exact absurd hfk hk

theorem pair_inj {ps : List Pair} (h : (ps.map Prod.fst).Nodup) {k d d' : Bytes} (hd : (k,d) ∈ ps)
    (hd' : (k,d') ∈ ps) : d = d' :=
  congrArg Prod.snd (List.inj_on_of_nodup_map h hd hd' rfl)

theorem mem_restoreEntries {m : Mem UInt8} {ps : List Pair} (h : Hashed ps)
    (hs : (image ps).length < maxContainerSize) (hm : Holds m 0 (image ps))
    {e : Bytes × RestoreIndexEntry} (he : e ∈ restoreEntries m) :
    (e.1,read m e.2.offset e.2.length) ∈ ps := by
  have hlist := listChunks_image h (hs.trans (by decide)) hm
  rw [← hlist]
  exact List.mem_map_of_mem he

/-- A fingerprint of container `s` is found in the table, with the place of its data
in that container. -/
theorem indexConstruct_lookup {containers : ℕ → Mem UInt8} {idNum s : ℕ} {G : ℕ → List Pair}
    {fp d : Bytes} (hh : ∀ k < idNum, Hashed (G k))
    (hs : ∀ k < idNum, (image (G k)).length < maxContainerSize)
    (hm : ∀ k < idNum, Holds (containers k) 0 (image (G k))) (hlt : s < idNum)
    (hone : ∀ k < idNum, fp ∈ (G k).map Prod.fst → k = s) (hnodup : ((G s).map Prod.fst).Nodup)
    (hd : (fp,d) ∈ G s) :
    ∃ r, (indexConstruct ∅ containers idNum).lookup fp = some r ∧
      read (containers s) r.offset r.length = d := by
  refine lookup_insertions _ ?_ ?_
  · have hlist := listChunks_image (hh s hlt) ((hs s hlt).trans (by decide)) (hm s hlt)
    rw [← hlist] at hd
    obtain ⟨e,he,heq⟩ := List.mem_map.mp hd
    exact ⟨e,List.mem_flatMap.mpr ⟨s,List.mem_range.mpr hlt,he⟩,congrArg Prod.fst heq⟩
  · intro e he hk
    obtain ⟨k,hkr,hek⟩ := List.mem_flatMap.mp he
    have hkn := List.mem_range.mp hkr
    have hpair := mem_restoreEntries (hh k hkn) (hs k hkn) (hm k hkn) hek
    rw [hk] at hpair
    obtain rfl := hone k hkn (List.mem_map_of_mem hpair)
    exact pair_inj hnodup hpair hd

end RestoreTable
end CloudServer
