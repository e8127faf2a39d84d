import CloudServer.Structures
import CloudServer.LruCache

/-! The container cache of a download session: an LRU map from container names to
slots of a pool (`ReadCache`). `Agrees` says that every cached name leads to a slot
that starts with the content of the file of that name. -/
namespace CloudServer

open ByteMemory LruCache

structure ReadCache where
  readCache : Cache Bytes ℕ
  containerPool : Mem (Mem UInt8)
  cacheSize : ℕ
  currentIndex : ℕ

namespace ReadCache

def new (readCacheSize : ℕ) (pool : Mem (Mem UInt8)) : ReadCache :=
  ⟨⟨[],readCacheSize,0⟩,pool,readCacheSize,0⟩

/-- A full cache reuses the slot of the entry that `insert` evicts. -/
def insertToCache (c : ReadCache) (name : Bytes) (data : Mem UInt8) (length : ℕ) : ReadCache :=
  if c.cacheSize < c.readCache.keys.length+1 then
    let replaceIndex := c.readCache.pruneValue.getD 0
    { c with
      containerPool := Function.update c.containerPool replaceIndex
        (copyPrefix (c.containerPool replaceIndex) data length)
      readCache := c.readCache.insert name replaceIndex }
  else
    { c with
      containerPool := Function.update c.containerPool c.currentIndex
        (copyPrefix (c.containerPool c.currentIndex) data length)
      readCache := c.readCache.insert name c.currentIndex
      currentIndex := c.currentIndex+1 }

def existsInCache (c : ReadCache) (name : Bytes) : Bool := c.readCache.contains name

/-- `get` throws for a name that is not cached. -/
def readFromCache (c : ReadCache) (name : Bytes) : Option (Mem UInt8 × ReadCache) :=
  (c.readCache.get name).map fun r => (c.containerPool r.1,{ c with readCache := r.2 })

theorem insertToCache_cacheSize (c : ReadCache) (name : Bytes) (data : Mem UInt8) (length : ℕ) :
    (c.insertToCache name data length).cacheSize = c.cacheSize := by
  unfold insertToCache
  split_ifs <;> rfl

theorem readFromCache_cacheSize {c c' : ReadCache} {name : Bytes} {m : Mem UInt8}
    (h : c.readFromCache name = some (m,c')) : c'.cacheSize = c.cacheSize := by
  obtain ⟨r,_,hr⟩ := Option.map_eq_some_iff.mp h
  rw [← (Prod.mk.inj hr).2]

structure Valid (c : ReadCache) : Prop where
  size : c.readCache.maxSize = c.cacheSize
  elasticity : c.readCache.elasticity = 0
  positive : 0 < c.cacheSize
  bound : c.readCache.keys.length ≤ c.cacheSize
  next : c.currentIndex = c.readCache.keys.length
  names : (c.readCache.keys.map Prod.fst).Nodup
  slots : (c.readCache.keys.map Prod.snd).Nodup
  used : ∀ e ∈ c.readCache.keys, e.2 < c.currentIndex

structure Agrees (files : Bytes → Option Bytes) (c : ReadCache) : Prop extends Valid c where
  cached : ∀ e ∈ c.readCache.keys, ∃ content, files e.1 = some content ∧
    Holds (c.containerPool e.2) 0 content

theorem agrees_new (files : Bytes → Option Bytes) {n : ℕ} (hn : 0 < n) (pool : Mem (Mem UInt8)) :
    Agrees files (new n pool) where
  size := rfl
  elasticity := rfl
  positive := hn
  bound := by simp [new]
  next := rfl
  names := by simp [new]
  slots := by simp [new]
  used := by simp [new]
  cached := by simp [new]

variable {files : Bytes → Option Bytes} {c : ReadCache} {name content : Bytes}

/-- A hit delivers a slot that starts with the content of the file. -/
theorem readFromCache_agrees (h : Agrees files c) (hit : existsInCache c name = true)
    (hfile : files name = some content) :
    ∃ m c', readFromCache c name = some (m,c') ∧ Holds m 0 content ∧ Agrees files c' := by
  obtain ⟨slot,hslot⟩ : ∃ slot, c.readCache.find name = some slot :=
    Option.isSome_iff_exists.mp hit
  have hmem := find_eq_some hslot
  have hperm := splice_perm h.names hslot
  obtain ⟨content',hc',hholds⟩ := h.cached _ hmem
  obtain rfl : content = content' := Option.some.inj (hfile.symm.trans hc')
  refine ⟨c.containerPool slot,{ c with readCache := c.readCache.splice name slot },?_,hholds,?_⟩
  · simp [readFromCache,Cache.get,hslot]
  · exact
      { size := h.size
        elasticity := h.elasticity
        positive := h.positive
        bound := hperm.length_eq ▸ h.bound
        next := h.next.trans hperm.length_eq.symm
        names := (hperm.map Prod.fst).nodup_iff.mpr h.names
        slots := (hperm.map Prod.snd).nodup_iff.mpr h.slots
        used := fun e he => h.used e (hperm.subset he)
        cached := fun e he => h.cached e (hperm.subset he) }

theorem cached_update (h : Agrees files c) {slot : ℕ} {m : Mem UInt8} {es : List (Bytes × ℕ)}
    (hfile : files name = some content) (hm : Holds m 0 content) (hes : es ⊆ c.readCache.keys)
    (hslot : slot ∉ es.map Prod.snd) :
    ∀ e ∈ (name,slot)::es, ∃ content, files e.1 = some content ∧
      Holds (Function.update c.containerPool slot m e.2) 0 content := by
  intro e he
  rcases List.mem_cons.mp he with rfl | hold
  · exact ⟨content,hfile,by simpa using hm⟩
  · have hne : e.2 ≠ slot := by
      rintro rfl
      exact hslot (List.mem_map_of_mem hold)
    rw [Function.update_of_ne hne]
    exact h.cached e (hes hold)

/-- In a full cache the last entry leaves, and its slot is taken over by the new name. -/
theorem agrees_replace (h : Agrees files c) (miss : existsInCache c name = false)
    (hfull : c.cacheSize < c.readCache.keys.length+1) (hfile : files name = some content)
    {data : Mem UInt8} {length : ℕ} (hlen : content.length ≤ length) (hdata : Holds data 0 content) :
    Agrees files { c with
      containerPool := Function.update c.containerPool (c.readCache.pruneValue.getD 0)
        (copyPrefix (c.containerPool (c.readCache.pruneValue.getD 0)) data length)
      readCache := c.readCache.insert name (c.readCache.pruneValue.getD 0) } := by
  have hnew := not_contains miss
  have hsize := h.size
  have hbound := h.bound
  have hpos := h.positive
  have hne : c.readCache.keys ≠ [] := by
    intro hnil
    simp [hnil] at hfull
    omega
  obtain ⟨es,last,hkeys⟩ : ∃ es last, c.readCache.keys = es ++ [last] :=
    ⟨_,_,(List.dropLast_append_getLast hne).symm⟩
  have hprune : c.readCache.pruneValue.getD 0 = last.2 := by simp [Cache.pruneValue,hkeys]
  have hinsert := insert_full (v := last.2) miss h.elasticity (by omega) (by omega)
  rw [hkeys,List.dropLast_concat] at hinsert
  have hslots := h.slots
  have hnames := h.names
  simp only [hkeys,List.map_append,List.map_cons,List.map_nil] at hslots hnames hnew
  have hlast : last.2 ∉ es.map Prod.snd := by
    intro hin
    exact (List.disjoint_of_nodup_append hslots) hin (by simp)
  simp only [hprune,hinsert]
  exact
    { size := h.size
      elasticity := h.elasticity
      positive := h.positive
      bound := by simpa [hkeys] using h.bound
      next := by simpa [hkeys] using h.next
      names := List.nodup_cons.mpr ⟨fun hin => hnew (by simp [hin]),hnames.of_append_left⟩
      slots := List.nodup_cons.mpr ⟨hlast,hslots.of_append_left⟩
      used := by
        intro e he
        rcases List.mem_cons.mp he with rfl | hold
        · exact h.used last (by simp [hkeys])
        · exact h.used e (by simp [hkeys,hold])
      cached := cached_update h hfile (holds_copyPrefix _ hlen hdata) (by simp [hkeys]) hlast }

theorem agrees_extend (h : Agrees files c) (miss : existsInCache c name = false)
    (hroom : ¬ c.cacheSize < c.readCache.keys.length+1) (hfile : files name = some content)
    {data : Mem UInt8} {length : ℕ} (hlen : content.length ≤ length) (hdata : Holds data 0 content) :
    Agrees files { c with
      containerPool := Function.update c.containerPool c.currentIndex
        (copyPrefix (c.containerPool c.currentIndex) data length)
      readCache := c.readCache.insert name c.currentIndex
      currentIndex := c.currentIndex+1 } := by
  have hsize := h.size
  have hinsert := insert_room (v := c.currentIndex) miss (by omega)
  have hcur : c.currentIndex ∉ c.readCache.keys.map Prod.snd := by
    intro hin
    obtain ⟨e,he,hslot⟩ := List.mem_map.mp hin
    have := h.used e he
    omega
  simp only [hinsert]
  exact
    { size := h.size
      elasticity := h.elasticity
      positive := h.positive
      bound := by simp only [List.length_cons]; omega
      next := by simp [h.next]
      names := List.nodup_cons.mpr ⟨not_contains miss,h.names⟩
      slots := List.nodup_cons.mpr ⟨hcur,h.slots⟩
      used := by
        intro e he
        rcases List.mem_cons.mp he with rfl | hold
        · exact Nat.lt_succ_self _
        · exact Nat.lt_succ_of_lt (h.used e hold)
      cached := cached_update h hfile (holds_copyPrefix _ hlen hdata) (fun _ he => he) hcur }

/-- Caching a file that was read from disk keeps the cache in agreement. -/
theorem insertToCache_agrees (h : Agrees files c) (miss : existsInCache c name = false)
    (hfile : files name = some content) {data : Mem UInt8} {length : ℕ}
    (hlen : content.length ≤ length) (hdata : Holds data 0 content) :
    Agrees files (insertToCache c name data length) := by
  unfold insertToCache
  split_ifs with hfull
  · exact agrees_replace h miss hfull hfile hlen hdata
  · exact agrees_extend h miss hfull hfile hlen hdata

end ReadCache
end CloudServer
