import Mathlib.Tactic

/-! A bounded key-value cache with least-recently-used eviction (`lru11::Cache`).
The list of keys and the map into it are one list of pairs, the most recently used
one first. -/
namespace CloudServer
namespace LruCache

variable {κ ν : Type} [DecidableEq κ]

structure Cache (κ ν : Type) where
  keys : List (κ × ν)
  maxSize : ℕ
  elasticity : ℕ

def Cache.find (c : Cache κ ν) (k : κ) : Option ν := (c.keys.find? fun e => e.1 = k).map Prod.snd

def Cache.contains (c : Cache κ ν) (k : κ) : Bool := (c.find k).isSome

/-- `splice`: the entry of a key, with the given value, moves to the front. -/
def Cache.splice (c : Cache κ ν) (k : κ) (v : ν) : Cache κ ν :=
  { c with keys := (k,v)::c.keys.filter fun e => e.1 ≠ k }

/-- `get`: the value of a key, which becomes the most recently used. -/
def Cache.get (c : Cache κ ν) (k : κ) : Option (ν × Cache κ ν) :=
  (c.find k).map fun v => (v,c.splice k v)

/-- `prune`: at the hard limit, the oldest entries go until the soft limit holds. -/
def Cache.prune (c : Cache κ ν) : Cache κ ν :=
  if c.maxSize = 0 ∨ c.keys.length < c.maxSize+c.elasticity then c
  else { c with keys := c.keys.take c.maxSize }

def Cache.insert (c : Cache κ ν) (k : κ) (v : ν) : Cache κ ν :=
  if c.contains k then c.splice k v else Cache.prune { c with keys := (k,v)::c.keys }

/-- `pruneValue`: the value of the least recently used entry. -/
def Cache.pruneValue (c : Cache κ ν) : Option ν := c.keys.getLast?.map Prod.snd

theorem find_eq_some {c : Cache κ ν} {k : κ} {v : ν} (h : c.find k = some v) : (k,v) ∈ c.keys := by
  obtain ⟨e,he,rfl⟩ := Option.map_eq_some_iff.mp h
  have hk := List.find?_some he
  have hmem := List.mem_of_find?_eq_some he
  obtain rfl : e.1 = k := by simpa using hk
  exact hmem

theorem not_contains {c : Cache κ ν} {k : κ} (h : c.contains k = false) :
    k ∉ c.keys.map Prod.fst := by
  have hnone : c.keys.find? (fun e => decide (e.1 = k)) = none := by
    simpa [Cache.contains,Cache.find] using h
  intro hk
  obtain ⟨e,he,rfl⟩ := List.mem_map.mp hk
  have := List.find?_eq_none.mp hnone e he
  simp at this

theorem splice_perm {c : Cache κ ν} {k : κ} {v : ν} (hn : (c.keys.map Prod.fst).Nodup)
    (h : c.find k = some v) : (c.splice k v).keys.Perm c.keys := by
  have hmem := find_eq_some h
  have hnew : (c.splice k v).keys.Nodup :=
    List.nodup_cons.mpr ⟨by simp,hn.of_map.filter _⟩
  refine (List.perm_ext_iff_of_nodup hnew hn.of_map).mpr ?_
  intro e
  simp only [Cache.splice,List.mem_cons,List.mem_filter,decide_eq_true_eq]
  constructor
  · rintro (rfl | ⟨he,_⟩)
    · exact hmem
    · exact he
  · intro he
    by_cases hk : e.1 = k
    · exact Or.inl (List.inj_on_of_nodup_map hn he hmem hk)
    · exact Or.inr ⟨he,hk⟩

theorem insert_room {c : Cache κ ν} {k : κ} (v : ν) (hk : c.contains k = false)
    (hroom : c.keys.length < c.maxSize) :
    c.insert k v = { c with keys := (k,v)::c.keys } := by
  have htake : List.take c.maxSize ((k,v)::c.keys) = (k,v)::c.keys :=
    List.take_of_length_le hroom
  rw [Cache.insert,if_neg (by simp [hk]),Cache.prune]
  split_ifs
  · rfl
  · simp only [htake]

/-- A new key in a full cache without elasticity replaces the oldest one. -/
theorem insert_full {c : Cache κ ν} {k : κ} (v : ν) (hk : c.contains k = false)
    (he : c.elasticity = 0) (hpos : 0 < c.maxSize) (hfull : c.keys.length = c.maxSize) :
    c.insert k v = { c with keys := (k,v)::c.keys.dropLast } := by
  obtain ⟨n,hn⟩ : ∃ n, c.maxSize = n+1 := ⟨c.maxSize-1,by omega⟩
  have htake : List.take c.maxSize ((k,v)::c.keys) = (k,v)::c.keys.dropLast := by
    rw [hn,List.take_succ_cons,List.dropLast_eq_take,hfull,hn,Nat.add_sub_cancel]
  have hlimit : ¬ (c.maxSize = 0 ∨ ((k,v)::c.keys).length < c.maxSize+0) := by
    simp only [List.length_cons]
    omega
  simp only [Cache.insert,hk,Cache.prune,he]
  rw [if_neg (by simp),if_neg hlimit,htake]

end LruCache
end CloudServer
