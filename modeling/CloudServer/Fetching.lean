import CloudServer.Restore

/-! Calls of `GetReqContainers` one after the other on one read cache. Each call gets a
list of container names; which of them are served from the cache depends on all the
calls before, what arrives in the array does not. -/
namespace CloudServer
namespace Fetching

open ByteMemory RecvDecoder RestoreTable Restore
open Interaction Interaction.Prog

def fetch (names : List Bytes) (c : ClientVar) : Decoder ClientVar :=
  getReqContainers { c with idBuffer := write c.idBuffer 0 names, idNum := names.length }

def fetches : List (List Bytes) → ClientVar → Decoder (List ClientVar)
  | [], _ => pure []
  | names::calls, c => do
    let c ← fetch names c
    let cs ← fetches calls c
    pure (c::cs)

/-- What a call for `names` delivers, and how it leaves a cache of `cacheSize` slots. -/
structure Served (disk : Bytes → Option Bytes) (cacheSize : ℕ) (names : List Bytes)
    (c : ClientVar) : Prop where
  copied : ∀ i name, names[i]? = some name →
    ∃ content, disk name = some content ∧ read (c.containerArray i) 0 content.length = content
  bound : c.containerCache.readCache.keys.length ≤ cacheSize
  names : (c.containerCache.readCache.keys.map Prod.fst).Nodup
  slots : (c.containerCache.readCache.keys.map Prod.snd).Nodup
  below : ∀ e ∈ c.containerCache.readCache.keys, e.2 < cacheSize
  next : c.containerCache.currentIndex = c.containerCache.readCache.keys.length
  cached : ∀ e ∈ c.containerCache.readCache.keys, ∃ content, disk e.1 = some content ∧
    read (c.containerCache.containerPool e.2) 0 content.length = content

variable {disk : Bytes → Option Bytes}

theorem write_names (m : Mem Bytes) {names : List Bytes} {i : ℕ} {name : Bytes}
    (h : names[i]? = some name) : write m 0 names i = name := by
  simp [write,h]

theorem served_of_agrees {c : ClientVar} {names : List Bytes}
    (hcache : c.containerCache.Agrees disk)
    (hcopied : ∀ i name, names[i]? = some name →
      ∃ content, disk name = some content ∧ Holds (c.containerArray i) 0 content) :
    Served disk c.containerCache.cacheSize names c where
  copied := hcopied
  bound := hcache.bound
  names := hcache.names
  slots := hcache.slots
  below e he := (hcache.used e he).trans_le (hcache.next.le.trans hcache.bound)
  next := hcache.next
  cached := hcache.cached

theorem returns_fetch (index : Bytes → Option Bytes)
    (hsize : ∀ name content, disk name = some content → content.length ≤ maxContainerSize)
    {c : ClientVar} (hcache : c.containerCache.Agrees disk) {names : List Bytes}
    (hnames : ∀ name ∈ names, ∃ content, disk name = some content) :
    ∃ qs c', Returns (answer index disk) (fetch names c) qs c' ∧
      c'.containerCache.Agrees disk ∧
      c'.containerCache.cacheSize = c.containerCache.cacheSize ∧
      Served disk c.containerCache.cacheSize names c' := by
  have hbuffer : ∀ k < names.length, ∃ content, disk (write c.idBuffer 0 names k) = some content := by
    intro k hk
    rw [write_names _ (List.getElem?_eq_getElem hk)]
    exact hnames _ (List.getElem_mem hk)
  obtain ⟨qs,c',hret,_,array,cache,hc',hagrees,hslots,harray⟩ := returns_fetched index hsize
    { c with idBuffer := write c.idBuffer 0 names, idNum := names.length } hcache hbuffer
  have harray' : c'.containerArray = array := by rw [hc']
  have hcache' : c'.containerCache = cache := by rw [hc']
  rw [← hcache'] at hagrees hslots
  refine ⟨qs,c',hret,hagrees,hslots,?_⟩
  rw [← hslots]
  refine served_of_agrees hagrees ?_
  intro i name hname
  obtain ⟨hi,hmem⟩ := List.getElem?_eq_some_iff.mp hname
  obtain ⟨content,hcontent⟩ := hnames name (hmem ▸ List.getElem_mem hi)
  have hread : disk (write c.idBuffer 0 names i) = some content := by
    rw [write_names _ hname,hcontent]
  rw [harray']
  exact ⟨content,hcontent,harray i hi content hread⟩

theorem returns_fetches (index : Bytes → Option Bytes)
    (hsize : ∀ name content, disk name = some content → content.length ≤ maxContainerSize)
    {c : ClientVar} (hcache : c.containerCache.Agrees disk) {calls : List (List Bytes)}
    (hcalls : ∀ names ∈ calls, ∀ name ∈ names, ∃ content, disk name = some content) :
    ∃ qs cs, Returns (answer index disk) (fetches calls c) qs cs ∧
      List.Forall₂ (Served disk c.containerCache.cacheSize) calls cs := by
  induction calls generalizing c with
  | nil => exact ⟨[],[],returns_pure [],.nil⟩
  | cons names calls ih =>
    obtain ⟨qs,c',hret,hagrees,hslots,hserved⟩ := returns_fetch index hsize hcache
      (hcalls names (by simp))
    obtain ⟨qs',cs,hret',hall⟩ := ih hagrees fun ns hns => hcalls ns (by simp [hns])
    rw [hslots] at hall
    exact ⟨_,_,returns_bind hret (returns_bind hret' (returns_pure _)),.cons hserved hall⟩

/-- The read cache is transparent: through any sequence of calls, the array receives the
contents of the files, and every used slot keeps the content of the name that owns it. -/
theorem cache_transparent (index disk : Bytes → Option Bytes)
    (hsize : ∀ name content, disk name = some content → content.length ≤ maxContainerSize)
    (cacheSize : ℕ) (hpos : 1 ≤ cacheSize) (pool : Mem (Mem UInt8)) (c : ClientVar)
    (hc : c.containerCache = ReadCache.new cacheSize pool) (calls : List (List Bytes))
    (hcalls : ∀ names ∈ calls, ∀ name ∈ names, ∃ content, disk name = some content) :
    ∃ qs cs, eval (answer index disk) (fetches calls c) = (qs,.ok cs) ∧
      List.Forall₂ (Served disk cacheSize) calls cs := by
  have hagrees : c.containerCache.Agrees disk := by
    rw [hc]
    exact ReadCache.agrees_new disk hpos pool
  have hslots : c.containerCache.cacheSize = cacheSize := by
    rw [hc]
    rfl
  obtain ⟨qs,cs,hret,hall⟩ := returns_fetches index hsize hagrees hcalls
  rw [hslots] at hall
  exact ⟨qs,cs,hret,hall⟩

def twoFiles (name : Bytes) : Option Bytes :=
  if name = [1] then some [5,6,8] else if name = [2] then some [7] else none

/-- A cache of one slot, in which the second file replaces the longer first one and is
then read twice. -/
theorem cache_transparent_one_slot :
    ∃ qs cs, eval (answer (fun _ => none) twoFiles) (fetches [[[1],[2]],[[2],[2],[1]]]
        ⟨⟨⟨.edgeDownloadChunkReady,3,0,0⟩,fun _ => 1⟩,fun _ => [],fun _ _ => 0,0,
          ReadCache.new 1 fun _ _ => 0,fun _ => ⟨[],[],0,0,0⟩⟩) = (qs,.ok cs) ∧
      List.Forall₂ (Served twoFiles 1) [[[1],[2]],[[2],[2],[1]]] cs := by
  refine cache_transparent (fun _ => none) twoFiles ?_ 1 le_rfl (fun _ _ => 0) _ rfl _ ?_
  · intro name content hcontent
    unfold twoFiles at hcontent
    split_ifs at hcontent <;> obtain rfl := Option.some.inj hcontent <;> decide
  · simp [twoFiles]

end Fetching
end CloudServer
