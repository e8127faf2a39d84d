import CloudServer.InputStream
import Mathlib.Data.Finmap

/-! The fingerprint index of `InMemoryDatabase`: lookup, insertion, the file the
destructor writes and the loader `OpenDB`. An `unordered_map` is a `Finmap`, and
an iteration over it is any association list of that map. -/
namespace CloudServer
namespace Database

open ByteMemory InputStream

abbrev Index := Finmap fun _ : Bytes => Bytes

abbrev Order := AList fun _ : Bytes => Bytes

/-- `Query` assigns `value` only when the key is present. -/
def query (indexObj : Index) (key value : Bytes) : Bool × Bytes :=
  match indexObj.lookup key with
  | some found => (true,found)
  | none => (false,value)

def insert (indexObj : Index) (key value : Bytes) : Index := Finmap.insert key value indexObj

/-- A length converted to the `int itemSize` and the bytes written with it. A
negative count writes no byte. -/
def writeItem (s : Bytes) : Bytes :=
  leBytes s.length ++ if u32 s.length < 2^31 then s.take (u32 s.length) else []

def writeEntry (e : Sigma fun _ : Bytes => Bytes) : Bytes := writeItem e.1 ++ writeItem e.2

def saveDB (order : Order) : Bytes := order.entries.flatMap writeEntry

inductive LoadFault
  | lengthError
  | fuel
  deriving DecidableEq

structure Loader where
  dbFile : Stream UInt8
  itemSize : Bytes
  key : Bytes
  value : Bytes
  indexObj : Index

def readSize (l : Loader) : Loader :=
  let r := get l.dbFile 4
  { l with dbFile := r.2, itemSize := overwrite l.itemSize r.1 }

def readKey (l : Loader) : Loader :=
  let n := leWord l.itemSize
  let r := get l.dbFile n
  { l with dbFile := r.2, key := overwrite (resize l.key n 0) r.1 }

def readValue (l : Loader) : Loader :=
  let n := leWord l.itemSize
  let r := get l.dbFile n
  { l with dbFile := r.2, value := overwrite (resize l.value n 0) r.1 }

def addEntry (l : Loader) : Loader :=
  { l with
    indexObj := if l.key ∈ l.indexObj then l.indexObj else Finmap.insert l.key l.value l.indexObj
    itemSize := [0,0,0,0] }

/-- The loading loop. A negative length makes `resize` throw. -/
def loadLoop : ℕ → Loader → Except LoadFault Index
  | 0, _ => .error .fuel
  | fuel+1, l =>
    let l := readSize l
    if leWord l.itemSize = 0 then .ok l.indexObj
    else if 2^31 ≤ leWord l.itemSize then .error .lengthError
    else
      let l := readSize (readKey l)
      if 2^31 ≤ leWord l.itemSize then .error .lengthError
      else
        let l := addEntry (readValue l)
        if l.dbFile.eof then .ok l.indexObj else loadLoop fuel l

/-- `OpenDB` on an object whose map is empty; `none` is an absent file. Every
round that does not end the loop consumes a length field, so the fuel is enough. -/
def openDB : Option Bytes → Except LoadFault Index
  | none => .ok ∅
  | some file =>
    if file.length = 0 then .ok ∅
    else loadLoop (file.length+1) ⟨opened file,[0,0,0,0],[],[],∅⟩

def ShortString (s : Bytes) : Prop := s.length < 2^31

theorem writeItem_of_short {s : Bytes} (hs : ShortString s) :
    writeItem s = leBytes s.length ++ s := by
  unfold ShortString at hs
  rw [writeItem,u32_of_lt (by omega),if_pos hs,List.take_length]

theorem leWord_leBytes_length {s : Bytes} (hs : ShortString s) :
    leWord (leBytes s.length) = s.length := by
  rw [leWord_leBytes,u32_of_lt]
  unfold ShortString at hs
  omega

theorem readSize_item {l : Loader} {s rest : Bytes} (hl : l.itemSize.length = 4)
    (hd : l.dbFile = opened (leBytes s.length ++ rest)) :
    readSize l = { l with dbFile := opened rest, itemSize := leBytes s.length } := by
  have hget : get l.dbFile 4 = (leBytes s.length,opened rest) := by
    rw [hd]
    exact get_append_of_length (by simp)
  simp only [readSize,hget]
  rw [overwrite_of_length (by simpa using hl)]

theorem get_resized {s : Bytes} (rest old : Bytes) (hs : ShortString s) :
    get (opened (s++rest)) (leWord (leBytes s.length)) = (s,opened rest) ∧
      overwrite (resize old (leWord (leBytes s.length)) 0) s = s := by
  rw [leWord_leBytes_length hs]
  exact ⟨get_append s rest,overwrite_of_length (by simp)⟩

/-- One round of the loop on a complete record adds the record and leaves the
stream at the next one, whatever the variables held before. -/
theorem loadLoop_record {fuel : ℕ} {key value rest oldKey oldValue : Bytes} {m : Index}
    (hk : key ≠ []) (hks : ShortString key) (hvs : ShortString value) :
    loadLoop (fuel+1) ⟨opened (writeEntry ⟨key,value⟩ ++ rest),[0,0,0,0],oldKey,oldValue,m⟩ =
      loadLoop fuel ⟨opened rest,[0,0,0,0],key,value,
        if key ∈ m then m else Finmap.insert key value m⟩ := by
  have hfile : writeEntry ⟨key,value⟩ ++ rest =
      leBytes key.length ++ (key ++ (leBytes value.length ++ (value ++ rest))) := by
    simp [writeEntry,writeItem_of_short hks,writeItem_of_short hvs]
  have hkl : leWord (leBytes key.length) = key.length := leWord_leBytes_length hks
  have hvl : leWord (leBytes value.length) = value.length := leWord_leBytes_length hvs
  have hpos : ¬ key.length = 0 := by simpa using hk
  have hkn : ¬ 2^31 ≤ key.length := Nat.not_le.mpr hks
  have hvn : ¬ 2^31 ≤ value.length := Nat.not_le.mpr hvs
  have h1 := readSize_item (l := ⟨opened (writeEntry ⟨key,value⟩ ++ rest),[0,0,0,0],oldKey,oldValue,m⟩)
    (s := key) rfl (by rw [hfile])
  have h2 := get_resized (leBytes value.length ++ (value ++ rest)) oldKey hks
  have h3 := readSize_item (l := ⟨opened (leBytes value.length ++ (value ++ rest)),
    leBytes key.length,key,oldValue,m⟩) (s := value) (by simp) rfl
  have h4 := get_resized rest oldValue hvs
  have hkey : readKey ⟨opened (key ++ (leBytes value.length ++ (value ++ rest))),
      leBytes key.length,oldKey,oldValue,m⟩ =
      ⟨opened (leBytes value.length ++ (value ++ rest)),leBytes key.length,key,oldValue,m⟩ := by
    simp only [readKey,h2.1,h2.2]
  have hvalue : readValue ⟨opened (value ++ rest),leBytes value.length,key,oldValue,m⟩ =
      ⟨opened rest,leBytes value.length,key,value,m⟩ := by
    simp only [readValue,h4.1,h4.2]
  simp only [loadLoop,h1,hkl,hpos,hkn,hkey,h3,hvl,hvn,hvalue,addEntry,if_false]
  simp [opened]

/-- The round after the last record finds no length field, so the zero left in
`itemSize` ends the loop. -/
theorem loadLoop_end (fuel : ℕ) (key value : Bytes) (m : Index) :
    loadLoop (fuel+1) ⟨opened [],[0,0,0,0],key,value,m⟩ = .ok m := by
  have hget := get_end (α := UInt8) 4 (by decide)
  simp [loadLoop,readSize,hget,overwrite,leWord]

theorem loadLoop_records (es : List (Sigma fun _ : Bytes => Bytes)) (hnd : es.NodupKeys)
    (hes : ∀ e ∈ es, e.1 ≠ [] ∧ ShortString e.1 ∧ ShortString e.2)
    (m : Index) (hnew : ∀ e ∈ es, e.1 ∉ m) (rest : Bytes) (fuel : ℕ) (key value : Bytes) :
    ∃ m' value', loadLoop (fuel+es.length) ⟨opened (es.flatMap writeEntry ++ rest),[0,0,0,0],key,value,m⟩ =
        loadLoop fuel ⟨opened rest,[0,0,0,0],(es.getLast?.map Sigma.fst).getD key,value',m'⟩ ∧
      ∀ k, m'.lookup k = (es.dlookup k).or (m.lookup k) := by
  induction es generalizing m key value with
  | nil => exact ⟨m,value,rfl,by simp⟩
  | cons e es ih =>
    obtain ⟨newKey,newValue⟩ := e
    obtain ⟨hk,hks,hvs⟩ := hes ⟨newKey,newValue⟩ (by simp)
    have hne : newKey ∉ m := hnew ⟨newKey,newValue⟩ (by simp)
    have hnd' := List.nodupKeys_cons.mp hnd
    have hlater : ∀ e' ∈ es, e'.1 ∉ Finmap.insert newKey newValue m := by
      intro e' he' hmem
      rcases Finmap.mem_insert.mp hmem with h | h
      · have hin : e'.1 ∈ es.keys := List.mem_keys_of_mem he'
        exact hnd'.1 (h ▸ hin)
      · exact hnew e' (by simp [he']) h
    obtain ⟨m',value',hload,hlook⟩ := ih hnd'.2 (fun e' he' => hes e' (by simp [he']))
      (Finmap.insert newKey newValue m) hlater newKey newValue
    refine ⟨m',value',?_,?_⟩
    · have hlast : ((⟨newKey,newValue⟩::es).getLast?.map Sigma.fst).getD key =
          (es.getLast?.map Sigma.fst).getD newKey := by
        cases es using List.reverseRecOn <;> simp [List.getLast?_cons]
      rw [hlast,List.flatMap_cons,List.append_assoc,List.length_cons,← Nat.add_assoc,
        loadLoop_record hk hks hvs,if_neg hne,hload]
    · intro k
      rw [hlook k]
      by_cases hke : k = newKey
      · subst hke
        have hnot : es.dlookup k = none := List.dlookup_eq_none.mpr hnd'.1
        rw [hnot,Finmap.lookup_insert,List.dlookup_cons_eq]
        rfl
      · rw [Finmap.lookup_insert_of_ne m hke,List.dlookup_cons_ne es ⟨newKey,newValue⟩ hke]

theorem loadLoop_entries (es : List (Sigma fun _ : Bytes => Bytes)) (hnd : es.NodupKeys)
    (hes : ∀ e ∈ es, e.1 ≠ [] ∧ ShortString e.1 ∧ ShortString e.2) (fuel : ℕ)
    (hfuel : es.length < fuel) :
    ∃ m', loadLoop fuel ⟨opened (es.flatMap writeEntry),[0,0,0,0],[],[],∅⟩ = .ok m' ∧
      ∀ k, m'.lookup k = es.dlookup k := by
  obtain ⟨f,rfl⟩ := Nat.exists_eq_add_of_lt hfuel
  obtain ⟨m',value',hload,hlook⟩ := loadLoop_records es hnd hes ∅
    (fun _ _ => Finmap.notMem_empty) [] (f+1) [] []
  refine ⟨m',?_,by simpa using hlook⟩
  rw [List.append_nil,loadLoop_end] at hload
  rw [← hload]
  congr 1
  omega

def Storable (m : Index) : Prop :=
  ∀ k v, m.lookup k = some v → k ≠ [] ∧ ShortString k ∧ ShortString v

theorem writeEntry_ne_nil (e : Sigma fun _ : Bytes => Bytes) : writeEntry e ≠ [] := by
  simp [writeEntry,writeItem,leBytes]

theorem openDB_saveDB (order : Order) (hm : Storable order.toFinmap) :
    openDB (some (saveDB order)) = .ok order.toFinmap := by
  have hes : ∀ e ∈ order.entries, e.1 ≠ [] ∧ ShortString e.1 ∧ ShortString e.2 := by
    intro e he
    exact hm e.1 e.2 ((List.mem_dlookup_iff order.nodupKeys).mpr he)
  by_cases hnil : order.entries = []
  · have hmap : order.toFinmap = ∅ := by
      apply Finmap.ext_lookup
      intro k
      simp [AList.lookup,hnil]
    simp [openDB,saveDB,hnil,hmap]
  · have hlen : order.entries.length ≤ (saveDB order).length := by
      have hone : ∀ n ∈ order.entries.map fun e => (writeEntry e).length, 1 ≤ n := by
        intro n hn
        obtain ⟨e,_,rfl⟩ := List.mem_map.mp hn
        exact List.length_pos_of_ne_nil (writeEntry_ne_nil e)
      simpa [saveDB,List.length_flatMap] using List.length_le_sum_of_one_le _ hone
    have hpos : 0 < order.entries.length := List.length_pos_of_ne_nil hnil
    obtain ⟨m',hload,hlook⟩ := loadLoop_entries order.entries order.nodupKeys hes
      ((saveDB order).length+1) (by omega)
    have heq : m' = order.toFinmap := by
      apply Finmap.ext_lookup
      intro k
      rw [hlook k]
      simp [AList.lookup]
    rw [openDB,if_neg (by omega),← heq]
    exact hload

/-- A clean shutdown followed by a start on the file it left. -/
def Restart (m m' : Index) : Prop :=
  ∃ order : Order, order.toFinmap = m ∧ openDB (some (saveDB order)) = .ok m'

theorem restart_eq {m m' : Index} (hm : Storable m) (h : Restart m m') : m' = m := by
  obtain ⟨order,rfl,hload⟩ := h
  rw [openDB_saveDB order hm] at hload
  exact (Except.ok.inj hload).symm

theorem restarts_eq {m m' : Index} (hm : Storable m) (h : Relation.ReflTransGen Restart m m') :
    m' = m := by
  induction h with
  | refl => rfl
  | tail _ hr ih => exact (restart_eq (ih ▸ hm) hr).trans ih

/-- The db file is a faithful image of the index: whatever order the destructor
iterates in, the loader rebuilds the same map, an empty or absent file is the
empty map, and restarts never change the answer to a query. -/
theorem index_file_round_trip (m : Index) (hm : Storable m) :
    (∀ order : Order, order.toFinmap = m → openDB (some (saveDB order)) = .ok m) ∧
    saveDB ∅ = [] ∧ openDB (some []) = .ok ∅ ∧ openDB none = .ok ∅ ∧
    ∀ m', Relation.ReflTransGen Restart m m' →
      ∀ key value, query m' key value = query m key value := by
  refine ⟨?_,rfl,rfl,rfl,?_⟩
  · rintro order rfl
    exact openDB_saveDB order hm
  · intro m' h key value
    rw [restarts_eq hm h]

/-- Zero bytes in a key and an empty value survive the file. -/
theorem index_file_round_trip_zero_bytes :
    openDB (some (saveDB ⟨[⟨[1,0],[]⟩,⟨[2],[0,7]⟩],by simp⟩)) =
      .ok (AList.toFinmap ⟨[⟨[1,0],[]⟩,⟨[2],[0,7]⟩],by simp⟩) := by
  refine (index_file_round_trip _ ?_).1 _ rfl
  intro k v h
  have hmem : (⟨k,v⟩ : Sigma fun _ : Bytes => Bytes) ∈
      [(⟨[1,0],[]⟩ : Sigma fun _ : Bytes => Bytes),⟨[2],[0,7]⟩] := List.of_mem_dlookup h
  simp only [List.mem_cons,List.not_mem_nil,or_false,Sigma.mk.injEq,heq_eq_eq] at hmem
  rcases hmem with ⟨rfl,rfl⟩ | ⟨rfl,rfl⟩ <;> simp [ShortString]

end Database
end CloudServer
