import CloudServer.Database

/-! Loading a db file that was cut off. `OpenDB` looks at the end-of-file flag only after
it has inserted, and a read that fails leaves what its variable held before, so a record
that is not complete is inserted under a key of which the missing bytes are those of the
key before. -/
namespace CloudServer
namespace TruncatedIndex

open ByteMemory InputStream Database

abbrev Entry := Sigma fun _ : Bytes => Bytes

def Sized (e : Entry) : Prop := e.1.length = 32 ∧ e.2.length = 8

def recordSize : ℕ := 4+32+(4+8)

theorem Sized.storable {e : Entry} (he : Sized e) :
    e.1 ≠ [] ∧ ShortString e.1 ∧ ShortString e.2 := by
  obtain ⟨hk,hv⟩ := he
  refine ⟨List.ne_nil_of_length_pos (by omega),?_,?_⟩
  · rw [ShortString,hk]
    decide
  · rw [ShortString,hv]
    decide

theorem writeEntry_sized {key value : Bytes} (hk : key.length = 32) (hv : value.length = 8) :
    writeEntry ⟨key,value⟩ = leBytes 32 ++ (key ++ (leBytes 8 ++ value)) := by
  obtain ⟨_,hks,hvs⟩ := Sized.storable (e := ⟨key,value⟩) ⟨hk,hv⟩
  simp [writeEntry,writeItem_of_short hks,writeItem_of_short hvs,hk,hv]

theorem flatMap_writeEntry_length {es : List Entry} (hes : ∀ e ∈ es, Sized e) :
    (es.flatMap writeEntry).length = recordSize*es.length := by
  induction es with
  | nil => rfl
  | cons e es ih =>
    obtain ⟨key,value⟩ := e
    obtain ⟨hk,hv⟩ := hes ⟨key,value⟩ (by simp)
    rw [List.flatMap_cons,List.length_append,ih fun e' he' => hes e' (by simp [he']),
      writeEntry_sized hk hv]
    simp only [List.length_append,leBytes_length,hk,hv,List.length_cons,recordSize]
    omega

@[simp] theorem overwrite_nil {α : Type} (old : List α) : overwrite old [] = old := rfl

theorem get_eof {α : Type} {s : Stream α} (h : s.eof = true) (n : ℕ) :
    get s n = ([],{ s with fail := true }) := by
  simp [InputStream.get,h]

theorem readSize_eof {l : Loader} (h : l.dbFile.eof = true) :
    readSize l = { l with dbFile := { l.dbFile with fail := true } } := by
  simp [readSize,get_eof h]

theorem readKey_eof {l : Loader} (h : l.dbFile.eof = true) :
    readKey l = { l with
      dbFile := { l.dbFile with fail := true }, key := resize l.key (leWord l.itemSize) 0 } := by
  simp [readKey,get_eof h]

theorem readValue_eof {l : Loader} (h : l.dbFile.eof = true) :
    readValue l = { l with
      dbFile := { l.dbFile with fail := true }, value := resize l.value (leWord l.itemSize) 0 } := by
  simp [readValue,get_eof h]

/-- The loop ends in this round, with one more record under `key` unless there is one. -/
def EndsWith (fuel : ℕ) (l : Loader) (key : Bytes) : Prop :=
  ∃ value, loadLoop (fuel+1) l =
    .ok (if key ∈ l.indexObj then l.indexObj else Finmap.insert key value l.indexObj)

theorem loadLoop_last (fuel : ℕ) {l : Loader} {key : Bytes}
    (hsize : leWord (readSize l).itemSize ≠ 0 ∧ leWord (readSize l).itemSize < 2^31)
    (hvsize : leWord (readSize (readKey (readSize l))).itemSize < 2^31)
    (hkey : (readKey (readSize l)).key = key)
    (heof : (readValue (readSize (readKey (readSize l)))).dbFile.eof = true) : EndsWith fuel l key := by
  refine ⟨(readValue (readSize (readKey (readSize l)))).value,?_⟩
  have hend : (addEntry (readValue (readSize (readKey (readSize l))))).dbFile.eof = true := heof
  simp only [loadLoop,hsize.1,if_false,Nat.not_le.mpr hsize.2,Nat.not_le.mpr hvsize,hend,if_true]
  rw [← hkey]
  rfl

/-- The key under which a record is inserted of which only `r` bytes are there. -/
def splicedKey (oldKey newKey : Bytes) (r : ℕ) : Bytes :=
  overwrite (resize oldKey 32 0) (newKey.take (r-4))

theorem splicedKey_whole (oldKey : Bytes) {newKey : Bytes} (hk : newKey.length = 32) {r : ℕ}
    (hr : 36 ≤ r) : splicedKey oldKey newKey r = newKey := by
  rw [splicedKey,List.take_of_length_le (by omega)]
  exact overwrite_of_length (by simp [hk])

section Cut

variable {newKey newValue : Bytes} (hk : newKey.length = 32) (hv : newValue.length = 8)
  (oldKey oldValue : Bytes) (m : Index) (fuel : ℕ)

include hk hv

theorem loadLoop_cut_size {r : ℕ} (hr : 0 < r) (hr' : r < 4) :
    EndsWith fuel ⟨opened ((writeEntry ⟨newKey,newValue⟩).take r),[0,0,0,0],oldKey,oldValue,m⟩
      (splicedKey oldKey newKey r) := by
  have hfile : (writeEntry ⟨newKey,newValue⟩).take r = (leBytes 32).take r := by
    rw [writeEntry_sized hk hv,List.take_append_of_le_length (by simp; omega)]
  have hread : readSize ⟨opened ((leBytes 32).take r),[0,0,0,0],oldKey,oldValue,m⟩ =
      ⟨⟨[],true,true⟩,leBytes 32,oldKey,oldValue,m⟩ := by
    have hget := get_short (l := (leBytes 32).take r) (n := 4) (by simp; omega)
    have hover : overwrite [0,0,0,0] ((leBytes 32).take r) = leBytes 32 := by
      interval_cases r <;> rfl
    simp only [readSize,hget,hover]
  have hnone : newKey.take (r-4) = [] := by
    rw [show r-4 = 0 by omega,List.take_zero]
  have h32 : leWord (leBytes 32) = 32 := rfl
  rw [hfile]
  apply loadLoop_last
  · rw [hread,h32]
    decide
  · rw [hread,readKey_eof rfl,readSize_eof rfl,h32]
    decide
  · rw [hread,readKey_eof rfl,splicedKey,hnone,overwrite_nil,h32]
  · rw [hread,readKey_eof rfl,readSize_eof rfl,readValue_eof rfl]

theorem loadLoop_cut_key {r : ℕ} (hr : 4 ≤ r) (hr' : r < 36) :
    EndsWith fuel ⟨opened ((writeEntry ⟨newKey,newValue⟩).take r),[0,0,0,0],oldKey,oldValue,m⟩
      (splicedKey oldKey newKey r) := by
  have hfile : (writeEntry ⟨newKey,newValue⟩).take r =
      leBytes newKey.length ++ newKey.take (r-4) := by
    rw [writeEntry_sized hk hv,List.take_append,leBytes_length,List.take_of_length_le (by simpa),
      List.take_append_of_le_length (by omega),hk]
  have hread := readSize_item (l := ⟨opened (leBytes newKey.length ++ newKey.take (r-4)),[0,0,0,0],
    oldKey,oldValue,m⟩) (s := newKey) rfl rfl
  have h32 : leWord (leBytes newKey.length) = 32 := by
    rw [hk]
    rfl
  have hkey : readKey ⟨opened (newKey.take (r-4)),leBytes newKey.length,oldKey,oldValue,m⟩ =
      ⟨⟨[],true,true⟩,leBytes newKey.length,splicedKey oldKey newKey r,oldValue,m⟩ := by
    have hget := get_short (l := newKey.take (r-4)) (n := 32) (by simp; omega)
    simp only [readKey,h32,hget,splicedKey]
  rw [hfile]
  apply loadLoop_last
  · rw [hread,h32]
    decide
  · rw [hread,hkey,readSize_eof rfl,h32]
    decide
  · rw [hread,hkey]
  · rw [hread,hkey,readSize_eof rfl,readValue_eof rfl]

/-- Where the value is cut, its length is 8, or, with no byte of the length, still 32. -/
theorem readValue_cut {r : ℕ} (hr : 36 ≤ r) (hr' : r < 48) :
    leWord (readSize ⟨opened ((leBytes 8 ++ newValue).take (r-36)),leBytes newKey.length,
      oldKey,oldValue,m⟩).itemSize < 2^31 ∧
    (readValue (readSize ⟨opened ((leBytes 8 ++ newValue).take (r-36)),leBytes newKey.length,
      oldKey,oldValue,m⟩)).dbFile.eof = true := by
  by_cases hlt : r < 40
  · have htake : (leBytes 8 ++ newValue).take (r-36) = (leBytes 8).take (r-36) :=
      List.take_append_of_le_length (by simp; omega)
    have hsize : readSize ⟨opened ((leBytes 8).take (r-36)),leBytes newKey.length,oldKey,
        oldValue,m⟩ = ⟨⟨[],true,true⟩,overwrite (leBytes 32) ((leBytes 8).take (r-36)),oldKey,
          oldValue,m⟩ := by
      simp only [readSize,get_short (l := (leBytes 8).take (r-36)) (n := 4) (by simp; omega),hk]
    rw [htake,hsize]
    refine ⟨?_,by rw [readValue_eof rfl]⟩
    obtain ⟨d,rfl⟩ := Nat.exists_eq_add_of_le hr
    have hbound : ∀ d < 4, leWord (overwrite (leBytes 32) ((leBytes 8).take d)) < 2^31 := by decide
    rw [Nat.add_sub_cancel_left]
    exact hbound d (by omega)
  · have htake : (leBytes 8 ++ newValue).take (r-36) =
        leBytes newValue.length ++ newValue.take (r-40) := by
      rw [List.take_append,leBytes_length,List.take_of_length_le (by simp; omega),hv,
        show r-36-4 = r-40 by omega]
    have hsize := readSize_item (l := ⟨opened (leBytes newValue.length ++ newValue.take (r-40)),
      leBytes newKey.length,oldKey,oldValue,m⟩) (s := newValue) rfl rfl
    have h8 : leWord (leBytes newValue.length) = 8 := by
      rw [hv]
      rfl
    rw [htake,hsize]
    refine ⟨by rw [h8]; decide,?_⟩
    have hget := get_short (l := newValue.take (r-40)) (n := 8) (by simp; omega)
    simp only [readValue,h8,hget]

theorem loadLoop_cut_value {r : ℕ} (hr : 36 ≤ r) (hr' : r < 48) :
    EndsWith fuel ⟨opened ((writeEntry ⟨newKey,newValue⟩).take r),[0,0,0,0],oldKey,oldValue,m⟩
      (splicedKey oldKey newKey r) := by
  have hfile : (writeEntry ⟨newKey,newValue⟩).take r =
      leBytes newKey.length ++ (newKey ++ (leBytes 8 ++ newValue).take (r-36)) := by
    rw [writeEntry_sized hk hv,List.take_append,leBytes_length,List.take_of_length_le (by simp; omega),
      List.take_append,List.take_of_length_le (by omega),hk,show r-4-32 = r-36 by omega]
  have hread := readSize_item (l := ⟨opened (leBytes newKey.length ++
    (newKey ++ (leBytes 8 ++ newValue).take (r-36))),[0,0,0,0],oldKey,oldValue,m⟩) (s := newKey) rfl rfl
  have hshort : ShortString newKey := (Sized.storable (e := ⟨newKey,newValue⟩) ⟨hk,hv⟩).2.1
  obtain ⟨hget,hover⟩ := get_resized ((leBytes 8 ++ newValue).take (r-36)) oldKey hshort
  have hkey : readKey ⟨opened (newKey ++ (leBytes 8 ++ newValue).take (r-36)),leBytes newKey.length,
      oldKey,oldValue,m⟩ =
      ⟨opened ((leBytes 8 ++ newValue).take (r-36)),leBytes newKey.length,newKey,oldValue,m⟩ := by
    simp only [readKey,hget,hover]
  have h32 : leWord (leBytes newKey.length) = 32 := by
    rw [hk]
    rfl
  have hvalue := readValue_cut hk hv newKey oldValue m hr hr'
  rw [hfile,splicedKey_whole oldKey hk hr]
  apply loadLoop_last
  · rw [hread,h32]
    decide
  · rw [hread,hkey]
    exact hvalue.1
  · rw [hread,hkey]
  · rw [hread,hkey]
    exact hvalue.2

theorem loadLoop_cut {r : ℕ} (hr : 0 < r) (hr' : r < recordSize) :
    EndsWith fuel ⟨opened ((writeEntry ⟨newKey,newValue⟩).take r),[0,0,0,0],oldKey,oldValue,m⟩
      (splicedKey oldKey newKey r) := by
  by_cases hsize : r < 4
  · exact loadLoop_cut_size hk hv oldKey oldValue m fuel hr hsize
  · by_cases hkey : r < 36
    · exact loadLoop_cut_key hk hv oldKey oldValue m fuel (by omega) hkey
    · exact loadLoop_cut_value hk hv oldKey oldValue m fuel (by omega) hr'

end Cut

/-- The record of `e` lies within the first `k` bytes of the file. -/
def CompleteIn (order : Order) (k : ℕ) (e : Entry) : Prop :=
  ∃ j, order.entries[j]? = some e ∧ ((order.entries.take (j+1)).flatMap writeEntry).length ≤ k

/-- `OpenDB` on the first `k` bytes returns, with exactly the pairs whose records are
complete. -/
def LoadsPart (order : Order) (k : ℕ) : Prop :=
  ∃ m, openDB (some ((saveDB order).take k)) = .ok m ∧
    ∀ key value, m.lookup key = some value ↔ CompleteIn order k ⟨key,value⟩

def before (order : Order) (k : ℕ) : List Entry := order.entries.take (k/recordSize)

/-- The cut is between two records, or the bytes of the next key that are left, laid over
the key before, give a key that has been loaded. -/
def Harmless (order : Order) (k : ℕ) : Prop :=
  k % recordSize = 0 ∨
    ∃ e, order.entries[k/recordSize]? = some e ∧
      splicedKey (((before order k).getLast?.map Sigma.fst).getD []) e.1 (k % recordSize) ∈
        (before order k).keys

section File

variable {order : Order} (hsized : ∀ e ∈ order.entries, Sized e) {k : ℕ}

include hsized

theorem completeIn_iff (e : Entry) : CompleteIn order k e ↔ e ∈ before order k := by
  have hlen : ∀ j < order.entries.length,
      ((order.entries.take (j+1)).flatMap writeEntry).length = recordSize*(j+1) := by
    intro j hj
    rw [flatMap_writeEntry_length fun e he => hsized e (List.mem_of_mem_take he),List.length_take,
      Nat.min_eq_left hj]
  rw [before,List.mem_take_iff_getElem]
  constructor
  · rintro ⟨j,hj,hin⟩
    obtain ⟨hlt,he⟩ := List.getElem?_eq_some_iff.mp hj
    rw [hlen j hlt,Nat.mul_comm] at hin
    have hq : j+1 ≤ k/recordSize := (Nat.le_div_iff_mul_le (by decide)).mpr hin
    exact ⟨j,by omega,he⟩
  · rintro ⟨j,hj,he⟩
    have hlt : j < order.entries.length := by omega
    refine ⟨j,List.getElem?_eq_some_iff.mpr ⟨hlt,he⟩,?_⟩
    rw [hlen j hlt,Nat.mul_comm]
    exact (Nat.le_div_iff_mul_le (by decide)).mp (by omega)

theorem saveDB_take {e : Entry} (he : order.entries[k/recordSize]? = some e) :
    (saveDB order).take k =
      (before order k).flatMap writeEntry ++ (writeEntry e).take (k % recordSize) := by
  obtain ⟨hlt,hget⟩ := List.getElem?_eq_some_iff.mp he
  have hsplit : order.entries =
      before order k ++ (e::order.entries.drop (k/recordSize+1)) := by
    rw [before,← hget,← List.drop_eq_getElem_cons hlt,List.take_append_drop]
  have hlen : ((before order k).flatMap writeEntry).length = recordSize*(k/recordSize) := by
    rw [before,flatMap_writeEntry_length fun e he => hsized e (List.mem_of_mem_take he),
      List.length_take,Nat.min_eq_left (Nat.le_of_lt hlt)]
  have hone : (writeEntry e).length = recordSize := by
    have hsize : ∀ e' ∈ [e], Sized e' := by simpa using hsized e (List.mem_of_getElem? he)
    simpa using flatMap_writeEntry_length hsize
  have hk := Nat.div_add_mod k recordSize
  have hr : k % recordSize < recordSize := Nat.mod_lt _ (by decide)
  rw [saveDB,hsplit,List.flatMap_append,List.flatMap_cons,List.take_append,hlen,
    List.take_of_length_le (by omega),show k-recordSize*(k/recordSize) = k % recordSize by omega,
    List.take_append_of_le_length (by omega)]

/-- What `OpenDB` makes of a cut file: the complete records, and the spliced record
unless its key is one of theirs. -/
theorem openDB_take (hk : k < (saveDB order).length) :
    ∃ e m value, order.entries[k/recordSize]? = some e ∧
      (∀ key, m.lookup key = (before order k).dlookup key) ∧
      openDB (some ((saveDB order).take k)) = .ok (
        let key := splicedKey (((before order k).getLast?.map Sigma.fst).getD []) e.1 (k % recordSize)
        if k % recordSize = 0 ∨ key ∈ m then m else Finmap.insert key value m) := by
  have hsave : (saveDB order).length = recordSize*order.entries.length :=
    flatMap_writeEntry_length hsized
  have hlt : k/recordSize < order.entries.length :=
    Nat.div_lt_of_lt_mul (hsave ▸ hk)
  have he := List.getElem?_eq_getElem hlt
  have hmem := List.mem_of_getElem? he
  generalize order.entries[k/recordSize] = e at he hmem
  obtain ⟨newKey,newValue⟩ := e
  obtain ⟨hkey,hvalue⟩ := hsized _ hmem
  have hlen : (before order k).length = k/recordSize := by
    rw [before,List.length_take,Nat.min_eq_left (Nat.le_of_lt hlt)]
  have hstorable : ∀ e ∈ before order k, e.1 ≠ [] ∧ ShortString e.1 ∧ ShortString e.2 :=
    fun e he => (hsized e (List.mem_of_mem_take he)).storable
  have hnodup : (before order k).NodupKeys := order.nodupKeys.sublist (List.take_sublist _ _)
  have hdiv : k/recordSize ≤ k := Nat.div_le_self _ _
  obtain ⟨m,value,hload,hlook⟩ := loadLoop_records (before order k) hnodup hstorable ∅
    (fun _ _ => Finmap.notMem_empty) ((writeEntry ⟨newKey,newValue⟩).take (k % recordSize))
    (k-k/recordSize+1) [] []
  have hlook' : ∀ key, m.lookup key = (before order k).dlookup key := by simpa using hlook
  have hfuel : k-k/recordSize+1+(before order k).length = k+1 := by omega
  rw [← saveDB_take hsized he,hfuel] at hload
  have htake : ((saveDB order).take k).length = k := by
    rw [List.length_take,Nat.min_eq_left (Nat.le_of_lt hk)]
  have hopen : openDB (some ((saveDB order).take k)) =
      loadLoop (k+1) ⟨opened ((saveDB order).take k),[0,0,0,0],[],[],∅⟩ := by
    rw [openDB,htake]
    split_ifs with hzero
    · subst hzero
      rw [List.take_zero,loadLoop_end]
    · rfl
  rw [hopen,hload]
  by_cases hr : k % recordSize = 0
  · refine ⟨_,m,[],he,hlook',?_⟩
    rw [hr,List.take_zero,loadLoop_end]
    simp
  · obtain ⟨v,hcut⟩ := loadLoop_cut hkey hvalue
      (((before order k).getLast?.map Sigma.fst).getD []) value m (k-k/recordSize)
      (Nat.pos_of_ne_zero hr) (Nat.mod_lt _ (by decide))
    refine ⟨_,m,v,he,hlook',?_⟩
    simp only [hr,false_or]
    exact hcut

end File

/-- A cut file loads without a fault, and as the part of the index whose records are
complete exactly if the cut is harmless. -/
theorem truncated_load_iff (order : Order) (hsized : ∀ e ∈ order.entries, Sized e) (k : ℕ)
    (hk : k < (saveDB order).length) :
    (∃ m, openDB (some ((saveDB order).take k)) = .ok m) ∧
      (LoadsPart order k ↔ Harmless order k) := by
  obtain ⟨e,m,value,he,hlook,hopen⟩ := openDB_take hsized hk
  refine ⟨⟨_,hopen⟩,?_⟩
  have hnodup : (before order k).NodupKeys := order.nodupKeys.sublist (List.take_sublist _ _)
  have hpairs : ∀ key v, m.lookup key = some v ↔ CompleteIn order k ⟨key,v⟩ := by
    intro key v
    rw [hlook,completeIn_iff hsized]
    exact List.mem_dlookup_iff hnodup
  have hkeys : ∀ key, key ∈ m ↔ key ∈ (before order k).keys := by
    intro key
    rw [← Finmap.lookup_isSome,hlook,List.dlookup_isSome]
  constructor
  · rintro ⟨m',hload,hexact⟩
    by_cases hr : k % recordSize = 0
    · exact Or.inl hr
    · refine Or.inr ⟨e,he,?_⟩
      by_contra hnew
      rw [hopen,Except.ok.injEq] at hload
      simp only [hr,false_or,hkeys,hnew,if_false] at hload
      subst hload
      have hin := (completeIn_iff hsized _).mp ((hexact _ value).mp (Finmap.lookup_insert m))
      exact hnew (List.mem_keys_of_mem hin)
  · intro h
    refine ⟨m,?_,hpairs⟩
    rw [hopen]
    rcases h with hr | ⟨e',he',hmem⟩
    · simp only [hr,true_or,if_true]
    · obtain rfl : e' = e := Option.some.inj (he'.symm.trans he)
      simp only [hkeys,hmem,or_true,if_true]

def twoRecords : Order where
  entries := [⟨List.replicate 32 1,List.replicate 8 5⟩,⟨List.replicate 32 2,List.replicate 8 6⟩]
  nodupKeys := by
    rw [List.NodupKeys]
    decide

theorem sized_twoRecords : ∀ e ∈ twoRecords.entries, Sized e := by
  simp [twoRecords,Sized]

/-- Two bytes of the second record: the first byte of its length is enough for a round
that inserts the first key once more. -/
theorem truncated_load_two_bytes : LoadsPart twoRecords 50 := by
  apply (truncated_load_iff twoRecords sized_twoRecords 50 (by decide)).2.mpr
  exact Or.inr ⟨_,rfl,by decide⟩

/-- Half of the value of the second record: its fingerprint is bound to a container name
that was never drawn. -/
theorem truncated_value_misleads :
    (∀ e ∈ twoRecords.entries, Sized e) ∧ 92 < (saveDB twoRecords).length ∧
      (openDB (some ((saveDB twoRecords).take 92))).toOption.bind
        (fun m => m.lookup (List.replicate 32 2)) = some [6,6,6,6,5,5,5,5] ∧
      ¬ LoadsPart twoRecords 92 := by
  have hload : (openDB (some ((saveDB twoRecords).take 92))).toOption.bind
      (fun m => m.lookup (List.replicate 32 2)) = some [6,6,6,6,5,5,5,5] := by decide +kernel
  refine ⟨sized_twoRecords,by decide,hload,?_⟩
  rintro ⟨m,hm,hexact⟩
  rw [hm] at hload
  have hin := (completeIn_iff sized_twoRecords _).mp ((hexact _ _).mp hload)
  exact absurd (List.mem_keys_of_mem hin) (by decide)

end TruncatedIndex
end CloudServer
