import CloudServer.Fetching
import CloudServer.Recency

/-! The read cache as a window on the request history. `ExistsInCache` leaves the order of
the names alone, `ReadFromCache` and `InsertToCache` bring the requested name to the front,
so that the cached names are the most recent ones of the history. -/
namespace CloudServer
namespace CacheRecency

open ByteMemory LruCache ReadCache RecvDecoder Recency
open Fetching hiding Served
open Interaction Interaction.Prog

def cachedNames (c : ReadCache) : List Bytes := c.readCache.keys.map Prod.fst

/-- The files may have any content, and change it from one request to the next. -/
def anyFile (q : Request) (_ : Reply q) : Prop := True

def load (names : List Bytes) (c : ClientVar) : ClientVar :=
  { c with idBuffer := write c.idBuffer 0 names, idNum := names.length }

/-- All of some calls, and the first `i` rounds of a further call. -/
def upTo (calls : List (List Bytes)) (names : List Bytes) (i : ℕ) (c : ClientVar) :
    Decoder ClientVar := do
  let cs ← fetches calls c
  forRange getReqContainer i (load names (cs.getLastD c))

def history (calls : List (List Bytes)) (names : List Bytes) (i : ℕ) : List Bytes :=
  calls.flatten ++ names.take i

/-- A cache of `cacheSize` slots that shows the most recent names of a history. -/
structure Follows (cacheSize : ℕ) (h : List Bytes) (c : ReadCache) : Prop where
  valid : c.Valid
  size : c.cacheSize = cacheSize
  recent : cachedNames c = (recent h).take cacheSize

variable {cacheSize : ℕ} {h : List Bytes} {c c' : ReadCache} {name : Bytes}

theorem agrees_of_valid (hc : c.Valid) : c.Agrees fun _ => some [] :=
  ⟨hc,fun _ _ => ⟨[],rfl,holds_nil _ _⟩⟩

theorem existsInCache_iff : c.existsInCache name = true ↔ name ∈ cachedNames c := by
  constructor
  · intro hit
    obtain ⟨slot,hslot⟩ := Option.isSome_iff_exists.mp hit
    exact List.mem_map_of_mem (find_eq_some hslot)
  · intro hmem
    by_contra hmiss
    exact not_contains (Bool.eq_false_iff.mpr hmiss) hmem

theorem readFromCache_names {m : Mem UInt8} (hread : c.readFromCache name = some (m,c')) :
    cachedNames c' = touch (cachedNames c) name := by
  obtain ⟨r,hr,hc'⟩ := Option.map_eq_some_iff.mp hread
  obtain ⟨slot,_,rfl⟩ := Option.map_eq_some_iff.mp hr
  rw [← (Prod.mk.inj hc').2]
  simp [cachedNames,Cache.splice,touch,List.filter_map,Function.comp_def]

theorem insertToCache_names (hc : c.Valid) (miss : c.existsInCache name = false)
    (data : Mem UInt8) (length : ℕ) :
    cachedNames (c.insertToCache name data length) = name::(cachedNames c).take (c.cacheSize-1) := by
  have hsize := hc.size
  have hpos := hc.positive
  have hbound := hc.bound
  unfold insertToCache
  split_ifs with hfull
  · have hlen : c.cacheSize-1 = c.readCache.keys.length-1 := by omega
    simp only [cachedNames,insert_full _ miss hc.elasticity (by omega) (by omega),List.map_cons,
      List.dropLast_eq_take,List.map_take,hlen]
  · have htake : (c.readCache.keys.map Prod.fst).length ≤ c.cacheSize-1 := by
      rw [List.length_map]
      omega
    simp only [cachedNames,insert_room _ miss (by omega),List.map_cons,List.take_of_length_le htake]

theorem follows_new (hpos : 1 ≤ cacheSize) (pool : Mem (Mem UInt8)) :
    Follows cacheSize [] (ReadCache.new cacheSize pool) :=
  ⟨(agrees_new (fun _ => some []) hpos pool).toValid,rfl,by simp [cachedNames,ReadCache.new,Recency.recent]⟩

theorem Follows.exists_succ (hc : Follows cacheSize h c) : ∃ n, cacheSize = n+1 := by
  have hpos := hc.valid.positive
  rw [hc.size] at hpos
  exact ⟨cacheSize-1,by omega⟩

theorem existsInCache_of_follows (hc : Follows cacheSize h c) (name : Bytes) :
    c.existsInCache name = true ↔ ¬ Missed cacheSize h name := by
  rw [existsInCache_iff,hc.recent,mem_take_recent]

theorem follows_hit (hc : Follows cacheSize h c) (hit : c.existsInCache name = true) :
    ∃ m c', c.readFromCache name = some (m,c') ∧ Follows cacheSize (h++[name]) c' := by
  obtain ⟨m,c',hread,_,hc'⟩ := readFromCache_agrees (agrees_of_valid hc.valid) hit rfl
  obtain ⟨n,hn⟩ := hc.exists_succ
  refine ⟨m,c',hread,hc'.toValid,(readFromCache_cacheSize hread).trans hc.size,?_⟩
  have hmem := existsInCache_iff.mp hit
  rw [hc.recent,hn] at hmem
  rw [readFromCache_names hread,hc.recent,hn,take_recent_of_mem hmem]

theorem follows_miss (hc : Follows cacheSize h c) (miss : c.existsInCache name = false)
    (data : Mem UInt8) (length : ℕ) :
    Follows cacheSize (h++[name]) (c.insertToCache name data length) := by
  have hagrees := insertToCache_agrees (agrees_of_valid hc.valid) miss rfl (Nat.zero_le length)
    (holds_nil data 0)
  obtain ⟨n,hn⟩ := hc.exists_succ
  refine ⟨hagrees.toValid,(insertToCache_cacheSize _ _ _ _).trans hc.size,?_⟩
  have hnot : name ∉ (Recency.recent h).take (n+1) := by
    rw [← hn,← hc.recent]
    exact not_contains miss
  rw [insertToCache_names hc.valid miss,hc.size,hc.recent,hn,take_recent_of_notMem hnot,
    List.take_take,Nat.add_sub_cancel,Nat.min_eq_left (Nat.le_succ n)]

def reads (cacheSize : ℕ) (h : List Bytes) (name : Bytes) : List Request :=
  if Missed cacheSize h name then [.openContainer name] else []

/-- One round, whatever the file holds. -/
theorem completes_getReqContainer {cl : ClientVar} (hc : Follows cacheSize h cl.containerCache)
    (i : ℕ) :
    Completes anyFile (getReqContainer i cl) fun qs cl' =>
      qs = reads cacheSize h (cl.idBuffer i) ∧ cl'.idBuffer = cl.idBuffer ∧
        Follows cacheSize (h++[cl.idBuffer i]) cl'.containerCache := by
  cases hit : cl.containerCache.existsInCache (cl.idBuffer i) with
  | true =>
    have hnot := (existsInCache_of_follows hc _).mp hit
    obtain ⟨m,c',hread,hc'⟩ := follows_hit hc hit
    simp only [getReqContainer,hit,hread,if_true]
    exact completes_pure ⟨by rw [reads,if_neg hnot],rfl,hc'⟩
  | false =>
    have hmissed : Missed cacheSize h (cl.idBuffer i) := by
      by_contra hnot
      rw [(existsInCache_of_follows hc _).mpr hnot] at hit
      cases hit
    simp only [getReqContainer,hit]
    have hopen : Completes anyFile (openContainer (cl.idBuffer i)) fun qs _ =>
        qs = [.openContainer (cl.idBuffer i)] := completes_request fun _ _ => rfl
    apply completes_bind hopen
    rintro qs content rfl
    exact completes_pure ⟨by rw [reads,if_pos hmissed]; rfl,rfl,follows_miss hc hit _ _⟩

theorem completes_rounds {cl : ClientVar} (hc : Follows cacheSize h cl.containerCache)
    (names : List Bytes) {i : ℕ} (hi : i ≤ names.length) :
    Completes anyFile (forRange getReqContainer i (load names cl)) fun _ cl' =>
      cl'.idBuffer = write cl.idBuffer 0 names ∧
        Follows cacheSize (h ++ names.take i) cl'.containerCache := by
  apply completes_forRange (I := fun k (cl' : ClientVar) => cl'.idBuffer = write cl.idBuffer 0 names ∧
    Follows cacheSize (h ++ names.take k) cl'.containerCache)
  · exact ⟨rfl,by simpa [load] using hc⟩
  · rintro k cl' hk ⟨hbuffer,hfollows⟩
    have hname : cl'.idBuffer k = names[k] := by
      rw [hbuffer]
      exact write_names _ (List.getElem?_eq_getElem (hk.trans_le hi))
    intro qs out htalk
    obtain ⟨cl'',hout,_,hbuffer',hfollows'⟩ := completes_getReqContainer hfollows k qs out htalk
    rw [hname,List.append_assoc,List.take_append_getElem] at hfollows'
    exact ⟨cl'',hout,hbuffer'.trans hbuffer,hfollows'⟩

theorem completes_fetches (calls : List (List Bytes)) {cl : ClientVar}
    (hc : Follows cacheSize h cl.containerCache) :
    Completes anyFile (fetches calls cl) fun _ cs =>
      Follows cacheSize (h ++ calls.flatten) (cs.getLastD cl).containerCache := by
  induction calls generalizing h cl with
  | nil => exact completes_pure (by simpa using hc)
  | cons names calls ih =>
    apply completes_bind (completes_rounds hc names le_rfl)
    rintro - cl' ⟨-,hc'⟩
    rw [List.take_length] at hc'
    apply completes_bind (ih hc')
    intro _ cs hcs
    apply completes_pure
    rw [List.append_assoc] at hcs
    rw [List.flatten_cons,List.getLastD_cons]
    exact hcs

/-- The read cache keeps the most recently requested containers. After any calls and any
number of rounds of a further call, the cached names are the most recent ones of all the
requests so far, in the order of their last requests, and the next round reads its
container from disk if and only if it was never requested or `cacheSize` others have been
requested since. -/
theorem cache_most_recent (cacheSize : ℕ) (hpos : 1 ≤ cacheSize) (pool : Mem (Mem UInt8))
    (c : ClientVar) (hc : c.containerCache = ReadCache.new cacheSize pool)
    (calls : List (List Bytes)) (names : List Bytes) (i : ℕ) (hi : i ≤ names.length) :
    Completes anyFile (upTo calls names i c) fun _ c' =>
      MostRecent cacheSize (history calls names i) (cachedNames c'.containerCache) ∧
      ∀ name, names[i]? = some name → Completes anyFile (getReqContainer i c') fun qs _ =>
        qs = reads cacheSize (history calls names i) name := by
  have hstart : Follows cacheSize [] c.containerCache := by
    rw [hc]
    exact follows_new hpos pool
  apply completes_bind (completes_fetches calls hstart)
  intro _ cs hcs qs out htalk
  obtain ⟨c',hout,hbuffer,hfollows⟩ := completes_rounds hcs names hi qs out htalk
  rw [List.nil_append] at hfollows
  refine ⟨c',hout,?_,?_⟩
  · rw [hfollows.recent]
    exact mostRecent_take _ _
  · intro name hname qs' out' htalk'
    obtain ⟨c'',hout',hqs,_⟩ := completes_getReqContainer hfollows i qs' out' htalk'
    rw [hbuffer,write_names _ hname] at hqs
    exact ⟨c'',hout',hqs⟩

def containerName (n : UInt8) : Bytes := List.replicate containerIdLength n

def freshClient : ClientVar :=
  ⟨⟨⟨.edgeDownloadChunkReady,3,0,0⟩,fun _ => 1⟩,fun _ => [],fun _ _ => 0,0,
    ReadCache.new 2 fun _ _ => 0,fun _ => ⟨[],[],0,0,0⟩⟩

/-- Two slots and three containers: the second request of the first container is a hit and
keeps it longer than the second one, until two others have come. -/
theorem cache_most_recent_two_slots :
    ∃ qs c', Talk anyFile (upTo [[containerName 1,containerName 2],[containerName 1,containerName 3]]
        [containerName 2,containerName 1] 1 freshClient) qs (.ok c') ∧
      MostRecent 2 [containerName 1,containerName 2,containerName 1,containerName 3,containerName 2]
        (cachedNames c'.containerCache) ∧
      Completes anyFile (getReqContainer 1 c') fun qs' _ => qs' = [.openContainer (containerName 1)] := by
  have hreply : ∀ q : Request, ∃ r, anyFile q r := by
    intro q
    cases q with
    | readIndexStore _ => exact ⟨none,trivial⟩
    | openContainer _ => exact ⟨[],trivial⟩
    | sendData _ => exact ⟨(),trivial⟩
  obtain ⟨qs,out,htalk⟩ := talk_exists hreply
    (upTo [[containerName 1,containerName 2],[containerName 1,containerName 3]]
      [containerName 2,containerName 1] 1 freshClient)
  obtain ⟨c',rfl,hrecent,hread⟩ := cache_most_recent 2 (by decide) (fun _ _ => 0) freshClient rfl
    [[containerName 1,containerName 2],[containerName 1,containerName 3]]
    [containerName 2,containerName 1] 1 (by decide) qs out htalk
  exact ⟨qs,c',htalk,hrecent,hread (containerName 1) rfl⟩

end CacheRecency
end CloudServer
