import CloudServer.Restore

/-! The second loop of `ProcessRecipeBatch` over a batch of indexed fingerprints. How
groups of containers follow each other does not depend on what is said about the send
buffer: that is a parameter here, with what one restored entry does to it. -/
namespace CloudServer
namespace RestoreLoop

open ByteMemory ContainerFormat PlainIndex RecvDecoder RestoreTable Restore
open Interaction Interaction.Prog
open StorageCore hiding ClientVar

theorem returns_flush (index disk : Bytes → Option Bytes) (c : ClientVar) :
    ∃ qs, Returns (answer index disk) (flushChunks c) qs
      { c with sendChunkBuf := emptied c.sendChunkBuf } :=
  ⟨_,returns_bind (returns_request rfl) (returns_pure _)⟩

theorem returns_recover (index disk : Bytes → Option Bytes) {c : ClientVar} {k : ℕ}
    {table : RestoreIndex} {r : RestoreIndexEntry}
    (h : table.lookup (c.downloadChunkBase k).chunkHash = some r) :
    ∃ qs buf, Returns (answer index disk) (recoverEntry table k c) qs
        { recovered c k r with sendChunkBuf := buf } ∧
      ((recovered c k r).sendChunkBuf.header.currentItemNum % sendChunkBatchSize ≠ 0 →
        buf = (recovered c k r).sendChunkBuf) := by
  rw [recoverEntry_eq h]
  split_ifs with hfull
  · obtain ⟨qs,hret⟩ := returns_flush index disk (recovered c k r)
    exact ⟨qs,_,hret,fun hne => absurd hfull hne⟩
  · exact ⟨[],_,returns_pure _,fun _ => rfl⟩

theorem returns_sendLast (index disk : Bytes → Option Bytes) (n i : ℕ) (c : ClientVar) :
    ∃ qs buf, Returns (answer index disk) (sendLastBatch n i c) qs { c with sendChunkBuf := buf } ∧
      (i+1 < n → buf = c.sendChunkBuf) := by
  unfold sendLastBatch
  split_ifs with hlast
  · obtain ⟨qs,hret⟩ := returns_flush index disk c
    exact ⟨qs,_,hret,fun hlt => absurd hlast.1 (Nat.ne_of_lt hlt)⟩
  · exact ⟨[],_,returns_pure _,fun _ => rfl⟩

/-- A statement `B k ms buf` about the send buffer `buf` after `k` entries, with `ms` sent
meanwhile, that every entry carries on, and `E ms buf` that the last one establishes. -/
structure Kept (index : Bytes → Option Bytes) (files : Bytes → Option (List Pair))
    (fps : List Bytes) (B : ℕ → List Message → SendMsgBuffer → Prop)
    (E : List Message → SendMsgBuffer → Prop) : Prop where
  recover : ∀ (c : ClientVar) (k : ℕ) (ms : List Message) (fp d : Bytes) (table : RestoreIndex)
    (r : RestoreIndexEntry), B k ms c.sendChunkBuf → fps[k]? = some fp →
    (c.downloadChunkBase k).chunkHash = fp → chunkOf index files fp = some d →
    table.lookup fp = some r →
    read (c.containerArray (c.downloadChunkBase k).containerID) r.offset r.length = d →
    ∃ qs buf, Returns (answer index (onDisk files)) (recoverEntry table k c) qs
        { recovered c k r with sendChunkBuf := buf } ∧
      B (k+1) (ms++sent qs) buf
  last : ∀ (c : ClientVar) (i : ℕ) (ms : List Message), i+1 ≤ fps.length →
    B (i+1) ms c.sendChunkBuf →
    ∃ qs buf, Returns (answer index (onDisk files)) (sendLastBatch fps.length i c) qs
        { c with sendChunkBuf := buf } ∧
      if i+1 < fps.length then B (i+1) (ms++sent qs) buf else E (ms++sent qs) buf

/-- The request goes on with room for one more container, or all of it has been restored. -/
def Advanced (B : ℕ → List Message → SendMsgBuffer → Prop) (E : List Message → SendMsgBuffer → Prop)
    (n i : ℕ) (ms : List Message) (p : Pass) : Prop :=
  if i < n then p.client.idNum < containerCappingValue ∧ B p.startEntry ms p.client.sendChunkBuf
  else p.client.idNum = 0 ∧ E ms p.client.sendChunkBuf

variable {index : Bytes → Option Bytes} {files : Bytes → Option (List Pair)}
  {fps : List Bytes} {B : ℕ → List Message → SendMsgBuffer → Prop}
  {E : List Message → SendMsgBuffer → Prop}

theorem lookedUp_same {n : ℕ} {base base' : Mem DownloadChunkEntry} (h : LookedUp index fps n base)
    (hsame : ∀ j, SameEntry (base j) (base' j)) : LookedUp index fps n base' := by
  intro j fp hfp hj
  obtain ⟨hhash,hname,_⟩ := hsame j
  rw [hhash,hname]
  exact h j fp hfp hj

theorem names_on_disk (hstore : Placed index files) {i : ℕ} {p : Pass}
    (h : Collected index files fps i p) :
    ∀ k < p.client.idNum, ∃ ps, files (p.client.idBuffer k) = some ps := by
  intro k hk
  obtain ⟨fp,hfp⟩ := h.names k hk
  obtain ⟨ps,hps,_⟩ := hstore.located _ _ hfp
  exact ⟨ps,hps⟩

theorem returns_recoverGroup (hstore : Placed index files) (hkept : Kept index files fps B E)
    {i : ℕ} {p : Pass} {ms : List Message} (h : Collected index files fps i p)
    (hi : i ≤ fps.length) {c : ClientVar} (hbase : c.downloadChunkBase = p.client.downloadChunkBase)
    (harray : ∀ k < p.client.idNum, ∀ ps, files (p.client.idBuffer k) = some ps →
      Holds (c.containerArray k) 0 (image ps))
    (hdone : B p.startEntry ms c.sendChunkBuf) {n : ℕ} (hn : n ≤ i-p.startEntry) :
    ∃ qs c', Returns (answer index (onDisk files))
        (forRange (fun k => recoverEntry (indexConstruct ∅ c.containerArray p.client.idNum)
          (p.startEntry+k)) n c) qs c' ∧
      ((∀ j, SameEntry (c.downloadChunkBase j) (c'.downloadChunkBase j)) ∧
        B (p.startEntry+n) (ms++sent qs) c'.sendChunkBuf ∧
        ∃ buf base, c' = { c with sendChunkBuf := buf, downloadChunkBase := base }) := by
  refine returns_forRange (I := fun m c' tr =>
    (∀ j, SameEntry (c.downloadChunkBase j) (c'.downloadChunkBase j)) ∧
    B (p.startEntry+m) (ms++sent tr) c'.sendChunkBuf ∧
    ∃ buf base, c' = { c with sendChunkBuf := buf, downloadChunkBase := base }) ?_ ?_
  · exact ⟨fun j => ⟨rfl,rfl,rfl⟩,by simpa using hdone,c.sendChunkBuf,c.downloadChunkBase,rfl⟩
  · rintro m c' tr hm ⟨hsame,hrest,buf,base,rfl⟩
    have hlt : p.startEntry+m < fps.length := by omega
    have hfp := List.getElem?_eq_getElem hlt
    obtain ⟨d,r,hchunk,htable,hdata⟩ :=
      group_lookup hstore h (Nat.le_add_right _ m) (by omega) hfp harray
    obtain ⟨hhash,_,hid⟩ := hsame (p.startEntry+m)
    have hentry := (h.entries _ _ hfp hlt).1
    rw [← hbase] at hentry hdata
    rw [← hid] at hdata
    obtain ⟨qs,buf',hret,hrest'⟩ := hkept.recover
      { c with sendChunkBuf := buf, downloadChunkBase := base } _ _ _ _ _ _ hrest hfp
      (hhash.trans hentry) hchunk htable hdata
    refine ⟨qs,_,hret,?_,by rwa [sent_append,← List.append_assoc,← Nat.add_assoc],buf',_,rfl⟩
    intro j
    by_cases hj : j = p.startEntry+m
    · subst hj
      simpa [recovered,placed,SameEntry] using hsame (p.startEntry+m)
    · simpa [recovered,hj] using hsame j

/-- The end of a group: its containers are fetched, its entries restored, and the
next group starts empty behind them. -/
theorem returns_processGroup (hstore : Placed index files) (hkept : Kept index files fps B E)
    {i : ℕ} {p : Pass} {ms : List Message} (h : Collected index files fps (i+1) p)
    (hi : i+1 ≤ fps.length) (hdone : B p.startEntry ms p.client.sendChunkBuf) :
    ∃ qs p', Returns (answer index (onDisk files)) (processGroup fps.length i p) qs p' ∧
      Collected index files fps (i+1) p' ∧ Advanced B E fps.length (i+1) (ms++sent qs) p' := by
  obtain ⟨qs₁,c₁,hret₁,hsent₁,array,cache,rfl,hcache,harray⟩ :=
    returns_getReqContainers hstore p.client h.cache (names_on_disk hstore h)
  obtain ⟨qs₂,c₂,hret₂,hsame,hrest,buf,base,hc₂⟩ := returns_recoverGroup hstore hkept h hi
    (c := { p.client with containerArray := array, containerCache := cache }) rfl harray hdone le_rfl
  rw [Nat.add_sub_cancel' h.start] at hrest
  obtain ⟨qs₃,buf',hret₃,hend⟩ := hkept.last c₂ i _ hi hrest
  refine ⟨qs₁++(qs₂++(qs₃++[])),_,
    returns_bind hret₁ (returns_bind hret₂ (returns_bind hret₃ (returns_pure _))),?_,?_⟩
  · exact
      { entries := lookedUp_same h.entries hsame
        start := le_refl _
        capped := Nat.zero_le _
        table := by simp
        names := by simp
        slots := by
          intro j hj hji
          simp only at hj
          omega
        cache := by rw [hc₂]; exact hcache }
  · have hms : ms++sent (qs₁++(qs₂++(qs₃++[]))) = ms++sent qs₂++sent qs₃ := by
      simp [hsent₁]
    rw [hms]
    unfold Advanced
    split_ifs with hmore
    · rw [if_pos hmore] at hend
      exact ⟨(by decide : 0 < containerCappingValue),hend⟩
    · rw [if_neg hmore] at hend
      exact ⟨rfl,hend⟩

theorem returns_processEntry (hstore : Placed index files) (hkept : Kept index files fps B E)
    {i : ℕ} {p : Pass} {ms : List Message} (h : Collected index files fps i p)
    (hi : i < fps.length) (hadvanced : Advanced B E fps.length i ms p) :
    ∃ qs p', Returns (answer index (onDisk files)) (processEntry fps.length i p) qs p' ∧
      Collected index files fps (i+1) p' ∧ Advanced B E fps.length (i+1) (ms++sent qs) p' := by
  unfold Advanced at hadvanced
  rw [if_pos hi] at hadvanced
  obtain ⟨hroom,hrest⟩ := hadvanced
  obtain ⟨p₁,hret₁,hcol,hstart,hbuf⟩ := returns_assignContainer h hi hroom
  rw [← hstart,← hbuf] at hrest
  by_cases hend : p₁.client.idNum = containerCappingValue ∨ i+1 = fps.length
  · obtain ⟨qs,p',hret,hcol',hnext⟩ := returns_processGroup hstore hkept hcol hi hrest
    refine ⟨[]++qs,p',returns_bind hret₁ ?_,hcol',hnext⟩
    rw [if_pos hend]
    exact hret
  · refine ⟨[]++[],p₁,returns_bind hret₁ ?_,hcol,?_⟩
    · rw [if_neg hend]
      exact returns_pure _
    · have hcap := hcol.capped
      unfold Advanced
      rw [if_pos (by omega)]
      exact ⟨by omega,by simpa using hrest⟩

theorem collected_start {c : ClientVar}
    (hentries : LookedUp index fps fps.length c.downloadChunkBase) (hid : c.idNum = 0)
    (hcache : c.containerCache.Agrees (onDisk files)) : Collected index files fps 0 ⟨c,∅,0⟩ :=
  ⟨hentries,le_refl _,by simp [hid],by simp [hid],by simp [hid],by simp,hcache⟩

theorem returns_processEntries (hstore : Placed index files) (hkept : Kept index files fps B E)
    {c : ClientVar} (hentries : LookedUp index fps fps.length c.downloadChunkBase)
    (hid : c.idNum = 0) (hcache : c.containerCache.Agrees (onDisk files))
    (hstart : Advanced B E fps.length 0 [] ⟨c,∅,0⟩) {i : ℕ} (hi : i ≤ fps.length) :
    ∃ qs p, Returns (answer index (onDisk files))
        (forRange (processEntry fps.length) i ⟨c,∅,0⟩) qs p ∧
      (Collected index files fps i p ∧ Advanced B E fps.length i (sent qs) p) := by
  refine returns_forRange (I := fun i p tr => Collected index files fps i p ∧
    Advanced B E fps.length i (sent tr) p) ?_ ?_
  · exact ⟨collected_start hentries hid hcache,hstart⟩
  · rintro j p tr hj ⟨hcol,hadvanced⟩
    obtain ⟨qs,p',hret,hcol',hnext⟩ :=
      returns_processEntry hstore hkept hcol (by omega) hadvanced
    exact ⟨qs,p',hret,hcol',by rwa [sent_append]⟩

/-- In the course of `ProcessRecipeBatch` the restore loop comes to entry `k`, with the
client in state `c'` and the table of the group that ends with entry `i`. -/
def AtEntry (answer : (q : Request) → Except Fault (Reply q)) (recipeNum : ℕ) (c : ClientVar)
    (table : RestoreIndex) (k : ℕ) (c' : ClientVar) : Prop :=
  ∃ s i p p' c₁ j,
    Yields answer (forRange lookupEntry recipeNum (c,List.replicate containerIdLength 0)) s ∧
    i < recipeNum ∧ Yields answer (forRange (processEntry recipeNum) i ⟨s.1,∅,0⟩) p ∧
    Yields answer (assignContainer i p) p' ∧
    (p'.client.idNum = containerCappingValue ∨ i+1 = recipeNum) ∧
    Yields answer (getReqContainers p'.client) c₁ ∧
    table = indexConstruct ∅ c₁.containerArray c₁.idNum ∧
    j < i+1-p'.startEntry ∧ k = p'.startEntry+j ∧
    Yields answer (forRange (fun k => recoverEntry table (p'.startEntry+k)) j c₁) c'

/-- A client that has received the request for `fps` and has not answered it yet. -/
structure Asked (files : Bytes → Option (List Pair)) (fps : List Bytes) (c : ClientVar) : Prop where
  length : ∀ fp ∈ fps, fp.length = chunkHashSize
  fits : fps.flatten.length ≤ sendChunkBatchSize*(4+maxChunkSize)
  request : Holds c.sendChunkBuf.dataBuffer 0 fps.flatten
  items : c.sendChunkBuf.header.currentItemNum = 0
  dataSize : c.sendChunkBuf.header.dataSize = 0
  idNum : c.idNum = 0
  cache : c.containerCache.Agrees (onDisk files)

theorem Asked.size_lt {c : ClientVar} (h : Asked files fps c) : chunkHashSize*fps.length < 2^32 := by
  rw [← flatten_length_of_uniform h.length]
  exact h.fits.trans_lt (by decide)

section Entries

variable {c c' : ClientVar} {table : RestoreIndex} {k : ℕ}

structure Found (index : Bytes → Option Bytes) (files : Bytes → Option (List Pair))
    (fps : List Bytes) (table : RestoreIndex) (k : ℕ) (c' : ClientVar) : Prop where
  name : ∃ fp, fps[k]? = some fp ∧ (c'.downloadChunkBase k).chunkHash = fp ∧
    index fp = some (c'.downloadChunkBase k).containerName
  entry : ∃ d r, chunkOf index files (c'.downloadChunkBase k).chunkHash = some d ∧
    table.lookup (c'.downloadChunkBase k).chunkHash = some r ∧ r.length = d.length

theorem returns_rounds (hstore : Placed index files) (hkept : Kept index files fps B E)
    (hasked : Asked files fps c) (hindexed : ∀ fp ∈ fps, ∃ id, index fp = some id)
    (hstart : Advanced B E fps.length 0 [] ⟨c,∅,0⟩) :
    ∃ qs s, Returns (answer index (onDisk files))
        (forRange lookupEntry fps.length (c,List.replicate containerIdLength 0)) qs s ∧
      ∀ i ≤ fps.length, ∃ qs p, Returns (answer index (onDisk files))
          (forRange (processEntry fps.length) i ⟨s.1,∅,0⟩) qs p ∧
        Collected index files fps i p ∧ Advanced B E fps.length i (sent qs) p := by
  obtain ⟨qs,s,hs,_,base,hbase,hlooked⟩ := returns_lookups (onDisk files) c
    (List.replicate containerIdLength 0) hasked.length hasked.size_lt hindexed hasked.request
  refine ⟨qs,s,hs,?_⟩
  intro i hi
  rw [hbase]
  exact returns_processEntries (c := { c with downloadChunkBase := base }) hstore hkept hlooked
    hasked.idNum hasked.cache hstart hi

theorem advanced_start (hasked : Asked files fps c) (hn : 0 < fps.length)
    (hstart : B 0 [] c.sendChunkBuf) : Advanced B E fps.length 0 [] ⟨c,∅,0⟩ := by
  rw [Advanced,if_pos hn]
  exact ⟨by simp [hasked.idNum,containerCappingValue],hstart⟩

/-- Every entry that the restore loop comes to is one of the batch, is found in the
table, and has the send buffer as the entries before it have left it. -/
theorem found_atEntry (hstore : Placed index files) (hkept : Kept index files fps B E)
    (hasked : Asked files fps c) (hindexed : ∀ fp ∈ fps, ∃ id, index fp = some id)
    (hstart : B 0 [] c.sendChunkBuf)
    (h : AtEntry (answer index (onDisk files)) fps.length c table k c') :
    Found index files fps table k c' ∧ ∃ ms, B k ms c'.sendChunkBuf := by
  obtain ⟨s,i,p,p',c₁,j,hs,hi,hp,hp',hend,hc₁,rfl,hj,rfl,hc'⟩ := h
  obtain ⟨_,s₀,hret,hrounds⟩ := returns_rounds hstore hkept hasked hindexed
    (advanced_start hasked (by omega) hstart)
  obtain rfl := hs.eq hret
  obtain ⟨qs,p₀,hret,hcol,hadv⟩ := hrounds i hi.le
  obtain rfl := hp.eq hret
  rw [Advanced,if_pos hi] at hadv
  obtain ⟨p₁,hret,hcol',hse,hbuf⟩ := returns_assignContainer hcol hi hadv.1
  obtain rfl := hp'.eq hret
  obtain ⟨_,c₀,hret,_,array,cache,hc₀,_,harray⟩ := returns_getReqContainers hstore p'.client
    hcol'.cache (names_on_disk hstore hcol')
  obtain rfl := hc₁.eq hret
  subst hc₀
  rw [← hse,← hbuf] at hadv
  obtain ⟨qs',c₂,hret,hsame,hB,buf,base',hc₂⟩ := returns_recoverGroup hstore hkept hcol' hi
    (c := { p'.client with containerArray := array, containerCache := cache }) rfl harray hadv.2
    (n := j) (by omega)
  obtain rfl := hc'.eq hret
  have hlt : p'.startEntry+j < fps.length := by omega
  have hfp := List.getElem?_eq_getElem hlt
  obtain ⟨hhash,hname,_⟩ := hsame (p'.startEntry+j)
  obtain ⟨hentry,hindex⟩ := hcol'.entries _ _ hfp hlt
  obtain ⟨d,r,hchunk,htable,hdata⟩ :=
    group_lookup hstore hcol' (Nat.le_add_right _ j) (by omega) hfp harray
  have hkey : (c'.downloadChunkBase (p'.startEntry+j)).chunkHash = fps[p'.startEntry+j] :=
    hhash.trans hentry
  refine ⟨⟨⟨_,hfp,hkey,by rw [hname]; exact hindex⟩,d,r,by rw [hkey]; exact hchunk,
    by rw [hkey]; exact htable,?_⟩,_,hB⟩
  rw [← hdata,read_length]

theorem exists_atEntry (hstore : Placed index files) (hkept : Kept index files fps B E)
    (hasked : Asked files fps c) (hindexed : ∀ fp ∈ fps, ∃ id, index fp = some id)
    (hstart : B 0 [] c.sendChunkBuf) (hk : k+1 = fps.length) :
    ∃ table c', AtEntry (answer index (onDisk files)) fps.length c table k c' := by
  have hi : k < fps.length := by omega
  obtain ⟨_,s,hs,hrounds⟩ := returns_rounds hstore hkept hasked hindexed
    (advanced_start hasked (by omega) hstart)
  obtain ⟨qs,p,hp,hcol,hadv⟩ := hrounds k hi.le
  rw [Advanced,if_pos hi] at hadv
  obtain ⟨p',hp',hcol',hse,hbuf⟩ := returns_assignContainer hcol hi hadv.1
  obtain ⟨_,c₁,hc₁,_,array,cache,rfl,_,harray⟩ := returns_getReqContainers hstore p'.client
    hcol'.cache (names_on_disk hstore hcol')
  rw [← hse,← hbuf] at hadv
  have hstart' := hcol.start
  obtain ⟨_,c',hc',_⟩ := returns_recoverGroup hstore hkept hcol' hi
    (c := { p'.client with containerArray := array, containerCache := cache }) rfl harray hadv.2
    (n := k-p'.startEntry) (by omega)
  exact ⟨_,c',s,k,p,p',_,k-p'.startEntry,hs.yields,hi,hp.yields,hp'.yields,Or.inr hk,hc₁.yields,
    rfl,by omega,by omega,hc'.yields⟩

end Entries
end RestoreLoop
end CloudServer
