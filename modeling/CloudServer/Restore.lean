import CloudServer.RestoreTable
import CloudServer.PlainIndex

/-! The message stream of a restored batch. The first loop is a map over the request;
the second is followed by two invariants, one for the group of at most 16 containers
that is being collected and one for the buffer of at most 256 chunks that is being
filled. -/
namespace CloudServer
namespace Restore

open ByteMemory ContainerFormat PlainIndex RecvDecoder RestoreTable
open Interaction Interaction.Prog
open StorageCore hiding ClientVar

def sent (qs : List Request) : List Message :=
  qs.filterMap fun
    | .sendData m => some m
    | _ => none

@[simp] theorem sent_nil : sent [] = [] := rfl
@[simp] theorem sent_append (a b : List Request) : sent (a++b) = sent a ++ sent b :=
  List.filterMap_append

def chunkMessage (clientID : ℕ) (g : List Bytes) : Message :=
  ⟨⟨.cloudSendChunk,clientID,(encodeChunks g).length,g.length⟩,encodeChunks g⟩

def endMessage (clientID : ℕ) : Message := ⟨⟨.cloudSendChunkEnd,clientID,0,0⟩,[]⟩

variable {index disk : Bytes → Option Bytes} {files : Bytes → Option (List Pair)}
  {fps : List Bytes} {clientID : ℕ}

theorem encodeChunks_append (a b : List Bytes) :
    encodeChunks (a++b) = encodeChunks a ++ encodeChunks b := by
  simp [encodeChunks]

theorem encodeChunks_length_le {g : List Bytes} (h : ∀ d ∈ g, d.length ≤ maxChunkSize) :
    (encodeChunks g).length ≤ g.length*(4+maxChunkSize) := by
  induction g with
  | nil => simp [encodeChunks]
  | cons d g ih =>
    have hd := h d (by simp)
    have hg := ih fun e he => h e (by simp [he])
    have hsplit : (encodeChunks (d::g)).length = 4+d.length+(encodeChunks g).length := by
      simp [encodeChunks]
      omega
    rw [hsplit,List.length_cons,Nat.succ_mul]
    omega

/-- The first `n` entries carry the requested hashes and the names of their containers. -/
def LookedUp (index : Bytes → Option Bytes) (fps : List Bytes) (n : ℕ)
    (base : Mem DownloadChunkEntry) : Prop :=
  ∀ j fp, fps[j]? = some fp → j < n → (base j).chunkHash = fp ∧
    index fp = some (base j).containerName

/-- The same where not every hash is indexed. -/
def Recorded (index : Bytes → Option Bytes) (fps : List Bytes) (n : ℕ)
    (base : Mem DownloadChunkEntry) : Prop :=
  ∀ j fp, fps[j]? = some fp → j < n → (base j).chunkHash = fp ∧
    ∀ id, index fp = some id → (base j).containerName = id

theorem returns_lookupEntry {i : ℕ} {s : ClientVar × Bytes} {fp : Bytes}
    (hread : read s.1.sendChunkBuf.dataBuffer (u32 (chunkHashSize*i)) chunkHashSize = fp) :
    Returns (answer index disk) (lookupEntry i s) [.readIndexStore fp]
      ({ s.1 with
          downloadChunkBase := Function.update s.1.downloadChunkBase i
            { s.1.downloadChunkBase i with
              chunkHash := fp, containerName := (index fp).getD s.2 } },(index fp).getD s.2) := by
  have hask : Returns (answer index disk) (readIndexStore fp) [.readIndexStore fp] (index fp) :=
    returns_request rfl
  unfold lookupEntry
  simp only [hread]
  exact returns_bind hask (returns_pure _)

theorem returns_recorded (index disk : Bytes → Option Bytes) (c : ClientVar) (name : Bytes)
    (hlen : ∀ fp ∈ fps, fp.length = chunkHashSize) (hfit : chunkHashSize*fps.length < 2^32)
    (hbuf : Holds c.sendChunkBuf.dataBuffer 0 fps.flatten) :
    ∃ qs s, Returns (answer index disk) (forRange lookupEntry fps.length (c,name)) qs s ∧
      sent qs = [] ∧ ∃ base, s.1 = { c with downloadChunkBase := base } ∧
        Recorded index fps fps.length base := by
  refine returns_forRange (I := fun i (s : ClientVar × Bytes) tr => sent tr = [] ∧
    ∃ base, s.1 = { c with downloadChunkBase := base } ∧ Recorded index fps i base) ?_ ?_
  · exact ⟨rfl,c.downloadChunkBase,rfl,by intro j fp _ hj; omega⟩
  · rintro i ⟨c',name'⟩ tr hi ⟨htr,base,rfl,hbase⟩
    have hread : read c.sendChunkBuf.dataBuffer (u32 (chunkHashSize*i)) chunkHashSize = fps[i] := by
      rw [u32_of_lt (Nat.lt_of_le_of_lt (Nat.mul_le_mul_left _ (Nat.le_of_lt hi)) hfit)]
      exact read_record hbuf hlen hi
    refine ⟨_,_,returns_lookupEntry hread,?_,_,rfl,?_⟩
    · rw [sent_append,htr]
      rfl
    · intro j fp hfp hj
      by_cases hji : j = i
      · subst hji
        obtain rfl : fps[j] = fp := by
          rw [List.getElem?_eq_getElem hi] at hfp
          exact Option.some.inj hfp
        simp +contextual
      · rw [Function.update_of_ne hji]
        exact hbase j fp hfp (by omega)

theorem lookedUp_of_recorded {n : ℕ} {base : Mem DownloadChunkEntry}
    (h : Recorded index fps n base) (hindexed : ∀ fp ∈ fps, ∃ id, index fp = some id) :
    LookedUp index fps n base := by
  intro j fp hfp hj
  obtain ⟨hhash,hname⟩ := h j fp hfp hj
  obtain ⟨id,hid⟩ := hindexed fp (List.mem_of_getElem? hfp)
  rw [hname id hid]
  exact ⟨hhash,hid⟩

theorem returns_lookups (disk : Bytes → Option Bytes) (c : ClientVar) (name : Bytes)
    (hlen : ∀ fp ∈ fps, fp.length = chunkHashSize) (hfit : chunkHashSize*fps.length < 2^32)
    (hindexed : ∀ fp ∈ fps, ∃ id, index fp = some id)
    (hbuf : Holds c.sendChunkBuf.dataBuffer 0 fps.flatten) :
    ∃ qs s, Returns (answer index disk) (forRange lookupEntry fps.length (c,name)) qs s ∧
      sent qs = [] ∧ ∃ base, s.1 = { c with downloadChunkBase := base } ∧
        LookedUp index fps fps.length base := by
  obtain ⟨qs,s,hret,hsent,base,hs,hbase⟩ := returns_recorded index disk c name hlen hfit hbuf
  exact ⟨qs,s,hret,hsent,base,hs,lookedUp_of_recorded hbase hindexed⟩

theorem returns_cached {i : ℕ} {c : ClientVar} {m : Mem UInt8} {cache : ReadCache}
    (hit : c.containerCache.existsInCache (c.idBuffer i) = true)
    (hread : c.containerCache.readFromCache (c.idBuffer i) = some (m,cache)) :
    Returns (answer index disk) (getReqContainer i c) []
      { c with
        containerArray := Function.update c.containerArray i
          (copyPrefix (c.containerArray i) m maxContainerSize)
        containerCache := cache } := by
  simp only [getReqContainer,hit,hread,if_true]
  exact returns_pure _

theorem returns_opened {i : ℕ} {c : ClientVar} {content : Bytes}
    (miss : c.containerCache.existsInCache (c.idBuffer i) = false)
    (hfile : disk (c.idBuffer i) = some content) :
    Returns (answer index disk) (getReqContainer i c) [.openContainer (c.idBuffer i)]
      { c with
        containerArray := Function.update c.containerArray i (write (c.containerArray i) 0 content)
        containerCache := c.containerCache.insertToCache (c.idBuffer i)
          (write (c.containerArray i) 0 content) content.length } := by
  have hopen : Returns (answer index disk) (openContainer (c.idBuffer i))
      [.openContainer (c.idBuffer i)] content := returns_request (by rw [answer,hfile])
  simp only [getReqContainer,miss]
  exact returns_bind hopen (returns_pure _)

theorem returns_getReqContainer (index : Bytes → Option Bytes)
    (hsize : ∀ name content, disk name = some content → content.length ≤ maxContainerSize)
    {i : ℕ} {c : ClientVar} (hcache : c.containerCache.Agrees disk) {content : Bytes}
    (hfile : disk (c.idBuffer i) = some content) :
    ∃ qs m cache, Returns (answer index disk) (getReqContainer i c) qs
        { c with
          containerArray := Function.update c.containerArray i m, containerCache := cache } ∧
      sent qs = [] ∧ Holds m 0 content ∧ cache.Agrees disk ∧
      cache.cacheSize = c.containerCache.cacheSize := by
  cases hit : c.containerCache.existsInCache (c.idBuffer i) with
  | true =>
    obtain ⟨m,cache,hread,hm,hagrees⟩ := ReadCache.readFromCache_agrees hcache hit hfile
    exact ⟨[],_,cache,returns_cached hit hread,rfl,
      holds_copyPrefix (c.containerArray i) (hsize _ _ hfile) hm,hagrees,
      ReadCache.readFromCache_cacheSize hread⟩
  | false =>
    have hdata := holds_write_self (c.containerArray i) 0 content
    exact ⟨_,_,_,returns_opened hit hfile,rfl,hdata,
      ReadCache.insertToCache_agrees hcache hit hfile le_rfl hdata,
      ReadCache.insertToCache_cacheSize _ _ _ _⟩

theorem returns_fetched (index : Bytes → Option Bytes)
    (hsize : ∀ name content, disk name = some content → content.length ≤ maxContainerSize)
    (c : ClientVar) (hcache : c.containerCache.Agrees disk)
    (hnames : ∀ k < c.idNum, ∃ content, disk (c.idBuffer k) = some content) :
    ∃ qs c', Returns (answer index disk) (getReqContainers c) qs c' ∧
      (sent qs = [] ∧ ∃ array cache,
        c' = { c with containerArray := array, containerCache := cache } ∧
        cache.Agrees disk ∧ cache.cacheSize = c.containerCache.cacheSize ∧
        ∀ k < c.idNum, ∀ content, disk (c.idBuffer k) = some content → Holds (array k) 0 content) := by
  refine returns_forRange (I := fun i c' tr => sent tr = [] ∧ ∃ array cache,
    c' = { c with containerArray := array, containerCache := cache } ∧
    cache.Agrees disk ∧ cache.cacheSize = c.containerCache.cacheSize ∧
    ∀ k < i, ∀ content, disk (c.idBuffer k) = some content → Holds (array k) 0 content) ?_ ?_
  · exact ⟨rfl,c.containerArray,c.containerCache,rfl,hcache,rfl,by simp⟩
  · rintro i c' tr hi ⟨htr,array,cache,rfl,hagrees,hslots,harray⟩
    obtain ⟨content,hfile⟩ := hnames i hi
    obtain ⟨qs,m,cache',hret,hsent,hm,hagrees',hslots'⟩ := returns_getReqContainer index hsize
      (c := { c with containerArray := array, containerCache := cache }) hagrees hfile
    refine ⟨qs,_,hret,by rw [sent_append,htr,hsent,List.append_nil],_,cache',rfl,hagrees',
      hslots'.trans hslots,?_⟩
    -- the earlier slots stay as they are
    intro k hk other hother
    by_cases hki : k = i
    · subst hki
      obtain rfl : content = other := Option.some.inj (hfile.symm.trans hother)
      simpa using hm
    · rw [Function.update_of_ne hki]
      exact harray k (by omega) other hother

theorem onDisk_eq_some {name content : Bytes} (h : onDisk files name = some content) :
    ∃ ps, files name = some ps ∧ content = image ps := by
  obtain ⟨ps,hps,hcontent⟩ := Option.map_eq_some_iff.mp h
  exact ⟨ps,hps,hcontent.symm⟩

theorem onDisk_size (h : Placed index files) :
    ∀ name content, onDisk files name = some content → content.length ≤ maxContainerSize := by
  intro name content hcontent
  obtain ⟨ps,hps,rfl⟩ := onDisk_eq_some hcontent
  exact Nat.le_of_lt (h.size _ ps hps)

theorem returns_getReqContainers (hstore : Placed index files) (c : ClientVar)
    (hcache : c.containerCache.Agrees (onDisk files))
    (hnames : ∀ k < c.idNum, ∃ ps, files (c.idBuffer k) = some ps) :
    ∃ qs c', Returns (answer index (onDisk files)) (getReqContainers c) qs c' ∧
      (sent qs = [] ∧ ∃ array cache,
        c' = { c with containerArray := array, containerCache := cache } ∧
        cache.Agrees (onDisk files) ∧
        ∀ k < c.idNum, ∀ ps, files (c.idBuffer k) = some ps → Holds (array k) 0 (image ps)) := by
  have hfile : ∀ name ps, files name = some ps → onDisk files name = some (image ps) := by
    intro name ps hps
    rw [onDisk,hps,Option.map_some]
  obtain ⟨qs,c',hret,hsent,array,cache,hc',hagrees,_,harray⟩ := returns_fetched index
    (onDisk_size hstore) c hcache fun k hk => by
      obtain ⟨ps,hps⟩ := hnames k hk
      exact ⟨_,hfile _ ps hps⟩
  exact ⟨qs,c',hret,hsent,array,cache,hc',hagrees,fun k hk ps hps => harray k hk _ (hfile _ ps hps)⟩

/-- The send buffer holds the chunks `pend`, which have not been sent. -/
structure Sending (clientID : ℕ) (buf : SendMsgBuffer) (pend : List Bytes) : Prop where
  client : buf.header.clientID = clientID
  items : buf.header.currentItemNum = pend.length
  size : buf.header.dataSize = (encodeChunks pend).length
  bytes : Holds buf.dataBuffer 0 (encodeChunks pend)
  small : ∀ d ∈ pend, d.length ≤ maxChunkSize

theorem sending_recover {buf : SendMsgBuffer} {pend : List Bytes} (h : Sending clientID buf pend)
    (hroom : pend.length < sendChunkBatchSize) {e : DownloadChunkEntry} {m : Mem UInt8} {d : Bytes}
    (hd : read m e.chunkOffset e.chunkSize = d) (hsmall : d.length ≤ maxChunkSize) :
    Sending clientID (recoverOneChunk e m buf) (pend ++ [d]) := by
  have hsize : e.chunkSize = d.length := by rw [← hd,read_length]
  have hbound := encodeChunks_length_le h.small
  have hone : encodeChunks [d] = leBytes d.length ++ d := by simp [encodeChunks]
  have htotal : buf.header.dataSize+(4+d.length) < 2^32 := by
    rw [h.size]
    simp only [sendChunkBatchSize,maxChunkSize] at hroom hsmall hbound
    omega
  refine ⟨h.client,?_,?_,?_,?_⟩
  · have hitems := h.items
    simp only [recoverOneChunk,hitems,List.length_append,List.length_singleton]
    simp only [sendChunkBatchSize] at hroom
    exact u32_of_lt (by omega)
  · simp only [recoverOneChunk,hsize,u32_of_lt htotal]
    rw [encodeChunks_append,hone,h.size]
    simp
  · -- the length field lands behind the buffered chunks, the data behind the length
    have hlen := read_write_append buf.dataBuffer buf.header.dataSize (leBytes d.length)
    have hdata := read_write_append (write buf.dataBuffer buf.header.dataSize (leBytes d.length))
      (buf.header.dataSize+4) d
    have hold : read buf.dataBuffer 0 buf.header.dataSize = encodeChunks pend := by
      rw [h.size]
      exact h.bytes
    rw [leBytes_length,hold] at hlen
    rw [hlen] at hdata
    rw [hsize] at hd
    simp only [recoverOneChunk,hsize,hd]
    unfold Holds
    rw [encodeChunks_append,hone]
    simp only [List.length_append,leBytes_length]
    rw [← h.size,← Nat.add_assoc,hdata,List.append_assoc]
  · intro e he
    rcases List.mem_append.mp he with hold | hnew
    · exact h.small e hold
    · obtain rfl := List.mem_singleton.mp hnew
      exact hsmall

def emptied (buf : SendMsgBuffer) : SendMsgBuffer :=
  { buf with header := { buf.header with
    messageType := .cloudSendChunk, dataSize := 0, currentItemNum := 0 } }

theorem sending_emptied {buf : SendMsgBuffer} {pend : List Bytes} (h : Sending clientID buf pend) :
    Sending clientID (emptied buf) [] :=
  ⟨h.client,rfl,rfl,holds_nil _ _,by simp⟩

theorem returns_flushChunks {c : ClientVar} {pend : List Bytes}
    (h : Sending clientID c.sendChunkBuf pend) :
    Returns (answer index disk) (flushChunks c) [.sendData (chunkMessage clientID pend)]
      { c with sendChunkBuf := emptied c.sendChunkBuf } := by
  have hmsg : (⟨{ c.sendChunkBuf.header with messageType := .cloudSendChunk },
      read c.sendChunkBuf.dataBuffer 0 c.sendChunkBuf.header.dataSize⟩ : Message) =
      chunkMessage clientID pend := by
    have hbytes := h.bytes
    unfold Holds at hbytes
    rw [h.size,hbytes,chunkMessage,← h.client,← h.items,← h.size]
  have hsend : Returns (answer index disk) (sendData (chunkMessage clientID pend))
      [.sendData (chunkMessage clientID pend)] () := returns_request rfl
  unfold flushChunks sendBatchChunks
  simp only [hmsg]
  exact returns_bind hsend (returns_pure _)

/-- The messages `ms` carry full batches, and the buffer the chunks after them. -/
structure Stream (clientID : ℕ) (ms : List Message) (buf : SendMsgBuffer) (gs : List (List Bytes))
    (pend : List Bytes) : Prop where
  messages : ms = gs.map (chunkMessage clientID)
  full : ∀ g ∈ gs, g.length = sendChunkBatchSize
  small : ∀ g ∈ gs, ∀ d ∈ g, d.length ≤ maxChunkSize
  room : pend.length < sendChunkBatchSize
  sending : Sending clientID buf pend

def Restored (index : Bytes → Option Bytes) (files : Bytes → Option (List Pair)) (fps : List Bytes)
    (clientID k : ℕ) (ms : List Message) (buf : SendMsgBuffer) : Prop :=
  ∃ gs pend, Stream clientID ms buf gs pend ∧
    (gs.flatten ++ pend).map some = (fps.take k).map (chunkOf index files)

/-- Entries that differ at most in the offset and size that the restore loop sets. -/
def SameEntry (e e' : DownloadChunkEntry) : Prop :=
  e'.chunkHash = e.chunkHash ∧ e'.containerName = e.containerName ∧ e'.containerID = e.containerID

def placed (e : DownloadChunkEntry) (r : RestoreIndexEntry) : DownloadChunkEntry :=
  { e with chunkOffset := r.offset, chunkSize := r.length }

def recovered (c : ClientVar) (k : ℕ) (r : RestoreIndexEntry) : ClientVar :=
  let entry := placed (c.downloadChunkBase k) r
  { c with
    downloadChunkBase := Function.update c.downloadChunkBase k entry
    sendChunkBuf := recoverOneChunk entry (c.containerArray entry.containerID) c.sendChunkBuf }

theorem recoverEntry_eq {c : ClientVar} {k : ℕ} {table : RestoreIndex} {r : RestoreIndexEntry}
    (h : table.lookup (c.downloadChunkBase k).chunkHash = some r) :
    recoverEntry table k c =
      if (recovered c k r).sendChunkBuf.header.currentItemNum % sendChunkBatchSize = 0 then
        flushChunks (recovered c k r)
      else pure (recovered c k r) := by
  unfold recoverEntry
  simp only [h]
  rfl

theorem returns_recoverEntry {c : ClientVar} {k : ℕ} {ms : List Message} {fp d : Bytes}
    {table : RestoreIndex} {r : RestoreIndexEntry}
    (hdone : Restored index files fps clientID k ms c.sendChunkBuf) (hfp : fps[k]? = some fp)
    (hhash : (c.downloadChunkBase k).chunkHash = fp) (hchunk : chunkOf index files fp = some d)
    (hsmall : d.length ≤ maxChunkSize) (htable : table.lookup fp = some r)
    (hdata : read (c.containerArray (c.downloadChunkBase k).containerID) r.offset r.length = d) :
    ∃ qs buf, Returns (answer index disk) (recoverEntry table k c) qs
        { recovered c k r with sendChunkBuf := buf } ∧
      Restored index files fps clientID (k+1) (ms ++ sent qs) buf := by
  obtain ⟨gs,pend,hstream,hcontent⟩ := hdone
  have hsending : Sending clientID (recovered c k r).sendChunkBuf (pend ++ [d]) :=
    sending_recover hstream.sending hstream.room hdata hsmall
  have hcontent' : (gs.flatten ++ (pend ++ [d])).map some =
      (fps.take (k+1)).map (chunkOf index files) := by
    rw [← List.append_assoc,List.map_append,hcontent,List.take_add_one,hfp]
    simp [hchunk]
  have hitems := hsending.items
  have hroom := hstream.room
  simp only [List.length_append,List.length_singleton] at hitems
  rw [recoverEntry_eq (hhash ▸ htable),hitems]
  by_cases hfull : pend.length+1 = sendChunkBatchSize
  · rw [if_pos (by rw [hfull]; decide)]
    refine ⟨_,_,returns_flushChunks hsending,gs ++ [pend ++ [d]],[],?_,by simpa using hcontent'⟩
    refine ⟨?_,?_,?_,by simp [sendChunkBatchSize],sending_emptied hsending⟩
    · rw [hstream.messages,List.map_append]
      rfl
    · intro g hg
      rcases List.mem_append.mp hg with hold | hnew
      · exact hstream.full g hold
      · rw [List.mem_singleton.mp hnew,List.length_append,List.length_singleton,hfull]
    · intro g hg
      rcases List.mem_append.mp hg with hold | hnew
      · exact hstream.small g hold
      · rw [List.mem_singleton.mp hnew]
        exact hsending.small
  · have hmod : (pend.length+1) % sendChunkBatchSize ≠ 0 := by
      rw [Nat.mod_eq_of_lt (by omega)]
      omega
    rw [if_neg hmod]
    refine ⟨[],_,returns_pure _,gs,pend ++ [d],?_,hcontent'⟩
    refine ⟨by simp [hstream.messages],hstream.full,hstream.small,?_,hsending⟩
    simp only [List.length_append,List.length_singleton]
    omega

/-- The entries from `startEntry` to `i` belong to the group being collected: each has
the number of its container, and the buffer of names lists those containers once. -/
structure Collected (index : Bytes → Option Bytes) (files : Bytes → Option (List Pair))
    (fps : List Bytes) (i : ℕ) (p : Pass) : Prop where
  entries : LookedUp index fps fps.length p.client.downloadChunkBase
  start : p.startEntry ≤ i
  capped : p.client.idNum ≤ containerCappingValue
  table : ∀ name k, p.tmpContainerMap.lookup name = some k ↔
    k < p.client.idNum ∧ p.client.idBuffer k = name
  names : ∀ k < p.client.idNum, ∃ fp, index fp = some (p.client.idBuffer k)
  slots : ∀ j, p.startEntry ≤ j → j < i →
    (p.client.downloadChunkBase j).containerID < p.client.idNum ∧
    p.client.idBuffer (p.client.downloadChunkBase j).containerID =
      (p.client.downloadChunkBase j).containerName
  cache : p.client.containerCache.Agrees (onDisk files)

theorem lookedUp_update {n i : ℕ} {base : Mem DownloadChunkEntry} {e : DownloadChunkEntry}
    (h : LookedUp index fps n base) (hhash : e.chunkHash = (base i).chunkHash)
    (hname : e.containerName = (base i).containerName) :
    LookedUp index fps n (Function.update base i e) := by
  intro j fp hfp hj
  by_cases hji : j = i
  · subst hji
    simpa [hhash,hname] using h j fp hfp hj
  · simpa [hji] using h j fp hfp hj

def joined (p : Pass) (i k : ℕ) : Pass :=
  { p with
    client.downloadChunkBase := Function.update p.client.downloadChunkBase i
      { p.client.downloadChunkBase i with containerID := k } }

def extended (p : Pass) (i : ℕ) : Pass where
  client := { (joined p i p.client.idNum).client with
    idBuffer := Function.update p.client.idBuffer p.client.idNum
      (p.client.downloadChunkBase i).containerName
    idNum := p.client.idNum+1 }
  tmpContainerMap := p.tmpContainerMap.insert (p.client.downloadChunkBase i).containerName
    p.client.idNum
  startEntry := p.startEntry

theorem collected_joined {i k : ℕ} {p : Pass} (h : Collected index files fps i p)
    (hlt : k < p.client.idNum)
    (hslot : p.client.idBuffer k = (p.client.downloadChunkBase i).containerName) :
    Collected index files fps (i+1) (joined p i k) where
  entries := lookedUp_update h.entries rfl rfl
  start := Nat.le_succ_of_le h.start
  capped := h.capped
  table := h.table
  names := h.names
  slots := by
    intro j hj hji
    by_cases heq : j = i
    · subst heq
      simpa [joined] using ⟨hlt,hslot⟩
    · simpa [joined,heq] using h.slots j hj (by omega)
  cache := h.cache

theorem collected_extended {i : ℕ} {p : Pass} (h : Collected index files fps i p)
    (hroom : p.client.idNum < containerCappingValue) {fp : Bytes}
    (hname : index fp = some (p.client.downloadChunkBase i).containerName)
    (hnew : p.tmpContainerMap.lookup (p.client.downloadChunkBase i).containerName = none) :
    Collected index files fps (i+1) (extended p i) := by
  have hfresh : ∀ k < p.client.idNum,
      p.client.idBuffer k ≠ (p.client.downloadChunkBase i).containerName := by
    intro k hlt heq
    have := (h.table _ k).mpr ⟨hlt,heq⟩
    simp [hnew] at this
  refine ⟨lookedUp_update h.entries rfl rfl,Nat.le_succ_of_le h.start,hroom,?_,?_,?_,h.cache⟩
  · intro name k
    by_cases hn : name = (p.client.downloadChunkBase i).containerName
    · subst hn
      simp only [extended,Finmap.lookup_insert,Option.some.injEq]
      constructor
      · rintro rfl
        exact ⟨Nat.lt_succ_self _,Function.update_self _ _ _⟩
      · rintro ⟨hlt,heq⟩
        by_contra hne
        rw [Function.update_of_ne (Ne.symm hne)] at heq
        exact hfresh k (by omega) heq
    · simp only [extended,Finmap.lookup_insert_of_ne _ hn,h.table]
      constructor
      · rintro ⟨hlt,heq⟩
        exact ⟨Nat.lt_succ_of_lt hlt,by rw [Function.update_of_ne (Nat.ne_of_lt hlt),heq]⟩
      · rintro ⟨hlt,heq⟩
        have hne : k ≠ p.client.idNum := by
          rintro rfl
          rw [Function.update_self] at heq
          exact hn heq.symm
        rw [Function.update_of_ne hne] at heq
        exact ⟨by omega,heq⟩
  · intro k hlt
    by_cases hke : k = p.client.idNum
    · subst hke
      exact ⟨fp,by simpa [extended] using hname⟩
    · have hlt' : k < p.client.idNum+1 := hlt
      simpa [extended,hke] using h.names k (by omega)
  · intro j hj hji
    by_cases heq : j = i
    · subst heq
      simp [extended,joined]
    · obtain ⟨hlt,hslot⟩ := h.slots j hj (by omega)
      simp only [extended,joined,Function.update_of_ne heq,Function.update_of_ne (Nat.ne_of_lt hlt)]
      exact ⟨Nat.lt_succ_of_lt hlt,hslot⟩

/-- The next entry joins the group, with a new container only if there is room. -/
theorem returns_assignContainer {i : ℕ} {p : Pass} (h : Collected index files fps i p)
    (hi : i < fps.length) (hroom : p.client.idNum < containerCappingValue) :
    ∃ p', Returns (answer index disk) (assignContainer i p) [] p' ∧
      Collected index files fps (i+1) p' ∧ p'.startEntry = p.startEntry ∧
      p'.client.sendChunkBuf = p.client.sendChunkBuf := by
  obtain ⟨_,hname⟩ := h.entries i fps[i] (List.getElem?_eq_getElem hi) hi
  unfold assignContainer
  cases hk : p.tmpContainerMap.lookup (p.client.downloadChunkBase i).containerName with
  | some k =>
    obtain ⟨hlt,hslot⟩ := (h.table _ k).mp hk
    simp only [hk]
    exact ⟨joined p i k,returns_pure _,collected_joined h hlt hslot,rfl,rfl⟩
  | none =>
    simp only [hk,if_pos hroom]
    exact ⟨extended p i,returns_pure _,collected_extended h hroom hname hk,rfl,rfl⟩

/-- The table of a group leads every entry of the group to its chunk. -/
theorem group_lookup (hstore : Placed index files) {i j : ℕ} {p : Pass} {fp : Bytes}
    (h : Collected index files fps i p) (hj : p.startEntry ≤ j) (hji : j < i)
    (hfp : fps[j]? = some fp) {array : Mem (Mem UInt8)}
    (harray : ∀ k < p.client.idNum, ∀ ps, files (p.client.idBuffer k) = some ps →
      Holds (array k) 0 (image ps)) :
    ∃ d r, chunkOf index files fp = some d ∧
      (indexConstruct ∅ array p.client.idNum).lookup fp = some r ∧
      read (array (p.client.downloadChunkBase j).containerID) r.offset r.length = d := by
  have hfile : ∀ k < p.client.idNum, ∃ ps, files (p.client.idBuffer k) = some ps := by
    intro k hk
    obtain ⟨fp',hfp'⟩ := h.names k hk
    obtain ⟨ps,hps,_⟩ := hstore.located _ _ hfp'
    exact ⟨ps,hps⟩
  have hG : ∀ k < p.client.idNum, files (p.client.idBuffer k) =
      some ((files (p.client.idBuffer k)).getD []) := by
    intro k hk
    obtain ⟨ps,hps⟩ := hfile k hk
    rw [hps]
    rfl
  obtain ⟨hlt,hslot⟩ := h.slots j hj hji
  have hjn := (List.getElem?_eq_some_iff.mp hfp).1
  obtain ⟨_,hindex⟩ := h.entries j fp hfp hjn
  obtain ⟨ps,d,hps,hd,hchunk⟩ := hstore.chunk hindex
  rw [← hslot] at hps
  have hGs := hG _ hlt
  rw [hps] at hGs
  -- a container of the group that has the fingerprint has the entry's name
  have hone : ∀ k < p.client.idNum, fp ∈ ((files (p.client.idBuffer k)).getD []).map Prod.fst →
      k = (p.client.downloadChunkBase j).containerID := by
    intro k hk hin
    have hname := hstore.unique _ _ _ _ fp (hG k hk) hps hin (List.mem_map_of_mem hd)
    have hk' := (h.table _ k).mpr ⟨hk,rfl⟩
    have hs' := (h.table _ _).mpr ⟨hlt,rfl⟩
    rw [hname,hs'] at hk'
    exact (Option.some.inj hk').symm
  obtain ⟨r,hr,hread⟩ := indexConstruct_lookup
    (G := fun k => (files (p.client.idBuffer k)).getD [])
    (fun k hk => hstore.hashed _ _ (hG k hk)) (fun k hk => hstore.size _ _ (hG k hk))
    (fun k hk => harray k hk _ (hG k hk)) hlt hone (by simpa [hps] using hstore.nodup _ _ hps)
    (by simpa [hps] using hd)
  exact ⟨d,r,hchunk,hr,hread⟩

end Restore
end CloudServer
