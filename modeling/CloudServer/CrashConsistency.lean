import CloudServer.Threads
import CloudServer.Generations

/-! What is left after any number of exits, interrupts and restarts. The db file always
stands for a world at rest, the past: its index is that world's index, and its files are
in the container directory. While a process runs, its uploads and the past together obey
the invariant of one lifetime. -/
namespace CloudServer
namespace CrashConsistency

open ByteMemory Execution ContainerFormat PlainIndex Database Lifecycle Threads Generations
  RestoreTable RestoreStream RoundTrip
open Interaction Interaction.Prog
open Uploads (World Session)
open UploadInvariant (Inv)
open DataWriter (Disk DiskFile)
open RecvDecoder (Message initDownloadChunkBuffer)
open Durability (demoSetting demoMemory uploadAll writerSteps)

/-- The db file and the directory hold the past `C`. -/
structure Saved (S : Setting) (T : Set Bytes) (p : Process) (C : World) : Prop where
  inv : Inv S.digest S.uuid T C
  rest : Quiescent C
  files : Beneath C.disk p.world.disk
  drawn : C.shared.drawn ≤ p.world.shared.drawn
  loads : openDB p.dbFile = .ok C.shared.indexStore

/-- The running process has `C` behind it. The directory `d` leaves out what lost
processes have written. -/
structure Follows (S : Setting) (T : Set Bytes) (p : Process) (C : World) (d : Disk) : Prop where
  inv : Inv S.digest S.uuid T (joint p.world d C.sessions)
  files : Beneath d p.world.disk
  index : ∀ fp name, C.index fp = some name → p.world.index fp = some name

def Intact (S : Setting) (T : Set Bytes) (p : Process) : Prop :=
  ∃ C, Saved S T p C ∧ (p.status = .running → ∃ d, Follows S T p C d)

variable {S : Setting} {T : Set Bytes} {p q : Process} {e : Event} {C : World} {d : Disk}

theorem intact_start : Intact S T start := by
  have hempty : joint Uploads.empty Uploads.empty.disk Uploads.empty.sessions = Uploads.empty := by
    simp [joint,Uploads.empty]
  refine ⟨Uploads.empty,⟨UploadInvariant.inv_empty _ _ _,?_,beneath_refl _,le_rfl,rfl⟩,fun _ => ?_⟩
  · simp [Quiescent,Uploads.empty]
  · refine ⟨Uploads.empty.disk,?_,beneath_refl _,fun _ _ h => h⟩
    change Inv S.digest S.uuid T (joint Uploads.empty Uploads.empty.disk Uploads.empty.sessions)
    rw [hempty]
    exact UploadInvariant.inv_empty _ _ _

theorem Saved.same (h : Saved S T p C) (hw : q.world = p.world) (hdb : q.dbFile = p.dbFile) :
    Saved S T q C :=
  ⟨h.inv,h.rest,hw ▸ h.files,hw ▸ h.drawn,hdb ▸ h.loads⟩

theorem Follows.same (h : Follows S T p C d) (hw : q.world = p.world) : Follows S T q C d :=
  ⟨hw ▸ h.inv,hw ▸ h.files,hw ▸ h.index⟩

/-- The files of the past outlast what the running process does. -/
theorem Saved.follow (h : Saved S T p C) (hq : Follows S T q C d) (hdb : q.dbFile = p.dbFile)
    (hdrawn : p.world.shared.drawn ≤ q.world.shared.drawn) : Saved S T q C :=
  ⟨h.inv,h.rest,(beneath_joint h.inv h.rest hq.inv).trans hq.files,h.drawn.trans hdrawn,
    hdb ▸ h.loads⟩

theorem drawn_step (h : step S p e = some q) : p.world.shared.drawn ≤ q.world.shared.drawn := by
  cases happens_of_step h with
  | upload hgo hw => exact UploadInvariant.drawn_mono (Uploads.takes_of_step hw)
  | buffer b hgo hs hlive hidle hw => exact hw ▸ le_rfl
  | other hgo hw => exact hw ▸ le_rfl
  | exits hp hq hw => exact hw ▸ le_rfl
  | saves order hp hq hw => exact hw ▸ le_rfl
  | starts m hp hq hm hdb hw => simp [hw]

theorem intact_saves {order : Order} (hC : Saved S T p C) (hd : Follows S T p C d)
    (hlisted : Listed p) (hsound : Durability.Sound p) (hp : p.status = .running)
    (hq : q.status = .ended) (hw : q.world = p.world) (hjoined : p.thList = [])
    (horder : order.toFinmap = p.world.shared.indexStore)
    (hdb : q.dbFile = some (saveDB order)) : Intact S T q := by
  have hloads := (Durability.saved_loads (hsound.running hp) horder hdb).1
  refine ⟨joint p.world d C.sessions,⟨hd.inv,?_,hw ▸ hd.files,hw ▸ le_rfl,?_⟩,by simp [hq]⟩
  · exact quiescent_joint (quiescent_of_joined hlisted hjoined) hC.rest
  · rw [hloads,horder]
    rfl

theorem intact_starts {m : Index} (hC : Saved S T p C) (hm : openDB p.dbFile = .ok m)
    (hdb : q.dbFile = p.dbFile)
    (hw : q.world = ⟨⟨m,p.statFile.1,p.statFile.2,p.world.shared.drawn⟩,p.world.disk,
      fun _ => none⟩) : Intact S T q := by
  obtain rfl := Except.ok.inj (hm.symm.trans hC.loads)
  refine ⟨C,⟨hC.inv,hC.rest,?_,?_,hdb ▸ hC.loads⟩,fun _ => ⟨C.disk,?_,?_,?_⟩⟩
  · rw [hw]
    exact hC.files
  · rw [hw]
    exact hC.drawn
  · rw [hw]
    refine inv_restart hC.inv hC.rest ?_ ?_ _
    · rfl
    · exact hC.drawn
  · rw [hw]
    exact hC.files
  · intro fp name hfp
    rw [hw]
    exact hfp

theorem follows_step (hC : Saved S T p C) (hd : Follows S T p C d) (hp : p.status = .running)
    (hq : q.status = .running) (he : Admitted T e) (hstep : step S p e = some q)
    (hid : Set.InjOn S.uuid {n | n < q.world.shared.drawn}) :
    Saved S T q C ∧ ∃ d', Follows S T q C d' := by
  have hdrawn := drawn_step hstep
  cases happens_of_step hstep with
  | upload hgo hw hadm =>
    obtain ⟨d',hinv,hfiles⟩ := inv_joint_step hd.inv hd.files (hadm T he) hw hid
    have hindex : ∀ fp name, C.index fp = some name → q.world.index fp = some name :=
      fun fp name hfp =>
        UploadInvariant.index_step (Uploads.takes_of_step hw) (hd.index fp name hfp)
    have hq : Follows S T q C d' := ⟨hinv,hfiles,hindex⟩
    exact ⟨hC.follow hq hgo.dbFile hdrawn,d',hq⟩
  | buffer b hgo hs hlive hidle hw =>
    have hq : Follows S T q C d := by
      refine ⟨?_,?_,?_⟩ <;> rw [hw]
      · exact inv_joint_buffer hd.inv hs hidle b
      · exact hd.files
      · exact hd.index
    exact ⟨hC.follow hq hgo.dbFile hdrawn,d,hq⟩
  | other hgo hw => exact ⟨hC.same hw hgo.dbFile,d,hd.same hw⟩
  | exits _ hended => simp [hended] at hq
  | saves _ _ hended => simp [hended] at hq
  | starts m hended => simp [hended] at hp

theorem intact_step (h : Intact S T p) (hlisted : p.status = .running → Listed p)
    (hsound : Durability.Sound p) (he : Admitted T e) (hstep : step S p e = some q)
    (hid : Set.InjOn S.uuid {n | n < q.world.shared.drawn}) : Intact S T q := by
  obtain ⟨C,hC,hrun⟩ := h
  have hgoes : p.status = .running → q.status = .running → Intact S T q := by
    intro hp hq
    obtain ⟨d,hd⟩ := hrun hp
    obtain ⟨hC',hd'⟩ := follows_step hC hd hp hq he hstep hid
    exact ⟨C,hC',fun _ => hd'⟩
  cases happens_of_step hstep with
  | upload hgo => exact hgoes hgo.before hgo.after
  | buffer b hgo => exact hgoes hgo.before hgo.after
  | other hgo => exact hgoes hgo.before hgo.after
  | exits hp hq hw hdb => exact ⟨C,hC.same hw hdb,by simp [hq]⟩
  | saves order hp hq hw hjoined horder hdb =>
    obtain ⟨d,hd⟩ := hrun hp
    exact intact_saves hC hd (hlisted hp) hsound hp hq hw hjoined horder hdb
  | starts m hp hq hm hdb hw => exact intact_starts hC hm hdb hw

structure Reached (S : Setting) (T : Set Bytes) (p : Process) : Prop where
  sound : Durability.Sound p
  listed : p.status = .running → Listed p
  intact : Set.InjOn S.uuid {n | n < p.world.shared.drawn} → Intact S T p

theorem reached_step (h : Reached S T p) (he : Admitted T e) (hstep : step S p e = some q) :
    Reached S T q := by
  refine ⟨Durability.sound_step h.sound hstep,listed_step h.listed hstep,fun hid => ?_⟩
  have hmono := drawn_step hstep
  have hbefore := h.intact (hid.mono fun n hn => Nat.lt_of_lt_of_le hn hmono)
  exact intact_step hbefore h.listed h.sound he hstep hid

theorem reached_exec {es : List Event} (h : Exec (step S) p es q) (hp : Reached S T p)
    (hes : ∀ e ∈ es, Admitted T e) : Reached S T q :=
  h.invariant (fun _ _ _ hp he hstep => reached_step hp he hstep) hp hes

theorem reached_start : Reached S T start :=
  ⟨Durability.sound_start,fun _ => listed_start,fun _ => intact_start⟩

/-- The named container file is complete, and the decoder finds a chunk of `T` with this
fingerprint in it. -/
def Backed (S : Setting) (T : Set Bytes) (p : Process) (fp name : Bytes) : Prop :=
  ∃ f d, p.world.disk name = some f ∧ f.closed = true ∧
    (fp,d) ∈ StorageCore.listChunks (write (fun _ => 0) 0 f.content) ∧
    S.digest.hash d = fp ∧ d ∈ T

theorem backed_of_rest {w : World} (hinv : Inv S.digest S.uuid T w) (hrest : Quiescent w)
    (hfiles : Beneath w.disk p.world.disk) {fp name : Bytes} (hfp : w.index fp = some name) :
    Backed S T p fp name := by
  obtain ⟨ps,hps,hin⟩ := (quiescent_store hinv hrest).located fp name hfp
  obtain ⟨x,hx,rfl⟩ := List.mem_map.mp hin
  obtain ⟨hsound,hdisk,hcontents⟩ := filesOf_eq hinv hrest hps
  have hdigest := (DedupInvariant.contents_consistent hinv).digests _ _ _ hcontents hx
  refine ⟨_,x.2,hfiles _ _ hdisk,rfl,?_,hdigest,(hsound.stored x hx).2⟩
  have hlist : StorageCore.listChunks (write (fun _ => 0) 0 (image ps)) = ps :=
    listChunks_image hsound.hashed (hsound.size.trans (by decide)) (holds_write_self _ 0 _)
  rw [hlist]
  exact hx

theorem Reached.rest (h : Reached S T p) (hp : p.status = .running) (hjoined : p.thList = [])
    (hC : Saved S T p C) : Quiescent (joint p.world d C.sessions) :=
  quiescent_joint (quiescent_of_joined (h.listed hp) hjoined) hC.rest

def twoUploads : Set Bytes := {d | d = [65,65] ∨ d = [66,66]}

theorem injOn_twoUploads : Set.InjOn demoSetting.digest.hash twoUploads := by
  rintro a (rfl | rfl) b (rfl | rfl) hab
  · rfl
  · exact absurd hab (by decide)
  · exact absurd hab (by decide)
  · rfl

theorem injOn_demo {n : ℕ} (hn : n ≤ 256) : Set.InjOn demoSetting.uuid {m | m < n} := by
  intro a ha b hb hab
  have hbyte : UInt8.ofNat a = UInt8.ofNat b := (List.replicate_right_inj (by decide)).mp hab
  exact DedupInvariant.injOn_small_ids hn ha hb (congrArg (fun x => [x]) hbyte)

theorem admitted_uploadAll (i : ℕ) {c : UInt8} (hc : [c,c] ∈ T) :
    ∀ e ∈ uploadAll i c, Admitted T e := by
  have hchunks : UploadInvariant.Admitted T (.message i 1 (encodeChunks [[c,c]])) :=
    ⟨[[c,c]],rfl,rfl,by simpa [maxChunkSize] using hc⟩
  simp only [uploadAll,writerSteps,List.cons_append,List.nil_append,List.forall_mem_cons]
  refine ⟨rfl,fun _ _ => hchunks,trivial,?_,trivial,trivial,trivial,trivial,trivial,trivial,trivial,
    trivial,trivial,trivial,trivial,trivial,trivial,by simp⟩
  intro htype
  simp at htype

def oneEntry : Order :=
  ⟨[⟨demoSetting.digest.hash [65,65],List.replicate 8 0⟩],by simp [List.NodupKeys,List.keys]⟩

/-- One upload is saved; in the next lifetime a second one is lost with its process. -/
def lostUpload : List Event :=
  uploadAll 0 65 ++ [.interrupt oneEntry,.restart] ++ (uploadAll 1 66).take 3 ++ [.handshakeFails]

theorem admitted_lostUpload : ∀ e ∈ lostUpload, Admitted twoUploads e := by
  have hfirst := admitted_uploadAll (T := twoUploads) 0 (Or.inl rfl : [65,65] ∈ twoUploads)
  have hsecond := admitted_uploadAll (T := twoUploads) 1 (Or.inr rfl : [66,66] ∈ twoUploads)
  intro e he
  simp only [lostUpload,List.mem_append,List.mem_cons,List.not_mem_nil,or_false] at he
  rcases he with ((h | rfl | rfl) | h) | rfl
  · exact hfirst e h
  · trivial
  · trivial
  · exact hsecond e (List.mem_of_mem_take h)
  · trivial

/-- Crash consistency. After any number of exits, interrupts and restarts, at any moment,
the db file can be loaded, every fingerprint in it leads to a complete container file with
a chunk of this fingerprint, and a restart of an ended process finds these files. A running
process knows at least these fingerprints; when no connection is open, all that it knows
are backed in the same way. -/
theorem crash_consistency (S : Setting) (T : Set Bytes) (es : List Event) (p : Process)
    (h : Exec (step S) start es p) (hes : ∀ e ∈ es, Admitted T e)
    (hid : Set.InjOn S.uuid {n | n < p.world.shared.drawn}) :
    ∃ m, openDB p.dbFile = .ok m ∧
      (∀ fp name, m.lookup fp = some name → Backed S T p fp name) ∧
      (p.status = .ended → ∃ q, step S p .restart = some q ∧ q.world.shared.indexStore = m ∧
        q.world.disk = p.world.disk) ∧
      (p.status = .running → (∀ fp name, m.lookup fp = some name → p.world.index fp = some name) ∧
        (p.thList = [] → ∀ fp name, p.world.index fp = some name → Backed S T p fp name)) := by
  have hp := reached_exec h reached_start hes
  obtain ⟨C,hC,hrun⟩ := hp.intact hid
  refine ⟨C.shared.indexStore,hC.loads,?_,?_,?_⟩
  · exact fun fp name hfp => backed_of_rest hC.inv hC.rest hC.files hfp
  · intro hended
    rw [step_restart S hended]
    exact ⟨_,restart_eq_some.mpr ⟨_,hC.loads,rfl⟩,rfl,rfl⟩
  · intro hrunning
    obtain ⟨d,hd⟩ := hrun hrunning
    refine ⟨hd.index,fun hjoined fp name hfp => ?_⟩
    exact backed_of_rest hd.inv (hp.rest hrunning hjoined hC) hd.files hfp

/-- The db file has the saved upload, with its container, and not the lost one. -/
theorem crash_consistency_lost_upload :
    ∃ p m, Exec (step demoSetting) start lostUpload p ∧ openDB p.dbFile = .ok m ∧
      m.lookup (demoSetting.digest.hash [66,66]) = none ∧
      Backed demoSetting twoUploads p (demoSetting.digest.hash [65,65]) (List.replicate 8 0) := by
  have hrun : (run (step demoSetting) start lostUpload).map (fun p =>
      (p.world.shared.drawn,(openDB p.dbFile).toOption.map fun m =>
        (m.lookup (demoSetting.digest.hash [65,65]),m.lookup (demoSetting.digest.hash [66,66])))) =
      some (2,some (some (List.replicate 8 0),none)) := by decide +kernel
  obtain ⟨p,hp,hobs⟩ := Exec.of_run_map _ hrun
  obtain ⟨hdrawn,hdb⟩ := Prod.mk.inj hobs
  obtain ⟨m,hm,hbacked,_⟩ := crash_consistency demoSetting twoUploads lostUpload p hp
    admitted_lostUpload (injOn_demo (by omega))
  simp only [hm,Except.toOption,Option.map_some,Option.some.injEq,Prod.mk.injEq] at hdb
  exact ⟨p,m,hp,hm,hdb.2,hbacked _ _ hdb.1⟩

theorem answer_mono {index disk disk' : Bytes → Option Bytes}
    (hdisk : ∀ name content, disk name = some content → disk' name = some content)
    (q : RecvDecoder.Request) (r : RecvDecoder.Reply q) (h : answer index disk q = .ok r) :
    answer index disk' q = .ok r := by
  cases q with
  | readIndexStore key => exact h
  | sendData m => exact h
  | openContainer name =>
    cases hname : disk name with
    | none => simp [answer,hname] at h
    | some content =>
      simp only [answer,hname] at h
      simpa only [answer,hdisk name content hname] using h

theorem chunkOf_rest {w : World} (hinv : Inv S.digest S.uuid T w) (hrest : Quiescent w)
    (hcoll : Set.InjOn S.digest.hash T) {c id : Bytes} (hT : c ∈ T)
    (hid : w.index (S.digest.hash c) = some id) :
    chunkOf w.index (filesOf w) (S.digest.hash c) = some c := by
  obtain ⟨ps,d,hps,hin,hchunk⟩ := (quiescent_store hinv hrest).placed.chunk hid
  obtain ⟨hsound,_,hcontents⟩ := filesOf_eq hinv hrest hps
  have hdigest := (DedupInvariant.contents_consistent hinv).digests _ _ _ hcontents hin
  rw [hchunk]
  exact congrArg some (hcoll (hsound.stored _ hin).2 hT hdigest)

/-- The store of a world at rest serves every chunk of `T` that it has indexed. -/
theorem returns_rest {w : World} {index : Bytes → Option Bytes} {disk : Disk}
    (hinv : Inv S.digest S.uuid T w) (hrest : Quiescent w) (hindex : index = w.index)
    (hfiles : Beneath w.disk disk) (hcoll : Set.InjOn S.digest.hash T)
    (hcache : 1 ≤ S.readCacheSize) {batches : List (List Bytes)}
    (hreq : ∀ ds ∈ batches, ds.length ≤ 256 ∧
      ∀ d ∈ ds, d ∈ T ∧ ∃ id, index (S.digest.hash d) = some id)
    {ready : Message} (hready : ready.header.messageType = .edgeReceiveReady)
    (prior : RecvDecoder.ClientVar) (clientID : ℕ) (pool : Mem (Mem UInt8)) :
    ∃ qs c', Returns (answer index fun id => (disk id).map DiskFile.content)
        (RecvDecoder.run ready (batches.map (requestFor S.digest clientID))
          (initDownloadChunkBuffer prior clientID S.readCacheSize pool)) qs c' ∧
      received (Restore.sent qs) = batches.flatten := by
  subst hindex
  have hchunk : ∀ ds ∈ batches, ∀ d ∈ ds,
      chunkOf w.index (filesOf w) (S.digest.hash d) = some d := by
    intro ds hds d hd
    obtain ⟨hT,id,hid⟩ := (hreq ds hds).2 d hd
    exact chunkOf_rest hinv hrest hcoll hT hid
  have hfirst := returns_receiveReady w.index (onDisk (filesOf w)) hready
    (initDownloadChunkBuffer prior clientID S.readCacheSize pool)
  obtain ⟨qs,c',hret,hrec⟩ := returns_requests (quiescent_store hinv hrest)
    (c := { initDownloadChunkBuffer prior clientID S.readCacheSize pool with
      sendChunkBuf := ⟨ready.header,write prior.sendChunkBuf.dataBuffer 0 ready.payload⟩ })
    ⟨rfl,ReadCache.agrees_new _ hcache pool⟩ clientID (fun ds hds => (hreq ds hds).1) hchunk
  have hall := returns_bind hfirst hret
  rw [onDisk_filesOf hinv hrest] at hall
  refine ⟨[]++qs,c',returns_mono (answer_mono ?_) hall,hrec⟩
  intro name content hname
  obtain ⟨f,hf,rfl⟩ := Option.map_eq_some_iff.mp hname
  simp [hfiles name f hf]

/-- Restore works in every lifetime. In every run with exits, interrupts and restarts, when
the process runs and no connection is open, requests for chunks whose fingerprints it knows
are answered with exactly these chunks, in the requested order. -/
theorem restore_in_any_lifetime (S : Setting) (T : Set Bytes) (es : List Event) (p : Process)
    (h : Exec (step S) start es p) (hes : ∀ e ∈ es, Admitted T e)
    (hid : Set.InjOn S.uuid {n | n < p.world.shared.drawn}) (hcoll : Set.InjOn S.digest.hash T)
    (hrun : p.status = .running) (hjoined : p.thList = []) (batches : List (List Bytes))
    (hreq : ∀ ds ∈ batches, ds.length ≤ 256 ∧
      ∀ d ∈ ds, d ∈ T ∧ ∃ id, p.world.index (S.digest.hash d) = some id) (ready : Message)
    (hready : ready.header.messageType = .edgeReceiveReady) (prior : RecvDecoder.ClientVar)
    (clientID : ℕ) (pool : Mem (Mem UInt8)) (hcache : 1 ≤ S.readCacheSize) :
    ∃ qs c', eval (Downloads.serve p.world)
        (RecvDecoder.run ready (batches.map (requestFor S.digest clientID))
          (initDownloadChunkBuffer prior clientID S.readCacheSize pool)) = (qs,.ok c') ∧
      received (Restore.sent qs) = batches.flatten := by
  have hp := reached_exec h reached_start hes
  obtain ⟨C,hC,hliving⟩ := hp.intact hid
  obtain ⟨d,hd⟩ := hliving hrun
  exact returns_rest hd.inv (hp.rest hrun hjoined hC) rfl hd.files hcoll hcache hreq hready prior
    clientID pool

theorem restore_in_any_lifetime_lost_upload :
    ∃ p qs c', Exec (step demoSetting) start (lostUpload ++ [.restart]) p ∧
      eval (Downloads.serve p.world) (RecvDecoder.run ⟨⟨.edgeReceiveReady,4,0,0⟩,[]⟩
        ([[[65,65],[65,65]],[[65,65]]].map (requestFor demoSetting.digest 4))
        (initDownloadChunkBuffer demoMemory.decoder 4 demoSetting.readCacheSize
          demoMemory.pool)) = (qs,.ok c') ∧
      received (Restore.sent qs) = [[65,65],[65,65],[65,65]] := by
  have hrun : (run (step demoSetting) start (lostUpload ++ [.restart])).map (fun p =>
      (p.world.shared.drawn,p.status,p.thList,p.world.index (demoSetting.digest.hash [65,65]))) =
      some (2,.running,[],some (List.replicate 8 0)) := by decide +kernel
  obtain ⟨p,hp,hobs⟩ := Exec.of_run_map _ hrun
  simp only [Prod.mk.injEq] at hobs
  obtain ⟨hdrawn,hrunning,hjoined,hfp⟩ := hobs
  have hadm : ∀ e ∈ lostUpload ++ [.restart], Admitted twoUploads e := by
    intro e he
    rcases List.mem_append.mp he with hlost | hlast
    · exact admitted_lostUpload e hlost
    · rw [List.mem_singleton.mp hlast]
      trivial
  have hknown : [65,65] ∈ twoUploads ∧
      ∃ id, p.world.index (demoSetting.digest.hash [65,65]) = some id := ⟨Or.inl rfl,_,hfp⟩
  obtain ⟨qs,c',heval,hrec⟩ := restore_in_any_lifetime demoSetting twoUploads _ p hp hadm
    (injOn_demo (by omega)) injOn_twoUploads hrunning hjoined [[[65,65],[65,65]],[[65,65]]]
    (by simpa using hknown) ⟨⟨.edgeReceiveReady,4,0,0⟩,[]⟩ rfl demoMemory.decoder 4 demoMemory.pool
    le_rfl
  exact ⟨p,qs,c',hp,heval,hrec⟩

/-- The chunk is indexed, or connection `i` has still to process it; in an ended process,
the db file has it. -/
def Kept (S : Setting) (p : Process) (i : ℕ) (c : Bytes) : Prop :=
  (p.status = .running ∧ UploadInvariant.Covered S.digest p.world i c) ∨
    ∃ name, Durability.Found p (S.digest.hash c) name

theorem covered_buffer {w : World} {i j : ℕ} {s : Session} {c : Bytes} {H : Digest}
    (hs : w.sessions j = some s) (hidle : ¬ s.batch.index < s.batch.chunkNum) (b : Mem UInt8)
    (h : UploadInvariant.Covered H w i c) :
    UploadInvariant.Covered H (w.put j { s with batch := { s.batch with dataBuffer := b } }) i
      c := by
  refine UploadInvariant.covered_start _ (fun t ht => ?_) h
  rwa [← Option.some.inj (hs.symm.trans ht)]

theorem indexed_of_joined {i : ℕ} {c : Bytes} (h : Listed p) (hjoined : p.thList = [])
    (hc : UploadInvariant.Covered S.digest p.world i c) :
    ∃ name, p.world.index (S.digest.hash c) = some name := by
  rcases hc with hindexed | ⟨s,rest,hs,hrest,hin⟩
  · exact hindexed
  · have hidle := (h.paired i s hs).idle (returned_of_joined h hjoined hs).1
    simp [pending_nil_of_idle hrest hidle] at hin

theorem indexed_of_kept {i : ℕ} {c : Bytes} (h : Reached S T p) (hrun : p.status = .running)
    (hjoined : p.thList = []) (hc : Kept S p i c) :
    ∃ name, p.world.index (S.digest.hash c) = some name := by
  rcases hc with ⟨_,hcov⟩ | ⟨name,hfound⟩
  · exact indexed_of_joined (h.listed hrun) hjoined hcov
  · exact ⟨name,(Durability.found_running hrun _ name).mp hfound⟩

theorem kept_step {i : ℕ} {c : Bytes} (h : Reached S T p) (hb : Benign S p e)
    (hstep : step S p e = some q) (hc : Kept S p i c) : Kept S q i c := by
  rcases hc with ⟨hp,hcov⟩ | ⟨name,hfound⟩
  · cases happens_of_step hstep with
    | upload hgo hw =>
      exact Or.inl ⟨hgo.after,UploadInvariant.covered_takes (Uploads.takes_of_step hw) hcov⟩
    | buffer b hgo hs hlive hidle hw =>
      exact Or.inl ⟨hgo.after,hw ▸ covered_buffer hs hidle b hcov⟩
    | other hgo hw => exact Or.inl ⟨hgo.after,hw ▸ hcov⟩
    | exits hp hq hw hdb hbad => exact absurd hb hbad
    | saves order hp hq hw hjoined =>
      obtain ⟨name,hname⟩ := indexed_of_joined (h.listed hp) hjoined hcov
      have hfound := (Durability.found_running hp _ name).mpr hname
      exact Or.inr ⟨name,Durability.found_step h.sound hb hstep hfound⟩
    | starts m hended => simp [hp] at hended
  · exact Or.inr ⟨name,Durability.found_step h.sound hb hstep hfound⟩

def chunkUpload (clientID : ℕ) (chunks : List Bytes) : Message :=
  ⟨⟨.edgeMigrationChunk,clientID,(encodeChunks chunks).length,chunks.length⟩,encodeChunks chunks⟩

theorem kept_of_message {i : ℕ} {m : Message} {chunks : List Bytes}
    (htype : m.header.messageType = .edgeMigrationChunk)
    (hcount : m.header.currentItemNum = chunks.length) (hpayload : m.payload = encodeChunks chunks)
    (hsmall : ∀ d ∈ chunks, d.length ≤ maxChunkSize) (hb : Benign S p (.uploadMessage i (some m)))
    (hstep : step S p (.uploadMessage i (some m)) = some q) {c : Bytes} (hc : c ∈ chunks) :
    Kept S q i c := by
  rcases step_cases hstep with ⟨hp,hperf⟩ | ⟨_,hstart,_⟩
  · cases hperf with
    | exits hbad => exact absurd hb hbad
    | changeFails _ hbad => exact absurd hb hbad
    | uploads he => cases he
    | replies he => exact he.elim
    | message hs hu _ _ hchunk => exact absurd ⟨htype,(hb _ _ hs hu).1⟩ hchunk
    | chunkMessage _ _ _ hw =>
      refine Or.inl ⟨hp,?_⟩
      rw [hcount,hpayload] at hw
      cases Uploads.takes_of_step hw with
      | @message _ s _ _ hs' hlive hidle' =>
        exact Or.inr ⟨_,chunks,Uploads.put_self _ _ _,(remaining_receive _ hsmall).pending,hc⟩
  · cases hstart

theorem admitted_chunkUpload {i clientID : ℕ} {chunks : List Bytes}
    (h : ∀ d ∈ chunks, d.length ≤ maxChunkSize ∧ d ∈ T) :
    Admitted T (.uploadMessage i (some (chunkUpload clientID chunks))) :=
  fun _ _ => ⟨chunks,rfl,rfl,h⟩

/-- An upload outlives restarts. Once the receive loop has taken in a message with chunks,
and if no later step ends the process before its index is saved, then in whatever lifetime
the process runs with no connection open, requests for these chunks are answered with
exactly them. -/
theorem upload_outlives_restarts (S : Setting) (T : Set Bytes) (es fs : List Event) (p q : Process)
    (i clientID : ℕ) (chunks : List Bytes) (hp : Exec (step S) start es p)
    (hq : Exec (step S) p (.uploadMessage i (some (chunkUpload clientID chunks))::fs) q)
    (hb : Along (step S) (Benign S) p (.uploadMessage i (some (chunkUpload clientID chunks))::fs))
    (hes : ∀ e ∈ es++fs, Admitted T e) (hchunks : ∀ d ∈ chunks, d.length ≤ maxChunkSize ∧ d ∈ T)
    (hid : Set.InjOn S.uuid {n | n < q.world.shared.drawn}) (hcoll : Set.InjOn S.digest.hash T)
    (hrun : q.status = .running) (hjoined : q.thList = []) (batches : List (List Bytes))
    (hreq : ∀ ds ∈ batches, ds.length ≤ 256 ∧ ∀ d ∈ ds, d ∈ chunks) (ready : Message)
    (hready : ready.header.messageType = .edgeReceiveReady) (prior : RecvDecoder.ClientVar)
    (clientID' : ℕ) (pool : Mem (Mem UInt8)) (hcache : 1 ≤ S.readCacheSize) :
    ∃ qs c', eval (Downloads.serve q.world)
        (RecvDecoder.run ready (batches.map (requestFor S.digest clientID'))
          (initDownloadChunkBuffer prior clientID' S.readCacheSize pool)) = (qs,.ok c') ∧
      received (Restore.sent qs) = batches.flatten := by
  have hbefore : Reached S T p :=
    reached_exec hp reached_start fun e he => hes e (List.mem_append_left _ he)
  cases hq with
  | @succ _ p' _ _ _ hmsg hfs =>
    have hafter : Reached S T p' := reached_step hbefore (admitted_chunkUpload hchunks) hmsg
    have hfs' : ∀ e ∈ fs, Admitted T e := fun e he => hes e (List.mem_append_right _ he)
    have hreached := reached_exec hfs hafter hfs'
    have hkept : ∀ c ∈ chunks, Kept S q i c := by
      intro c hc
      have hstart := kept_of_message rfl rfl rfl (fun d hd => (hchunks d hd).1) hb.1 hmsg hc
      have hend := hfs.invariant_along (P := fun v => Reached S T v ∧ Kept S v i c)
        (fun _ _ _ hv he hb hstep => ⟨reached_step hv.1 he hstep,kept_step hv.1 hb hstep hv.2⟩)
        ⟨hafter,hstart⟩ hfs' (hb.2 _ hmsg)
      exact hend.2
    obtain ⟨C,hC,hliving⟩ := hreached.intact hid
    obtain ⟨d,hd⟩ := hliving hrun
    refine returns_rest hd.inv (hreached.rest hrun hjoined hC) rfl hd.files hcoll hcache ?_ hready
      prior clientID' pool
    refine fun ds hds => ⟨(hreq ds hds).1,fun c hc => ?_⟩
    have hin := (hreq ds hds).2 c hc
    exact ⟨(hchunks c hin).2,indexed_of_kept hreached hrun hjoined (hkept c hin)⟩

def finishAndRestart : List Event := (uploadAll 0 65).drop 2 ++ [.interrupt oneEntry,.restart]

theorem upload_outlives_restarts_interrupt :
    ∃ p q qs c', Exec (step demoSetting) start ((uploadAll 0 65).take 1) p ∧
      Exec (step demoSetting) p
        (.uploadMessage 0 (some (chunkUpload 1 [[65,65]]))::finishAndRestart) q ∧
      eval (Downloads.serve q.world) (RecvDecoder.run ⟨⟨.edgeReceiveReady,4,0,0⟩,[]⟩
        ([[[65,65]]].map (requestFor demoSetting.digest 4))
        (initDownloadChunkBuffer demoMemory.decoder 4 demoSetting.readCacheSize
          demoMemory.pool)) = (qs,.ok c') ∧
      received (Restore.sent qs) = [[65,65]] := by
  have hevents : .uploadMessage 0 (some (chunkUpload 1 [[65,65]]))::finishAndRestart =
      (uploadAll 0 65).drop 1 ++ [.interrupt oneEntry,.restart] := rfl
  have hrun : (run (step demoSetting) start ((uploadAll 0 65).take 1)).map (fun p =>
      (run (step demoSetting) p
        (.uploadMessage 0 (some (chunkUpload 1 [[65,65]]))::finishAndRestart)).map fun q =>
          (q.world.shared.drawn,q.status,q.thList)) = some (some (1,.running,[])) := by
    decide +kernel
  obtain ⟨p,hp,hobs⟩ := Exec.of_run_map _ hrun
  obtain ⟨q,hq,hend⟩ := Exec.of_run_map _ hobs
  simp only [Prod.mk.injEq] at hend
  obtain ⟨hdrawn,hrunning,hjoined⟩ := hend
  have hadm : ∀ e ∈ (uploadAll 0 65).take 1 ++ finishAndRestart, Admitted twoUploads e := by
    have hfirst := admitted_uploadAll (T := twoUploads) 0 (Or.inl rfl : [65,65] ∈ twoUploads)
    intro e he
    simp only [finishAndRestart,List.mem_append,List.mem_cons,List.not_mem_nil,or_false] at he
    rcases he with h | h | rfl | rfl
    · exact hfirst e (List.mem_of_mem_take h)
    · exact hfirst e (List.mem_of_mem_drop h)
    · trivial
    · trivial
  have hbenign : Along (step demoSetting) (Benign demoSetting) p
      (.uploadMessage 0 (some (chunkUpload 1 [[65,65]]))::finishAndRestart) := by
    rw [hevents]
    refine along_of_forall ?_ p
    intro e he s
    simp only [List.mem_append,List.mem_cons,List.not_mem_nil,or_false] at he
    rcases he with h | rfl | rfl
    · exact Durability.benign_uploadAll 0 65 s e (List.mem_of_mem_drop h)
    · trivial
    · trivial
  obtain ⟨qs,c',heval,hrec⟩ := upload_outlives_restarts demoSetting twoUploads _ _ p q 0 1 [[65,65]]
    hp hq hbenign hadm (by simp [maxChunkSize,twoUploads]) (injOn_demo (by omega)) injOn_twoUploads
    hrunning hjoined [[[65,65]]] (by simp) ⟨⟨.edgeReceiveReady,4,0,0⟩,[]⟩ rfl demoMemory.decoder 4
    demoMemory.pool le_rfl
  exact ⟨p,q,qs,c',hp,hq,heval,hrec⟩

end CrashConsistency
end CloudServer
