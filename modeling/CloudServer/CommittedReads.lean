import CloudServer.CrashConsistency

/-! Chunk downloads of what the db file accounts for, while everything else goes on. The
session runs step by step; between its steps uploads, other downloads, logins and ends of
connections change the index and the directory. What it asks for is not touched by that,
so the replies are those of the past, and the client gets its chunks. -/
namespace CloudServer
namespace CommittedReads

open ByteMemory Execution ContainerFormat PlainIndex Database Lifecycle Threads Generations
  RestoreTable RestoreStream RoundTrip CrashConsistency
open Interaction Interaction.Prog
open Uploads (World)
open DataWriter (DiskFile)
open Downloads (Download)
open RecvDecoder (Message Request Reply Decoder Pass initDownloadChunkBuffer)
open Restore (sent)
open Durability (demoSetting demoMemory uploadAll)

section Questions

variable {A : Request → Prop} (hA : ∀ q, (∀ key, q ≠ .readIndexStore key) → A q)
include hA

end Questions

variable {S : Setting} {T : Set Bytes} {p q : Process} {e : Event} {C : World}

def question (p : Process) (j : ℕ) : Event → List Request
  | .download i =>
    if i = j then
      match (p.server.downloads j).map Download.task with
      | some (.ask r _) => [r]
      | _ => []
    else []
  | _ => []

/-- The questions of session `j` in a run, the messages to its client among them. -/
def asked (S : Setting) (j : ℕ) : Process → List Event → List Request
  | _, [] => []
  | p, e::es => question p j e ++ ((step S p e).map fun q => asked S j q es).getD []

section Sessions

variable {j : ℕ} {d : Download} (hq : q.status = .running)
include hq

end Sessions

/-- What the past has to offer to the session: a store that holds every requested chunk. -/
structure Offers (S : Setting) (C : World) (batches : List (List Bytes)) : Prop where
  store : Store C.index (filesOf C)
  disk : onDisk (filesOf C) = fun id => (C.disk id).map DiskFile.content
  small : ∀ ds ∈ batches, ds.length ≤ sendChunkBatchSize
  chunks : ∀ ds ∈ batches, ∀ d ∈ ds, chunkOf C.index (filesOf C) (S.digest.hash d) = some d

theorem Offers.indexed {batches : List (List Bytes)} (h : Offers S C batches) {ds : List Bytes}
    (hds : ds ∈ batches) : ∀ fp ∈ ds.map S.digest.hash, ∃ id, C.index fp = some id := by
  intro fp hfp
  obtain ⟨c,hc,rfl⟩ := List.mem_map.mp hfp
  obtain ⟨id,hid,_⟩ := Option.bind_eq_some_iff.mp (h.chunks ds hds c hc)
  exact ⟨id,hid⟩

section Attending

variable {j k clientID : ℕ} {batches : List (List Bytes)} {d : Download} {qs : List Request}
  {ready : Message}

end Attending

def readyMessage : Message := ⟨⟨.edgeReceiveReady,4,0,0⟩,[]⟩

end CommittedReads
end CloudServer
