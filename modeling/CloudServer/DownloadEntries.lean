import CloudServer.SendBuffer

/-! The array `_downloadChunkBase`. It has `sendChunkBatchSize_` entries, while recipes
are handed out in batches of `sendRecipeBatchSize_`; the cursors of `ProcessRecipeBatch`
are followed through both passes, whatever the index and the containers answer. -/
namespace CloudServer
namespace DownloadEntries

open ByteMemory RestoreTable RestoreStream SendBuffer
open Interaction Interaction.Prog
open RecvDecoder hiding ClientVar
open StorageCore (indexConstruct)

def getSendRecipeBatchSize (chunkingType : ℕ) : ℕ := if chunkingType = 1 then 512 else 1024

/-- The program returns `a` with some replies that the environment may give. -/
def Reaches {α : Type} (allows : (q : Request) → Reply q → Prop) (p : Decoder α) (a : α) : Prop :=
  ∃ qs, Talk allows p qs (.ok a)

/-- The entries that `ProcessRecipeBatch` writes or reads: `downloadChunkEntry` in the
rounds of the first and of the second loop, and `startEntry` in the rounds that restore
a group. `endEntry` is only compared. -/
inductive Accessed (allows : (q : Request) → Reply q → Prop) (recipeNum : ℕ)
    (c : RecvDecoder.ClientVar) : ℕ → Prop
  | lookup {i : ℕ} {s : RecvDecoder.ClientVar × Bytes} (hi : i < recipeNum)
    (hs : Reaches allows (forRange lookupEntry i (c,List.replicate containerIdLength 0)) s) :
    Accessed allows recipeNum c i
  | assign {i : ℕ} {s : RecvDecoder.ClientVar × Bytes} {p : Pass} (hi : i < recipeNum)
    (hs : Reaches allows (forRange lookupEntry recipeNum (c,List.replicate containerIdLength 0)) s)
    (hp : Reaches allows (forRange (processEntry recipeNum) i ⟨s.1,∅,0⟩) p) :
    Accessed allows recipeNum c i
  | recover {i j : ℕ} {s : RecvDecoder.ClientVar × Bytes} {p p' : Pass}
    {c₁ c₂ : RecvDecoder.ClientVar} (hi : i < recipeNum)
    (hs : Reaches allows (forRange lookupEntry recipeNum (c,List.replicate containerIdLength 0)) s)
    (hp : Reaches allows (forRange (processEntry recipeNum) i ⟨s.1,∅,0⟩) p)
    (hassign : Reaches allows (assignContainer i p) p')
    (hfull : p'.client.idNum = containerCappingValue ∨ i+1 = recipeNum)
    (hfetch : Reaches allows (getReqContainers p'.client) c₁) (hj : j < i+1-p'.startEntry)
    (hrecover : Reaches allows (forRange (fun k => recoverEntry
      (indexConstruct ∅ c₁.containerArray c₁.idNum) (p'.startEntry+k)) j c₁) c₂) :
    Accessed allows recipeNum c (p'.startEntry+j)

/-- Every entry used for a message is one of those that `InitDownloadChunkBuffer` has
allocated. -/
def EntriesInside (allows : (q : Request) → Reply q → Prop) (m : Message)
    (c : RecvDecoder.ClientVar) : Prop :=
  ∀ k, Accessed allows m.header.currentItemNum (withRequest m c) k → k < sendChunkBatchSize

variable {allows : (q : Request) → Reply q → Prop} {recipeNum : ℕ} {c : RecvDecoder.ClientVar}

/-- No cursor passes the number of requested entries. -/
theorem accessed_lt {k : ℕ} (h : Accessed allows recipeNum c k) : k < recipeNum := by
  cases h with
  | lookup hi _ => exact hi
  | assign hi _ _ => exact hi
  | recover hi _ _ _ _ _ hj _ => omega

theorem reaches_lookups (hindex : ∀ key, ∃ r, allows (.readIndexStore key) r) (n : ℕ)
    (s : RecvDecoder.ClientVar × Bytes) : ∃ t, Reaches allows (forRange lookupEntry n s) t := by
  induction n with
  | zero => exact ⟨s,[],.ret s⟩
  | succ n ih =>
    obtain ⟨t,qs,ht⟩ := ih
    obtain ⟨r,hr⟩ :=
      hindex (read t.1.sendChunkBuf.dataBuffer (u32 (chunkHashSize*n)) chunkHashSize)
    exact ⟨_,_,talk_seq ht (.ask hr (.ret _))⟩

theorem accessed_of_lt (hindex : ∀ key, ∃ r, allows (.readIndexStore key) r) {k : ℕ}
    (hk : k < recipeNum) : Accessed allows recipeNum c k := by
  obtain ⟨t,ht⟩ := reaches_lookups hindex k (c,List.replicate containerIdLength 0)
  exact .lookup hk ht

/-- The entries stay inside the array exactly if the message asks for no more than
`sendChunkBatchSize_` fingerprints. -/
theorem entries_inside_iff (allows : (q : Request) → Reply q → Prop)
    (hindex : ∀ key, ∃ r, allows (.readIndexStore key) r) (m : Message)
    (c : RecvDecoder.ClientVar) :
    EntriesInside allows m c ↔ m.header.currentItemNum ≤ sendChunkBatchSize := by
  constructor
  · intro h
    by_contra hlt
    have hover := h sendChunkBatchSize (accessed_of_lt hindex (Nat.lt_of_not_le hlt))
    exact Nat.lt_irrefl _ hover
  · intro hle k hk
    exact (accessed_lt hk).trans_le hle

def oneChunk (q : Request) (r : Reply q) : Prop :=
  answer (entryIndex (List.replicate 32 1) (List.replicate 8 9))
    (onDisk (entryFile (List.replicate 32 1) (List.replicate 8 9) [5,6])) q = .ok r

theorem oneChunk_index (key : Bytes) : ∃ r, oneChunk (.readIndexStore key) r := ⟨_,rfl⟩

theorem entries_inside_full_batch :
    EntriesInside oneChunk (requestOf 4 (List.replicate 256 (List.replicate 32 1))) blank :=
  (entries_inside_iff oneChunk oneChunk_index _ _).mpr (Nat.le_of_eq List.length_replicate)

/-- One fingerprint more, still far below a full batch of a recipe for every chunking
type. -/
theorem entries_outside :
    (∀ chunkingType, (requestOf 4 (List.replicate 257 (List.replicate 32 1))).header.currentItemNum ≤
        getSendRecipeBatchSize chunkingType) ∧
      ¬ EntriesInside oneChunk (requestOf 4 (List.replicate 257 (List.replicate 32 1))) blank := by
  have hnum : (requestOf 4 (List.replicate 257 (List.replicate 32 1))).header.currentItemNum = 257 :=
    List.length_replicate
  constructor
  · intro chunkingType
    rw [hnum,getSendRecipeBatchSize]
    split_ifs <;> decide
  · intro h
    have hover := h 256 (accessed_of_lt oneChunk_index (by rw [hnum]; decide))
    exact absurd hover (by decide)

end DownloadEntries
end CloudServer
