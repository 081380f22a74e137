import NuSync.Daemon.Handlers

/-!
# Who syncs from whom

Nodes that each hold a version of one file, and what `handleAnnouncement` of one decides on the
current announcement of another. A node compares under its own name with the announcer's, so the
decisions of two nodes look at one order from its two ends: `would_sync_iff` says which, and
`sync_decisions` is the result.
-/

namespace NuSync

open Go Store Discovery

/-- Nodes with distinct names that all hold a version of the file. -/
structure Holders (ι : Type*) (fileID : GoString) where
  nodes : ι → Daemon
  version : ι → FileMeta
  names : Function.Injective fun i => (nodes i).name
  holds : ∀ i, (nodes i).node.index.getFileMeta fileID = some (version i)

namespace Holders

variable {ι : Type*} {fileID : GoString} (h : Holders ι fileID)

/-- The root of the version a node holds. -/
def root (i : ι) : Hash := (h.version i).merkleRoot

/-- A node's announcement of the version it holds. -/
def current (j : ι) : FileAnnouncement :=
  (h.nodes j).announcement { h.version j with fileID := fileID }

/-- Node `i` would start a sync on the current announcement of node `j`. -/
def WouldSync (i j : ι) : Prop := ((h.nodes i).handleAnnouncement (h.current j)).2 = true

instance (i j : ι) : Decidable (h.WouldSync i j) := inferInstanceAs (Decidable (_ = true))

/-- Versions are ordered by their timestamp, then by the name of their holder. -/
def rank (i : ι) : UInt64 ×ₗ GoString := toLex ((h.version i).lamportTS, (h.nodes i).name)

variable {h} {i j : ι}

/-- No two holders have one rank. -/
theorem rank_ne (hne : i ≠ j) : h.rank i ≠ h.rank j := by
  intro heq
  have hpair := toLex.injective heq
  exact hne (h.names (Prod.mk.inj hpair).2)

/-- **A node syncs from another one exactly if their roots differ and the other version ranks
higher.** -/
theorem would_sync_iff : h.WouldSync i j ↔ h.root i ≠ h.root j ∧ h.rank i < h.rank j := by
  unfold WouldSync Daemon.handleAnnouncement
  split_ifs with hown
  · obtain rfl : j = i := h.names hown
    simp
  · obtain ⟨hadvances, -⟩ := (h.nodes i).observe_ts_spec (h.current j).lamportTS
    have hentry : (h.nodes i).node.index.getFileMeta (h.current j).fileID = some (h.version i) :=
      h.holds i
    simp only [Daemon.wants, hadvances.node, hadvances.name, hentry, Bool.and_eq_true,
      decide_eq_true_iff, Daemon.remote_wins_iff]
    rfl

/-- Along a chain of syncs the rank goes up. -/
theorem rank_lt_of_chain (hchain : Relation.TransGen h.WouldSync i j) : h.rank i < h.rank j := by
  induction hchain with
  | single hsync => exact (would_sync_iff.mp hsync).2
  | tail _ hsync ih => exact ih.trans (would_sync_iff.mp hsync).2

/-- Of two nodes with different roots exactly one would sync from the other. -/
theorem xor_would_sync (hroot : h.root i ≠ h.root j) :
    Xor (h.WouldSync i j) (h.WouldSync j i) := by
  have hne : i ≠ j := fun heq => hroot (by rw [heq])
  rcases lt_or_gt_of_ne (rank_ne (h := h) hne) with hlt | hgt
  · exact .inl ⟨would_sync_iff.mpr ⟨hroot, hlt⟩, fun hsync =>
      hlt.asymm (would_sync_iff.mp hsync).2⟩
  · exact .inr ⟨would_sync_iff.mpr ⟨hroot.symm, hgt⟩, fun hsync =>
      hgt.asymm (would_sync_iff.mp hsync).2⟩

/-- **The decisions neither deadlock nor cycle.** Of two nodes with different roots exactly one
syncs from the other, no chain of syncs leads back to where it started, and no node would sync
exactly when all hold the same root. -/
theorem sync_decisions (h : Holders ι fileID) :
    (∀ i j, h.root i ≠ h.root j → Xor (h.WouldSync i j) (h.WouldSync j i)) ∧
      (∀ i, ¬ Relation.TransGen h.WouldSync i i) ∧
      ((∀ i j, ¬ h.WouldSync i j) ↔ ∀ i j, h.root i = h.root j) := by
  refine ⟨fun i j => xor_would_sync, fun i hcycle => (rank_lt_of_chain hcycle).false, ?_, ?_⟩
  · intro hidle i j
    by_contra hroot
    rcases xor_would_sync hroot with ⟨hsync, -⟩ | ⟨hsync, -⟩
    · exact hidle i j hsync
    · exact hidle j i hsync
  · intro hsame i j hsync
    exact (would_sync_iff.mp hsync).1 (hsame i j)

/-- Nodes `a` and `b` that wrote the file with one timestamp. -/
def tied : Holders Bool (ascii "f") where
  version i := ⟨ascii "f", .sample [if i then 1 else 2], 3, [], 0⟩
  nodes i := .new (ascii (if i then "b" else "a")) (ascii "/d")
    (.set .empty ⟨ascii "f", .sample [if i then 1 else 2], 3, [], 0⟩) (fun _ => none) fun _ => none
  names := by decide
  holds := by decide

-- the node with the greater name keeps its version
example : tied.WouldSync false true ∧ ¬ tied.WouldSync true false := by decide

end Holders

end NuSync
