import NuSync.Daemon.Handlers

/-!
# Gossip and anti-entropy

A node hears of a version in an announcement or finds it in a peer's catalog. `handleAnnouncement`
and `reconcileWithPeer` apply the same rule, written out twice: the one observes every timestamp
and looks at no file name, the other skips `.db` files and observes only what it syncs.
`channels_agree_iff` says for which news that makes a difference, and `hear_catalog_eq` that a
whole catalog without such news may come in over either channel.
-/

namespace NuSync

open Go Store Discovery

/-- The announcement of a catalog entry by the peer that has it. -/
def Store.CatalogEntry.announcedBy (entry : CatalogEntry) (peer : GoString) : FileAnnouncement :=
  ⟨entry.fileID, entry.merkleRoot, entry.lamportTS, peer⟩

namespace Daemon

/-- The node has no entry for the file, or one with another root that loses against the peer's. -/
def Outdated (d : Daemon) (peer : GoString) (entry : CatalogEntry) : Prop :=
  ∀ m, d.node.index.getFileMeta entry.fileID = some m →
    m.merkleRoot ≠ entry.merkleRoot ∧
      toLex (m.lamportTS, d.name) < toLex (entry.lamportTS, peer)

/-- The news has the same effect over both channels: a version that is to be synced is not that of
a `.db` file, and any other does not have a timestamp above the clock. -/
def SameNews (d : Daemon) (peer : GoString) (entry : CatalogEntry) : Prop :=
  (d.Outdated peer entry → ext entry.fileID ≠ ascii ".db") ∧
    (¬ d.Outdated peer entry → entry.lamportTS ≤ d.clock)

/-- The announcements of the entries, one after the other; the second component lists the files
for which `triggerSync` is called. -/
def hearCatalog (d : Daemon) (peer : GoString) : List CatalogEntry → Daemon × List GoString
  | [] => (d, [])
  | entry :: entries =>
      let (d, triggered) := d.handleAnnouncement (entry.announcedBy peer)
      let (d, files) := d.hearCatalog peer entries
      (d, if triggered then entry.fileID :: files else files)

variable {d : Daemon} {peer : GoString} {entry : CatalogEntry}

/-- The decision the two channels share. -/
theorem wants_iff_outdated :
    d.wants entry.fileID entry.merkleRoot entry.lamportTS peer = true ↔ d.Outdated peer entry := by
  unfold wants Outdated
  cases d.node.index.getFileMeta entry.fileID with
  | none => simp
  | some m => simp [remote_wins_iff]

/-- The clock moves exactly if the timestamp is above it. -/
theorem observe_ts_clock_eq_iff {ts : UInt64} :
    (d.observeTS ts).clock = d.clock ↔ ts ≤ d.clock := by
  unfold observeTS
  split_ifs with hle
  · simp [hle]
  · simp only [hle, iff_false]
    intro heq
    exact hle heq.le

/-- An announcement by another node is observed, and answered by the shared decision. -/
theorem handle_announcement_other (hpeer : peer ≠ d.name) :
    d.handleAnnouncement (entry.announcedBy peer) =
      (d.observeTS entry.lamportTS,
        d.wants entry.fileID entry.merkleRoot entry.lamportTS peer) := by
  have hown : (entry.announcedBy peer).sourceNode ≠ d.name := hpeer
  obtain ⟨hadvances, -⟩ := d.observe_ts_spec entry.lamportTS
  rw [handleAnnouncement, if_neg hown]
  simp only [CatalogEntry.announcedBy, wants, hadvances.node, hadvances.name]
  rfl

/-- What is outdated stays so when the clock moves. -/
theorem outdated_observe_ts (ts : UInt64) :
    (d.observeTS ts).Outdated peer entry ↔ d.Outdated peer entry := by
  obtain ⟨hadvances, -⟩ := d.observe_ts_spec ts
  unfold Outdated
  rw [hadvances.node, hadvances.name]

/-- **Gossip and anti-entropy agree on a version exactly if it is `SameNews`**: they leave the clock
at the same value and trigger a sync for the same files. -/
theorem channels_agree_iff (hpeer : peer ≠ d.name) (entry : CatalogEntry) :
    let heard := d.handleAnnouncement (entry.announcedBy peer)
    let reconciled := d.reconcileWithPeer peer [entry]
    (heard.1.clock = reconciled.1.clock ∧
        (if heard.2 then [entry.fileID] else []) = reconciled.2) ↔
      d.SameNews peer entry := by
  intro heard reconciled
  have hheard : heard = (d.observeTS entry.lamportTS, _) := handle_announcement_other hpeer
  rw [hheard]
  by_cases hdb : ext entry.fileID = ascii ".db"
  · have hreconciled : reconciled = (d, []) := by
      simp [reconciled, reconcileWithPeer, hdb]
    rw [hreconciled]
    by_cases hout : d.Outdated peer entry
    · simp [SameNews, wants_iff_outdated, hout, hdb]
    · simp [SameNews, wants_iff_outdated, hout, observe_ts_clock_eq_iff]
  · by_cases hout : d.Outdated peer entry
    · have hreconciled : reconciled = (d.observeTS entry.lamportTS, [entry.fileID]) := by
        simp [reconciled, reconcileWithPeer, hdb, wants_iff_outdated, hout]
      rw [hreconciled]
      simp [SameNews, wants_iff_outdated, hout, hdb]
    · have hreconciled : reconciled = (d, []) := by
        simp [reconciled, reconcileWithPeer, hdb, wants_iff_outdated, hout]
      rw [hreconciled]
      simp [SameNews, wants_iff_outdated, hout, observe_ts_clock_eq_iff]

/-- A node that has a version of `f`. -/
def synced : Daemon :=
  .new (ascii "a") (ascii "/d") (.set .empty ⟨ascii "f", .sample [1], 1, [], 0⟩) (fun _ => none)
    fun _ => none

theorem channels_agree_new_file :
    let entry : CatalogEntry := ⟨ascii "g", .sample [2], 5⟩
    (synced.handleAnnouncement (entry.announcedBy (ascii "b"))).1.clock =
      (synced.reconcileWithPeer (ascii "b") [entry]).1.clock := by
  intro entry
  have hnews : synced.SameNews (ascii "b") entry := by
    have habsent : synced.node.index.getFileMeta entry.fileID = none := by decide
    have hout : synced.Outdated (ascii "b") entry := fun m hm => by cases habsent.symm.trans hm
    exact ⟨fun _ => by decide, fun h => absurd hout h⟩
  exact ((channels_agree_iff (by decide) entry).mpr hnews).1

/-- **The channels differ.** An announcement of a new `.db` file starts a sync and the catalog entry
does not; and a version that is in sync moves the clock if it is announced, and not if it is found
in the catalog. -/
theorem channels_differ :
    let database : CatalogEntry := ⟨ascii "x.db", .sample [2], 0⟩
    let touched : CatalogEntry := ⟨ascii "f", .sample [1], 5⟩
    ((synced.handleAnnouncement (database.announcedBy (ascii "b"))).2 = true ∧
        (synced.reconcileWithPeer (ascii "b") [database]).2 = []) ∧
      (synced.handleAnnouncement (touched.announcedBy (ascii "b"))).1.clock = 5 ∧
        (synced.reconcileWithPeer (ascii "b") [touched]).1.clock = 0 := by
  decide

/-! ## Whole catalogs -/

theorem SameNews.observe_ts (h : d.SameNews peer entry) (ts : UInt64) :
    (d.observeTS ts).SameNews peer entry := by
  unfold SameNews
  rw [outdated_observe_ts]
  refine ⟨h.1, fun hcurrent => (h.2 hcurrent).trans ?_⟩
  exact (d.observe_ts_spec ts).1.clock

/-- **A catalog of such news has the same effect over both channels.** -/
theorem hear_catalog_eq {catalog : List CatalogEntry} (hpeer : peer ≠ d.name)
    (hnews : ∀ entry ∈ catalog, d.SameNews peer entry) :
    d.hearCatalog peer catalog = d.reconcileWithPeer peer catalog := by
  induction catalog generalizing d with
  | nil => rfl
  | cons entry entries ih =>
      obtain ⟨hfirst, hrest⟩ := List.forall_mem_cons.mp hnews
      rw [hearCatalog, handle_announcement_other hpeer, reconcileWithPeer]
      by_cases hout : d.Outdated peer entry
      · have hname : peer ≠ (d.observeTS entry.lamportTS).name := by
          rwa [(d.observe_ts_spec entry.lamportTS).1.name]
        have hlater := ih hname fun later hlater => (hrest later hlater).observe_ts entry.lamportTS
        simp [hfirst.1 hout, wants_iff_outdated.mpr hout, hlater]
      · -- the timestamp is not above the clock, so observing it changes nothing
        have hsame : d.observeTS entry.lamportTS = d := if_pos (hfirst.2 hout)
        have hwants : d.wants entry.fileID entry.merkleRoot entry.lamportTS peer = false := by
          rw [← Bool.not_eq_true, wants_iff_outdated]
          exact hout
        simp [hsame, hwants, ih hpeer hrest]

end Daemon

end NuSync
