import NuSync.Go.Bytes

/-!
# Rarest-first scheduling and peer health

`internal/scheduler/rarest.go` and `internal/scheduler/backoff.go`. Times and durations are
integers in nanoseconds. The peers' availability answers come in the order in which their
goroutines take the mutex, and `sort.Slice` is not stable, so both are arguments.
-/

namespace NuSync.Scheduler

open NuSync.Go

/-! ## Rarity -/

/-- `scheduler.ChunkRarity`. -/
structure ChunkRarity where
  hash : Bytes
  peers : List GoString
  deriving DecidableEq

/-- `sort.Slice` by the number of peers: it permutes its argument into ascending order and
promises nothing about ties. -/
structure RaritySort where
  sort : List ChunkRarity → List ChunkRarity
  perm : ∀ chunks, (sort chunks).Perm chunks
  ascending : ∀ chunks, (sort chunks).Pairwise fun a b => a.peers.length ≤ b.peers.length

/-- One such sort. -/
def RaritySort.insertion : RaritySort where
  sort := List.insertionSort fun a b => a.peers.length ≤ b.peers.length
  perm := List.perm_insertionSort _
  ascending chunks :=
    have : Std.Total fun a b : ChunkRarity => a.peers.length ≤ b.peers.length :=
      ⟨fun _ _ => Nat.le_total _ _⟩
    have : IsTrans ChunkRarity fun a b => a.peers.length ≤ b.peers.length :=
      ⟨fun _ _ _ => Nat.le_trans⟩
    List.pairwise_insertionSort _ chunks

/-- `rarityMap[key]` once all goroutines are done: each answer appends its peer for every
occurrence of the hash in it. Hex encoding keeps hashes apart, so they are the keys here. -/
def rarityMap (answers : List (GoString × List Bytes)) (hash : Bytes) : List GoString :=
  answers.flatMap fun answer => (answer.2.filter fun found => found = hash).map fun _ => answer.1

/-- `BuildRarityMap`, with the answers of the peers that gave one. -/
def buildRarityMap (sorter : RaritySort) (missingChunks : List Bytes)
    (answers : List (GoString × List Bytes)) : List ChunkRarity :=
  sorter.sort (missingChunks.map fun hash => ⟨hash, rarityMap answers hash⟩)

/-! ## Peer health -/

/-- `scheduler.PeerHealth`. -/
structure PeerHealth where
  isHot : Bool
  cooldownUntil : Int
  failCount : Nat
  deriving DecidableEq

/-- `scheduler.HealthTracker`. -/
structure HealthTracker where
  peers : GoString → Option PeerHealth

/-- `NewHealthTracker`. -/
def HealthTracker.new : HealthTracker := ⟨fun _ => none⟩

/-- `HealthTracker.MarkHot` at time `now`. -/
def HealthTracker.markHot (tracker : HealthTracker) (now : Int) (peerAddr : GoString)
    (retryAfter : Int) : HealthTracker :=
  let p := (tracker.peers peerAddr).getD ⟨false, 0, 0⟩
  ⟨Function.update tracker.peers peerAddr (some ⟨true, now + retryAfter, p.failCount + 1⟩)⟩

/-- `HealthTracker.IsAvailable` at time `now`. A peer whose cooldown is over is reset. -/
def HealthTracker.isAvailable (tracker : HealthTracker) (now : Int) (peerAddr : GoString) :
    HealthTracker × Bool :=
  match tracker.peers peerAddr with
  | none => (tracker, true)
  | some p =>
      if p.isHot then
        if p.cooldownUntil < now then
          (⟨Function.update tracker.peers peerAddr
              (some { p with isHot := false, failCount := 0 })⟩, true)
        else (tracker, false)
      else (tracker, true)

/-- `time.Millisecond`. -/
def millisecond : Int := 1000000

/-- `CalcJitteredBackoff`. A duration is an `int64`, so the product wraps around; `jitter` is the
random part, up to a quarter of the backoff either way. -/
def calcJitteredBackoff (attempt : Nat) (base max : Int) (jitter : Int) : Int :=
  let backoff := min (Int.bmod (base * 2 ^ min attempt 10) (2 ^ 64)) max
  let finalDuration := backoff + jitter
  if max < finalDuration then max
  else if finalDuration < millisecond then millisecond
  else finalDuration

end NuSync.Scheduler
