import NuSync.Control.Service
import NuSync.Lib.System
import NuSync.Scheduler

/-!
# Rarity and the number of holders

`BuildRarityMap` asks all peers at once which of the missing chunks they have, and counts for each
chunk how often it was named. The goroutines finish in any order; `run_query_rarity` says that the
map they share ends up the same up to that order. A chunk that is missing twice is asked for
twice and named twice by every peer that has it, so the count is the number of holders exactly
when no chunk that is held is missing twice (`rarity_by_holders_iff`).
-/

namespace NuSync.Scheduler

open NuSync.Go NuSync.Lib NuSync.Store NuSync.Control

/-! ## The goroutines -/

/-- The goroutines that have not returned yet, and the map `rarityMap` they share. -/
structure Queries where
  running : List GoString
  rarity : Bytes → List GoString

/-- What a goroutine does under the mutex: it appends its peer for every hash of the answer. -/
def appendAnswer (rarity : Bytes → List GoString) (peerAddr : GoString) (available : List Bytes) :
    Bytes → List GoString :=
  available.foldl (fun rarity hash => Function.update rarity hash (rarity hash ++ [peerAddr]))
    rarity

/-- The goroutine of a peer returns. A peer that cannot be asked has no answer. -/
def queryStep (answers : GoString → Option (List Bytes)) (q : Queries) (peerAddr : GoString) :
    Option Queries :=
  if peerAddr ∈ q.running then
    some
      { running := q.running.erase peerAddr
        rarity :=
          match answers peerAddr with
          | none => q.rarity
          | some available => appendAnswer q.rarity peerAddr available }
  else none

/-- The answers in the order in which the goroutines took the mutex. -/
def answersIn (answers : GoString → Option (List Bytes)) (order : List GoString) :
    List (GoString × List Bytes) :=
  order.filterMap fun peerAddr => (answers peerAddr).map fun available => (peerAddr, available)

/-- Each answer adds its peer as often as it names the hash. -/
theorem rarity_map_cons (peerAddr : GoString) (available : List Bytes)
    (answers : List (GoString × List Bytes)) (hash : Bytes) :
    rarityMap ((peerAddr, available) :: answers) hash =
      List.replicate (available.count hash) peerAddr ++ rarityMap answers hash := by
  simp [rarityMap, List.count_eq_length_filter, beq_eq_decide]

theorem append_answer_apply (rarity : Bytes → List GoString) (peerAddr : GoString)
    (available : List Bytes) (hash : Bytes) :
    appendAnswer rarity peerAddr available hash =
      rarity hash ++ List.replicate (available.count hash) peerAddr := by
  induction available generalizing rarity with
  | nil => simp [appendAnswer]
  | cons found available ih =>
      rw [appendAnswer, List.foldl_cons, ← appendAnswer, ih]
      by_cases hfound : found = hash
      · subst hfound
        rw [Function.update_self, List.count_cons_self, List.replicate_succ, List.append_assoc,
          List.singleton_append]
      · rw [Function.update_of_ne (Ne.symm hfound), List.count_cons_of_ne hfound]

/-- The map after some goroutines have returned. -/
theorem run_query_rarity {answers : GoString → Option (List Bytes)} {q q' : Queries}
    {order : List GoString} (h : run (queryStep answers) q order = some q') :
    (order ++ q'.running).Perm q.running ∧
      ∀ hash, q'.rarity hash = q.rarity hash ++ rarityMap (answersIn answers order) hash := by
  induction order generalizing q with
  | nil =>
      cases h
      exact ⟨.refl _, fun hash => by simp [answersIn, rarityMap]⟩
  | cons peerAddr order ih =>
      obtain ⟨next, hstep, hrest⟩ := run_cons_eq_some.mp h
      obtain ⟨hperm, hrarity⟩ := ih hrest
      unfold queryStep at hstep
      split_ifs at hstep with hrunning
      cases hstep
      constructor
      · exact (hperm.cons peerAddr).trans (List.perm_cons_erase hrunning).symm
      · intro hash
        rw [hrarity hash]
        cases hanswer : answers peerAddr with
        | none => simp [answersIn, hanswer]
        | some available =>
            simp [append_answer_apply, answersIn, hanswer, rarity_map_cons]

/-- **The goroutines build the map of `buildRarityMap`**, whatever the order in which they
return. -/
theorem run_query_all {answers : GoString → Option (List Bytes)} {peerAddrs order : List GoString}
    {q : Queries} (h : run (queryStep answers) ⟨peerAddrs, fun _ => []⟩ order = some q)
    (hdone : q.running = []) :
    order.Perm peerAddrs ∧ q.rarity = rarityMap (answersIn answers order) := by
  obtain ⟨hperm, hrarity⟩ := run_query_rarity h
  rw [hdone, List.append_nil] at hperm
  exact ⟨hperm, funext hrarity⟩

/-! ## Holders -/

/-- The blob stores of the peers; a peer that does not answer has none here. -/
abbrev PeerStores := GoString → Option (Hash → Option Bytes)

/-- What each peer answers to the list of missing chunks. -/
def PeerStores.answers (stores : PeerStores) (missing : List Bytes) (peerAddr : GoString) :
    Option (List Bytes) :=
  (stores peerAddr).map fun objects => getChunkAvailability objects missing

/-- The peer answers and has the chunk. -/
def PeerStores.holds (stores : PeerStores) (hash : Bytes) (peerAddr : GoString) : Bool :=
  match stores peerAddr with
  | none => false
  | some objects => (get objects (Hash.copy hash)).isSome

/-- The peers that answer and have the chunk. -/
def PeerStores.holders (stores : PeerStores) (peerAddrs : List GoString) (hash : Bytes) :
    List GoString :=
  peerAddrs.filter (stores.holds hash)

/-- The result lists every missing chunk with its holders, each once, those with the fewest
holders first. -/
structure ByHolders (stores : PeerStores) (peerAddrs : List GoString) (missing : List Bytes)
    (result : List ChunkRarity) : Prop where
  chunks : (result.map ChunkRarity.hash).Perm missing
  peers : ∀ chunk ∈ result, chunk.peers.Perm (stores.holders peerAddrs chunk.hash)
  ascending : result.Pairwise fun a b =>
    (stores.holders peerAddrs a.hash).length ≤ (stores.holders peerAddrs b.hash).length

variable {peerAddrs order : List GoString} {missing : List Bytes}

/-- A peer that has the chunk names it as often as it is missing. -/
theorem count_availability (objects : Hash → Option Bytes) (missing : List Bytes) {hash : Bytes}
    (hlen : hash.length = 32) :
    (getChunkAvailability objects missing).count hash =
      if (get objects (Hash.copy hash)).isSome then missing.count hash else 0 := by
  unfold getChunkAvailability
  split_ifs with hfound
  · exact List.count_filter (by simp [hlen, hfound])
  · apply List.count_eq_zero_of_not_mem
    intro hmem
    exact hfound (of_decide_eq_true (List.mem_filter.mp hmem).2).2

/-- The peers of a chunk are its holders, each as often as the chunk is missing. -/
theorem rarity_map_answers (stores : PeerStores) (missing : List Bytes) {hash : Bytes}
    (hlen : hash.length = 32) (order : List GoString) :
    rarityMap (answersIn (stores.answers missing) order) hash =
      (stores.holders order hash).flatMap fun peerAddr =>
        List.replicate (missing.count hash) peerAddr := by
  induction order with
  | nil => rfl
  | cons peerAddr order ih =>
      rw [answersIn] at ih ⊢
      cases hstore : stores peerAddr with
      | none =>
          simpa [PeerStores.answers, PeerStores.holders, PeerStores.holds, hstore] using ih
      | some objects =>
          simp only [List.filterMap_cons, PeerStores.answers, hstore, Option.map_some,
            rarity_map_cons, count_availability objects missing hlen]
          simp only [PeerStores.answers] at ih
          rw [ih]
          cases hfound : (get objects (Hash.copy hash)).isSome <;>
            simp [PeerStores.holders, PeerStores.holds, hstore, hfound]

/-- The peers of a missing chunk are its holders, each once, unless it is held and missing
twice. -/
theorem rarity_map_perm_iff (stores : PeerStores) (horder : order.Perm peerAddrs) {hash : Bytes}
    (hlen : hash.length = 32) (hmissing : hash ∈ missing) :
    (rarityMap (answersIn (stores.answers missing) order) hash).Perm
        (stores.holders peerAddrs hash) ↔
      (stores.holders peerAddrs hash ≠ [] → missing.count hash ≤ 1) := by
  have hholders : (stores.holders order hash).Perm (stores.holders peerAddrs hash) :=
    horder.filter _
  rw [rarity_map_answers stores missing hlen]
  constructor
  · intro hperm hheld
    have hlength := hperm.length_eq
    simp only [List.length_flatMap, List.length_replicate, List.map_const', List.sum_replicate,
      hholders.length_eq, smul_eq_mul] at hlength
    have hpos : 0 < (stores.holders peerAddrs hash).length := List.length_pos_of_ne_nil hheld
    apply Nat.le_of_mul_le_mul_left _ hpos
    rw [hlength, Nat.mul_one]
  · intro honce
    by_cases hheld : stores.holders peerAddrs hash = []
    · rw [hheld] at hholders ⊢
      rw [hholders.eq_nil]
      exact .refl _
    · have hone : missing.count hash = 1 :=
        le_antisymm (honce hheld) (List.count_pos_iff.mpr hmissing)
      simpa [hone] using hholders

/-- The entries of the result, before they are sorted. -/
theorem mem_build_rarity_map {sorter : RaritySort} {answers : List (GoString × List Bytes)}
    {chunk : ChunkRarity} :
    chunk ∈ buildRarityMap sorter missing answers ↔
      ∃ hash ∈ missing, ⟨hash, rarityMap answers hash⟩ = chunk := by
  rw [buildRarityMap, (sorter.perm _).mem_iff, List.mem_map]

/-- A chunk has no peers exactly if no answer names it. -/
theorem rarity_map_eq_nil_iff {answers : List (GoString × List Bytes)} {hash : Bytes} :
    rarityMap answers hash = [] ↔ ∀ answer ∈ answers, hash ∉ answer.2 := by
  simp only [rarityMap, List.flatMap_eq_nil_iff, List.map_eq_nil_iff, List.filter_eq_nil_iff,
    decide_eq_true_eq]
  refine forall₂_congr fun answer _ => ⟨fun h hmem => h hash hmem rfl, ?_⟩
  rintro h found hfound rfl
  exact h hfound

/-- **The missing chunks are listed by their holders exactly if none that is held is missing
twice.** -/
theorem rarity_by_holders_iff (index : BoltMetaStore) (req : DiffRequest) (stores : PeerStores)
    (sorter : RaritySort) {peerAddrs order : List GoString} (horder : order.Perm peerAddrs) :
    let missing := (diffMerkleTree index req).missingChunkHashes
    ByHolders stores peerAddrs missing
        (buildRarityMap sorter missing (answersIn (stores.answers missing) order)) ↔
      ∀ hash, stores.holders peerAddrs hash ≠ [] → missing.count hash ≤ 1 := by
  intro missing
  have hperm {hash : Bytes} (hmissing : hash ∈ missing) :=
    rarity_map_perm_iff stores horder (length_missing hmissing) hmissing
  constructor
  · intro hresult hash hheld
    by_contra hcount
    have hmissing : hash ∈ missing := List.count_pos_iff.mp (by omega)
    have hpeers := hresult.peers _ (mem_build_rarity_map.mpr ⟨hash, hmissing, rfl⟩)
    exact hcount ((hperm hmissing).mp hpeers hheld)
  · intro honce
    have hpeers : ∀ chunk ∈ buildRarityMap sorter missing
        (answersIn (stores.answers missing) order),
        chunk.peers.Perm (stores.holders peerAddrs chunk.hash) := by
      intro chunk hchunk
      obtain ⟨hash, hmissing, rfl⟩ := mem_build_rarity_map.mp hchunk
      exact (hperm hmissing).mpr (honce hash)
    refine ⟨?_, hpeers, ?_⟩
    · have hsorted := (sorter.perm (missing.map fun hash =>
        ⟨hash, rarityMap (answersIn (stores.answers missing) order) hash⟩)).map ChunkRarity.hash
      simpa [buildRarityMap, Function.comp_def] using hsorted
    · refine (sorter.ascending _).imp_of_mem ?_
      intro a b ha hb hle
      rwa [(hpeers a ha).length_eq, (hpeers b hb).length_eq] at hle

/-- Peer `p` has every chunk, and peer `q` only the one with the content `[2]`. -/
def twoStores : PeerStores := fun peerAddr =>
  if peerAddr = ascii "p" then some fun _ => some []
  else if peerAddr = ascii "q" then some (Function.update (fun _ => none) (.sample [2]) (some [2]))
  else none

/-- An index with one file of these chunks. -/
def indexOf (contents : List Bytes) : BoltMetaStore :=
  .set .empty ⟨ascii "f", .zero, 1, contents.map Hash.sample, 0⟩

/-- In a file of two chunks the one that only `p` has comes first, whichever peer answers first. -/
theorem rarity_by_holders_two_chunks :
    let missing := (diffMerkleTree (indexOf [[2], [1]])
      (diffRequest (ascii "f") none)).missingChunkHashes
    let result := buildRarityMap .insertion missing
      (answersIn (twoStores.answers missing) [ascii "q", ascii "p"])
    result.map ChunkRarity.hash = [(Hash.sample [1]).bytes, (Hash.sample [2]).bytes] ∧
      ByHolders twoStores [ascii "p", ascii "q"] missing result := by
  intro missing result
  refine ⟨by decide, (rarity_by_holders_iff _ _ twoStores .insertion (.swap _ _ _)).mpr ?_⟩
  intro hash _
  exact List.nodup_iff_count_le_one.mp (by decide) hash

/-- In a file with a chunk that occurs three times, the chunk that only `p` has is listed with `p`
three times, and after the chunk that both peers have. -/
theorem repeated_chunk_not_rare :
    let missing := (diffMerkleTree (indexOf [[1], [1], [1], [2]])
      (diffRequest (ascii "f") none)).missingChunkHashes
    let result := buildRarityMap .insertion missing
      (answersIn (twoStores.answers missing) [ascii "p", ascii "q"])
    result.head? = some ⟨(Hash.sample [2]).bytes, [ascii "p", ascii "q"]⟩ ∧
      ⟨(Hash.sample [1]).bytes, [ascii "p", ascii "p", ascii "p"]⟩ ∈ result ∧
      ¬ ByHolders twoStores [ascii "p", ascii "q"] missing result := by
  intro missing result
  have hmem : ⟨(Hash.sample [1]).bytes, [ascii "p", ascii "p", ascii "p"]⟩ ∈ result := by decide
  refine ⟨by decide, hmem, ?_⟩
  intro hresult
  have hlength := (hresult.peers _ hmem).length_eq
  exact absurd hlength (by decide)

end NuSync.Scheduler
