import NuSync.Orchestrator.Download

/-!
# One good peer for each chunk

A chunk that one of its peers serves reliably can still be lost: the goroutine takes the bytes of
the first 200 answer, right or wrong, and a peer that is cooling down because of another chunk is
passed over and not asked again. `one_good_peer_suffices` says that nothing else can go wrong:
every schedule comes to an end, and without those two troubles all chunks are there.
-/

namespace NuSync.Orchestrator

open NuSync.Go NuSync.Lib NuSync.Store NuSync.Scheduler

/-- A good peer for each of the missing chunks: one of its peers, with the address of its data
plane. -/
structure GoodPeers (grpcToHTTP : GoString → Option GoString) (rarity : List ChunkRarity) where
  addr : Nat → GoString
  http : Nat → GoString
  listed : ∀ i chunk, rarity[i]? = some chunk → addr i ∈ chunk.peers
  known : ∀ i, grpcToHTTP (addr i) = some (http i)

/-- The peer whose turn it is. -/
def FetchPc.looksAt : FetchPc → Option GoString
  | .nextPeer peers => peers.head?
  | _ => none

/-- The peer that is being asked. -/
def FetchPc.asks : FetchPc → Option GoString
  | .attempt httpPeer _ _ => some httpPeer
  | _ => none

/-- The peer that is asked answers with bytes that hash to this. -/
def FetchEvent.Serves (sha256 : Bytes → Hash) (hash : Hash) : FetchEvent → Prop
  | .answer _ _ (some data) _ => sha256 data = hash
  | .lost _ => True
  | .answer _ _ none _ | .look _ _ => False

instance (sha256 : Bytes → Hash) (hash : Hash) :
    (event : FetchEvent) → Decidable (event.Serves sha256 hash)
  | .answer _ _ (some _) _ => inferInstanceAs (Decidable (_ = _))
  | .lost _ => inferInstanceAs (Decidable True)
  | .answer _ _ none _ | .look _ _ => inferInstanceAs (Decidable False)

section Conditions

variable (sha256 : Bytes → Hash) {grpcToHTTP : GoString → Option GoString}
  {rarity : List ChunkRarity} (good : GoodPeers grpcToHTTP rarity)

/-- The good peer of a chunk answers a request for it with bytes that hash to it. -/
def GoodPeers.Answers (d : Download) (event : FetchEvent) : Prop :=
  ∀ fetch ∈ d.fetches[event.fetch]?, fetch.pc.asks = some (good.http event.fetch) →
    event.Serves sha256 (Hash.copy fetch.hash)

instance (d : Download) (event : FetchEvent) : Decidable (good.Answers sha256 d event) :=
  inferInstanceAs (Decidable (∀ fetch ∈ d.fetches[event.fetch]?, _ → _))

/-- Nothing troubles the event: a goroutine that looks at its good peer finds it available, and
the bytes of a 200 answer match and get to disk, unless the chunk is there already. -/
def GoodPeers.Untroubled (d : Download) : FetchEvent → Prop
  | .look i now => ∀ fetch ∈ d.fetches[i]?, fetch.pc.looksAt = some (good.addr i) →
      (d.tracker.isAvailable now (good.http i)).2 = true
  | .answer i _ reply _ => ∀ fetch ∈ d.fetches[i]?, ∀ data ∈ reply,
      sha256 data = Hash.copy fetch.hash ∨ d.objects (Hash.copy fetch.hash) ≠ none
  | .lost i => ∀ fetch ∈ d.fetches[i]?, d.objects (Hash.copy fetch.hash) ≠ none

instance (d : Download) : (event : FetchEvent) → Decidable (good.Untroubled sha256 d event)
  | .look i _ => inferInstanceAs (Decidable (∀ fetch ∈ d.fetches[i]?, _ → _))
  | .answer i _ reply _ => inferInstanceAs (Decidable (∀ fetch ∈ d.fetches[i]?, ∀ data ∈ reply, _))
  | .lost i => inferInstanceAs (Decidable (∀ fetch ∈ d.fetches[i]?, _))

/-- A goroutine still has its good peer before it, is asking it, or its chunk is there. -/
def OnTrack (addr http : GoString) (objects : Hash → Option Bytes) (hash : Bytes) : FetchPc → Prop
  | .nextPeer peers => addr ∈ peers
  | .attempt httpPeer _ peers => httpPeer = http ∨ addr ∈ peers
  | .finished => objects (Hash.copy hash) ≠ none
  | .exhausted => False

/-- All goroutines are on track. -/
structure AllOnTrack (d : Download) : Prop where
  hashes : d.fetches.map Fetch.hash = rarity.map ChunkRarity.hash
  onTrack : ∀ i fetch, d.fetches[i]? = some fetch →
    OnTrack (good.addr i) (good.http i) d.objects fetch.hash fetch.pc
  errors : d.errors = []

/-- The steps a goroutine may still make: a look and three attempts for each peer, and the look
that finds no more. -/
def FetchPc.work : FetchPc → Nat
  | .nextPeer peers => 4 * peers.length + 1
  | .attempt _ n peers => 4 * peers.length + 1 + (4 - n)
  | .finished | .exhausted => 0

/-- The steps a download may still make. -/
def Download.work (d : Download) : Nat := (d.fetches.map fun fetch => fetch.pc.work).sum

/-- No goroutine has made more than three attempts at a peer. -/
def Download.AttemptsBounded (d : Download) : Prop :=
  ∀ fetch ∈ d.fetches, ∀ httpPeer n peers, fetch.pc = .attempt httpPeer n peers → n ≤ 3

end Conditions

variable {sha256 : Bytes → Hash} {grpcToHTTP : GoString → Option GoString}
  {rarity : List ChunkRarity} {good : GoodPeers grpcToHTTP rarity} {d d' : Download}
  {event : FetchEvent}

/-! ## Every schedule ends -/

/-- A move uses up work, and there are at most three attempts. -/
theorem Moves.work_lt {objects objects' : Hash → Option Bytes} {tracker tracker' : HealthTracker}
    {hash : Bytes} {pc pc' : FetchPc}
    (h : Moves sha256 grpcToHTTP objects tracker hash pc event objects' tracker' pc')
    (hbound : ∀ httpPeer n peers, pc = .attempt httpPeer n peers → n ≤ 3) :
    pc'.work < pc.work ∧ ∀ httpPeer n peers, pc' = .attempt httpPeer n peers → n ≤ 3 := by
  cases h with
  | exhaust | lose | receive => simp [FetchPc.work]
  | unknown | skip => simp [FetchPc.work]
  | start i now peers hhttp havailable =>
      refine ⟨by simp [FetchPc.work]; omega, ?_⟩
      rintro _ _ _ ⟨⟩
      omega
  | giveUp => simp [FetchPc.work]
  | retry i now jitter httpPeer peers hn =>
      have hle := hbound _ _ _ rfl
      refine ⟨by simp [FetchPc.work]; omega, ?_⟩
      rintro _ _ _ ⟨⟩
      omega

/-- A step uses up work. -/
theorem download_work_lt (h : downloadStep sha256 grpcToHTTP d event = some d')
    (hbound : d.AttemptsBounded) : d'.AttemptsBounded ∧ d'.work < d.work := by
  obtain ⟨fetch, pc, hfetch, hmoves, hfetches, -⟩ := download_step_moves h
  obtain ⟨hlt, hnext⟩ := hmoves.work_lt (hbound fetch (List.mem_of_getElem? hfetch))
  constructor
  · intro other hother
    rw [hfetches] at hother
    rcases List.mem_or_eq_of_mem_set hother with hold | rfl
    · exact hbound other hold
    · exact hnext
  · have hsum : d'.work + fetch.pc.work = d.work + pc.work := by
      rw [Download.work, Download.work, hfetches]
      exact sum_map_set hfetch _ _
    omega

/-- A goroutine can move exactly as long as it has not returned. -/
theorem is_done_iff_stuck :
    d.isDone = true ↔ ∀ event, downloadStep sha256 grpcToHTTP d event = none := by
  rw [Download.isDone, List.all_eq_true]
  constructor
  · intro hdone event
    by_contra hstep
    obtain ⟨d', hstep⟩ := Option.ne_none_iff_exists'.mp hstep
    obtain ⟨fetch, pc, hfetch, hmoves, -⟩ := download_step_moves hstep
    have hreturned := hdone fetch (List.mem_of_getElem? hfetch)
    generalize fetch.pc = position at hmoves hreturned
    cases position with
    | nextPeer | attempt => simp at hreturned
    | finished | exhausted => cases hmoves
  · intro hstuck fetch hfetch
    obtain ⟨i, hi⟩ := List.getElem?_of_mem hfetch
    cases hpc : fetch.pc with
    | finished | exhausted => rfl
    | nextPeer peers =>
        have hlook := hstuck (.look i 0)
        cases peers with
        | nil => simp [downloadStep, FetchEvent.fetch, hi, fetchStep, hpc] at hlook
        | cons peer peers =>
            cases hhttp : grpcToHTTP peer <;>
              simp [downloadStep, FetchEvent.fetch, hi, fetchStep, hpc, hhttp] at hlook
    | attempt httpPeer n peers =>
        have hlost := hstuck (.lost i)
        simp [downloadStep, FetchEvent.fetch, hi, fetchStep, hpc] at hlost

/-! ## Untroubled goroutines stay on track -/

/-- An object that is there stays there. -/
theorem Moves.present {objects objects' : Hash → Option Bytes} {tracker tracker' : HealthTracker}
    {hash : Bytes} {pc pc' : FetchPc}
    (h : Moves sha256 grpcToHTTP objects tracker hash pc event objects' tracker' pc') {name : Hash}
    (hname : objects name ≠ none) : objects' name ≠ none := by
  cases h with
  | receive i now jitter data httpPeer n peers => exact put_ne_none_iff.mpr (.inl hname)
  | _ => exact hname

/-- A goroutine that is on track stays on track. -/
theorem Moves.on_track {fetch : Fetch} {objects' : Hash → Option Bytes}
    {tracker' : HealthTracker} {pc' : FetchPc} (hfetch : d.fetches[event.fetch]? = some fetch)
    (h : Moves sha256 grpcToHTTP d.objects d.tracker fetch.hash fetch.pc event objects' tracker'
      pc')
    (hanswers : good.Answers sha256 d event) (huntroubled : good.Untroubled sha256 d event)
    (htrack : OnTrack (good.addr event.fetch) (good.http event.fetch) d.objects fetch.hash
      fetch.pc) :
    OnTrack (good.addr event.fetch) (good.http event.fetch) objects' fetch.hash pc' := by
  obtain ⟨hash, pc⟩ := fetch
  cases h with
  | exhaust i now => exact absurd htrack (by simp [OnTrack])
  | unknown i now peers hunknown =>
      rcases List.mem_cons.mp htrack with hhere | hlater
      · rw [← hhere, good.known] at hunknown
        cases hunknown
      · exact hlater
  | skip i now peers hhttp hhot =>
      rcases List.mem_cons.mp htrack with rfl | hlater
      · cases (good.known i).symm.trans hhttp
        have havailable := huntroubled _ hfetch rfl
        rw [hhot] at havailable
        cases havailable
      · exact hlater
  | start i now peers hhttp havailable =>
      rcases List.mem_cons.mp htrack with rfl | hlater
      · exact .inl (Option.some.inj (hhttp.symm.trans (good.known i)))
      · exact .inr hlater
  | receive i now jitter data httpPeer n peers =>
      rcases huntroubled _ hfetch data rfl with hmatch | hpresent
      · exact put_ne_none_iff.mpr (.inr ⟨rfl, hmatch⟩)
      · exact put_ne_none_iff.mpr (.inl hpresent)
  | giveUp i now jitter httpPeer peers =>
      rcases htrack with rfl | hlater
      · exact (hanswers _ hfetch rfl).elim
      · exact hlater
  | retry i now jitter httpPeer peers hn => exact htrack
  | lose i httpPeer n peers => exact huntroubled _ hfetch

/-- An untroubled step keeps all goroutines on track. -/
theorem step_all_on_track (hd : AllOnTrack good d) (hanswers : good.Answers sha256 d event)
    (huntroubled : good.Untroubled sha256 d event)
    (h : downloadStep sha256 grpcToHTTP d event = some d') : AllOnTrack good d' := by
  obtain ⟨-, -, -, hhashes⟩ := download_step_spec h
  obtain ⟨fetch, pc, hfetch, hmoves, hfetches, herrors⟩ := download_step_moves h
  have hpc := hmoves.on_track hfetch hanswers huntroubled (hd.onTrack _ fetch hfetch)
  refine ⟨hhashes.trans hd.hashes, fun i other hother => ?_, ?_⟩
  · rw [hfetches, List.getElem?_set] at hother
    split_ifs at hother with hi hlen
    · cases hother
      rwa [← hi]
    · -- another goroutine; if it has finished, its chunk is still there
      have htrack := hd.onTrack i other hother
      generalize other.pc = position at htrack ⊢
      cases position with
      | finished => exact hmoves.present htrack
      | nextPeer | attempt | exhausted => exact htrack
  · rw [herrors, if_neg, hd.errors]
    rintro rfl
    exact hpc

/-- The goroutines start on track. -/
theorem start_all_on_track (objects : Hash → Option Bytes) (tracker : HealthTracker)
    (hspawn : spawn rarity = (rarity.map fun chunk => ⟨chunk.hash, .nextPeer chunk.peers⟩, none)) :
    AllOnTrack good ⟨objects, tracker, (spawn rarity).1, []⟩ := by
  refine ⟨by simp [hspawn], fun i fetch hfetch => ?_, rfl⟩
  rw [hspawn, List.getElem?_map, Option.map_eq_some_iff] at hfetch
  obtain ⟨chunk, hchunk, rfl⟩ := hfetch
  exact good.listed i chunk hchunk

/-- When all goroutines have returned and all are on track, all chunks are there. -/
theorem AllOnTrack.stored (hd : AllOnTrack good d) (hdone : d.isDone = true) {chunk : ChunkRarity}
    (hchunk : chunk ∈ rarity) : d.objects (Hash.copy chunk.hash) ≠ none := by
  have hmem : chunk.hash ∈ d.fetches.map Fetch.hash := by
    rw [hd.hashes]
    exact List.mem_map_of_mem hchunk
  obtain ⟨fetch, hfetch, hhash⟩ := List.mem_map.mp hmem
  obtain ⟨i, hi⟩ := List.getElem?_of_mem hfetch
  have htrack := hd.onTrack i fetch hi
  have hreturned := List.all_eq_true.mp hdone fetch hfetch
  rw [← hhash]
  cases hpc : fetch.pc with
  | finished => rwa [hpc] at htrack
  | exhausted =>
      rw [hpc] at htrack
      exact htrack.elim
  | nextPeer | attempt => simp [hpc] at hreturned

/-! ## The download phase -/

/-- **One good peer per chunk is enough, if nothing troubles the goroutines.** Every schedule is
bounded, and when no goroutine can move the download has succeeded with all chunks in the
store. -/
theorem one_good_peer_suffices (good : GoodPeers grpcToHTTP rarity)
    {objects : Hash → Option Bytes} {tracker : HealthTracker} {schedule : List FetchEvent}
    (hrun : run (downloadStep sha256 grpcToHTTP) ⟨objects, tracker, (spawn rarity).1, []⟩ schedule =
      some d)
    (hanswers : Along (downloadStep sha256 grpcToHTTP) (good.Answers sha256)
      ⟨objects, tracker, (spawn rarity).1, []⟩ schedule)
    (huntroubled : Along (downloadStep sha256 grpcToHTTP) (good.Untroubled sha256)
      ⟨objects, tracker, (spawn rarity).1, []⟩ schedule) :
    schedule.length ≤ (rarity.map fun chunk => 4 * chunk.peers.length + 1).sum ∧
      ((∀ event, downloadStep sha256 grpcToHTTP d event = none) →
        download sha256 grpcToHTTP rarity objects tracker schedule = some (d, .ok ()) ∧
          ∀ chunk ∈ rarity, d.objects (Hash.copy chunk.hash) ≠ none) := by
  have hpeers : ∀ chunk ∈ rarity, chunk.peers ≠ [] := by
    intro chunk hchunk
    obtain ⟨i, hi⟩ := List.getElem?_of_mem hchunk
    exact List.ne_nil_of_mem (good.listed i chunk hi)
  have hspawn := spawn_eq hpeers
  constructor
  · have hbounded : Download.AttemptsBounded ⟨objects, tracker, (spawn rarity).1, []⟩ := by
      intro fetch hfetch
      rw [hspawn] at hfetch
      obtain ⟨chunk, -, rfl⟩ := List.mem_map.mp hfetch
      exact nofun
    have hle := run_length_le Download.AttemptsBounded Download.work hrun hbounded
      fun _ _ _ hbounded hstep => download_work_lt hstep hbounded
    have hwork : Download.work ⟨objects, tracker, (spawn rarity).1, []⟩ =
        (rarity.map fun chunk => 4 * chunk.peers.length + 1).sum := by
      simp [Download.work, hspawn, FetchPc.work, Function.comp_def]
    omega
  · intro hstuck
    have hdone := is_done_iff_stuck.mpr hstuck
    have htrack : AllOnTrack good d :=
      run_invariant (AllOnTrack good) hrun (hanswers.and huntroubled)
        (start_all_on_track objects tracker hspawn)
        fun _ _ _ hd hguard hstep => step_all_on_track hd hguard.1 hguard.2 hstep
    refine ⟨?_, fun chunk hchunk => htrack.stored hdone hchunk⟩
    simp only [download, hspawn] at hrun ⊢
    simp [hrun, hdone, htrack.errors]

/-- Two peers with their data planes. -/
def twoPeers (addr : GoString) : Option GoString :=
  if addr = ascii "x" then some (ascii "X") else if addr = ascii "y" then some (ascii "Y") else none

/-- One chunk, and its second peer is good. -/
def secondGood : GoodPeers twoPeers [⟨(Hash.sample [1]).bytes, [ascii "x", ascii "y"]⟩] where
  addr _ := ascii "y"
  http _ := ascii "Y"
  listed _ chunk h := by
    obtain rfl := List.mem_singleton.mp (List.mem_of_getElem? h)
    decide
  known _ := by decide

/-- Two chunks, and each has one good peer. -/
def lastGood : GoodPeers twoPeers [⟨(Hash.sample [1]).bytes, [ascii "y"]⟩,
    ⟨(Hash.sample [2]).bytes, [ascii "y", ascii "x"]⟩] where
  addr i := if i = 0 then ascii "y" else ascii "x"
  http i := if i = 0 then ascii "Y" else ascii "X"
  listed i chunk h := by
    match i with
    | 0 | 1 =>
        cases h
        decide
    | i + 2 => cases h
  known i := by
    by_cases h : i = 0
    · simp only [h, if_true]
      decide
    · simp only [h, if_false]
      decide

/-- The first peer fails three times, and then the good one delivers. -/
theorem one_good_peer_suffices_after_failures :
    let rarity : List ChunkRarity := [⟨(Hash.sample [1]).bytes, [ascii "x", ascii "y"]⟩]
    let schedule : List FetchEvent := [.look 0 0, .answer 0 0 none 0, .answer 0 0 none 0,
      .answer 0 0 none 0, .look 0 0, .answer 0 0 (some [1]) 0]
    ∃ d, download Hash.sample twoPeers rarity (fun _ => none) .new schedule = some (d, .ok ()) ∧
      d.objects (Hash.sample [1]) ≠ none := by
  intro rarity schedule
  have hstate : (run (downloadStep Hash.sample twoPeers)
      ⟨fun _ => none, .new, (spawn rarity).1, []⟩ schedule).map Download.isDone = some true := by
    decide
  obtain ⟨d, hrun, hdone⟩ := Option.map_eq_some_iff.mp hstate
  obtain ⟨hok, hstored⟩ := (one_good_peer_suffices secondGood hrun (by decide) (by decide)).2
    (is_done_iff_stuck.mp hdone)
  exact ⟨d, hok, hstored _ List.mem_cons_self⟩

/-- Two ways to lose a chunk that one of its peers serves well. Its first peer answers with other
bytes, and the download succeeds without the chunk; or its only peer is cooling down after it
failed to serve another chunk, and the download fails. -/
theorem one_good_peer_not_enough :
    let wrong : List FetchEvent := [.look 0 0, .answer 0 0 (some [9]) 0]
    let cooling : List FetchEvent := [.look 1 0, .answer 1 0 none 0, .look 0 0, .look 0 0,
      .answer 1 0 none 0, .answer 1 0 none 0, .look 1 0, .answer 1 0 (some [2]) 0]
    let rarity : List ChunkRarity := [⟨(Hash.sample [1]).bytes, [ascii "x", ascii "y"]⟩]
    let rarity' : List ChunkRarity := [⟨(Hash.sample [1]).bytes, [ascii "y"]⟩,
      ⟨(Hash.sample [2]).bytes, [ascii "y", ascii "x"]⟩]
    (Along (downloadStep Hash.sample twoPeers) (secondGood.Answers Hash.sample)
        ⟨fun _ => none, .new, (spawn rarity).1, []⟩ wrong ∧
      (download Hash.sample twoPeers rarity (fun _ => none) .new wrong).map
        (fun (d, result) => (result, d.objects (Hash.sample [1]))) = some (.ok (), none)) ∧
    (Along (downloadStep Hash.sample twoPeers) (lastGood.Answers Hash.sample)
        ⟨fun _ => none, .new, (spawn rarity').1, []⟩ cooling ∧
      (download Hash.sample twoPeers rarity' (fun _ => none) .new cooling).map
        (fun (d, result) => (result, d.objects (Hash.sample [1]))) =
          some (.error (.exhausted (Hash.sample [1]).bytes), none)) := by
  decide

end NuSync.Orchestrator
