import NuSync.Lib.Replace
import NuSync.Lib.System
import NuSync.Scheduler
import NuSync.Store.Cas

/-!
# The download phase of a pull

The goroutines `Engine.Pull` of `internal/orchestrator/sync.go` starts, one for each missing
chunk. They share the blob store and the health tracker and may be scheduled in any order; a
schedule says which goroutine moves next, at what time, and what its peer answers. A chunk is in
the store afterwards exactly if it was there or was delivered (`run_download_present`).
-/

namespace NuSync.Orchestrator

open NuSync.Go NuSync.Lib NuSync.Store NuSync.Scheduler

/-- Where the goroutine of one chunk stands: about to look at the next of its peers, about to
make attempt `n` at a peer, returned, or returned after sending to `errChan`. -/
inductive FetchPc where
  | nextPeer (peers : List GoString)
  | attempt (httpPeer : GoString) (n : Nat) (peers : List GoString)
  | finished
  | exhausted
  deriving DecidableEq

/-- The goroutine of one chunk. -/
structure Fetch where
  hash : Bytes
  pc : FetchPc
  deriving DecidableEq

/-- What the goroutines share, and where each of them stands. `errors` is `errChan`. -/
structure Download where
  objects : Hash → Option Bytes
  tracker : HealthTracker
  fetches : List Fetch
  errors : List Bytes

/-- A goroutine moves: it looks at its next peer, or `FetchChunk` returns the bytes of a 200
answer (`none` is an error) and the backoff draws its jitter, or it returns bytes that `CAS.Put`
does not get to disk. -/
inductive FetchEvent where
  | look (fetch : Nat) (now : Int)
  | answer (fetch : Nat) (now : Int) (reply : Option Bytes) (jitter : Int)
  | lost (fetch : Nat)
  deriving DecidableEq

/-- The goroutine that moves. -/
def FetchEvent.fetch : FetchEvent → Nat
  | .look fetch _ => fetch
  | .answer fetch _ _ _ => fetch
  | .lost fetch => fetch

/-- The bytes that arrive and can be stored, if any. -/
def FetchEvent.received : FetchEvent → Option Bytes
  | .look _ _ => none
  | .answer _ _ reply _ => reply
  | .lost _ => none

section Steps

variable (sha256 : Bytes → Hash) (grpcToHTTP : GoString → Option GoString)

/-- One step of a goroutine on the shared store and tracker. The result of `CAS.Put` is
ignored. -/
def fetchStep (objects : Hash → Option Bytes) (tracker : HealthTracker) (fetch : Fetch) :
    FetchEvent → Option ((Hash → Option Bytes) × HealthTracker × FetchPc)
  | .look _ now =>
      match fetch.pc with
      | .nextPeer [] => some (objects, tracker, .exhausted)
      | .nextPeer (peerGrpc :: peers) =>
          match grpcToHTTP peerGrpc with
          | none => some (objects, tracker, .nextPeer peers)
          | some httpPeer =>
              let (tracker, available) := tracker.isAvailable now httpPeer
              some (objects, tracker,
                if available then .attempt httpPeer 1 peers else .nextPeer peers)
      | _ => none
  | .answer _ now reply jitter =>
      match fetch.pc with
      | .attempt httpPeer n peers =>
          match reply with
          | some data =>
              some ((put sha256 objects (Hash.copy fetch.hash) data).1, tracker, .finished)
          | none =>
              if n = 3 then some (objects, tracker, .nextPeer peers)
              else
                let backoff :=
                  calcJitteredBackoff n (500 * millisecond) (5000 * millisecond) jitter
                some (objects, tracker.markHot now httpPeer backoff,
                  .attempt httpPeer (n + 1) peers)
      | _ => none
  | .lost _ =>
      match fetch.pc with
      | .attempt _ _ _ => some (objects, tracker, .finished)
      | _ => none

/-- One step of the download. -/
def downloadStep (d : Download) (event : FetchEvent) : Option Download := do
  let fetch ← d.fetches[event.fetch]?
  let (objects, tracker, pc) ← fetchStep sha256 grpcToHTTP d.objects d.tracker fetch event
  pure
    { objects := objects
      tracker := tracker
      fetches := d.fetches.set event.fetch { fetch with pc := pc }
      errors := if pc = .exhausted then d.errors ++ [fetch.hash] else d.errors }

/-- The errors of the download phase: a chunk that no peer has, or one that no peer delivered.
The messages show the first four bytes of the hash. -/
inductive DownloadError where
  | unavailable (hash : Bytes)
  | exhausted (hash : Bytes)
  deriving DecidableEq

/-- The loop that starts the goroutines. It stops at a chunk without peers, and then the
goroutines started so far are left running. -/
def spawn : List ChunkRarity → List Fetch × Option Bytes
  | [] => ([], none)
  | chunk :: chunks =>
      if chunk.peers.length = 0 then ([], some chunk.hash)
      else
        let (fetches, unavailable) := spawn chunks
        (⟨chunk.hash, .nextPeer chunk.peers⟩ :: fetches, unavailable)

/-- All goroutines have returned, so `wg.Wait` returns. -/
def Download.isDone (d : Download) : Bool :=
  d.fetches.all fun fetch => fetch.pc == .finished || fetch.pc == .exhausted

/-- The download phase along a schedule; `none` is a schedule after which it has not come to an
end. -/
def download (rarity : List ChunkRarity) (objects : Hash → Option Bytes)
    (tracker : HealthTracker) (schedule : List FetchEvent) :
    Option (Download × Except DownloadError Unit) := do
  let (fetches, unavailable) := spawn rarity
  let d ← run (downloadStep sha256 grpcToHTTP) ⟨objects, tracker, fetches, []⟩ schedule
  match unavailable with
  | some hash => some (d, .error (.unavailable hash))
  | none =>
      if d.isDone then
        match d.errors with
        | [] => some (d, .ok ())
        | hash :: _ => some (d, .error (.exhausted hash))
      else none

end Steps

/-! ## What a download does to the store -/

variable {sha256 : Bytes → Hash} {grpcToHTTP : GoString → Option GoString}

/-- A download that has come to an end is a run of its goroutines. -/
theorem run_of_download {rarity : List ChunkRarity} {objects : Hash → Option Bytes}
    {tracker : HealthTracker} {schedule : List FetchEvent} {d : Download}
    {result : Except DownloadError Unit}
    (h : download sha256 grpcToHTTP rarity objects tracker schedule = some (d, result)) :
    run (downloadStep sha256 grpcToHTTP) ⟨objects, tracker, (spawn rarity).1, []⟩ schedule =
      some d := by
  simp only [download, Option.bind_eq_bind, Option.bind_eq_some_iff] at h
  obtain ⟨final, hrun, h⟩ := h
  rw [hrun]
  split at h
  · cases h
    rfl
  · split_ifs at h
    split at h <;> cases h <;> rfl

/-- The event brings bytes that hash to the chunk to a goroutine that wants it. -/
def FetchEvent.Delivers (sha256 : Bytes → Hash) (hashes : List Bytes) (hash : Hash)
    (event : FetchEvent) : Prop :=
  ∃ raw data, hashes[event.fetch]? = some raw ∧ Hash.copy raw = hash ∧
    event.received = some data ∧ sha256 data = hash

/-- A schedule delivers a chunk. -/
def Delivered (sha256 : Bytes → Hash) (hashes : List Bytes) (schedule : List FetchEvent)
    (hash : Hash) : Prop :=
  ∃ event ∈ schedule, event.Delivers sha256 hashes hash

/-- The moves of the goroutine of one chunk: its position and the event, and what it makes of the
store, the tracker and its position. -/
inductive Moves (sha256 : Bytes → Hash) (grpcToHTTP : GoString → Option GoString)
    (objects : Hash → Option Bytes) (tracker : HealthTracker) (hash : Bytes) :
    FetchPc → FetchEvent → (Hash → Option Bytes) → HealthTracker → FetchPc → Prop
  | exhaust (i : Nat) (now : Int) : Moves sha256 grpcToHTTP objects tracker hash
      (.nextPeer []) (.look i now) objects tracker .exhausted
  | unknown (i : Nat) (now : Int) {peer : GoString} (peers : List GoString)
      (hunknown : grpcToHTTP peer = none) : Moves sha256 grpcToHTTP objects tracker hash
      (.nextPeer (peer :: peers)) (.look i now) objects tracker (.nextPeer peers)
  | skip (i : Nat) (now : Int) {peer httpPeer : GoString} (peers : List GoString)
      (hhttp : grpcToHTTP peer = some httpPeer)
      (hhot : (tracker.isAvailable now httpPeer).2 = false) :
      Moves sha256 grpcToHTTP objects tracker hash (.nextPeer (peer :: peers)) (.look i now)
        objects (tracker.isAvailable now httpPeer).1 (.nextPeer peers)
  | start (i : Nat) (now : Int) {peer httpPeer : GoString} (peers : List GoString)
      (hhttp : grpcToHTTP peer = some httpPeer)
      (havailable : (tracker.isAvailable now httpPeer).2 = true) :
      Moves sha256 grpcToHTTP objects tracker hash (.nextPeer (peer :: peers)) (.look i now)
        objects (tracker.isAvailable now httpPeer).1 (.attempt httpPeer 1 peers)
  | receive (i : Nat) (now jitter : Int) (data : Bytes) (httpPeer : GoString) (n : Nat)
      (peers : List GoString) : Moves sha256 grpcToHTTP objects tracker hash
      (.attempt httpPeer n peers) (.answer i now (some data) jitter)
      (put sha256 objects (Hash.copy hash) data).1 tracker .finished
  | giveUp (i : Nat) (now jitter : Int) (httpPeer : GoString) (peers : List GoString) :
      Moves sha256 grpcToHTTP objects tracker hash (.attempt httpPeer 3 peers)
        (.answer i now none jitter) objects tracker (.nextPeer peers)
  | retry (i : Nat) (now jitter : Int) (httpPeer : GoString) {n : Nat} (peers : List GoString)
      (hn : n ≠ 3) : Moves sha256 grpcToHTTP objects tracker hash (.attempt httpPeer n peers)
        (.answer i now none jitter) objects
        (tracker.markHot now httpPeer
          (calcJitteredBackoff n (500 * millisecond) (5000 * millisecond) jitter))
        (.attempt httpPeer (n + 1) peers)
  | lose (i : Nat) (httpPeer : GoString) (n : Nat) (peers : List GoString) :
      Moves sha256 grpcToHTTP objects tracker hash (.attempt httpPeer n peers) (.lost i) objects
        tracker .finished

/-- A goroutine touches the store only to put the bytes it received. -/
theorem Moves.objects_eq {objects objects' : Hash → Option Bytes}
    {tracker tracker' : HealthTracker} {hash : Bytes} {event : FetchEvent} {pc pc' : FetchPc}
    (h : Moves sha256 grpcToHTTP objects tracker hash pc event objects' tracker' pc') :
    objects' = match event.received with
      | none => objects
      | some data => (put sha256 objects (Hash.copy hash) data).1 := by
  cases h <;> rfl

/-- A step of a goroutine is one of its moves. -/
theorem fetch_step_moves {objects objects' : Hash → Option Bytes}
    {tracker tracker' : HealthTracker} {fetch : Fetch} {event : FetchEvent} {pc : FetchPc}
    (h : fetchStep sha256 grpcToHTTP objects tracker fetch event = some (objects', tracker', pc)) :
    Moves sha256 grpcToHTTP objects tracker fetch.hash fetch.pc event objects' tracker' pc := by
  obtain ⟨hash, position⟩ := fetch
  cases event with
  | look i now =>
      cases position with
      | nextPeer peers =>
          cases peers with
          | nil =>
              cases h
              exact .exhaust i now
          | cons peer peers =>
              cases hhttp : grpcToHTTP peer with
              | none =>
                  simp only [fetchStep, hhttp] at h
                  cases h
                  exact .unknown i now peers hhttp
              | some httpPeer =>
                  simp only [fetchStep, hhttp] at h
                  cases havailable : (tracker.isAvailable now httpPeer).2 <;>
                    simp only [havailable, if_true, Bool.false_eq_true, if_false] at h <;> cases h
                  · exact .skip i now peers hhttp havailable
                  · exact .start i now peers hhttp havailable
      | attempt | finished | exhausted => cases h
  | answer i now reply jitter =>
      cases position with
      | attempt httpPeer n peers =>
          cases reply with
          | some data =>
              cases h
              exact .receive i now jitter data httpPeer n peers
          | none =>
              simp only [fetchStep] at h
              split_ifs at h with hn <;> cases h
              · subst hn
                exact .giveUp i now jitter httpPeer peers
              · exact .retry i now jitter httpPeer peers hn
      | nextPeer | finished | exhausted => cases h
  | lost i =>
      cases position with
      | attempt httpPeer n peers =>
          cases h
          exact .lose i httpPeer n peers
      | nextPeer | finished | exhausted => cases h

/-- A step of the download is a move of one goroutine. -/
theorem download_step_moves {d d' : Download} {event : FetchEvent}
    (h : downloadStep sha256 grpcToHTTP d event = some d') :
    ∃ fetch pc, d.fetches[event.fetch]? = some fetch ∧
      Moves sha256 grpcToHTTP d.objects d.tracker fetch.hash fetch.pc event d'.objects d'.tracker
        pc ∧
      d'.fetches = d.fetches.set event.fetch { fetch with pc := pc } ∧
      d'.errors = if pc = .exhausted then d.errors ++ [fetch.hash] else d.errors := by
  simp only [downloadStep, Option.bind_eq_bind, Option.bind_eq_some_iff, pure,
    Option.some.injEq, Prod.exists] at h
  obtain ⟨fetch, hfetch, objects, tracker, pc, hstep, rfl⟩ := h
  exact ⟨fetch, pc, hfetch, fetch_step_moves hstep, rfl, rfl⟩

/-- A step of the download: which goroutine moves, what it puts, and that the goroutines keep
their chunks. -/
theorem download_step_spec {d d' : Download} {event : FetchEvent}
    (h : downloadStep sha256 grpcToHTTP d event = some d') :
    ∃ fetch, d.fetches[event.fetch]? = some fetch ∧
      (d'.objects = match event.received with
        | none => d.objects
        | some data => (put sha256 d.objects (Hash.copy fetch.hash) data).1) ∧
      d'.fetches.map Fetch.hash = d.fetches.map Fetch.hash := by
  obtain ⟨fetch, pc, hfetch, hmoves, hfetches, -⟩ := download_step_moves h
  refine ⟨fetch, hfetch, hmoves.objects_eq, ?_⟩
  -- the goroutine that moved has the hash it had
  rw [hfetches]
  exact map_set_of_eq hfetch rfl

/-- The bytes the event brings for a chunk: they hash to it and go to a goroutine that wants it. -/
def FetchEvent.delivery (sha256 : Bytes → Hash) (hashes : List Bytes) (hash : Hash)
    (event : FetchEvent) : Option Bytes :=
  event.received.filter fun data =>
    hashes[event.fetch]?.map Hash.copy = some hash ∧ sha256 data = hash

/-- The bytes of a chunk after a schedule: those that were in the store, or else the first that the
schedule delivers. -/
def bytesAfter (sha256 : Bytes → Hash) (hashes : List Bytes) (objects : Hash → Option Bytes)
    (schedule : List FetchEvent) (hash : Hash) : Option Bytes :=
  (objects hash).or (schedule.findSome? (FetchEvent.delivery sha256 hashes hash))

theorem delivery_eq_some_iff {hashes : List Bytes} {hash : Hash} {event : FetchEvent}
    {data : Bytes} :
    event.delivery sha256 hashes hash = some data ↔ event.received = some data ∧
      (∃ raw, hashes[event.fetch]? = some raw ∧ Hash.copy raw = hash) ∧ sha256 data = hash := by
  simp only [FetchEvent.delivery, Option.filter_eq_some_iff, decide_eq_true_eq,
    Option.map_eq_some_iff]

/-- A step of the download is one delivery at most. -/
theorem download_step_objects {d d' : Download} {event : FetchEvent}
    (h : downloadStep sha256 grpcToHTTP d event = some d') (hash : Hash) :
    d'.objects hash =
      (d.objects hash).or (event.delivery sha256 (d.fetches.map Fetch.hash) hash) := by
  obtain ⟨fetch, hfetch, hobjects, -⟩ := download_step_spec h
  cases hreceived : event.received with
  | none => simp [hobjects, hreceived, FetchEvent.delivery]
  | some data =>
      simp only [hobjects, hreceived, put_apply, FetchEvent.delivery, List.getElem?_map, hfetch,
        Option.map_some, Option.filter_some, Option.some.injEq, decide_eq_true_eq]
      cases d.objects hash with
      | some bytes => simp
      | none => grind

/-- **The store after a download** holds for every chunk what was there, or else the first bytes
that were delivered for it. -/
theorem run_download_objects {d d' : Download} {schedule : List FetchEvent}
    (h : run (downloadStep sha256 grpcToHTTP) d schedule = some d') :
    d'.objects = bytesAfter sha256 (d.fetches.map Fetch.hash) d.objects schedule := by
  induction schedule generalizing d with
  | nil =>
      cases h
      funext hash
      simp [bytesAfter]
  | cons event events ih =>
      obtain ⟨next, hstep, hrest⟩ := run_cons_eq_some.mp h
      obtain ⟨-, -, -, hhashes⟩ := download_step_spec hstep
      funext hash
      rw [ih hrest, bytesAfter, bytesAfter, hhashes, download_step_objects hstep, Option.or_assoc,
        List.findSome?_cons]
      cases event.delivery sha256 (d.fetches.map Fetch.hash) hash <;> rfl

theorem bytes_after_ne_none_iff {hashes : List Bytes} {objects : Hash → Option Bytes}
    {schedule : List FetchEvent} {hash : Hash} :
    bytesAfter sha256 hashes objects schedule hash ≠ none ↔
      objects hash ≠ none ∨ Delivered sha256 hashes schedule hash := by
  have hdelivers (event : FetchEvent) :
      event.delivery sha256 hashes hash ≠ none ↔ event.Delivers sha256 hashes hash := by
    simp only [Option.ne_none_iff_exists', delivery_eq_some_iff, FetchEvent.Delivers]
    grind
  simp only [bytesAfter, ne_eq, Option.or_eq_none_iff, not_and_or, List.findSome?_eq_none_iff,
    Delivered, ← hdelivers]
  simp

/-- A chunk is in the store after a download exactly if it was there or was delivered. -/
theorem run_download_present {d d' : Download} {schedule : List FetchEvent}
    (h : run (downloadStep sha256 grpcToHTTP) d schedule = some d') (hash : Hash) :
    d'.objects hash ≠ none ↔
      d.objects hash ≠ none ∨ Delivered sha256 (d.fetches.map Fetch.hash) schedule hash := by
  rw [run_download_objects h, bytes_after_ne_none_iff]

/-- Every object after a download was there before or arrived and matches its name. -/
theorem run_download_object {d d' : Download} {schedule : List FetchEvent}
    (h : run (downloadStep sha256 grpcToHTTP) d schedule = some d') {hash : Hash} {bytes : Bytes}
    (hbytes : d'.objects hash = some bytes) :
    d.objects hash = some bytes ∨
      sha256 bytes = hash ∧ ∃ event ∈ schedule, event.received = some bytes := by
  rw [run_download_objects h, bytesAfter, Option.or_eq_some_iff] at hbytes
  refine hbytes.imp_right fun hdelivered => ?_
  obtain ⟨event, hevent, hdelivery⟩ := List.exists_of_findSome?_eq_some hdelivered.2
  obtain ⟨hreceived, -, hmatch⟩ := delivery_eq_some_iff.mp hdelivery
  exact ⟨hmatch, event, hevent, hreceived⟩

/-! ## How a download ends -/

/-- The goroutine gets bytes from a peer, whether `CAS.Put` keeps them or not. -/
def FetchEvent.Arrives : FetchEvent → Prop
  | .look _ _ => False
  | .answer _ _ reply _ => reply ≠ none
  | .lost _ => True

/-- A goroutine is finished exactly if bytes have arrived for it, and the error channel is empty
exactly if no goroutine has run out of peers. -/
structure Arrivals (events : List FetchEvent) (d : Download) : Prop where
  finished : ∀ i fetch, d.fetches[i]? = some fetch →
    (fetch.pc = .finished ↔ ∃ event ∈ events, event.fetch = i ∧ event.Arrives)
  errors : d.errors = [] ↔ ∀ fetch ∈ d.fetches, fetch.pc ≠ .exhausted

/-- A goroutine that moves was not done, and finishes when bytes arrive. -/
theorem Moves.arrives {objects objects' : Hash → Option Bytes} {tracker tracker' : HealthTracker}
    {hash : Bytes} {event : FetchEvent} {pc pc' : FetchPc}
    (h : Moves sha256 grpcToHTTP objects tracker hash pc event objects' tracker' pc') :
    pc ≠ .finished ∧ pc ≠ .exhausted ∧ (pc' = .finished ↔ event.Arrives) := by
  cases h <;> simp [FetchEvent.Arrives]

theorem arrivals_step {before : List FetchEvent} {d d' : Download} {event : FetchEvent}
    (hd : Arrivals before d) (h : downloadStep sha256 grpcToHTTP d event = some d') :
    Arrivals (before ++ [event]) d' := by
  obtain ⟨fetch, pc, hfetch, hmoves, hfetches, herrors⟩ := download_step_moves h
  obtain ⟨hrunning, hpeers, hfinished⟩ := hmoves.arrives
  have hbefore : ¬ ∃ earlier ∈ before, earlier.fetch = event.fetch ∧ earlier.Arrives :=
    fun harrived => hrunning ((hd.finished event.fetch fetch hfetch).mpr harrived)
  constructor
  · intro i found hfound
    simp only [List.mem_append, List.mem_singleton, or_and_right, exists_or, exists_eq_left]
    rw [hfetches, List.getElem?_set] at hfound
    by_cases hi : event.fetch = i
    · subst hi
      have hlt : event.fetch < d.fetches.length := (List.getElem?_eq_some_iff.mp hfetch).1
      rw [if_pos rfl, if_pos hlt] at hfound
      cases hfound
      simp [hfinished, hbefore]
    · rw [if_neg hi] at hfound
      simp [hd.finished i found hfound, hi]
  · rw [herrors, hfetches]
    split_ifs with hexhausted
    · subst hexhausted
      refine iff_of_false (by simp) fun hall => ?_
      exact hall _ (mem_set_new hfetch _) rfl
    · rw [hd.errors]
      constructor
      · intro hall other hother
        rcases List.mem_or_eq_of_mem_set hother with hold | rfl
        · exact hall other hold
        · exact hexhausted
      · intro hall other hother
        rcases mem_set_or hfetch hother { fetch with pc := pc } with rfl | hstays
        · exact hpeers
        · exact hall other hstays

/-- The loop stops exactly at a chunk without peers. -/
theorem spawn_unavailable_iff (rarity : List ChunkRarity) :
    (spawn rarity).2 = none ↔ ∀ chunk ∈ rarity, chunk.peers ≠ [] := by
  induction rarity with
  | nil => simp [spawn]
  | cons chunk rarity ih =>
      by_cases hpeers : chunk.peers = []
      · simp [spawn, hpeers]
      · simp [spawn, hpeers, ih]

theorem spawn_eq {rarity : List ChunkRarity} (h : ∀ chunk ∈ rarity, chunk.peers ≠ []) :
    spawn rarity = (rarity.map fun chunk => ⟨chunk.hash, .nextPeer chunk.peers⟩, none) := by
  induction rarity with
  | nil => rfl
  | cons chunk rarity ih =>
      have hpeers := h chunk (by simp)
      simp [spawn, hpeers, ih fun c hc => h c (by simp [hc])]

/-- The goroutines of all chunks have finished as far as bytes have arrived for them. -/
theorem arrivals_run {rarity : List ChunkRarity} {objects : Hash → Option Bytes}
    {tracker : HealthTracker} {schedule : List FetchEvent} {d : Download}
    (hrun : run (downloadStep sha256 grpcToHTTP)
      ⟨objects, tracker, rarity.map fun chunk => ⟨chunk.hash, .nextPeer chunk.peers⟩, []⟩ schedule =
        some d) :
    Arrivals schedule d ∧ d.fetches.length = rarity.length := by
  constructor
  · refine run_history Arrivals hrun ⟨?_, by simp⟩ fun _ _ _ _ hd hstep => arrivals_step hd hstep
    intro i fetch hfetch
    obtain ⟨chunk, -, rfl⟩ := List.mem_map.mp (List.mem_of_getElem? hfetch)
    simp
  · refine run_invariant (fun s => s.fetches.length = rarity.length) hrun
      (along_true schedule) (by simp) fun s event next hs _ hstep => ?_
    obtain ⟨-, -, -, hmap⟩ := download_step_spec hstep
    simpa [hs] using congrArg List.length hmap

/-- **How a download ends**: without an error exactly if every chunk has a peer and bytes arrive for
the goroutine of every chunk. -/
theorem download_ok_iff {rarity : List ChunkRarity} {objects : Hash → Option Bytes}
    {tracker : HealthTracker} {schedule : List FetchEvent} {d : Download}
    {result : Except DownloadError Unit}
    (h : download sha256 grpcToHTTP rarity objects tracker schedule = some (d, result)) :
    result = .ok () ↔ (∀ chunk ∈ rarity, chunk.peers ≠ []) ∧
      ∀ i < rarity.length, ∃ event ∈ schedule, event.fetch = i ∧ event.Arrives := by
  have hrun := run_of_download h
  cases hspawn : (spawn rarity).2 with
  | some hash =>
      have hpeers : ¬ ∀ chunk ∈ rarity, chunk.peers ≠ [] := by
        rw [← spawn_unavailable_iff, hspawn]
        simp
      simp only [download, hrun, hspawn, Option.bind_eq_bind, Option.bind_some,
        Option.some.injEq, Prod.mk.injEq] at h
      simp [← h.2, hpeers]
  | none =>
      have hpeers := (spawn_unavailable_iff rarity).mp hspawn
      rw [spawn_eq hpeers] at hrun
      obtain ⟨harrivals, hlength⟩ := arrivals_run hrun
      have hdone : d.isDone = true ∧ (result = .ok () ↔ d.errors = []) := by
        simp only [download, run_of_download h, hspawn, Option.bind_eq_bind, Option.bind_some] at h
        split_ifs at h with hdone
        refine ⟨hdone, ?_⟩
        split at h <;> cases h <;> simp [*]
      have hended (fetch : Fetch) (hfetch : fetch ∈ d.fetches) :
          fetch.pc = .finished ∨ fetch.pc = .exhausted := by
        simpa using List.all_eq_true.mp hdone.1 fetch hfetch
      rw [hdone.2, harrivals.errors, ← hlength]
      constructor
      · intro hall
        refine ⟨hpeers, fun i hi => ?_⟩
        have hmem := List.getElem_mem hi
        exact (harrivals.finished i _ (List.getElem?_eq_getElem hi)).mp
          ((hended _ hmem).resolve_right (hall _ hmem))
      · rintro ⟨-, harrived⟩ fetch hfetch
        obtain ⟨i, hi, rfl⟩ := List.getElem_of_mem hfetch
        rw [(harrivals.finished i _ (List.getElem?_eq_getElem hi)).mpr (harrived i hi)]
        simp

/-! ## A download that succeeds -/

/-- A step of the goroutine after `before`. -/
theorem download_step_at {event : FetchEvent} {before : List Fetch}
    (hevent : event.fetch = before.length) (objects : Hash → Option Bytes)
    (tracker : HealthTracker) (fetch : Fetch) (after : List Fetch) (errors : List Bytes) :
    downloadStep sha256 grpcToHTTP ⟨objects, tracker, before ++ fetch :: after, errors⟩ event =
      (fetchStep sha256 grpcToHTTP objects tracker fetch event).map fun (objects, tracker, pc) =>
        ⟨objects, tracker, before ++ { fetch with pc := pc } :: after,
          if pc = .exhausted then errors ++ [fetch.hash] else errors⟩ := by
  simp only [downloadStep, hevent, List.getElem?_append_right le_rfl, Nat.sub_self,
    List.getElem?_cons_zero, Option.bind_eq_bind, Option.bind_some,
    List.set_append_right _ _ le_rfl, List.set_cons_zero]
  cases fetchStep sha256 grpcToHTTP objects tracker fetch event <;> rfl

/-- Goroutines that all have a known peer to start with can finish one after the other: each
asks that peer once. With a full store nothing else changes. -/
theorem exists_run_download (sha256 : Bytes → Hash) {objects : Hash → Option Bytes}
    (hfull : ∀ hash, objects hash ≠ none) (before : List Fetch) {pending : List Fetch}
    (hpending : ∀ fetch ∈ pending, ∃ addr rest http,
      fetch.pc = .nextPeer (addr :: rest) ∧ grpcToHTTP addr = some http) :
    ∃ schedule finished, (∀ fetch ∈ finished, fetch.pc = .finished) ∧
      run (downloadStep sha256 grpcToHTTP) ⟨objects, .new, before ++ pending, []⟩ schedule =
        some ⟨objects, .new, before ++ finished, []⟩ := by
  induction pending generalizing before with
  | nil => exact ⟨[], [], by simp, rfl⟩
  | cons fetch pending ih =>
      obtain ⟨addr, rest, http, hpc, hhttp⟩ := hpending fetch (by simp)
      obtain ⟨schedule, finished, hfinished, hrun⟩ :=
        ih (before ++ [{ fetch with pc := .finished }]) fun f hf => hpending f (by simp [hf])
      refine ⟨.look before.length 0 :: .answer before.length 0 (some []) 0 :: schedule,
        { fetch with pc := .finished } :: finished, by simpa using hfinished, ?_⟩
      have hput : (put sha256 objects (Hash.copy fetch.hash) []).1 = objects := by
        funext name
        obtain ⟨bytes, hbytes⟩ := Option.ne_none_iff_exists'.mp (hfull name)
        rw [put_of_some hbytes, hbytes]
      rw [run_cons, download_step_at rfl]
      simp only [fetchStep, hpc, hhttp, HealthTracker.isAvailable, HealthTracker.new, if_true,
        Option.map_some, Option.bind_eq_bind, Option.bind_some, run_cons]
      rw [download_step_at rfl]
      simp only [fetchStep, hput, Option.map_some, Option.bind_some, reduceCtorEq, if_false]
      simpa [HealthTracker.new] using hrun

/-- A download in which every missing chunk has a known peer first can succeed. -/
theorem exists_download {objects : Hash → Option Bytes} (hfull : ∀ hash, objects hash ≠ none)
    {rarity : List ChunkRarity}
    (hpeers : ∀ chunk ∈ rarity, ∃ addr rest http,
      chunk.peers = addr :: rest ∧ grpcToHTTP addr = some http) :
    ∃ schedule d, d.objects = objects ∧
      download sha256 grpcToHTTP rarity objects .new schedule = some (d, .ok ()) := by
  have hspawn : spawn rarity =
      (rarity.map fun chunk => ⟨chunk.hash, .nextPeer chunk.peers⟩, none) := by
    refine spawn_eq fun chunk hchunk => ?_
    obtain ⟨addr, rest, _, heq, -⟩ := hpeers chunk hchunk
    simp [heq]
  have hpending : ∀ fetch ∈ rarity.map fun chunk => (⟨chunk.hash, .nextPeer chunk.peers⟩ : Fetch),
      ∃ addr rest http, fetch.pc = .nextPeer (addr :: rest) ∧ grpcToHTTP addr = some http := by
    intro fetch hfetch
    obtain ⟨chunk, hchunk, rfl⟩ := List.mem_map.mp hfetch
    obtain ⟨addr, rest, http, heq, hhttp⟩ := hpeers chunk hchunk
    exact ⟨addr, rest, http, by rw [heq], hhttp⟩
  obtain ⟨schedule, finished, hfinished, hrun⟩ := exists_run_download sha256 hfull [] hpending
  refine ⟨schedule, ⟨objects, .new, finished, []⟩, rfl, ?_⟩
  have hdone : (⟨objects, .new, finished, []⟩ : Download).isDone = true := by
    rw [Download.isDone, List.all_eq_true]
    intro fetch hfetch
    simp [hfinished fetch hfetch]
  rw [List.nil_append, List.nil_append] at hrun
  simp [download, hspawn, hrun, hdone]

end NuSync.Orchestrator
