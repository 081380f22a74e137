import NuSync.Dataplane.Chunk

/-!
# Requests that are not let in

`handleGetChunk` verifies a request before it does anything else. This module says what that is
worth over whole runs of a node, with any number of requests in any interleaving: requests whose
signature verifies at no time get nothing but their 403, and the node goes through the same states
as if they had never been sent (`unauthorized_change_nothing`). In particular they take no slot of
the semaphore; `busy_only_when_full` says who does.
-/

namespace NuSync.Dataplane

open NuSync.Go NuSync.Lib NuSync.Store NuSync.Auth

variable {sha256 mac : Bytes → Hash} {maxStreams : Nat} {s s' : Node} {event : NodeEvent}
  {keep : HttpRequest → Bool}

/-- The request is accepted at no time. -/
def Unauthorized (mac : Bytes → Hash) (req : HttpRequest) : Prop :=
  ∀ now, verifyHTTP mac now req ≠ .ok ()

/-- The node without the handlers of the requests that are not kept. -/
def purge (keep : HttpRequest → Bool) (s : Node) : Node :=
  { s with handlers := s.handlers.filter fun handler => keep handler.request }

/-- Where the handler of an unauthorized request can be: it has not looked at the request yet, it
has answered 403, or it is gone with the process. -/
def ChunkPc.Rejected : ChunkPc → Prop
  | .verify | .lost | .failed (.unauthorized _) => True
  | _ => False

/-- The handlers of the requests that are not kept are nowhere else. -/
def AllRejected (keep : HttpRequest → Bool) (s : Node) : Prop :=
  ∀ handler ∈ s.handlers, keep handler.request = false → handler.pc.Rejected

theorem not_holds_slot_of_rejected {pc : ChunkPc} (h : pc.Rejected) : pc.holdsSlot = false := by
  cases pc with
  | lookup => exact h.elim
  | opened => exact h.elim
  | verify | acquire | failed | served | lost => rfl

/-- The only step of an unauthorized request's handler is to answer 403; it takes no slot. -/
theorem rejected_step {inUse cur : Nat} {objects : Hash → Option Bytes} {handler : ChunkHandler}
    {event : ChunkEvent} {pc : ChunkPc} (hrequest : Unauthorized mac handler.request)
    (hpc : handler.pc.Rejected)
    (h : chunkStep mac maxStreams inUse objects handler event = some (pc, cur)) :
    pc.Rejected ∧ cur = inUse := by
  obtain ⟨request, old⟩ := handler
  cases event with
  | verify now =>
      simp only [chunkStep] at h
      split_ifs at h
      split at h
      · next hok => exact absurd hok (hrequest now)
      · cases h
        exact ⟨trivial, rfl⟩
  | acquire =>
      simp only [chunkStep] at h
      split_ifs at h with hold
      rw [hold] at hpc
      exact hpc.elim
  | lookup =>
      simp only [chunkStep] at h
      split_ifs at h with hold
      rw [hold] at hpc
      exact hpc.elim
  | serve ok =>
      simp only [chunkStep] at h
      split at h
      · exact hpc.elim
      · cases h

theorem rejected_lose {handler : ChunkHandler} (h : handler.pc.Rejected) :
    handler.lose.pc.Rejected := by
  rcases (lose_handler handler).2 with hpc | hpc
  · rwa [hpc]
  · rw [hpc]
    trivial

/-- A step keeps the handlers of unauthorized requests where they can be. -/
theorem all_rejected_step (hkeep : ∀ req, keep req = false → Unauthorized mac req)
    (h : AllRejected keep s) (hmove : NodeMoves sha256 mac maxStreams s s') :
    AllRejected keep s' := by
  cases hmove with
  | store | ask | check => exact h
  | request req =>
      intro handler hmem hreq
      rcases List.mem_append.mp hmem with hold | hnew
      · exact h handler hold hreq
      · obtain rfl := List.mem_singleton.mp hnew
        trivial
  | handle k handler event pc cur hhandler hstep =>
      intro other hmem hreq
      rcases List.mem_or_eq_of_mem_set hmem with hold | rfl
      · exact h other hold hreq
      · have hpc := h handler (List.mem_of_getElem? hhandler) hreq
        exact (rejected_step (hkeep handler.request hreq) hpc hstep).1
  | crash store hstep =>
      intro handler hmem hreq
      obtain ⟨old, hold, rfl⟩ := List.mem_map.mp hmem
      rw [(lose_handler old).1] at hreq
      exact rejected_lose (h old hold hreq)

/-- A handler that is kept takes the same step there, from its place among those that are kept: it
finds the same counter and the same objects. -/
theorem purge_handle {k : Nat} {handler : ChunkHandler} {event : ChunkEvent} {pc : ChunkPc}
    {cur : Nat} (hhandler : s.handlers[k]? = some handler)
    (hpc : chunkStep mac maxStreams s.inUse s.objects handler event = some (pc, cur))
    (hreq : keep handler.request = true) :
    ∃ j, nodeStep sha256 mac maxStreams (purge keep s) (.handle j event) =
      some (purge keep
        { s with inUse := cur, handlers := s.handlers.set k { handler with pc := pc } }) := by
  obtain ⟨j, hj, hset⟩ := exists_filter_set (p := fun other => keep other.request) hhandler hreq
  refine ⟨j, Option.bind_eq_some_iff.mpr ⟨handler, hj, ?_⟩⟩
  refine Option.bind_eq_some_iff.mpr ⟨(pc, cur), hpc, ?_⟩
  have hmoved := hset { handler with pc := pc } hreq
  simp only [purge, hmoved, Option.pure_def]

/-- A crash loses the handlers that are kept and the others alike. -/
theorem filter_lose (handlers : List ChunkHandler) :
    (handlers.map ChunkHandler.lose).filter (fun handler => keep handler.request) =
      (handlers.filter fun handler => keep handler.request).map ChunkHandler.lose := by
  rw [List.filter_map]
  congr 2
  funext handler
  exact congrArg keep (lose_handler handler).1

/-- A step of the node is a step of the node without the requests that are not kept, or nothing
there. -/
theorem purge_step (hkeep : ∀ req, keep req = false → Unauthorized mac req)
    (h : AllRejected keep s)
    (hstep : nodeStep sha256 mac maxStreams s event = some s') :
    purge keep s' = purge keep s ∨ ∃ event', (∀ req, event' = .request req → keep req = true) ∧
      nodeStep sha256 mac maxStreams (purge keep s) event' = some (purge keep s') := by
  -- only the arrival of a request has to be one that is kept
  have hallowed {event' : NodeEvent} (h : ∀ req, event' ≠ .request req) (req : HttpRequest)
      (heq : event' = .request req) : keep req = true := absurd heq (h req)
  cases event with
  | put args =>
      obtain ⟨store, hstore, rfl⟩ := Option.map_eq_some_iff.mp hstep
      exact .inr ⟨.put args, hallowed (by simp), by simp [nodeStep, purge, hstore]⟩
  | io io =>
      obtain ⟨store, hstore, rfl⟩ := Option.map_eq_some_iff.mp hstep
      exact .inr ⟨.io io, hallowed (by simp), by simp [nodeStep, purge, hstore]⟩
  | ask chunkHashes =>
      cases hstep
      exact .inr ⟨.ask chunkHashes, hallowed (by simp), rfl⟩
  | check k =>
      obtain ⟨call, hcall, hstep⟩ := Option.bind_eq_some_iff.mp hstep
      obtain ⟨next, hcheck, hstep⟩ := Option.bind_eq_some_iff.mp hstep
      cases hstep
      exact .inr ⟨.check k, hallowed (by simp), Option.bind_eq_some_iff.mpr
        ⟨call, hcall, Option.bind_eq_some_iff.mpr ⟨next, hcheck, rfl⟩⟩⟩
  | request req =>
      cases hstep
      cases hreq : keep req with
      | true =>
          refine .inr ⟨.request req, fun other hother => ?_, ?_⟩
          · cases hother
            exact hreq
          · simp [nodeStep, purge, hreq]
      | false => exact .inl (by simp [purge, hreq])
  | handle k event =>
      obtain ⟨handler, hhandler, hstep⟩ := Option.bind_eq_some_iff.mp hstep
      obtain ⟨⟨pc, cur⟩, hpc, hstep⟩ := Option.bind_eq_some_iff.mp hstep
      cases hstep
      cases hreq : keep handler.request with
      | true =>
          obtain ⟨j, hj⟩ := purge_handle hhandler hpc hreq
          exact .inr ⟨.handle j event, hallowed (by simp), hj⟩
      | false =>
          refine .inl ?_
          obtain ⟨-, rfl⟩ := rejected_step (hkeep handler.request hreq)
            (h handler (List.mem_of_getElem? hhandler) hreq) hpc
          have hsame := filter_set_of_neg (p := fun other => keep other.request) hhandler hreq
            (b := { handler with pc := pc }) hreq
          simp only [purge, hsame]
  | crash =>
      cases hstep
      exact .inr ⟨.crash, hallowed (by simp), by simp [nodeStep, purge, crashStep, filter_lose]⟩

/-- A fresh node has no handlers at all. -/
theorem purge_idle (files : CasFiles) :
    AllRejected keep (.idle files) ∧ Node.idle files = purge keep (.idle files) :=
  ⟨nofun, rfl⟩

/-- Over any run of a node, whatever else is going on there, requests that verify at no time are
answered 403 or not at all. Without them there is a run that leaves the same store, the same
availability calls and the same other requests, each as far as it got and with the same answer. -/
theorem unauthorized_change_nothing {files : CasFiles} {events : List NodeEvent}
    (hkeep : ∀ req, keep req = false → Unauthorized mac req)
    (hrun : run (nodeStep sha256 mac maxStreams) (.idle files) events = some s) :
    (∀ handler ∈ s.handlers, keep handler.request = false → handler.pc.Rejected) ∧
      ∃ events', (∀ req, NodeEvent.request req ∈ events' → keep req = true) ∧
        run (nodeStep sha256 mac maxStreams) (.idle files) events' = some (purge keep s) := by
  have hstep (state without : Node) (event : NodeEvent) (next : Node)
      (h : AllRejected keep state ∧ without = purge keep state)
      (hmove : nodeStep sha256 mac maxStreams state event = some next) :
      (AllRejected keep next ∧ without = purge keep next) ∨
        ∃ event' next', (∀ req, event' = .request req → keep req = true) ∧
          nodeStep sha256 mac maxStreams without event' = some next' ∧
          AllRejected keep next ∧ next' = purge keep next := by
    obtain ⟨hrejected, rfl⟩ := h
    have hnext := all_rejected_step hkeep hrejected (node_step_moves hmove)
    rcases purge_step hkeep hrejected hmove with hsame | ⟨event', hallowed, hmove'⟩
    · exact .inl ⟨hnext, hsame.symm⟩
    · exact .inr ⟨event', _, hallowed, hmove', hnext, rfl⟩
  obtain ⟨events', without, hallowed, hrun', hrejected, rfl⟩ := run_stutter
    (nodeStep sha256 mac maxStreams) (fun state without =>
      AllRejected keep state ∧ without = purge keep state)
    (fun event => ∀ req, event = .request req → keep req = true) hrun (purge_idle files) hstep
  exact ⟨hrejected, events', fun req hreq => hallowed _ hreq req rfl, hrun'⟩

/-- The signed sample request is accepted when it was signed. -/
theorem sample_chunk_request_verified (hash : Hash) :
    verifyHTTP .sample (5 * second) (sampleChunkRequest hash) = .ok () := by
  have hparse : parseInt (sampleChunkRequest hash).timestamp = some (unix (5 * second)) := by
    simp only [sampleChunkRequest, signHTTP]
    exact parse_int_format (by decide) (by decide)
  exact (verify_http_carried_iff ⟨_, rfl, Base64.decode_encode _⟩).mpr
    ⟨unix (5 * second), hparse, by decide, rfl⟩

/-- A request without a signature and one with it are handled at the same time. -/
theorem unauthorized_change_nothing_unsigned :
    let signed := sampleChunkRequest (Hash.sample [1])
    let step := nodeStep .sample .sample 1
    let idle := Node.idle ⟨fun _ => none, fun _ => none⟩
    ∃ s events', run step idle [.request sampleRequest, .request signed, .handle 1 (.verify
        (5 * second)), .handle 0 (.verify 0), .handle 1 .acquire] = some s ∧
      s.handlers = [⟨sampleRequest, .failed (.unauthorized .missingAuthorization)⟩,
        ⟨signed, .lookup⟩] ∧
      NodeEvent.request sampleRequest ∉ events' ∧
      run step idle events' = some { s with handlers := [⟨signed, .lookup⟩] } := by
  intro signed step idle
  let keep (req : HttpRequest) : Bool := req.authorization ≠ []
  have hkeep (req : HttpRequest) (h : keep req = false) : Unauthorized .sample req := by
    have hauth : req.authorization = [] := by simpa [keep] using h
    intro now haccepted
    simp [verifyHTTP, hauth, ascii] at haccepted
  have hsigned : keep signed = true := by
    simp [keep, signed, sampleChunkRequest, signHTTP, authorizationFor, ascii]
  have hrun : run step idle [.request sampleRequest, .request signed, .handle 1 (.verify
      (5 * second)), .handle 0 (.verify 0), .handle 1 .acquire] = some { idle with
        inUse := 1
        handlers := [⟨sampleRequest, .failed (.unauthorized .missingAuthorization)⟩,
          ⟨signed, .lookup⟩] } := by
    have hverified := sample_chunk_request_verified (Hash.sample [1])
    have hunsigned : verifyHTTP .sample 0 sampleRequest = .error .missingAuthorization := by decide
    simp [step, idle, Node.idle, nodeStep, chunkStep, tryAcquire, signed, hverified, hunsigned]
  obtain ⟨-, events', hwithout, hrun'⟩ := unauthorized_change_nothing hkeep hrun
  refine ⟨_, events', hrun, rfl, fun hmem => ?_, ?_⟩
  · have hkept := hwithout sampleRequest hmem
    simp [keep, sampleRequest] at hkept
  · have hunsigned : keep sampleRequest = false := by decide
    simp only [purge, List.filter, hunsigned, hsigned] at hrun'
    exact hrun'

/-! ## The slots -/

/-- The handlers that hold a slot. -/
def Node.holders (s : Node) : Nat := s.handlers.countP fun handler => handler.pc.holdsSlot

/-- **What a step does to the counter**: it counts a slot that is taken, if there was one left, and
one that is given back. -/
theorem slot_step {inUse cur : Nat} {objects : Hash → Option Bytes} {handler : ChunkHandler}
    {event : ChunkEvent} {pc : ChunkPc}
    (h : chunkStep mac maxStreams inUse objects handler event = some (pc, cur)) :
    (handler.pc.holdsSlot = pc.holdsSlot ∧ cur = inUse) ∨
      (handler.pc.holdsSlot = false ∧ pc.holdsSlot = true ∧ inUse < maxStreams ∧
        cur = inUse + 1) ∨
      (handler.pc.holdsSlot = true ∧ pc.holdsSlot = false ∧ cur = inUse - 1) := by
  cases event with
  | verify now =>
      simp only [chunkStep] at h
      split_ifs at h with hold
      rw [hold]
      split at h
      all_goals
        cases h
        exact .inl ⟨rfl, rfl⟩
  | acquire =>
      simp only [chunkStep, tryAcquire] at h
      split_ifs at h with hold hfree
      all_goals
        cases h
        rw [hold]
      · exact .inr (.inl ⟨rfl, rfl, hfree, rfl⟩)
      · exact .inl ⟨rfl, rfl⟩
  | lookup =>
      simp only [chunkStep] at h
      split_ifs at h with hold
      rw [hold]
      split at h
      all_goals cases h
      · exact .inl ⟨rfl, rfl⟩
      · exact .inr (.inr ⟨rfl, rfl, rfl⟩)
  | serve ok =>
      simp only [chunkStep] at h
      split at h
      · next hold =>
          cases h
          rw [hold]
          exact .inr (.inr ⟨rfl, rfl, rfl⟩)
      · cases h

/-- What is wrong with the target of a request does not depend on the slots. -/
theorem open_chunk_ne_busy (objects : Hash → Option Bytes) (uri : GoString) :
    openChunk objects uri ≠ .error .busy := by
  unfold openChunk chunkHash
  intro h
  split at h
  · next err herr =>
      cases h
      simp only at herr
      split_ifs at herr
      · cases herr
      · split at herr
        · cases herr
        · split_ifs at herr
          cases herr
  · split at h
    all_goals cases h

/-- A handler answers that the server is busy only if every slot is taken. -/
theorem busy_step {inUse cur : Nat} {objects : Hash → Option Bytes} {handler : ChunkHandler}
    {event : ChunkEvent}
    (h : chunkStep mac maxStreams inUse objects handler event = some (.failed .busy, cur)) :
    maxStreams ≤ inUse := by
  cases event with
  | verify now =>
      simp only [chunkStep] at h
      split_ifs at h
      split at h
      all_goals cases h
  | acquire =>
      simp only [chunkStep, tryAcquire] at h
      split_ifs at h with hold hfree
      · cases h
      · exact not_lt.mp hfree
  | lookup =>
      simp only [chunkStep] at h
      split_ifs at h
      split at h
      · cases h
      · next hopen =>
          cases h
          exact absurd hopen (open_chunk_ne_busy objects handler.request.uri)
  | serve ok =>
      simp only [chunkStep] at h
      split at h
      all_goals cases h

theorem holds_slot_lose (handler : ChunkHandler) : handler.lose.pc.holdsSlot = false := by
  obtain ⟨request, pc⟩ := handler
  cases pc with
  | verify | acquire | lookup | opened | failed | served | lost => rfl

/-- No step takes more slots than there are. -/
theorem in_use_step (h : s.inUse ≤ maxStreams) (hmove : NodeMoves sha256 mac maxStreams s s') :
    s'.inUse ≤ maxStreams := by
  cases hmove with
  | store | ask | check | request => exact h
  | handle k handler event pc cur hhandler hstep =>
      show cur ≤ maxStreams
      rcases slot_step hstep with ⟨-, hcur⟩ | ⟨-, -, hfree, hcur⟩ | ⟨-, -, hcur⟩ <;> omega
  | crash store hstep => exact Nat.zero_le maxStreams

/-- The counter counts the handlers that hold a slot, so nobody releases more than was taken. -/
theorem holders_step (h : s.inUse = s.holders) (hmove : NodeMoves sha256 mac maxStreams s s') :
    s'.inUse = s'.holders := by
  cases hmove with
  | store | ask | check => exact h
  | request req =>
      have hsame : Node.holders { s with handlers := s.handlers ++ [⟨req, .verify⟩] } =
          s.holders := by
        unfold Node.holders
        rw [List.countP_append]
        rfl
      exact h.trans hsame.symm
  | handle k handler event pc cur hhandler hstep =>
      have hcount := countP_set_add hhandler (fun other => other.pc.holdsSlot)
        { handler with pc := pc }
      unfold Node.holders at h
      show cur = (s.handlers.set k { handler with pc := pc }).countP (·.pc.holdsSlot)
      rcases slot_step hstep with ⟨hslot, hcur⟩ | ⟨hheld, hslot, -, hcur⟩ | ⟨hheld, hslot, hcur⟩
      · simp only [hslot] at hcount
        omega
      · simp only [hheld, hslot, if_true, Bool.false_eq_true, if_false] at hcount
        omega
      · simp only [hheld, hslot, if_true, Bool.false_eq_true, if_false] at hcount
        omega
  | crash store hstep =>
      have hnone : Node.holders ⟨store, 0, s.handlers.map .lose, s.calls.map .lose⟩ = 0 := by
        unfold Node.holders
        rw [List.countP_eq_zero]
        intro handler hmem
        obtain ⟨old, -, rfl⟩ := List.mem_map.mp hmem
        simp [holds_slot_lose]
      exact hnone.symm

/-- A handler that has answered that the server is busy has done so in this step, or before. -/
theorem busy_moves (hmove : NodeMoves sha256 mac maxStreams s s') {handler : ChunkHandler}
    (hmem : handler ∈ s'.handlers) (hbusy : handler.pc = .failed .busy) :
    handler ∈ s.handlers ∨ maxStreams ≤ s.inUse := by
  cases hmove with
  | store | ask | check => exact .inl hmem
  | request req =>
      rcases List.mem_append.mp hmem with hold | hnew
      · exact .inl hold
      · obtain rfl := List.mem_singleton.mp hnew
        cases hbusy
  | handle k old event pc cur hhandler hstep =>
      rcases List.mem_or_eq_of_mem_set hmem with hold | rfl
      · exact .inl hold
      · obtain rfl : pc = .failed .busy := hbusy
        exact .inr (busy_step hstep)
  | crash store hstep =>
      obtain ⟨old, hold, rfl⟩ := List.mem_map.mp hmem
      obtain ⟨request, pc⟩ := old
      cases pc with
      | failed | served => exact .inl hold
      | verify | acquire | lookup | opened | lost => cases hbusy

/-- The slots of a run that has led to this state: never more than there are, and all of them taken
at some point if a request was answered that the server is busy. -/
structure SlotsKept (sha256 mac : Bytes → Hash) (maxStreams : Nat) (start : Node)
    (events : List NodeEvent) (s : Node) : Prop where
  run_eq : run (nodeStep sha256 mac maxStreams) start events = some s
  bounded : s.inUse ≤ maxStreams
  counted : s.inUse = s.holders
  full : ∀ handler ∈ s.handlers, handler.pc = .failed .busy → ∃ before after mid,
    events = before ++ after ∧ run (nodeStep sha256 mac maxStreams) start before = some mid ∧
      mid.inUse = maxStreams ∧ mid.inUse = mid.holders

theorem slots_kept_step {start : Node} {events : List NodeEvent}
    (h : SlotsKept sha256 mac maxStreams start events s)
    (hstep : nodeStep sha256 mac maxStreams s event = some s') :
    SlotsKept sha256 mac maxStreams start (events ++ [event]) s' where
  run_eq := by
    rw [run_append, h.run_eq]
    exact run_cons_eq_some.mpr ⟨s', hstep, rfl⟩
  bounded := in_use_step h.bounded (node_step_moves hstep)
  counted := holders_step h.counted (node_step_moves hstep)
  full := by
    intro handler hmem hbusy
    rcases busy_moves (node_step_moves hstep) hmem hbusy with hold | hfull
    · obtain ⟨before, after, mid, rfl, hmid, hused⟩ := h.full handler hold hbusy
      exact ⟨before, after ++ [event], mid, List.append_assoc .., hmid, hused⟩
    · exact ⟨events, [event], s, rfl, h.run_eq, le_antisymm h.bounded hfull, h.counted⟩

/-- Whoever holds a slot has sent a request that verifies. -/
theorem slot_holder_verified {files : CasFiles} {events : List NodeEvent}
    (hrun : run (nodeStep sha256 mac maxStreams) (.idle files) events = some s)
    {handler : ChunkHandler} (hmem : handler ∈ s.handlers)
    (hslot : handler.pc.holdsSlot = true) : ∃ now, verifyHTTP mac now handler.request = .ok () := by
  classical
  by_contra hnone
  have hunauthorized : Unauthorized mac handler.request := not_exists.mp hnone
  have hkeep (req : HttpRequest) (h : decide (¬ Unauthorized mac req) = false) :
      Unauthorized mac req := not_not.mp (of_decide_eq_false h)
  have hrejected := run_invariant (AllRejected fun req => decide (¬ Unauthorized mac req)) hrun
    (along_true events) (purge_idle files).1
    fun _ _ _ h _ hstep => all_rejected_step hkeep h (node_step_moves hstep)
  have hpc := hrejected handler hmem (decide_eq_false (not_not.mpr hunauthorized))
  rw [not_holds_slot_of_rejected hpc] at hslot
  cases hslot

/-- Over any run of a node the counter of the semaphore is the number of requests that hold a slot,
and never more than `maxStreams`. A request is answered 429 only if all slots were taken at once by
requests that verify: those that do not cannot keep the others from the server. -/
theorem busy_only_when_full {files : CasFiles} {events : List NodeEvent}
    (hrun : run (nodeStep sha256 mac maxStreams) (.idle files) events = some s) :
    s.inUse = s.holders ∧ s.inUse ≤ maxStreams ∧
      ∀ handler ∈ s.handlers, handler.pc = .failed .busy → ∃ before after mid,
        events = before ++ after ∧
          run (nodeStep sha256 mac maxStreams) (.idle files) before = some mid ∧
          mid.inUse = maxStreams ∧ mid.inUse = mid.holders ∧
          ∀ other ∈ mid.handlers, other.pc.holdsSlot = true →
            ∃ now, verifyHTTP mac now other.request = .ok () := by
  have hkept : SlotsKept sha256 mac maxStreams (.idle files) events s :=
    run_history (SlotsKept sha256 mac maxStreams (.idle files)) hrun
      ⟨rfl, Nat.zero_le maxStreams, rfl, nofun⟩ fun _ _ _ _ h hstep => slots_kept_step h hstep
  refine ⟨hkept.counted, hkept.bounded, fun handler hmem hbusy => ?_⟩
  obtain ⟨before, after, mid, hsplit, hmid, hused, hcounted⟩ := hkept.full handler hmem hbusy
  exact ⟨before, after, mid, hsplit, hmid, hused, hcounted, fun other =>
    slot_holder_verified hmid⟩

/-- There is one slot, and two signed requests try to get it. -/
theorem busy_only_when_full_two_requests :
    let signed := sampleChunkRequest (Hash.sample [1])
    let step := nodeStep .sample .sample 1
    let idle := Node.idle ⟨fun _ => none, fun _ => none⟩
    let events : List NodeEvent := [.request signed, .request signed, .handle 0 (.verify
      (5 * second)), .handle 1 (.verify (5 * second)), .handle 1 .acquire, .handle 0 .acquire]
    ∃ s before after mid, run step idle events = some s ∧
      s.handlers = [⟨signed, .failed .busy⟩, ⟨signed, .lookup⟩] ∧ s.inUse = s.holders ∧
      s.inUse ≤ 1 ∧ events = before ++ after ∧ run step idle before = some mid ∧
      mid.inUse = 1 ∧ mid.inUse = mid.holders := by
  intro signed step idle events
  have hrun : run step idle events = some { idle with
      inUse := 1, handlers := [⟨signed, .failed .busy⟩, ⟨signed, .lookup⟩] } := by
    have hverified := sample_chunk_request_verified (Hash.sample [1])
    simp [step, idle, events, Node.idle, nodeStep, chunkStep, tryAcquire, signed, hverified]
  obtain ⟨hcounted, hbounded, hbusy⟩ := busy_only_when_full hrun
  obtain ⟨before, after, mid, hsplit, hmid, hused, hholders, -⟩ :=
    hbusy ⟨signed, .failed .busy⟩ List.mem_cons_self rfl
  exact ⟨_, before, after, mid, hrun, rfl, hcounted, hbounded, hsplit, hmid, hused, hholders⟩

end NuSync.Dataplane
