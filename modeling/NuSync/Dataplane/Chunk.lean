import NuSync.Auth.Http
import NuSync.Control.Service
import NuSync.Go.Text
import NuSync.Lib.Replace
import NuSync.Store.CasCrash

/-!
# Chunk requests

`Server.handleGetChunk` of `internal/dataplane/server.go` beside `GetChunkAvailability` of
`internal/control/service.go`, over one store. One reads a hash as hexadecimal text out of a URL,
the other as raw bytes, and both look while `Put` calls go on. `advertised_chunks_fetchable` says
that what one of them has found is found by the other from then on.
-/

namespace NuSync.Dataplane

open NuSync.Go NuSync.Lib NuSync.Store NuSync.Auth NuSync.Control

/-! ## The handler -/

/-- The errors of `/chunk` before there is a file. -/
inductive ChunkError where
  | unauthorized (err : VerifyError)
  | busy
  | invalidHash
  | malformedHex
  | notFound
  deriving DecidableEq

/-- Their HTTP status. -/
def ChunkError.status : ChunkError → Nat
  | .unauthorized _ => 403
  | .busy => 429
  | .invalidHash | .malformedHex => 400
  | .notFound => 404

/-- The hash that a request target names: the `h` parameter of its query. -/
def chunkHash (uri : GoString) : Except ChunkError Hash :=
  let hashHex := getParam (parseQuery (cut 0x3F uri).2) (ascii "h")
  if hashHex.length ≠ 64 then .error .invalidHash
  else
    match decodeHex hashHex with
    | none => .error .malformedHex
    | some decoded =>
        if decoded.length ≠ 32 then .error .malformedHex else .ok (Hash.copy decoded)

/-- `handleGetChunk` from the query to `GetFile`. -/
def openChunk (objects : Hash → Option Bytes) (uri : GoString) : Except ChunkError Bytes :=
  match chunkHash uri with
  | .error err => .error err
  | .ok hash =>
      match Store.get objects hash with
      | none => .error .notFound
      | some bytes => .ok bytes

/-- Where a handler stands: before it verifies the request, tries to get a slot and looks for the
file; with the file open; answered with an error, or with the file (`ok` is whether `Stat`
succeeded); or gone with the process. -/
inductive ChunkPc where
  | verify
  | acquire
  | lookup
  | opened (bytes : Bytes)
  | failed (err : ChunkError)
  | served (bytes : Bytes) (ok : Bool)
  | lost
  deriving DecidableEq

/-- It has a slot of the semaphore. -/
def ChunkPc.holdsSlot : ChunkPc → Bool
  | .lookup | .opened _ => true
  | _ => false

/-- The bytes of the file it has opened. -/
def ChunkPc.file : ChunkPc → Option Bytes
  | .opened bytes | .served bytes _ => some bytes
  | _ => none

/-- A request that is being handled. -/
structure ChunkHandler where
  request : HttpRequest
  pc : ChunkPc

/-- The steps of a handler. -/
inductive ChunkEvent where
  | verify (now : Int)
  | acquire
  | lookup
  | serve (ok : Bool)

/-- `semaphore.Weighted.TryAcquire(1)` on the counter of the slots that are in use. -/
def tryAcquire (maxStreams inUse : Nat) : Option Nat :=
  if inUse < maxStreams then some (inUse + 1) else none

/-- `semaphore.Weighted.Release(1)`. -/
def release (inUse : Nat) : Nat := inUse - 1

/-- One step of a handler, with the counter of the semaphore before and after it. Whatever ends a
request that has a slot runs the deferred `Release`. -/
def chunkStep (mac : Bytes → Hash) (maxStreams inUse : Nat) (objects : Hash → Option Bytes)
    (handler : ChunkHandler) : ChunkEvent → Option (ChunkPc × Nat)
  | .verify now =>
      if handler.pc = .verify then
        match verifyHTTP mac now handler.request with
        | .ok () => some (.acquire, inUse)
        | .error err => some (.failed (.unauthorized err), inUse)
      else none
  | .acquire =>
      if handler.pc = .acquire then
        match tryAcquire maxStreams inUse with
        | some cur => some (.lookup, cur)
        | none => some (.failed .busy, inUse)
      else none
  | .lookup =>
      if handler.pc = .lookup then
        match openChunk objects handler.request.uri with
        | .ok bytes => some (.opened bytes, inUse)
        | .error err => some (.failed err, release inUse)
      else none
  | .serve ok =>
      match handler.pc with
      | .opened bytes => some (.served bytes ok, release inUse)
      | _ => none

/-! ## The call -/

/-- Where a `GetChunkAvailability` call stands: it has these hashes to look at, it has returned, or
it is gone with the process. -/
inductive AvailabilityPc where
  | loop (todo : List Bytes)
  | returned
  | lost

/-- A `GetChunkAvailability` call, with what it has found so far. -/
structure AvailabilityCall where
  asked : List Bytes
  pc : AvailabilityPc
  available : List Bytes

/-- The body of the loop for the next hash, or the return. -/
def AvailabilityCall.check (call : AvailabilityCall) (objects : Hash → Option Bytes) :
    Option AvailabilityCall :=
  match call.pc with
  | .loop (rawHash :: todo) =>
      some { call with
        pc := .loop todo
        available := call.available ++ getChunkAvailability objects [rawHash] }
  | .loop [] => some { call with pc := .returned }
  | .returned | .lost => none

/-- What the call returns if the objects stay as they are. -/
def AvailabilityCall.result (call : AvailabilityCall) (objects : Hash → Option Bytes) :
    List Bytes :=
  match call.pc with
  | .loop todo => call.available ++ getChunkAvailability objects todo
  | .returned | .lost => call.available

/-- Run alone, the loop computes `getChunkAvailability`. -/
theorem result_check {objects : Hash → Option Bytes} {call next : AvailabilityCall}
    (h : call.check objects = some next) : next.result objects = call.result objects := by
  obtain ⟨asked, pc, available⟩ := call
  cases pc with
  | loop todo =>
      cases todo with
      | nil =>
          obtain rfl := Option.some.inj h
          exact (List.append_nil available).symm
      | cons rawHash todo =>
          obtain rfl := Option.some.inj h
          have hsplit : getChunkAvailability objects (rawHash :: todo) =
              getChunkAvailability objects [rawHash] ++ getChunkAvailability objects todo :=
            List.filter_append [rawHash] todo
          simp only [AvailabilityCall.result, hsplit, List.append_assoc]
  | returned | lost => cases h

/-! ## The node -/

/-- A node: its store, the counter of the semaphore, and the requests and calls there have been. -/
structure Node where
  store : CrashState
  inUse : Nat
  handlers : List ChunkHandler
  calls : List AvailabilityCall

/-- A node that has just started on these files. -/
def Node.idle (files : CasFiles) : Node := ⟨.idle files, 0, [], []⟩

/-- The objects of the store. -/
def Node.objects (s : Node) : Hash → Option Bytes := s.store.files.objects

/-- What happens to a node: `Put` is called or goes on, `GetChunkAvailability` is called or goes on,
a request for `/chunk` arrives or is handled, or the process crashes and is started again. -/
inductive NodeEvent where
  | put (args : PutCall)
  | io (io : Io)
  | ask (chunkHashes : List Bytes)
  | check (k : Nat)
  | request (req : HttpRequest)
  | handle (k : Nat) (event : ChunkEvent)
  | crash

/-- A handler when the process crashes. -/
def ChunkHandler.lose (handler : ChunkHandler) : ChunkHandler :=
  match handler.pc with
  | .failed _ | .served _ _ => handler
  | _ => { handler with pc := .lost }

/-- A call when the process crashes. -/
def AvailabilityCall.lose (call : AvailabilityCall) : AvailabilityCall :=
  match call.pc with
  | .returned => call
  | _ => { call with pc := .lost }

/-- One step. -/
def nodeStep (sha256 mac : Bytes → Hash) (maxStreams : Nat) (s : Node) : NodeEvent → Option Node
  | .put args => (crashStep sha256 s.store (.call args)).map fun store => { s with store := store }
  | .io io => (crashStep sha256 s.store (.step io)).map fun store => { s with store := store }
  | .ask chunkHashes => some { s with calls := s.calls ++ [⟨chunkHashes, .loop chunkHashes, []⟩] }
  | .check k => do
      let call ← s.calls[k]?
      let next ← call.check s.objects
      pure { s with calls := s.calls.set k next }
  | .request req => some { s with handlers := s.handlers ++ [⟨req, .verify⟩] }
  | .handle k event => do
      let handler ← s.handlers[k]?
      let (pc, cur) ← chunkStep mac maxStreams s.inUse s.objects handler event
      pure { s with inUse := cur, handlers := s.handlers.set k { handler with pc := pc } }
  | .crash =>
      (crashStep sha256 s.store .crash).map fun store =>
        ⟨store, 0, s.handlers.map .lose, s.calls.map .lose⟩

/-! ## One hash, two readings -/

/-- The part of the URL `http://%s/chunk?h=%s` of `FetchChunk` after the peer's address. -/
def chunkTail (hash : Hash) : GoString := ascii "/chunk?h=" ++ encodeHex hash.bytes

/-- The request target that reaches the server; `none` if no request does. -/
def chunkTarget (hash : Hash) : Option GoString := do
  let uri ← requestURI (chunkTail hash)
  parseRequestLine (requestLine uri)

/-- The URL reaches the server as it is. -/
theorem chunk_target (hash : Hash) : chunkTarget hash = some (chunkTail hash) := by
  have hplain {p : UInt8 → Bool} (hpath : (ascii "/chunk?h=").any p = false)
      (hdigits : ∀ n : Fin 16, ¬ p (hexDigit n) = true) : (chunkTail hash).any p = false := by
    rw [chunkTail, List.any_append, hpath, Bool.false_or, List.any_eq_false]
    exact forall_mem_encode_hex hdigits hash.bytes
  have hctl : (chunkTail hash).any isCtl = false := hplain (by decide) (by decide)
  have hnot (c : UInt8) (hpath : (ascii "/chunk?h=").any (· == c) = false)
      (hdigits : ∀ n : Fin 16, ¬ (hexDigit n == c) = true) : c ∉ chunkTail hash := by
    intro hmem
    simpa using List.any_eq_false.mp (hplain hpath hdigits) c hmem
  have huri : requestURI (chunkTail hash) = some (chunkTail hash) := by
    rw [requestURI, cut_of_not_mem (hnot 0x23 (by decide) (by decide))]
    simp only [hctl, Bool.false_eq_true, if_false]
    rfl
  rw [chunkTarget, huri, Option.bind_eq_bind, Option.bind_some, parse_request_line,
    if_neg (hnot 0x20 (by decide) (by decide))]

/-- The path and the query of the URL. -/
theorem cut_chunk_tail (hash : Hash) :
    cut 0x3F (chunkTail hash) = (ascii "/chunk", ascii "h" ++ 0x3D :: encodeHex hash.bytes) := by
  have hsplit : chunkTail hash =
      ascii "/chunk" ++ 0x3F :: (ascii "h" ++ 0x3D :: encodeHex hash.bytes) := by
    simp [chunkTail, ascii]
  rw [hsplit, cut_append_cons (by decide)]

/-- The server reads the hash that was meant. -/
theorem chunk_hash_tail (hash : Hash) : chunkHash (chunkTail hash) = .ok hash := by
  have hspecial : (encodeHex hash.bytes).any isSpecial = false := by
    rw [List.any_eq_false]
    exact forall_mem_encode_hex (by decide) hash.bytes
  have hparam : getParam (parseQuery (ascii "h" ++ 0x3D :: encodeHex hash.bytes)) (ascii "h") =
      encodeHex hash.bytes := get_param_of_plain (by decide) (by decide) hspecial
  have hlen : (encodeHex hash.bytes).length = 64 := by
    rw [length_encode_hex, hash.length_eq]
  simp [chunkHash, cut_chunk_tail, hparam, hlen, decode_encode_hex, hash.length_eq]

/-- A handler opens the file of the hash that its request names. -/
theorem open_chunk_eq_ok {objects : Hash → Option Bytes} {uri : GoString} {hash : Hash}
    (hhash : chunkHash uri = .ok hash) {bytes : Bytes} :
    openChunk objects uri = .ok bytes ↔ objects hash = some bytes := by
  simp only [openChunk, hhash, Store.get]
  cases objects hash with
  | none => simp
  | some found => simp

/-! ## What a step does -/

variable {sha256 mac : Bytes → Hash} {maxStreams : Nat} {s s' : Node} {event : NodeEvent}

/-- The steps of a node. -/
inductive NodeMoves (sha256 mac : Bytes → Hash) (maxStreams : Nat) (s : Node) : Node → Prop
  | store (event : CrashEvent) (store : CrashState)
      (hstep : crashStep sha256 s.store event = some store) :
      NodeMoves sha256 mac maxStreams s { s with store := store }
  | ask (chunkHashes : List Bytes) :
      NodeMoves sha256 mac maxStreams s
        { s with calls := s.calls ++ [⟨chunkHashes, .loop chunkHashes, []⟩] }
  | check (k : Nat) (call next : AvailabilityCall) (hcall : s.calls[k]? = some call)
      (hcheck : call.check s.objects = some next) :
      NodeMoves sha256 mac maxStreams s { s with calls := s.calls.set k next }
  | request (req : HttpRequest) :
      NodeMoves sha256 mac maxStreams s { s with handlers := s.handlers ++ [⟨req, .verify⟩] }
  | handle (k : Nat) (handler : ChunkHandler) (event : ChunkEvent) (pc : ChunkPc) (cur : Nat)
      (hhandler : s.handlers[k]? = some handler)
      (hstep : chunkStep mac maxStreams s.inUse s.objects handler event = some (pc, cur)) :
      NodeMoves sha256 mac maxStreams s
        { s with inUse := cur, handlers := s.handlers.set k { handler with pc := pc } }
  | crash (store : CrashState) (hstep : crashStep sha256 s.store .crash = some store) :
      NodeMoves sha256 mac maxStreams s ⟨store, 0, s.handlers.map .lose, s.calls.map .lose⟩

theorem node_step_moves (h : nodeStep sha256 mac maxStreams s event = some s') :
    NodeMoves sha256 mac maxStreams s s' := by
  cases event with
  | put args =>
      obtain ⟨store, hstep, rfl⟩ := Option.map_eq_some_iff.mp h
      exact .store (.call args) store hstep
  | io io =>
      obtain ⟨store, hstep, rfl⟩ := Option.map_eq_some_iff.mp h
      exact .store (.step io) store hstep
  | ask chunkHashes =>
      obtain rfl := Option.some.inj h
      exact .ask chunkHashes
  | check k =>
      obtain ⟨call, hcall, h⟩ := Option.bind_eq_some_iff.mp h
      obtain ⟨next, hcheck, h⟩ := Option.bind_eq_some_iff.mp h
      obtain rfl := Option.some.inj h
      exact .check k call next hcall hcheck
  | request req =>
      obtain rfl := Option.some.inj h
      exact .request req
  | handle k event =>
      obtain ⟨handler, hhandler, h⟩ := Option.bind_eq_some_iff.mp h
      obtain ⟨⟨pc, cur⟩, hstep, h⟩ := Option.bind_eq_some_iff.mp h
      obtain rfl := Option.some.inj h
      exact .handle k handler event pc cur hhandler hstep
  | crash =>
      obtain rfl := Option.some.inj h
      exact .crash _ rfl

/-- The steps of a handler, by what it is about to do. -/
theorem chunk_step_cases {inUse cur : Nat} {objects : Hash → Option Bytes}
    {handler : ChunkHandler} {event : ChunkEvent} {pc : ChunkPc}
    (h : chunkStep mac maxStreams inUse objects handler event = some (pc, cur)) :
    (pc = .acquire ∨ pc = .lookup ∨
        ∃ err, pc = .failed err ∧ (err.status = 403 ∨ err.status = 429)) ∨
      (∃ bytes, openChunk objects handler.request.uri = .ok bytes ∧ pc = .opened bytes) ∨
      (∃ err, openChunk objects handler.request.uri = .error err ∧ pc = .failed err) ∨
      ∃ bytes ok, handler.pc = .opened bytes ∧ pc = .served bytes ok := by
  cases event with
  | verify now =>
      simp only [chunkStep] at h
      split_ifs at h
      split at h
      · cases h
        exact .inl (.inl rfl)
      · cases h
        exact .inl (.inr (.inr ⟨_, rfl, .inl rfl⟩))
  | acquire =>
      simp only [chunkStep] at h
      split_ifs at h
      split at h
      · cases h
        exact .inl (.inr (.inl rfl))
      · cases h
        exact .inl (.inr (.inr ⟨_, rfl, .inr rfl⟩))
  | lookup =>
      simp only [chunkStep] at h
      split_ifs at h
      split at h
      · next bytes hopen =>
          cases h
          exact .inr (.inl ⟨bytes, hopen, rfl⟩)
      · next err hopen =>
          cases h
          exact .inr (.inr (.inl ⟨err, hopen, rfl⟩))
  | serve ok =>
      simp only [chunkStep] at h
      split at h
      · next bytes hpc =>
          cases h
          exact .inr (.inr (.inr ⟨bytes, ok, hpc, rfl⟩))
      · cases h

/-! ## What holds in every state -/

/-- The store is consistent, what has been found available is there, and what was opened has the
hash that was asked for. -/
structure NodeInv (sha256 : Bytes → Hash) (s : Node) : Prop where
  store : Consistent sha256 s.store
  available : ∀ call ∈ s.calls, ∀ hash : Hash, hash.bytes ∈ call.available → s.objects hash ≠ none
  opened : ∀ handler ∈ s.handlers, ∀ bytes, handler.pc.file = some bytes →
    chunkHash handler.request.uri = .ok (sha256 bytes)

theorem node_inv_idle {files : CasFiles} (h : ValidObjects sha256 files.objects) :
    NodeInv sha256 (.idle files) where
  store := ⟨h, nofun⟩
  available := nofun
  opened := nofun

/-- An object that is there stays there. -/
theorem taken_step (hinv : NodeInv sha256 s) (hmove : NodeMoves sha256 mac maxStreams s s')
    {hash : Hash} (htaken : s.objects hash ≠ none) : s'.objects hash ≠ none := by
  cases hmove with
  | store event store hstep => exact (crash_step_keeps hinv.store hstep).2 hash htaken
  | ask | check | request | handle => exact htaken
  | crash store hstep => exact (crash_step_keeps hinv.store hstep).2 hash htaken

/-- What a call finds is there. -/
theorem available_check {objects : Hash → Option Bytes} {call next : AvailabilityCall}
    (h : call.check objects = some next) {hash : Hash}
    (hcall : hash.bytes ∈ call.available → objects hash ≠ none)
    (hnext : hash.bytes ∈ next.available) : objects hash ≠ none := by
  unfold AvailabilityCall.check at h
  split at h
  · obtain rfl := Option.some.inj h
    rcases List.mem_append.mp hnext with hold | hnew
    · exact hcall hold
    · exact (mem_availability_iff.mp hnew).2
  · obtain rfl := Option.some.inj h
    exact hcall hnext
  all_goals cases h

/-- What a handler opens has the hash that its request names. -/
theorem file_step {objects : Hash → Option Bytes} (hvalid : ValidObjects sha256 objects)
    {inUse cur : Nat} {handler : ChunkHandler} {event : ChunkEvent} {pc : ChunkPc}
    (h : chunkStep mac maxStreams inUse objects handler event = some (pc, cur))
    (hhandler : ∀ bytes, handler.pc.file = some bytes →
      chunkHash handler.request.uri = .ok (sha256 bytes)) :
    ∀ bytes, pc.file = some bytes → chunkHash handler.request.uri = .ok (sha256 bytes) := by
  intro bytes hfile
  rcases chunk_step_cases h with
    (rfl | rfl | ⟨err, rfl, -⟩) | ⟨found, hopen, rfl⟩ | ⟨err, -, rfl⟩ | ⟨found, ok, hpc, rfl⟩
  · cases hfile
  · cases hfile
  · cases hfile
  · cases hfile
    cases hhash : chunkHash handler.request.uri with
    | error err => simp [openChunk, hhash] at hopen
    | ok hash => rw [hvalid hash bytes ((open_chunk_eq_ok hhash).mp hopen)]
  · cases hfile
  · cases hfile
    exact hhandler bytes (by rw [hpc]; rfl)

theorem lose_call (call : AvailabilityCall) :
    call.lose.asked = call.asked ∧ call.lose.available = call.available := by
  unfold AvailabilityCall.lose
  split <;> exact ⟨rfl, rfl⟩

/-- A crash opens no file. -/
theorem lose_handler (handler : ChunkHandler) :
    handler.lose.request = handler.request ∧
      (handler.lose.pc = handler.pc ∨ handler.lose.pc = .lost) := by
  unfold ChunkHandler.lose
  split
  · exact ⟨rfl, .inl rfl⟩
  · exact ⟨rfl, .inl rfl⟩
  · exact ⟨rfl, .inr rfl⟩

theorem node_inv_step (hinv : NodeInv sha256 s) (hmove : NodeMoves sha256 mac maxStreams s s') :
    NodeInv sha256 s' := by
  have hkeep {hash : Hash} (htaken : s.objects hash ≠ none) : s'.objects hash ≠ none :=
    taken_step hinv hmove htaken
  cases hmove with
  | store event store hstep =>
      exact ⟨(crash_step_keeps hinv.store hstep).1,
        fun call hmem hash hlisted => hkeep (hinv.available call hmem hash hlisted), hinv.opened⟩
  | ask chunkHashes =>
      refine ⟨hinv.store, fun call hmem hash hlisted => ?_, hinv.opened⟩
      rcases List.mem_append.mp hmem with hold | hnew
      · exact hinv.available call hold hash hlisted
      · obtain rfl := List.mem_singleton.mp hnew
        cases hlisted
  | check k call next hcall hcheck =>
      refine ⟨hinv.store, fun other hmem hash hlisted => ?_, hinv.opened⟩
      rcases List.mem_or_eq_of_mem_set hmem with hold | rfl
      · exact hinv.available other hold hash hlisted
      · exact available_check hcheck (hinv.available call (List.mem_of_getElem? hcall) hash) hlisted
  | request req =>
      refine ⟨hinv.store, hinv.available, fun handler hmem bytes hfile => ?_⟩
      rcases List.mem_append.mp hmem with hold | hnew
      · exact hinv.opened handler hold bytes hfile
      · obtain rfl := List.mem_singleton.mp hnew
        cases hfile
  | handle k handler event pc cur hhandler hstep =>
      have hvalid : ValidObjects sha256 s.objects := hinv.store.valid
      have hfile := file_step hvalid hstep (hinv.opened handler (List.mem_of_getElem? hhandler))
      refine ⟨hinv.store, hinv.available, fun other hmem => ?_⟩
      rcases List.mem_or_eq_of_mem_set hmem with hold | rfl
      · exact hinv.opened other hold
      · exact hfile
  | crash store hstep =>
      refine ⟨(crash_step_keeps hinv.store hstep).1, fun call hmem hash hlisted => ?_,
        fun handler hmem bytes hfile => ?_⟩
      · obtain ⟨old, hold, rfl⟩ := List.mem_map.mp hmem
        rw [(lose_call old).2] at hlisted
        exact hkeep (hinv.available old hold hash hlisted)
      · obtain ⟨old, hold, rfl⟩ := List.mem_map.mp hmem
        obtain ⟨hrequest, hpc | hpc⟩ := lose_handler old
        · rw [hpc] at hfile
          rw [hrequest]
          exact hinv.opened old hold bytes hfile
        · rw [hpc] at hfile
          cases hfile

/-! ## From a state in which the object is there -/

/-- A handler whose request names the hash has not failed, unless it was not let in or got no
slot. -/
def ChunkHandler.Finds (hash : Hash) (handler : ChunkHandler) : Prop :=
  chunkHash handler.request.uri = .ok hash → ∀ err, handler.pc = .failed err →
    err.status = 403 ∨ err.status = 429

/-- A call that was asked about the hash has found it or has yet to look at it. -/
def AvailabilityCall.Lists (hash : Hash) (call : AvailabilityCall) : Prop :=
  hash.bytes ∈ call.asked →
    match call.pc with
    | .loop todo => hash.bytes ∈ call.available ∨ hash.bytes ∈ todo
    | .returned => hash.bytes ∈ call.available
    | .lost => True

theorem finds_step {objects : Hash → Option Bytes} {hash : Hash} (htaken : objects hash ≠ none)
    {inUse cur : Nat} {handler : ChunkHandler} {event : ChunkEvent} {pc : ChunkPc}
    (h : chunkStep mac maxStreams inUse objects handler event = some (pc, cur)) :
    ChunkHandler.Finds hash { handler with pc := pc } := by
  rintro hhash err rfl
  rcases chunk_step_cases h with
    (hpc | hpc | ⟨other, hpc, hstatus⟩) | ⟨found, hopen, hpc⟩ | ⟨other, hopen, hpc⟩ |
      ⟨found, ok, hopened, hpc⟩
  · cases hpc
  · cases hpc
  · cases hpc
    exact hstatus
  · cases hpc
  · obtain ⟨bytes, hbytes⟩ := Option.ne_none_iff_exists'.mp htaken
    rw [(open_chunk_eq_ok hhash).mpr hbytes] at hopen
    cases hopen
  · cases hpc

theorem lists_check {objects : Hash → Option Bytes} {hash : Hash} (htaken : objects hash ≠ none)
    {call next : AvailabilityCall} (h : call.check objects = some next) (hcall : call.Lists hash) :
    next.Lists hash := by
  obtain ⟨asked, pc, available⟩ := call
  cases pc with
  | loop todo =>
      cases todo with
      | nil =>
          obtain rfl := Option.some.inj h
          intro hasked
          exact (hcall hasked).resolve_right List.not_mem_nil
      | cons rawHash todo =>
          obtain rfl := Option.some.inj h
          intro hasked
          rcases hcall hasked with hold | hmem
          · exact .inl (List.mem_append_left _ hold)
          · rcases List.mem_cons.mp hmem with rfl | hlater
            · have hfound : hash.bytes ∈ getChunkAvailability objects [hash.bytes] :=
                mem_availability_iff.mpr ⟨List.mem_cons_self, htaken⟩
              exact .inl (List.mem_append_right _ hfound)
            · exact .inr hlater
  | returned | lost => cases h

theorem finds_lose {hash : Hash} {handler : ChunkHandler} (h : handler.Finds hash) :
    handler.lose.Finds hash := by
  intro hhash err hfailed
  obtain ⟨hrequest, hpc | hpc⟩ := lose_handler handler
  · exact h (hrequest ▸ hhash) err (hpc ▸ hfailed)
  · cases hpc.symm.trans hfailed

theorem lists_lose {hash : Hash} {call : AvailabilityCall} (h : call.Lists hash) :
    call.lose.Lists hash := by
  obtain ⟨asked, pc, available⟩ := call
  cases pc with
  | returned => exact h
  | loop | lost => exact fun _ => trivial

/-- The object is there, and the handlers and the calls from these on find it. -/
structure FoundFrom (hash : Hash) (handlers calls : Nat) (s : Node) : Prop where
  taken : s.objects hash ≠ none
  finds : ∀ k handler, handlers ≤ k → s.handlers[k]? = some handler → handler.Finds hash
  lists : ∀ k call, calls ≤ k → s.calls[k]? = some call → call.Lists hash

theorem found_step {hash : Hash} {handlers calls : Nat} (hinv : NodeInv sha256 s)
    (h : FoundFrom hash handlers calls s) (hmove : NodeMoves sha256 mac maxStreams s s') :
    FoundFrom hash handlers calls s' := by
  have htaken := taken_step hinv hmove h.taken
  cases hmove with
  | store event store hstep => exact ⟨htaken, h.finds, h.lists⟩
  | ask chunkHashes =>
      exact ⟨htaken, h.finds, forall_from_append h.lists .inr⟩
  | check k call next hcall hcheck =>
      exact ⟨htaken, h.finds, forall_from_set h.lists hcall (lists_check h.taken hcheck)⟩
  | request req =>
      refine ⟨htaken, forall_from_append h.finds ?_, h.lists⟩
      rintro - err ⟨⟩
  | handle k handler event pc cur hhandler hstep =>
      exact ⟨htaken, forall_from_set h.finds hhandler fun _ => finds_step h.taken hstep, h.lists⟩
  | crash store hstep =>
      refine ⟨htaken, fun k handler hk hhandler => ?_, fun k call hk hcall => ?_⟩
      · obtain ⟨old, hold, rfl⟩ := Option.map_eq_some_iff.mp (List.getElem?_map.symm.trans hhandler)
        exact finds_lose (h.finds k old hk hold)
      · obtain ⟨old, hold, rfl⟩ := Option.map_eq_some_iff.mp (List.getElem?_map.symm.trans hcall)
        exact lists_lose (h.lists k old hk hold)

/-! ## Every run -/

/-- A request for the hash: without a file it is only answered that it is not signed rightly or that
there is no slot, the file it opens has the hash, and with a slot it opens one. -/
structure Fetches (sha256 : Bytes → Hash) (objects : Hash → Option Bytes) (hash : Hash)
    (handler : ChunkHandler) : Prop where
  failed : ∀ err, handler.pc = .failed err → err.status = 403 ∨ err.status = 429
  opened : ∀ bytes, handler.pc.file = some bytes → sha256 bytes = hash
  slot : handler.pc = .lookup →
    ∃ bytes, openChunk objects handler.request.uri = .ok bytes ∧ sha256 bytes = hash

/-- From a state in which the object is there, later handlers and calls find it. -/
theorem found_run {hash : Hash} {mid : Node} {events : List NodeEvent} (hinv : NodeInv sha256 mid)
    (htaken : mid.objects hash ≠ none)
    (hrun : run (nodeStep sha256 mac maxStreams) mid events = some s) :
    NodeInv sha256 s ∧ FoundFrom hash mid.handlers.length mid.calls.length s := by
  have hstart : FoundFrom hash mid.handlers.length mid.calls.length mid := by
    refine ⟨htaken, fun k handler hk hhandler => ?_, fun k call hk hcall => ?_⟩
    · cases (List.getElem?_eq_none hk).symm.trans hhandler
    · cases (List.getElem?_eq_none hk).symm.trans hcall
  refine run_invariant
    (fun state => NodeInv sha256 state ∧
      FoundFrom hash mid.handlers.length mid.calls.length state)
    hrun (along_true events) ⟨hinv, hstart⟩ ?_
  rintro state event next ⟨hinv, hfound⟩ - hstep
  have hmove := node_step_moves hstep
  exact ⟨node_inv_step hinv hmove, found_step hinv hfound hmove⟩

/-- **Advertised chunks stay fetchable, and fetchable chunks are advertised.** The URL that
`FetchChunk` builds from a hash reaches `/chunk`. Once a call has listed the hash, every later
request with that URL that is let in and gets a slot opens a file with that hash. Once `/chunk` can
serve the hash, every later call that is asked about it lists it. -/
theorem advertised_chunks_fetchable {files : CasFiles} (hvalid : ValidObjects sha256 files.objects)
    {before after : List NodeEvent} {mid : Node}
    (hbefore : run (nodeStep sha256 mac maxStreams) (.idle files) before = some mid)
    (hafter : run (nodeStep sha256 mac maxStreams) mid after = some s) (hash : Hash) :
    (∃ uri, chunkTarget hash = some uri ∧ (cut 0x3F uri).1 = ascii "/chunk") ∧
    ((∃ call ∈ mid.calls, hash.bytes ∈ call.available) →
      ∀ k handler, mid.handlers.length ≤ k → s.handlers[k]? = some handler →
        chunkTarget hash = some handler.request.uri →
        Fetches sha256 s.objects hash handler) ∧
    ∀ uri bytes, chunkHash uri = .ok hash → openChunk mid.objects uri = .ok bytes →
      ∀ k call, mid.calls.length ≤ k → s.calls[k]? = some call →
        hash.bytes ∈ call.asked → call.pc = .returned → hash.bytes ∈ call.available := by
  have hinv : NodeInv sha256 mid :=
    run_invariant (NodeInv sha256) hbefore (along_true before) (node_inv_idle hvalid)
      fun _ _ _ hinv _ hstep => node_inv_step hinv (node_step_moves hstep)
  refine ⟨⟨chunkTail hash, chunk_target hash, by rw [cut_chunk_tail]⟩, ?_, ?_⟩
  · rintro ⟨call, hmem, hlisted⟩ k handler hk hhandler htarget
    obtain ⟨hinv', hfound⟩ := found_run hinv (hinv.available call hmem hash hlisted) hafter
    have huri : chunkHash handler.request.uri = .ok hash := by
      rw [← Option.some.inj ((chunk_target hash).symm.trans htarget)]
      exact chunk_hash_tail hash
    refine ⟨hfound.finds k handler hk hhandler huri, fun bytes hfile => ?_, fun _ => ?_⟩
    · have hnamed := hinv'.opened handler (List.mem_of_getElem? hhandler) bytes hfile
      exact Except.ok.inj (hnamed.symm.trans huri)
    · obtain ⟨bytes, hbytes⟩ := Option.ne_none_iff_exists'.mp hfound.taken
      exact ⟨bytes, (open_chunk_eq_ok huri).mpr hbytes, hinv'.store.valid hash bytes hbytes⟩
  · intro uri bytes huri hopen k call hk hcall hasked hreturned
    have htaken : mid.objects hash ≠ none := by
      rw [(open_chunk_eq_ok huri).mp hopen]
      exact Option.some_ne_none bytes
    have hlists := (found_run hinv htaken hafter).2.lists k call hk hcall hasked
    rwa [hreturned] at hlists

/-- A request for the chunk, signed at five seconds. -/
def sampleChunkRequest (hash : Hash) : HttpRequest :=
  signHTTP .sample (ascii "a") (5 * second) { sampleRequest with uri := chunkTail hash }

/-- A chunk is stored and listed; the request for it opens its file. -/
theorem advertised_chunk_opened :
    let hash := Hash.sample [1]
    let before : List NodeEvent :=
      [.put ⟨hash, [1]⟩, .io .ok, .io .ok, .io .ok, .io .ok, .ask [hash.bytes], .check 0, .check 0]
    let after : List NodeEvent :=
      [.request (sampleChunkRequest hash), .handle 0 (.verify (5 * second)), .handle 0 .acquire,
        .handle 0 .lookup]
    ∃ mid s handler,
      run (nodeStep .sample .sample 1) (.idle ⟨fun _ => none, fun _ => none⟩) before = some mid ∧
      run (nodeStep .sample .sample 1) mid after = some s ∧ s.handlers = [handler] ∧
      handler.pc = .opened [1] ∧ Fetches Hash.sample s.objects hash handler := by
  intro hash before after
  have hparse : parseInt (sampleChunkRequest hash).timestamp = some (unix (5 * second)) := by
    simp only [sampleChunkRequest, signHTTP]
    exact parse_int_format (by decide) (by decide)
  have hverified : verifyHTTP .sample (5 * second) (sampleChunkRequest hash) = .ok () :=
    (verify_http_carried_iff ⟨_, rfl, Base64.decode_encode _⟩).mpr
      ⟨unix (5 * second), hparse, by decide, rfl⟩
  obtain ⟨mid, hbefore⟩ : ∃ mid,
      run (nodeStep .sample .sample 1) (.idle ⟨fun _ => none, fun _ => none⟩) before = some mid :=
    ⟨_, rfl⟩
  obtain ⟨hobject, hfree, hhandlers, hlisted⟩ : mid.objects hash = some [1] ∧ mid.inUse = 0 ∧
      mid.handlers = [] ∧ ∃ call ∈ mid.calls, hash.bytes ∈ call.available := by
    obtain rfl := Option.some.inj hbefore
    exact ⟨by decide, rfl, rfl, _, List.mem_cons_self, by decide⟩
  have hopen : openChunk mid.objects (sampleChunkRequest hash).uri = .ok [1] :=
    (open_chunk_eq_ok (chunk_hash_tail hash)).mpr hobject
  have hafter : run (nodeStep .sample .sample 1) mid after =
      some { mid with inUse := 1, handlers := [⟨sampleChunkRequest hash, .opened [1]⟩] } := by
    simp only [Node.objects] at hopen
    simp [after, nodeStep, chunkStep, hhandlers, hfree, hverified, hopen, tryAcquire, Node.objects]
  have hvalid : ValidObjects Hash.sample fun _ => none := nofun
  refine ⟨mid, _, _, hbefore, hafter, rfl, rfl, ?_⟩
  exact (advertised_chunks_fetchable hvalid hbefore hafter hash).2.1 hlisted 0 _
    (by rw [hhandlers, List.length_nil]) rfl (chunk_target hash)

end NuSync.Dataplane
