import NuSync.Auth.Hmac
import NuSync.Lib.System

/-!
# Captured authorization values

Honest nodes sign requests and calls, and an attacker attaches the authorization values that were
sent to requests and calls of their own. The text signed for a call has its method and its
timestamp but not its message, and it is also the text of an HTTP request with method `GRPC`.
`accepted_authentic` says that nothing else can be mixed up.
-/

namespace NuSync.Auth

open NuSync.Go NuSync.Lib

variable {M : Type*}

/-- What honest nodes have signed, and what servers have accepted. -/
structure Replay (M : Type*) where
  signedHTTP : List HttpRequest
  signedCalls : List (GrpcCall M)
  acceptedHTTP : List HttpRequest
  handled : List (GrpcCall M)

/-- Nothing has happened yet. -/
def Replay.empty : Replay M := ⟨[], [], [], []⟩

/-- The request or call an authorization value was captured from, counted from the latest. -/
inductive Source where
  | http (k : Nat)
  | grpc (k : Nat)
  deriving DecidableEq

/-- The timestamp the server looks at. -/
def GrpcCall.timestamp (call : GrpcCall M) : Option GoString :=
  call.metadata.bind fun md => md.timestamp.head?

/-- The authorization value of a source. -/
def Replay.captured (s : Replay M) : Source → Option GoString
  | .http k => s.signedHTTP[k]?.map HttpRequest.authorization
  | .grpc k => s.signedCalls[k]?.bind fun call =>
      call.metadata.bind fun md => md.authorization.head?

/-- An honest node signs a request or a call, or a request or a call with a captured authorization
value reaches a server. -/
inductive ReplayEvent (M : Type*) where
  | signHTTP (nodeID : GoString) (now : Int) (method : Method) (uri : GoString)
  | signCall (nodeID : GoString) (now : Int) (method : GoString) (message : M)
  | sendHTTP (source : Source) (now : Int) (method : Method) (uri timestamp nodeID : GoString)
  | sendCall (source : Source) (now : Int) (method : GoString) (message : M)
      (timestamp nodeID : GoString)

/-- The text a node computes the HMAC of. -/
def ReplayEvent.text : ReplayEvent M → GoString
  | .signHTTP _ now method uri => canonical method.name uri (formatInt (unix now))
  | .signCall _ now method _ => canonical grpcLine method (formatInt (unix now))
  | .sendHTTP _ _ method uri timestamp _ => canonical method.name uri timestamp
  | .sendCall _ _ method _ timestamp _ => canonical grpcLine method timestamp

/-- The texts signed or verified in a run. -/
def texts (events : List (ReplayEvent M)) : Set GoString :=
  { text | ∃ event ∈ events, text = event.text }

section Steps

variable (mac : Bytes → Hash)

/-- One event. -/
def replayStep (s : Replay M) : ReplayEvent M → Option (Replay M)
  | .signHTTP nodeID now method uri =>
      some { s with
        signedHTTP := signHTTP mac nodeID now ⟨method, uri, [], [], []⟩ :: s.signedHTTP }
  | .signCall nodeID now method message =>
      some { s with
        signedCalls := unaryClient mac nodeID now .empty method message :: s.signedCalls }
  | .sendHTTP source now method uri timestamp nodeID =>
      (s.captured source).map fun auth =>
        let req : HttpRequest := ⟨method, uri, auth, timestamp, nodeID⟩
        match verifyHTTP mac now req with
        | .ok () => { s with acceptedHTTP := req :: s.acceptedHTTP }
        | .error _ => s
  | .sendCall source now method message timestamp nodeID =>
      (s.captured source).map fun auth =>
        let call : GrpcCall M := ⟨method, message, some ⟨[auth], [timestamp], [nodeID]⟩⟩
        match unaryServer mac now call with
        | .ok _ => { s with handled := call :: s.handled }
        | .error _ => s

end Steps

/-- A captured value stays with the message it was sent with, and it is not carried over between a
call and a request with method `GRPC` for the same name. -/
def Faithful (s : Replay M) : ReplayEvent M → Prop
  | .sendCall (.grpc k) _ _ message _ _ => ∀ call ∈ s.signedCalls[k]?, message = call.message
  | .sendCall (.http k) _ method _ _ _ => ∀ req ∈ s.signedHTTP[k]?,
      ¬ (req.method.name = grpcLine ∧ req.uri = method)
  | .sendHTTP (.grpc k) _ method uri _ _ => ∀ call ∈ s.signedCalls[k]?,
      ¬ (method.name = grpcLine ∧ uri = call.method)
  | _ => True

instance [DecidableEq M] (s : Replay M) : (event : ReplayEvent M) → Decidable (Faithful s event)
  | .sendCall (.grpc k) .. => inferInstanceAs (Decidable (∀ call ∈ s.signedCalls[k]?, _ = _))
  | .sendCall (.http k) .. => inferInstanceAs (Decidable (∀ req ∈ s.signedHTTP[k]?, ¬ (_ ∧ _)))
  | .sendHTTP (.grpc k) .. => inferInstanceAs (Decidable (∀ call ∈ s.signedCalls[k]?, ¬ (_ ∧ _)))
  | .sendHTTP (.http _) .. | .signHTTP .. | .signCall .. => inferInstanceAs (Decidable True)

/-- Everything accepted was signed by an honest node: method, URI and timestamp of a request, and
method, message and timestamp of a call. -/
structure Authentic (s : Replay M) : Prop where
  http : ∀ req ∈ s.acceptedHTTP, ∃ signed ∈ s.signedHTTP,
    req.method = signed.method ∧ req.uri = signed.uri ∧ req.timestamp = signed.timestamp
  calls : ∀ call ∈ s.handled, ∃ signed ∈ s.signedCalls,
    call.method = signed.method ∧ call.message = signed.message ∧
      call.timestamp = signed.timestamp

/-- The values in the signed requests and calls are those of their texts. -/
structure SignedInv (mac : Bytes → Hash) (known : Set GoString) (s : Replay M) : Prop where
  http : ∀ req ∈ s.signedHTTP,
    let text := canonical req.method.name req.uri req.timestamp
    req.authorization = authorizationFor mac text ∧ text ∈ known ∧ newline ∉ req.timestamp
  calls : ∀ call ∈ s.signedCalls, ∃ ts nodeID,
    let text := canonical grpcLine call.method ts
    call.metadata = some ⟨[authorizationFor mac text], [ts], [nodeID]⟩ ∧ text ∈ known ∧
      newline ∉ ts

variable {mac : Bytes → Hash} {known : Set GoString} {s s' : Replay M}

/-- What is known of a captured value: the text it is the signature of, and where it is from. -/
theorem captured_text (hs : SignedInv mac known s) {source : Source} {auth : GoString}
    (h : s.captured source = some auth) :
    ∃ method uri ts, auth = authorizationFor mac (canonical method uri ts) ∧
      canonical method uri ts ∈ known ∧ newline ∉ method ∧ newline ∉ ts ∧
      ((∃ k req, source = .http k ∧ s.signedHTTP[k]? = some req ∧ req.method.name = method ∧
          req.uri = uri ∧ req.timestamp = ts) ∨
        ∃ k call, source = .grpc k ∧ s.signedCalls[k]? = some call ∧ method = grpcLine ∧
          call.method = uri ∧ call.timestamp = some ts) := by
  cases source with
  | http k =>
      obtain ⟨req, hreq, rfl⟩ := Option.map_eq_some_iff.mp h
      obtain ⟨hauth, hknown, hts⟩ := hs.http req (List.mem_of_getElem? hreq)
      exact ⟨_, _, _, hauth, hknown, req.method.oneLine, hts,
        .inl ⟨k, req, rfl, hreq, rfl, rfl, rfl⟩⟩
  | grpc k =>
      obtain ⟨call, hcall, hhead⟩ := Option.bind_eq_some_iff.mp h
      obtain ⟨ts, nodeID, hmd, hknown, hts⟩ := hs.calls call (List.mem_of_getElem? hcall)
      rw [hmd] at hhead
      cases hhead
      exact ⟨_, _, _, rfl, hknown, by decide, hts,
        .inr ⟨k, call, rfl, hcall, rfl, rfl, by rw [GrpcCall.timestamp, hmd]; rfl⟩⟩

/-! ## One event -/

/-- Signing keeps what is known of the signed requests and calls, and sending leaves them. -/
theorem step_signed (hs : SignedInv mac known s) {event : ReplayEvent M}
    (hknown : event.text ∈ known) (h : replayStep mac s event = some s') :
    SignedInv mac known s' := by
  cases event with
  | signHTTP nodeID now method uri =>
      cases h
      refine ⟨List.forall_mem_cons.mpr ⟨?_, hs.http⟩, hs.calls⟩
      exact ⟨rfl, hknown, newline_not_mem_format _⟩
  | signCall nodeID now method message =>
      cases h
      refine ⟨hs.http, List.forall_mem_cons.mpr ⟨?_, hs.calls⟩⟩
      exact ⟨_, nodeID, rfl, hknown, newline_not_mem_format _⟩
  | sendHTTP source now method uri timestamp nodeID =>
      obtain ⟨auth, -, rfl⟩ := Option.map_eq_some_iff.mp h
      dsimp only
      split <;> exact ⟨hs.http, hs.calls⟩
  | sendCall source now method message timestamp nodeID =>
      obtain ⟨auth, -, rfl⟩ := Option.map_eq_some_iff.mp h
      dsimp only
      split <;> exact ⟨hs.http, hs.calls⟩

/-- An accepted request that is faithful was signed. -/
theorem accepted_http_signed (hfree : Set.InjOn mac known) (hs : SignedInv mac known s)
    {source : Source} {now : Int} (req : HttpRequest)
    (hfaithful : Faithful s
      (.sendHTTP source now req.method req.uri req.timestamp req.nodeID : ReplayEvent M))
    (hknown : canonical req.method.name req.uri req.timestamp ∈ known)
    (hcaptured : s.captured source = some req.authorization)
    (hok : verifyHTTP mac now req = .ok ()) :
    ∃ signed ∈ s.signedHTTP,
      req.method = signed.method ∧ req.uri = signed.uri ∧ req.timestamp = signed.timestamp := by
  obtain ⟨method, uri, ts, hauth, htext, hmethod, hts, horigin⟩ := captured_text hs hcaptured
  obtain ⟨t, hparse, -, hmac⟩ := (verify_http_ok_iff hauth).mp hok
  obtain ⟨rfl, rfl, rfl⟩ := canonical_inj req.method.oneLine hmethod
    (newline_not_mem_of_parse hparse) hts (hfree hknown htext hmac)
  rcases horigin with ⟨k, signed, -, hsigned, hname, huri, htime⟩ |
    ⟨k, call, rfl, hcall, hgrpc, huri, -⟩
  · refine ⟨signed, List.mem_of_getElem? hsigned, ?_, huri.symm, htime.symm⟩
    obtain ⟨⟨_, _⟩, _, _, _, _⟩ := req
    obtain ⟨⟨_, _⟩, _, _, _, _⟩ := signed
    simp_all
  · exact absurd ⟨hgrpc, huri.symm⟩ (hfaithful call hcall)

/-- A call that is passed on and is faithful was signed. -/
theorem handled_call_signed (hfree : Set.InjOn mac known) (hs : SignedInv mac known s)
    {source : Source} {now : Int} {method timestamp nodeID auth : GoString} {message handed : M}
    (hfaithful : Faithful s (.sendCall source now method message timestamp nodeID))
    (hknown : canonical grpcLine method timestamp ∈ known)
    (hcaptured : s.captured source = some auth)
    (hok : unaryServer mac now ⟨method, message, some ⟨[auth], [timestamp], [nodeID]⟩⟩ =
      .ok handed) :
    ∃ signed ∈ s.signedCalls, method = signed.method ∧ message = signed.message ∧
      some timestamp = signed.timestamp := by
  obtain ⟨line, name, ts, rfl, htext, hline, hts, horigin⟩ := captured_text hs hcaptured
  obtain ⟨-, t, hparse, -, hmac⟩ := (unary_server_ok_iff rfl rfl rfl).mp hok
  obtain ⟨rfl, rfl, rfl⟩ := canonical_inj (by decide) hline
    (newline_not_mem_of_parse hparse) hts (hfree hknown htext hmac)
  rcases horigin with ⟨k, req, rfl, hreq, hgrpc, huri, -⟩ |
    ⟨k, call, rfl, hcall, -, hmethod, htime⟩
  · exact absurd ⟨hgrpc, huri⟩ (hfaithful req hreq)
  · exact ⟨call, List.mem_of_getElem? hcall, hmethod.symm, hfaithful call hcall, htime.symm⟩

/-- A faithful event accepts only what was signed. -/
theorem step_authentic (hfree : Set.InjOn mac known) (hs : SignedInv mac known s)
    (ha : Authentic s) {event : ReplayEvent M} (hfaithful : Faithful s event)
    (hknown : event.text ∈ known) (h : replayStep mac s event = some s') : Authentic s' := by
  cases event with
  | signHTTP nodeID now method uri =>
      cases h
      refine ⟨fun req hreq => ?_, ha.calls⟩
      obtain ⟨signed, hsigned, hsame⟩ := ha.http req hreq
      exact ⟨signed, List.mem_cons_of_mem _ hsigned, hsame⟩
  | signCall nodeID now method message =>
      cases h
      refine ⟨ha.http, fun call hcall => ?_⟩
      obtain ⟨signed, hsigned, hsame⟩ := ha.calls call hcall
      exact ⟨signed, List.mem_cons_of_mem _ hsigned, hsame⟩
  | sendHTTP source now method uri timestamp nodeID =>
      obtain ⟨auth, hcaptured, rfl⟩ := Option.map_eq_some_iff.mp h
      dsimp only
      split
      · next hok =>
          refine ⟨List.forall_mem_cons.mpr ⟨?_, ha.http⟩, ha.calls⟩
          exact accepted_http_signed hfree hs ⟨method, uri, auth, timestamp, nodeID⟩ hfaithful
            hknown hcaptured hok
      · exact ha
  | sendCall source now method message timestamp nodeID =>
      obtain ⟨auth, hcaptured, rfl⟩ := Option.map_eq_some_iff.mp h
      dsimp only
      split
      · next hok =>
          refine ⟨ha.http, List.forall_mem_cons.mpr ⟨?_, ha.calls⟩⟩
          exact handled_call_signed hfree hs hfaithful hknown hcaptured hok
      · exact ha

/-! ## Every run -/

/-- **Every accepted request and every call that is passed on was signed by an honest node**, if
captured values are used faithfully and no two texts of the run have one HMAC. -/
theorem accepted_authentic {events : List (ReplayEvent M)} (hfree : Set.InjOn mac (texts events))
    (hrun : run (replayStep mac) .empty events = some s)
    (hfaithful : Along (replayStep mac) Faithful .empty events) : Authentic s := by
  have hknown : Along (replayStep mac) (fun _ event => event.text ∈ texts events)
      (.empty : Replay M) events :=
    along_of_forall fun event hevent _ => ⟨event, hevent, rfl⟩
  have hstart : SignedInv mac (texts events) (.empty : Replay M) ∧ Authentic (.empty : Replay M) :=
    ⟨⟨nofun, nofun⟩, ⟨nofun, nofun⟩⟩
  exact (run_invariant (fun s => SignedInv mac (texts events) s ∧ Authentic s) hrun
    (hfaithful.and hknown) hstart fun _ _ _ hinv hguard hstep =>
      ⟨step_signed hinv.1 hguard.2 hstep,
        step_authentic hfree hinv.1 hinv.2 hguard.1 hguard.2 hstep⟩).2

/-- A request and a call are signed and reach their servers. -/
theorem accepted_authentic_delivery :
    let get : Method := ⟨ascii "GET", by decide⟩
    let events : List (ReplayEvent Bytes) :=
      [.signHTTP (ascii "a") (5 * second) get (ascii "/chunk"),
        .signCall (ascii "b") (5 * second) (ascii "/m") [1],
        .sendHTTP (.http 0) (6 * second) get (ascii "/chunk") (ascii "5") (ascii "a"),
        .sendCall (.grpc 0) (6 * second) (ascii "/m") [1] (ascii "5") (ascii "b")]
    ∃ s, run (replayStep Hash.sample) .empty events = some s ∧ s.acceptedHTTP.length = 1 ∧
      s.handled.length = 1 ∧ Authentic s := by
  intro get events
  have hstate : (run (replayStep Hash.sample) .empty events).map (fun s =>
      (s.acceptedHTTP.length, s.handled.length)) = some (1, 1) := by decide
  obtain ⟨s, hrun, hstate⟩ := Option.map_eq_some_iff.mp hstate
  obtain ⟨haccepted, hhandled⟩ := Prod.mk.inj hstate
  have htexts : ∀ text ∈ texts events, text = canonical (ascii "GET") (ascii "/chunk") (ascii "5") ∨
      text = canonical grpcLine (ascii "/m") (ascii "5") := by
    rintro _ ⟨event, hevent, rfl⟩
    simp only [events, List.mem_cons, List.not_mem_nil, or_false] at hevent
    rcases hevent with rfl | rfl | rfl | rfl
    · exact .inl (by decide)
    · exact .inr (by decide)
    · exact .inl rfl
    · exact .inr rfl
  have hfree : Set.InjOn Hash.sample (texts events) := by
    intro x hx y hy hsame
    rcases htexts x hx with rfl | rfl <;> rcases htexts y hy with rfl | rfl
    · rfl
    · exact absurd hsame (by decide)
    · exact absurd hsame (by decide)
    · rfl
  exact ⟨s, hrun, haccepted, hhandled, accepted_authentic hfree hrun (by decide)⟩

/-- An attacker attaches the authorization value of a call to another message, and to an HTTP
request with method `GRPC`. Both are accepted. -/
theorem call_accepted_with_other_message :
    let grpc : Method := ⟨ascii "GRPC", by decide⟩
    let events : List (ReplayEvent Bytes) :=
      [.signCall (ascii "a") (5 * second) (ascii "/m") [1],
        .sendCall (.grpc 0) (6 * second) (ascii "/m") [2] (ascii "5") (ascii "a"),
        .sendHTTP (.grpc 0) (6 * second) grpc (ascii "/m") (ascii "5") (ascii "a")]
    ∃ s, run (replayStep Hash.sample) .empty events = some s ∧
      s.signedCalls.map GrpcCall.message = [[1]] ∧ s.handled.map GrpcCall.message = [[2]] ∧
      s.signedHTTP = [] ∧ s.acceptedHTTP.map HttpRequest.uri = [ascii "/m"] ∧ ¬ Authentic s := by
  intro grpc events
  have hstate : (run (replayStep Hash.sample) .empty events).map (fun s =>
      (s.signedCalls.map GrpcCall.message, s.handled.map GrpcCall.message, s.signedHTTP,
        s.acceptedHTTP.map HttpRequest.uri)) = some ([[1]], [[2]], [], [ascii "/m"]) := by decide
  obtain ⟨s, hrun, hstate⟩ := Option.map_eq_some_iff.mp hstate
  simp only [Prod.mk.injEq] at hstate
  obtain ⟨hsigned, hhandled, hhttp, haccepted⟩ := hstate
  refine ⟨s, hrun, hsigned, hhandled, hhttp, haccepted, fun hauthentic => ?_⟩
  obtain ⟨call, hcall, hmessage⟩ : ∃ call ∈ s.handled, call.message = [2] :=
    List.mem_map.mp (hhandled ▸ List.mem_cons_self)
  obtain ⟨signed, hmem, -, hsame, -⟩ := hauthentic.calls call hcall
  have hone : signed.message ∈ [[1]] := hsigned ▸ List.mem_map_of_mem hmem
  rw [← hsame, hmessage] at hone
  exact absurd hone (by decide)

end NuSync.Auth
