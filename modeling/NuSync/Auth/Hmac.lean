import NuSync.Go.Text
import NuSync.Lib.Base64

/-!
# Request signatures

`internal/auth/hmac.go` and `internal/auth/grpc_interceptor.go`. HMAC-SHA256 under the shared secret
is a parameter `mac`. The signed text has three lines; the first one names the HTTP method, or is
`GRPC` for a call. `canonical_inj` says that the lines can be told apart.
-/

namespace NuSync.Auth

open NuSync.Go NuSync.Lib

/-- An HTTP method. Package `net/http` neither sends nor accepts a method with a line break. -/
@[ext] structure Method where
  name : GoString
  oneLine : newline ∉ name
  deriving DecidableEq

/-- The parts of an `http.Request` that are signed or carry the signature. A header that is absent
is empty, as `Header.Get` returns it. -/
structure HttpRequest where
  method : Method
  uri : GoString
  authorization : GoString
  timestamp : GoString
  nodeID : GoString
  deriving DecidableEq

/-- The metadata of a gRPC call that is looked at here. -/
structure Metadata where
  authorization : List GoString
  timestamp : List GoString
  nodeID : List GoString
  deriving DecidableEq

/-- No metadata. -/
def Metadata.empty : Metadata := ⟨[], [], []⟩

/-- A gRPC call: its full method, its request message, and its metadata if it has some. -/
structure GrpcCall (M : Type*) where
  method : GoString
  message : M
  metadata : Option Metadata

/-- `MaxClockSkew`, which the interceptor writes out again. -/
def maxClockSkew : Int := 30 * second

/-- The errors of `VerifyHTTP`. -/
inductive VerifyError where
  | missingAuthorization
  | invalidSignature
  | invalidTimestamp
  | expired
  | mismatch
  deriving DecidableEq

/-- The errors of `UnaryServerInterceptor`: three with code `Unauthenticated`, and a signature
mismatch with code `PermissionDenied`. -/
inductive CallError where
  | missingMetadata
  | missingAuthorization
  | timestamp
  | mismatch
  deriving DecidableEq

/-- The text that is signed: `"%s\n%s\n%s"`. -/
def canonical (method uri ts : GoString) : GoString :=
  method ++ newline :: (uri ++ newline :: ts)

/-- The first line of the text signed for a gRPC call. -/
def grpcLine : GoString := ascii "GRPC"

section Sign

variable (mac : Bytes → Hash)

/-- The authorization value for a text: `"HMAC "` and the signature in base64. -/
def authorizationFor (text : GoString) : GoString :=
  ascii "HMAC " ++ Base64.encode (mac text).bytes

/-- `SignHTTP` at time `now`. -/
def signHTTP (nodeID : GoString) (now : Int) (req : HttpRequest) : HttpRequest :=
  let ts := formatInt (unix now)
  { req with
    authorization := authorizationFor mac (canonical req.method.name req.uri ts)
    timestamp := ts
    nodeID := nodeID }

/-- `VerifyHTTP` at time `now`. -/
def verifyHTTP (now : Int) (req : HttpRequest) : Except VerifyError Unit :=
  if (ascii "HMAC ").isPrefixOf req.authorization then
    match Base64.decode (req.authorization.drop (ascii "HMAC ").length) with
    | none => .error .invalidSignature
    | some sig =>
        match parseInt req.timestamp with
        | none => .error .invalidTimestamp
        | some t =>
            if maxClockSkew < sinceAbs now t then .error .expired
            else if (mac (canonical req.method.name req.uri req.timestamp)).bytes = sig then .ok ()
            else .error .mismatch
  else .error .missingAuthorization

/-- `UnaryClientInterceptor` at time `now`, on the metadata of the outgoing context. -/
def unaryClient {M : Type*} (nodeID : GoString) (now : Int) (outgoing : Metadata)
    (method : GoString) (message : M) : GrpcCall M :=
  let ts := formatInt (unix now)
  { method := method
    message := message
    metadata := some
      { authorization :=
          outgoing.authorization ++ [authorizationFor mac (canonical grpcLine method ts)]
        timestamp := outgoing.timestamp ++ [ts]
        nodeID := outgoing.nodeID ++ [nodeID] } }

/-- `UnaryServerInterceptor` at time `now`: the message it passes to the handler. -/
def unaryServer {M : Type*} (now : Int) (call : GrpcCall M) : Except CallError M :=
  match call.metadata with
  | none => .error .missingMetadata
  | some md =>
      match md.authorization, md.timestamp with
      | auth :: _, ts :: _ =>
          match parseInt ts with
          | none => .error .timestamp
          | some t =>
              if maxClockSkew < sinceAbs now t then .error .timestamp
              else
                match Base64.decode (scanHmac auth) with
                | none => .error .mismatch
                | some sig =>
                    if (mac (canonical grpcLine call.method ts)).bytes = sig then .ok call.message
                    else .error .mismatch
      | _, _ => .error .missingAuthorization

end Sign

/-! ## What a signature binds -/

/-- A line is found again in front of a text. -/
theorem append_line_inj {line line' rest rest' : GoString} (hline : newline ∉ line)
    (hline' : newline ∉ line') (h : line ++ newline :: rest = line' ++ newline :: rest') :
    line = line' ∧ rest = rest' := by
  induction line generalizing line' with
  | nil =>
      cases line' with
      | nil => exact ⟨rfl, (List.cons.inj h).2⟩
      | cons b line' => exact absurd ((List.cons.inj h).1 ▸ List.mem_cons_self) hline'
  | cons b line ih =>
      cases line' with
      | nil => exact absurd ((List.cons.inj h).1 ▸ List.mem_cons_self) hline
      | cons b' line' =>
          obtain ⟨rfl, htail⟩ := List.cons.inj h
          obtain ⟨rfl, rfl⟩ := ih (fun hmem => hline (List.mem_cons_of_mem _ hmem))
            (fun hmem => hline' (List.mem_cons_of_mem _ hmem)) htail
          exact ⟨rfl, rfl⟩

/-- **The signed text determines its three parts**, whatever line breaks the URI has. -/
theorem canonical_inj {method method' uri uri' ts ts' : GoString} (hmethod : newline ∉ method)
    (hmethod' : newline ∉ method') (hts : newline ∉ ts) (hts' : newline ∉ ts')
    (h : canonical method uri ts = canonical method' uri' ts') :
    method = method' ∧ uri = uri' ∧ ts = ts' := by
  obtain ⟨rfl, hrest⟩ := append_line_inj hmethod hmethod' h
  -- the timestamp is the last line, so it is found from the other end
  have hreverse :
      ts.reverse ++ newline :: uri.reverse = ts'.reverse ++ newline :: uri'.reverse := by
    simpa using congrArg List.reverse hrest
  obtain ⟨hts, huri⟩ := append_line_inj (by simpa using hts) (by simpa using hts') hreverse
  exact ⟨rfl, List.reverse_inj.mp huri, List.reverse_inj.mp hts⟩

variable {mac : Bytes → Hash} {now : Int}

theorem encode_ne_nil (hash : Hash) : Base64.encode hash.bytes ≠ [] := by
  intro h
  have hdecode := Base64.decode_encode hash.bytes
  rw [h] at hdecode
  have hlength := hash.length_eq
  rw [← Option.some.inj hdecode] at hlength
  cases hlength

/-- The interceptor reads the signature of an honest authorization value. -/
theorem scan_authorization (text : GoString) :
    scanHmac (authorizationFor mac text) = Base64.encode (mac text).bytes := by
  refine scan_hmac_plain (encode_ne_nil _) fun b hb => ?_
  obtain ⟨hlow, hhigh⟩ := Base64.mem_encode hb
  exact ⟨le_trans (by decide) hlow, lt_of_le_of_lt hhigh (by decide)⟩

/-- The request carries these bytes as its signature: its authorization value is `"HMAC "` and a
text that base64 decodes to them. -/
def HttpRequest.Carries (req : HttpRequest) (sig : Bytes) : Prop :=
  ∃ sigText, req.authorization = ascii "HMAC " ++ sigText ∧ Base64.decode sigText = some sig

/-- A request is accepted exactly if its timestamp is a number near the present and its text has
the signature that it carries. -/
theorem verify_http_carried_iff {req : HttpRequest} {sig : Bytes} (hsig : req.Carries sig) :
    verifyHTTP mac now req = .ok () ↔
      ∃ t, parseInt req.timestamp = some t ∧ sinceAbs now t ≤ maxClockSkew ∧
        (mac (canonical req.method.name req.uri req.timestamp)).bytes = sig := by
  obtain ⟨sigText, hauth, hdecode⟩ := hsig
  have hprefix : (ascii "HMAC ").isPrefixOf (ascii "HMAC " ++ sigText) = true :=
    List.isPrefixOf_iff_prefix.mpr (List.prefix_append _ _)
  have hdrop : (ascii "HMAC " ++ sigText).drop (ascii "HMAC ").length = sigText := List.drop_left
  simp only [verifyHTTP, hauth, hprefix, if_true, hdrop, hdecode]
  cases parseInt req.timestamp with
  | none => simp
  | some t =>
      by_cases hskew : maxClockSkew < sinceAbs now t
      · simp [hskew]
      · simp [hskew, not_lt.mp hskew]

/-- The same for an honest authorization value. -/
theorem verify_http_ok_iff {req : HttpRequest} {text : GoString}
    (hauth : req.authorization = authorizationFor mac text) :
    verifyHTTP mac now req = .ok () ↔
      ∃ t, parseInt req.timestamp = some t ∧ sinceAbs now t ≤ maxClockSkew ∧
        mac (canonical req.method.name req.uri req.timestamp) = mac text := by
  rw [verify_http_carried_iff ⟨_, hauth, Base64.decode_encode _⟩]
  simp only [Hash.ext_iff]

/-- A call with an honest authorization value is passed on exactly if its timestamp is a number
near the present and its text has the same signature. -/
theorem unary_server_ok_iff {M : Type*} {call : GrpcCall M} {md : Metadata} {text ts : GoString}
    {auths times : List GoString} (hmd : call.metadata = some md)
    (hauth : md.authorization = authorizationFor mac text :: auths)
    (hts : md.timestamp = ts :: times) {message : M} :
    unaryServer mac now call = .ok message ↔
      message = call.message ∧ ∃ t, parseInt ts = some t ∧ sinceAbs now t ≤ maxClockSkew ∧
        mac (canonical grpcLine call.method ts) = mac text := by
  simp only [unaryServer, hmd, hauth, hts, scan_authorization, Base64.decode_encode]
  cases parseInt ts with
  | none => simp
  | some t =>
      by_cases hskew : maxClockSkew < sinceAbs now t
      · simp [hskew]
      · by_cases hsig : mac (canonical grpcLine call.method ts) = mac text
        · simp [hskew, not_lt.mp hskew, hsig, eq_comm]
        · simp [hskew, hsig, mt Hash.ext hsig]

end NuSync.Auth
