import NuSync.Auth.Hmac

/-!
# Signed HTTP requests

A signature is accepted while it is fresh and only for what was signed. The three parts of the
signed text are joined by line breaks and the URI may have more of them, so that the parts can be
told apart rests on what a method and a number cannot contain (`canonical_inj`).
`signed_request_accepted_iff` says both.
-/

namespace NuSync.Auth

open NuSync.Go NuSync.Lib

/-- The clock shows a time whose `Unix` is an `int64`, as that of every `time.Time` is. -/
def IsTime (now : Int) : Prop := -2 ^ 63 ≤ unix now ∧ unix now < 2 ^ 63

instance (now : Int) : Decidable (IsTime now) := inferInstanceAs (Decidable (_ ∧ _))

variable {mac : Bytes → Hash} {nodeID : GoString} {now : Int} {req : HttpRequest}

/-- What a signed request carries is the signature of its text. -/
theorem sign_http_carries_iff {sig : Bytes} :
    (signHTTP mac nodeID now req).Carries sig ↔
      (mac (canonical req.method.name req.uri (formatInt (unix now)))).bytes = sig := by
  constructor
  · rintro ⟨sigText, hauth, hdecode⟩
    obtain rfl : _ = sigText := List.append_cancel_left hauth
    rw [Base64.decode_encode] at hdecode
    exact Option.some.inj hdecode
  · rintro rfl
    exact ⟨_, rfl, Base64.decode_encode _⟩

/-- **HTTP signing is complete and not transplantable.** A signed request is accepted exactly while
the clock is within 30 seconds of its timestamp. A request with the signature of another one that
is accepted has the same method, URI and timestamp, if the two texts do not collide. -/
theorem signed_request_accepted_iff (htime : IsTime now) :
    let signed := signHTTP mac nodeID now req
    (∀ later, verifyHTTP mac later signed = .ok () ↔ |later - unix now * second| ≤ maxClockSkew) ∧
    ∀ later other sig, signed.Carries sig → other.Carries sig →
      Set.InjOn mac {canonical signed.method.name signed.uri signed.timestamp,
        canonical other.method.name other.uri other.timestamp} →
      verifyHTTP mac later other = .ok () →
      other.method = signed.method ∧ other.uri = signed.uri ∧
        other.timestamp = signed.timestamp := by
  intro signed
  constructor
  · intro later
    have hparse : parseInt signed.timestamp = some (unix now) :=
      parse_int_format htime.1 htime.2
    rw [verify_http_carried_iff (sign_http_carries_iff.mpr rfl), hparse]
    simp only [Option.some.injEq, exists_eq_left']
    rw [since_abs_le_iff (by decide)]
    exact ⟨fun h => h.1, fun h => ⟨h, rfl⟩⟩
  · intro later other sig hsigned hother hinj haccepted
    obtain ⟨t, hparse, -, hmac⟩ := (verify_http_carried_iff hother).mp haccepted
    have hsame : mac (canonical signed.method.name signed.uri signed.timestamp) =
        mac (canonical other.method.name other.uri other.timestamp) :=
      Hash.ext ((sign_http_carries_iff.mp hsigned).trans hmac.symm)
    have htext := hinj (by simp) (by simp) hsame
    obtain ⟨hmethod, huri, hts⟩ := canonical_inj signed.method.oneLine other.method.oneLine
      (newline_not_mem_format _) (newline_not_mem_of_parse hparse) htext
    exact ⟨Method.ext hmethod.symm, huri.symm, hts.symm⟩

/-- A request for `/x`. -/
def sampleRequest : HttpRequest := ⟨⟨ascii "GET", by decide⟩, ascii "/x", [], [], []⟩

/-- It is accepted 30 seconds after it was signed and not a second later. -/
theorem sample_request_accepted_for_thirty_seconds :
    let signed := signHTTP .sample (ascii "a") (5 * second) sampleRequest
    verifyHTTP .sample (35 * second) signed = .ok () ∧
      verifyHTTP .sample (36 * second) signed ≠ .ok () := by
  intro signed
  have htime : IsTime (5 * second) := by decide
  have haccepted (later : Int) : verifyHTTP .sample later signed = .ok () ↔
      |later - unix (5 * second) * second| ≤ maxClockSkew :=
    (signed_request_accepted_iff htime).1 later
  rw [haccepted, Ne, haccepted]
  decide

end NuSync.Auth
