import NuSync.Go.Bytes

/-!
# Requests on the wire

What `net/url` and `net/http` do to a URL that is put together as a string: the client cuts
off the fragment and refuses control bytes, the request line is split at spaces, and the
server splits the query at `&` and `=` and decodes `+` and `%XX`. None of these steps
lengthens a string, and each one that changes it other than byte by byte shortens it; most
arguments below are about lengths for that reason.
-/

namespace NuSync.Go

/-- `strings.Cut` around one byte: what stands before its first occurrence and what after. -/
def cut (sep : UInt8) : GoString → GoString × GoString
  | [] => ([], [])
  | b :: rest => if b = sep then ([], rest) else (b :: (cut sep rest).1, (cut sep rest).2)

/-- A byte `stringContainsCTLByte` reports. -/
def isCtl (b : UInt8) : Bool := b < 0x20 || b == 0x7F

/-- The value of a hexadecimal digit. -/
def unhex (b : UInt8) : Option UInt8 :=
  if 0x30 ≤ b ∧ b ≤ 0x39 then some (b - 0x30)
  else if 0x61 ≤ b ∧ b ≤ 0x66 then some (b - 0x61 + 10)
  else if 0x41 ≤ b ∧ b ≤ 0x46 then some (b - 0x41 + 10)
  else none

/-- `url.unescape`: `%XX` is decoded, a `+` stands for `plus`, and a `%` without two digits is
an error. -/
def unescape (plus : UInt8) : GoString → Option GoString
  | [] => some []
  | b :: rest =>
      if b = 0x25 then
        match rest with
        | hi :: lo :: rest => do
            let h ← unhex hi
            let l ← unhex lo
            let tail ← unescape plus rest
            pure ((h <<< 4 ||| l) :: tail)
        | _ => none
      else do
        let tail ← unescape plus rest
        pure ((if b = 0x2B then plus else b) :: tail)

/-- `url.QueryUnescape`: a `+` is a space. -/
def queryUnescape : GoString → Option GoString := unescape 0x20

/-- The decoding of a fragment: a `+` is a `+`. -/
def fragmentUnescape : GoString → Option GoString := unescape 0x2B

/-- One `&`-separated piece of a query. Pieces with a semicolon, empty ones and those with a
broken escape are dropped. -/
def parsePair (piece : GoString) : Option (GoString × GoString) :=
  if 0x3B ∈ piece ∨ piece = [] then none
  else do
    let key ← queryUnescape (cut 0x3D piece).1
    let value ← queryUnescape (cut 0x3D piece).2
    pure (key, value)

/-- `url.ParseQuery`, the parameters in order. -/
def parseQuery (query : GoString) : List (GoString × GoString) :=
  (query.splitOn 0x26).filterMap parsePair

/-- `Values.Get`: the first value of the key, or the empty string. -/
def getParam (params : List (GoString × GoString)) (key : GoString) : GoString :=
  ((params.find? fun param => param.1 = key).map Prod.snd).getD []

/-- `http.NewRequest` and the request target the client writes for a URL `http://host<tail>`:
the fragment is cut off, the rest must not contain a control byte, and the fragment must
decode. The host has none of the bytes that matter here. -/
def requestURI (tail : GoString) : Option GoString :=
  let (raw, fragment) := cut 0x23 tail
  if raw.any isCtl then none
  else if (fragmentUnescape fragment).isNone then none
  else some raw

/-- The first line of a GET request. -/
def requestLine (uri : GoString) : GoString := ascii "GET " ++ uri ++ ascii " HTTP/1.1"

/-- `http.ParseHTTPVersion` accepts exactly `HTTP/X.Y` with one digit each. -/
def isHTTPVersion (version : GoString) : Bool :=
  match version with
  | [h, t1, t2, p, slash, major, dot, minor] =>
      [h, t1, t2, p, slash] == ascii "HTTP/" && (0x30 ≤ major && major ≤ 0x39) &&
        dot == 0x2E && (0x30 ≤ minor && minor ≤ 0x39)
  | _ => false

/-- The server's reading of the request line: three parts separated by spaces, the last one a
version. Anything else is answered with 400. -/
def parseRequestLine (line : GoString) : Option GoString :=
  let rest := (cut 0x20 line).2
  if isHTTPVersion (cut 0x20 rest).2 then some (cut 0x20 rest).1 else none

/-! ## Cutting -/

theorem cut_of_not_mem {sep : UInt8} {s : GoString} (h : sep ∉ s) : cut sep s = (s, []) := by
  induction s with
  | nil => rfl
  | cons b rest ih =>
      have hb := List.ne_of_not_mem_cons h
      simp [cut, hb.symm, ih (List.not_mem_of_not_mem_cons h)]

theorem cut_append_cons {sep : UInt8} {s : GoString} (h : sep ∉ s) (tail : GoString) :
    cut sep (s ++ sep :: tail) = (s, tail) := by
  induction s with
  | nil => simp [cut]
  | cons b rest ih =>
      have hb := List.ne_of_not_mem_cons h
      simp [cut, hb.symm, ih (List.not_mem_of_not_mem_cons h)]

theorem cut_append {sep : UInt8} {s : GoString} (h : sep ∉ s) (tail : GoString) :
    cut sep (s ++ tail) = (s ++ (cut sep tail).1, (cut sep tail).2) := by
  induction s with
  | nil => rfl
  | cons b rest ih =>
      have hb := List.ne_of_not_mem_cons h
      simp [cut, hb.symm, ih (List.not_mem_of_not_mem_cons h)]

/-- The two sides of a cut and the separator make up the string, unless it was not cut. -/
theorem length_cut (sep : UInt8) (s : GoString) :
    cut sep s = (s, []) ∨ (cut sep s).1.length + 1 + (cut sep s).2.length = s.length := by
  induction s with
  | nil => exact .inl rfl
  | cons b rest ih =>
      by_cases hb : b = sep
      · right
        simp only [cut, hb, if_true, List.length_nil, List.length_cons]
        omega
      · rcases ih with ih | ih
        · simp [cut, hb, ih]
        · right
          simp only [cut, hb, if_false, List.length_cons]
          omega

/-- Cutting at a byte that occurs shortens the string. -/
theorem length_cut_fst_lt {sep : UInt8} {s : GoString} (h : sep ∈ s) :
    (cut sep s).1.length < s.length := by
  obtain ⟨before, after, rfl, hbefore⟩ := List.eq_append_cons_of_mem h
  simp [cut_append_cons hbefore]

/-! ## Decoding -/

theorem unescape_cons_of_ne {plus b : UInt8} (hb : b ≠ 0x25) (rest : GoString) :
    unescape plus (b :: rest) =
      (unescape plus rest).map fun tail => (if b = 0x2B then plus else b) :: tail := by
  conv_lhs => unfold unescape
  rw [if_neg hb]
  cases unescape plus rest <;> rfl

/-- Decoding never lengthens a string, and shortens it where there is an escape. -/
theorem length_unescape {plus : UInt8} {s decoded : GoString} (h : unescape plus s = some decoded) :
    decoded.length ≤ s.length ∧ (0x25 ∈ s → decoded.length < s.length) := by
  induction s using unescape.induct generalizing decoded with
  | case1 => simp_all [unescape]
  | case2 hi lo rest ih =>
      simp only [unescape, if_true, bind, Option.bind_eq_some_iff, pure, Option.some.injEq] at h
      obtain ⟨_, _, _, _, tail, htail, rfl⟩ := h
      have hlen := (ih htail).1
      simp only [List.length_cons]
      exact ⟨by omega, fun _ => by omega⟩
  | case3 rest hshort =>
      simp [unescape] at h
  | case4 b rest hb ih =>
      rw [unescape_cons_of_ne hb, Option.map_eq_some_iff] at h
      obtain ⟨tail, htail, rfl⟩ := h
      obtain ⟨hlen, hlt⟩ := ih htail
      simp only [List.length_cons]
      refine ⟨by omega, fun hmem => ?_⟩
      have := hlt ((List.mem_cons.mp hmem).resolve_left (Ne.symm hb))
      omega

/-- Without escapes only the plus signs change. -/
theorem unescape_of_not_mem {plus : UInt8} {s : GoString} (h : (0x25 : UInt8) ∉ s) :
    unescape plus s = some (s.map fun b => if b = 0x2B then plus else b) := by
  induction s with
  | nil => rfl
  | cons b rest ih =>
      have hb := List.ne_of_not_mem_cons h
      simp [unescape_cons_of_ne hb.symm, ih (List.not_mem_of_not_mem_cons h)]

/-! ## Parameters -/

/-- The value of a parameter is shorter than its piece by the key and the equals sign. -/
theorem length_parse_pair {piece key value : GoString} (h : parsePair piece = some (key, value)) :
    value = [] ∨ key.length + 1 + value.length ≤ piece.length := by
  unfold parsePair at h
  split_ifs at h
  simp only [bind, Option.bind_eq_some_iff, pure, Option.some.injEq, Prod.mk.injEq] at h
  obtain ⟨_, hkey, _, hvalue, rfl, rfl⟩ := h
  have hk := (length_unescape hkey).1
  have hv := (length_unescape hvalue).1
  rcases length_cut 0x3D piece with hcut | hcut
  · left
    simp only [hcut, List.length_nil, Nat.le_zero, List.length_eq_zero_iff] at hv
    exact hv
  · right
    omega

/-- A piece of a split string is no longer than the string, and shorter if there was a
separator. -/
theorem length_le_of_mem_split_on {sep : UInt8} {s piece : GoString} (h : piece ∈ s.splitOn sep) :
    piece.length ≤ s.length ∧ (sep ∈ s → piece.length < s.length) := by
  obtain ⟨hpiece, hpart⟩ := mem_split_on h
  refine ⟨hpart.length_le, fun hsep => lt_of_le_of_ne hpart.length_le fun hlen => ?_⟩
  exact hpiece (hpart.eq_of_length hlen ▸ hsep)

/-- What `Get` returns is the value of some piece of the query, or empty. -/
theorem get_param_parse_query (query key : GoString) :
    getParam (parseQuery query) key = [] ∨
      ∃ piece ∈ query.splitOn 0x26,
        parsePair piece = some (key, getParam (parseQuery query) key) := by
  unfold getParam
  cases hfind : (parseQuery query).find? fun param => param.1 = key with
  | none => exact .inl rfl
  | some param =>
      right
      obtain ⟨piece, hpiece, hpair⟩ := List.mem_filterMap.mp (List.mem_of_find?_eq_some hfind)
      have hkey : param.1 = key := by simpa using List.find?_some hfind
      exact ⟨piece, hpiece, by simp [hpair, ← hkey]⟩

/-- The bytes that a query is split at or that stand for others. -/
def isSpecial (b : UInt8) : Bool := b == 0x25 || b == 0x26 || b == 0x2B || b == 0x3B

/-- Without special bytes there is nothing to decode. -/
theorem query_unescape_of_plain {s : GoString} (h : s.any isSpecial = false) :
    queryUnescape s = some s := by
  have hplain {c : UInt8} (hc : isSpecial c = true) : c ∉ s := fun hmem =>
    List.any_eq_false.mp h c hmem hc
  have hsame : ∀ b ∈ s, (if b = 0x2B then 0x20 else b) = id b := fun b hb =>
    if_neg fun (heq : b = 0x2B) => hplain (by decide) (heq ▸ hb)
  rw [queryUnescape, unescape_of_not_mem (hplain (by decide)), List.map_congr_left hsame,
    List.map_id]

/-- A value without special bytes is read as it was formatted into the query, under a key that has
none of them either. -/
theorem get_param_of_plain {key raw : GoString} (hkey : key.any isSpecial = false)
    (hequals : 0x3D ∉ key) (hraw : raw.any isSpecial = false) :
    getParam (parseQuery (key ++ 0x3D :: raw)) key = raw := by
  have hquery : (key ++ 0x3D :: raw).any isSpecial = false := by
    rw [List.any_append, List.any_cons, hkey, hraw]
    rfl
  have hplain {c : UInt8} (hc : isSpecial c = true) : c ∉ key ++ 0x3D :: raw := fun hmem =>
    List.any_eq_false.mp hquery c hmem hc
  have hpair : parsePair (key ++ 0x3D :: raw) = some (key, raw) := by
    have hnot : ¬ (0x3B ∈ key ++ 0x3D :: raw ∨ key ++ 0x3D :: raw = []) := by
      rintro (hsemi | hempty)
      · exact hplain (by decide) hsemi
      · simp at hempty
    rw [parsePair, if_neg hnot, cut_append_cons hequals]
    simp [query_unescape_of_plain hkey, query_unescape_of_plain hraw]
  simp [getParam, parseQuery, List.splitOn_eq_singleton (hplain (c := 0x26) (by decide)), hpair]

/-- A request line is read back as its target, unless the target contains a space. -/
theorem parse_request_line (uri : GoString) :
    parseRequestLine (requestLine uri) = if 0x20 ∈ uri then none else some uri := by
  have hmethod : (cut 0x20 (requestLine uri)).2 = uri ++ ascii " HTTP/1.1" := by
    rw [show requestLine uri = ascii "GET" ++ 0x20 :: (uri ++ ascii " HTTP/1.1") by
      simp [requestLine, ascii], cut_append_cons (by decide)]
  simp only [parseRequestLine, hmethod]
  split_ifs with hversion hspace hspace
  · obtain ⟨before, after, rfl, hbefore⟩ := List.eq_append_cons_of_mem hspace
    rw [List.append_assoc, List.cons_append, cut_append_cons hbefore] at hversion
    -- the second space is the one inside the target, so the version is too long
    have hlong : 8 < (after ++ ascii " HTTP/1.1").length := by
      simp [ascii]
    unfold isHTTPVersion at hversion
    split at hversion
    · next heq =>
        have hlen : (after ++ ascii " HTTP/1.1").length = 8 := congrArg List.length heq
        omega
    · cases hversion
  · rw [show uri ++ ascii " HTTP/1.1" = uri ++ 0x20 :: ascii "HTTP/1.1" by simp [ascii],
      cut_append_cons hspace]
  · rfl
  · rw [show uri ++ ascii " HTTP/1.1" = uri ++ 0x20 :: ascii "HTTP/1.1" by simp [ascii],
      cut_append_cons hspace] at hversion
    exact absurd (show isHTTPVersion (ascii "HTTP/1.1") = true by decide) hversion

end NuSync.Go
