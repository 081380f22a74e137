import NuSync.Go.Url
import NuSync.Go.Utf8

/-!
# Numbers, digests, words and times as text

`strconv.FormatInt` and `strconv.ParseInt` in base 10, `encoding/hex`, `fmt.Sscanf` with the format
`HMAC %s`, and the clock arithmetic of package `time`. Times are integers in nanoseconds since the
Unix epoch. Numbers and bytes are read back as they were written (`parse_int_format`,
`decode_encode_hex`). The other facts are about which bytes such texts have: a number has no line
break (`newline_not_mem_of_parse`), and a word of plain bytes is read as it is (`scan_hmac_plain`).
-/

namespace NuSync.Go

/-- The byte `\n`. -/
def newline : UInt8 := 0x0A

/-! ## Decimal numbers -/

/-- The digits of a natural number. -/
def decimal (n : Nat) : GoString :=
  if n = 0 then [0x30] else (Nat.digits 10 n).reverse.map fun d => UInt8.ofNat (0x30 + d)

/-- `strconv.FormatInt(n, 10)`. -/
def formatInt (n : Int) : GoString :=
  if n < 0 then 0x2D :: decimal n.natAbs else decimal n.natAbs

/-- A decimal digit. -/
def isDigit (b : UInt8) : Bool := 0x30 ≤ b && b ≤ 0x39

/-- `strconv.ParseUint(s, 10, 64)`, without the bound on the value. -/
def parseUint (s : GoString) : Option Nat :=
  if s ≠ [] ∧ s.all isDigit then some (s.foldl (fun n b => n * 10 + (b.toNat - 0x30)) 0) else none

/-- `strconv.ParseInt(s, 10, 64)`: an optional sign and digits, in the range of `int64`. -/
def parseInt (s : GoString) : Option Int :=
  match s with
  | 0x2B :: digits => (parseUint digits).bind fun n => if n < 2 ^ 63 then some (n : Int) else none
  | 0x2D :: digits => (parseUint digits).bind fun n => if n ≤ 2 ^ 63 then some (-n : Int) else none
  | digits => (parseUint digits).bind fun n => if n < 2 ^ 63 then some (n : Int) else none

theorem is_digit_decimal {n : Nat} {b : UInt8} (h : b ∈ decimal n) : isDigit b = true := by
  unfold decimal at h
  split_ifs at h with hzero
  · obtain rfl := List.mem_singleton.mp h
    decide
  · obtain ⟨d, hd, rfl⟩ := List.mem_map.mp h
    have hlt : d < 10 := Nat.digits_lt_base (by decide) (List.mem_reverse.mp hd)
    have hall : ∀ d : Fin 10, isDigit (UInt8.ofNat (0x30 + d)) = true := by decide
    exact hall ⟨d, hlt⟩

/-- A number is written without line breaks. -/
theorem newline_not_mem_format (n : Int) : newline ∉ formatInt n := by
  intro h
  have hdecimal : newline ∉ decimal n.natAbs := fun h => absurd (is_digit_decimal h) (by decide)
  unfold formatInt at h
  split_ifs at h
  · rcases List.mem_cons.mp h with h | h
    · exact absurd h (by decide)
    · exact hdecimal h
  · exact hdecimal h

theorem is_digit_of_parse {s : GoString} {n : Nat} (h : parseUint s = some n) {b : UInt8}
    (hb : b ∈ s) : isDigit b = true := by
  unfold parseUint at h
  split_ifs at h with hs
  exact List.all_eq_true.mp hs.2 b hb

/-- A text with a line break is not a number. -/
theorem newline_not_mem_of_parse {s : GoString} {n : Int} (h : parseInt s = some n) :
    newline ∉ s := by
  intro hmem
  have hdigits (digits : GoString) (k : Nat) (h : parseUint digits = some k) :
      newline ∉ digits := fun hmem => absurd (is_digit_of_parse h hmem) (by decide)
  unfold parseInt at h
  split at h
  · obtain ⟨k, hk, -⟩ := Option.bind_eq_some_iff.mp h
    exact hdigits _ k hk ((List.mem_cons.mp hmem).resolve_left (by decide))
  · obtain ⟨k, hk, -⟩ := Option.bind_eq_some_iff.mp h
    exact hdigits _ k hk ((List.mem_cons.mp hmem).resolve_left (by decide))
  · obtain ⟨k, hk, -⟩ := Option.bind_eq_some_iff.mp h
    exact hdigits _ k hk hmem

/-- A digit stands for its value. -/
theorem digit_value {d : Nat} (h : d < 10) : (UInt8.ofNat (0x30 + d)).toNat - 0x30 = d := by
  rw [UInt8.toNat_ofNat_of_lt' (by show 0x30 + d < 256; omega)]
  omega

/-- A natural number is read back as it was written. -/
theorem parse_uint_decimal (n : Nat) : parseUint (decimal n) = some n := by
  have hdigits : (decimal n).all isDigit = true := List.all_eq_true.mpr fun b => is_digit_decimal
  have hne : decimal n ≠ [] := by
    unfold decimal
    split_ifs with hzero
    · simp
    · simpa [Nat.digits_eq_nil_iff_eq_zero] using hzero
  rw [parseUint, if_pos ⟨hne, hdigits⟩, Option.some.injEq]
  unfold decimal
  split_ifs with hzero
  · rw [hzero]
    rfl
  · -- the fold goes through the digits from the most significant one
    rw [List.foldl_map, List.foldl_reverse]
    calc (Nat.digits 10 n).foldr
          (fun d value => value * 10 + ((UInt8.ofNat (0x30 + d)).toNat - 0x30)) 0
        = (Nat.digits 10 n).foldr (fun d value => d + 10 * value) 0 := by
          refine List.foldr_ext _ _ 0 fun d hd value => ?_
          rw [digit_value (Nat.digits_lt_base (by omega) hd)]
          omega
      _ = Nat.ofDigits 10 (Nat.digits 10 n) := by rw [Nat.ofDigits_eq_foldr]; rfl
      _ = n := Nat.ofDigits_digits 10 n

/-- **An `int64` is read back as it was written.** -/
theorem parse_int_format {n : Int} (hlow : -2 ^ 63 ≤ n) (hhigh : n < 2 ^ 63) :
    parseInt (formatInt n) = some n := by
  unfold formatInt
  split_ifs with hneg
  · show (parseUint (decimal n.natAbs)).bind _ = _
    rw [parse_uint_decimal, Option.bind_some, if_pos (by omega), Option.some.injEq]
    omega
  · have hsigned (b : UInt8) (digits : GoString) (h : decimal n.natAbs = b :: digits) :
        b ≠ 0x2B ∧ b ≠ 0x2D := by
      have hdigit : isDigit b = true := is_digit_decimal (h ▸ List.mem_cons_self)
      constructor
      · rintro rfl
        exact absurd hdigit (by decide)
      · rintro rfl
        exact absurd hdigit (by decide)
    unfold parseInt
    split
    · next digits h => exact absurd rfl (hsigned _ digits h).1
    · next digits h => exact absurd rfl (hsigned _ digits h).2
    · rw [parse_uint_decimal, Option.bind_some, if_pos (by omega), Option.some.injEq]
      omega

/-! ## Hexadecimal -/

/-- A hexadecimal digit. -/
def hexDigit (n : Nat) : UInt8 := if n < 10 then UInt8.ofNat (0x30 + n) else UInt8.ofNat (0x57 + n)

/-- `hex.EncodeToString`. -/
def encodeHex (bytes : Bytes) : GoString :=
  bytes.flatMap fun b => [hexDigit (b.toNat / 16), hexDigit (b.toNat % 16)]

/-- What holds of the sixteen digits holds of all bytes of the text. -/
theorem forall_mem_encode_hex {P : UInt8 → Prop} (h : ∀ n : Fin 16, P (hexDigit n))
    (bytes : Bytes) : ∀ b ∈ encodeHex bytes, P b := by
  intro b hb
  obtain ⟨byte, -, hb⟩ := List.mem_flatMap.mp hb
  have hlt := byte.toNat_lt
  rcases List.mem_pair.mp hb with rfl | rfl
  · exact h ⟨byte.toNat / 16, by omega⟩
  · exact h ⟨byte.toNat % 16, by omega⟩

/-- The digits come after the dot and the slash in ASCII. -/
theorem mem_encode_hex {bytes : Bytes} {b : UInt8} (h : b ∈ encodeHex bytes) : 0x30 ≤ b :=
  forall_mem_encode_hex (P := fun b => 0x30 ≤ b) (by decide) bytes b h

/-- `hex.DecodeString`: pairs of digits in either case. -/
def decodeHex : GoString → Option Bytes
  | [] => some []
  | [_] => none
  | hi :: lo :: rest => do
      let high ← unhex hi
      let low ← unhex lo
      let bytes ← decodeHex rest
      pure ((high <<< 4 ||| low) :: bytes)

theorem unhex_hex_digit {n : Nat} (h : n < 16) : unhex (hexDigit n) = some (UInt8.ofNat n) := by
  have hall : ∀ n : Fin 16, unhex (hexDigit n) = some (UInt8.ofNat n) := by decide
  exact hall ⟨n, h⟩

theorem length_encode_hex (bytes : Bytes) : (encodeHex bytes).length = 2 * bytes.length := by
  simp [encodeHex, List.length_flatMap, mul_comm]

/-- Bytes are read back as they were written. -/
theorem decode_encode_hex (bytes : Bytes) : decodeHex (encodeHex bytes) = some bytes := by
  induction bytes with
  | nil => rfl
  | cons b bytes ih =>
      have hlt := b.toNat_lt
      have hall : ∀ high low : Fin 16,
          UInt8.ofNat high <<< 4 ||| UInt8.ofNat low = UInt8.ofNat (16 * high + low) := by decide
      have hb : UInt8.ofNat (b.toNat / 16) <<< 4 ||| UInt8.ofNat (b.toNat % 16) = b := by
        refine (hall ⟨b.toNat / 16, by omega⟩ ⟨b.toNat % 16, by omega⟩).trans ?_
        rw [Nat.div_add_mod, UInt8.ofNat_toNat]
      show decodeHex (hexDigit (b.toNat / 16) :: hexDigit (b.toNat % 16) :: encodeHex bytes) = _
      simp only [decodeHex, unhex_hex_digit (show b.toNat / 16 < 16 by omega),
        unhex_hex_digit (show b.toNat % 16 < 16 by omega), ih, Option.bind_eq_bind,
        Option.bind_some, hb]
      rfl

/-! ## Words -/

/-- The length of the space character the bytes start with, or 0: the ASCII spaces, U+0085,
U+00A0, U+1680, U+2000 to U+200A, U+2028, U+2029, U+202F, U+205F and U+3000. -/
def spaceLen : GoString → Nat
  | 0xC2 :: b1 :: _ => if b1 = 0x85 ∨ b1 = 0xA0 then 2 else 0
  | 0xE1 :: b1 :: b2 :: _ => if b1 = 0x9A ∧ b2 = 0x80 then 3 else 0
  | 0xE2 :: b1 :: b2 :: _ =>
      if b1 = 0x80 ∧ (0x80 ≤ b2 ∧ b2 ≤ 0x8A ∨ b2 = 0xA8 ∨ b2 = 0xA9 ∨ b2 = 0xAF) ∨
        b1 = 0x81 ∧ b2 = 0x9F then 3 else 0
  | 0xE3 :: b1 :: b2 :: _ => if b1 = 0x80 ∧ b2 = 0x80 then 3 else 0
  | b0 :: _ => if 0x09 ≤ b0 ∧ b0 ≤ 0x0D ∨ b0 = 0x20 then 1 else 0
  | [] => 0

/-- The text after its leading spaces, up to a line break. The first argument bounds the number of
spaces. -/
def skipSpaces : Nat → GoString → GoString
  | 0, s => s
  | fuel + 1, s =>
      if spaceLen s = 0 ∨ s.head? = some newline then s else skipSpaces fuel (s.drop (spaceLen s))

/-- The first word of the text: its runes up to a space. The first argument bounds their number. -/
def word : Nat → GoString → GoString
  | 0, _ => []
  | _ + 1, [] => []
  | fuel + 1, b :: rest =>
      if spaceLen (b :: rest) = 0 then
        match runeLen (b :: rest) with
        | 0 => runeError ++ word fuel rest
        | n + 1 => (b :: rest).take (n + 1) ++ word fuel ((b :: rest).drop (n + 1))
      else []

/-- What `fmt.Sscanf` reads for the format ` %s`, or nothing if the text does not match: the blank
stands for at least one space, and a line break is not a space here. -/
def scanWord (s : GoString) : GoString :=
  if spaceLen s = 0 ∨ s.head? = some newline then []
  else
    let rest := skipSpaces s.length s
    if rest.head? = some newline then [] else word rest.length rest

/-- What `fmt.Sscanf(s, "HMAC %s", &clientSig)` leaves in an empty `clientSig`. -/
def scanHmac (s : GoString) : GoString :=
  if s.take 4 = ascii "HMAC" then scanWord (s.drop 4) else []

/-- A byte that is a word character by itself. -/
def IsPlain (b : UInt8) : Prop := 0x21 ≤ b ∧ b < 0x80

theorem space_len_plain {b : UInt8} (h : IsPlain b) (rest : GoString) :
    spaceLen (b :: rest) = 0 := by
  obtain ⟨hlow, hhigh⟩ := h
  unfold spaceLen
  split
  case h_5 b0 _ _ _ _ _ heq =>
    obtain ⟨rfl, -⟩ := List.cons.inj heq
    refine if_neg ?_
    rintro (⟨-, hle⟩ | rfl)
    · exact absurd (hlow.trans hle) (by decide)
    · exact absurd hlow (by decide)
  all_goals simp_all

theorem rune_len_plain {b : UInt8} (h : IsPlain b) (rest : GoString) :
    runeLen (b :: rest) = 1 := by
  have hsize : runeSize b = 1 := if_pos h.2
  simp [runeLen, hsize]

/-- Plain bytes are one word. -/
theorem word_plain {s : GoString} (h : ∀ b ∈ s, IsPlain b) : word s.length s = s := by
  induction s with
  | nil => rfl
  | cons b rest ih =>
      obtain ⟨hb, hrest⟩ := List.forall_mem_cons.mp h
      rw [List.length_cons, word, if_pos (space_len_plain hb rest)]
      simp only [rune_len_plain hb rest, List.take_succ_cons, List.take_zero, List.drop_succ_cons,
        List.drop_zero, ih hrest, List.cons_append, List.nil_append]

/-- A plain word after one blank is read as it is. -/
theorem scan_word_plain {s : GoString} (hne : s ≠ []) (h : ∀ b ∈ s, IsPlain b) :
    scanWord (0x20 :: s) = s := by
  obtain ⟨b, rest, rfl⟩ := List.exists_cons_of_ne_nil hne
  have hb : IsPlain b := h b List.mem_cons_self
  have hline : b ≠ newline := by
    rintro rfl
    exact absurd hb.1 (by decide)
  have hspace : spaceLen (0x20 :: b :: rest) = 1 := by simp [spaceLen]
  have hblank : ¬ (spaceLen (0x20 :: b :: rest) = 0 ∨
      (0x20 :: b :: rest).head? = some newline) := by simp [hspace, newline]
  have hskip : skipSpaces (0x20 :: b :: rest).length (0x20 :: b :: rest) = b :: rest := by
    rw [List.length_cons, skipSpaces, if_neg hblank, hspace, List.drop_one, List.tail_cons,
      List.length_cons, skipSpaces, if_pos (.inl (space_len_plain hb rest))]
  rw [scanWord, if_neg hblank, hskip]
  exact (if_neg (by simpa using hline)).trans (word_plain h)

theorem scan_hmac_plain {s : GoString} (hne : s ≠ []) (h : ∀ b ∈ s, IsPlain b) :
    scanHmac (ascii "HMAC " ++ s) = s := by
  have htake : (ascii "HMAC " ++ s).take 4 = ascii "HMAC" := rfl
  rw [scanHmac, if_pos htake]
  exact scan_word_plain hne h

/-! ## Times -/

/-- `time.Second`. -/
def second : Int := 1000000000

/-- `Time.Unix`. -/
def unix (now : Int) : Int := now / second

/-- `time.Since(time.Unix(t, 0)).Abs()` at time `now`: differences are cut off at the bounds of
`int64`. -/
def sinceAbs (now t : Int) : Int := min |now - t * second| (2 ^ 63 - 1)

/-- A duration below the bound is exceeded by the difference exactly if it is exceeded by the true
one. -/
theorem since_abs_le_iff {now t limit : Int} (h : limit < 2 ^ 63 - 1) :
    sinceAbs now t ≤ limit ↔ |now - t * second| ≤ limit := by
  unfold sinceAbs
  omega

end NuSync.Go
