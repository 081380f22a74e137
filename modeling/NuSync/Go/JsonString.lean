import NuSync.Go.Text

/-!
# Strings in JSON

How `encoding/json` writes a string and reads it back. Writing escapes quotes, backslashes,
control characters, the characters `<`, `>` and `&`, and the two line separators of Unicode, and
writes `\ufffd` for a byte that starts no valid sequence. Reading undoes escapes, surrogate pairs
included, and replaces invalid bytes. Together they do to a string what `jsonString` says
(`unquote_escape`).
-/

namespace NuSync.Go

/-! ## Writing -/

/-- The two digits of `\u00XX`. -/
def unicodeEscape (b : UInt8) : GoString :=
  ascii "\\u00" ++ [hexDigit (b.toNat / 16), hexDigit (b.toNat % 16)]

/-- `htmlSafeSet`: the ASCII bytes that stand for themselves. -/
def htmlSafe (b : UInt8) : Bool :=
  0x20 ≤ b && b ≠ 0x22 && b ≠ 0x5C && b ≠ 0x3C && b ≠ 0x3E && b ≠ 0x26

/-- How `appendString` writes an ASCII byte. -/
def escapeByte (b : UInt8) : GoString :=
  if htmlSafe b then [b]
  else if b = 0x5C ∨ b = 0x22 then [0x5C, b]
  else if b = 0x08 then ascii "\\b"
  else if b = 0x0C then ascii "\\f"
  else if b = 0x0A then ascii "\\n"
  else if b = 0x0D then ascii "\\r"
  else if b = 0x09 then ascii "\\t"
  else unicodeEscape b

/-- How `appendString` writes the first character of a string, and the number of bytes it has. -/
def escapeRune (s : GoString) : GoString × Nat :=
  match runeLen s with
  | 0 => (ascii "\\ufffd", 1)
  | 1 => (escapeByte (s.headD 0), 1)
  | size =>
      if s.take 3 = [0xE2, 0x80, 0xA8] then (ascii "\\u2028", 3)
      else if s.take 3 = [0xE2, 0x80, 0xA9] then (ascii "\\u2029", 3)
      else (s.take size, size)

/-- The loop of `appendString`, with the rest of a character still to be skipped. -/
def escapeFrom : Nat → GoString → GoString
  | _, [] => []
  | skip + 1, _ :: rest => escapeFrom skip rest
  | 0, b :: rest =>
      (escapeRune (b :: rest)).1 ++ escapeFrom ((escapeRune (b :: rest)).2 - 1) rest

/-- `appendString`: the string in quotes. -/
def quote (s : GoString) : GoString := 0x22 :: escapeFrom 0 s ++ [0x22]

/-! ## Reading -/

/-- `getu4` after the `\u`: four hexadecimal digits. -/
def getu4 : GoString → Option Nat
  | a :: b :: c :: d :: _ => do
      let a ← unhex a
      let b ← unhex b
      let c ← unhex c
      let d ← unhex d
      pure (((a.toNat * 16 + b.toNat) * 16 + c.toNat) * 16 + d.toNat)
  | _ => none

/-- `utf8.AppendRune`. -/
def encodeRune (r : Nat) : GoString :=
  if r < 0x80 then [UInt8.ofNat r]
  else if r < 0x800 then [UInt8.ofNat (0xC0 + r / 64), UInt8.ofNat (0x80 + r % 64)]
  else if r < 0x10000 then
    [UInt8.ofNat (0xE0 + r / 4096), UInt8.ofNat (0x80 + r / 64 % 64), UInt8.ofNat (0x80 + r % 64)]
  else
    [UInt8.ofNat (0xF0 + r / 262144), UInt8.ofNat (0x80 + r / 4096 % 64),
      UInt8.ofNat (0x80 + r / 64 % 64), UInt8.ofNat (0x80 + r % 64)]

/-- The low surrogate of a `\uXXXX` that follows. -/
def lowSurrogate : GoString → Option Nat
  | 0x5C :: 0x75 :: rest => (getu4 rest).filter fun r => 0xDC00 ≤ r ∧ r < 0xE000
  | _ => none

/-- What a `\uXXXX` stands for and the length of the escape; a pair of surrogates is one
character, and one alone is replaced. -/
def unquoteUnicode (digits : GoString) : Option (GoString × Nat) :=
  (getu4 digits).map fun r =>
    if 0xD800 ≤ r ∧ r < 0xE000 then
      match if r < 0xDC00 then lowSurrogate (digits.drop 4) else none with
      | some low => (encodeRune (0x10000 + (r - 0xD800) * 1024 + (low - 0xDC00)), 12)
      | none => (runeError, 6)
    else (encodeRune r, 6)

/-- The first character of a string's text: the bytes it stands for, and the number of bytes it
takes up. -/
def unquoteRune : GoString → Option (GoString × Nat)
  | [] => none
  | b :: rest =>
      if b = 0x5C then
        match rest with
        | [] => none
        | escape :: digits =>
            if escape = 0x22 ∨ escape = 0x5C ∨ escape = 0x2F then some ([escape], 2)
            else if escape = 0x62 then some ([0x08], 2)
            else if escape = 0x66 then some ([0x0C], 2)
            else if escape = 0x6E then some ([0x0A], 2)
            else if escape = 0x72 then some ([0x0D], 2)
            else if escape = 0x74 then some ([0x09], 2)
            else if escape = 0x75 then unquoteUnicode digits
            else none
      else if b < 0x20 then none
      else
        match runeLen (b :: rest) with
        | 0 => some (runeError, 1)
        | size => some ((b :: rest).take size, size)

/-- The rest of a string's text up to its closing quote: the string it stands for and what comes
after. The first bytes are skipped. -/
def unquoteFrom : Nat → GoString → Option (GoString × GoString)
  | _, [] => none
  | skip + 1, _ :: rest => unquoteFrom skip rest
  | 0, b :: rest =>
      if b = 0x22 then some ([], rest)
      else do
        let (text, size) ← unquoteRune (b :: rest)
        let (more, tail) ← unquoteFrom (size - 1) rest
        pure (text ++ more, tail)

/-! ## Reading what was written -/

/-- Skipped bytes do not matter. -/
theorem unquote_from_skip (skipped text : GoString) :
    unquoteFrom skipped.length (skipped ++ text) = unquoteFrom 0 text := by
  induction skipped with
  | nil => rfl
  | cons b skipped ih => exact ih

/-- One character of the text. -/
theorem unquote_from_rune {b : UInt8} {escape text out : GoString} (hb : b ≠ 0x22)
    (h : unquoteRune (b :: escape ++ text) = some (out, escape.length + 1)) :
    unquoteFrom 0 (b :: escape ++ text) =
      (unquoteFrom 0 text).map fun read => (out ++ read.1, read.2) := by
  rw [List.cons_append] at h ⊢
  rw [unquoteFrom, if_neg hb, h]
  simp only [Option.bind_eq_bind, Option.bind_some, Nat.add_sub_cancel, unquote_from_skip]
  cases unquoteFrom 0 text with
  | none => rfl
  | some read => rfl

/-- Four digits are read whatever follows. -/
theorem getu4_append {digits : GoString} (hlen : digits.length = 4) (text : GoString) :
    getu4 (digits ++ text) = getu4 digits := by
  match digits, hlen with
  | [a, b, c, d], _ => rfl

/-- A `\uXXXX` that is no surrogate. -/
theorem unquote_rune_unicode {digits : GoString} {r : Nat} (hlen : digits.length = 4)
    (hr : getu4 digits = some r) (hplain : ¬ (0xD800 ≤ r ∧ r < 0xE000)) (text : GoString) :
    unquoteRune (0x5C :: (0x75 :: digits) ++ text) = some (encodeRune r, 6) := by
  show unquoteUnicode (digits ++ text) = _
  rw [unquoteUnicode, getu4_append hlen, hr, Option.map_some, if_neg hplain]

/-- The digits of `\u00XX` are read as the byte. -/
theorem getu4_unicode_escape {b : UInt8} (h : b < 0x80) :
    getu4 [0x30, 0x30, hexDigit (b.toNat / 16), hexDigit (b.toNat % 16)] = some b.toNat ∧
      encodeRune b.toNat = [b] := by
  have hall : ∀ n : Fin 128, getu4 [0x30, 0x30, hexDigit (n / 16), hexDigit (n % 16)] =
      some n.val ∧ encodeRune n = [UInt8.ofNat n] := by decide
  have hlt : b.toNat < 128 := UInt8.lt_iff_toNat_lt.mp h
  simpa using hall ⟨b.toNat, hlt⟩

/-- The ASCII bytes are read as they were written. -/
theorem unquote_escape_byte {b : UInt8} (h : b < 0x80) (text : GoString) :
    ∃ first rest, escapeByte b = first :: rest ∧ first ≠ 0x22 ∧
      unquoteRune (first :: rest ++ text) = some ([b], rest.length + 1) := by
  unfold escapeByte
  split_ifs with hsafe hquote hbs hff hnl hcr htab
  · simp only [htmlSafe, Bool.and_eq_true, decide_eq_true_eq] at hsafe
    obtain ⟨⟨⟨⟨⟨hlow, hquote⟩, hslash⟩, -⟩, -⟩, -⟩ := hsafe
    have hrune : runeLen (b :: text) = 1 := by simp [runeLen, runeSize, h]
    refine ⟨b, [], rfl, hquote, ?_⟩
    simp only [List.nil_append, List.cons_append, unquoteRune, if_neg hslash,
      if_neg (not_lt.mpr hlow), hrune]
    rfl
  · refine ⟨0x5C, [b], rfl, by decide, ?_⟩
    rcases hquote with rfl | rfl <;> rfl
  all_goals try subst_vars
  · exact ⟨0x5C, _, rfl, by decide, rfl⟩
  · exact ⟨0x5C, _, rfl, by decide, rfl⟩
  · exact ⟨0x5C, _, rfl, by decide, rfl⟩
  · exact ⟨0x5C, _, rfl, by decide, rfl⟩
  · exact ⟨0x5C, _, rfl, by decide, rfl⟩
  · obtain ⟨hdigits, hbyte⟩ := getu4_unicode_escape h
    have hlt : b.toNat < 128 := UInt8.lt_iff_toNat_lt.mp h
    refine ⟨0x5C, 0x75 :: [0x30, 0x30, hexDigit (b.toNat / 16), hexDigit (b.toNat % 16)], rfl,
      by decide, ?_⟩
    rw [unquote_rune_unicode rfl hdigits (by omega), hbyte]
    rfl

/-- The sequences of one byte are the ASCII bytes. -/
theorem rune_len_eq_one_iff {b : UInt8} {rest : GoString} :
    runeLen (b :: rest) = 1 ↔ b < 0x80 := by
  constructor
  · intro h
    have hsize : runeSize b = 1 := by
      simp only [runeLen] at h
      split at h
      · assumption
      all_goals try split_ifs at h
      all_goals omega
    by_contra hhigh
    unfold runeSize at hsize
    rw [if_neg hhigh] at hsize
    split_ifs at hsize
    all_goals omega
  · intro h
    simp [runeLen, runeSize, h]

/-- What starts a sequence of several bytes is not ASCII. -/
theorem high_of_rune_len {b : UInt8} {rest : GoString} {n : Nat}
    (h : runeLen (b :: rest) = n + 2) : 0x80 ≤ b := by
  by_contra hlow
  have hone : runeLen (b :: rest) = 1 := rune_len_eq_one_iff.mpr (not_le.mp hlow)
  omega

/-- A sequence of several bytes is read as it is. -/
theorem unquote_rune_copied {b : UInt8} {rest : GoString} {n : Nat}
    (h : runeLen (b :: rest) = n + 2) (text : GoString) :
    unquoteRune (b :: rest.take (n + 1) ++ text) = some (b :: rest.take (n + 1), n + 2) := by
  have hhigh := high_of_rune_len h
  have hslash : b ≠ 0x5C := by
    rintro rfl
    exact absurd hhigh (by decide)
  have hcontrol : ¬ b < 0x20 := not_lt.mpr (le_trans (by decide) hhigh)
  have hrune : runeLen (b :: (rest.take (n + 1) ++ text)) = n + 2 := rune_len_take h text
  have hlen : (rest.take (n + 1)).length = n + 1 := by
    have := rune_len_le (b :: rest)
    rw [List.length_cons] at this
    rw [List.length_take]
    omega
  simp only [List.cons_append, unquoteRune, if_neg hslash, if_neg hcontrol, hrune]
  rw [List.take_succ_cons, List.take_append_of_le_length hlen.ge, List.take_take, min_self]

/-- A line separator is a sequence of three bytes. -/
theorem rune_len_separator {s : GoString} {last : UInt8} (hlast : last = 0xA8 ∨ last = 0xA9)
    (h : s.take 3 = [0xE2, 0x80, last]) : runeLen s = 3 := by
  obtain ⟨rest, rfl⟩ : ∃ rest, s = [0xE2, 0x80, last] ++ rest :=
    ⟨s.drop 3, by rw [← h, List.take_append_drop]⟩
  rcases hlast with rfl | rfl <;> rfl

/-- How many bytes a character has. -/
theorem escape_rune_size (s : GoString) : (escapeRune s).2 = max 1 (runeLen s) := by
  unfold escapeRune
  split
  · next hrune => rw [hrune]; rfl
  · next hrune => rw [hrune]; rfl
  · next hzero hone =>
      split_ifs with hls hps
      · rw [rune_len_separator (.inl rfl) hls]
        rfl
      · rw [rune_len_separator (.inr rfl) hps]
        rfl
      · have hpos : runeLen s ≠ 0 := hzero
        show runeLen s = _
        omega

/-- A character is read as it was written, or as U+FFFD if it was none. -/
theorem unquote_escape_rune (b : UInt8) (rest text : GoString) :
    ∃ first more, (escapeRune (b :: rest)).1 = first :: more ∧ first ≠ 0x22 ∧
      unquoteRune (first :: more ++ text) = some
        (if runeLen (b :: rest) = 0 then runeError else (b :: rest).take (runeLen (b :: rest)),
          more.length + 1) := by
  have hseparator (last : UInt8) (digits : GoString) (r : Nat) (hlen : digits.length = 4)
      (hlast : last = 0xA8 ∨ last = 0xA9) (hr : getu4 digits = some r)
      (hplain : ¬ (0xD800 ≤ r ∧ r < 0xE000)) (hencode : encodeRune r = [0xE2, 0x80, last])
      (htake : (b :: rest).take 3 = [0xE2, 0x80, last]) :
      unquoteRune (0x5C :: (0x75 :: digits) ++ text) =
        some ((b :: rest).take (runeLen (b :: rest)), (0x75 :: digits).length + 1) := by
    rw [unquote_rune_unicode hlen hr hplain, rune_len_separator hlast htake, htake, hencode,
      List.length_cons, hlen]
  unfold escapeRune
  split
  · next hrune =>
      refine ⟨0x5C, 0x75 :: ascii "fffd", rfl, by decide, ?_⟩
      have hdigits : getu4 (ascii "fffd") = some 0xFFFD := by decide
      rw [unquote_rune_unicode rfl hdigits (by decide), if_pos hrune]
      rfl
  · next hrune =>
      obtain ⟨first, more, heq, hne, hread⟩ :=
        unquote_escape_byte (rune_len_eq_one_iff.mp hrune) text
      exact ⟨first, more, heq, hne, by rw [hread, hrune]; rfl⟩
  · next hzero hone =>
      have hpos : runeLen (b :: rest) ≠ 0 := hzero
      have hmore : runeLen (b :: rest) ≠ 1 := hone
      obtain ⟨n, hrune⟩ : ∃ n, runeLen (b :: rest) = n + 2 := ⟨runeLen (b :: rest) - 2, by omega⟩
      split_ifs with hls hps
      · exact ⟨0x5C, 0x75 :: ascii "2028", rfl, by decide,
          hseparator 0xA8 (ascii "2028") 0x2028 rfl (.inl rfl) (by decide) (by decide) (by decide)
            hls⟩
      · exact ⟨0x5C, 0x75 :: ascii "2029", rfl, by decide,
          hseparator 0xA9 (ascii "2029") 0x2029 rfl (.inr rfl) (by decide) (by decide) (by decide)
            hps⟩
      · have hle := rune_len_le (b :: rest)
        rw [List.length_cons] at hle
        refine ⟨b, rest.take (n + 1), by rw [hrune]; rfl, ?_, ?_⟩
        · rintro rfl
          exact absurd (high_of_rune_len hrune) (by decide)
        · rw [unquote_rune_copied hrune, hrune, List.length_take, List.take_succ_cons,
            min_eq_left (by omega)]

theorem escape_from_eq (skip : Nat) (s : GoString) :
    escapeFrom skip s = escapeFrom 0 (s.drop skip) := by
  induction skip generalizing s with
  | zero => rfl
  | succ skip ih =>
      cases s with
      | nil => rfl
      | cons b rest => exact ih rest

/-- The text of a string up to its closing quote is read as the string after JSON. -/
theorem unquote_escape (s tail : GoString) :
    unquoteFrom 0 (escapeFrom 0 s ++ 0x22 :: tail) = some (jsonString s, tail) := by
  -- one character at a time
  have hstep (b : UInt8) (rest : GoString)
      (ih : unquoteFrom 0 (escapeFrom 0 ((b :: rest).drop (max 1 (runeLen (b :: rest)))) ++
        0x22 :: tail) = some (jsonString ((b :: rest).drop (max 1 (runeLen (b :: rest)))), tail)) :
      unquoteFrom 0 (escapeFrom 0 (b :: rest) ++ 0x22 :: tail) = some
        ((if runeLen (b :: rest) = 0 then runeError else (b :: rest).take (runeLen (b :: rest))) ++
          jsonString ((b :: rest).drop (max 1 (runeLen (b :: rest)))), tail) := by
    obtain ⟨first, more, hwritten, hne, hread⟩ := unquote_escape_rune b rest
      (escapeFrom 0 ((b :: rest).drop (max 1 (runeLen (b :: rest)))) ++ 0x22 :: tail)
    have hdrop : escapeFrom ((escapeRune (b :: rest)).2 - 1) rest =
        escapeFrom 0 ((b :: rest).drop (max 1 (runeLen (b :: rest)))) := by
      rw [escape_from_eq, escape_rune_size]
      obtain ⟨k, hk⟩ : ∃ k, max 1 (runeLen (b :: rest)) = k + 1 :=
        ⟨max 1 (runeLen (b :: rest)) - 1, by omega⟩
      rw [hk]
      rfl
    rw [escapeFrom, hdrop, hwritten, List.append_assoc, unquote_from_rune hne hread, ih]
    rfl
  induction s using rune_induction with
  | hnil => rfl
  | hinvalid b rest hrune ih =>
      have := hstep b rest (by rw [hrune]; exact ih)
      rw [hrune] at this
      rw [this, json_string_invalid hrune]
      rfl
  | hvalid s n hrune ih =>
      cases s with
      | nil => cases hrune
      | cons b rest =>
          have := hstep b rest (by rw [hrune, max_eq_right (by omega)]; exact ih)
          rw [hrune, max_eq_right (by omega), if_neg (by omega)] at this
          rw [this, json_string_valid hrune]

example : quote (ascii "a\"<b\n") = ascii "\"a\\\"\\u003cb\\n\"" := by decide

/-! ## What is read is valid -/

theorem rune_len_error (tail : GoString) : runeLen (runeError ++ tail) = 3 := rfl

/-- A valid string is kept in front of any other. -/
theorem json_string_append {s : GoString} (h : ValidUtf8 s) (tail : GoString) :
    jsonString (s ++ tail) = s ++ jsonString tail := by
  induction s using rune_induction with
  | hnil => rfl
  | hinvalid b rest hrune _ =>
      -- JSON would have put U+FFFD in its place
      have heq : runeError ++ jsonString rest = b :: rest :=
        (json_string_invalid hrune).symm.trans h
      rw [← heq, rune_len_error] at hrune
      exact absurd hrune (by decide)
  | hvalid s n hrune ih =>
      have hle := rune_len_le s
      have hsplit := (json_string_valid hrune).symm.trans h
      have hrest : ValidUtf8 (s.drop (n + 1)) := by
        conv_rhs at hsplit => rw [← List.take_append_drop (n + 1) s]
        exact List.append_cancel_left hsplit
      have hrune' : runeLen (s ++ tail) = n + 1 := by
        have htake := rune_len_take hrune (s.drop (n + 1) ++ tail)
        rwa [← List.append_assoc, List.take_append_drop] at htake
      rw [json_string_valid hrune', List.take_append_of_le_length (by omega),
        List.drop_append_of_le_length (by omega), ih hrest, ← List.append_assoc,
        List.take_append_drop]

theorem valid_append {s t : GoString} (hs : ValidUtf8 s) (ht : ValidUtf8 t) :
    ValidUtf8 (s ++ t) := by
  rw [ValidUtf8, json_string_append hs, ht]

/-- A single sequence is valid. -/
theorem valid_of_rune_len {s : GoString} {n : Nat} (h : runeLen s = n + 1) :
    ValidUtf8 (s.take (n + 1)) := by
  have htake := rune_len_take h []
  have hlen : (s.take (n + 1)).length ≤ n + 1 := by simp
  rw [List.append_nil] at htake
  rw [ValidUtf8, json_string_valid htake, List.take_of_length_le hlen, List.drop_of_length_le hlen]
  exact List.append_nil _

theorem valid_ascii {b : UInt8} (h : b < 0x80) : ValidUtf8 [b] :=
  valid_of_rune_len (s := [b]) (n := 0) (rune_len_eq_one_iff.mpr h)

/-- The code points that are encoded: no surrogates and nothing above U+10FFFF. -/
def IsScalar (r : Nat) : Prop := r < 0x110000 ∧ ¬ (0xD800 ≤ r ∧ r < 0xE000)

theorem to_nat_byte {n : Nat} (h : n < 256) : (UInt8.ofNat n).toNat = n :=
  UInt8.toNat_ofNat_of_lt' h

theorem is_cont_byte {n : Nat} (h : n < 64) : isCont (UInt8.ofNat (0x80 + n)) = true := by
  simp only [isCont, UInt8.le_iff_toNat_le, to_nat_byte (show 0x80 + n < 256 by omega),
    UInt8.reduceToNat, Bool.and_eq_true, decide_eq_true_eq]
  omega

/-- A continuation byte is a second byte unless the first byte narrows its range. -/
theorem is_second_of_cont (b0 : UInt8) {b1 : UInt8} (hcont : isCont b1 = true)
    (hE0 : b0.toNat = 0xE0 → 0xA0 ≤ b1.toNat) (hED : b0.toNat = 0xED → b1.toNat ≤ 0x9F)
    (hF0 : b0.toNat = 0xF0 → 0x90 ≤ b1.toNat) (hF4 : b0.toNat = 0xF4 → b1.toNat ≤ 0x8F) :
    isSecond b0 b1 = true := by
  have hrange := hcont
  simp only [isCont, UInt8.le_iff_toNat_le, UInt8.reduceToNat, Bool.and_eq_true,
    decide_eq_true_eq] at hrange
  simp only [isSecond, ← UInt8.toNat_inj, UInt8.le_iff_toNat_le, UInt8.reduceToNat, hcont]
  split_ifs with h1 h2 h3 h4
  · simpa using ⟨hE0 h1, hrange.2⟩
  · simpa using ⟨hrange.1, hED h2⟩
  · simpa using ⟨hF0 h3, hrange.2⟩
  · simpa using ⟨hrange.1, hF4 h4⟩
  · rfl

/-- The size of a sequence by the number of its first byte. -/
theorem rune_size_byte {n : Nat} (h : n < 256) : runeSize (UInt8.ofNat n) =
    if n < 0x80 then 1 else if 0xC2 ≤ n ∧ n ≤ 0xDF then 2 else if 0xE0 ≤ n ∧ n ≤ 0xEF then 3
    else if 0xF0 ≤ n ∧ n ≤ 0xF4 then 4 else 0 := by
  simp only [runeSize, UInt8.lt_iff_toNat_lt, UInt8.le_iff_toNat_le, to_nat_byte h,
    UInt8.reduceToNat]

/-- A code point is encoded as a valid sequence. -/
theorem rune_len_encode_rune {r : Nat} (h : IsScalar r) :
    runeLen (encodeRune r) = (encodeRune r).length := by
  obtain ⟨hmax, hplain⟩ := h
  unfold encodeRune
  split_ifs with hone htwo hthree
  · have hsize := rune_size_byte (show r < 256 by omega)
    rw [if_pos hone] at hsize
    simp [runeLen, hsize]
  · have hsize := rune_size_byte (show 0xC0 + r / 64 < 256 by omega)
    rw [if_neg (by omega), if_pos (by omega)] at hsize
    have hfirst := to_nat_byte (show 0xC0 + r / 64 < 256 by omega)
    have hsecond := is_second_of_cont (UInt8.ofNat (0xC0 + r / 64))
      (is_cont_byte (show r % 64 < 64 by omega)) (by omega) (by omega) (by omega) (by omega)
    simp only [runeLen, hsize, hsecond, if_true, List.length_cons, List.length_nil]
  · have hsize := rune_size_byte (show 0xE0 + r / 4096 < 256 by omega)
    rw [if_neg (by omega), if_neg (by omega), if_pos (by omega)] at hsize
    have hfirst := to_nat_byte (show 0xE0 + r / 4096 < 256 by omega)
    have hnext := to_nat_byte (show 0x80 + r / 64 % 64 < 256 by omega)
    have hsecond := is_second_of_cont (UInt8.ofNat (0xE0 + r / 4096))
      (is_cont_byte (show r / 64 % 64 < 64 by omega)) (by omega) (by omega) (by omega) (by omega)
    have hlast := is_cont_byte (show r % 64 < 64 by omega)
    simp only [runeLen, hsize, hsecond, hlast, Bool.and_self, if_true, List.length_cons,
      List.length_nil]
  · have hsize := rune_size_byte (show 0xF0 + r / 262144 < 256 by omega)
    rw [if_neg (by omega), if_neg (by omega), if_neg (by omega), if_pos (by omega)] at hsize
    have hfirst := to_nat_byte (show 0xF0 + r / 262144 < 256 by omega)
    have hnext := to_nat_byte (show 0x80 + r / 4096 % 64 < 256 by omega)
    have hsecond := is_second_of_cont (UInt8.ofNat (0xF0 + r / 262144))
      (is_cont_byte (show r / 4096 % 64 < 64 by omega)) (by omega) (by omega) (by omega) (by omega)
    have hthird := is_cont_byte (show r / 64 % 64 < 64 by omega)
    have hlast := is_cont_byte (show r % 64 < 64 by omega)
    simp only [runeLen, hsize, hsecond, hthird, hlast, Bool.and_self, if_true, List.length_cons,
      List.length_nil]

theorem valid_encode_rune {r : Nat} (h : IsScalar r) : ValidUtf8 (encodeRune r) := by
  have hlen := rune_len_encode_rune h
  obtain ⟨n, hn⟩ : ∃ n, (encodeRune r).length = n + 1 := by
    unfold encodeRune
    split_ifs <;> exact ⟨_, rfl⟩
  have hvalid := valid_of_rune_len (hlen.trans hn)
  rwa [List.take_of_length_le hn.le] at hvalid

theorem unhex_lt {b digit : UInt8} (h : unhex b = some digit) : digit.toNat < 16 := by
  unfold unhex at h
  split_ifs at h with hdecimal hlower hupper
  · cases h
    have hrange := UInt8.le_iff_toNat_le.mp hdecimal.2
    rw [UInt8.toNat_sub_of_le _ _ hdecimal.1]
    simp only [UInt8.reduceToNat] at hrange ⊢
    omega
  · cases h
    have hrange := UInt8.le_iff_toNat_le.mp hlower.2
    rw [UInt8.toNat_add, UInt8.toNat_sub_of_le _ _ hlower.1]
    simp only [UInt8.reduceToNat] at hrange ⊢
    omega
  · cases h
    have hrange := UInt8.le_iff_toNat_le.mp hupper.2
    rw [UInt8.toNat_add, UInt8.toNat_sub_of_le _ _ hupper.1]
    simp only [UInt8.reduceToNat] at hrange ⊢
    omega

/-- Four digits stand for a number of 16 bits. -/
theorem getu4_lt {digits : GoString} {r : Nat} (h : getu4 digits = some r) : r < 0x10000 := by
  unfold getu4 at h
  split at h
  · simp only [Option.bind_eq_bind, Option.bind_eq_some_iff, Option.pure_def,
      Option.some.injEq] at h
    obtain ⟨a, ha, b, hb, c, hc, d, hd, rfl⟩ := h
    have ha := unhex_lt ha
    have hb := unhex_lt hb
    have hc := unhex_lt hc
    have hd := unhex_lt hd
    omega
  · cases h

/-- A low surrogate lies in its range. -/
theorem low_surrogate_range {s : GoString} {low : Nat} (h : lowSurrogate s = some low) :
    0xDC00 ≤ low ∧ low < 0xE000 := by
  unfold lowSurrogate at h
  split at h
  · simpa using (Option.filter_eq_some_iff.mp h).2
  · cases h

/-- What a `\uXXXX` stands for is valid. -/
theorem unquote_unicode_valid {digits text : GoString} {size : Nat}
    (h : unquoteUnicode digits = some (text, size)) : ValidUtf8 text := by
  obtain ⟨r, hr, hread⟩ := Option.map_eq_some_iff.mp h
  have hlt := getu4_lt hr
  by_cases hsurrogate : 0xD800 ≤ r ∧ r < 0xE000
  · rw [if_pos hsurrogate] at hread
    split at hread
    · next low hlow =>
        obtain ⟨rfl, -⟩ := Prod.mk.inj hread
        split_ifs at hlow with hhigh
        have hlow := low_surrogate_range hlow
        exact valid_encode_rune ⟨by omega, by omega⟩
    · cases hread
      exact (by decide : ValidUtf8 runeError)
  · rw [if_neg hsurrogate] at hread
    cases hread
    exact valid_encode_rune ⟨by omega, hsurrogate⟩

/-- One character of a string's text stands for valid bytes. -/
theorem unquote_rune_valid {s text : GoString} {size : Nat}
    (h : unquoteRune s = some (text, size)) : ValidUtf8 text := by
  unfold unquoteRune at h
  split at h
  · cases h
  · next b rest =>
      split_ifs at h with hslash hcontrol
      · split at h
        · cases h
        · next escape digits =>
            split_ifs at h with hquote hb hf hn hr ht hu
            · cases h
              rcases hquote with rfl | rfl | rfl <;> exact valid_ascii (by decide)
            · cases h
              exact valid_ascii (by decide)
            · cases h
              exact valid_ascii (by decide)
            · cases h
              exact valid_ascii (by decide)
            · cases h
              exact valid_ascii (by decide)
            · cases h
              exact valid_ascii (by decide)
            · exact unquote_unicode_valid h
      · split at h
        · cases h
          exact (by decide : ValidUtf8 runeError)
        · next hsize =>
            cases h
            have hpos : runeLen (b :: rest) ≠ 0 := hsize
            obtain ⟨n, hn⟩ := Nat.exists_eq_succ_of_ne_zero hpos
            rw [hn]
            exact valid_of_rune_len hn

/-- The text of a string stands for valid UTF-8. -/
theorem unquote_from_valid {skip : Nat} {s out tail : GoString}
    (h : unquoteFrom skip s = some (out, tail)) : ValidUtf8 out := by
  induction s generalizing skip out with
  | nil => simp [unquoteFrom] at h
  | cons b rest ih =>
      cases skip with
      | succ skip => exact ih h
      | zero =>
          rw [unquoteFrom] at h
          split_ifs at h with hquote
          · cases h
            rfl
          · simp only [Option.bind_eq_bind, Option.bind_eq_some_iff, Option.pure_def] at h
            obtain ⟨⟨text, size⟩, hrune, ⟨more, after⟩, hmore, heq⟩ := h
            cases heq
            exact valid_append (unquote_rune_valid hrune) (ih hmore)

end NuSync.Go
