import NuSync.Go.Bytes

/-!
# What `encoding/json` does to a string

Encoding a Go string as JSON and decoding it again keeps every valid UTF-8 sequence and
replaces each byte that starts none by U+FFFD. `jsonString` is that round trip. It is
idempotent (`json_string_idem`), and the strings it leaves alone are the valid UTF-8 ones.
-/

namespace NuSync.Go

/-- The UTF-8 encoding of U+FFFD, `utf8.RuneError`. -/
def runeError : Bytes := [0xEF, 0xBF, 0xBD]

/-- The number of bytes a sequence with this first byte has; 0 for a byte that starts none. -/
def runeSize (b0 : UInt8) : Nat :=
  if b0 < 0x80 then 1
  else if 0xC2 ≤ b0 ∧ b0 ≤ 0xDF then 2
  else if 0xE0 ≤ b0 ∧ b0 ≤ 0xEF then 3
  else if 0xF0 ≤ b0 ∧ b0 ≤ 0xF4 then 4
  else 0

/-- A continuation byte. -/
def isCont (b : UInt8) : Bool := 0x80 ≤ b && b ≤ 0xBF

/-- The second bytes accepted after a first byte: overlong forms, surrogates and code points
above U+10FFFF are excluded here. -/
def isSecond (b0 b1 : UInt8) : Bool :=
  if b0 = 0xE0 then 0xA0 ≤ b1 && b1 ≤ 0xBF
  else if b0 = 0xED then 0x80 ≤ b1 && b1 ≤ 0x9F
  else if b0 = 0xF0 then 0x90 ≤ b1 && b1 ≤ 0xBF
  else if b0 = 0xF4 then 0x80 ≤ b1 && b1 ≤ 0x8F
  else isCont b1

/-- The length of the valid sequence the bytes start with, or 0 where `utf8.DecodeRune`
reports `RuneError` of size 1. -/
def runeLen : Bytes → Nat
  | [] => 0
  | b0 :: rest =>
      match runeSize b0, rest with
      | 1, _ => 1
      | 2, b1 :: _ => if isSecond b0 b1 then 2 else 0
      | 3, b1 :: b2 :: _ => if isSecond b0 b1 && isCont b2 then 3 else 0
      | 4, b1 :: b2 :: b3 :: _ => if isSecond b0 b1 && isCont b2 && isCont b3 then 4 else 0
      | _, _ => 0

/-- The round trip through JSON with `keep` bytes of a valid sequence still to be copied. -/
def jsonFrom : Nat → Bytes → Bytes
  | _, [] => []
  | keep + 1, b :: rest => b :: jsonFrom keep rest
  | 0, b :: rest =>
      match runeLen (b :: rest) with
      | 0 => runeError ++ jsonFrom 0 rest
      | keep + 1 => b :: jsonFrom keep rest

/-- A string after `json.Marshal` and `json.Unmarshal`. -/
def jsonString (s : GoString) : GoString := jsonFrom 0 s

/-- The string is valid UTF-8: JSON keeps it as it is. -/
def ValidUtf8 (s : GoString) : Prop := jsonString s = s

instance (s : GoString) : Decidable (ValidUtf8 s) := inferInstanceAs (Decidable (_ = _))

/-! ## Valid sequences -/

/-- A valid sequence lies inside the bytes it starts. -/
theorem rune_len_le (s : Bytes) : runeLen s ≤ s.length := by
  unfold runeLen
  split
  · rfl
  · split <;> (try split_ifs) <;> simp_all

/-- A valid sequence is recognised whatever follows it. -/
theorem rune_len_take {s : Bytes} {n : Nat} (h : runeLen s = n + 1) (tail : Bytes) :
    runeLen (s.take (n + 1) ++ tail) = n + 1 := by
  cases s with
  | nil => simp [runeLen] at h
  | cons b0 rest =>
      simp only [runeLen] at h
      split at h
      case h_1 _ hsize =>
          obtain rfl : n = 0 := by omega
          simp [runeLen, hsize]
      case h_2 b1 more hsize =>
          split_ifs at h with hok
          obtain rfl : n = 1 := by omega
          simp [runeLen, hsize, hok]
      case h_3 b1 b2 more hsize =>
          split_ifs at h with hok
          obtain rfl : n = 2 := by omega
          simp only [List.take_succ_cons, List.take_zero, List.cons_append, List.nil_append,
            runeLen, hsize, hok, if_true]
      case h_4 b1 b2 b3 more hsize =>
          split_ifs at h with hok
          obtain rfl : n = 3 := by omega
          simp only [List.take_succ_cons, List.take_zero, List.cons_append, List.nil_append,
            runeLen, hsize, hok, if_true]
      case h_5 => omega

/-- Copying a pending sequence keeps its bytes. -/
theorem json_from_eq (keep : Nat) (s : Bytes) :
    jsonFrom keep s = s.take keep ++ jsonString (s.drop keep) := by
  induction keep generalizing s with
  | zero => rfl
  | succ keep ih =>
      cases s with
      | nil => simp [jsonFrom, jsonString]
      | cons b rest => simp [jsonFrom, ih]

/-- A byte that starts no valid sequence becomes U+FFFD. -/
theorem json_string_invalid {b : UInt8} {rest : Bytes} (h : runeLen (b :: rest) = 0) :
    jsonString (b :: rest) = runeError ++ jsonString rest := by
  simp [jsonString, jsonFrom, h]

/-- A valid sequence is copied. -/
theorem json_string_valid {s : Bytes} {n : Nat} (h : runeLen s = n + 1) :
    jsonString s = s.take (n + 1) ++ jsonString (s.drop (n + 1)) := by
  cases s with
  | nil => simp [runeLen] at h
  | cons b rest => simp [jsonString, jsonFrom, h, json_from_eq n rest]

/-- **Induction along the sequences of a string**: one case for the empty string, one for a
byte that starts no valid sequence and one for a valid sequence. -/
theorem rune_induction {motive : Bytes → Prop} (hnil : motive [])
    (hinvalid : ∀ b rest, runeLen (b :: rest) = 0 → motive rest → motive (b :: rest))
    (hvalid : ∀ s n, runeLen s = n + 1 → motive (s.drop (n + 1)) → motive s) (s : Bytes) :
    motive s := by
  induction hlen : s.length using Nat.strong_induction_on generalizing s with
  | _ len ih =>
      subst hlen
      cases hrune : runeLen s with
      | zero =>
          cases s with
          | nil => exact hnil
          | cons b rest => exact hinvalid b rest hrune (ih rest.length (by simp) rest rfl)
      | succ n =>
          have hle := rune_len_le s
          exact hvalid s n hrune (ih _ (by simp; omega) (s.drop (n + 1)) rfl)

/-- What comes out of JSON is valid UTF-8: a second round trip changes nothing. -/
theorem json_string_idem (s : GoString) : jsonString (jsonString s) = jsonString s := by
  induction s using rune_induction with
  | hnil => rfl
  | hinvalid b rest hrune ih =>
      have hrep : runeLen (runeError ++ jsonString rest) = 2 + 1 := by
        simp [runeError, runeLen, show runeSize 0xEF = 3 from rfl,
          show isSecond 0xEF 0xBF = true from rfl, show isCont 0xBD = true from rfl]
      rw [json_string_invalid hrune, json_string_valid hrep]
      simpa [runeError] using ih
  | hvalid s n hrune ih =>
      have hle := rune_len_le s
      have hlen : (s.take (n + 1)).length = n + 1 := by simp; omega
      rw [json_string_valid hrune, json_string_valid (rune_len_take hrune _),
        List.take_append_of_le_length hlen.ge, List.drop_append_of_le_length hlen.ge]
      simp [List.take_of_length_le hlen.le, List.drop_of_length_le hlen.le, ih]

/-! ## ASCII bytes -/

/-- An ASCII byte is part of no longer sequence. -/
theorem not_cont_of_ascii {b : UInt8} (h : b < 0x80) :
    isCont b = false ∧ ∀ b0, isSecond b0 b = false := by
  have hlow (lo : UInt8) (hlo : 0x80 ≤ lo) : decide (lo ≤ b) = false :=
    decide_eq_false (not_le.mpr (lt_of_lt_of_le h hlo))
  have hcont : isCont b = false := by
    rw [isCont, hlow 0x80 (by decide), Bool.false_and]
  refine ⟨hcont, fun b0 => ?_⟩
  unfold isSecond
  split_ifs
  · rw [hlow 0xA0 (by decide), Bool.false_and]
  · rw [hlow 0x80 (by decide), Bool.false_and]
  · rw [hlow 0x90 (by decide), Bool.false_and]
  · rw [hlow 0x80 (by decide), Bool.false_and]
  · exact hcont

/-- A sequence ends before an ASCII byte. -/
theorem rune_len_append_ascii {b : UInt8} (h : b < 0x80) (b0 : UInt8) (rest tail : Bytes) :
    runeLen (b0 :: rest ++ b :: tail) = runeLen (b0 :: rest) := by
  obtain ⟨hcont, hsecond⟩ := not_cont_of_ascii h
  simp only [List.cons_append, runeLen]
  generalize runeSize b0 = size
  rcases rest with _ | ⟨b1, _ | ⟨b2, _ | ⟨b3, rest⟩⟩⟩ <;>
    rcases size with _ | _ | _ | _ | _ | size <;> simp [hcont, hsecond]
  -- a sequence that is still incomplete would have to go on with the ASCII byte
  all_goals rcases tail with _ | ⟨t1, _ | ⟨t2, tail⟩⟩ <;> simp [hcont, hsecond]

/-- JSON treats what stands before and after an ASCII byte separately. -/
theorem json_string_append_ascii {b : UInt8} (h : b < 0x80) (s tail : Bytes) :
    jsonString (s ++ b :: tail) = jsonString s ++ b :: jsonString tail := by
  induction s using rune_induction with
  | hnil =>
      have hrune : runeLen (b :: tail) = 0 + 1 := by simp [runeLen, runeSize, h]
      simpa [jsonString, jsonFrom] using json_string_valid hrune
  | hinvalid b0 rest hrune ih =>
      rw [json_string_invalid hrune, List.cons_append, json_string_invalid, ih, List.append_assoc]
      rw [← List.cons_append, rune_len_append_ascii h, hrune]
  | hvalid s n hrune ih =>
      have hle := rune_len_le s
      have hlong : runeLen (s ++ b :: tail) = n + 1 := by
        cases s with
        | nil => cases hrune
        | cons b0 rest => rw [rune_len_append_ascii h, hrune]
      rw [json_string_valid hrune, json_string_valid hlong,
        List.take_append_of_le_length (by omega), List.drop_append_of_le_length (by omega), ih,
        List.append_assoc]

/-- The bytes that come out of JSON went in, or belong to U+FFFD. -/
theorem mem_json_string {s : Bytes} {b : UInt8} (h : b ∈ jsonString s) :
    b ∈ s ∨ b ∈ runeError := by
  induction s using rune_induction with
  | hnil => exact .inl h
  | hinvalid b0 rest hrune ih =>
      rw [json_string_invalid hrune, List.mem_append] at h
      rcases h with h | h
      · exact .inr h
      · exact (ih h).imp_left (List.mem_cons_of_mem b0)
  | hvalid s n hrune ih =>
      rw [json_string_valid hrune, List.mem_append] at h
      rcases h with h | h
      · exact .inl (List.mem_of_mem_take h)
      · exact (ih h).imp_left List.mem_of_mem_drop

/-- An ASCII string comes out of JSON only if it went in. -/
theorem json_string_of_ascii {s : Bytes} (h : ∀ b ∈ jsonString s, b < 0x80) :
    jsonString s = s := by
  induction s using rune_induction with
  | hnil => rfl
  | hinvalid b0 rest hrune ih =>
      rw [json_string_invalid hrune] at h
      exact absurd (h 0xEF (by simp [runeError])) (by decide)
  | hvalid s n hrune ih =>
      rw [json_string_valid hrune] at h ⊢
      rw [ih fun b hb => h b (List.mem_append_right _ hb), List.take_append_drop]

theorem json_string_eq_ascii_iff {text : Bytes} (hascii : ∀ b ∈ text, b < 0x80)
    (hvalid : ValidUtf8 text) (s : Bytes) : jsonString s = text ↔ s = text := by
  constructor
  · intro h
    exact (json_string_of_ascii (by rwa [h])).symm.trans h
  · rintro rfl
    exact hvalid

example : ValidUtf8 (ascii "docs/a b.txt") := by decide

example : jsonString [0x61, 0xFF, 0x62] = [0x61, 0xEF, 0xBF, 0xBD, 0x62] := by decide

end NuSync.Go
