import Mathlib

/-!
# Base64

The standard encoding of RFC 4648 with padding, on lists of bytes. The decoder ignores line
breaks and does not look at the bits behind the last byte. `decode_encode` is the round trip, and
`mem_encode` says which bytes an encoding is made of.
-/

namespace NuSync.Lib.Base64

/-- The character for a value below 64. -/
def char (v : Nat) : UInt8 :=
  if v < 26 then UInt8.ofNat (v + 65)
  else if v < 52 then UInt8.ofNat (v + 71)
  else if v < 62 then UInt8.ofNat (v - 4)
  else if v = 62 then 0x2B else 0x2F

/-- The value of a character of the alphabet. -/
def value (c : UInt8) : Option Nat :=
  if 0x41 ≤ c ∧ c ≤ 0x5A then some (c.toNat - 65)
  else if 0x61 ≤ c ∧ c ≤ 0x7A then some (c.toNat - 71)
  else if 0x30 ≤ c ∧ c ≤ 0x39 then some (c.toNat + 4)
  else if c = 0x2B then some 62
  else if c = 0x2F then some 63
  else none

/-- The padding character. -/
def pad : UInt8 := 0x3D

/-- Three bytes are four characters; one or two at the end are padded. -/
def encode : List UInt8 → List UInt8
  | [] => []
  | [a] => [char (a.toNat / 4), char (a.toNat % 4 * 16), pad, pad]
  | [a, b] =>
      [char (a.toNat / 4), char (a.toNat % 4 * 16 + b.toNat / 16), char (b.toNat % 16 * 4), pad]
  | a :: b :: c :: rest =>
      char (a.toNat / 4) :: char (a.toNat % 4 * 16 + b.toNat / 16) ::
        char (b.toNat % 16 * 4 + c.toNat / 64) :: char (c.toNat % 64) :: encode rest

/-- Four characters at a time; padding only in the last four. -/
def decodeQuanta : List UInt8 → Option (List UInt8)
  | [] => some []
  | w :: x :: y :: z :: rest => do
      let v0 ← value w
      let v1 ← value x
      if y = pad then
        if z = pad ∧ rest = [] then some [UInt8.ofNat (v0 * 4 + v1 / 16)] else none
      else
        let v2 ← value y
        if z = pad then
          if rest = [] then
            some [UInt8.ofNat (v0 * 4 + v1 / 16), UInt8.ofNat (v1 % 16 * 16 + v2 / 4)]
          else none
        else
          let v3 ← value z
          let tail ← decodeQuanta rest
          some (UInt8.ofNat (v0 * 4 + v1 / 16) :: UInt8.ofNat (v1 % 16 * 16 + v2 / 4) ::
            UInt8.ofNat (v2 % 4 * 64 + v3) :: tail)
  | _ => none

/-- Decoding, with line breaks taken out first. -/
def decode (text : List UInt8) : Option (List UInt8) :=
  decodeQuanta (text.filter fun c => c ≠ 0x0D ∧ c ≠ 0x0A)

/-! ## The round trip -/

theorem value_char {v : Nat} (h : v < 64) : value (char v) = some v := by
  have hall : ∀ v : Fin 64, value (char v) = some v.val := by decide
  exact hall ⟨v, h⟩

theorem char_ne_pad {v : Nat} (h : v < 64) : char v ≠ pad := by
  have hall : ∀ v : Fin 64, char v ≠ pad := by decide
  exact hall ⟨v, h⟩

theorem char_mem_range {v : Nat} (h : v < 64) : 0x2B ≤ char v ∧ char v ≤ 0x7A := by
  have hall : ∀ v : Fin 64, 0x2B ≤ char v ∧ char v ≤ 0x7A := by decide
  exact hall ⟨v, h⟩

/-- An encoding has no spaces, no line breaks and no bytes outside ASCII. -/
theorem mem_encode {bytes : List UInt8} {c : UInt8} (h : c ∈ encode bytes) :
    0x2B ≤ c ∧ c ≤ 0x7A := by
  induction bytes using encode.induct with
  | case1 => simp [encode] at h
  | case2 a =>
      have := a.toNat_lt
      simp only [encode, List.mem_cons, List.not_mem_nil, or_false] at h
      rcases h with rfl | rfl | rfl | rfl
      · exact char_mem_range (by omega)
      · exact char_mem_range (by omega)
      · decide
      · decide
  | case3 a b =>
      have := a.toNat_lt
      have := b.toNat_lt
      simp only [encode, List.mem_cons, List.not_mem_nil, or_false] at h
      rcases h with rfl | rfl | rfl | rfl
      · exact char_mem_range (by omega)
      · exact char_mem_range (by omega)
      · exact char_mem_range (by omega)
      · decide
  | case4 a b c rest ih =>
      have := a.toNat_lt
      have := b.toNat_lt
      have := c.toNat_lt
      simp only [encode, List.mem_cons] at h
      rcases h with rfl | rfl | rfl | rfl | h
      · exact char_mem_range (by omega)
      · exact char_mem_range (by omega)
      · exact char_mem_range (by omega)
      · exact char_mem_range (by omega)
      · exact ih h

/-- The byte with this number. -/
theorem ofNat_eq {n : Nat} {a : UInt8} (h : n = a.toNat) : UInt8.ofNat n = a := by
  rw [h, UInt8.ofNat_toNat]

theorem decode_quanta_encode (bytes : List UInt8) : decodeQuanta (encode bytes) = some bytes := by
  induction bytes using encode.induct with
  | case1 => rfl
  | case2 a =>
      have := a.toNat_lt
      have ha : UInt8.ofNat (a.toNat / 4 * 4 + a.toNat % 4 * 16 / 16) = a := ofNat_eq (by omega)
      have hw : a.toNat / 4 < 64 := by omega
      have hx : a.toNat % 4 * 16 < 64 := by omega
      simp only [encode, decodeQuanta, value_char hw, value_char hx, Option.bind_eq_bind,
        Option.bind_some, and_self, if_true, ha]
  | case3 a b =>
      have := a.toNat_lt
      have := b.toNat_lt
      have ha : UInt8.ofNat (a.toNat / 4 * 4 + (a.toNat % 4 * 16 + b.toNat / 16) / 16) = a :=
        ofNat_eq (by omega)
      have hb : UInt8.ofNat ((a.toNat % 4 * 16 + b.toNat / 16) % 16 * 16 +
          b.toNat % 16 * 4 / 4) = b := ofNat_eq (by omega)
      have hw : a.toNat / 4 < 64 := by omega
      have hx : a.toNat % 4 * 16 + b.toNat / 16 < 64 := by omega
      have hy : b.toNat % 16 * 4 < 64 := by omega
      simp only [encode, decodeQuanta, value_char hw, value_char hx, value_char hy, char_ne_pad hy,
        Option.bind_eq_bind, Option.bind_some, if_true, if_false, ha, hb]
  | case4 a b c rest ih =>
      have := a.toNat_lt
      have := b.toNat_lt
      have := c.toNat_lt
      have ha : UInt8.ofNat (a.toNat / 4 * 4 + (a.toNat % 4 * 16 + b.toNat / 16) / 16) = a :=
        ofNat_eq (by omega)
      have hb : UInt8.ofNat ((a.toNat % 4 * 16 + b.toNat / 16) % 16 * 16 +
          (b.toNat % 16 * 4 + c.toNat / 64) / 4) = b := ofNat_eq (by omega)
      have hc : UInt8.ofNat ((b.toNat % 16 * 4 + c.toNat / 64) % 4 * 64 + c.toNat % 64) = c :=
        ofNat_eq (by omega)
      have hw : a.toNat / 4 < 64 := by omega
      have hx : a.toNat % 4 * 16 + b.toNat / 16 < 64 := by omega
      have hy : b.toNat % 16 * 4 + c.toNat / 64 < 64 := by omega
      have hz : c.toNat % 64 < 64 := by omega
      simp only [encode, decodeQuanta, value_char hw, value_char hx, value_char hy, value_char hz,
        char_ne_pad hy, char_ne_pad hz, ih, Option.bind_eq_bind, Option.bind_some, if_false, ha,
        hb, hc]

/-- **Decoding an encoding gives the bytes back.** -/
theorem decode_encode (bytes : List UInt8) : decode (encode bytes) = some bytes := by
  have hfilter : (encode bytes).filter (fun c => c ≠ 0x0D ∧ c ≠ 0x0A) = encode bytes := by
    refine List.filter_eq_self.mpr fun c hc => ?_
    obtain ⟨hlow, -⟩ := mem_encode hc
    have hcr : c ≠ 0x0D := by
      rintro rfl
      exact absurd hlow (by decide)
    have hlf : c ≠ 0x0A := by
      rintro rfl
      exact absurd hlow (by decide)
    simp [hcr, hlf]
  rw [decode, hfilter, decode_quanta_encode]

end NuSync.Lib.Base64
