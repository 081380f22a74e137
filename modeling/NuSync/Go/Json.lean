import NuSync.Go.JsonString

/-!
# JSON values

`encoding/json` on the level of values. `marshal` writes a value without white space, as
`json.Marshal` does; `value` reads one value as the scanner of the package accepts it, and
`unmarshal` and `decodeFirst` are what `json.Unmarshal` and a new `json.Decoder` do with a text.
What is written is read back, with each string as it is after JSON (`value_marshal`).
-/

namespace NuSync.Go

/-- A JSON value. A number is kept as its text, a string as the bytes it stands for. -/
inductive Json where
  | null
  | bool (b : Bool)
  | num (text : GoString)
  | str (s : GoString)
  | arr (items : List Json)
  | obj (members : List (GoString × Json))

namespace Json

/-! ## Writing -/

mutual

/-- The text of a value. -/
def marshal : Json → GoString
  | .null => ascii "null"
  | .bool b => ascii (if b then "true" else "false")
  | .num text => text
  | .str s => quote s
  | .arr items => 0x5B :: marshalItems items
  | .obj members => 0x7B :: marshalMembers members

/-- The items of an array and its closing bracket. -/
def marshalItems : List Json → GoString
  | [] => [0x5D]
  | [v] => v.marshal ++ [0x5D]
  | v :: items => v.marshal ++ 0x2C :: marshalItems items

/-- The members of an object and its closing brace. -/
def marshalMembers : List (GoString × Json) → GoString
  | [] => [0x7D]
  | [(key, v)] => quote key ++ 0x3A :: v.marshal ++ [0x7D]
  | (key, v) :: members => quote key ++ 0x3A :: v.marshal ++ 0x2C :: marshalMembers members

end

mutual

/-- The value with every string as it is after JSON. -/
def reread : Json → Json
  | .null => .null
  | .bool b => .bool b
  | .num text => .num text
  | .str s => .str (jsonString s)
  | .arr items => .arr (rereadItems items)
  | .obj members => .obj (rereadMembers members)

/-- The items of an array after JSON. -/
def rereadItems : List Json → List Json
  | [] => []
  | v :: items => v.reread :: rereadItems items

/-- The members of an object after JSON. -/
def rereadMembers : List (GoString × Json) → List (GoString × Json)
  | [] => []
  | (key, v) :: members => (jsonString key, v.reread) :: rereadMembers members

end

/-! ## Reading -/

/-- White space. -/
def isSpace (b : UInt8) : Bool := b = 0x20 || b = 0x09 || b = 0x0D || b = 0x0A

/-- The text after leading white space. -/
def skipSpace (s : GoString) : GoString := s.dropWhile isSpace

/-- The digits the text starts with, at least one. -/
def digits (s : GoString) : Option (GoString × GoString) :=
  if s.takeWhile isDigit = [] then none else some (s.takeWhile isDigit, s.dropWhile isDigit)

/-- The part of a number before its fraction. -/
def integerPart (s : GoString) : Option (GoString × GoString) :=
  match s with
  | 0x30 :: rest => some ([0x30], rest)
  | _ => digits s

/-- The fraction of a number, which may be missing. -/
def fractionPart (s : GoString) : Option (GoString × GoString) :=
  match s with
  | 0x2E :: rest => (digits rest).map fun (text, rest) => (0x2E :: text, rest)
  | _ => some ([], s)

/-- The exponent of a number, which may be missing. -/
def exponentPart (s : GoString) : Option (GoString × GoString) :=
  match s with
  | b :: rest =>
      if b = 0x65 ∨ b = 0x45 then
        match rest with
        | sign :: more =>
            if sign = 0x2B ∨ sign = 0x2D then
              (digits more).map fun (text, rest) => (b :: sign :: text, rest)
            else (digits rest).map fun (text, rest) => (b :: text, rest)
        | [] => none
      else some ([], s)
  | [] => some ([], s)

/-- A number: its text and what comes after. -/
def number (s : GoString) : Option (GoString × GoString) := do
  let (sign, s) : GoString × GoString := match s with
    | 0x2D :: rest => ([0x2D], rest)
    | _ => ([], s)
  let (integer, s) ← integerPart s
  let (fraction, s) ← fractionPart s
  let (exponent, s) ← exponentPart s
  pure (sign ++ integer ++ fraction ++ exponent, s)

/-- The rest of the text after a literal. -/
def literal (text : String) (v : Json) (s : GoString) : Option (Json × GoString) :=
  if (ascii text).isPrefixOf s then some (v, s.drop (ascii text).length) else none

section Containers

variable (elem : GoString → Option (Json × GoString))

/-- The items of an array that is not empty, up to its closing bracket. -/
def items : Nat → GoString → Option (List Json × GoString)
  | 0, _ => none
  | fuel + 1, s => do
      let (v, s) ← elem s
      match skipSpace s with
      | 0x5D :: rest => pure ([v], rest)
      | 0x2C :: rest =>
          let (more, s) ← items fuel rest
          pure (v :: more, s)
      | _ => none

/-- An array after its opening bracket. -/
def array (s : GoString) : Option (Json × GoString) :=
  match skipSpace s with
  | 0x5D :: rest => some (.arr [], rest)
  | _ => (items elem s.length s).map fun (items, rest) => (.arr items, rest)

/-- A member of an object: a string, a colon and a value. -/
def member (s : GoString) : Option ((GoString × Json) × GoString) :=
  match skipSpace s with
  | 0x22 :: rest => do
      let (key, s) ← unquoteFrom 0 rest
      match skipSpace s with
      | 0x3A :: rest =>
          let (v, s) ← elem rest
          pure ((key, v), s)
      | _ => none
  | _ => none

/-- The members of an object that is not empty, up to its closing brace. -/
def members : Nat → GoString → Option (List (GoString × Json) × GoString)
  | 0, _ => none
  | fuel + 1, s => do
      let (m, s) ← member elem s
      match skipSpace s with
      | 0x7D :: rest => pure ([m], rest)
      | 0x2C :: rest =>
          let (more, s) ← members fuel rest
          pure (m :: more, s)
      | _ => none

/-- An object after its opening brace. -/
def object (s : GoString) : Option (Json × GoString) :=
  match skipSpace s with
  | 0x7D :: rest => some (.obj [], rest)
  | _ => (members elem s.length s).map fun (members, rest) => (.obj members, rest)

end Containers

/-- The first value of a text and what comes after it, with at most this many containers around
each other. -/
def value : Nat → GoString → Option (Json × GoString)
  | depth, s =>
      match skipSpace s with
      | [] => none
      | b :: rest =>
          if b = 0x22 then (unquoteFrom 0 rest).map fun (s, rest) => (.str s, rest)
          else if b = 0x2D ∨ isDigit b then
            (number (b :: rest)).map fun (text, rest) => (.num text, rest)
          else if b = 0x6E then literal "null" .null (b :: rest)
          else if b = 0x74 then literal "true" (.bool true) (b :: rest)
          else if b = 0x66 then literal "false" (.bool false) (b :: rest)
          else
            match depth with
            | 0 => none
            | depth + 1 =>
                if b = 0x5B then array (value depth) rest
                else if b = 0x7B then object (value depth) rest
                else none

/-- `maxNestingDepth`. -/
def maxNestingDepth : Nat := 10000

/-- `json.Unmarshal` up to the decoding of the value: the text is one value. -/
def unmarshal (s : GoString) : Option Json :=
  match value maxNestingDepth s with
  | some (v, rest) => if skipSpace rest = [] then some v else none
  | none => none

/-- `Decode` of a new `json.Decoder`: the text starts with a value. -/
def decodeFirst (s : GoString) : Option Json := (value maxNestingDepth s).map Prod.fst

/-! ## Reading what was written -/

/-- The value has at most this many containers around each other, and its numbers are natural. -/
def Fits : Nat → Json → Prop
  | _, .null => True
  | _, .bool _ => True
  | _, .num text => ∃ n, text = decimal n
  | _, .str _ => True
  | 0, .arr _ => False
  | depth + 1, .arr items => ∀ v ∈ items, Fits depth v
  | 0, .obj _ => False
  | depth + 1, .obj members => ∀ m ∈ members, Fits depth m.2

/-- The text does not go on with a number. -/
def Stops (tail : GoString) : Prop :=
  ∀ b rest, tail = b :: rest → isDigit b = false ∧ b ≠ 0x2E ∧ b ≠ 0x65 ∧ b ≠ 0x45

theorem stops_nil : Stops [] := fun _ _ h => by cases h

/-- A byte that is no part of a number ends it. -/
theorem stops_cons {b : UInt8} (rest : GoString)
    (h : isDigit b = false ∧ b ≠ 0x2E ∧ b ≠ 0x65 ∧ b ≠ 0x45) : Stops (b :: rest) := by
  rintro _ _ ⟨⟩
  exact h

theorem skip_space_cons {b : UInt8} (h : isSpace b = false) (rest : GoString) :
    skipSpace (b :: rest) = b :: rest := by
  rw [skipSpace, List.dropWhile_cons_of_neg (by simp [h])]

/-- Digits are read as far as they go. -/
theorem digits_append {text tail : GoString} (hne : text ≠ []) (hdigits : ∀ b ∈ text, isDigit b)
    (htail : Stops tail) : digits (text ++ tail) = some (text, tail) := by
  have htake : tail.takeWhile isDigit = [] ∧ tail.dropWhile isDigit = tail := by
    cases tail with
    | nil => exact ⟨rfl, rfl⟩
    | cons b rest =>
        have hb := (htail b rest rfl).1
        exact ⟨List.takeWhile_cons_of_neg (by simp [hb]), List.dropWhile_cons_of_neg (by simp [hb])⟩
  rw [digits, List.takeWhile_append_of_pos hdigits, List.dropWhile_append_of_pos hdigits, htake.1,
    htake.2, List.append_nil, if_neg hne]

/-- A number that is not zero does not start with a zero. -/
theorem decimal_cases (n : Nat) : decimal n = [0x30] ∨
    ∃ b rest, decimal n = b :: rest ∧ b ≠ 0x30 := by
  unfold decimal
  split_ifs with hzero
  · exact .inl rfl
  · right
    have hne : Nat.digits 10 n ≠ [] := Nat.digits_ne_nil_iff_ne_zero.mpr hzero
    have hlast := Nat.getLast_digit_ne_zero 10 hzero
    have hlt : (Nat.digits 10 n).getLast hne < 10 :=
      Nat.digits_lt_base (by decide) (List.getLast_mem hne)
    refine ⟨UInt8.ofNat (0x30 + (Nat.digits 10 n).getLast hne),
      (Nat.digits 10 n).dropLast.reverse.map fun d => UInt8.ofNat (0x30 + d), ?_, ?_⟩
    · conv_lhs => rw [← List.dropLast_append_getLast hne]
      rw [List.reverse_append, List.reverse_singleton, List.singleton_append, List.map_cons]
    · have hall : ∀ d : Fin 10, d.val ≠ 0 → UInt8.ofNat (0x30 + d) ≠ 0x30 := by decide
      exact hall ⟨_, hlt⟩ hlast

theorem number_decimal (n : Nat) {tail : GoString} (htail : Stops tail) :
    number (decimal n ++ tail) = some (decimal n, tail) := by
  have hdigits : ∀ b ∈ decimal n, isDigit b = true := fun b => is_digit_decimal
  have hfraction : fractionPart tail = some ([], tail) := by
    unfold fractionPart
    split
    · next rest => exact absurd rfl (htail _ _ rfl).2.1
    · rfl
  have hexponent : exponentPart tail = some ([], tail) := by
    cases tail with
    | nil => rfl
    | cons b rest =>
        obtain ⟨-, -, he, hE⟩ := htail b rest rfl
        simp only [exponentPart, he, hE, or_self, if_false]
  have hinteger : integerPart (decimal n ++ tail) = some (decimal n, tail) := by
    rcases decimal_cases n with hzero | ⟨b, rest, hcons, hb⟩
    · rw [hzero]
      rfl
    · have hread := digits_append (by rw [hcons]; simp) hdigits htail
      rw [← hread, hcons, List.cons_append]
      unfold integerPart
      split
      · next heq =>
          cases heq
          exact absurd rfl hb
      · rfl
  have hsign (s : GoString) (h : ∀ b ∈ s.head?, isDigit b = true) :
      (match s with
        | 0x2D :: rest => (([0x2D], rest) : GoString × GoString)
        | _ => ([], s)) = ([], s) := by
    split
    · exact absurd (h 0x2D rfl) (by decide)
    · rfl
  have hhead : ∀ b ∈ (decimal n ++ tail).head?, isDigit b = true := by
    rcases decimal_cases n with hzero | ⟨b, rest, hcons, -⟩
    · rw [hzero]
      rintro b ⟨⟩
      decide
    · rw [hcons]
      rintro _ ⟨⟩
      exact hdigits b (by rw [hcons]; exact List.mem_cons_self)
  unfold number
  rw [hsign _ hhead]
  simp only [hinteger, hfraction, hexponent, Option.bind_eq_bind, Option.bind_some, List.nil_append,
    List.append_nil]
  rfl

/-- A text starts with neither white space nor a closing bracket or brace. -/
theorem marshal_cons {depth : Nat} {v : Json} (h : Fits depth v) :
    ∃ b rest, v.marshal = b :: rest ∧ isSpace b = false ∧ b ≠ 0x5D := by
  cases v with
  | null => exact ⟨0x6E, _, by rw [marshal]; rfl, by decide, by decide⟩
  | bool b => cases b <;> exact ⟨_, _, by rw [marshal]; rfl, by decide, by decide⟩
  | num text =>
      obtain ⟨n, rfl⟩ : ∃ n, text = decimal n := by cases depth <;> exact h
      obtain ⟨b, rest, hcons⟩ : ∃ b rest, decimal n = b :: rest := by
        rcases decimal_cases n with hzero | ⟨b, rest, hcons, -⟩
        · exact ⟨_, _, hzero⟩
        · exact ⟨b, rest, hcons⟩
      have hdigit : isDigit b = true := is_digit_decimal (hcons ▸ List.mem_cons_self)
      refine ⟨b, rest, by rw [marshal, hcons], ?_, ?_⟩
      · by_contra hspace
        rw [Bool.not_eq_false, isSpace] at hspace
        simp only [Bool.or_eq_true, decide_eq_true_eq] at hspace
        rcases hspace with ((rfl | rfl) | rfl) | rfl <;> exact absurd hdigit (by decide)
      · rintro rfl
        exact absurd hdigit (by decide)
  | str s => exact ⟨0x22, _, by rw [marshal, quote]; rfl, by decide, by decide⟩
  | arr items => exact ⟨0x5B, _, by rw [marshal], by decide, by decide⟩
  | obj members => exact ⟨0x7B, _, by rw [marshal], by decide, by decide⟩

section Loops

variable {elem : GoString → Option (Json × GoString)} {depth : Nat}

/-- The loop over the items of an array reads back what was written. -/
theorem items_marshal (v : Json) (vs : List Json) (tail : GoString)
    (helem : ∀ w ∈ v :: vs, ∀ tail, Stops tail → elem (w.marshal ++ tail) = some (w.reread, tail))
    {fuel : Nat} (hfuel : vs.length < fuel) :
    items elem fuel (marshalItems (v :: vs) ++ tail) = some (rereadItems (v :: vs), tail) := by
  induction vs generalizing v fuel with
  | nil =>
      obtain ⟨fuel, rfl⟩ := Nat.exists_eq_succ_of_ne_zero (Nat.ne_of_gt hfuel)
      have hread := helem v List.mem_cons_self (0x5D :: tail) (stops_cons tail (by decide))
      rw [marshalItems, List.append_assoc, List.singleton_append, items, hread]
      simp only [Option.bind_eq_bind, Option.bind_some, skip_space_cons (show isSpace 0x5D = false
        by decide), Option.pure_def, rereadItems]
  | cons w ws ih =>
      obtain ⟨fuel, rfl⟩ := Nat.exists_eq_succ_of_ne_zero (Nat.ne_of_gt (Nat.zero_lt_of_lt hfuel))
      have hread := helem v List.mem_cons_self (0x2C :: (marshalItems (w :: ws) ++ tail))
        (stops_cons _ (by decide))
      have hrest := ih w (fun u hu => helem u (List.mem_cons_of_mem _ hu))
        (Nat.lt_of_succ_lt_succ hfuel)
      rw [marshalItems, List.append_assoc, List.cons_append, items, hread]
      · simp only [Option.bind_eq_bind, Option.bind_some, skip_space_cons (show isSpace 0x2C = false
          by decide), hrest, Option.pure_def, rereadItems]
      · exact List.cons_ne_nil _ _

/-- One member is read back. -/
theorem member_marshal (key : GoString) (v : Json) (tail : GoString)
    (helem : elem (v.marshal ++ tail) = some (v.reread, tail)) :
    member elem (quote key ++ 0x3A :: (v.marshal ++ tail)) =
      some ((jsonString key, v.reread), tail) := by
  have hquote : quote key ++ 0x3A :: (v.marshal ++ tail) =
      0x22 :: (escapeFrom 0 key ++ 0x22 :: 0x3A :: (v.marshal ++ tail)) := by
    rw [quote, List.cons_append, List.cons_append, List.append_assoc, List.singleton_append]
  rw [hquote, member, skip_space_cons (by decide)]
  simp only [unquote_escape, Option.bind_eq_bind, Option.bind_some,
    skip_space_cons (show isSpace 0x3A = false by decide), helem, Option.pure_def]

/-- The loop over the members of an object reads back what was written. -/
theorem members_marshal (key : GoString) (v : Json) (ms : List (GoString × Json)) (tail : GoString)
    (helem : ∀ m ∈ (key, v) :: ms, ∀ tail, Stops tail →
      elem (m.2.marshal ++ tail) = some (m.2.reread, tail))
    {fuel : Nat} (hfuel : ms.length < fuel) :
    members elem fuel (marshalMembers ((key, v) :: ms) ++ tail) =
      some (rereadMembers ((key, v) :: ms), tail) := by
  induction ms generalizing key v fuel with
  | nil =>
      obtain ⟨fuel, rfl⟩ := Nat.exists_eq_succ_of_ne_zero (Nat.ne_of_gt hfuel)
      have hread := member_marshal key v (0x7D :: tail)
        (helem _ List.mem_cons_self (0x7D :: tail) (stops_cons tail (by decide)))
      have htext : marshalMembers [(key, v)] ++ tail =
          quote key ++ 0x3A :: (v.marshal ++ 0x7D :: tail) := by
        simp only [marshalMembers, List.append_assoc, List.cons_append, List.nil_append]
      rw [htext, members, hread]
      simp only [Option.bind_eq_bind, Option.bind_some, skip_space_cons (show isSpace 0x7D = false
        by decide), Option.pure_def, rereadMembers]
  | cons m ms ih =>
      obtain ⟨fuel, rfl⟩ := Nat.exists_eq_succ_of_ne_zero (Nat.ne_of_gt (Nat.zero_lt_of_lt hfuel))
      have hread := member_marshal key v (0x2C :: (marshalMembers (m :: ms) ++ tail))
        (helem _ List.mem_cons_self _ (stops_cons _ (by decide)))
      have hrest := ih m.1 m.2 (fun u hu => helem u (List.mem_cons_of_mem _ hu))
        (Nat.lt_of_succ_lt_succ hfuel)
      have htext : marshalMembers ((key, v) :: m :: ms) ++ tail =
          quote key ++ 0x3A :: (v.marshal ++ 0x2C :: (marshalMembers (m :: ms) ++ tail)) := by
        simp only [marshalMembers, List.append_assoc, List.cons_append]
      rw [htext, members, hread]
      simp only [Option.bind_eq_bind, Option.bind_some, skip_space_cons (show isSpace 0x2C = false
        by decide), hrest, Option.pure_def, rereadMembers]

end Loops

/-- Every item of an array leaves at least one byte in its text. -/
theorem length_le_marshal_items (vs : List Json) : vs.length ≤ (marshalItems vs).length := by
  induction vs with
  | nil => exact Nat.zero_le _
  | cons v vs ih =>
      cases vs with
      | nil => simp [marshalItems]
      | cons w ws =>
          rw [marshalItems.eq_3 v (w :: ws) (List.cons_ne_nil _ _)]
          simp only [List.length_append, List.length_cons] at ih ⊢
          omega

/-- Every member of an object leaves at least one byte in its text. -/
theorem length_le_marshal_members (ms : List (GoString × Json)) :
    ms.length ≤ (marshalMembers ms).length := by
  induction ms with
  | nil => exact Nat.zero_le _
  | cons m ms ih =>
      cases ms with
      | nil =>
          simp only [marshalMembers, List.length_append, List.length_cons, List.length_nil]
          omega
      | cons w ws =>
          rw [marshalMembers.eq_3 m.1 m.2 (w :: ws) (List.cons_ne_nil _ _)]
          simp only [List.length_append, List.length_cons] at ih ⊢
          omega

/-- An array is read back once its items are. -/
theorem array_marshal {elem : GoString → Option (Json × GoString)} {depth : Nat} (vs : List Json)
    (hfits : ∀ v ∈ vs, Fits depth v) (tail : GoString)
    (helem : ∀ w ∈ vs, ∀ tail, Stops tail → elem (w.marshal ++ tail) = some (w.reread, tail)) :
    array elem (marshalItems vs ++ tail) = some (.arr (rereadItems vs), tail) := by
  cases vs with
  | nil => simp only [array, marshalItems, List.cons_append, List.nil_append,
      skip_space_cons (show isSpace 0x5D = false by decide), rereadItems]
  | cons v vs =>
      have hfuel := length_le_marshal_items (v :: vs)
      obtain ⟨b, rest, hhead, hspace, hb⟩ := marshal_cons (hfits v List.mem_cons_self)
      obtain ⟨more, hmore⟩ : ∃ more, marshalItems (v :: vs) ++ tail = b :: more := by
        cases vs with
        | nil => exact ⟨_, by rw [marshalItems, hhead]; rfl⟩
        | cons w ws => exact ⟨_, by rw [marshalItems, hhead]; rfl; exact List.cons_ne_nil _ _⟩
      have hloop := items_marshal v vs tail helem
        (show vs.length < (marshalItems (v :: vs) ++ tail).length by
          simp only [List.length_append, List.length_cons] at hfuel ⊢
          omega)
      rw [array, hloop, hmore, skip_space_cons hspace]
      split
      · next heq =>
          cases heq
          exact absurd rfl hb
      · rfl

/-- An object is read back once its members are. -/
theorem object_marshal {elem : GoString → Option (Json × GoString)} (ms : List (GoString × Json))
    (tail : GoString)
    (helem : ∀ m ∈ ms, ∀ tail, Stops tail →
      elem (m.2.marshal ++ tail) = some (m.2.reread, tail)) :
    object elem (marshalMembers ms ++ tail) = some (.obj (rereadMembers ms), tail) := by
  cases ms with
  | nil => simp only [object, marshalMembers, List.cons_append, List.nil_append,
      skip_space_cons (show isSpace 0x7D = false by decide), rereadMembers]
  | cons m ms =>
      have hfuel := length_le_marshal_members (m :: ms)
      obtain ⟨more, hmore⟩ : ∃ more, marshalMembers (m :: ms) ++ tail = 0x22 :: more := by
        cases ms with
        | nil => exact ⟨_, by rw [marshalMembers, quote]; rfl⟩
        | cons w ws =>
            exact ⟨_, by rw [marshalMembers, quote]; rfl; exact List.cons_ne_nil _ _⟩
      have hloop := members_marshal m.1 m.2 ms tail helem
        (show ms.length < (marshalMembers (m :: ms) ++ tail).length by
          simp only [List.length_append, List.length_cons] at hfuel ⊢
          omega)
      rw [object, hloop, hmore, skip_space_cons (by decide)]
      rfl

/-- The value behind a byte that is no white space. -/
theorem value_cons (depth : Nat) {b : UInt8} (hspace : isSpace b = false) (rest : GoString) :
    value depth (b :: rest) =
      if b = 0x22 then (unquoteFrom 0 rest).map fun (s, rest) => (.str s, rest)
      else if b = 0x2D ∨ isDigit b then
        (number (b :: rest)).map fun (text, rest) => (.num text, rest)
      else if b = 0x6E then literal "null" .null (b :: rest)
      else if b = 0x74 then literal "true" (.bool true) (b :: rest)
      else if b = 0x66 then literal "false" (.bool false) (b :: rest)
      else
        match depth with
        | 0 => none
        | depth + 1 =>
            if b = 0x5B then array (value depth) rest
            else if b = 0x7B then object (value depth) rest
            else none := by
  cases depth <;> rw [value, skip_space_cons hspace]

/-- A literal is read back. -/
theorem literal_append (text : String) (v : Json) (tail : GoString) :
    literal text v (ascii text ++ tail) = some (v, tail) := by
  rw [literal, if_pos (List.isPrefixOf_iff_prefix.mpr (List.prefix_append _ _)),
    List.drop_left]

/-- A number is read back. -/
theorem value_decimal (depth n : Nat) {tail : GoString} (htail : Stops tail) :
    value depth (decimal n ++ tail) = some (.num (decimal n), tail) := by
  have hnumber := number_decimal n htail
  obtain ⟨b, rest, hcons, hspace, -⟩ := marshal_cons (show Fits 0 (.num (decimal n)) from ⟨n, rfl⟩)
  rw [marshal] at hcons
  have hdigit : isDigit b = true := is_digit_decimal (hcons ▸ List.mem_cons_self)
  have hquote : b ≠ 0x22 := by
    rintro rfl
    exact absurd hdigit (by decide)
  rw [hcons, List.cons_append] at hnumber ⊢
  rw [value_cons depth hspace, if_neg hquote, if_pos (.inr hdigit), hnumber, Option.map_some]

/-- A value is read back from its text, whatever comes after it. -/
theorem value_marshal : ∀ {depth : Nat} {v : Json}, Fits depth v → ∀ {tail : GoString},
    Stops tail → value depth (v.marshal ++ tail) = some (v.reread, tail)
  | depth, .null, _, tail, _ => by
      rw [marshal, reread]
      exact (value_cons depth (by decide) _).trans (literal_append "null" .null tail)
  | depth, .bool true, _, tail, _ => by
      rw [marshal, reread]
      exact (value_cons depth (by decide) _).trans (literal_append "true" (.bool true) tail)
  | depth, .bool false, _, tail, _ => by
      rw [marshal, reread]
      exact (value_cons depth (by decide) _).trans (literal_append "false" (.bool false) tail)
  | depth, .num text, hfits, tail, htail => by
      obtain ⟨n, rfl⟩ : ∃ n, text = decimal n := by cases depth <;> exact hfits
      rw [marshal, reread]
      exact value_decimal depth n htail
  | depth, .str s, _, tail, _ => by
      rw [marshal, reread, quote, List.cons_append, List.cons_append, List.append_assoc,
        List.singleton_append, value_cons depth (by decide), if_pos rfl, unquote_escape,
        Option.map_some]
  | depth + 1, .arr items, hfits, tail, _ => by
      rw [marshal, reread, List.cons_append, value_cons (depth + 1) (by decide)]
      exact array_marshal items hfits tail fun w hw _ htail => value_marshal (hfits w hw) htail
  | depth + 1, .obj members, hfits, tail, _ => by
      rw [marshal, reread, List.cons_append, value_cons (depth + 1) (by decide)]
      exact object_marshal members tail fun m hm _ htail => value_marshal (hfits m hm) htail

/-- `json.Unmarshal` of what `json.Marshal` wrote. -/
theorem unmarshal_marshal {v : Json} (hfits : Fits maxNestingDepth v) :
    unmarshal v.marshal = some v.reread := by
  have hread := value_marshal hfits stops_nil
  rw [List.append_nil] at hread
  rw [unmarshal, hread]
  exact if_pos rfl

/-- A new decoder over what an encoder wrote, which ends the value with a line break. -/
theorem decode_first_marshal {v : Json} (hfits : Fits maxNestingDepth v) (rest : GoString) :
    decodeFirst (v.marshal ++ 0x0A :: rest) = some v.reread := by
  rw [decodeFirst, value_marshal hfits (stops_cons rest (by decide)), Option.map_some]

/-! ## What is read -/

section Loops

variable {elem : GoString → Option (Json × GoString)}
  (helem : ∀ s v rest, elem s = some (v, rest) → v.reread = v)
include helem

theorem items_reread {fuel : Nat} {s rest : GoString} {vs : List Json}
    (h : items elem fuel s = some (vs, rest)) : rereadItems vs = vs := by
  induction fuel generalizing s vs with
  | zero => cases h
  | succ fuel ih =>
      simp only [items, Option.bind_eq_bind, Option.bind_eq_some_iff] at h
      obtain ⟨⟨v, s'⟩, hread, h⟩ := h
      have hv := helem _ _ _ hread
      split at h
      · cases h
        rw [rereadItems, rereadItems, hv]
      · obtain ⟨⟨more, s''⟩, hmore, heq⟩ := Option.bind_eq_some_iff.mp h
        cases heq
        rw [rereadItems, hv, ih hmore]
      · cases h

theorem member_reread {s rest : GoString} {m : GoString × Json}
    (h : member elem s = some (m, rest)) : ValidUtf8 m.1 ∧ m.2.reread = m.2 := by
  unfold member at h
  split at h
  · simp only [Option.bind_eq_bind, Option.bind_eq_some_iff] at h
    obtain ⟨⟨key, s'⟩, hkey, h⟩ := h
    split at h
    · obtain ⟨⟨v, s''⟩, hread, heq⟩ := Option.bind_eq_some_iff.mp h
      cases heq
      exact ⟨unquote_from_valid hkey, helem _ _ _ hread⟩
    · cases h
  · cases h

theorem members_reread {fuel : Nat} {s rest : GoString} {ms : List (GoString × Json)}
    (h : members elem fuel s = some (ms, rest)) : rereadMembers ms = ms := by
  induction fuel generalizing s ms with
  | zero => cases h
  | succ fuel ih =>
      simp only [members, Option.bind_eq_bind, Option.bind_eq_some_iff] at h
      obtain ⟨⟨⟨key, v⟩, s'⟩, hread, h⟩ := h
      obtain ⟨hkey, hv⟩ := member_reread helem hread
      split at h
      · cases h
        rw [rereadMembers, rereadMembers, hkey, hv]
      · obtain ⟨⟨more, s''⟩, hmore, heq⟩ := Option.bind_eq_some_iff.mp h
        cases heq
        rw [rereadMembers, hkey, hv, ih hmore]
      · cases h

theorem array_reread {s rest : GoString} {v : Json} (h : array elem s = some (v, rest)) :
    v.reread = v := by
  unfold array at h
  split at h
  · cases h
    rw [reread, rereadItems]
  · obtain ⟨⟨vs, s'⟩, hitems, heq⟩ := Option.map_eq_some_iff.mp h
    cases heq
    rw [reread, items_reread helem hitems]

theorem object_reread {s rest : GoString} {v : Json} (h : object elem s = some (v, rest)) :
    v.reread = v := by
  unfold object at h
  split at h
  · cases h
    rw [reread, rereadMembers]
  · obtain ⟨⟨ms, s'⟩, hmembers, heq⟩ := Option.map_eq_some_iff.mp h
    cases heq
    rw [reread, members_reread helem hmembers]

end Loops

theorem literal_eq_some {text : String} {v w : Json} {s rest : GoString}
    (h : literal text v s = some (w, rest)) : w = v := by
  unfold literal at h
  split_ifs at h
  cases h
  rfl

/-- Whatever the text, the strings of a value that is read are valid UTF-8. -/
theorem value_reread {depth : Nat} {s rest : GoString} {v : Json}
    (h : value depth s = some (v, rest)) : v.reread = v := by
  induction depth using Nat.strong_induction_on generalizing s v rest with
  | _ depth ih =>
      unfold value at h
      split at h
      · cases h
      split_ifs at h
      · obtain ⟨⟨text, after⟩, htext, heq⟩ := Option.map_eq_some_iff.mp h
        cases heq
        rw [reread, unquote_from_valid htext]
      · obtain ⟨⟨text, after⟩, -, heq⟩ := Option.map_eq_some_iff.mp h
        cases heq
        rw [reread]
      · rw [literal_eq_some h, reread]
      · rw [literal_eq_some h, reread]
      · rw [literal_eq_some h, reread]
      · cases depth with
        | zero => cases h
        | succ depth => exact array_reread (fun _ _ _ => ih depth (Nat.lt_succ_self depth)) h
      · cases depth with
        | zero => cases h
        | succ depth => exact object_reread (fun _ _ _ => ih depth (Nat.lt_succ_self depth)) h
      · cases depth <;> cases h

theorem unmarshal_reread {s : GoString} {v : Json} (h : unmarshal s = some v) : v.reread = v := by
  unfold unmarshal at h
  split at h
  · next hvalue =>
      split_ifs at h
      cases h
      exact value_reread hvalue
  · cases h

theorem decode_first_reread {s : GoString} {v : Json} (h : decodeFirst s = some v) :
    v.reread = v := by
  obtain ⟨⟨w, rest⟩, hvalue, rfl⟩ := Option.map_eq_some_iff.mp h
  exact value_reread hvalue

end Json

end NuSync.Go
