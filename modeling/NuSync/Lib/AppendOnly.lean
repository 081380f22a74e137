import NuSync.Lib.System

/-!
# Append-only maps

A partial map to which bindings are added and from which none is taken away. `Appends` is one
step of such a map, with a condition on the bindings that may be added; a system refines an
append-only map if each of its steps is such a step on the map it shows. `grows_of_along` is the
rule for its runs.
-/

namespace NuSync.Lib

variable {K V : Type*}

/-- Every binding of the first map is one of the second. -/
def Grows (before after : K → Option V) : Prop :=
  ∀ key value, before key = some value → after key = some value

theorem Grows.refl (map : K → Option V) : Grows map map := fun _ _ h => h

theorem Grows.trans {a b c : K → Option V} (hab : Grows a b) (hbc : Grows b c) : Grows a c :=
  fun key value h => hbc key value (hab key value h)

/-- A key that is bound stays bound. -/
theorem Grows.ne_none {before after : K → Option V} (h : Grows before after) {key : K}
    (hkey : before key ≠ none) : after key ≠ none := by
  obtain ⟨value, hvalue⟩ := Option.ne_none_iff_exists'.mp hkey
  rw [h key value hvalue]
  exact Option.some_ne_none value

variable [DecidableEq K] {valid : K → V → Prop}

/-- One step of an append-only map: nothing, or a valid binding of a new key. -/
def Appends (valid : K → V → Prop) (before after : K → Option V) : Prop :=
  after = before ∨ ∃ key value, before key = none ∧ valid key value ∧
    after = Function.update before key (some value)

theorem Appends.grows {before after : K → Option V} (h : Appends valid before after) :
    Grows before after := by
  rcases h with rfl | ⟨key, value, hnew, -, rfl⟩
  · exact .refl after
  · intro other bound hbound
    have hne : other ≠ key := by
      rintro rfl
      simp [hnew] at hbound
    rwa [Function.update_of_ne hne]

/-- Bindings are valid after a step if they were before. -/
theorem Appends.bindings_valid {before after : K → Option V} (h : Appends valid before after)
    (hbefore : ∀ key value, before key = some value → valid key value) (key : K) (value : V)
    (hafter : after key = some value) : valid key value := by
  rcases h with rfl | ⟨new, added, -, hadded, rfl⟩
  · exact hbefore key value hafter
  · by_cases hkey : key = new
    · subst hkey
      rw [Function.update_self, Option.some.injEq] at hafter
      exact hafter ▸ hadded
    · rw [Function.update_of_ne hkey] at hafter
      exact hbefore key value hafter

/-- A run of append-only steps only adds bindings. -/
theorem grows_of_along {S E : Type*} {step : S → E → Option S} (view : S → K → Option V)
    {start finish : S} {events : List E} (hrun : run step start events = some finish)
    (happends : Along step (fun state event => ∀ next, step state event = some next →
      Appends valid (view state) (view next)) start events) :
    Grows (view start) (view finish) :=
  run_invariant (fun state => Grows (view start) (view state)) hrun happends (.refl _)
    fun _ _ next hgrows happends hstep => hgrows.trans (happends next hstep).grows

end NuSync.Lib
