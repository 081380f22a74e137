import Mathlib.Algebra.BigOperators.Fin
import Mathlib.Algebra.Order.BigOperators.Group.List
import Mathlib.Data.List.GetD

/-!
# Flooding ends

Members hold stamped versions and tell everyone which one they have taken. A message wakes its
receiver only if it ranks above what the receiver holds. Nothing ties the receiver to the message
after that: some steps later it has done nothing, or it has taken a version with any of the stamps,
an older one included, and told everyone. Still every flood ends. A member takes a stamp for the
second time only after it has left it, and only a message of a higher rank can have made it do so;
so `price` grows with the rank fast enough for a message to pay for all that the stamp it makes its
receiver leave can set off when it is taken again. `potential` adds up what is in flight, what the
awake members owe and the stamps that are left to take, and every move lowers it
(`moves_potential_lt`).
-/

namespace NuSync.Lib.Flooding

variable {ι κ : Type*}

/-- A member tells another one the stamp of what it holds. -/
structure Message (ι κ : Type*) where
  dest : ι
  source : ι
  stamp : κ

/-- The stamps that are held, the steps that each awake member has left, and what is in flight. -/
structure Flood (ι κ : Type*) where
  held : ι → Option κ
  pending : ι → Nat
  inFlight : List (Message ι κ)

/-- A member tells all others. -/
def broadcast [DecidableEq ι] (members : List ι) (source : ι) (stamp : κ) : List (Message ι κ) :=
  (members.filter fun dest => dest ≠ source).map fun dest => ⟨dest, source, stamp⟩

/-- One move: a message is ignored or wakes its receiver, or a member that is awake uses up some of
its steps or takes a version. -/
inductive Moves [DecidableEq ι] (members : List ι) (stamps : Finset κ) (rank : κ → ι → Nat)
    (work : Nat) (s : Flood ι κ) : Flood ι κ → Prop
  | ignore {k : Nat} {msg : Message ι κ} (hmsg : s.inFlight[k]? = some msg) :
      Moves members stamps rank work s ⟨s.held, s.pending, s.inFlight.eraseIdx k⟩
  | wake {k : Nat} {msg : Message ι κ} (hmsg : s.inFlight[k]? = some msg)
      (hidle : s.pending msg.dest = 0)
      (hrank : ∀ own, s.held msg.dest = some own →
        rank own msg.dest < rank msg.stamp msg.source) :
      Moves members stamps rank work s
        ⟨s.held, Function.update s.pending msg.dest work, s.inFlight.eraseIdx k⟩
  | advance {i : ι} {left : Nat} (hless : left < s.pending i) :
      Moves members stamps rank work s ⟨s.held, Function.update s.pending i left, s.inFlight⟩
  | adopt {i : ι} {stamp : κ} (hawake : s.pending i ≠ 0) (hstamp : stamp ∈ stamps) :
      Moves members stamps rank work s ⟨Function.update s.held i (some stamp),
        Function.update s.pending i 0, broadcast members i stamp ++ s.inFlight⟩

section Potential

variable (members : List ι) (stamps : Finset κ) (rank : κ → ι → Nat) (work : Nat)

/-- What a message with this stamp and this sender can set off. -/
def price (stamp : κ) (source : ι) : Nat := (members.length + work + 1) ^ (rank stamp source + 1)

/-- What is in flight costs. -/
def cost (inFlight : List (Message ι κ)) : Nat :=
  (inFlight.map fun msg => price members rank work msg.stamp msg.source).sum

/-- What a member owes that is awake: its steps, and what the stamp it holds can set off again once
it has left it. -/
def debt (s : Flood ι κ) (i : ι) : Nat :=
  if s.pending i = 0 then 0
  else (s.held i).elim 0 (fun own => members.length * price members rank work own i) + s.pending i

/-- What the stamps can set off that a member does not hold. -/
def credit [DecidableEq κ] (held : Option κ) (i : ι) : Nat :=
  ∑ stamp ∈ stamps with held ≠ some stamp, members.length * price members rank work stamp i

/-- The balance of a member. -/
def balance [DecidableEq κ] (s : Flood ι κ) (i : ι) : Nat :=
  debt members rank work s i + credit members stamps rank work (s.held i) i

/-- All of it together. -/
def potential [DecidableEq κ] [Fintype ι] (s : Flood ι κ) : Nat :=
  cost members rank work s.inFlight + ∑ i, balance members stamps rank work s i

variable {stamps}

theorem price_pos (stamp : κ) (source : ι) : 0 < price members rank work stamp source :=
  Nat.pow_pos (Nat.succ_pos _)

/-- A message pays for what a stamp of lower rank can set off, and for the steps of its receiver. -/
theorem price_pays {own stamp : κ} {i source : ι} (h : rank own i < rank stamp source) :
    members.length * price members rank work own i + work <
      price members rank work stamp source := by
  have hpos : 0 < price members rank work own i := price_pos members rank work own i
  have hwork : work ≤ work * price members rank work own i := Nat.le_mul_of_pos_right work hpos
  calc members.length * price members rank work own i + work
      < (members.length + work + 1) * price members rank work own i := by
        rw [Nat.add_mul, Nat.add_mul]
        omega
    _ = (members.length + work + 1) ^ (rank own i + 1 + 1) := by
        rw [price, pow_succ (members.length + work + 1) (rank own i + 1), mul_comm]
    _ ≤ price members rank work stamp source :=
        Nat.pow_le_pow_right (Nat.succ_pos _) (Nat.succ_le_succ h)

/-- Any message pays for the steps of its receiver. -/
theorem work_lt_price (stamp : κ) (source : ι) : work < price members rank work stamp source := by
  have hle : members.length + work + 1 ≤ price members rank work stamp source :=
    Nat.le_self_pow (Nat.succ_ne_zero _) _
  omega

/-- Taking a message out saves its price. -/
theorem cost_erase {inFlight : List (Message ι κ)} {k : Nat} {msg : Message ι κ}
    (h : inFlight[k]? = some msg) :
    price members rank work msg.stamp msg.source + cost members rank work (inFlight.eraseIdx k) =
      cost members rank work inFlight := by
  obtain ⟨hk, rfl⟩ := List.getElem?_eq_some_iff.mp h
  have hlen : k < (inFlight.map fun msg =>
      price members rank work msg.stamp msg.source).length := by
    simpa using hk
  have hsum := List.CommMonoid.add_sum_eraseIdx hlen
  rw [List.getElem_map, List.eraseIdx_map] at hsum
  exact hsum

theorem cost_append (first second : List (Message ι κ)) :
    cost members rank work (first ++ second) =
      cost members rank work first + cost members rank work second := by
  simp [cost]

/-- Telling everyone costs at most one message to every member. -/
theorem cost_broadcast_le [DecidableEq ι] (i : ι) (stamp : κ) :
    cost members rank work (broadcast members i stamp) ≤
      members.length * price members rank work stamp i := by
  have hcost : cost members rank work (broadcast members i stamp) =
      (broadcast members i stamp).length * price members rank work stamp i := by
    simp [cost, broadcast, Function.comp_def]
  rw [hcost]
  refine Nat.mul_le_mul_right _ ?_
  rw [broadcast, List.length_map]
  exact List.length_filter_le _ _

/-- A member that takes a stamp uses its credit up, and has that of the stamp it leaves again. -/
theorem credit_take [DecidableEq κ] (own : Option κ) {stamp : κ} (hstamp : stamp ∈ stamps) (i : ι) :
    credit members stamps rank work (some stamp) i +
        members.length * price members rank work stamp i ≤
      credit members stamps rank work own i +
        own.elim 0 fun old => members.length * price members rank work old i := by
  set worth : κ → Nat := fun stamp => members.length * price members rank work stamp i
  have htaken (v : κ) :
      credit members stamps rank work (some v) i = ∑ t ∈ stamps.erase v, worth t := by
    refine Finset.sum_congr (Finset.ext fun t => ?_) fun _ _ => rfl
    simp [and_comm, eq_comm]
  have hall : credit members stamps rank work (some stamp) i + worth stamp =
      ∑ t ∈ stamps, worth t := by
    rw [htaken, Finset.sum_erase_add _ _ hstamp]
  rw [hall]
  cases own with
  | none => simp [credit, worth]
  | some old =>
      rw [htaken, Option.elim_some]
      by_cases hold : old ∈ stamps
      · rw [Finset.sum_erase_add _ _ hold]
      · rw [Finset.erase_eq_of_notMem hold]
        exact Nat.le_add_right _ _

end Potential

section Moves

variable [DecidableEq ι] [DecidableEq κ] [Fintype ι] {members : List ι} {stamps : Finset κ}
  {rank : κ → ι → Nat} {work : Nat} {s s' : Flood ι κ}

/-- A move that changes one member lowers the potential if what it adds to the flight and to that
member's balance is less than what it takes from them. -/
theorem potential_lt_of_member (i : ι) (hheld : ∀ j, j ≠ i → s'.held j = s.held j)
    (hpending : ∀ j, j ≠ i → s'.pending j = s.pending j)
    (hless : cost members rank work s'.inFlight + balance members stamps rank work s' i <
      cost members rank work s.inFlight + balance members stamps rank work s i) :
    potential members stamps rank work s' < potential members stamps rank work s := by
  have hrest : ∑ j ∈ Finset.univ.erase i, balance members stamps rank work s' j =
      ∑ j ∈ Finset.univ.erase i, balance members stamps rank work s j := by
    refine Finset.sum_congr rfl fun j hj => ?_
    have hj := Finset.ne_of_mem_erase hj
    simp only [balance, debt, hheld j hj, hpending j hj]
  rw [potential, potential, ← Finset.add_sum_erase _ _ (Finset.mem_univ i), hrest,
    ← Finset.add_sum_erase _ (balance members stamps rank work s) (Finset.mem_univ i)]
  omega

/-- **Every move lowers the potential.** -/
theorem moves_potential_lt (h : Moves members stamps rank work s s') :
    potential members stamps rank work s' < potential members stamps rank work s := by
  cases h with
  | @ignore k msg hmsg =>
      have hsaved := cost_erase members rank work hmsg
      have hpos := price_pos members rank work msg.stamp msg.source
      have hsame : ∀ i, balance members stamps rank work
          ⟨s.held, s.pending, s.inFlight.eraseIdx k⟩ i = balance members stamps rank work s i :=
        fun _ => rfl
      simp only [potential, hsame]
      omega
  | @wake k msg hmsg hidle hrank =>
      refine potential_lt_of_member msg.dest (fun _ _ => rfl)
        (fun j hj => Function.update_of_ne hj _ _) ?_
      -- the message pays for what its receiver owes from now on
      have hsaved := cost_erase members rank work hmsg
      have howes : (s.held msg.dest).elim 0
            (fun own => members.length * price members rank work own msg.dest) + work <
          price members rank work msg.stamp msg.source := by
        cases hown : s.held msg.dest with
        | none => simpa using work_lt_price members rank work msg.stamp msg.source
        | some own => exact price_pays members rank work (hrank own hown)
      simp only [balance, debt, hidle, Function.update_self, if_true]
      split <;> omega
  | @advance i left hless =>
      refine potential_lt_of_member i (fun _ _ => rfl)
        (fun j hj => Function.update_of_ne hj _ _) ?_
      have hawake : s.pending i ≠ 0 := by omega
      simp only [balance, debt, Function.update_self, if_neg hawake]
      split <;> omega
  | @adopt i stamp hawake hstamp =>
      refine potential_lt_of_member i (fun j hj => Function.update_of_ne hj _ _)
        (fun j hj => Function.update_of_ne hj _ _) ?_
      -- what it owes for the stamp it leaves is its credit for that stamp from now on
      have hcredit := credit_take members rank work (s.held i) hstamp i
      have htold := cost_broadcast_le members rank work i stamp
      simp only [balance, debt, Function.update_self, if_true, if_neg hawake, cost_append]
      omega

end Moves

end NuSync.Lib.Flooding
