import NuSync.Lib.System

/-!
# Replicas that adopt the greater version

Every replica holds at most one version of an item. A message tells a replica that another one
holds a version; if the version is of other content and ranks above its own, the replica fetches
what the sender holds by then and tells everyone. Messages arrive in any order, each one once.
`content_of_quiescent` says that when no message in flight is news any more, every replica has
the content of the version that ranks highest.
-/

namespace NuSync.Lib.LastWriter

variable {ι V C R : Type*}

/-- The news that `source` holds a version, on its way to `dest`. -/
structure Message (ι V : Type*) where
  dest : ι
  source : ι
  version : V

/-- What the replicas hold, and the messages in flight. -/
structure Replicas (ι V : Type*) where
  held : ι → Option V
  inFlight : List (Message ι V)

section System

variable [DecidableEq ι] [DecidableEq C] [LinearOrder R]
  (content : V → C) (rank : V → R) (members : List ι)

/-- The remote version is news: it is of other content and ranks higher. -/
def wants (held : Option V) (remote : V) : Bool :=
  match held with
  | none => true
  | some v => content v ≠ content remote && rank v < rank remote

/-- The messages that tell everyone else about a version. -/
def broadcast (source : ι) (v : V) : List (Message ι V) :=
  (members.filter fun i => i ≠ source).map fun i => ⟨i, source, v⟩

/-- A replica takes over a version and tells everyone else. -/
def adopt (s : Replicas ι V) (i : ι) (v : V) : Replicas ι V :=
  ⟨Function.update s.held i (some v), broadcast members i v ++ s.inFlight⟩

/-- A replica fetches what another one holds, unless that is of the same content. -/
def sync (s : Replicas ι V) (dest source : ι) : Replicas ι V :=
  match s.held source with
  | none => s
  | some v => if (s.held dest).map content = some (content v) then s else adopt members s dest v

/-- The message at this position arrives. -/
def deliver (s : Replicas ι V) (k : Nat) : Option (Replicas ι V) :=
  s.inFlight[k]?.map fun msg =>
    let rest := { s with inFlight := s.inFlight.eraseIdx k }
    if wants content rank (s.held msg.dest) msg.version then
      sync content members rest msg.dest msg.source
    else rest

/-- The replicas hold what was written, and everyone has been told. -/
def start (writes : ι → Option V) : Replicas ι V :=
  ⟨writes, members.flatMap fun i => (writes i).elim [] (broadcast members i)⟩

/-- No message in flight is news. -/
def Quiescent (s : Replicas ι V) : Prop :=
  ∀ msg ∈ s.inFlight, wants content rank (s.held msg.dest) msg.version = false

end System

/-! ## What a delivery does -/

section Cases

variable [DecidableEq ι] [DecidableEq C] [LinearOrder R]
  {content : V → C} {rank : V → R} {members : List ι} {s s' : Replicas ι V} {k : Nat}

theorem mem_broadcast {source : ι} {v : V} {msg : Message ι V} :
    msg ∈ broadcast members source v ↔
      msg.dest ∈ members ∧ msg.dest ≠ source ∧ msg.source = source ∧ msg.version = v := by
  simp only [broadcast, List.mem_map, List.mem_filter, decide_eq_true_eq]
  constructor
  · rintro ⟨i, ⟨hi, hne⟩, rfl⟩
    exact ⟨hi, hne, rfl, rfl⟩
  · rintro ⟨hi, hne, rfl, rfl⟩
    exact ⟨msg.dest, ⟨hi, hne⟩, rfl⟩

/-- **What a delivery does**: the message is dropped because it is no news or the sender has the
same content, or the replica adopts what the sender holds. -/
theorem deliver_cases (h : deliver content rank members s k = some s') :
    ∃ msg, s.inFlight[k]? = some msg ∧
      let rest := s.inFlight.eraseIdx k
      (wants content rank (s.held msg.dest) msg.version = false ∧ s' = ⟨s.held, rest⟩) ∨
      (s.held msg.source = none ∧ s' = ⟨s.held, rest⟩) ∨
      ∃ v, s.held msg.source = some v ∧
        wants content rank (s.held msg.dest) msg.version = true ∧
        ((s.held msg.dest).map content = some (content v) ∧ s' = ⟨s.held, rest⟩ ∨
          (s.held msg.dest).map content ≠ some (content v) ∧
            s' = adopt members ⟨s.held, rest⟩ msg.dest v) := by
  obtain ⟨msg, hmsg, rfl⟩ := Option.map_eq_some_iff.mp h
  refine ⟨msg, hmsg, ?_⟩
  cases hwants : wants content rank (s.held msg.dest) msg.version with
  | false => exact .inl ⟨rfl, rfl⟩
  | true =>
      simp only [if_true, sync]
      cases hsource : s.held msg.source with
      | none => exact .inr (.inl ⟨rfl, rfl⟩)
      | some v =>
          refine .inr (.inr ⟨v, rfl, trivial, ?_⟩)
          by_cases hsame : (s.held msg.dest).map content = some (content v)
          · exact .inl ⟨hsame, if_pos hsame⟩
          · exact .inr ⟨hsame, if_neg hsame⟩

end Cases

/-! ## The invariant -/

section Invariant

variable [LinearOrder R] (content : V → C) (rank : V → R) {s s' : Replicas ι V} {k : Nat}

/-- The message is news for a replica that holds the content of `v` in a version that is not
lower. -/
def Pending (s : Replicas ι V) (v : V) (msg : Message ι V) : Prop :=
  ∃ u, s.held msg.dest = some u ∧ content u = content v ∧ rank v ≤ rank u ∧
    rank u < rank msg.version ∧ content msg.version ≠ content v

/-- A sender holds what it announced or better, a replica without a version has not heard
anything yet, and every content but the final one is on its way out. -/
structure Converges (final : C) (s : Replicas ι V) : Prop where
  sent : ∀ msg ∈ s.inFlight, ∃ v, s.held msg.source = some v ∧ rank msg.version ≤ rank v
  unheard : ∀ i, s.held i = none → ∃ msg ∈ s.inFlight, msg.dest = i
  pending : ∀ i v, s.held i = some v → content v ≠ final →
    ∃ msg ∈ s.inFlight, Pending content rank s v msg

variable {content rank} {final : C}

/-- Every other message stays in flight. -/
theorem mem_erase_of_ne {msg other : Message ι V} (hmsg : s.inFlight[k]? = some msg)
    (hother : other ∈ s.inFlight) (hne : other ≠ msg) : other ∈ s.inFlight.eraseIdx k := by
  obtain ⟨i, hi⟩ := List.mem_iff_getElem?.mp hother
  refine List.mem_eraseIdx_iff_getElem?.mpr ⟨i, ?_, hi⟩
  rintro rfl
  exact hne (Option.some.inj (hi.symm.trans hmsg))

/-- A pending message is news for its receiver. -/
theorem Pending.wants [DecidableEq C] {v : V} {msg : Message ι V}
    (h : Pending content rank s v msg) :
    LastWriter.wants content rank (s.held msg.dest) msg.version = true := by
  obtain ⟨u, hu, hcontent, -, hlt, hne⟩ := h
  simp [LastWriter.wants, hu, hcontent, hlt, hne.symm]

/-- Dropping a message keeps the invariant if its receiver holds something and whatever was
pending with it is pending with another one. -/
theorem Converges.drop (hs : Converges content rank final s) {msg : Message ι V}
    (hmsg : s.inFlight[k]? = some msg) (hheard : s.held msg.dest ≠ none)
    (hpending : ∀ v, content v ≠ final → Pending content rank s v msg →
      ∃ other ∈ s.inFlight, other ≠ msg ∧ Pending content rank s v other) :
    Converges content rank final ⟨s.held, s.inFlight.eraseIdx k⟩ where
  sent other hother := hs.sent other (List.mem_of_mem_eraseIdx hother)
  unheard i hi := by
    obtain ⟨other, hother, rfl⟩ := hs.unheard i hi
    refine ⟨other, mem_erase_of_ne hmsg hother ?_, rfl⟩
    rintro rfl
    exact hheard hi
  pending i v hi hfinal := by
    obtain ⟨other, hother, hnews⟩ := hs.pending i v hi hfinal
    by_cases hne : other = msg
    · subst hne
      obtain ⟨other, hother, hne, hnews⟩ := hpending v hfinal hnews
      exact ⟨other, mem_erase_of_ne hmsg hother hne, hnews⟩
    · exact ⟨other, mem_erase_of_ne hmsg hother hne, hnews⟩

variable [DecidableEq ι] {members : List ι}

/-- Adopting a version that ranks higher and is of other content keeps the invariant. What was
pending with the replica that leaves a content is now pending with the news it sends out. -/
theorem Converges.adopt (hs : Converges content rank final s) (hmembers : ∀ i, i ∈ members)
    {msg : Message ι V} (hmsg : s.inFlight[k]? = some msg) {z : V}
    (hsource : s.held msg.source = some z)
    (habove : ∀ x, s.held msg.dest = some x → rank x < rank z ∧ content x ≠ content z) :
    Converges content rank final
      (adopt members ⟨s.held, s.inFlight.eraseIdx k⟩ msg.dest z) := by
  -- messages to other replicas stay, with what is pending with them
  have hother {v : V} {other : Message ι V} (hmem : other ∈ s.inFlight)
      (hne : other.dest ≠ msg.dest) (hnews : Pending content rank s v other) :
      ∃ other ∈ (LastWriter.adopt members ⟨s.held, s.inFlight.eraseIdx k⟩ msg.dest z).inFlight,
        Pending content rank
          (LastWriter.adopt members ⟨s.held, s.inFlight.eraseIdx k⟩ msg.dest z) v other := by
    obtain ⟨u, hu, hrest⟩ := hnews
    refine ⟨other, List.mem_append_right _ (mem_erase_of_ne hmsg hmem ?_), u, ?_, hrest⟩
    · rintro rfl
      exact hne rfl
    · exact (Function.update_of_ne hne _ _).trans hu
  refine ⟨fun other hmem => ?_, fun i hi => ?_, fun i v hi hfinal => ?_⟩
  · rcases List.mem_append.mp hmem with hmem | hmem
    · obtain ⟨-, -, hfrom, hversion⟩ := mem_broadcast.mp hmem
      exact ⟨z, by rw [hfrom]; exact Function.update_self _ _ _, by rw [hversion]⟩
    · obtain ⟨v, hv, hle⟩ := hs.sent other (List.mem_of_mem_eraseIdx hmem)
      by_cases hfrom : other.source = msg.dest
      · refine ⟨z, by rw [hfrom]; exact Function.update_self _ _ _, hle.trans ?_⟩
        exact (habove v (hfrom ▸ hv)).1.le
      · exact ⟨v, (Function.update_of_ne hfrom _ _).trans hv, hle⟩
  · by_cases hdest : i = msg.dest
    · subst hdest
      simp [LastWriter.adopt] at hi
    · have hi : s.held i = none := (Function.update_of_ne hdest _ _).symm.trans hi
      obtain ⟨other, hmem, rfl⟩ := hs.unheard i hi
      refine ⟨other, List.mem_append_right _ (mem_erase_of_ne hmsg hmem ?_), rfl⟩
      rintro rfl
      exact hdest rfl
  · by_cases hdest : i = msg.dest
    · -- the sender holds the same version, and the news for it goes to another replica
      subst hdest
      obtain rfl : z = v := by simpa [LastWriter.adopt] using hi
      obtain ⟨other, hmem, hnews⟩ := hs.pending msg.source z hsource hfinal
      refine hother hmem ?_ hnews
      obtain ⟨u, hu, hcontent, -⟩ := hnews
      exact fun heq => (habove u (heq ▸ hu)).2 hcontent
    · have hi : s.held i = some v := (Function.update_of_ne hdest _ _).symm.trans hi
      obtain ⟨other, hmem, hnews⟩ := hs.pending i v hi hfinal
      by_cases hto : other.dest = msg.dest
      · obtain ⟨u, hu, hcontent, hle, -⟩ := hnews
        obtain ⟨hlt, hdiffers⟩ := habove u (hto ▸ hu)
        refine ⟨⟨i, msg.dest, z⟩, List.mem_append_left _ (mem_broadcast.mpr ⟨hmembers i, hdest, rfl,
          rfl⟩), v, (Function.update_of_ne hdest _ _).trans hi, rfl, le_rfl, hle.trans_lt hlt, ?_⟩
        exact fun heq => hdiffers (hcontent.trans heq.symm)
      · exact hother hmem hto hnews

/-- The invariant holds at the start, for the content of a version that ranks above every other
content. -/
theorem start_converges (hmembers : ∀ i, i ∈ members) {writes : ι → Option V} {w : ι} {top : V}
    (hw : writes w = some top)
    (htop : ∀ i v, writes i = some v → content v ≠ content top → rank v < rank top) :
    Converges content rank (content top) (start members writes) := by
  have hmem {msg : Message ι V} : msg ∈ (start members writes).inFlight ↔
      ∃ v, writes msg.source = some v ∧ msg.dest ≠ msg.source ∧ msg.version = v := by
    simp only [start, List.mem_flatMap]
    constructor
    · rintro ⟨i, -, hmsg⟩
      cases hi : writes i with
      | none => simp [hi] at hmsg
      | some v =>
          rw [hi] at hmsg
          obtain ⟨-, hne, rfl, hversion⟩ := mem_broadcast.mp hmsg
          exact ⟨v, hi, hne, hversion⟩
    · rintro ⟨v, hv, hne, hversion⟩
      refine ⟨msg.source, hmembers _, ?_⟩
      rw [hv]
      exact mem_broadcast.mpr ⟨hmembers _, hne, rfl, hversion⟩
  refine ⟨fun msg hmsg => ?_, fun i hi => ?_, fun i v hi hne => ?_⟩
  · obtain ⟨v, hv, -, rfl⟩ := hmem.mp hmsg
    exact ⟨_, hv, le_rfl⟩
  · refine ⟨⟨i, w, top⟩, hmem.mpr ⟨top, hw, ?_, rfl⟩, rfl⟩
    rintro (rfl : i = w)
    exact absurd (hw.symm.trans hi) (Option.some_ne_none top)
  · refine ⟨⟨i, w, top⟩, hmem.mpr ⟨top, hw, ?_, rfl⟩, v, hi, rfl, le_rfl, htop i v hi hne, hne.symm⟩
    rintro (rfl : i = w)
    exact hne (congrArg content (Option.some.inj (hi.symm.trans hw)))

variable [DecidableEq C]

/-- Every delivery keeps the invariant. -/
theorem deliver_converges (hs : Converges content rank final s) (hmembers : ∀ i, i ∈ members)
    (h : deliver content rank members s k = some s') : Converges content rank final s' := by
  obtain ⟨msg, hmsg, ⟨hwants, rfl⟩ | ⟨hnone, -⟩ |
    ⟨z, hsource, hwants, ⟨hsame, rfl⟩ | ⟨hdiffers, rfl⟩⟩⟩ := deliver_cases h
  · refine hs.drop hmsg (fun hnone => ?_) fun v _ hnews => ?_
    · rw [hnone] at hwants
      cases hwants
    · rw [hnews.wants] at hwants
      cases hwants
  · obtain ⟨v, hv, -⟩ := hs.sent msg (List.mem_of_getElem? hmsg)
    rw [hnone] at hv
    cases hv
  · -- the sender has the same content in a higher version, so something is pending with that
    refine hs.drop hmsg (fun hnone => by simp [hnone] at hsame) fun v hfinal hnews => ?_
    obtain ⟨x, hx, hcontent, hle, hlt, -⟩ := hnews
    obtain ⟨_, hz, hversion⟩ := hs.sent msg (List.mem_of_getElem? hmsg)
    rw [hsource] at hz
    cases hz
    have hzv : content z = content v := by
      rw [hx, Option.map_some, Option.some.injEq] at hsame
      exact hsame.symm.trans hcontent
    obtain ⟨other, hmem, u, hu, huz, hzu, hnews, hne⟩ :=
      hs.pending msg.source z hsource (hzv ▸ hfinal)
    refine ⟨other, hmem, ?_, u, hu, huz.trans hzv, (hle.trans hlt.le).trans (hversion.trans hzu),
      hnews, hzv ▸ hne⟩
    rintro rfl
    rw [hx] at hu
    cases hu
    exact absurd (hlt.trans_le (hversion.trans hzu)) (lt_irrefl _)
  · refine hs.adopt hmembers hmsg hsource fun x hx => ?_
    obtain ⟨_, hz, hversion⟩ := hs.sent msg (List.mem_of_getElem? hmsg)
    rw [hsource] at hz
    cases hz
    simp only [LastWriter.wants, hx, Bool.and_eq_true, decide_eq_true_eq] at hwants
    refine ⟨hwants.2.trans_le hversion, fun heq => hdiffers ?_⟩
    rw [hx, Option.map_some, heq]

/-- **When nothing in flight is news, everyone has the content that ranks highest.** -/
theorem content_of_quiescent (hmembers : ∀ i, i ∈ members) {writes : ι → Option V} {w : ι} {top : V}
    (hw : writes w = some top)
    (htop : ∀ i v, writes i = some v → content v ≠ content top → rank v < rank top)
    {events : List Nat}
    (hrun : run (deliver content rank members) (start members writes) events = some s)
    (hquiet : Quiescent content rank s) (i : ι) :
    ∃ v, s.held i = some v ∧ content v = content top := by
  have hs : Converges content rank (content top) s :=
    run_invariant _ hrun (along_true events) (start_converges hmembers hw htop)
      fun _ _ _ hs _ hstep => deliver_converges hs hmembers hstep
  cases hi : s.held i with
  | none =>
      obtain ⟨msg, hmsg, rfl⟩ := hs.unheard i hi
      have := hquiet msg hmsg
      rw [hi] at this
      cases this
  | some v =>
      refine ⟨v, rfl, ?_⟩
      by_contra hne
      obtain ⟨msg, hmsg, hnews⟩ := hs.pending i v hi hne
      exact absurd hnews.wants (by simp [hquiet msg hmsg])

end Invariant

end NuSync.Lib.LastWriter
