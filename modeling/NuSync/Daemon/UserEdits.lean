import NuSync.Daemon.Watched

/-!
# User edits of a watched file

A quiet mark says nothing about who wrote the file. A user's edit whose debounce fires within the
TTL of the last pull's mark is dropped and not looked at again, and the index keeps describing
the pulled version. `user_edit_indexed` says in which runs a user's edit always gets into the
index.
-/

namespace NuSync

open Go Lib Store Orchestrator Watcher

namespace WatchContext

variable {ι : Type*} [DecidableEq ι] {ctx : WatchContext} {s s' : WatchedFile ι}
  {event : WatchedEvent ι}

/-- The step of a call does not swallow a user's edit. A call that begins after it finds no mark or
an expired one, and is not about a `.db` file. A call that has opened the file after it finds its
root in the index only with the rest of its record, and bbolt takes that record. A call that opened
the file before it stores nothing once one that opened it afterwards has finished. -/
def HearsEdit (ctx : WatchContext) (s : WatchedFile ι) (i : ι) : ChangeEvent → Prop
  | .isQuiet _ => ext ctx.path ≠ ascii ".db" ∧
      ∀ t, s.daemon.node.quiet ctx.path = some t → Daemon.quietWriteTTL < s.now - t
  | .compareRoot _ => s.overlap.fresh i = true →
      ∀ content, ctx.file s = some content → ctx.RootTells s.daemon content
  | .putMeta commit =>
      if s.overlap.fresh i then
        BoltMetaStore.ValidKey (s.daemon.changeFileID ctx.path) ∧ commit = true
      else ∀ j, s.overlap.fresh j = true → ∀ indexed, s.overlap.calls j ≠ .done indexed
  | _ => True

/-- The step does not swallow a user's edit: no call does, and no pull that the user has overtaken
stores its record. -/
def HearsUser (ctx : WatchContext) (s : WatchedFile ι) : WatchedEvent ι → Prop
  | .call i event => s.history.userWrote = true → ctx.HearsEdit s i event
  | .pull (.putMeta _) _ => s.history.userWrote = false
  | _ => True

/-- A call is reading this content, or has read it and carries it to the index. -/
def Takes (ctx : WatchContext) (d : Daemon) (content : Bytes) (pc : ChangePc) : Prop :=
  (∃ fileID sofar, pc = .read fileID sofar ∧ sofar <+: content) ∨ ctx.Carries d content pc

/-- A user's edit is on its way to a handler, or a call is about to open the file or has opened it
since, and every call that has opened it since takes it. -/
structure Tracked (ctx : WatchContext) (s : WatchedFile ι) : Prop where
  named : ctx.AllNamed s.overlap
  edit : s.history.userWrote = true → ∃ content, ctx.file s = some content ∧
    (∀ i, s.overlap.fresh i = true → ctx.Takes s.daemon content (s.overlap.calls i)) ∧
    (0 < s.watch.alarms ∨ ∃ i, s.overlap.calls i = .openFile ∨ s.overlap.fresh i = true)

theorem takes_congr {d d' : Daemon} {content : Bytes} {pc : ChangePc}
    (hpath : d'.changeFileID ctx.path = d.changeFileID ctx.path)
    (hindex : d'.node.index = d.node.index ∨ ∀ indexed, pc ≠ .done indexed)
    (h : ctx.Takes d content pc) : ctx.Takes d' content pc :=
  h.imp_right (RaceContext.carries_congr hpath hindex)

section CallStep

variable {i : ι} {event : ChangeEvent} {overlap : Overlap ι} {content : Bytes}

/-- A call that has opened the file since the edit goes on to index it. -/
theorem call_step_takes_own (hnamed : ctx.AllNamed s.overlap)
    (hfile : ctx.file s = some content) (hfresh : s.overlap.fresh i = true)
    (htakes : ctx.Takes s.daemon content (s.overlap.calls i)) (hears : ctx.HearsEdit s i event)
    (h : ctx.callStep s.overlap i event = some overlap) :
    ctx.Takes overlap.daemon content (overlap.calls i) := by
  rcases htakes with ⟨fileID, sofar, hpc, hprefix⟩ | hcarries
  · rcases RaceContext.call_step_reads (by rwa [ctx.clean_path]) hfresh hpc hprefix h with
      ⟨more, hmore, hprefix⟩ | hend
    · exact .inl ⟨fileID, more, hmore, hprefix⟩
    · exact .inr (by rw [hend]; rfl)
  · obtain ⟨-, hmoves, -, -⟩ := RaceContext.call_step_cases h
    refine .inr (hmoves.carries (hnamed i) hcarries ?_ ?_)
    · rintro io rfl
      exact hears hfresh content hfile
    · rintro commit rfl
      simp only [HearsEdit, hfresh, if_true] at hears
      exact hears

/-- A step of another call does not take it away. -/
theorem call_step_takes_other {j : ι} (hnamed : ctx.AllNamed s.overlap)
    (hfile : ctx.file s = some content)
    (htakes : ∀ j, s.overlap.fresh j = true → ctx.Takes s.daemon content (s.overlap.calls j))
    (hears : ctx.HearsEdit s i event) (h : ctx.callStep s.overlap i event = some overlap)
    (hj : j ≠ i) (hfresh : s.overlap.fresh j = true) :
    ctx.Takes overlap.daemon content (overlap.calls j) := by
  obtain ⟨-, hmoves, hothers, -⟩ := RaceContext.call_step_cases h
  obtain ⟨-, hpath, hindex⟩ := hmoves.frame
  rw [hothers j hj]
  rcases hindex with hindex | ⟨commit, rfl⟩
  · exact takes_congr hpath (.inl hindex) (htakes j hfresh)
  · by_cases hdone : ∃ indexed, s.overlap.calls j = .done indexed
    · obtain ⟨indexed, hdone⟩ := hdone
      -- a call that stores now has opened the file since the edit too, and stores the same content
      by_cases hi : s.overlap.fresh i = true
      · have hstores := call_step_takes_own hnamed hfile hi (htakes i hi) hears h
        have hafter : ∃ m, overlap.calls i = .done m := by
          generalize s.overlap.calls i = before at hmoves
          generalize overlap.calls i = after at hmoves
          generalize overlap.daemon = d at hmoves
          cases hmoves with
          | store m => exact ⟨some m, rfl⟩
        obtain ⟨m, hafter⟩ := hafter
        rw [hafter] at hstores
        rcases hstores with ⟨_, _, hpc, -⟩ | hdescribes
        · cases hpc
        · rw [hdone]
          exact .inr hdescribes
      · simp only [HearsEdit, hi, Bool.false_eq_true, if_false] at hears
        exact absurd hdone (hears j hfresh indexed)
    · exact takes_congr hpath (.inr (not_exists.mp hdone)) (htakes j hfresh)

/-- A call that begins on the user's edit goes on to the file. -/
theorem call_goes_on (hears : ctx.HearsEdit s i (.isQuiet s.now))
    (h : ctx.callStep s.overlap i (.isQuiet s.now) = some overlap) :
    overlap.calls i = .openFile := by
  obtain ⟨hext, hmark⟩ := hears
  obtain ⟨-, hmoves, -, -⟩ := RaceContext.call_step_cases h
  generalize s.overlap.calls i = before at hmoves
  generalize overlap.calls i = after at hmoves
  generalize overlap.daemon = d at hmoves
  cases hmoves with
  | pass => rfl
  | skip _ _ _ hskip =>
      rcases hskip with hdb | hquiet
      · exact absurd hdb hext
      · obtain ⟨t, ht, hlive⟩ := Daemon.is_quiet_iff.mp hquiet
        have := hmark t ht
        omega

/-- A call that opens the file takes it. -/
theorem call_opens (hfile : ctx.file s = some content)
    (h : ctx.callStep s.overlap i .openFile = some overlap) :
    ctx.Takes overlap.daemon content (overlap.calls i) := by
  obtain ⟨-, hmoves, -, -⟩ := RaceContext.call_step_cases h
  generalize s.overlap.calls i = before at hmoves
  generalize overlap.calls i = after at hmoves
  generalize overlap.daemon = d at hmoves
  cases hmoves with
  | opened => exact .inl ⟨_, [], rfl, List.nil_prefix⟩
  | missing hnone =>
      rw [ctx.clean_path] at hnone
      cases hnone.symm.trans hfile

end CallStep

theorem call_step_tracked {i : ι} {event : ChangeEvent} (hs : ctx.Tracked s)
    (hears : ctx.HearsUser s (.call i event)) (h : ctx.step s (.call i event) = some s') :
    ctx.Tracked s' := by
  obtain ⟨watch, overlap, hcall, rfl, hwatch⟩ := call_cases h
  obtain ⟨-, hmoves, hothers, hfreshed⟩ := RaceContext.call_step_cases hcall
  refine ⟨RaceContext.call_step_named hs.named hcall, fun huser => ?_⟩
  have hears := hears huser
  obtain ⟨content, hfile, htakes, hcomes⟩ := hs.edit huser
  refine ⟨content, by rwa [file, WatchedFile.daemon, hmoves.frame.1], fun j hj => ?_, ?_⟩
  · have hj : RaceContext.freshAfter s.overlap.fresh i event j = true := by rwa [← hfreshed]
    by_cases hji : j = i
    · subst hji
      rcases RaceContext.fresh_after_iff.mp hj with hfresh | ⟨rfl, -⟩
      · exact call_step_takes_own hs.named hfile hfresh (htakes j hfresh) hears hcall
      · exact call_opens hfile hcall
    · have hfresh := (RaceContext.fresh_after_iff.mp hj).resolve_right fun hopens => hji hopens.2
      exact call_step_takes_other hs.named hfile htakes hears hcall hji hfresh
  · have hstill (j : ι) (hj : s.overlap.fresh j = true) : overlap.fresh j = true := by
      rw [hfreshed]
      exact RaceContext.fresh_after_iff.mpr (.inl hj)
    rcases hwatch with ⟨now, rfl, rfl, -⟩ | ⟨-, rfl⟩
    · exact .inr ⟨i, .inl (call_goes_on hears hcall)⟩
    · refine hcomes.imp_right ?_
      rintro ⟨j, hopens | hfresh⟩
      · by_cases hji : j = i
        · subst hji
          rw [hopens] at hmoves
          have hevent : event = .openFile := by
            generalize overlap.calls j = after at hmoves
            generalize overlap.daemon = d at hmoves
            cases hmoves <;> rfl
          refine ⟨j, .inr ?_⟩
          change overlap.fresh j = true
          rw [hfreshed]
          exact RaceContext.fresh_after_iff.mpr (.inr ⟨hevent, rfl⟩)
        · exact ⟨j, .inl ((hothers j hji).trans hopens)⟩
      · exact ⟨j, .inr (hstill j hfresh)⟩

theorem pull_step_tracked {event : AssemblyEvent} {reports : Nat} (hs : ctx.Tracked s)
    (hears : ctx.HearsUser s (.pull event reports))
    (h : ctx.step s (.pull event reports) = some s') : ctx.Tracked s' := by
  obtain ⟨node, pc, hmoves, rfl⟩ := pull_cases h
  refine ⟨fun i => RaceContext.named_congr rfl (hs.named i), fun huser => ?_⟩
  obtain ⟨huser, hsame⟩ : s.history.userWrote = true ∧ node.disk ctx.path = ctx.file s := by
    simpa [afterPull, History.afterPull] using huser
  obtain ⟨content, hfile, htakes, hcomes⟩ := hs.edit huser
  have hindex : node.index = s.daemon.node.index := by
    rcases hmoves.frame.2 with hindex | ⟨commit, rfl⟩
    · exact hindex
    · cases hears.symm.trans huser
  have hfresh (i : ι) : (ctx.afterPull s node pc reports).overlap.fresh i = s.overlap.fresh i := by
    simp [afterPull, hsame]
  refine ⟨content, hsame.trans hfile, fun i hi => ?_, hcomes.imp ?_ ?_⟩
  · rw [hfresh] at hi
    exact takes_congr (d := s.daemon) rfl (.inl hindex) (htakes i hi)
  · intro halarm
    have hreports : (ctx.afterPull s node pc reports).watch.alarms = s.watch.alarms + reports :=
      PathWatch.alarms_report reports
    omega
  · rintro ⟨i, hopens | hi⟩
    · exact ⟨i, .inl hopens⟩
    · exact ⟨i, .inr ((hfresh i).trans hi)⟩

theorem step_tracked (hs : ctx.Tracked s) (hears : ctx.HearsUser s event)
    (h : ctx.step s event = some s') : ctx.Tracked s' := by
  cases event with
  | wait delay =>
      cases h
      exact ⟨hs.named, hs.edit⟩
  | userWrite content reports =>
      cases h
      refine ⟨fun i => RaceContext.named_congr rfl (hs.named i),
        fun _ => ⟨content, ?_, ?_, .inl ?_⟩⟩
      · exact Node.set_file_disk _ _ _
      · intro i hi
        cases hi
      · rw [PathWatch.alarms_report]
        omega
  | watch event =>
      obtain ⟨watch, hwatch, rfl⟩ := Option.map_eq_some_iff.mp h
      refine ⟨hs.named, fun huser => ?_⟩
      obtain ⟨content, hfile, htakes, -⟩ := hs.edit huser
      refine ⟨content, hfile, htakes, .inl (PathWatch.alarms_pos_of_step hwatch fun _ => ?_)⟩
      rw [hfile]
      rfl
  | call i event => exact call_step_tracked hs hears h
  | pull event reports => exact pull_step_tracked hs hears h

/-- Nothing is on its way from the watcher, no call is running, and no pull has the file in
hand. -/
structure Quiescent (s : WatchedFile ι) : Prop where
  watch : s.watch.alarms = 0
  calls : RaceContext.Finished s.overlap
  pull : ∃ last, s.pull = .idle last

/-- **User edits get into the index.** In a run in which no step swallows a user's edit, whenever
everything has come to rest and the last change to the file was the user's, the entry is the record
of the content on disk. -/
theorem user_edit_indexed {start finish : WatchedFile ι} {events : List (WatchedEvent ι)}
    (hcalls : ∀ i, start.overlap.calls i = .isQuiet) (hfirst : start.history.userWrote = false)
    (hrun : run ctx.step start events = some finish)
    (hears : Along ctx.step ctx.HearsUser start events) (hrest : Quiescent finish)
    (huser : finish.history.userWrote = true) :
    ∃ content, ctx.file finish = some content ∧ ctx.Describes finish.daemon content := by
  have hstart : ctx.Tracked start :=
    ⟨fun i => by rw [hcalls i]; trivial, fun huser => by simp [hfirst] at huser⟩
  obtain ⟨content, hfile, htakes, hcomes⟩ := (run_invariant ctx.Tracked hrun hears hstart
    fun _ _ _ hs hears hstep => step_tracked hs hears hstep).edit huser
  refine ⟨content, hfile, ?_⟩
  rcases hcomes with halarm | ⟨i, hi⟩
  · have := hrest.watch
    omega
  · -- the call has finished, and a finished call that takes the content describes it
    rcases hrest.calls i with hpc | ⟨indexed, hpc⟩ <;> rw [hpc] at hi
    · have hstuck := htakes i (hi.resolve_left (by simp))
      rw [hpc] at hstuck
      simp [Takes, RaceContext.Carries] at hstuck
    · have hdone := htakes i (hi.resolve_left (by simp))
      rw [hpc] at hdone
      simpa [Takes, RaceContext.Carries] using hdone

/-- A pull, and an edit of the user six seconds later. -/
def lateEdit : List (WatchedEvent Bool) :=
  openFile ++ writeChunk :: writeChunk :: closeFile ++ debounce 4 false 300 ++
    waitFor 5700 :: .userWrite (ascii "edit") 0 ::
      (debounce 1 true 6300 ++ readCall true (ascii "edit") ++ finishCall true)

/-- By then the mark has expired, and the edit is indexed. -/
theorem user_edit_indexed_after_mark :
    ∃ s, run single.step beforePull lateEdit = some s ∧
      ∃ content, single.file s = some content ∧ single.Describes s.daemon content := by
  obtain ⟨s, hrun, hrest, huser⟩ : ∃ s, run single.step beforePull lateEdit = some s ∧
      Quiescent s ∧ s.history.userWrote = true := by
    refine ⟨_, rfl, ⟨rfl, fun i => .inr ?_, _, rfl⟩, rfl⟩
    cases i <;> exact ⟨_, rfl⟩
  have hroot : pulledMeta.merkleRoot ≠ .sample (ascii "edit") := by decide
  refine ⟨s, hrun, user_edit_indexed (fun _ => rfl) rfl hrun ?_ hrest huser⟩
  refine ⟨trivial, trivial, trivial, trivial, trivial, trivial, trivial, rfl, trivial, trivial,
    trivial, trivial, trivial, trivial, trivial, trivial, nofun, trivial, trivial, trivial, trivial,
    trivial, trivial, trivial, fun _ => ⟨by decide, ?_⟩, fun _ => trivial, fun _ => trivial,
    fun _ => trivial, fun _ _ => ?_, fun _ => trivial, fun _ => ⟨by decide, rfl⟩, trivial⟩
  · rintro t ⟨⟩
    decide
  · -- the entry is the pulled version's, with another root
    rintro content ⟨⟩ m hentry heq
    obtain rfl := Option.some.inj hentry
    exact absurd heq hroot

/-- The user edits the file one second after a pull, and the debounce fires in the TTL of the mark:
nothing is left that would look at the file again, and the entry is that of the pulled version. -/
theorem user_edit_dropped :
    ∃ s, run single.step beforePull (openFile ++ writeChunk :: writeChunk :: closeFile ++
        debounce 4 false 300 ++ waitFor 700 :: .userWrite (ascii "edit") 0 ::
          debounce 1 true 1300) = some s ∧
      Quiescent s ∧ s.history.userWrote = true ∧ single.file s = some (ascii "edit") ∧
      single.indexEntry s.daemon = some pulledMeta ∧
      ¬ single.Describes s.daemon (ascii "edit") := by
  have hroot : pulledMeta.merkleRoot ≠ .sample (ascii "edit") := by decide
  refine ⟨_, rfl, ⟨rfl, fun i => .inr ?_, _, rfl⟩, rfl, rfl, rfl, ?_⟩
  · cases i <;> exact ⟨_, rfl⟩
  · rintro ⟨ts, hentry⟩
    exact hroot (congrArg FileMeta.merkleRoot (Option.some.inj hentry))

end WatchContext

end NuSync
