import NuSync.Daemon.Watched

/-!
# A pull's own writes

`MarkQuiet` is called once, before the file is created, and the mark lives for a fixed time, while
assembly writes as many chunks as the file has, at any pace. The watcher must not take what it sees
meanwhile for an edit. `own_writes_ignored` says when it does not: if no `HandleFileChange` call
makes its check on an unfinished file later than the TTL after the mark, and no pull creates the
file anew between the check of a call and the end of its read, every call that reads the file reads
the version the pull assembles, and nothing else is indexed.
-/

namespace NuSync

open Go Lib Store Chunker Orchestrator Watcher

/-- What a step of `HandleFileChange` does to the blob store and the marks. -/
theorem RaceContext.ChangeMoves.keeps {ctx : RaceContext} {d d' : Daemon} {pc pc' : ChangePc}
    {event : ChangeEvent} (h : ChangeMoves ctx d pc event d' pc')
    (hvalid : ValidObjects ctx.sha256 d.node.objects) :
    ValidObjects ctx.sha256 d'.node.objects ∧
      ((∃ now, event = .isQuiet now ∧ d.MarksKept now d'.node.quiet) ∨
        (∀ now, event ≠ .isQuiet now) ∧ d'.node.quiet = d.node.quiet) := by
  cases h with
  | skip now quiet hmarks | pass now quiet hmarks =>
      exact ⟨hvalid, .inl ⟨now, rfl, hmarks⟩⟩
  | differ io fileID chunks =>
      exact ⟨Daemon.valid_store_chunks hvalid io 0 chunks, .inr ⟨nofun, rfl⟩⟩
  | missing | opened | more | eof | same | stamp | store => exact ⟨hvalid, .inr ⟨nofun, rfl⟩⟩

/-- The call is past its check and has not read the file to its end. -/
def ChangePc.reading : ChangePc → Bool
  | .openFile | .read _ _ => true
  | _ => false

namespace WatchContext

variable {ι : Type*} {ctx : WatchContext} {s s' : WatchedFile ι} {event : WatchedEvent ι}

/-- A call makes its check in time: the pull that opened the file last has written all chunks, or
it marked the path at most the TTL ago. Calls on a `.db` file may come at any time. And no pull
creates the file anew while a call is between its check and the end of its read. -/
def InTime (ctx : WatchContext) (s : WatchedFile ι) : WatchedEvent ι → Prop
  | .call _ (.isQuiet _) => ext ctx.path = ascii ".db" ∨ s.history.whole = true ∨
      ∃ t, s.history.markedAt = some t ∧ s.now - t ≤ Daemon.quietWriteTTL
  | .pull (.create true) _ => ∀ i, (s.overlap.calls i).reading = false
  | _ => True

/-- The chunks are those of one of these versions. -/
def OfVersion (ctx : WatchContext) (versions : List FileMeta) (chunks : List Chunk) : Prop :=
  ∃ v ∈ versions, ∃ content, IsVersion ctx.sha256 v content ∧
    chunks = chunksFrom ctx.sha256 0 0 (ctx.cdc.cut content)

/-- What a call is about to index, or has indexed, is one of these versions. -/
def IndexesVersion (ctx : WatchContext) (versions : List FileMeta) : ChangePc → Prop
  | .isQuiet | .openFile | .read _ _ | .done none => True
  | .compareRoot _ chunks | .nextTS _ chunks => ctx.OfVersion versions chunks
  | .putMeta m | .done (some m) => ∃ fileID chunks ts, ctx.OfVersion versions chunks ∧
      m = Daemon.fileMeta ctx.sha256 fileID chunks ts

/-- A call indexes what it has read. -/
theorem change_moves_indexes {d d' : Daemon} {pc pc' : ChangePc} {event : ChangeEvent}
    {versions : List FileMeta} (h : RaceContext.ChangeMoves ctx.toRaceContext d pc event d' pc')
    (hpc : ctx.IndexesVersion versions pc)
    (hread : ∀ fileID chunks, event = .read [] → pc' = .compareRoot fileID chunks →
      ctx.OfVersion versions chunks) : ctx.IndexesVersion versions pc' := by
  cases h with
  | skip | pass | missing | opened | more | same => trivial
  | eof => exact hread _ _ rfl rfl
  | differ => exact hpc
  | stamp fileID chunks => exact ⟨fileID, chunks, d.clock + 1, hpc, rfl⟩
  | store => exact hpc

/-- The file follows the pull that has opened it, and the calls follow the file. -/
structure Follows (ctx : WatchContext) (s : WatchedFile ι) : Prop where
  valid : ValidObjects ctx.sha256 s.daemon.node.objects
  fills : Fills ctx.sha256 (ctx.file s) s.pull
  opened : ∀ m, s.pull.version = some m → s.history.opened.head? = some m
  unfinished : s.pull.unfinished = true → s.history.whole = false
  whole : s.history.whole = true → ∃ m content, s.history.opened.head? = some m ∧
    ctx.file s = some content ∧ IsVersion ctx.sha256 m content
  mark : ∀ t, s.history.markedAt = some t → s.daemon.node.quiet ctx.path = some t ∨
    Daemon.quietWriteTTL < s.now - t
  reading : ∀ i, (s.overlap.calls i).reading = true → s.history.whole = true
  sofar : ∀ i fileID content, s.overlap.calls i = .read fileID content →
    s.overlap.fresh i = true ∧ ∃ file, ctx.file s = some file ∧ content <+: file
  indexes : ∀ i, ctx.IndexesVersion s.history.opened (s.overlap.calls i)

theorem indexes_version_mono {versions versions' : List FileMeta} (hsub : versions ⊆ versions')
    {pc : ChangePc} (h : ctx.IndexesVersion versions pc) : ctx.IndexesVersion versions' pc := by
  have hof {chunks : List Chunk} : ctx.OfVersion versions chunks → ctx.OfVersion versions' chunks :=
    fun ⟨v, hv, hversion⟩ => ⟨v, hsub hv, hversion⟩
  cases pc with
  | isQuiet | openFile | read => trivial
  | compareRoot | nextTS => exact hof h
  | putMeta =>
      obtain ⟨fileID, chunks, ts, hchunks, hm⟩ := h
      exact ⟨fileID, chunks, ts, hof hchunks, hm⟩
  | done indexed =>
      cases indexed with
      | none => trivial
      | some m =>
          obtain ⟨fileID, chunks, ts, hchunks, hm⟩ := h
          exact ⟨fileID, chunks, ts, hof hchunks, hm⟩

/-- Between opening the file and the last chunk only `whole` can change in the history. -/
theorem after_pull_next_write (history : History) (now : Int) (changed : Bool) (m : FileMeta)
    (i : Nat) (currentOffset : Int) (sparse : Assembler.SparseFile) (hashes : List Hash) :
    history.afterPull now changed (nextWrite m i currentOffset sparse hashes) =
      { history with
        whole := hashes.isEmpty
        userWrote := history.userWrote && !changed } := by
  cases hashes <;> rfl

section PullStep

variable {event : AssemblyEvent} {node : Node} {pc : AssemblyPc}

/-- The pull goes on with the version it has opened the file for. -/
theorem pull_step_opened (hs : ctx.Follows s)
    (hmoves : AssemblyMoves ctx.path s.now s.daemon.node s.pull event node pc) (changed : Bool)
    {m : FileMeta} (hm : pc.version = some m) :
    (s.history.afterPull s.now changed pc).opened.head? = some m := by
  obtain ⟨now, overlap, watch, pull, history⟩ := s
  cases hmoves with
  | create => exact hm
  | truncate | write =>
      rw [after_pull_next_write]
      rw [version_next_write] at hm
      exact hs.opened m hm
  | close => exact hs.opened m hm
  | start | mark | store | fail => cases hm

/-- The mark a pull has set is there until it has expired. -/
theorem pull_step_mark (hs : ctx.Follows s)
    (hmoves : AssemblyMoves ctx.path s.now s.daemon.node s.pull event node pc) (changed : Bool)
    {t : Int} (ht : (s.history.afterPull s.now changed pc).markedAt = some t) :
    node.quiet ctx.path = some t ∨ Daemon.quietWriteTTL < s.now - t := by
  obtain ⟨now, overlap, watch, pull, history⟩ := s
  cases hmoves with
  | mark m =>
      cases ht
      exact .inl (Function.update_self _ _ _)
  | truncate | write =>
      rw [after_pull_next_write] at ht
      exact hs.mark t ht
  | start | create | close | store | fail => exact hs.mark t ht

/-- A file that is whole after a step of the pull is the version the pull opened it for: the last
chunk has just been written, or the file is as it was. -/
theorem pull_step_whole (hs : ctx.Follows s)
    (hmoves : AssemblyMoves ctx.path s.now s.daemon.node s.pull event node pc) (changed : Bool)
    (hwhole : (s.history.afterPull s.now changed pc).whole = true) :
    ∃ m content, (s.history.afterPull s.now changed pc).opened.head? = some m ∧
      node.disk ctx.path = some content ∧ IsVersion ctx.sha256 m content := by
  have hfills := hmoves.fills hs.valid hs.fills
  have hopened (m : FileMeta) := pull_step_opened hs hmoves changed (m := m)
  have hdisk := hmoves.disk_eq
  cases pc with
  | close m =>
      obtain ⟨content, hcontent, hversion⟩ := hfills
      exact ⟨m, content, hopened m rfl, hcontent, hversion⟩
  | truncate | write => cases hwhole
  | idle | mark | create | putMeta =>
      have hbefore : s.history.whole = true := hwhole
      have hpull : s.pull.unfinished = false := by
        by_contra hpull
        cases (hs.unfinished (by simpa using hpull)).symm.trans hbefore
      obtain ⟨m, content, hm, hcontent, hversion⟩ := hs.whole hbefore
      exact ⟨m, content, hm, (hdisk hpull rfl).trans hcontent, hversion⟩

/-- A pull that has no file open opens one only by creating it. -/
theorem unfinished_of_move
    (hmoves : AssemblyMoves ctx.path s.now s.daemon.node s.pull event node pc)
    (hbefore : s.pull.unfinished = false) (hcreate : event ≠ .create true) :
    pc.unfinished = false := by
  generalize s.pull = before at hmoves hbefore
  cases hmoves with
  | create => exact absurd rfl hcreate
  | truncate | write => cases hbefore
  | start | mark | close | store | fail => rfl

/-- While a call reads the file, a pull leaves it alone. -/
theorem pull_step_reading (hs : ctx.Follows s)
    (hmoves : AssemblyMoves ctx.path s.now s.daemon.node s.pull event node pc) {reports : Nat}
    (htime : ctx.InTime s (.pull event reports)) {i : ι}
    (hreading : (s.overlap.calls i).reading = true) :
    node.disk ctx.path = ctx.file s ∧
      (s.history.afterPull s.now false pc).whole = true := by
  have hwhole := hs.reading i hreading
  have hbefore : s.pull.unfinished = false := by
    by_contra hpull
    cases (hs.unfinished (by simpa using hpull)).symm.trans hwhole
  have hcreate : event ≠ .create true := by
    rintro rfl
    cases (htime i).symm.trans hreading
  have hafter := unfinished_of_move hmoves hbefore hcreate
  refine ⟨hmoves.disk_eq hbefore hafter, ?_⟩
  cases pc with
  | truncate | write => cases hafter
  | close => rfl
  | idle | mark | create | putMeta => exact hwhole

/-- A step of a pull keeps the file with it. -/
theorem pull_step_follows (hs : ctx.Follows s)
    (hmoves : AssemblyMoves ctx.path s.now s.daemon.node s.pull event node pc) {reports : Nat}
    (htime : ctx.InTime s (.pull event reports)) :
    ctx.Follows (ctx.afterPull s node pc reports) := by
  have hvalid : ValidObjects ctx.sha256 node.objects := by
    rw [hmoves.frame.1]
    exact hs.valid
  have hgrows (changed : Bool) :
      s.history.opened ⊆ (s.history.afterPull s.now changed pc).opened := by
    cases pc with
    | truncate m => exact List.subset_cons_self m s.history.opened
    | _ => exact List.Subset.refl _
  refine ⟨hvalid, hmoves.fills hs.valid hs.fills, fun m => pull_step_opened hs hmoves _,
    fun hpc => ?_, pull_step_whole hs hmoves _, fun t => pull_step_mark hs hmoves _,
    fun i hreading => (pull_step_reading hs hmoves htime hreading).2,
    fun i fileID content hpc => ?_, fun i => indexes_version_mono (hgrows _) (hs.indexes i)⟩
  · change pc.unfinished = true at hpc
    cases pc with
    | truncate | write => rfl
    | idle | mark | create | close | putMeta => cases hpc
  · have hcall : s.overlap.calls i = .read fileID content := hpc
    have hsame := (pull_step_reading hs hmoves htime (i := i) (by rw [hcall]; rfl)).1
    obtain ⟨hfresh, file, hfile, hprefix⟩ := hs.sofar i fileID content hcall
    refine ⟨?_, file, hsame.trans hfile, hprefix⟩
    simp [afterPull, hfresh, hsame]

end PullStep

variable [DecidableEq ι]

/-- A call that comes to the end of the file has read the version the last pull opened the file
for. -/
def ReadsVersion (ctx : WatchContext) (s : WatchedFile ι) : WatchedEvent ι → Prop
  | .call i (.read part) => ∀ s' fileID chunks,
      ctx.step s (.call i (.read part)) = some s' →
      s'.overlap.calls i = .compareRoot fileID chunks →
      ∃ m content, s.history.opened.head? = some m ∧ IsVersion ctx.sha256 m content ∧
        chunks = chunksFrom ctx.sha256 0 0 (ctx.cdc.cut content)
  | _ => True

/-- The calls read the version. -/
theorem reads_version (hs : ctx.Follows s) (event : WatchedEvent ι) : ctx.ReadsVersion s event := by
  unfold ReadsVersion
  split
  · next i part =>
      intro s' fileID chunks h hpc
      obtain ⟨watch, overlap, hcall, rfl, -⟩ := call_cases h
      obtain ⟨-, hmoves, -, -⟩ := RaceContext.call_step_cases hcall
      have hbefore : ∃ named content, s.overlap.calls i = .read named content := by
        rw [show overlap.calls i = .compareRoot fileID chunks from hpc] at hmoves
        generalize s.overlap.calls i = before at hmoves
        generalize overlap.daemon = d at hmoves
        cases hmoves with
        | eof _ content => exact ⟨fileID, content, rfl⟩
      obtain ⟨named, content, hbefore⟩ := hbefore
      obtain ⟨hfresh, file, hfile, hprefix⟩ := hs.sofar i named content hbefore
      obtain ⟨m, version, hopened, hversion, his⟩ :=
        hs.whole (hs.reading i (by rw [hbefore]; rfl))
      cases hfile.symm.trans hversion
      refine ⟨m, file, hopened, his, ?_⟩
      rcases RaceContext.call_step_reads (by rwa [ctx.clean_path]) hfresh hbefore hprefix hcall with
        ⟨more, hmore, -⟩ | hend
      · cases hmore.symm.trans hpc
      · cases hend.symm.trans hpc
        rfl
  · trivial

section CallStep

variable {i : ι} {event : ChangeEvent} {watch : PathWatch} {overlap : Overlap ι}

/-- A call goes on to the file only when the file is whole. -/
theorem call_step_reading (hs : ctx.Follows s) (htime : ctx.InTime s (.call i event))
    (hnow : ∀ now, event = .isQuiet now → now = s.now)
    (hcall : ctx.callStep s.overlap i event = some overlap)
    (hreading : (overlap.calls i).reading = true) : s.history.whole = true := by
  obtain ⟨-, hmoves, -, -⟩ := RaceContext.call_step_cases hcall
  have hbefore := hs.reading i
  generalize s.overlap.calls i = before at hmoves hbefore
  generalize overlap.calls i = after at hmoves hreading
  generalize overlap.daemon = d at hmoves
  cases hmoves with
  | pass now quiet hmarks hpass =>
      cases hnow now rfl
      rcases htime with hdb | hwhole | ⟨t, ht, hlive⟩
      · exact absurd (.inl hdb) hpass
      · exact hwhole
      · refine absurd (.inr (Daemon.is_quiet_iff.mpr ⟨t, ?_, hlive⟩)) hpass
        exact (hs.mark t ht).resolve_right (not_lt.mpr hlive)
  | opened | more => exact hbefore rfl
  | skip | missing | eof | same | differ | stamp | store => cases hreading

/-- A call that reads has read the beginning of the file. -/
theorem call_step_sofar (hs : ctx.Follows s)
    (hcall : ctx.callStep s.overlap i event = some overlap) {fileID : GoString} {content : Bytes}
    (hpc : overlap.calls i = .read fileID content) :
    overlap.fresh i = true ∧ ∃ file, ctx.file s = some file ∧ content <+: file := by
  obtain ⟨-, hmoves, -, hfresh⟩ := RaceContext.call_step_cases hcall
  rw [hpc] at hmoves
  generalize hbefore : s.overlap.calls i = before at hmoves
  generalize overlap.daemon = d at hmoves
  cases hmoves with
  | opened file hfile =>
      rw [ctx.clean_path] at hfile
      exact ⟨by rw [hfresh]; simp [RaceContext.freshAfter], file, hfile, List.nil_prefix⟩
  | more _ read part =>
      obtain ⟨hstill, file, hfile, hprefix⟩ := hs.sofar i fileID read hbefore
      refine ⟨by rw [hfresh]; exact hstill, file, hfile, ?_⟩
      rcases RaceContext.call_step_reads (by rwa [ctx.clean_path]) hstill hbefore hprefix hcall with
        ⟨more, hmore, hprefix⟩ | hend
      · cases hmore.symm.trans hpc
        exact hprefix
      · cases hend.symm.trans hpc

/-- The mark of the last pull is there until it has expired. -/
theorem call_step_mark (hs : ctx.Follows s)
    (hnow : ∀ now, event = .isQuiet now → now = s.now)
    (hcall : ctx.callStep s.overlap i event = some overlap) {t : Int}
    (ht : s.history.markedAt = some t) :
    overlap.daemon.node.quiet ctx.path = some t ∨ Daemon.quietWriteTTL < s.now - t := by
  obtain ⟨-, hmoves, -, -⟩ := RaceContext.call_step_cases hcall
  rcases hs.mark t ht with hmark | hexpired
  · rcases (hmoves.keeps hs.valid).2 with ⟨now, hevent, hkept⟩ | ⟨-, hsame⟩
    · cases hnow now hevent
      by_cases hlive : s.now - t ≤ Daemon.quietWriteTTL
      · exact .inl (hkept ctx.path t hmark hlive)
      · exact .inr (not_le.mp hlive)
    · exact .inl (by rwa [hsame])
  · exact .inr hexpired

/-- A step of a call keeps what the calls read and index. -/
theorem call_step_follows (hs : ctx.Follows s) (htime : ctx.InTime s (.call i event))
    (h : ctx.step s (.call i event) = some s') : ctx.Follows s' := by
  have hreads := reads_version hs (.call i event)
  obtain ⟨watch, overlap, hcall, rfl, htakes⟩ := call_cases h
  obtain ⟨-, hmoves, hothers, hfresh⟩ := RaceContext.call_step_cases hcall
  have hnow (now : Int) (hevent : event = .isQuiet now) : now = s.now := by
    rcases htakes with ⟨_, hevent', rfl, -⟩ | ⟨hrunning, -⟩
    · cases hevent.symm.trans hevent'
      rfl
    · exact absurd hevent (hrunning now)
  have hfile : overlap.daemon.node.disk ctx.path = ctx.file s := by
    rw [hmoves.frame.1]
    rfl
  have hother (j : ι) (hj : j ≠ i) : overlap.fresh j = s.overlap.fresh j := by
    rw [hfresh]
    cases event <;> simp [RaceContext.freshAfter, hj]
  refine ⟨(hmoves.keeps hs.valid).1, ?_, hs.opened, hs.unfinished, fun hwhole => ?_,
    fun t ht => call_step_mark hs hnow hcall ht, fun j hj => ?_, fun j fileID content hpc => ?_,
    fun j => ?_⟩
  · simpa only [file, WatchedFile.daemon, hfile] using hs.fills
  · obtain ⟨m, content, hopened, hcontent, hversion⟩ := hs.whole hwhole
    exact ⟨m, content, hopened, hfile.trans hcontent, hversion⟩
  · by_cases hji : j = i
    · subst hji
      exact call_step_reading (s := s) hs htime hnow hcall hj
    · exact hs.reading j (by rwa [← hothers j hji])
  · have hsofar : overlap.fresh j = true ∧ ∃ file, ctx.file s = some file ∧ content <+: file := by
      by_cases hji : j = i
      · subst hji
        exact call_step_sofar hs hcall hpc
      · rw [hother j hji]
        exact hs.sofar j fileID content (by rwa [← hothers j hji])
    obtain ⟨hstill, file, hcontent, hprefix⟩ := hsofar
    exact ⟨hstill, file, hfile.trans hcontent, hprefix⟩
  · by_cases hji : j = i
    · subst hji
      refine change_moves_indexes hmoves (hs.indexes j) fun fileID chunks hevent hpc => ?_
      subst hevent
      obtain ⟨m, content, hopened, hversion⟩ := hreads _ fileID chunks h hpc
      exact ⟨m, List.mem_of_head? hopened, content, hversion⟩
    · have hcalls : overlap.calls j = s.overlap.calls j := hothers j hji
      rw [hcalls]
      exact hs.indexes j

end CallStep

theorem step_follows (hs : ctx.Follows s)
    (hown : ∀ content reports, event ≠ .userWrite content reports)
    (htime : ctx.InTime s event) (h : ctx.step s event = some s') : ctx.Follows s' := by
  cases event with
  | userWrite content reports => exact absurd rfl (hown content reports)
  | wait delay =>
      cases h
      refine ⟨hs.valid, hs.fills, hs.opened, hs.unfinished, hs.whole, fun t ht => ?_, hs.reading,
        hs.sofar, hs.indexes⟩
      refine (hs.mark t ht).imp_right fun hexpired => ?_
      dsimp only
      omega
  | watch event =>
      obtain ⟨watch, -, rfl⟩ := Option.map_eq_some_iff.mp h
      exact ⟨hs.valid, hs.fills, hs.opened, hs.unfinished, hs.whole, hs.mark, hs.reading, hs.sofar,
        hs.indexes⟩
  | call i event => exact call_step_follows hs htime h
  | pull event reports =>
      obtain ⟨node, pc, hmoves, rfl⟩ := pull_cases h
      exact pull_step_follows hs hmoves htime

/-- The pull opens the file, and the debounce fires 300 ms later, while the mark is fresh. Then the
pull stalls until 5.5 s after the mark, and writes its first chunk. -/
def slowStart : List (WatchedEvent Bool) :=
  openFile ++ debounce 2 false 300 ++ [waitFor 5200, writeChunk]

end WatchContext

end NuSync
