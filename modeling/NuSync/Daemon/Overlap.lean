import NuSync.Daemon.ChangeDetection
import NuSync.Daemon.Race

/-!
# Overlapping change handlers

Any number of `HandleFileChange` calls on one path, step by step, while the user writes the file.
The debounce timer is out of the watcher's map before its handler starts, so a slow handler
overlaps with the next one, and between its read and its `PutFileMeta` nothing stops the other.
`newest_read_kept` says in which interleavings the entry is that of the newest read.
-/

namespace NuSync

open Go Lib Store Chunker Merkle

/-- The calls on one path. A call that has not begun is at `isQuiet`; `fresh` are the calls that
have opened the file since it was last written, and `lastRead` is the call that came to the end of
its read last, with the content it read. -/
structure Overlap (ι : Type*) where
  daemon : Daemon
  calls : ι → ChangePc
  fresh : ι → Bool
  lastRead : Option (ι × Bytes)

/-- The user writes or removes the file, or one of the calls takes a step. -/
inductive OverlapEvent (ι : Type*) where
  | userWrite (content : Option Bytes)
  | call (i : ι) (event : ChangeEvent)

/-- The bytes that a call has read so far. -/
def ChangePc.content : ChangePc → Bytes
  | .read _ content => content
  | _ => []

/-- `Read` returns the next bytes of the file, and none only at its end. -/
def nextBytes (file content part : Bytes) : Bool :=
  part.isPrefixOf (file.drop content.length) && (part ≠ [] || file.length ≤ content.length)

/-- What has been read with the next bytes is the beginning of the file, and all of it if there are
none. -/
theorem next_bytes_cases {file content part : Bytes} (hcontent : content <+: file)
    (h : nextBytes file content part = true) :
    content ++ part <+: file ∧ (part = [] → content = file) := by
  obtain ⟨rest, rfl⟩ := hcontent
  simp only [nextBytes, List.drop_left, List.length_append, ne_eq, decide_not, Bool.and_eq_true,
    List.isPrefixOf_iff_prefix, Bool.or_eq_true, Bool.not_eq_true', decide_eq_false_iff_not,
    decide_eq_true_eq] at h
  refine ⟨(List.prefix_append_right_inj content).mpr h.1, fun hpart => ?_⟩
  have hshort := h.2.resolve_left (· hpart)
  have hrest : rest = [] := List.length_eq_zero_iff.mp (by omega)
  rw [hrest, List.append_nil]

namespace RaceContext

variable {ι : Type*} [DecidableEq ι] (ctx : RaceContext)

/-- What `Read` can return. A call that has opened the file after the last write reads the file at
the path. For any other the file it has open may have been written in the middle of the read, or
be another one by now. -/
def canRead (s : Overlap ι) (i : ι) : ChangeEvent → Bool
  | .read part => !s.fresh i || (s.daemon.node.disk (clean ctx.path)).any fun file =>
      nextBytes file (s.calls i).content part
  | _ => true

/-- The calls that have the file open as it is, after a step of a call. -/
def freshAfter (fresh : ι → Bool) (i : ι) : ChangeEvent → ι → Bool
  | .openFile => Function.update fresh i true
  | _ => fresh

theorem fresh_after_iff {fresh : ι → Bool} {i j : ι} {event : ChangeEvent} :
    freshAfter fresh i event j = true ↔ fresh j = true ∨ event = .openFile ∧ j = i := by
  cases event with
  | openFile => by_cases hj : j = i <;> simp [freshAfter, hj]
  | _ => simp [freshAfter]

/-- One step of a call. -/
def callStep (s : Overlap ι) (i : ι) (event : ChangeEvent) : Option (Overlap ι) :=
  if ctx.canRead s i event then
    (ctx.changeStep s.daemon (s.calls i) event).map fun (d, pc) =>
      { daemon := d
        calls := Function.update s.calls i pc
        fresh := freshAfter s.fresh i event
        lastRead :=
          match pc with
          | .compareRoot _ _ => some (i, (s.calls i).content)
          | _ => s.lastRead }
  else none

/-- One step of the calls and the user. -/
def overlapStep (s : Overlap ι) : OverlapEvent ι → Option (Overlap ι)
  | .userWrite content =>
      let node := s.daemon.node.setFile (clean ctx.path) content
      some { s with daemon := { s.daemon with node := node }, fresh := fun _ => false }
  | .call i event => ctx.callStep s i event

/-- The entry of the file. -/
def indexEntry (d : Daemon) : Option FileMeta :=
  d.node.index.getFileMeta (d.changeFileID ctx.path)

/-- The record of a content, with its root, its chunk hashes and its size. -/
def record (d : Daemon) (content : Bytes) (ts : UInt64) : FileMeta :=
  Daemon.fileMeta ctx.sha256 (d.changeFileID ctx.path)
    (chunksFrom ctx.sha256 0 0 (ctx.cdc.cut content)) ts

/-- The entry is a record of this content, as JSON keeps it. -/
def Describes (d : Daemon) (content : Bytes) : Prop :=
  ∃ ts, ctx.indexEntry d = some (ctx.record d content ts).json

/-- The root of the content tells it apart from what the entry describes: an entry with that root
has its chunk hashes and its size too. -/
def RootTells (d : Daemon) (content : Bytes) : Prop :=
  ∀ m, ctx.indexEntry d = some m → m.merkleRoot = fileRoot ctx.sha256 ctx.cdc content →
    let chunks := chunksFrom ctx.sha256 0 0 (ctx.cdc.cut content)
    m.chunkHashes = chunks.map Chunk.hash ∧ m.sizeBytes = Daemon.totalSize chunks

/-- A step meets the order of the reads: the last reader finds its root in the index only with the
rest of its record, bbolt takes that record, and no other call stores one once the last reader has
finished. -/
def InOrder (s : Overlap ι) (i : ι) : ChangeEvent → Prop
  | .compareRoot _ => ∀ content, s.lastRead = some (i, content) → ctx.RootTells s.daemon content
  | .putMeta commit => ∀ j content, s.lastRead = some (j, content) →
      if i = j then BoltMetaStore.ValidKey (s.daemon.changeFileID ctx.path) ∧ commit = true
      else ∀ indexed, s.calls j ≠ .done indexed
  | _ => True

/-- The same for an event. -/
def StoresInOrder (s : Overlap ι) : OverlapEvent ι → Prop
  | .call i event => ctx.InOrder s i event
  | .userWrite _ => True

/-! ## What a step keeps -/

/-- A call works under the file ID of the path. -/
def Named (d : Daemon) : ChangePc → Prop
  | .read fileID _ | .compareRoot fileID _ | .nextTS fileID _ => fileID = d.changeFileID ctx.path
  | .isQuiet | .openFile | .putMeta _ | .done _ => True

/-- A call that has read this content is about to index it, or the entry describes it. -/
def Carries (d : Daemon) (content : Bytes) : ChangePc → Prop
  | .isQuiet | .openFile | .read _ _ => False
  | .compareRoot _ chunks | .nextTS _ chunks =>
      chunks = chunksFrom ctx.sha256 0 0 (ctx.cdc.cut content)
  | .putMeta m => ∃ ts, m = ctx.record d content ts
  | .done _ => ctx.Describes d content

/-- All calls work under the file ID of the path. -/
def AllNamed (s : Overlap ι) : Prop := ∀ i, ctx.Named s.daemon (s.calls i)

variable {ctx} {d d' : Daemon} {pc pc' : ChangePc} {event : ChangeEvent} {content : Bytes}

/-- A move keeps the files, the file ID of the path, and the index until a record is stored. -/
theorem ChangeMoves.frame (h : ChangeMoves ctx d pc event d' pc') :
    d'.node.disk = d.node.disk ∧ d'.changeFileID ctx.path = d.changeFileID ctx.path ∧
      (d'.node.index = d.node.index ∨ ∃ commit, event = .putMeta commit) := by
  cases h with
  | store m commit => exact ⟨rfl, rfl, .inr ⟨commit, rfl⟩⟩
  | _ => exact ⟨rfl, rfl, .inl rfl⟩

theorem named_congr (hpath : d'.changeFileID ctx.path = d.changeFileID ctx.path)
    (h : ctx.Named d pc) : ctx.Named d' pc := by
  cases pc with
  | read | compareRoot | nextTS => exact h.trans hpath.symm
  | isQuiet | openFile | putMeta | done => trivial

/-- Only a finished call depends on the index. -/
theorem carries_congr (hpath : d'.changeFileID ctx.path = d.changeFileID ctx.path)
    (hindex : d'.node.index = d.node.index ∨ ∀ indexed, pc ≠ .done indexed)
    (h : ctx.Carries d content pc) : ctx.Carries d' content pc := by
  cases pc with
  | done indexed =>
      obtain ⟨ts, hentry⟩ := h
      refine ⟨ts, ?_⟩
      rwa [indexEntry, record, hpath, hindex.resolve_right fun hrunning => hrunning indexed rfl]
  | putMeta m =>
      obtain ⟨ts, hm⟩ := h
      exact ⟨ts, by rwa [record, hpath]⟩
  | _ => exact h

theorem ChangeMoves.named (h : ChangeMoves ctx d pc event d' pc') (hpc : ctx.Named d pc) :
    ctx.Named d' pc' := by
  cases h with
  | opened => exact rfl
  | more | eof | differ => exact hpc
  | skip | pass | missing | same | stamp | store => trivial

/-- The entry of the file once a record of the content is stored. -/
theorem describes_of_stored {m : FileMeta} {ts : UInt64} (hm : m = ctx.record d content ts)
    (hkey : BoltMetaStore.ValidKey (d.changeFileID ctx.path)) {commit : Bool}
    (hcommit : commit = true) :
    ctx.Describes
      { d with node := { d.node with index := Daemon.putIgnored d.node.index m commit } }
      content := by
  subst hm
  refine ⟨ts, ?_⟩
  rw [indexEntry, Daemon.put_ignored_of_valid (m := ctx.record d content ts) _ hkey hcommit]
  exact BoltMetaStore.get_set_self _ (ctx.record d content ts)

/-- An entry with the root of the content describes it, if the root tells. -/
theorem describes_of_root {m : FileMeta} (htells : ctx.RootTells d content)
    (hentry : ctx.indexEntry d = some m)
    (hroot : m.merkleRoot = fileRoot ctx.sha256 ctx.cdc content) : ctx.Describes d content := by
  obtain ⟨hhashes, hsize⟩ := htells m hentry hroot
  have hname := BoltMetaStore.file_id_of_get hentry
  refine ⟨m.lamportTS, hentry.trans (congrArg some ?_)⟩
  obtain ⟨fileID, root, ts, hashes, size⟩ := m
  cases hname
  cases hroot
  cases hhashes
  cases hsize
  rfl

/-- A step of the call that read the content keeps it on its way to the index. -/
theorem ChangeMoves.carries (h : ChangeMoves ctx d pc event d' pc') (hname : ctx.Named d pc)
    (hcarries : ctx.Carries d content pc)
    (htells : ∀ io, event = .compareRoot io → ctx.RootTells d content)
    (hstored : ∀ commit, event = .putMeta commit →
      BoltMetaStore.ValidKey (d.changeFileID ctx.path) ∧ commit = true) :
    ctx.Carries d' content pc' := by
  cases h with
  | skip | pass | missing | opened | more | eof => exact hcarries.elim
  | same io fileID chunks hsame =>
      cases hname
      cases hcarries
      obtain ⟨m, hentry, hroot⟩ := Option.map_eq_some_iff.mp hsame
      exact describes_of_root (htells io rfl) hentry hroot
  | differ => exact hcarries
  | stamp fileID chunks =>
      cases hname
      cases hcarries
      exact ⟨d.clock + 1, rfl⟩
  | store m commit =>
      obtain ⟨hkey, hcommit⟩ := hstored commit rfl
      obtain ⟨ts, hm⟩ := hcarries
      exact describes_of_stored hm hkey hcommit

variable {s s' : Overlap ι} {i j : ι}

/-- A step of a call moves that call and no other. -/
theorem call_step_cases (h : ctx.callStep s i event = some s') :
    ctx.canRead s i event = true ∧
      ChangeMoves ctx s.daemon (s.calls i) event s'.daemon (s'.calls i) ∧
      (∀ j, j ≠ i → s'.calls j = s.calls j) ∧ s'.fresh = freshAfter s.fresh i event := by
  unfold callStep at h
  split_ifs at h with hread
  obtain ⟨⟨d, pc⟩, hstep, rfl⟩ := Option.map_eq_some_iff.mp h
  exact ⟨hread, by simpa using change_step_moves hstep, fun j hj => Function.update_of_ne hj _ _,
    rfl⟩

/-- The last reader is the call that has just come to the end of its read, or the same as
before. -/
theorem call_step_last_read (h : ctx.callStep s i event = some s') :
    s'.lastRead = s.lastRead ∨
      ∃ content, s'.lastRead = some (i, content) ∧ ctx.Carries s'.daemon content (s'.calls i) := by
  unfold callStep at h
  split_ifs at h
  obtain ⟨⟨d, pc⟩, hstep, rfl⟩ := Option.map_eq_some_iff.mp h
  have hmoves := change_step_moves hstep
  simp only [Function.update_self]
  generalize s.calls i = before at hmoves
  cases hmoves with
  | eof fileID content => exact .inr ⟨content, rfl, rfl⟩
  | _ => exact .inl rfl

/-- A call that has the file open as it is reads on in it, or has read all of it. -/
theorem call_step_reads {fileID : GoString} {file content : Bytes}
    (hfile : s.daemon.node.disk (clean ctx.path) = some file) (hfresh : s.fresh i = true)
    (hpc : s.calls i = .read fileID content) (hcontent : content <+: file)
    (h : ctx.callStep s i event = some s') :
    (∃ more, s'.calls i = .read fileID more ∧ more <+: file) ∨
      s'.calls i = .compareRoot fileID (chunksFrom ctx.sha256 0 0 (ctx.cdc.cut file)) := by
  obtain ⟨hread, hmoves, -, -⟩ := call_step_cases h
  rw [hpc] at hmoves
  have hnext (part : Bytes) (hevent : event = .read part) : nextBytes file content part = true := by
    subst hevent
    simpa [canRead, hfresh, hfile, hpc, ChangePc.content] using hread
  generalize s'.calls i = after at hmoves ⊢
  generalize s'.daemon = d at hmoves
  cases hmoves with
  | more _ _ part hpart =>
      exact .inl ⟨_, rfl, (next_bytes_cases hcontent (hnext part rfl)).1⟩
  | eof =>
      have hall := (next_bytes_cases hcontent (hnext [] rfl)).2 rfl
      exact .inr (by rw [hall])

theorem call_step_named (hs : ctx.AllNamed s) (h : ctx.callStep s i event = some s') :
    ctx.AllNamed s' := by
  obtain ⟨-, hmoves, hothers, -⟩ := call_step_cases h
  intro j
  by_cases hj : j = i
  · subst hj
    exact hmoves.named (hs j)
  · rw [hothers j hj]
    exact named_congr hmoves.frame.2.1 (hs j)

/-- A step in the order of the reads keeps what the last reader carries. -/
theorem call_step_carries (hs : ctx.AllNamed s) (hlast : s.lastRead = some (j, content))
    (hcarries : ctx.Carries s.daemon content (s.calls j)) (horder : ctx.InOrder s i event)
    (h : ctx.callStep s i event = some s') : ctx.Carries s'.daemon content (s'.calls j) := by
  obtain ⟨-, hmoves, hothers, -⟩ := call_step_cases h
  by_cases hj : j = i
  · subst hj
    refine hmoves.carries (hs j) hcarries ?_ ?_
    · rintro io rfl
      exact horder content hlast
    · rintro commit rfl
      simpa using horder j content hlast
  · rw [hothers j hj]
    obtain ⟨-, hpath, hindex⟩ := hmoves.frame
    refine carries_congr hpath (hindex.imp_right ?_) hcarries
    rintro ⟨commit, rfl⟩
    simpa [Ne.symm hj] using horder j content hlast

/-! ## The newest read -/

/-- The last reader carries what it read. -/
def LastCarries (ctx : RaceContext) (s : Overlap ι) : Prop :=
  ctx.AllNamed s ∧
    ∀ j content, s.lastRead = some (j, content) → ctx.Carries s.daemon content (s.calls j)

theorem overlap_step_carries {event : OverlapEvent ι} (hs : ctx.LastCarries s)
    (horder : ctx.StoresInOrder s event) (h : ctx.overlapStep s event = some s') :
    ctx.LastCarries s' := by
  obtain ⟨hnamed, hlast⟩ := hs
  cases event with
  | userWrite file =>
      cases h
      exact ⟨fun i => named_congr rfl (hnamed i),
        fun j content hread => carries_congr rfl (.inl rfl) (hlast j content hread)⟩
  | call i event =>
      refine ⟨call_step_named hnamed h, fun j content hread => ?_⟩
      rcases call_step_last_read h with hsame | ⟨read, hnew, hcarries⟩
      · rw [hsame] at hread
        exact call_step_carries hnamed hread (hlast j content hread) horder h
      · cases hnew.symm.trans hread
        exact hcarries

/-- Every call that has begun has finished. -/
def Finished (s : Overlap ι) : Prop :=
  ∀ i, s.calls i = .isQuiet ∨ ∃ indexed, s.calls i = .done indexed

/-- **Overlapping change handlers.** If in a run every record is stored in the order of the reads,
then whenever all calls have finished the entry is the record of the content that was read last. -/
theorem newest_read_kept {start finish : Overlap ι} {events : List (OverlapEvent ι)}
    (hcalls : ∀ i, start.calls i = .isQuiet) (hfirst : start.lastRead = none)
    (hrun : run ctx.overlapStep start events = some finish)
    (horder : Along ctx.overlapStep ctx.StoresInOrder start events)
    (hfinished : Finished finish) {i : ι} {content : Bytes}
    (hread : finish.lastRead = some (i, content)) : ctx.Describes finish.daemon content := by
  have hstart : ctx.LastCarries start :=
    ⟨fun i => by rw [hcalls i]; trivial, fun j content hread => by simp [hfirst] at hread⟩
  have hcarries := (run_invariant ctx.LastCarries hrun horder hstart
    fun _ _ _ hs horder hstep => overlap_step_carries hs horder hstep).2 i content hread
  rcases hfinished i with hpc | ⟨indexed, hpc⟩
  · rw [hpc] at hcarries
    exact hcarries.elim
  · rwa [hpc] at hcarries

/-- Two calls on the file of `bothStart`, neither of which has begun. -/
def twoCalls : Overlap Bool := ⟨bothStart.daemon, fun _ => .isQuiet, fun _ => false, none⟩

/-- A call goes through its check and reads the file. -/
def readCall (i : Bool) (content : Bytes) : List (OverlapEvent Bool) :=
  [.call i (.isQuiet 0), .call i .openFile, .call i (.read content), .call i (.read [])]

/-- The first call reads the file, the user changes it, and the second call reads it too. -/
def bothCallsRead : List (OverlapEvent Bool) :=
  readCall false (ascii "edit") ++ .userWrite (some (ascii "more")) :: readCall true (ascii "more")

/-- A call runs from its comparison to its end. -/
def finishCall (i : Bool) : List (OverlapEvent Bool) :=
  [.call i (.compareRoot ⟨fun _ => true, true⟩), .call i .nextTS, .call i (.putMeta true)]

/-- The two contents have different roots. -/
theorem edit_ne_more : Hash.sample (ascii "edit") ≠ Hash.sample (ascii "more") := by decide

/-- The second call stores last: the entry is that of its content. -/
theorem newest_read_kept_after_overlap :
    ∃ s, run single.overlapStep twoCalls (bothCallsRead ++ finishCall false ++ finishCall true) =
        some s ∧ s.lastRead = some (true, ascii "more") ∧
      single.Describes s.daemon (ascii "more") := by
  obtain ⟨s, hrun, hread, hfinished⟩ : ∃ s, run single.overlapStep twoCalls
      (bothCallsRead ++ finishCall false ++ finishCall true) = some s ∧
        s.lastRead = some (true, ascii "more") ∧ Finished s := by
    refine ⟨_, rfl, rfl, fun i => .inr ?_⟩
    cases i <;> exact ⟨_, rfl⟩
  have horder : Along single.overlapStep single.StoresInOrder twoCalls
      (bothCallsRead ++ finishCall false ++ finishCall true) := by
    refine ⟨trivial, trivial, trivial, trivial, trivial, trivial, trivial, trivial, trivial, ?_,
      trivial, ?_, ?_, trivial, ?_, trivial⟩
    · rintro content ⟨⟩
    · rintro j content ⟨⟩ indexed ⟨⟩
    · -- the entry is the one of the other content, with another root
      rintro content ⟨⟩ m hentry hroot
      obtain rfl := Option.some.inj hentry
      exact absurd hroot edit_ne_more
    · rintro j content ⟨⟩
      exact ⟨by decide, rfl⟩
  exact ⟨s, hrun, hread,
    newest_read_kept (fun _ => rfl) rfl hrun horder hfinished hread⟩

/-- The first call stores last, with the greater timestamp: the entry is that of the content from
before the change, and nothing is left running that would repair it. -/
theorem newest_read_lost_to_slow_call :
    ∃ s, run single.overlapStep twoCalls (bothCallsRead ++ finishCall true ++ finishCall false) =
        some s ∧ Finished s ∧ s.lastRead = some (true, ascii "more") ∧
      s.daemon.node.disk (ascii "/d/f") = some (ascii "more") ∧
      single.Describes s.daemon (ascii "edit") ∧ ¬ single.Describes s.daemon (ascii "more") := by
  refine ⟨_, rfl, fun i => .inr ?_, rfl, rfl, ⟨7, rfl⟩, ?_⟩
  · cases i <;> exact ⟨_, rfl⟩
  · rintro ⟨ts, hentry⟩
    have hroot := congrArg FileMeta.merkleRoot (Option.some.inj hentry)
    exact edit_ne_more hroot

end RaceContext

end NuSync
