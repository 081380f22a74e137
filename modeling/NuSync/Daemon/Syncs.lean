import NuSync.Daemon.Handlers
import NuSync.Lib.Replace
import NuSync.Orchestrator.Assembly

/-!
# Syncs that run at the same time

`triggerSync` of `internal/daemon/daemon.go` is called by the gossip callback, by every catalog
reconciliation and by `/sync`, and each call that finds the file free leaves a goroutine behind that
runs `Pull`. The map `syncing` is all that keeps two pulls out of one file.
`concurrent_syncs_kept_apart` says that it does for any number of calls and pulls in any
interleaving, provided that file IDs name their paths in one way only; so every pull that closes its
file has written one whole version into it. The chunks come from a store into which other goroutines
put more of them in the meantime, step by step as well.
-/

namespace NuSync

open Go Lib Store Orchestrator

/-- Where a call of `triggerSync` is, and then the goroutine it has started: before `LoadOrStore`,
before `go`, in `Pull` (where `idle` is outside of the assembly phase), before the deferred
`Delete`, or through. -/
inductive SyncPc where
  | loadOrStore
  | spawn
  | pull (pc : AssemblyPc)
  | delete
  | done

/-- It has put the file into `syncing` and not taken it out again. -/
def SyncPc.holds : SyncPc → Bool
  | .spawn | .pull _ | .delete => true
  | .loadOrStore | .done => false

/-- A call of `triggerSync`, with its goroutine. -/
structure Sync where
  fileID : GoString
  pc : SyncPc

/-- What a sync does next. In its assembly phase it runs on with the answers of the file system. -/
inductive SyncMove where
  | loadOrStore
  | spawn
  | assembly (now : Int) (event : AssemblyEvent)
  | finish
  | delete

/-- The file a sync assembles. -/
def Daemon.outFile (d : Daemon) (sync : Sync) : GoString := outPath d.baseDir sync.fileID

/-- One step of a sync. `Pull` returns before its assembly phase or after it. -/
def syncMove (d : Daemon) (sync : Sync) : SyncMove → Option (Daemon × SyncPc)
  | .loadOrStore =>
      match sync.pc with
      | .loadOrStore =>
          let (d, started) := d.triggerSync sync.fileID
          some (d, if started then .spawn else .done)
      | _ => none
  | .spawn =>
      match sync.pc with
      | .spawn => some (d, .pull (.idle none))
      | _ => none
  | .assembly now event =>
      match sync.pc with
      | .pull (.idle (some _)) => none
      | .pull pc =>
          (assemblyStep sync.fileID (d.outFile sync) now d.node pc event).map fun (node, pc) =>
            ({ d with node := node }, .pull pc)
      | _ => none
  | .finish =>
      match sync.pc with
      | .pull (.idle _) => some (d, .delete)
      | _ => none
  | .delete =>
      match sync.pc with
      | .delete =>
          some ({ d with syncing := d.syncing.filter fun f => f ≠ sync.fileID }, .done)
      | _ => none

/-- A call of `CASBlobStore.Put` by a goroutine of a pull or by an ingest. -/
structure StoreCall where
  args : PutCall
  pc : PutPc

/-- A node, the syncs and the `Put` calls there have been since it was started, and the temporary
files of the store. -/
structure Syncs where
  daemon : Daemon
  syncs : List Sync
  tmp : Hash → Option Bytes
  puts : List StoreCall

/-- What happens at the node: `triggerSync` is called, a sync goes on, `Put` is called or goes on
with an answer of the file system, somebody else writes or removes a file, or the process is started
again. -/
inductive SyncEvent where
  | trigger (fileID : GoString)
  | move (k : Nat) (move : SyncMove)
  | put (args : PutCall)
  | io (k : Nat) (io : Io)
  | edit (path : GoString) (file : Option Bytes)
  | restart

/-- The files of the store. -/
def Syncs.files (s : Syncs) : CasFiles := ⟨s.daemon.node.objects, s.tmp⟩

/-- One step. -/
def syncStep (sha256 : Bytes → Hash) (s : Syncs) : SyncEvent → Option Syncs
  | .trigger fileID => some { s with syncs := s.syncs ++ [⟨fileID, .loadOrStore⟩] }
  | .move k move => do
      let sync ← s.syncs[k]?
      let (d, pc) ← syncMove s.daemon sync move
      pure { s with daemon := d, syncs := s.syncs.set k { sync with pc := pc } }
  | .put args => some { s with puts := s.puts ++ [⟨args, .stat⟩] }
  | .io k io => do
      let call ← s.puts[k]?
      let (files, pc) := putStep sha256 call.args io s.files call.pc
      pure { s with
        daemon := { s.daemon with node := { s.daemon.node with objects := files.objects } }
        tmp := files.tmp
        puts := s.puts.set k { call with pc := pc } }
  | .edit path file =>
      some { s with daemon := { s.daemon with node := s.daemon.node.setFile path file } }
  | .restart =>
      let node := s.daemon.node
      some ⟨.new s.daemon.name s.daemon.baseDir node.index node.objects node.disk, [], s.tmp, []⟩

/-- The pull has the file open. -/
def Orchestrator.AssemblyPc.isOpen : AssemblyPc → Bool
  | .truncate _ | .write .. | .close _ => true
  | _ => false

/-- The ID spells its path in the only way there is: proper names with single slashes. -/
def ProperID (fileID : GoString) : Prop :=
  ∃ names : List GoString, (∀ name ∈ names, IsName name) ∧ fileID = [separator].intercalate names

/-- The step writes something else than the data that the hash names into the temporary file. -/
def StoreCall.WritesOther (sha256 : Bytes → Hash) (call : StoreCall) (io : Io) : Prop :=
  call.pc = .writeFile ∧ (io = .ok → ¬ call.args.Matches sha256)

/-- Syncs are started for proper IDs, nobody else writes a file that a pull has open, and a
temporary file that a `Put` call is about to rename is not overwritten with anything but the data
that its hash names. -/
def SyncGuard (sha256 : Bytes → Hash) (s : Syncs) : SyncEvent → Prop
  | .trigger fileID => ProperID fileID
  | .io k io => ∀ call, s.puts[k]? = some call → call.WritesOther sha256 io →
      ∀ other ∈ s.puts, other.args.hash = call.args.hash → other.pc ≠ .rename
  | .edit path _ => ∀ sync ∈ s.syncs, ∀ pc, sync.pc = .pull pc → pc.isOpen = true →
      s.daemon.outFile sync ≠ path
  | .move _ _ | .put _ | .restart => True

/-! ## What a step of a sync does -/

/-- The steps of a sync, with what they need. -/
inductive SyncMoves (d : Daemon) (sync : Sync) : Daemon → SyncPc → Prop
  | skip (hpc : sync.pc = .loadOrStore) (hfile : sync.fileID ∈ d.syncing) :
      SyncMoves d sync d .done
  | start (hpc : sync.pc = .loadOrStore) (hfile : sync.fileID ∉ d.syncing) :
      SyncMoves d sync { d with syncing := sync.fileID :: d.syncing } .spawn
  | spawn (hpc : sync.pc = .spawn) : SyncMoves d sync d (.pull (.idle none))
  | assembly (now : Int) (event : AssemblyEvent) (pc next : AssemblyPc) (node : Node)
      (hpc : sync.pc = .pull pc)
      (hmove : AssemblyMoves (d.outFile sync) now d.node pc event node next) :
      SyncMoves d sync { d with node := node } (.pull next)
  | finish (last : Option (Except PullError Unit)) (hpc : sync.pc = .pull (.idle last)) :
      SyncMoves d sync d .delete
  | delete (hpc : sync.pc = .delete) :
      SyncMoves d sync { d with syncing := d.syncing.filter fun f => f ≠ sync.fileID } .done

variable {sha256 : Bytes → Hash} {d d' : Daemon} {sync : Sync} {pc : SyncPc} {s s' : Syncs}
  {event : SyncEvent}

theorem sync_move_moves {move : SyncMove} (h : syncMove d sync move = some (d', pc)) :
    SyncMoves d sync d' pc := by
  cases move with
  | loadOrStore =>
      simp only [syncMove] at h
      split at h
      · next hpc =>
          by_cases hfile : sync.fileID ∈ d.syncing
          · simp only [Daemon.triggerSync, hfile, if_true] at h
            cases h
            exact .skip hpc hfile
          · simp only [Daemon.triggerSync, hfile, if_false, if_true] at h
            cases h
            exact .start hpc hfile
      · cases h
  | spawn =>
      simp only [syncMove] at h
      split at h
      · next hpc =>
          cases h
          exact .spawn hpc
      · cases h
  | assembly now event =>
      simp only [syncMove] at h
      split at h
      · cases h
      · next pc _ hpc =>
          obtain ⟨⟨node, next⟩, hstep, heq⟩ := Option.map_eq_some_iff.mp h
          cases heq
          exact .assembly now event pc next node hpc (assembly_step_moves hstep)
      · cases h
  | finish =>
      simp only [syncMove] at h
      split at h
      · next last hpc =>
          cases h
          exact .finish last hpc
      · cases h
  | delete =>
      simp only [syncMove] at h
      split at h
      · next hpc =>
          cases h
          exact .delete hpc
      · cases h

/-- A step of a pull leaves the other files alone. -/
theorem Orchestrator.AssemblyMoves.disk_other {out path : GoString} {now : Int} {node node' : Node}
    {pc pc' : AssemblyPc} {event : AssemblyEvent}
    (h : AssemblyMoves out now node pc event node' pc') (hpath : path ≠ out) :
    node'.disk path = node.disk path := by
  cases h with
  | start | mark | close | store => rfl
  | create | truncate | write | fail => exact Function.update_of_ne hpath _ _

/-- A sync leaves the directory and the blobs alone, and all files but the one it holds. -/
theorem SyncMoves.frame (h : SyncMoves d sync d' pc) :
    d'.baseDir = d.baseDir ∧ d'.node.objects = d.node.objects ∧
      ∀ path, (sync.pc.holds = true → path ≠ d.outFile sync) →
        d'.node.disk path = d.node.disk path := by
  cases h with
  | skip | start | spawn | finish | delete => exact ⟨rfl, rfl, fun _ _ => rfl⟩
  | assembly now event pc next node hpc hmove =>
      refine ⟨rfl, hmove.frame.1, fun path hpath => hmove.disk_other (hpath ?_)⟩
      rw [hpc]
      rfl

/-- What a sync does to `syncing`, and to its own claim on it. -/
theorem SyncMoves.syncing (h : SyncMoves d sync d' pc) :
    (sync.pc.holds = pc.holds ∧ d'.syncing = d.syncing) ∨
      (sync.pc.holds = false ∧ pc.holds = true ∧ sync.fileID ∉ d.syncing ∧
        d'.syncing = sync.fileID :: d.syncing) ∨
      (sync.pc.holds = true ∧ pc.holds = false ∧
        d'.syncing = d.syncing.filter fun f => f ≠ sync.fileID) := by
  cases h with
  | skip hpc => exact .inl ⟨by rw [hpc]; rfl, rfl⟩
  | start hpc hfile => exact .inr (.inl ⟨by rw [hpc]; rfl, rfl, hfile, rfl⟩)
  | spawn hpc => exact .inl ⟨by rw [hpc]; rfl, rfl⟩
  | assembly now event pc next node hpc hmove => exact .inl ⟨by rw [hpc]; rfl, rfl⟩
  | finish last hpc => exact .inl ⟨by rw [hpc]; rfl, rfl⟩
  | delete hpc => exact .inr (.inr ⟨by rw [hpc]; rfl, rfl, rfl⟩)

/-! ## What holds in every state -/

/-- Proper IDs with one path are the same. -/
theorem out_path_inj {baseDir fileID other : GoString} (hbase : baseDir ≠ [])
    (hfile : ProperID fileID) (hother : ProperID other)
    (h : outPath baseDir fileID = outPath baseDir other) : fileID = other := by
  obtain ⟨names, hnames, rfl⟩ := hfile
  obtain ⟨others, hothers, rfl⟩ := hother
  have hclean := congrArg cleanNames h
  rw [outPath, outPath, clean_names_join_names hbase hnames,
    clean_names_join_names hbase hothers] at hclean
  rw [List.append_cancel_left hclean]

/-- The map `syncing` has exactly the files whose syncs are between `LoadOrStore` and `Delete`, no
two of them are for one file, and the file of each is as far as its pull is. The store is valid, and
so is what is about to be renamed into it. -/
structure SyncInv (sha256 : Bytes → Hash) (s : Syncs) : Prop where
  base : s.daemon.baseDir ≠ []
  valid : ValidObjects sha256 s.daemon.node.objects
  renames : ∀ call ∈ s.puts, call.pc = .rename → ∀ bytes,
    s.tmp call.args.hash = some bytes → sha256 bytes = call.args.hash
  proper : ∀ sync ∈ s.syncs, ProperID sync.fileID
  unique : s.syncs.Pairwise fun a b =>
    a.pc.holds = true → b.pc.holds = true → a.fileID ≠ b.fileID
  marked : ∀ fileID, fileID ∈ s.daemon.syncing ↔
    ∃ sync ∈ s.syncs, sync.fileID = fileID ∧ sync.pc.holds = true
  fills : ∀ sync ∈ s.syncs, ∀ pc, sync.pc = .pull pc →
    Fills sha256 (s.daemon.node.disk (s.daemon.outFile sync)) pc

theorem sync_inv_new {name baseDir : GoString} {index : BoltMetaStore}
    {objects tmp : Hash → Option Bytes} {disk : GoString → Option Bytes} (hbase : baseDir ≠ [])
    (hvalid : ValidObjects sha256 objects) :
    SyncInv sha256 ⟨.new name baseDir index objects disk, [], tmp, []⟩ where
  base := hbase
  valid := hvalid
  renames := nofun
  proper := nofun
  unique := .nil
  marked fileID := by simp [Daemon.new]
  fills := nofun

/-- One of the syncs and the others, which are the same after a step of it: while it holds its file
none of them does. -/
theorem exists_other_syncs (hs : SyncInv sha256 s) {k : Nat} (hsync : s.syncs[k]? = some sync) :
    ∃ others : List Sync, (∀ other, other ∈ s.syncs ↔ other = sync ∨ other ∈ others) ∧
      (∀ new other, other ∈ s.syncs.set k new ↔ other = new ∨ other ∈ others) ∧
      ∀ other ∈ others, sync.pc.holds = true → other.pc.holds = true →
        other.fileID ≠ sync.fileID := by
  obtain ⟨others, hold, hnew, hpairs⟩ := exists_others hsync
  refine ⟨others, hold, hnew, fun other hother hheld hholds => ?_⟩
  rcases hpairs _ hs.unique other hother with hne | hne
  · exact (hne hheld hholds).symm
  · exact hne hholds hheld

/-- No two syncs are for one file after a step of one of them. -/
theorem unique_move (hs : SyncInv sha256 s) {k : Nat} (hsync : s.syncs[k]? = some sync)
    (h : SyncMoves s.daemon sync d' pc) :
    (s.syncs.set k { sync with pc := pc }).Pairwise fun a b =>
      a.pc.holds = true → b.pc.holds = true → a.fileID ≠ b.fileID := by
  refine pairwise_set hs.unique hsync fun other hother => ?_
  rcases h.syncing with ⟨hsame, -⟩ | ⟨-, -, hfree, -⟩ | ⟨-, hfinished, -⟩
  · simp only [hsame]
    exact ⟨id, id⟩
  · -- whoever holds a file has it in the map
    have hdistinct (hholds : other.pc.holds = true) : other.fileID ≠ sync.fileID := by
      intro heq
      exact hfree ((hs.marked sync.fileID).mpr ⟨other, hother, heq, hholds⟩)
    exact ⟨fun _ _ hholds => (hdistinct hholds).symm, fun _ hholds _ => hdistinct hholds⟩
  · simp only [hfinished]
    exact ⟨nofun, nofun⟩

/-- The map has the files of the syncs that hold one after a step of one of them. -/
theorem marked_move (hs : SyncInv sha256 s) {k : Nat} (hsync : s.syncs[k]? = some sync)
    (h : SyncMoves s.daemon sync d' pc) (fileID : GoString) :
    fileID ∈ d'.syncing ↔ ∃ other ∈ s.syncs.set k { sync with pc := pc },
      other.fileID = fileID ∧ other.pc.holds = true := by
  obtain ⟨others, hold, hnew, hdistinct⟩ := exists_other_syncs hs hsync
  have hmarked := hs.marked fileID
  simp only [hold, hnew, exists_eq_or_imp] at hmarked ⊢
  rcases h.syncing with ⟨hsame, hmap⟩ | ⟨hfree, hholds, -, hmap⟩ | ⟨hheld, hfinished, hmap⟩
  · rw [hmap, hmarked, hsame]
  · have hcomm : fileID = sync.fileID ↔ sync.fileID = fileID := eq_comm
    rw [hmap, List.mem_cons, hmarked, hfree, hholds, hcomm]
    simp
  · rw [hmap, List.mem_filter, hmarked, hheld, hfinished]
    constructor
    · rintro ⟨⟨hfile, -⟩ | hother, hne⟩
      · simp [hfile] at hne
      · exact .inr hother
    · rintro (⟨-, hfalse⟩ | ⟨other, hother, rfl, hholds⟩)
      · cases hfalse
      · have hne := hdistinct other hother hheld hholds
        exact ⟨.inr ⟨other, hother, rfl, hholds⟩, by simpa using hne⟩

/-- The files are as far as their pulls are after a step of one sync. -/
theorem fills_move (hs : SyncInv sha256 s) {k : Nat} (hsync : s.syncs[k]? = some sync)
    (h : SyncMoves s.daemon sync d' pc) {other : Sync}
    (hother : other ∈ s.syncs.set k { sync with pc := pc }) {place : AssemblyPc}
    (hplace : other.pc = .pull place) :
    Fills sha256 (d'.node.disk (d'.outFile other)) place := by
  obtain ⟨hbase, -, hdisk⟩ := h.frame
  obtain ⟨others, hold, hnew, hdistinct⟩ := exists_other_syncs hs hsync
  have hmem : sync ∈ s.syncs := List.mem_of_getElem? hsync
  rcases (hnew _ other).mp hother with rfl | hrest
  · -- the sync that moved
    cases h with
    | assembly now event before next node hpc hmove =>
        cases hplace
        exact hmove.fills hs.valid (hs.fills sync hmem before hpc)
    | spawn =>
        cases hplace
        trivial
    | skip | start | finish | delete => cases hplace
  · have hother : other ∈ s.syncs := (hold other).mpr (.inr hrest)
    have hout : d'.outFile other = s.daemon.outFile other := by
      rw [Daemon.outFile, hbase, Daemon.outFile]
    rw [hout, hdisk]
    · exact hs.fills other hother place hplace
    · intro hheld heq
      have hholds : other.pc.holds = true := by rw [hplace]; rfl
      have hsame := out_path_inj hs.base (hs.proper other hother) (hs.proper sync hmem) heq
      exact hdistinct other hrest hheld hholds hsame

/-- A file that no pull has open may be anything. -/
theorem fills_of_not_open {pc : AssemblyPc} (h : pc.isOpen = false) (file : Option Bytes) :
    Fills sha256 file pc := by
  cases pc with
  | idle | mark | create | putMeta => trivial
  | truncate | write | close => cases h

/-- A new call holds nothing yet. -/
theorem sync_inv_trigger (hs : SyncInv sha256 s) {fileID : GoString} (hfile : ProperID fileID) :
    SyncInv sha256 { s with syncs := s.syncs ++ [⟨fileID, .loadOrStore⟩] } := by
  have hmem (sync : Sync) (hsync : sync ∈ s.syncs ++ [⟨fileID, .loadOrStore⟩]) :
      sync ∈ s.syncs ∨ sync = ⟨fileID, .loadOrStore⟩ :=
    (List.mem_append.mp hsync).imp_right List.mem_singleton.mp
  refine ⟨hs.base, hs.valid, hs.renames, fun sync hsync => ?_, ?_, fun file => ?_,
    fun sync hsync => ?_⟩
  · rcases hmem sync hsync with hold | rfl
    · exact hs.proper sync hold
    · exact hfile
  · refine List.pairwise_append.mpr ⟨hs.unique, List.pairwise_singleton _ _, ?_⟩
    intro a _ b hb _ hholds
    obtain rfl := List.mem_singleton.mp hb
    cases hholds
  · simp [hs.marked file, or_and_right, exists_or, SyncPc.holds]
  · rcases hmem sync hsync with hold | rfl
    · exact hs.fills sync hold
    · intro pc hpc
      cases hpc

/-- A step of a sync keeps the invariant. -/
theorem sync_inv_move (hs : SyncInv sha256 s) {k : Nat} (hsync : s.syncs[k]? = some sync)
    (h : SyncMoves s.daemon sync d' pc) :
    SyncInv sha256 { s with daemon := d', syncs := s.syncs.set k { sync with pc := pc } } := by
  obtain ⟨hbase, hobjects, -⟩ := h.frame
  refine ⟨?_, ?_, hs.renames, fun other hother => ?_, unique_move hs hsync h,
    marked_move hs hsync h, fun other hother place => fills_move hs hsync h hother⟩
  · rw [hbase]
    exact hs.base
  · rw [hobjects]
    exact hs.valid
  · rcases List.mem_or_eq_of_mem_set hother with hold | rfl
    · exact hs.proper other hold
    · exact hs.proper sync (List.mem_of_getElem? hsync)

/-- After a step of a `Put` call whoever is about to rename finds data that its hash names, the
call itself and the others. -/
theorem renames_step (hs : SyncInv sha256 s) {k : Nat} {io : Io}
    (hguard : SyncGuard sha256 s (.io k io)) {call : StoreCall}
    (hcall : s.puts[k]? = some call) {other : StoreCall}
    (hother : other ∈ s.puts.set k
      { call with pc := (putStep sha256 call.args io s.files call.pc).2 })
    (hrename : other.pc = .rename) {bytes : Bytes}
    (hbytes : (putStep sha256 call.args io s.files call.pc).1.tmp other.args.hash = some bytes) :
    sha256 bytes = other.args.hash := by
  rcases List.mem_or_eq_of_mem_set hother with hold | rfl
  · rcases put_step_tmp hbytes with hbefore | ⟨hhash, hwrites, hdata⟩
    · exact hs.renames other hold hrename bytes hbefore
    · by_cases hmatch : io = .ok ∧ call.args.Matches sha256
      · rw [hdata hmatch.1, hhash]
        exact hmatch.2
      · have hwrong : call.WritesOther sha256 io :=
          ⟨hwrites, fun hok hmatches => hmatch ⟨hok, hmatches⟩⟩
        exact absurd hrename (hguard call hcall hwrong other hold hhash)
  · obtain ⟨hmatch, hwritten⟩ := put_step_rename hrename
    obtain rfl := Option.some.inj (hwritten.symm.trans hbytes)
    exact hmatch

/-- Every step keeps the invariant. -/
theorem sync_inv_step (hs : SyncInv sha256 s) (hguard : SyncGuard sha256 s event)
    (h : syncStep sha256 s event = some s') : SyncInv sha256 s' := by
  cases event with
  | trigger fileID =>
      cases h
      exact sync_inv_trigger hs hguard
  | move k move =>
      obtain ⟨sync, hsync, h⟩ := Option.bind_eq_some_iff.mp h
      obtain ⟨⟨d', pc⟩, hmove, h⟩ := Option.bind_eq_some_iff.mp h
      cases h
      exact sync_inv_move hs hsync (sync_move_moves hmove)
  | put args =>
      cases h
      refine ⟨hs.base, hs.valid, fun call hcall => ?_, hs.proper, hs.unique, hs.marked, hs.fills⟩
      rcases List.mem_append.mp hcall with hold | hnew
      · exact hs.renames call hold
      · obtain rfl := List.mem_singleton.mp hnew
        exact nofun
  | io k io =>
      obtain ⟨call, hcall, h⟩ := Option.bind_eq_some_iff.mp h
      cases h
      have hvalid : ValidObjects sha256
          (putStep sha256 call.args io s.files call.pc).1.objects :=
        put_step_valid hs.valid (hs.renames call (List.mem_of_getElem? hcall))
      exact ⟨hs.base, hvalid, fun other hother hrename bytes =>
        renames_step hs hguard hcall hother hrename, hs.proper, hs.unique, hs.marked, hs.fills⟩
  | edit path file =>
      cases h
      refine ⟨hs.base, hs.valid, hs.renames, hs.proper, hs.unique, hs.marked,
        fun sync hsync pc hpc => ?_⟩
      cases hopen : pc.isOpen with
      | false => exact fills_of_not_open hopen _
      | true =>
          have hother := hguard sync hsync pc hpc hopen
          have hsame : (s.daemon.node.setFile path file).disk (s.daemon.outFile sync) =
              s.daemon.node.disk (s.daemon.outFile sync) := Function.update_of_ne hother _ _
          show Fills sha256 ((s.daemon.node.setFile path file).disk (s.daemon.outFile sync)) pc
          rw [hsame]
          exact hs.fills sync hsync pc hpc
  | restart =>
      cases h
      exact sync_inv_new hs.base hs.valid

/-! ## Every run -/

/-- **Concurrent syncs are kept apart.** However many calls of `triggerSync` there are, and however
they and their pulls interleave, also over restarts: no two pulls that have not returned are for one
path, `syncing` has exactly the files of these pulls, so that a call is turned away only while there
is one for its file, and a file that a pull is about to close is the version the pull has fetched.
IDs are proper here: `a` and `./a` are two keys of the map and one path. -/
theorem concurrent_syncs_kept_apart {name baseDir : GoString} {index : BoltMetaStore}
    {objects tmp : Hash → Option Bytes} {disk : GoString → Option Bytes} {events : List SyncEvent}
    (hbase : baseDir ≠ []) (hvalid : ValidObjects sha256 objects)
    (hrun : run (syncStep sha256) ⟨.new name baseDir index objects disk, [], tmp, []⟩ events =
      some s)
    (hguard : Along (syncStep sha256) (SyncGuard sha256)
      ⟨.new name baseDir index objects disk, [], tmp, []⟩ events) :
    (s.syncs.Pairwise fun a b => a.pc.holds = true → b.pc.holds = true →
      s.daemon.outFile a ≠ s.daemon.outFile b) ∧
    (∀ fileID, fileID ∈ s.daemon.syncing ↔
      ∃ sync ∈ s.syncs, sync.fileID = fileID ∧ sync.pc.holds = true) ∧
    ∀ sync ∈ s.syncs, ∀ m, sync.pc = .pull (.close m) →
      ∃ bytes, s.daemon.node.disk (s.daemon.outFile sync) = some bytes ∧
        IsVersion sha256 m bytes := by
  have hs : SyncInv sha256 s := run_invariant (SyncInv sha256) hrun hguard
    (sync_inv_new hbase hvalid) fun _ _ _ hs hevent hstep => sync_inv_step hs hevent hstep
  refine ⟨?_, hs.marked, fun sync hsync m hpc => hs.fills sync hsync _ hpc⟩
  refine hs.unique.imp_of_mem fun ha hb hdistinct hholds hholds' heq => ?_
  exact hdistinct hholds hholds' (out_path_inj hs.base (hs.proper _ ha) (hs.proper _ hb) heq)

/-- Two calls for one file and one for another: the second call for the first file is turned away,
and the pull of the first file gets to its end while the other one is waiting. Its chunk is put into
the store in the meantime. -/
theorem concurrent_syncs_kept_apart_three_calls :
    let m : FileMeta := ⟨ascii "a", .sample [7], 1, [.sample [7]], 1⟩
    let start : Syncs := ⟨.new (ascii "n") (ascii "dir") .empty (fun _ => none) (fun _ => none),
      [], fun _ => none, []⟩
    let events : List SyncEvent := [.trigger (ascii "a"), .trigger (ascii "a"),
      .trigger (ascii "b"), .move 1 .loadOrStore, .move 0 .loadOrStore, .move 2 .loadOrStore,
      .move 1 .spawn, .put ⟨.sample [7], [7]⟩, .io 0 .ok, .move 1 (.assembly 0 (.start m)),
      .io 0 .ok, .move 1 (.assembly 0 .mark), .io 0 .ok, .move 1 (.assembly 0 (.create true)),
      .move 1 (.assembly 0 (.truncate true)), .move 1 (.assembly 0 (.write true none))]
    ∃ s, run (syncStep .sample) start events = some s ∧
      s.syncs = [⟨ascii "a", .done⟩, ⟨ascii "a", .pull (.close m)⟩, ⟨ascii "b", .spawn⟩] ∧
      (∀ fileID, fileID ∈ s.daemon.syncing ↔
        ∃ sync ∈ s.syncs, sync.fileID = fileID ∧ sync.pc.holds = true) ∧
      ∃ bytes, s.daemon.node.disk (ascii "dir/a") = some bytes ∧ IsVersion .sample m bytes := by
  intro m start events
  obtain ⟨s, hrun, hsyncs, hdir⟩ : ∃ s, run (syncStep .sample) start events = some s ∧
      s.syncs = [⟨ascii "a", .done⟩, ⟨ascii "a", .pull (.close m)⟩, ⟨ascii "b", .spawn⟩] ∧
      s.daemon.baseDir = ascii "dir" := ⟨_, rfl, rfl, rfl⟩
  have hguard : Along (syncStep .sample) (SyncGuard .sample) start events := by
    have ha : ProperID (ascii "a") := ⟨[ascii "a"], by decide, rfl⟩
    have hb : ProperID (ascii "b") := ⟨[ascii "b"], by decide, rfl⟩
    -- the call writes what its hash names
    have hio (s : Syncs) (pc : PutPc) (hputs : s.puts = [⟨⟨.sample [7], [7]⟩, pc⟩]) :
        SyncGuard .sample s (.io 0 .ok) := by
      rintro call hcall ⟨-, hother⟩
      rw [hputs] at hcall
      cases hcall
      exact absurd rfl (hother rfl)
    exact ⟨ha, ha, hb, trivial, trivial, trivial, trivial, trivial, hio _ _ rfl, trivial,
      hio _ _ rfl, trivial, hio _ _ rfl, trivial, trivial, trivial, trivial⟩
  have hvalid : ValidObjects Hash.sample fun _ => none := nofun
  obtain ⟨-, hmarked, hversion⟩ := concurrent_syncs_kept_apart (by decide) hvalid hrun hguard
  refine ⟨s, hrun, hsyncs, hmarked, ?_⟩
  have hout : s.daemon.outFile ⟨ascii "a", .pull (.close m)⟩ = ascii "dir/a" := by
    rw [Daemon.outFile, hdir]
    decide
  rw [← hout]
  exact hversion _ (by rw [hsyncs]; simp) m rfl

end NuSync
