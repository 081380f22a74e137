import NuSync.Go.Url
import NuSync.Store.Meta

/-!
# Metadata requests

`Client.FetchMeta` of `internal/dataplane/client.go` against `Server.handleGetMeta` of
`internal/dataplane/server.go`. The client formats the raw file ID into the URL; the server
decodes the query and looks the result up. `requestedID` is the ID that arrives, and
`fetch_meta_names_file_iff` says for which IDs it is the one that was meant.
-/

namespace NuSync.Dataplane

open NuSync.Go NuSync.Store

/-- The errors of `FetchMeta` towards a server that is up and accepts the signature. -/
inductive FetchMetaError where
  | createRequest
  | httpStatus (code : Nat)
  deriving DecidableEq

/-- `Server.handleGetMeta` once the signature has been verified: the ID is the `id` parameter of
the request target's query. -/
def handleGetMeta (index : BoltMetaStore) (uri : GoString) : Option FileMeta :=
  index.getFileMeta (getParam (parseQuery (cut 0x3F uri).2) (ascii "id"))

/-- The part of the URL `http://%s/meta?id=%s` after the peer's address. -/
def metaTail (fileID : GoString) : GoString := ascii "/meta?id=" ++ fileID

/-- `Client.FetchMeta`. The record is encoded as JSON by the server and decoded again here. -/
def fetchMeta (index : BoltMetaStore) (fileID : GoString) : Except FetchMetaError FileMeta :=
  match requestURI (metaTail fileID) with
  | none => .error .createRequest
  | some uri =>
      match parseRequestLine (requestLine uri) with
      | none => .error (.httpStatus 400)
      | some uri =>
          match handleGetMeta index uri with
          | none => .error (.httpStatus 404)
          | some m => .ok m.json

/-- The bytes that reach the server's lookup as they are. -/
def isPlain (b : UInt8) : Bool :=
  !isCtl b && b != 0x20 && b != 0x23 && b != 0x25 && b != 0x26 && b != 0x2B && b != 0x3B

/-! ## The ID the server looks up -/

/-- The ID that reaches `GetFileMeta` on the server; `none` if no lookup happens. -/
def requestedID (fileID : GoString) : Option GoString := do
  let uri ← requestURI (metaTail fileID)
  let uri ← parseRequestLine (requestLine uri)
  pure (getParam (parseQuery (cut 0x3F uri).2) (ascii "id"))

/-- `FetchMeta` returns what the index holds under the requested ID. -/
theorem fetch_meta_ok_iff (index : BoltMetaStore) (fileID : GoString) (m : FileMeta) :
    fetchMeta index fileID = .ok m ↔
      ∃ id, requestedID fileID = some id ∧ index.getFileMeta id = some m := by
  unfold fetchMeta requestedID
  cases requestURI (metaTail fileID) with
  | none => simp
  | some uri =>
      cases hline : parseRequestLine (requestLine uri) with
      | none => simp [hline]
      | some target =>
          simp only [hline, handleGetMeta, Option.bind_eq_bind, Option.bind_some, pure]
          cases hget :
              index.getFileMeta (getParam (parseQuery (cut 0x3F target).2) (ascii "id")) with
          | none => simp [hget]
          | some found => simp [hget, BoltMetaStore.json_of_get hget]

/-- The same with the error of a file that is not there. -/
theorem fetch_meta_of_requested (index : BoltMetaStore) {fileID id : GoString}
    (h : requestedID fileID = some id) :
    fetchMeta index fileID = (index.getFileMeta id).elim (.error (.httpStatus 404)) .ok := by
  simp only [requestedID, Option.bind_eq_bind, Option.bind_eq_some_iff, pure,
    Option.some.injEq] at h
  obtain ⟨uri, huri, target, htarget, rfl⟩ := h
  simp only [fetchMeta, huri, htarget, handleGetMeta]
  cases hget : index.getFileMeta (getParam (parseQuery (cut 0x3F target).2) (ascii "id")) with
  | none => rfl
  | some m => simp only [BoltMetaStore.json_of_get hget, Option.elim_some]

/-- The requested ID is the parameter of what stands before the first `#`, which must have no
control bytes and no spaces. -/
theorem requested_id_eq_some {fileID id : GoString} :
    requestedID fileID = some id ↔
      (cut 0x23 fileID).1.any isCtl = false ∧
      (fragmentUnescape (cut 0x23 fileID).2).isSome ∧
      0x20 ∉ (cut 0x23 fileID).1 ∧
      getParam (parseQuery (ascii "id=" ++ (cut 0x23 fileID).1)) (ascii "id") = id := by
  unfold requestedID requestURI metaTail
  rw [cut_append (by decide)]
  generalize cut 0x23 fileID = parts
  obtain ⟨raw, fragment⟩ := parts
  have hctl : (ascii "/meta?id=" ++ raw).any isCtl = raw.any isCtl := by
    rw [List.any_append, show (ascii "/meta?id=").any isCtl = false by decide, Bool.false_or]
  have hspace : 0x20 ∈ ascii "/meta?id=" ++ raw ↔ 0x20 ∈ raw := by
    rw [List.mem_append, or_iff_right (by decide)]
  have hquery : (cut 0x3F (ascii "/meta?id=" ++ raw)).2 = ascii "id=" ++ raw := by
    rw [show ascii "/meta?id=" ++ raw = ascii "/meta" ++ 0x3F :: (ascii "id=" ++ raw) by
      simp [ascii], cut_append_cons (by decide)]
  simp only [hctl]
  by_cases hraw : raw.any isCtl
  · simp [hraw]
  by_cases hfragment : (fragmentUnescape fragment).isNone
  · simp_all
  rw [if_neg hraw, if_neg hfragment, Option.bind_eq_bind, Option.bind_some, parse_request_line]
  by_cases hsplit : 0x20 ∈ raw
  · simp [hspace, hsplit]
  · rw [if_neg (hspace.not.mpr hsplit), Option.bind_some, hquery]
    simp_all [Option.isSome_iff_ne_none]

/-- The parameter is no longer than what was formatted into the query. -/
theorem length_get_param_id (raw : GoString) :
    (getParam (parseQuery (ascii "id=" ++ raw)) (ascii "id")).length ≤ raw.length := by
  have hid : (ascii "id=" ++ raw).length = raw.length + 3 := by simp [ascii]
  have hkey : (ascii "id").length = 2 := by simp [ascii]
  rcases get_param_parse_query (ascii "id=" ++ raw) (ascii "id") with
    hempty | ⟨piece, hpiece, hpair⟩
  · simp [hempty]
  · have hpiece := (length_le_of_mem_split_on hpiece).1
    rcases length_parse_pair hpair with hempty | hlen
    · simp [hempty]
    · omega

/-- The parameter is as long as what was formatted into the query only if nothing in that is a
separator, an escape or a plus sign. -/
theorem special_not_mem_of_get_param {raw : GoString} (hne : raw ≠ [])
    (h : getParam (parseQuery (ascii "id=" ++ raw)) (ascii "id") = raw) :
    0x25 ∉ raw ∧ 0x26 ∉ raw ∧ 0x2B ∉ raw ∧ 0x3B ∉ raw := by
  rcases get_param_parse_query (ascii "id=" ++ raw) (ascii "id") with
    hempty | ⟨piece, hpiece, hpair⟩
  · exact absurd (h.symm.trans hempty) hne
  rw [h] at hpair
  have hlen := (length_parse_pair hpair).resolve_left hne
  have hid : (ascii "id=" ++ raw).length = raw.length + 3 := by simp [ascii]
  have hkey : (ascii "id").length = 2 := by simp [ascii]
  obtain ⟨_, hlt⟩ := length_le_of_mem_split_on hpiece
  -- an ampersand would leave every piece too short to hold the key and the value
  have hamp : (0x26 : UInt8) ∉ ascii "id=" ++ raw := fun hmem => by
    have := hlt hmem
    omega
  rw [List.splitOn_eq_singleton hamp, List.mem_singleton] at hpiece
  subst hpiece
  unfold parsePair at hpair
  split_ifs at hpair with hdrop
  rw [show ascii "id=" ++ raw = ascii "id" ++ 0x3D :: raw by simp [ascii],
    cut_append_cons (by decide)] at hpair
  simp only [bind, Option.bind_eq_some_iff, pure, Option.some.injEq, Prod.mk.injEq] at hpair
  obtain ⟨_, _, value, hvalue, _, heq⟩ := hpair
  rw [heq] at hvalue
  have hpercent : (0x25 : UInt8) ∉ raw := fun hmem =>
    absurd ((length_unescape hvalue).2 hmem) (lt_irrefl _)
  refine ⟨hpercent, fun hmem => hamp (List.mem_append_right _ hmem), fun hplus => ?_,
    fun hmem => hdrop (.inl (List.mem_append_right _ hmem))⟩
  rw [queryUnescape, unescape_of_not_mem hpercent, Option.some.injEq] at hvalue
  -- decoding leaves no plus sign behind
  rw [← hvalue] at hplus
  obtain ⟨b, -, hb⟩ := List.mem_map.mp hplus
  split_ifs at hb with hb'
  · cases hb
  · exact hb' hb

/-- A file ID reaches the lookup unchanged exactly if all its bytes are plain. -/
theorem requested_id_eq_iff (fileID : GoString) :
    requestedID fileID = some fileID ↔ ∀ b ∈ fileID, isPlain b := by
  rw [requested_id_eq_some]
  constructor
  · rintro ⟨hctl, -, hspace, hparam⟩
    have hhash : (0x23 : UInt8) ∉ fileID := fun hmem => by
      have := length_cut_fst_lt hmem
      have := length_get_param_id (cut 0x23 fileID).1
      rw [hparam] at this
      omega
    rw [cut_of_not_mem hhash] at hctl hspace hparam
    intro b hb
    obtain ⟨hpercent, hamp, hplus, hsemi⟩ :=
      special_not_mem_of_get_param (List.ne_nil_of_mem hb) hparam
    have hb' := List.any_eq_false.mp hctl b hb
    have hne {c : UInt8} (hc : c ∉ fileID) : b ≠ c := fun h => hc (h ▸ hb)
    simp [isPlain, hb', hne hspace, hne hhash, hne hpercent, hne hamp, hne hplus, hne hsemi]
  · intro h
    have hne {c : UInt8} (hc : isPlain c = false) : c ∉ fileID := fun hmem => by
      simp [h c hmem] at hc
    have hplain : fileID.any isSpecial = false := by
      rw [List.any_eq_false]
      intro b hb hspecial
      have hb' := h b hb
      simp only [isPlain, Bool.and_eq_true, bne_iff_ne] at hb'
      simp [isSpecial, hb'] at hspecial
    have hparam : getParam (parseQuery (ascii "id" ++ 0x3D :: fileID)) (ascii "id") = fileID :=
      get_param_of_plain (by decide) (by decide) hplain
    rw [cut_of_not_mem (hne (by decide))]
    refine ⟨?_, rfl, hne (by decide), ?_⟩
    · rw [List.any_eq_false]
      intro b hb hctl
      simpa [isPlain, hctl] using h b hb
    · rwa [show ascii "id=" ++ fileID = ascii "id" ++ 0x3D :: fileID by simp [ascii]]

/-- `FetchMeta` returns the entry stored under the requested file ID, and no other entry, for
every index of the server, exactly if all bytes of the ID are plain. -/
theorem fetch_meta_names_file_iff (fileID : GoString) :
    (∀ index : BoltMetaStore,
      (∀ m, index.getFileMeta fileID = some m → fetchMeta index fileID = .ok m) ∧
      (∀ m, fetchMeta index fileID = .ok m → index.getFileMeta fileID = some m)) ↔
      ∀ b ∈ fileID, isPlain b := by
  rw [← requested_id_eq_iff]
  simp only [fetch_meta_ok_iff]
  constructor
  · intro h
    -- an index that holds only this file
    let m : FileMeta := ⟨fileID, .zero, 0, [], 0⟩
    obtain ⟨id, hid, hget⟩ := (h (BoltMetaStore.empty.set m)).1 m.json
      (BoltMetaStore.get_set_self _ m)
    by_cases heq : id = fileID
    · exact heq ▸ hid
    · rw [BoltMetaStore.get_set_of_ne _ m heq] at hget
      cases hget
  · intro h index
    refine ⟨fun m hget => ⟨fileID, h, hget⟩, ?_⟩
    rintro m ⟨id, hid, hget⟩
    rwa [Option.some.inj (h.symm.trans hid)]

/-- A server with the files `a` and `a#b` answers a request for the second with the first. -/
theorem fetch_meta_hash_sign :
    let a : FileMeta := ⟨ascii "a", .zero, 1, [], 0⟩
    let b : FileMeta := ⟨ascii "a#b", .zero, 2, [], 0⟩
    let index := (BoltMetaStore.empty.set a).set b
    index.getFileMeta (ascii "a#b") = some b ∧ fetchMeta index (ascii "a#b") = .ok a := by
  intro a b index
  have hb : index.getFileMeta b.fileID = some b :=
    BoltMetaStore.get_set_valid _ (show ValidUtf8 b.fileID by decide)
  have ha : index.getFileMeta a.fileID = some a :=
    (BoltMetaStore.get_set_of_ne _ b (show a.fileID ≠ b.fileID by decide)).trans
      (BoltMetaStore.get_set_valid _ (show ValidUtf8 a.fileID by decide))
  have hid : requestedID (ascii "a#b") = some (ascii "a") := by
    rw [requested_id_eq_some]
    decide
  exact ⟨hb, (fetch_meta_ok_iff _ _ _).mpr ⟨_, hid, ha⟩⟩

end NuSync.Dataplane
