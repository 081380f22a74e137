import NuSync.Dataplane.Reply
import NuSync.Discovery
import NuSync.Orchestrator.Pull

/-!
# What the gossip layer carries

`internal/discovery/gossip.go` around `memberlist`: an announcement is broadcast as JSON and
decoded by the delegate of every other member, and a member advertises its two ports as four bytes
of node metadata. `memberlist` delivers messages and metadata as they are; who receives what and
when is not decided here. From the list of peers `Engine.Pull` makes a map from control addresses to
data-plane addresses, and `active_peers_addresses_together` says that it mixes no two members up.

The module ends with what holds of messages that nobody in the cluster sent: whatever bytes arrive
over gossip or as the body of a reply, the names in what is decoded are valid UTF-8.
-/

namespace NuSync.Discovery

open NuSync.Go NuSync.Go.Json

/-! ## Announcements -/

namespace FileAnnouncement

/-- The value `json.Marshal` makes of an announcement. -/
def toJson (ann : FileAnnouncement) : Json := .obj
  [(ascii "FileID", .str ann.fileID), (ascii "MerkleRoot", ofHash ann.merkleRoot),
    (ascii "LamportTS", ofNat ann.lamportTS.toNat), (ascii "SourceNode", .str ann.sourceNode)]

/-- The zero value `FileAnnouncement{}`. -/
def zero : FileAnnouncement := ⟨[], .zero, 0, []⟩

/-- The fields of the struct. -/
def fields : List (StructField FileAnnouncement) :=
  [.ofType "FileID" decodeString (fun st => st.fileID) fun st fileID => { st with fileID },
    .ofType "MerkleRoot" decodeHash (fun st => st.merkleRoot)
      fun st merkleRoot => { st with merkleRoot },
    .ofType "LamportTS" decodeUint64 (fun st => st.lamportTS)
      fun st lamportTS => { st with lamportTS },
    .ofType "SourceNode" decodeString (fun st => st.sourceNode)
      fun st sourceNode => { st with sourceNode }]

/-- The announcement after JSON. -/
def json (ann : FileAnnouncement) : FileAnnouncement :=
  { ann with fileID := jsonString ann.fileID, sourceNode := jsonString ann.sourceNode }

/-- An announcement is read back as JSON keeps it. -/
theorem reads_announcement (ann : FileAnnouncement) :
    Reads (decodeStruct fields) ann.toJson ann.json := fun old => by
  rw [toJson, reread, decodeStruct]
  refine (decode_members_cons "FileID" (by decide) rfl
    (decode_of_type (reads_string _ _)) _).trans ?_
  refine (decode_members_cons "MerkleRoot" (by decide) rfl
    (decode_of_type (reads_hash _ _)) _).trans ?_
  refine (decode_members_cons "LamportTS" (by decide) rfl
    (decode_of_type (reads_uint64 _ _)) _).trans ?_
  refine (decode_members_cons "SourceNode" (by decide) rfl
    (decode_of_type (reads_string _ _)) _).trans ?_
  rw [rereadMembers, decodeMembers]
  rfl

theorem fits_to_json (ann : FileAnnouncement) (depth : Nat) : Fits (depth + 2) ann.toJson := by
  intro member hmember
  simp only [List.mem_cons, List.not_mem_nil, or_false] at hmember
  rcases hmember with rfl | rfl | rfl | rfl
  · exact fits_str _ _
  · exact fits_of_hash _ _
  · exact fits_of_nat _ _
  · exact fits_str _ _

end FileAnnouncement

/-- The message `Broadcast` queues. -/
def broadcast (ann : FileAnnouncement) : Bytes := ann.toJson.marshal

/-- `handleMsg`: the announcement the callback is called with, if it is called. -/
def handleMsg (msg : Bytes) : Option FileAnnouncement :=
  (Json.unmarshal msg).bind (decodeStruct FileAnnouncement.fields .zero)

/-- `portDelegate.NotifyMsg`: an empty message is dropped. -/
def notifyMsg (msg : Bytes) : Option FileAnnouncement := if msg = [] then none else handleMsg msg

/-- The names in what is decoded are as JSON keeps them. -/
theorem keeps_announcement : Keeps (decodeStruct FileAnnouncement.fields)
    fun ann => ValidUtf8 ann.fileID ∧ ValidUtf8 ann.sourceNode := by
  refine keeps_struct fun f hf => ?_
  simp only [FileAnnouncement.fields, List.mem_cons, List.not_mem_nil, or_false] at hf
  rcases hf with rfl | rfl | rfl | rfl
  · exact keeps_field_of_type _ keeps_string (fun _ h => h.1) fun _ _ h hx => ⟨hx, h.2⟩
  · exact keeps_field _ fun _ _ h => h
  · exact keeps_field _ fun _ _ h => h
  · exact keeps_field_of_type _ keeps_string (fun _ h => h.2) fun _ _ h hx => ⟨h.1, hx⟩

theorem handle_msg_broadcast (ann : FileAnnouncement) :
    handleMsg (broadcast ann) = some ann.json := by
  rw [handleMsg, broadcast, Json.unmarshal_marshal (ann.fits_to_json 9998), Option.bind_some]
  exact FileAnnouncement.reads_announcement ann .zero

theorem broadcast_ne_nil (ann : FileAnnouncement) : broadcast ann ≠ [] := by
  rw [broadcast, FileAnnouncement.toJson, marshal]
  exact List.cons_ne_nil _ _

/-- Every announcement that is broadcast reaches the callback of a member that gets the message,
with the names as JSON keeps them and everything else as it was. -/
theorem broadcast_arrives (ann : FileAnnouncement) : notifyMsg (broadcast ann) = some ann.json := by
  rw [notifyMsg, if_neg (broadcast_ne_nil ann), handle_msg_broadcast]

/-! ## Ports -/

/-- A node as it was started: its name, the address `memberlist` has for it, and its ports, which
are Go `int`s. -/
structure NodeConfig where
  name : GoString
  addr : GoString
  httpPort : Int
  grpcPort : Int

/-- A member as `memberlist` reports it. -/
structure Member where
  name : GoString
  addr : GoString
  metadata : Bytes

/-- `uint16(port)`. -/
def toUint16 (port : Int) : Nat := (port % 65536).toNat

/-- `binary.BigEndian.PutUint16`. -/
def putUint16 (n : Nat) : Bytes := [UInt8.ofNat (n / 256), UInt8.ofNat (n % 256)]

/-- `binary.BigEndian.Uint16`. -/
def readUint16 (high low : UInt8) : UInt16 := UInt16.ofNat (high.toNat * 256 + low.toNat)

/-- `portDelegate.NodeMeta`. -/
def NodeConfig.nodeMeta (node : NodeConfig) : Bytes :=
  putUint16 (toUint16 node.httpPort) ++ putUint16 (toUint16 node.grpcPort)

/-- The member other nodes see. -/
def NodeConfig.member (node : NodeConfig) : Member := ⟨node.name, node.addr, node.nodeMeta⟩

/-- The peer that the loop of `GetActivePeers` adds for a member: the node itself and members
without four bytes of metadata are left out. -/
def peerOf (self : GoString) (member : Member) : Option PeerInfo :=
  if member.name = self then none
  else
    match member.metadata with
    | [h1, h2, g1, g2] => some ⟨member.name, member.addr, readUint16 h1 h2, readUint16 g1 g2⟩
    | _ => none

/-- `GetActivePeers`. -/
def getActivePeers (self : GoString) (members : List Member) : List PeerInfo :=
  members.filterMap (peerOf self)

/-- A port number as the operating system takes it. -/
def IsPort (port : Int) : Prop := 0 ≤ port ∧ port < 65536

/-- A port is read back from its two bytes. -/
theorem read_put_uint16 {port : Int} (h : IsPort port) :
    (readUint16 (UInt8.ofNat (toUint16 port / 256)) (UInt8.ofNat (toUint16 port % 256))).toNat =
      port.toNat := by
  obtain ⟨hlow, hhigh⟩ := h
  have hport : toUint16 port = port.toNat := by
    unfold toUint16
    omega
  have hlt : port.toNat < 65536 := by omega
  rw [hport, readUint16, to_nat_byte (show port.toNat / 256 < 256 by omega),
    to_nat_byte (show port.toNat % 256 < 256 by omega), UInt16.toNat_ofNat_of_lt' (by
      show port.toNat / 256 * 256 + port.toNat % 256 < 65536
      omega)]
  omega

/-- What a member's metadata says about it. -/
theorem peer_of_member {node : NodeConfig} {self : GoString} (hname : node.name ≠ self)
    (hhttp : IsPort node.httpPort) (hgrpc : IsPort node.grpcPort) :
    ∃ peer, peerOf self node.member = some peer ∧ peer.name = node.name ∧
      peer.addr = node.addr ∧ (peer.httpPort.toNat : Int) = node.httpPort ∧
      (peer.grpcPort.toNat : Int) = node.grpcPort := by
  refine ⟨_, if_neg hname, rfl, rfl, ?_, ?_⟩
  · rw [read_put_uint16 hhttp, Int.toNat_of_nonneg hhttp.1]
  · rw [read_put_uint16 hgrpc, Int.toNat_of_nonneg hgrpc.1]

/-- A node sees every other member, with its address and its ports. -/
theorem active_peers_eq (self : GoString) (nodes : List NodeConfig)
    (hports : ∀ node ∈ nodes, IsPort node.httpPort ∧ IsPort node.grpcPort) :
    (getActivePeers self (nodes.map NodeConfig.member)).map
        (fun peer => (⟨peer.name, peer.addr, peer.httpPort.toNat, peer.grpcPort.toNat⟩ :
          NodeConfig)) =
      nodes.filter fun node => node.name ≠ self := by
  induction nodes with
  | nil => rfl
  | cons node nodes ih =>
      obtain ⟨⟨hhttp, hgrpc⟩, hrest⟩ := List.forall_mem_cons.mp hports
      have ih := ih hrest
      by_cases hself : node.name = self
      · have hnone : peerOf self node.member = none := if_pos hself
        rw [List.filter_cons_of_neg (by simp [hself]), ← ih, getActivePeers, List.map_cons,
          List.filterMap_cons_none hnone]
        rfl
      · obtain ⟨peer, hpeer, hname, haddr, hdata, hcontrol⟩ := peer_of_member hself hhttp hgrpc
        rw [List.filter_cons_of_pos (by simp [hself]), getActivePeers, List.map_cons,
          List.filterMap_cons_some hpeer, List.map_cons, ← ih, hname, haddr, hdata, hcontrol]
        rfl

/-! ### Addresses as text -/

theorem digit_bounds {n : Nat} {c : Char} (h : c ∈ Nat.toDigits 10 n) :
    48 ≤ c.toNat ∧ c.toNat ≤ 57 := by
  have hdigit := Nat.isDigit_of_mem_toDigits (by omega) (by omega) h
  simpa [Char.isDigit, UInt32.le_iff_toNat_le] using hdigit

theorem ascii_repr (n : Nat) :
    ascii (toString n) = (Nat.toDigits 10 n).map fun c => c.toNat.toUInt8 := by
  show ascii n.repr = _
  rw [ascii, Nat.toList_repr]

/-- The digits of a port can be read back. -/
theorem ascii_repr_inj {m n : Nat} (h : ascii (toString m) = ascii (toString n)) : m = n := by
  have hback (k : Nat) : (ascii (toString k)).map (fun b => Char.ofNat b.toNat) =
      Nat.toDigits 10 k := by
    rw [ascii_repr, List.map_map]
    refine (List.map_congr_left fun c hc => ?_).trans (List.map_id _)
    have hsmall : c.toNat % 256 = c.toNat := by
      have := digit_bounds hc
      omega
    simp [hsmall]
  have hdigits : Nat.toDigits 10 m = Nat.toDigits 10 n := by rw [← hback m, h, hback n]
  refine Nat.repr_injective (String.toList_inj.mp ?_)
  rw [Nat.toList_repr, Nat.toList_repr, hdigits]

theorem colon_not_mem_port (n : Nat) : (0x3A : UInt8) ∉ ascii (toString n) := by
  rw [ascii_repr]
  intro hcolon
  obtain ⟨c, hc, heq⟩ := List.mem_map.mp hcolon
  obtain ⟨hlow, hhigh⟩ := digit_bounds hc
  have hbyte : c.toNat % 256 = 58 := by simpa using congrArg UInt8.toNat heq
  omega

/-- The port stands behind the last colon, so an address has one port and one host. -/
theorem host_port_inj {addr other : GoString} {port otherPort : UInt16}
    (h : hostPort addr port = hostPort other otherPort) : addr = other ∧ port = otherPort := by
  have hreversed := congrArg (fun s => cut 0x3A s.reverse) h
  have hcut (addr : GoString) (port : UInt16) : cut 0x3A (hostPort addr port).reverse =
      ((ascii (toString port.toNat)).reverse, addr.reverse) := by
    have hcolon : (0x3A : UInt8) ∉ (ascii (toString port.toNat)).reverse := by
      simpa using colon_not_mem_port port.toNat
    rw [hostPort, List.reverse_append, List.reverse_append]
    exact cut_append_cons hcolon addr.reverse
  simp only [hcut, Prod.mk.injEq, List.reverse_inj] at hreversed
  exact ⟨hreversed.2, UInt16.toNat_inj.mp (ascii_repr_inj hreversed.1)⟩

/-- **The addresses of a member stay together.** If the members were started with port numbers, and
no two with the same control address, a node's list of peers has every other member, once and with
its own address and ports, and the map that `Pull` makes of the list takes the control address of
each to its own data-plane address. -/
theorem active_peers_addresses_together (self : GoString) (nodes : List NodeConfig)
    (hports : ∀ node ∈ nodes, IsPort node.httpPort ∧ IsPort node.grpcPort)
    (hdistinct : (nodes.map fun node => (node.addr, node.grpcPort)).Nodup) :
    let peers := getActivePeers self (nodes.map NodeConfig.member)
    peers.map (fun peer => (⟨peer.name, peer.addr, peer.httpPort.toNat, peer.grpcPort.toNat⟩ :
        NodeConfig)) = (nodes.filter fun node => node.name ≠ self) ∧
      ∀ peer ∈ peers, Orchestrator.grpcToHTTP peers peer.grpcAddr = some peer.httpAddr := by
  intro peers
  have hpeers := active_peers_eq self nodes hports
  refine ⟨hpeers, fun peer hpeer => Orchestrator.grpc_to_http_of_nodup ?_ hpeer⟩
  -- the pairs of address and port are those of the members, and a pair is its text
  have hpairs : (peers.map fun peer => (peer.addr, (peer.grpcPort.toNat : Int))).Nodup := by
    have hmap := congrArg (List.map fun node : NodeConfig => (node.addr, node.grpcPort)) hpeers
    rw [List.map_map] at hmap
    have hsub := (List.filter_sublist (p := fun node => decide (node.name ≠ self))
      (l := nodes)).map fun node => (node.addr, node.grpcPort)
    exact hmap ▸ hsub.nodup hdistinct
  refine List.Nodup.map_on (fun x hx y hy heq => ?_) hpairs.of_map
  obtain ⟨haddr, hport⟩ := host_port_inj heq
  exact List.inj_on_of_nodup_map hpairs hx hy (by rw [haddr, hport])

/-- A node that looks for its peers in a cluster of three. -/
def sampleNodes : List NodeConfig :=
  [⟨ascii "a", ascii "10.0.0.1", 9100, 9000⟩, ⟨ascii "b", ascii "10.0.0.2", 9101, 65535⟩,
    ⟨ascii "c", ascii "10.0.0.1", 0, 80⟩]

theorem active_peers_addresses_together_sample :
    let peers := getActivePeers (ascii "b") (sampleNodes.map NodeConfig.member)
    peers.map PeerInfo.httpAddr = [ascii "10.0.0.1:9100", ascii "10.0.0.1:0"] ∧
      ∀ peer ∈ peers, Orchestrator.grpcToHTTP peers peer.grpcAddr = some peer.httpAddr := by
  refine ⟨by decide, (active_peers_addresses_together (ascii "b") sampleNodes ?_ (by decide)).2⟩
  intro node hnode
  simp only [sampleNodes, List.mem_cons, List.not_mem_nil, or_false] at hnode
  rcases hnode with rfl | rfl | rfl <;> simp [IsPort]

end NuSync.Discovery

namespace NuSync

open Go Go.Json Store Dataplane Discovery

/-! ## Messages from anyone -/

theorem keeps_file_meta :
    Keeps (decodeStruct FileMeta.fields) fun st => ValidUtf8 st.1.fileID := by
  refine keeps_struct fun f hf => ?_
  simp only [FileMeta.fields, List.mem_cons, List.not_mem_nil, or_false] at hf
  rcases hf with rfl | rfl | rfl | rfl | rfl
  · exact keeps_field_of_type _ keeps_string (fun _ h => h) fun _ _ _ hx => hx
  all_goals exact keeps_field _ fun _ _ h => h

theorem keeps_catalog_entry :
    Keeps (decodeStruct CatalogEntry.fields) fun entry => ValidUtf8 entry.fileID := by
  refine keeps_struct fun f hf => ?_
  simp only [CatalogEntry.fields, List.mem_cons, List.not_mem_nil, or_false] at hf
  rcases hf with rfl | rfl | rfl
  · exact keeps_field_of_type _ keeps_string (fun _ h => h) fun _ _ _ hx => hx
  all_goals exact keeps_field _ fun _ _ h => h

/-- Whatever bytes arrive, as a gossip message, as the body of a metadata reply or as the body of
a catalog reply, and whoever sent them: the names in what is decoded are valid UTF-8, so the copy
of a file ID that the index keeps in a record is the key it keeps it under. -/
theorem received_names_valid (bytes : Bytes) :
    (∀ ann, notifyMsg bytes = some ann → ValidUtf8 ann.fileID ∧ ValidUtf8 ann.sourceNode) ∧
    (∀ m, decodeMeta bytes = some m → ValidUtf8 m.fileID) ∧
    ∀ entries, decodeCatalog bytes = some entries → ∀ entry ∈ entries, ValidUtf8 entry.fileID := by
  refine ⟨?_, ?_, ?_⟩
  · intro ann h
    unfold notifyMsg at h
    split_ifs at h
    obtain ⟨v, hv, hdecode⟩ := Option.bind_eq_some_iff.mp h
    exact keeps_announcement .zero v ann ⟨rfl, rfl⟩ (unmarshal_reread hv) hdecode
  · intro m h
    obtain ⟨v, hv, hdecode⟩ := Option.bind_eq_some_iff.mp h
    obtain ⟨st, hst, rfl⟩ := Option.map_eq_some_iff.mp hdecode
    exact keeps_file_meta (.zero, []) v st rfl (decode_first_reread hv) hst
  · intro entries h
    obtain ⟨v, hv, hdecode⟩ := Option.bind_eq_some_iff.mp h
    obtain ⟨⟨xs, hidden⟩, hslice, rfl⟩ := Option.map_eq_some_iff.mp hdecode
    exact forall_mem_slice keeps_catalog_entry (show ValidUtf8 [] from rfl)
      (decode_first_reread hv) hslice

theorem received_names_valid_broadcast :
    ValidUtf8 (FileAnnouncement.json ⟨[0x61, 0xFF], .zero, 1, [0xC0]⟩).fileID := by
  have hmsg : notifyMsg (broadcast ⟨[0x61, 0xFF], .zero, 1, [0xC0]⟩) =
      some (FileAnnouncement.json ⟨[0x61, 0xFF], .zero, 1, [0xC0]⟩) := by
    rw [notifyMsg, if_neg (broadcast_ne_nil _), handle_msg_broadcast]
  exact ((received_names_valid _).1 _ hmsg).1

end NuSync
