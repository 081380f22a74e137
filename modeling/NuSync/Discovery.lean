import NuSync.Go.Bytes

/-!
# Cluster members and announcements

The data types of `internal/discovery/gossip.go`. Membership itself is kept by `memberlist`,
which is not part of the repository: a peer list is an argument wherever the code asks for one.
-/

namespace NuSync.Discovery

open NuSync.Go

/-- `discovery.FileAnnouncement`. -/
structure FileAnnouncement where
  fileID : GoString
  merkleRoot : Hash
  lamportTS : UInt64
  sourceNode : GoString
  deriving DecidableEq

/-- `discovery.PeerInfo`. -/
structure PeerInfo where
  name : GoString
  addr : GoString
  httpPort : UInt16
  grpcPort : UInt16
  deriving DecidableEq

/-- `fmt.Sprintf("%s:%d", addr, port)`. -/
def hostPort (addr : GoString) (port : UInt16) : GoString :=
  addr ++ ascii ":" ++ ascii (toString port.toNat)

/-- `PeerInfo.HTTPAddr`. -/
def PeerInfo.httpAddr (peer : PeerInfo) : GoString := hostPort peer.addr peer.httpPort

/-- `PeerInfo.GRPCAddr`. -/
def PeerInfo.grpcAddr (peer : PeerInfo) : GoString := hostPort peer.addr peer.grpcPort

end NuSync.Discovery
