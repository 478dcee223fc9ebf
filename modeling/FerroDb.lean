import FerroDb.Cluster.Safety
import FerroDb.Cluster.Spool
import FerroDb.Cluster.LogHistory
import FerroDb.Cluster.Grants
import FerroDb.Cluster.PreVote
import FerroDb.Cluster.Membership
import FerroDb.Cluster.FrameReader
import FerroDb.Agent.Escrow
import FerroDb.Provenance.Revert
import FerroDb.Storage.TupleCodec
import FerroDb.Storage.Allocator
import FerroDb.Branch.CatalogAgree
import FerroDb.Tel.OneSided
import FerroDb.Replication.Feed
import FerroDb.Branch.Pins
import FerroDb.Branch.TreeKeys
import FerroDb.Branch.FaultyAppend
import FerroDb.Branch.GroupCommit
import FerroDb.Branch.Reaper
import FerroDb.Branch.RecordCodec
import FerroDb.Cow.WriteBuffer
import FerroDb.Cow.NodeBytes
import FerroDb.Cow.ChunkLaws
import FerroDb.Cow.Rolling
import FerroDb.Cow.Scan
