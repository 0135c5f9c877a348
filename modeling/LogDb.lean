import LogDb.Recovery.Idempotent
import LogDb.Recovery.Damaged
import LogDb.Recovery.MissingKey
import LogDb.Pipeline.LoopExit
import LogDb.Reader.SavedIndex
import LogDb.Database.Truncation
import LogDb.Database.Bases
import LogDb.Database.Visible
import LogDb.Database.AtMostOnce
import LogDb.Pipeline.QueueFull
import LogDb.Database.RecordFits
import LogDb.Tailer.ExactlyOnce
import LogDb.Pipeline.ReplicateSafe
import LogDb.Pipeline.SelfHealing
import LogDb.Database.HashSetting
import LogDb.Broker.Offsets
import LogDb.Broker.Election
import LogDb.Broker.Follow
import LogDb.Broker.Forward
import LogDb.Daemon.CatalogStable
import LogDb.Daemon.OnDisk
import LogDb.Daemon.Query
import LogDb.Daemon.QueryEngine
import LogDb.Daemon.SeqMapFile
import LogDb.Daemon.Subscribe
import LogDb.Daemon.Deletion
import LogDb.Daemon.QuotaRace
import LogDb.Daemon.StreamScan
import LogDb.Daemon.VerifyChain
import LogDb.Tailer.CaughtUp
import LogDb.Database.CheckpointFile
import LogDb.Pipeline.ShardMap
import LogDb.Pipeline.VerifyChain
import LogDb.Broker.Reconnect
import LogDb.Daemon.SeqMapSound
import LogDb.Daemon.Snapshot
import LogDb.Storage.TimeRange
