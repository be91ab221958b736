import SparkRing.PostingBounds
import SparkRing.TeardownAgreement
import SparkRing.ArenaProof
import SparkRing.RolloutRecovery
import SparkRing.RolloutRecords
import SparkRing.AdmissionSafety
import SparkRing.ChannelFinish
import SparkRing.RoutePairing
import SparkRing.RolloutStarts
import SparkRing.LeaseRuns
import SparkRing.ReplicaRetries
import SparkRing.ReplicaCredits
import SparkRing.FlightSharing
import SparkRing.PlacementSafety
import SparkRing.DeployDrift
import SparkRing.RelaySafety
import SparkRing.SnapshotSafety
import SparkRing.CommSafety
import SparkRing.SnapshotHistory
import SparkRing.SnapshotCapacity
import SparkRing.PlacedCheckSafety
import SparkRing.RecoveryRearming
import SparkRing.RecoveryWatching
import SparkRing.ReleasedBytes
import SparkRing.ReleaseRepeats
import SparkRing.EnginePlans
import SparkRing.ContextPrefixes
import SparkRing.FrameFaults
import SparkRing.SessionDeadlock
import SparkRing.BrokerLoss
import SparkRing.SplitSafety
import SparkRing.TeardownSafety
import SparkRing.NativeClose
import SparkRing.NcclAgreement
import SparkRing.RelayFill
import SparkRing.SpreadSafety
import SparkRing.PlanPartitions
import SparkRing.ReceiveSizes
import SparkRing.EventTrace
import SparkRing.ArenaWords
import SparkRing.SetupAgreement
