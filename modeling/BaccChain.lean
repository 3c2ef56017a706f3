import BaccChain.Properties.AgeConservation
import BaccChain.Properties.VoteTotals
import BaccChain.Properties.Release
import BaccChain.Properties.RamConsent
import BaccChain.Properties.Finality
import BaccChain.Properties.UsedKeys
import BaccChain.Properties.Watermarks
import BaccChain.Properties.ScheduleVersions
import BaccChain.Properties.Admission
import BaccChain.Properties.NameLists
import BaccChain.Properties.TokenLocks
import BaccChain.Properties.Election
import BaccChain.Properties.ConfirmationWindow
import BaccChain.Properties.Pruning
import BaccChain.Properties.BftNumbers
import BaccChain.Properties.ActorLists
import BaccChain.Properties.Sessions
import BaccChain.Properties.PermissionForest
import BaccChain.Properties.PermissionLinks
import BaccChain.Properties.PermissionRam
import BaccChain.Properties.CodeRam
import BaccChain.Properties.DeferredLedger
import BaccChain.Properties.BandwidthLedger
import BaccChain.Properties.PawnBacking
import BaccChain.Properties.ContractRam
import BaccChain.Properties.ElasticLimits
import BaccChain.Properties.LimitQueries
import BaccChain.Properties.SnapshotHead
import BaccChain.Properties.SnapshotRoundTrip
import BaccChain.Properties.Multisig
import BaccChain.Properties.SignatureCache
import BaccChain.Properties.BlockLogFiles
import BaccChain.Properties.StaticRedeem
import BaccChain.Properties.RevotedRewards
import BaccChain.Properties.BlockReward
