import IcilOrchestrator.VerifySound
import IcilOrchestrator.VerifyTotal
import IcilOrchestrator.ShortWrites
import IcilOrchestrator.Publish
import IcilOrchestrator.DaemonTakes
import IcilOrchestrator.RemoteInStep
import IcilOrchestrator.Rounds
import IcilOrchestrator.Score
import IcilOrchestrator.RecvSafe
import IcilOrchestrator.IntakeFraming
import IcilOrchestrator.Journals
import IcilOrchestrator.Deadlines
import IcilOrchestrator.Orphans
import IcilOrchestrator.HandRuns
import IcilOrchestrator.Lineage
import IcilOrchestrator.IntakeChunks
import IcilOrchestrator.Units
import IcilOrchestrator.Checkout
import IcilOrchestrator.MirrorLayout
import IcilOrchestrator.SubmissionImage
import IcilOrchestrator.RepoCache
import IcilOrchestrator.DuelStops
import IcilOrchestrator.Republished
import IcilOrchestrator.Owed
