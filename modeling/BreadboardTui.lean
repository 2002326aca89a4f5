import BreadboardTui.Session.Lineage
import BreadboardTui.Lifecycle.RestartBudget
import BreadboardTui.Lifecycle.StartClaims
import BreadboardTui.Runtime.ReplacementSafety
import BreadboardTui.Journal.Pairing
import BreadboardTui.Loader.LoadsAlike
import BreadboardTui.Journal.FailedBatch
import BreadboardTui.Disk.Sealed
import BreadboardTui.Compaction.Prepare
import BreadboardTui.Agent.AppendOnlyContext
import BreadboardTui.Session.BlobResolution
import BreadboardTui.Agent.AgentLoop
import BreadboardTui.Agent.ToolPairing
import BreadboardTui.Agent.ToolBatch
import BreadboardTui.Hashline.CommitStore
import BreadboardTui.Hashline.PatchBatch
import BreadboardTui.Hashline.Recovery
import BreadboardTui.Secrets.HiddenSecrets
import BreadboardTui.Collab.GuestPrompts
import BreadboardTui.Collab.Replica
import BreadboardTui.Collab.ShareRuns
import BreadboardTui.Archive.TarRoundTrip
import BreadboardTui.Tui.KeyboardInput
import BreadboardTui.Vterm.Resizing
import BreadboardTui.Glyphs.Value
import BreadboardTui.Secrets.Streaming
import BreadboardTui.Secrets.KeyNeed
import BreadboardTui.Edit.DiffPreview
import BreadboardTui.Archive.ZipSafety
import BreadboardTui.Dialect.GeminiRoundTrip
import BreadboardTui.Hashline.Relocate
import BreadboardTui.Hashline.Reset
import BreadboardTui.Hashline.Overlaps
import BreadboardTui.Hashline.BoundaryRepair
import BreadboardTui.Session.ToolChoiceQueue
import BreadboardTui.Compaction.Pruning
import BreadboardTui.Compaction.Shake
import BreadboardTui.JsonRepair.RelaxedReads
import BreadboardTui.Lifecycle.DispatchAction
import BreadboardTui.Edit.FuzzyScore
import BreadboardTui.Stream.SseStream
import BreadboardTui.Collab.TranscriptFetch
import BreadboardTui.Hashline.ClipboardSequence
import BreadboardTui.Hashline.HashStream
import BreadboardTui.Secrets.RegexScan
import BreadboardTui.Utils.LruCache
