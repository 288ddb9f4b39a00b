import Mtld3d.BoundedCache
import Mtld3d.CoalesceClears
import Mtld3d.CompileLanes
import Mtld3d.CopyRegion
import Mtld3d.CrossingFetchSound
import Mtld3d.DeferredPipelines
import Mtld3d.DrawRecordFormat
import Mtld3d.DropOverwrittenClears
import Mtld3d.DxsoParserSound
import Mtld3d.FanRewrite
import Mtld3d.FixedFunction
import Mtld3d.FrameLatencyRuns
import Mtld3d.GuestMemSound
import Mtld3d.KeptReads
import Mtld3d.LightsSound
import Mtld3d.MergePasses
import Mtld3d.NoColorPasses
import Mtld3d.PacketRetirementOnce
import Mtld3d.PageBoxPoolRuns
import Mtld3d.PendingPipelines
import Mtld3d.PipelineMemoLru
import Mtld3d.ProcessVerticesSound
import Mtld3d.RenderScale
import Mtld3d.ScratchArenaRuns
import Mtld3d.ShaderCacheRuns
import Mtld3d.ShaderLinkSound
import Mtld3d.SnapshotBox
import Mtld3d.StageUploadOrder
import Mtld3d.StagingCoverageSound
import Mtld3d.StartupWork
import Mtld3d.StateBlockSound
import Mtld3d.TextureSnapshotsSound
import Mtld3d.UploadFeedbackOrder
import Mtld3d.UploadReplay
import Mtld3d.UploadRingRuns
import Mtld3d.VersionLedger
import Mtld3d.VertexBufferRuns
import Mtld3d.VertexReadRange
