import KirAi.Lib.Machine
import KirAi.Lib.Except
import KirAi.Lib.FiniteMap
import KirAi.Lib.TwoLevelMap
import KirAi.Lib.Slice
import KirAi.Lib.Bytes
import KirAi.Lib.Ring
import KirAi.Lib.Identity
import KirAi.Lib.MirroredRing
import KirAi.KvCache.Basic
import KirAi.KvCache.Block
import KirAi.KvCache.Format
import KirAi.KvCache.BlockTable
import KirAi.KvCache.BlockPool
import KirAi.KvCache.BlockPoolRefs
import KirAi.KvCache.BlockPoolRun
import KirAi.KvCache.BlockPoolIsolation
import KirAi.KvCache.BlockPoolUpdates
import KirAi.KvCache.BlockPoolPrefix
import KirAi.KvCache.Layer
import KirAi.KvCache.LayerRuns
import KirAi.KvCache.LayerWindow
import KirAi.KvCache.LayerAppend
import KirAi.KvCache.LayerReads
import KirAi.KvCache.LayerRestore
import KirAi.KvCache.LayerPrefix
import KirAi.KvCache.LayerRefines
import KirAi.KvCache.LayerBuild
import KirAi.KvCache.Linear
import KirAi.KvCache.LayerIdentity
import KirAi.KvCache.LayerInt8
import KirAi.KvCache.LayerWrites
import KirAi.KvCache.LayerCopies
import KirAi.KvCache.LayerRunShape
import KirAi.KvCache.LayerModel
import KirAi.KvCache.LayerSharing
import KirAi.KvCache.LayerRoundTrip
import KirAi.NativeRuntime.KvSync
import KirAi.NativeRuntime.KvStageWrites
import KirAi.NativeRuntime.KvStage
import KirAi.NativeRuntime.KvStageSound
import KirAi.NativeRuntime.PrefixCache
import KirAi.NativeRuntime.PrefixCacheInv
import KirAi.NativeRuntime.StageDeviceRuns
import KirAi.NativeRuntime.DiskTensors
import KirAi.NativeRuntime.DiskCodec
import KirAi.NativeRuntime.DiskCodecSound
import KirAi.NativeRuntime.DiskRoundTrip
import KirAi.Lib.Interleaving
import KirAi.Lib.Json
import KirAi.Lib.Notify
import KirAi.Server.Scheduler
import KirAi.Server.SchedulerTask
import KirAi.Server.SchedulerEffect
import KirAi.Server.SchedulerCapacity
import KirAi.Server.SchedulerWakeup
import KirAi.Server.SchedulerAccounting
import KirAi.Server.SchedulerOrder
import KirAi.Server.Requests
import KirAi.Lib.Text
import KirAi.Lib.TryStream
import KirAi.Runtime.ResponseValidation
import KirAi.Runtime.Stop
import KirAi.Runtime.StructuredTools
import KirAi.Runtime.Assistant
import KirAi.Runtime.Chunk
import KirAi.Runtime.CompletionStream
import KirAi.Runtime.CompletionStreamSound
import KirAi.Runtime.ToolMarkup
import KirAi.Runtime.ChatStream
import KirAi.Runtime.ChatStreamMarkup
import KirAi.Runtime.ChatStreamContent
import KirAi.ToolParser.Basic
import KirAi.ToolParser.Common
import KirAi.ToolParser.Printed
import KirAi.ToolParser.Llama
import KirAi.ToolParser.DeepSeek
import KirAi.ToolParser.Gemma
import KirAi.ToolParser.GemmaReader
import KirAi.ToolParser.Family
import KirAi.Lib.Origin
import KirAi.Api.Messages
import KirAi.ChatTemplate.Basic
import KirAi.ChatTemplate.Render
import KirAi.ChatTemplate.Integrity
import KirAi.Api.Validation
import KirAi.Api.MessageGrammar
import KirAi.Api.JsonBytes
import KirAi.ChatTemplate.Gemma
import KirAi.ChatTemplate.GemmaIntegrity
import KirAi.ChatTemplate.RoundTrip
import KirAi.Lib.Pending
import KirAi.Mlx.ControlStop
import KirAi.Mlx.QwenXml
import KirAi.KvCache.BlockPoolAttach
import KirAi.KvCache.BlockPoolEviction
import KirAi.KvCache.ChainHash
import KirAi.Hub.StampHistories
import KirAi.Backend.TopKMatvec
import KirAi.Sampler.TopP
import KirAi.NativeRuntime.PrefixCacheEviction
import KirAi.NativeRuntime.DiskArchive
import KirAi.NativeRuntime.DiskHashing
import KirAi.NativeRuntime.Prefill
import KirAi.NativeRuntime.PrefillOffers
import KirAi.NativeRuntime.Generation
import KirAi.NativeRuntime.GenerationAgree
import KirAi.ToolParser.BlockGrammar
import KirAi.ToolParser.XmlCalls
import KirAi.ToolParser.PrefixParses
import KirAi.ToolParser.GemmaJson
import KirAi.ToolParser.GemmaMarks
import KirAi.ChatTemplate.GemmaArguments
import KirAi.Lib.Lines
import KirAi.Mlx.SseLines
import KirAi.Lib.Bits
import KirAi.KvCache.Packing
import KirAi.Hub.Prune
import KirAi.Hub.PruneSafe
import KirAi.Lib.JsonGrammar
import KirAi.Mlx.QwenCalls
import KirAi.Mlx.QwenModes
import KirAi.Mlx.QwenTracks
import KirAi.Mlx.QwenSteps
import KirAi.Mlx.QwenArguments
import KirAi.Lib.SlidingLog
import KirAi.NativeRuntime.DiskFiles
import KirAi.NativeRuntime.DiskLookup
import KirAi.NativeRuntime.WorkerStream
import KirAi.Runtime.ChatCompletion
import KirAi.Runtime.UnmarkedBuffer
import KirAi.Server.RateLimit
