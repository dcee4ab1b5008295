import OneCatVllm.Worker.ContextParallel
import OneCatVllm.Hash.Isolation
import OneCatVllm.Sched.SessionHash
import OneCatVllm.Kv.GroupFormation
import OneCatVllm.Kv.HitOrigin
import OneCatVllm.Kv.PoolRefinement
import OneCatVllm.Kv.HybridLookup
import OneCatVllm.Worker.TreeCompaction
import OneCatVllm.Sched.TokenTally
import OneCatVllm.Sched.EncoderDecoder
import OneCatVllm.Engine.DeltaStream
import OneCatVllm.Engine.ParallelSampling
import OneCatVllm.SpecDecode.LookupFusion
import OneCatVllm.SpecDecode.Lossless
import OneCatVllm.SpecDecode.NgramProposer
import OneCatVllm.Worker.BatchRun
import OneCatVllm.Worker.MambaMigration
import OneCatVllm.StructuredOutput.System
import OneCatVllm.Offload.UnsoundHits
import OneCatVllm.Lora.Slots
import OneCatVllm.Multimodal.Mirror
import OneCatVllm.Eplb.Exact
import OneCatVllm.Eplb.Replication
import OneCatVllm.Frontend.TextDelivery
import OneCatVllm.SpecDecode.RejectionLossless
import OneCatVllm.Frontend.ThoughtLabel
import OneCatVllm.Frontend.ToolChunks
import OneCatVllm.Kv.MambaDrafts
import OneCatVllm.Kv.Recycling
import OneCatVllm.Kv.SparseCaching
