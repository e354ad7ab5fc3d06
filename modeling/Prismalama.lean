import Prismalama.Lib.SlidingWindow
import Prismalama.Lib.TSys
import Prismalama.Lib.GoInt
import Prismalama.Lib.GoMap
import Prismalama.Lib.Reader
import Prismalama.Kvcache.CausalSizing
import Prismalama.Lib.SlotPool
import Prismalama.Kvcache.Recurrent
import Prismalama.Kvcache.RecurrentSlots
import Prismalama.Kvcache.RecurrentCopyOnWrite
import Prismalama.Kvcache.RecurrentProvenance
import Prismalama.Mlxrunner.KVCache
import Prismalama.Mlxrunner.KVLedger
import Prismalama.Mlxrunner.PendingSnapshots
import Prismalama.Mlxrunner.RotatingKVCache
import Prismalama.Mlxrunner.RotatingSnapshots
import Prismalama.Mlxrunner.RotatingWindow
import Prismalama.Mlxrunner.RecurrentCache
import Prismalama.Mlxrunner.Cache
import Prismalama.Mlxrunner.Mtp
import Prismalama.Mlxrunner.Speculation
import Prismalama.Mlxrunner.Greedy
import Prismalama.Lib.Utf8
import Prismalama.Lib.GoStrings
import Prismalama.Tokenizer.Vocabulary
import Prismalama.Tokenizer.Merges
import Prismalama.Tokenizer.BytePairEncoding
import Prismalama.Tokenizer.SentencePiece
import Prismalama.Lib.Writes
import Prismalama.Ggml.Gguf
import Prismalama.Ggml.GgufTotal
import Prismalama.Ggml.Load
import Prismalama.Streaming.Inference
import Prismalama.Streaming.Streamer
import Prismalama.Streaming.StreamerBudget
import Prismalama.Streaming.StreamerPrefetch
import Prismalama.Ggml.LoadStreaming
import Prismalama.Ollama.PullComplete
import Prismalama.Server.SchedLifetime
import Prismalama.Transfer.Download
import Prismalama.Transfer.DownloadIntegrity
import Prismalama.Ollama.ConcurrentPut
import Prismalama.Ollama.DiskCacheNames
import Prismalama.Server.BlobDownload
import Prismalama.Server.BlobDownloadResume
import Prismalama.Server.Images
import Prismalama.Server.ImagesGC
import Prismalama.Server.ImagesPull
import Prismalama.Ggml.WriteGguf
import Prismalama.Ggml.GgufRoundTrip
import Prismalama.Lib.TagStream
import Prismalama.Thinking.Parser
import Prismalama.Harmony.Parser
import Prismalama.Parsers.Qwen3Coder
import Prismalama.Anthropic.StreamConverter
import Prismalama.Modelfile.Parser
import Prismalama.Runner.NewSequence
import Prismalama.Llm.GpuLayers
import Prismalama.Llm.ShrinkLoad
import Prismalama.Gemma4.Tokens
import Prismalama.Gemma4.RoundTrip
import Prismalama.Template.Execute
import Prismalama.Template.Tree
import Prismalama.Template.DeleteNode
import Prismalama.Template.Variables
import Prismalama.Kvcache.CausalRecover
import Prismalama.Kvcache.CausalResume
import Prismalama.Gguf.Loader
import Prismalama.XTokenizer.RoundTrip
import Prismalama.Openai.ResponsesLossless
import Prismalama.Mlxrunner.Utf8Buffer
import Prismalama.Mlxrunner.KVPrefill
import Prismalama.Mlxrunner.RecurrentPrefill
import Prismalama.Tokenizer.WordPiece
import Prismalama.Runner.InputCache
import Prismalama.Agent.Approval
import Prismalama.Agent.OutsideCwd
import Prismalama.Ollama.Spelling
import Prismalama.Lib.GreedyMerge
import Prismalama.Tokenizer.MergeOrder
import Prismalama.Tokenizer.EncodeOrder
import Prismalama.Server.SchedLoad
import Prismalama.Server.EvictAll
import Prismalama.Types.Model
import Prismalama.Types.RoundTrip
import Prismalama.Types.NamesAgree
import Prismalama.Lib.Sha256
import Prismalama.Ml.PrefixCache
import Prismalama.Lib.CountedWrites
import Prismalama.Ml.Bc4Block
import Prismalama.Ml.Bc4Image
import Prismalama.Harmony.FunctionNames
import Prismalama.Lib.Decimal
import Prismalama.Parsers.Qwen3CoderValues
import Prismalama.Parsers.Glm46Repair
import Prismalama.Lib.Backing
import Prismalama.Server.ChatPrompt
import Prismalama.Lib.Scan
import Prismalama.Parsers.Qwen3CoderXml
import Prismalama.XTokenizer.MergeOrder
import Prismalama.Kvcache.CheckpointRing
import Prismalama.Runner.StreamedText
import Prismalama.Runner.StopTruncate
import Prismalama.Lib.Chase
import Prismalama.Server.Aliases
import Prismalama.Runner.Server
import Prismalama.Runner.SlotAgreement
