import SneppxAlg.Crypto.Poly1305Correct
import SneppxAlg.Crypto.Aead
import SneppxAlg.Crypto.AesGcm
import SneppxAlg.Crypto.AesGcmCorrect
import SneppxAlg.Crypto.SphincsCorrect
import SneppxAlg.Kernel.TokenizerCorrect
import SneppxAlg.Npe.Registers
import SneppxAlg.Fs.JsonComplete
import SneppxAlg.Fs.SafetensorsCorrect
import SneppxAlg.Crypto.DilithiumCorrect
import SneppxAlg.Net.ServingBatch
import SneppxAlg.Net.ServingVersions
import SneppxAlg.Net.HttpRequest
import SneppxAlg.Net.ParamSync
import SneppxAlg.Net.RingAllReduce
import SneppxAlg.Net.RingTopology
import SneppxAlg.Fs.CheckpointCorrect
import SneppxAlg.Mm.SlabCorrect
import SneppxAlg.Internal.PriorityQueue
import SneppxAlg.Kernel.TensorRefCount
import SneppxAlg.Kernel.TensorContiguous
import SneppxAlg.Kernel.TapeBackward
import SneppxAlg.Kernel.BroadcastGrad
import SneppxAlg.Kernel.ReduceGrad
import SneppxAlg.Kernel.TapeCheckpoint
import SneppxAlg.Kernel.TapeViewsCorrect
import SneppxAlg.Kernel.DistributedSampler
import SneppxAlg.Kernel.ThreadPool
import SneppxAlg.Kernel.SemanticMemory
import SneppxAlg.Kernel.AttentionCorrect
import SneppxAlg.Crypto.Drbg
import SneppxAlg.Net.HttpQuery
import SneppxAlg.Net.ServingMetricsText
import SneppxAlg.Net.ServingTraffic
import SneppxAlg.Fs.NumpyCorrect
import SneppxAlg.Fs.OnnxCorrect
import SneppxAlg.Drivers.ZkProof
import SneppxAlg.Security.KeyVaultLedger
import SneppxAlg.Security.AuditLogger
import SneppxAlg.Security.JunkRenameCorrect
import SneppxAlg.Security.ObfuscationVm
import SneppxAlg.Security.SignedUpdate
import SneppxAlg.Security.ModelChecking
import SneppxAlg.Net.HttpRoute
import SneppxAlg.Net.HttpStatic
import SneppxAlg.Net.HttpResponse
import SneppxAlg.Security.AuditChain
import SneppxAlg.Security.ModelCycles
import SneppxAlg.Security.ModelTrace
import SneppxAlg.Kernel.CsvLoad
import SneppxAlg.Kernel.TextDataset
import SneppxAlg.Net.TopkCompression
import SneppxAlg.Kernel.ParallelLoop
import SneppxAlg.Net.TopologyRoute
import SneppxAlg.Kernel.EpisodicMemory
import SneppxAlg.Algorithms.ExpertCapacity
import SneppxAlg.Kernel.Sampling
import SneppxAlg.Kernel.Quantize
import SneppxAlg.Kernel.Fp8
import SneppxAlg.Kernel.Convolution2d
import SneppxAlg.Kernel.MatmulCorrect
import SneppxAlg.Kernel.BinaryOps
import SneppxAlg.Kernel.MatrixInverseCorrect
import SneppxAlg.Kernel.TensorFile
import SneppxAlg.Kernel.TensorFillCorrect
import SneppxAlg.Kernel.TensorSplit
import SneppxAlg.Npe.CompilerCorrect
import SneppxAlg.Npe.AttentionCorrect
import SneppxAlg.Npe.Specialize
import SneppxAlg.Internal.StrSplit
import SneppxAlg.Mm.CompressCorrect
import SneppxAlg.Crypto.Blake3
import SneppxAlg.Crypto.Sha3
import SneppxAlg.Crypto.Hmac
import SneppxAlg.Crypto.Ed25519
import SneppxAlg.Internal.RbTreeRuns
import SneppxAlg.Kernel.LockfreeStack
