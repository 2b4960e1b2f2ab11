import Xpir.Foundations.Loop
import Xpir.ReplyGenerator.Subtraction
import Xpir.Foundations.Transform
import Xpir.NFLlib.Butterflies
import Xpir.NFLlib.Accumulation
import Xpir.NFLLWE.Packing
import Xpir.NFLLWE.NoiseBudget
import Xpir.NFLLWE.Contracts
import Xpir.NFLLWE.RandomPolynomials
import Xpir.DBHandlers.AggregatedStream
import Xpir.ReplyExtraction.ChosenElement
import Xpir.XPIRHash.PIRClient
import Xpir.XPIRHash.Upload
import Xpir.XPIRHash.WireFormat
import Xpir.XPIRHash.ByteTransfer
import Xpir.XPIRHash.Tools
import Xpir.XPIRHash.SHA256
import Xpir.ReplyGenerator.MaskedReplies
import Xpir.ReplyGenerator.ExtractedSizes
import Xpir.ReplyExtraction.RetrievalLimits
import Xpir.Paillier.PaillierKeys
import Xpir.Paillier.KeyTransport
import Xpir.Paillier.DamgardJurik
import Xpir.Session.PirParams
import Xpir.Session.QuerySession
import Xpir.Session.SerializedParams
import Xpir.Session.StoredParams
import Xpir.Session.Catalog
import Xpir.NFLLWE.Reconfiguration
import Xpir.NFLLWE.RequestLayout
import Xpir.NFLLWE.HashList
import Xpir.NFLLWE.LongChunks
import Xpir.ReplyGenerator.QueryImport
import Xpir.Libpir.PopFunctions
import Xpir.Libpir.SharedQueue
import Xpir.Libpir.Rounds
import Xpir.Libpir.QueryBuffers
import Xpir.ReplyGenerator.IteratedReplies
import Xpir.ReplyGenerator.TrivialReplies
import Xpir.Optim.DimSize
import Xpir.Optim.EltSize
import Xpir.Optim.AlphaBounds
import Xpir.NFLLWE.SubtractedRequests
import Xpir.NFLLWE.FileRetrieval
import Xpir.NFLLWE.ServerRounds
import Xpir.NFLFV.NflCore
import Xpir.NFLFV.Membership
