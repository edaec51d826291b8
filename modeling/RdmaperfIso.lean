import RdmaperfIso.Lib.Run
import RdmaperfIso.Lib.Charges
import RdmaperfIso.Lib.FixedWidth
import RdmaperfIso.TokenBucket.Basic
import RdmaperfIso.TokenBucket.Admission
import RdmaperfIso.TokenBucket.Contention
import RdmaperfIso.TokenBucket.BurstLimit
import RdmaperfIso.Lib.Binary64
import RdmaperfIso.Lib.CString
import RdmaperfIso.Monitor.Reservation
import RdmaperfIso.Verbs.PostSend
import RdmaperfIso.Verbs.Charging
import RdmaperfIso.Monitor.Config
import RdmaperfIso.Lib.Outcome
import RdmaperfIso.Mlx5.SendQueue
import RdmaperfIso.Mlx5.Wqe
import RdmaperfIso.Mlx5.PostSend
import RdmaperfIso.Mlx5.Payload
import RdmaperfIso.Mlx5.PayloadBound
import RdmaperfIso.Mlx5.WrBuilder
import RdmaperfIso.Verbs.Mediation
import RdmaperfIso.Verbs.CreateQp
import RdmaperfIso.TokenBucket.Rate
import RdmaperfIso.Monitor.Allocator
import RdmaperfIso.TokenBucket.Waiting
import RdmaperfIso.Monitor.Loader
import RdmaperfIso.Monitor.Slack
import RdmaperfIso.QpCache
import RdmaperfIso.Monitor.RoundTrip
import RdmaperfIso.Monitor.Registration
import RdmaperfIso.Lib.Scan
import RdmaperfIso.Monitor.Selection
import RdmaperfIso.HistoryTable
import RdmaperfIso.Lib.TailCalls
import RdmaperfIso.Verbs.DummyOps
import RdmaperfIso.Lib.Links
import RdmaperfIso.Mlx5.Srq
import RdmaperfIso.Mlx5.SrqPool
import RdmaperfIso.Lib.OwnerRing
import RdmaperfIso.Mlx5.CompletionQueue
import RdmaperfIso.Mlx5.CompletionFifo
import RdmaperfIso.Lib.BlockRing
import RdmaperfIso.Mlx5.WorkCompletion
import RdmaperfIso.Mlx5.SendRing
import RdmaperfIso.Mlx5.RecvQueue
import RdmaperfIso.Mlx5.RecvRing
import RdmaperfIso.Mlx5.ObjectTable
import RdmaperfIso.Mlx5.SharedCq
import RdmaperfIso.Mlx5.SharedCqRuns
import RdmaperfIso.Verbs.Isolation
import RdmaperfIso.Monitor.Control
import RdmaperfIso.Mlx5.Doorbell
