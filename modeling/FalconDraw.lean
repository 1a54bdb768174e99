import FalconDraw.Chain.StakeBurnTheorems
import FalconDraw.Chain.StakeLimitTheorems
import FalconDraw.Chain.FreezeTheorems
import FalconDraw.Chain.HistoryTheorems
import FalconDraw.Chain.RelayTheorems
import FalconDraw.Draw.FairDrawTheorems
import FalconDraw.Chain.BookingTheorems
import FalconDraw.Chain.UndoTheorems
import FalconDraw.Rpc.DrawTicketsTheorems
import FalconDraw.Chain.ReconsiderTheorems
import FalconDraw.Chain.MainChainTheorems
import FalconDraw.Chain.FailedConnectTheorems
import FalconDraw.Database.SnapshotTheorems
import FalconDraw.Database.Regions
import FalconDraw.Database.TreapTheorems
import FalconDraw.Index.TxIndexTheorems
import FalconDraw.Chain.RetargetTheorems
import FalconDraw.Chain.ThresholdTheorems
import FalconDraw.Chain.MerkleStoreTheorems
import FalconDraw.Chain.CompressTheorems
import FalconDraw.Chain.LocatorTheorems
import FalconDraw.Index.AddrRunTheorems
import FalconDraw.Mempool.PoolRunTheorems
import FalconDraw.Rpc.DrawMemoTheorems
import FalconDraw.Script.ScriptNum
import FalconDraw.Draw.CodecTheorems
import FalconDraw.Wire.PkScriptTheorems
import FalconDraw.Chain.SupplyTheorems
