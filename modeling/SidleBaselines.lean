import SidleBaselines.Tpcc.Orders
import SidleBaselines.Tpcc.Payments
import SidleBaselines.Tpcc.Delivery
import SidleBaselines.Tpcc.Stock
import SidleBaselines.Tpcc.Partition
import SidleBaselines.Tpcc.Quantity
import SidleBaselines.Tpcc.Abort
import SidleBaselines.Tpcc.NameIndex
import SidleBaselines.Tpcc.Rejection
import SidleBaselines.Tpcc.Operations
import SidleBaselines.Unimalloc.Offsets
import SidleBaselines.Unimalloc.Fallback
import SidleBaselines.Pactree.Strides
import SidleBaselines.Kv.Scan
import SidleBaselines.Kv.StrBagKey
import SidleBaselines.Kv.BufferRuns
import SidleBaselines.Kv.Leaves
import SidleBaselines.Synthetic.Levels
import SidleBaselines.Synthetic.Cooling
import SidleBaselines.Synthetic.OpMix
import SidleBaselines.Synthetic.RwDraws
import SidleBaselines.Synthetic.SkewCalls
import SidleBaselines.Synthetic.Passes
import SidleBaselines.Synthetic.TraceFiles
import SidleBaselines.Synthetic.TraceKeys
import SidleBaselines.Synthetic.Datasets
import SidleBaselines.Art.Wrapper
import SidleBaselines.Masstree.Split
import SidleBaselines.Pactree.SearchLayer
import SidleBaselines.Pactree.Stranded
import SidleBaselines.Smart.WRLock
import SidleBaselines.Wormhole.RwLock
