import TradeServer.Library.Heap
import TradeServer.Library.HeapObjects
import TradeServer.Library.HeapFrees
import TradeServer.Library.System
import TradeServer.Library.Progress
import TradeServer.Library.Locks
import TradeServer.Library.Chain
import TradeServer.Library.DoublyLinked
import TradeServer.Library.SearchTree
import TradeServer.Library.RedBlack
import TradeServer.Library.Levels
import TradeServer.Library.RingBuffer
import TradeServer.Library.Records
import TradeServer.Library.EventStream
import TradeServer.Library.Digits
import TradeServer.Library.ElfHash
import TradeServer.Library.TextLines
import TradeServer.Library.Recorded
import TradeServer.Library.Json
import TradeServer.CString
import TradeServer.Currency
import TradeServer.Database.TblTradeOrder
import TradeServer.Database.ConnectFile
import TradeServer.DataStructures.Hashtable
import TradeServer.DataStructures.HashtableChains
import TradeServer.DataStructures.HashtableMap
import TradeServer.DataStructures.HashtableEntries
import TradeServer.DataStructures.HashtableRelease
import TradeServer.DataStructures.HashtableElf
import TradeServer.DataStructures.DlList
import TradeServer.DataStructures.DlListRuns
import TradeServer.DataStructures.RbTree
import TradeServer.DataStructures.RbTreeShape
import TradeServer.DataStructures.RbTreeFixUp
import TradeServer.DataStructures.RbTreeTrace
import TradeServer.DataStructures.RbTreeForest
import TradeServer.DataStructures.RbTreeRuns
import TradeServer.DataStructures.RbTreeDestroy
import TradeServer.DataStructures.RbTreeAccount
import TradeServer.DataStructures.RbTreeCost
import TradeServer.DataStructures.RbTreeLife
import TradeServer.DataStructures.RbTreeRange
import TradeServer.DataStructures.RbTreeNearest
import TradeServer.Service.Orders
import TradeServer.Service.Books
import TradeServer.Service.Fills
import TradeServer.Service.FillScan
import TradeServer.Service.HashKeys
import TradeServer.Service.OrderVisitor
import TradeServer.Service.Monitor
import TradeServer.Service.Correspondence
import TradeServer.Service.Market
import TradeServer.Service.FillOnce
import TradeServer.Service.LoadComplete
import TradeServer.Service.TimePriority
import TradeServer.Service.FailedFetch
import TradeServer.Service.PriceLock
import TradeServer.Service.ServiceStop
import TradeServer.Service.Locking
import TradeServer.Service.FillData
import TradeServer.Service.Payment
import TradeServer.Service.PaymentRuns
import TradeServer.Sse.ClientWriter
import TradeServer.Sse.WriteThread
import TradeServer.Sse.MessageIds
import TradeServer.Sse.ClientLists
import TradeServer.Sse.Passes
import TradeServer.Sse.Delivery
import TradeServer.Sse.Shutdown
import TradeServer.Sse.CatchUp
import TradeServer.Sse.Server
import TradeServer.Service.ClientEvents
import TradeServer.Service.ClientStream
import TradeServer.Service.PriceEvent
import TradeServer.Service.PriceFeed
import TradeServer.Service.FillPayload
import TradeServer.Service.FillDispatch
import TradeServer.Service.SimulatedOrders
