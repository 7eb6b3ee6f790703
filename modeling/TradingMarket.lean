import TradingMarket.Lib.Machine
import TradingMarket.Lib.Fair
import TradingMarket.Lib.LeadsTo
import TradingMarket.Lib.Positions
import TradingMarket.Lib.Batches
import TradingMarket.Lib.Sorting
import TradingMarket.Lib.Tolerance
import TradingMarket.Lib.Grid
import TradingMarket.Lib.Walk
import TradingMarket.Lib.Ledger
import TradingMarket.Lib.Decimal
import TradingMarket.Lib.Fields
import TradingMarket.Lib.Multimap
import TradingMarket.OrderRing
import TradingMarket.PutOrder
import TradingMarket.OrderBook
import TradingMarket.MatchLoop
import TradingMarket.BookRun
import TradingMarket.Insertion
import TradingMarket.Conservation
import TradingMarket.Lots
import TradingMarket.Relabeling
import TradingMarket.QueueOrder
import TradingMarket.Comparators
import TradingMarket.Priority
import TradingMarket.Prices
import TradingMarket.Pass
import TradingMarket.Exhausted
import TradingMarket.MatchOrderBook
import TradingMarket.MatchBounds
import TradingMarket.Command
import TradingMarket.CommandRun
import TradingMarket.CommandFormat
import TradingMarket.Broker
import TradingMarket.Registration
import TradingMarket.Routing
import TradingMarket.L3.Disruptor
import TradingMarket.L3.Pipeline
import TradingMarket.L3.Progress
import TradingMarket.L3.Network
import TradingMarket.L3.NetworkSafety
import TradingMarket.L3.Deadlock
import TradingMarket.L3.Liveness
import TradingMarket.L3.Simulation
import TradingMarket.L3.Index
import TradingMarket.OrderRingServer
import TradingMarket.OrderDelivery
import TradingMarket.Service
import TradingMarket.TradedRing
import TradingMarket.CommitWait
import TradingMarket.Serving
import TradingMarket.Rings
import TradingMarket.Generated
import TradingMarket.Market
import TradingMarket.Settlement
import TradingMarket.Journal
import TradingMarket.Draining
import TradingMarket.ArrivalOrder
