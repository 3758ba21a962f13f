import XCoin.Framework.System
import XCoin.Framework.AppendLog
import XCoin.Framework.Text
import XCoin.Framework.Pairs
import XCoin.Framework.Throwing
import XCoin.Framework.Longest
import XCoin.Framework.Ledger
import XCoin.Framework.Collection
import XCoin.Framework.Branches
import XCoin.Framework.Ranking
import XCoin.Framework.Segments
import XCoin.Framework.Binary64
import XCoin.Js.Value
import XCoin.Js.Number
import XCoin.Js.Json
import XCoin.Js.Parse
import XCoin.Js.RoundTrip
import XCoin.Model.Transaction
import XCoin.Model.Block
import XCoin.Model.Blockchain
import XCoin.Model.Run
import XCoin.Model.Wire
import XCoin.Model.FullNode
import XCoin.Model.BlockchainSaver
import XCoin.Model.Saves
import XCoin.Model.Network
import XCoin.Model.Provenance
import XCoin.Model.Cluster
import XCoin.Chain.Mining
import XCoin.Chain.Search
import XCoin.Chain.Atomicity
import XCoin.Chain.History
import XCoin.Chain.Balance
import XCoin.Chain.Supply
import XCoin.Chain.Difficulty
import XCoin.Chain.Retarget
import XCoin.Chain.Steadiness
import XCoin.Chain.Schedule
import XCoin.Chain.Invariant
import XCoin.Chain.Validity
import XCoin.Chain.NewBlock
import XCoin.Chain.Commitment
import XCoin.Chain.Tamper
import XCoin.Chain.Signing
import XCoin.Chain.CoinbaseSignature
import XCoin.Chain.Transport
import XCoin.Chain.Copies
import XCoin.Node.Handlers
import XCoin.Node.Inv
import XCoin.Node.Startup
import XCoin.Node.Restore
import XCoin.Node.Lapse
import XCoin.Node.Intake
import XCoin.Node.Coinbase
import XCoin.Node.Amounts
import XCoin.Node.TransactionId
import XCoin.Node.OwnIds
import XCoin.Node.Saves
import XCoin.Network.Validity
import XCoin.Network.Provenance
import XCoin.Network.Inclusion
import XCoin.Network.Content
import XCoin.Network.Integrity
import XCoin.Network.Branches
import XCoin.Network.Traffic
import XCoin.Network.Finality
import XCoin.Network.History
import XCoin.Network.Projection
import XCoin.Network.Schedule
import XCoin.Network.Accounts
import XCoin.Network.Recovery
import XCoin.Network.Lifetimes
