import FabricOev.Committer.EndorsementCoverage
import FabricOev.Ledger.AtMostOnce
import FabricOev.Ledger.PeerAgreement
import FabricOev.Ledger.ReplayFlags
import FabricOev.Orderer.BlockOrder
import FabricOev.Chaincode.SmallbankAgreement
import FabricOev.Chaincode.YcsbAgreement
import FabricOev.Bench.Money
import FabricOev.Orderer.ArrivalOrder
import FabricOev.Orderer.MalformedEnvelopes
import FabricOev.Ledger.WriteTrip
import FabricOev.Ledger.KeyHistory
import FabricOev.Orderer.BatchTimers
import FabricOev.Orderer.KafkaAgreement
import FabricOev.Orderer.TimeToCut
import FabricOev.BlockStore.IteratorLocks
import FabricOev.BlockStore.IndexLoss
import FabricOev.Policy.SignatureSets
import FabricOev.Config.Manager
import FabricOev.Gossip.Discovery
import FabricOev.Orderer.Deliver
import FabricOev.Chaincode.Execute
import FabricOev.Ledger.CombinedIterator
import FabricOev.Ledger.KeyLayout
import FabricOev.Chaincode.CrossCalls
import FabricOev.Committer.UpgradeConflicts
import FabricOev.Ledger.Heights
import FabricOev.Policy.ImplicitMeta
import FabricOev.Bccsp.Ecdsa
import FabricOev.BlockStore.Checkpoints
import FabricOev.Gossip.Channel
import FabricOev.Chaincode.Packages
import FabricOev.Ledger.Reexecution
