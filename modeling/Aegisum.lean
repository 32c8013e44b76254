import Aegisum.Chain.HeightBased
import Aegisum.Chain.Pow
import Aegisum.Chain.SkipList
import Aegisum.Model.PartialMerkle
import Aegisum.Model.VarInt
import Aegisum.Mweb.PrunedRange
import Aegisum.Mweb.TxBuilder
import Aegisum.Node.AmountOverflow
import Aegisum.Node.CoinFormat
import Aegisum.Node.HeaderChain
import Aegisum.Node.InputMatch
import Aegisum.Node.Issuance
import Aegisum.Node.LockHeight
import Aegisum.Node.MwebRecovery
import Aegisum.Node.MwebSize
import Aegisum.Node.TemplateWeight
import Aegisum.Node.TxFormat
import Aegisum.Node.TxRelay
import Aegisum.Wallet.Knapsack
