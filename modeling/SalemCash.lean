import SalemCash.ExceptLogic
import SalemCash.Periods
import SalemCash.Bits
import SalemCash.Amount
import SalemCash.Script
import SalemCash.ScriptNum
import SalemCash.SigChecks
import SalemCash.Interpreter
import SalemCash.Verify
import SalemCash.SoftFork
import SalemCash.Safety
import SalemCash.Subsidy
import SalemCash.Transaction
import SalemCash.Chain
import SalemCash.LockTime
import SalemCash.Instructions
import SalemCash.Serialize
import SalemCash.Sighash
import SalemCash.KeyedFold
import SalemCash.Cash
import SalemCash.CashCache
import SalemCash.CashStack
import SalemCash.RestoringDivision
import SalemCash.ArithUint256
import SalemCash.BlockIndex
import SalemCash.HeaderIndex
import SalemCash.ActiveChain
import SalemCash.LowerBound
import SalemCash.ChainTime
import SalemCash.BlockEncodings
import SalemCash.Merkle
import SalemCash.MerkleTree
import SalemCash.MerkleSpec
import SalemCash.MerkleBranch
import SalemCash.PartialMerkle
import SalemCash.PartialMerkleCodec
import SalemCash.FixedPoint
import SalemCash.CashSelection
import SalemCash.Radix
import SalemCash.Base58
import SalemCash.BitGroups
import SalemCash.StrEncodings
import SalemCash.ScriptNumCodec
import SalemCash.ScriptRuns
import SalemCash.Compact
import SalemCash.Pow
import SalemCash.Pushes
import SalemCash.Codec
import SalemCash.Unserialize
import SalemCash.VarInt
import SalemCash.AmountCompression
import SalemCash.Compressor
import SalemCash.BlockRequest
import SalemCash.Words
import SalemCash.BaseUint
import SalemCash.TxCodec
import SalemCash.PolyRemainder
import SalemCash.Bech32
import SalemCash.Bech32Checksum
