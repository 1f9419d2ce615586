import Fedoracoin.AddrManTrip
import Fedoracoin.BalanceAgree
import Fedoracoin.Base64RoundTrip
import Fedoracoin.BaseUintHex
import Fedoracoin.BlockDownload
import Fedoracoin.BlockHeight
import Fedoracoin.BlockScan
import Fedoracoin.BlockSpace
import Fedoracoin.CacheRun
import Fedoracoin.CoinsTrip
import Fedoracoin.CombineSignatures
import Fedoracoin.CompactTarget
import Fedoracoin.CompareBigEndian
import Fedoracoin.CreateAccepted
import Fedoracoin.FilterLoad
import Fedoracoin.ForkWarning
import Fedoracoin.Handshake
import Fedoracoin.KeyPool
import Fedoracoin.LimitedMap
import Fedoracoin.LoadIndex
import Fedoracoin.Locator
import Fedoracoin.MerkleBranch
import Fedoracoin.MinerWork
import Fedoracoin.MoneyRange
import Fedoracoin.MultisigTemplate
import Fedoracoin.OffsetTracks
import Fedoracoin.OrphanBlocks
import Fedoracoin.PartialMerkleSound
import Fedoracoin.ReadBlock
import Fedoracoin.ReorderTransactions
import Fedoracoin.Salvage
import Fedoracoin.ScriptNumInt64
import Fedoracoin.SelectCoins
import Fedoracoin.SelectTried
import Fedoracoin.SigCache
import Fedoracoin.StructuredScript
import Fedoracoin.TemplateConnect
import Fedoracoin.TipAgreement
import Fedoracoin.VerifyDB
import Fedoracoin.WalletBirthday
