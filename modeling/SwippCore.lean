import SwippCore.DarkSendPayout
import SwippCore.DarkSendSignatures
import SwippCore.FailedSwitch
import SwippCore.MemPoolRuns
import SwippCore.MoneySupply
import SwippCore.OrphanBlocks
import SwippCore.PayeeOrder
import SwippCore.Reload
import SwippCore.SignatureHash
import SwippCore.TxnBatch
import SwippCore.WalletCaches
import SwippCore.MessageExchange
import SwippCore.AddrManReload
import SwippCore.Alert
import SwippCore.NetStream
import SwippCore.AskedCoins
import SwippCore.DenominateRefusals
import SwippCore.StakeCredit
import SwippCore.MessageReads
import SwippCore.TriedEviction
import SwippCore.Locator
import SwippCore.ReorderTransactions
import SwippCore.StakeModifier
import SwippCore.AddressGroupings
import SwippCore.BalanceAgreement
import SwippCore.WalletRecords
import SwippCore.WalletSecrets
import SwippCore.MasternodeRanks
import SwippCore.LockHeight
import SwippCore.InputsStandard
import SwippCore.SporkBinding
import SwippCore.MasternodeChoice
import SwippCore.MerkleBranch
import SwippCore.OrphanResolution
import SwippCore.PoolConflicts
import SwippCore.TimeData
import SwippCore.AskFor
import SwippCore.StealthAddress
import SwippCore.Narrations
import SwippCore.Inventory
import SwippCore.Mruset
import SwippCore.VarInt
import SwippCore.ScriptNum
import SwippCore.DerSignature
import SwippCore.Base58Check
import SwippCore.Lib.BlockStream
import SwippCore.Hashers
import SwippCore.AcceptBlock
import SwippCore.LockOrder
import SwippCore.LockedPages
import SwippCore.Eccryptoverify
import SwippCore.DataStream
import SwippCore.SignatureCache
import SwippCore.Semaphore
