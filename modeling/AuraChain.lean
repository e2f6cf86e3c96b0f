import AuraChain.TracedRun
import AuraChain.Executor
import AuraChain.Reference
import AuraChain.MempoolInvariant
import AuraChain.Replay
import AuraChain.Engine
import AuraChain.EngineSpec
import AuraChain.Supply
import AuraChain.AccountableSafety
import AuraChain.VoteAuthenticity
import AuraChain.Equivocation
import AuraChain.Finality
import AuraChain.ProposalChecks
import AuraChain.Sync
import AuraChain.EngineLocks
import AuraChain.FullTree
import AuraChain.SmtReference
import AuraChain.LevelHash
import AuraChain.StateCommitment
import AuraChain.MerkleSpec
import AuraChain.MerkleProofs
import AuraChain.BlockBinding
import AuraChain.PrefixScan
import AuraChain.StateMirror
import AuraChain.StateRestart
import AuraChain.StateRoot
import AuraChain.LinkedChain
import AuraChain.StoredChain
import AuraChain.SyncSpec
import AuraChain.SyncChain
import AuraChain.SyncCommit
import AuraChain.SyncChecks
import AuraChain.FramedLog
import AuraChain.Wal
import AuraChain.WalRecovery
import AuraChain.WalDurability
import AuraChain.MempoolRun
import AuraChain.MempoolRejection
import AuraChain.MempoolLocks
import AuraChain.GreedyPick
import AuraChain.HarvestOrder
import AuraChain.CappedBalance
import AuraChain.Overdraft
import AuraChain.StaleTransactions
import AuraChain.StoreFinality
import AuraChain.Interleaving
import AuraChain.AddPhases
import AuraChain.ConcurrentAdd
import AuraChain.TokenReader
import AuraChain.Bincode
import AuraChain.Encoding
import AuraChain.ReplayWindow
import AuraChain.TunnelCipher
import AuraChain.TunnelReplay
import AuraChain.TunnelStream
import AuraChain.KeystreamReuse
import AuraChain.FailedCommit
import AuraChain.GenesisBalances
import AuraChain.KotlinText
import AuraChain.IpPacket
import AuraChain.CryptoEngine
import AuraChain.PastLog
import AuraChain.HostService
import AuraChain.HostEffect
import AuraChain.PeerRevocation
import AuraChain.PairingCodes
import AuraChain.PacketNonces
import AuraChain.MempoolCapacity
import AuraChain.ReplaceByFee
import AuraChain.WeightedChoice
import AuraChain.ProposerElection
import AuraChain.CertificateSoundness
import AuraChain.PrecommitHeld
import AuraChain.HonestProposal
import AuraChain.FoldTurns
import AuraChain.ExecutorLedger
import AuraChain.DebitOverflow
import AuraChain.StakeWithdrawal
import AuraChain.Slashing
import AuraChain.SignedBytes
import AuraChain.ForgedFrames
import AuraChain.OnesComplement
import AuraChain.JavaBytes
import AuraChain.JvmPacket
import AuraChain.UdpPacket
import AuraChain.AtomicReplace
import AuraChain.DiskStore
import AuraChain.CrashRecovery
import AuraChain.CommitEffect
import AuraChain.AccountScan
import AuraChain.ValidatorSet
import AuraChain.PeerManager
import AuraChain.PeerBan
import AuraChain.PacketParsing
import AuraChain.Pieces
import AuraChain.MeshEngine
import AuraChain.FileTransfer
import AuraChain.Network
import AuraChain.NetworkAgreement
import AuraChain.RoundProgress
import AuraChain.ProductionLoop
import AuraChain.Daemon
import AuraChain.Hex
import AuraChain.Bech32
import AuraChain.TextForms
import AuraChain.Json
import AuraChain.RpcServer
import AuraChain.RpcRun
import AuraChain.AcceptedOnce
import AuraChain.TxSend
import AuraChain.Cursor
import AuraChain.SyncDelivery
import AuraChain.KeyedStreams
import AuraChain.TunnelTargets
import AuraChain.PacketHandling
import AuraChain.PacketRelay
import AuraChain.PacketExchange
import AuraChain.PairingConsent
