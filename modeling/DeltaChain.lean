import DeltaChain.Chainbase.KeyedUndo
import DeltaChain.Chainbase.Revisions
import DeltaChain.Fork.Linear
import DeltaChain.Fork.Unwind
import DeltaChain.Fork.MainRun
import DeltaChain.Chain.Irreversible
import DeltaChain.Ledger.Interest
import DeltaChain.Market.Matching
import DeltaChain.Vesting.SharePrice
import DeltaChain.Withdrawals.PowerDown
import DeltaChain.Withdrawals.Room
import DeltaChain.Schedule.Hardforks
import DeltaChain.Schedule.Properties
import DeltaChain.Blocks.Production
import DeltaChain.Signing.Sound
import DeltaChain.Recovery.Membership
import DeltaChain.BlockLog.Opening
import DeltaChain.AccountByKey.Lookup
import DeltaChain.Smt.Control
import DeltaChain.Smt.LegacyAsset
import DeltaChain.Blocks.Customs
import DeltaChain.Blocks.Merkle
import DeltaChain.Protocol.Comparison
import DeltaChain.Protocol.FixedString
import DeltaChain.Rc.Mana
import DeltaChain.Rewards.Fund
import DeltaChain.Comments.Tally
import DeltaChain.Signing.Minimize
import DeltaChain.Signing.MoreKeys
import DeltaChain.Delegation.Lending
import DeltaChain.Rewards.Claims
