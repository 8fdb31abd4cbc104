import Mathlib

/-!
# Constants of the protocol

The constants of `config.hpp` that the modelled functions use, for the live network, without the
`DELTA_` of their names. Here and in the other modules a definition has the name of what it models,
in camel case and without a `get_`, `smt_`, `_object` or `_evaluator`; where the names differ otherwise, a
comment has the one of the source.
-/

namespace DeltaChain.Protocol

abbrev AccountName := String

def initMinerName : AccountName := "initminer"

/-- `DELTA_BLOCKS_PER_DAY`, with a block every 3 seconds. -/
def blocksPerDay : Nat := 24 * 60 * 60 / 3

def startMinerVotingBlock : Nat := blocksPerDay * 30

def maxWitnesses : Nat := 21

/-- `DELTA_100_PERCENT`. -/
def percent100 : Nat := 10000

/-- 75 percent. -/
def irreversibleThreshold : Nat := 75 * (percent100 / 100)

def maxUndoHistory : Nat := 10000

def minerAccount : AccountName := "miners"

/-- The account whose balances are burnt with every block. -/
def nullAccount : AccountName := "null"

/-- The account anybody may sign for. -/
def tempAccount : AccountName := "temp"

/-- The value of `proxy` in an account that votes itself. -/
def proxyToSelfAccount : AccountName := ""

def minAccountNameLength : Nat := 3

def maxAccountNameLength : Nat := 16

def maxSigCheckDepth : Nat := 2

def maxSigCheckAccounts : Nat := 125

def maxAuthorityMembership : Nat := 40

def maxProxyRecursionDepth : Nat := 4

def maxAccountWitnessVotes : Nat := 30

/-- The largest `uint128`. -/
def virtualScheduleLapLength2 : Nat := 2 ^ 128 - 1

def vestingWithdrawIntervals : Nat := 13

/-- A week. -/
def vestingWithdrawIntervalSeconds : Nat := 60 * 60 * 24 * 7

def maxWithdrawRoutes : Nat := 10

/-- Five days. -/
def votingManaRegenerationSeconds : Nat := 5 * 60 * 60 * 24

def delegationReturnPeriodHf20 : Nat := votingManaRegenerationSeconds

/-- Thirty days. -/
def ownerAuthRecoveryPeriod : Nat := 30 * 24 * 60 * 60

def secondsPerYear : Nat := 60 * 60 * 24 * 365

/-- Thirty days. -/
def dbdInterestCompoundIntervalSec : Nat := 60 * 60 * 24 * 30

/-- Twenty-eight days. -/
def maxLimitOrderExpiration : Nat := 60 * 60 * 24 * 28

def maxSatoshis : Int := 4611686018427387903

/-- An amount of DBD. -/
def minPayoutDbd : Int := 20

def postRewardFundName : String := "post"

/-- `DELTA_RECENT_RSHARES_DECAY_TIME_HF19`, fifteen days. -/
def recentRsharesDecayTime : Nat := 15 * 24 * 60 * 60

def minAccountCreationFee : Int := 1

def maxAccountCreationFee : Int := 1000000000

def genesisTime : Nat := 1458835200

/-- `fc::time_point_sec::maximum()`. -/
def timePointSecMaximum : Nat := 2 ^ 32 - 1

def maxVotedWitnessesHf0 : Nat := 19

def maxMinerWitnessesHf0 : Nat := 1

def hardforkRequiredWitnesses : Nat := 17

def minBlockSizeLimit : Nat := 1024 * 64

def softMaxBlockSize : Nat := 2 * 1024 * 1024

def maxBlockSize : Nat := 1024 * 64 * 3 * 2000

def defaultDbdInterestRate : Nat := 10 * (percent100 / 100)

def rdDecayDenomShift : Nat := 36

def rdMinBudget : Int := 1

def rdMaxBudget : Int := 2 ^ 28 - 1

def rdMinDecay : Nat := 2 ^ 6

def rdMaxDecay : Nat := 2 ^ 32 - 1

def accountSubsidyPrecision : Nat := percent100

def witnessSubsidyBudgetPercent : Nat := 125 * (percent100 / 100)

def witnessSubsidyDecayPercent : Nat := maxWitnesses * percent100

def defaultAccountSubsidyDecay : Nat := 347321

def defaultAccountSubsidyBudget : Int := 797

def decayBackstopPercent : Nat := 90 * (percent100 / 100)

def numHardforks : Nat := 20

def maxCommentDepth : Nat := 0xffff

/-- Five minutes. -/
def minRootCommentInterval : Nat := 60 * 5

def minReplyIntervalHf20 : Nat := 3

def minPermlinkLength : Nat := 0

def maxPermlinkLength : Nat := 256

/-- A week. -/
def cashoutWindowSeconds : Nat := 60 * 60 * 24 * 7

def minVoteIntervalSec : Nat := 3

def maxVoteChanges : Nat := 5

def voteDustThreshold : Nat := 50000000

/-- Twelve hours. -/
def upvoteLockoutSeconds : Nat := 60 * 60 * 12

/-- The parent author of a comment without a parent. -/
def rootPostParent : AccountName := ""

def maxWitnessUrlLength : Nat := 2048

def hardfork01 : Nat := 1

/-- `DELTA_HARDFORK_0_5__54`: hardforks are voted on. -/
def hardfork05 : Nat := 5

/-- `DELTA_HARDFORK_0_14__278`: witnesses without a signing key are passed over. -/
def hardfork014 : Nat := 14

/-- Transactions expire a moment earlier. -/
def hardfork09 : Nat := 9

/-- The size of blocks is bounded. -/
def hardfork012 : Nat := 12

def hardfork020 : Nat := 20

def hardfork011 : Nat := 11

/-- `DELTA_HARDFORK_0_15__465`: the accounts of an authority have to exist. -/
def hardfork015 : Nat := 15

/-- A day. -/
def accountRecoveryRequestExpirationPeriod : Nat := 24 * 60 * 60

/-- An hour. -/
def ownerUpdateLimit : Nat := 60 * 60

def ownerAuthHistoryTrackingStartBlockNum : Nat := 3186477

def blockInterval : Nat := 3

def maxTimeUntilExpiration : Nat := 60 * 60

/-- `DELTA_BLOCKCHAIN_VERSION`, 0.20.9. -/
def blockchainVersion : Nat := 20 * 2 ^ 16 + 9

end DeltaChain.Protocol
