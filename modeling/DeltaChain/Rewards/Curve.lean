import DeltaChain.Ledger.Objects

/-!
# How much a comment is paid

`util/asset.hpp` and `util/reward.cpp`: the part of a reward fund that a comment has a claim
to. Claims are 128 bit numbers, their products with a fund 256 bit numbers.
-/

namespace DeltaChain.Ledger

open Lib Protocol Checked

def toDbd (p : Price) (delta : Asset) : Checked Asset := do
  assert (delta.symbol = .delta) "delta.symbol == DELTA_SYMBOL"
  if p.isNull then return ⟨0, .dbd⟩ else delta.mul p

def toDelta (p : Price) (dbd : Asset) : Checked Asset := do
  assert (dbd.symbol = .dbd) "dbd.symbol == DBD_SYMBOL"
  if p.isNull then return ⟨0, .delta⟩ else dbd.mul p

/-- The leading half of the bits. -/
def approxSqrt (x : Nat) : Nat :=
  if x = 0 then 0
  else
    let msbX := x.log2
    let msbZ := msbX >>> 1
    let msbZBit := 1 <<< msbZ
    let mantissaX := x &&& ((1 <<< msbX) - 1)
    let mantissaZHi := if msbX % 2 = 1 then msbZBit else 0
    let mantissaZLo := (mantissaX >>> (msbX - msbZ)) % 2 ^ 64
    msbZBit ||| ((mantissaZHi ||| mantissaZLo) >>> 1)

def evaluateRewardCurve (rshares : Nat) (curve : Curve) (contentConstant : Nat) : Checked Nat :=
  match curve with
  | .quadratic =>
    let rsharesPlusS : Int := rshares + contentConstant
    return u128 (rsharesPlusS * rsharesPlusS - contentConstant * contentConstant)
  | .quadraticCuration => do
    let divisor := u128 (contentConstant * 2 + rshares)
    assert (divisor ≠ 0) "Division by zero."
    return rshares % 2 ^ 64 * 2 ^ 64 / divisor
  | .linear => return rshares
  | .squareRoot => return approxSqrt rshares

def isCommentPayoutDust (p : Price) (deltaPayout : Nat) : Checked Bool := do
  let value ← toDbd p ⟨deltaPayout, .delta⟩
  assert (value.symbol = .dbd) "a.symbol == b.symbol"
  return decide (value.amount < minPayoutDbd)

structure CommentRewardContext where
  rshares : Int
  rewardWeight : Nat
  maxDbd : Asset
  totalRewardShares2 : Nat
  totalRewardFundDelta : Int
  currentDeltaPrice : Price
  rewardCurve : Curve
  contentConstant : Nat

def getRshareReward (ctx : CommentRewardContext) : Checked Nat := do
  assert (ctx.rshares > 0) "ctx.rshares > 0"
  assert (ctx.totalRewardShares2 > 0) "ctx.total_reward_shares2 > 0"
  let claim ← evaluateRewardCurve (u128 ctx.rshares) ctx.rewardCurve ctx.contentConstant
  let claim := claim * ctx.rewardWeight / percent100
  let payout := (ctx.totalRewardFundDelta * claim % 2 ^ 256).toNat / ctx.totalRewardShares2
  assert (payout ≤ int64Max) "payout_u256 <= u256( uint64_t( std::numeric_limits<int64_t>::max() ) )"
  let dust ← isCommentPayoutDust ctx.currentDeltaPrice payout
  let maxDelta ← toDelta ctx.currentDeltaPrice ctx.maxDbd
  return min (if dust then 0 else payout) (maxDelta.amount % 2 ^ 64).toNat

end DeltaChain.Ledger
