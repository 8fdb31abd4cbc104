import DeltaChain.Lib.Checked
import DeltaChain.Protocol.Config

/-!
# Authorities

`authority` of the protocol: a threshold, and the keys and accounts whose weights count
towards it. The two maps are lists of entries in the order of the `flat_map`.
-/

namespace DeltaChain.Protocol

open Lib Checked

/-- `public_key_type`, in its printed form. -/
abbrev PublicKey := String

/-- `public_key_type( base58str )`, up to the test of `DELTA_ADDRESS_PREFIX`. The checksum comes
after it, and no text that is read in the modelled code gets there. -/
def publicKeyOfText (base58str : String) : Checked PublicKey := do
  let expected := "DEL"
  assert (expected.length < base58str.length) "base58str.size() > prefix_len"
  assert (expected.toList.isPrefixOf base58str.toList) "base58str.substr( 0, prefix_len ) == prefix"
  return base58str

structure Authority where
  weightThreshold : Nat := 0
  accountAuths : List (AccountName × Nat) := []
  keyAuths : List (PublicKey × Nat) := []
  deriving DecidableEq, Repr

/-- One label of an account name: a letter first, a letter or digit last, letters, digits and
hyphens between them, and at least three characters. -/
def isValidLabel (label : List Char) : Bool :=
  let letter := fun c : Char => decide ('a' ≤ c ∧ c ≤ 'z')
  let letterOrDigit := fun c : Char => letter c || decide ('0' ≤ c ∧ c ≤ '9')
  decide (3 ≤ label.length) &&
    label.head?.any letter &&
    label.getLast?.any letterOrDigit &&
    label.tail.dropLast.all fun c => letterOrDigit c || c == '-'

def isValidAccountName (name : AccountName) : Bool :=
  decide (minAccountNameLength ≤ name.length) &&
    decide (name.length ≤ maxAccountNameLength) &&
    (name.toList.splitOn '.').all isValidLabel

namespace Authority

/-- All weights together do not reach the threshold. -/
def isImpossible (a : Authority) : Bool :=
  decide ((a.accountAuths.map Prod.snd).sum + (a.keyAuths.map Prod.snd).sum < a.weightThreshold)

def numAuths (a : Authority) : Nat := a.accountAuths.length + a.keyAuths.length

def validate (a : Authority) : Checked Unit :=
  assert (a.accountAuths.all (isValidAccountName ·.1)) "is_valid_account_name( item.first )"

end Authority

end DeltaChain.Protocol
