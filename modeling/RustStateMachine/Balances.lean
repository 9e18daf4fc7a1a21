import RustStateMachine.Lib.Exec
import RustStateMachine.Support

/-!
# Balances pallet

`transfer` reads both balances first and writes both afterwards, so the second
write wins when caller and recipient are the same account.
-/

namespace RustStateMachine.Balances

open Lib Lib.KeyValue Std Support

/-- `b"balances:"` -/
def prefixBalance : Bytes := "balances:".toUTF8.data.toList

/-- The balances of the accounts that have an entry. -/
structure Pallet (AccountId Balance : Type) [Ord AccountId] where
  balances : ExtTreeMap AccountId Balance

/-- The callable functions of the pallet; `recipient` is the field `to`. -/
inductive Call (AccountId Balance : Type) where
  | transfer (recipient : AccountId) (amount : Balance)
deriving DecidableEq

namespace Pallet

variable {AccountId Balance : Type} [Ord AccountId] [TransOrd AccountId]

/-- Load the pallet from the store. -/
def new [Decode AccountId] [Decode Balance] (store : Entries) : Pallet AccountId Balance where
  balances := loadMap prefixBalance store

/-- An account without an entry has balance zero. -/
def balance [Zero Balance] (self : Pallet AccountId Balance) (who : AccountId) : Balance :=
  self.balances.getD who 0

section Writes

variable [Encode AccountId] [Encode Balance]

/-- The key under which a balance is persisted. -/
def balanceKey (who : AccountId) : Bytes := prefixBalance ++ encode who

/-- Set a balance in memory, then write it through. -/
def setBalance (who : AccountId) (amount : Balance) :
    Exec Write (Pallet AccountId Balance) Unit := do
  Exec.modify fun self => { self with balances := self.balances.insert who amount }
  Exec.emit (.put (balanceKey who) (encode amount))

@[simp] theorem setBalance_apply (who : AccountId) (amount : Balance)
    (self : Pallet AccountId Balance) :
    setBalance who amount self =
      ⟨.ret (), ⟨self.balances.insert who amount⟩, [.put (balanceKey who) (encode amount)]⟩ := rfl

variable [Zero Balance] [CheckedAdd Balance] [CheckedSub Balance]

/-- Move an amount to the recipient. Both balances are read before either is written. -/
def transfer (caller recipient : AccountId) (amount : Balance) :
    Exec Write (Pallet AccountId Balance) DispatchResult := do
  let self ← Exec.read
  let callerBalance := self.balance caller
  let recipientBalance := self.balance recipient
  match checkedSub callerBalance amount with
  | none => return .error "Not enough funds."
  | some newCallerBalance =>
    match checkedAdd recipientBalance amount with
    | none => return .error "Overflow"
    | some newRecipientBalance =>
      setBalance caller newCallerBalance
      setBalance recipient newRecipientBalance
      return .ok ()

/-- Route a call to the function of its name. -/
def dispatch (caller : AccountId) :
    Call AccountId Balance → Exec Write (Pallet AccountId Balance) DispatchResult
  | .transfer recipient amount => transfer caller recipient amount

theorem transfer_of_sub_none {self : Pallet AccountId Balance} {caller recipient : AccountId}
    {amount : Balance} (h : checkedSub (self.balance caller) amount = none) :
    transfer caller recipient amount self = ⟨.ret (.error "Not enough funds."), self, []⟩ := by
  simp [transfer, h]

theorem transfer_of_add_none {self : Pallet AccountId Balance} {caller recipient : AccountId}
    {amount x : Balance} (hsub : checkedSub (self.balance caller) amount = some x)
    (hadd : checkedAdd (self.balance recipient) amount = none) :
    transfer caller recipient amount self = ⟨.ret (.error "Overflow"), self, []⟩ := by
  simp [transfer, hsub, hadd]

theorem transfer_of_some {self : Pallet AccountId Balance} {caller recipient : AccountId}
    {amount x y : Balance} (hsub : checkedSub (self.balance caller) amount = some x)
    (hadd : checkedAdd (self.balance recipient) amount = some y) :
    transfer caller recipient amount self =
      ⟨.ret (.ok ()), ⟨(self.balances.insert caller x).insert recipient y⟩,
        [.put (balanceKey caller) (encode x), .put (balanceKey recipient) (encode y)]⟩ := by
  simp [transfer, hsub, hadd]

end Writes

end Pallet

section CallCodec

variable {AccountId Balance : Type} [Encode AccountId] [Decode AccountId] [Encode Balance]
  [Decode Balance]

/-- The variant index, then the fields. -/
instance : Encode (Call AccountId Balance) where
  encode
    | .transfer recipient amount => 0 :: encode (recipient, amount)

def decodeCall : Bytes → Option (Call AccountId Balance × Bytes)
  | 0 :: bs => (decode bs).map fun (p : (AccountId × Balance) × Bytes) =>
      (.transfer p.1.1 p.1.2, p.2)
  | _ => none

instance : Decode (Call AccountId Balance) := ⟨decodeCall⟩

instance [PrefixCodec AccountId] [PrefixCodec Balance] : PrefixCodec (Call AccountId Balance) where
  decode_append c rest := by
    obtain ⟨recipient, amount⟩ := c
    have h := decode_append (recipient, amount) rest
    change (decode (encode (recipient, amount) ++ rest)).map _ = _
    rw [h]
    rfl
  append_of_decode {bytes rest c} h := by
    change decodeCall bytes = some (c, rest) at h
    unfold decodeCall at h
    split at h
    · obtain ⟨p, hp, heq⟩ := Option.map_eq_some_iff.mp h
      cases heq
      exact congrArg (0 :: ·) (append_of_decode hp)
    · cases h

end CallCodec

end RustStateMachine.Balances
