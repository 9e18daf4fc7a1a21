import RustStateMachine.Lib.Exec
import RustStateMachine.Support

/-!
# System pallet

The block number and the nonce of every account, each written through to the
store. Both increments panic on overflow before anything changes.
-/

namespace RustStateMachine.System

open Lib Lib.KeyValue Std

/-- `b"system:block_number"` -/
def prefixBlockNumber : Bytes := "system:block_number".toUTF8.data.toList

/-- `b"system:nonce:"` -/
def prefixNonce : Bytes := "system:nonce:".toUTF8.data.toList

/-- The height of the chain and the next nonce of each account. -/
structure Pallet (AccountId BlockNumber Nonce : Type) [Ord AccountId] where
  blockNumber : BlockNumber
  nonceMap : ExtTreeMap AccountId Nonce

/-- The panic message of `Option::unwrap`. -/
def unwrapNone : String := "called `Option::unwrap()` on a `None` value"

namespace Pallet

variable {AccountId BlockNumber Nonce : Type} [Ord AccountId] [TransOrd AccountId]

/-- Load the pallet from the store; an absent or undecodable block number is zero. -/
def new [Decode AccountId] [Decode BlockNumber] [Decode Nonce] [Zero BlockNumber]
    (store : Entries) : Pallet AccountId BlockNumber Nonce where
  blockNumber := ((store[prefixBlockNumber]?.bind decode).map Prod.fst).getD 0
  nonceMap := loadMap prefixNonce store

/-- An account without an entry has nonce zero. -/
def nonce [Zero Nonce] (self : Pallet AccountId BlockNumber Nonce) (who : AccountId) : Nonce :=
  self.nonceMap.getD who 0

/-- The key under which a nonce is persisted. -/
def nonceKey [Encode AccountId] (who : AccountId) : Bytes := prefixNonce ++ encode who

section IncBlockNumber

variable [CheckedAdd BlockNumber] [One BlockNumber] [Encode BlockNumber]

/-- Count a block. -/
def incBlockNumber : Exec Write (Pallet AccountId BlockNumber Nonce) Unit := do
  let self ← Exec.read
  let blockNumber ← Exec.unwrap unwrapNone (checkedAdd self.blockNumber 1)
  Exec.modify fun self => { self with blockNumber }
  Exec.emit (.put prefixBlockNumber (encode blockNumber))

omit [TransOrd AccountId] in
theorem incBlockNumber_of_some {self : Pallet AccountId BlockNumber Nonce} {n : BlockNumber}
    (h : checkedAdd self.blockNumber 1 = some n) :
    incBlockNumber self =
      ⟨.ret (), { self with blockNumber := n }, [.put prefixBlockNumber (encode n)]⟩ := by
  simp [incBlockNumber, h]

omit [TransOrd AccountId] in
theorem incBlockNumber_of_none {self : Pallet AccountId BlockNumber Nonce}
    (h : checkedAdd self.blockNumber 1 = none) :
    incBlockNumber self = ⟨.panicked unwrapNone, self, []⟩ := by
  simp [incBlockNumber, h]

end IncBlockNumber

section IncNonce

variable [CheckedAdd Nonce] [Zero Nonce] [One Nonce] [Encode AccountId] [Encode Nonce]

/-- Count an extrinsic of the account. -/
def incNonce (who : AccountId) : Exec Write (Pallet AccountId BlockNumber Nonce) Unit := do
  let self ← Exec.read
  let userNonce := self.nonceMap.getD who 0
  let newNonce ← Exec.unwrap unwrapNone (checkedAdd userNonce 1)
  Exec.modify fun self => { self with nonceMap := self.nonceMap.insert who newNonce }
  Exec.emit (.put (nonceKey who) (encode newNonce))

theorem incNonce_of_some {self : Pallet AccountId BlockNumber Nonce} {who : AccountId} {n : Nonce}
    (h : checkedAdd (self.nonce who) 1 = some n) :
    incNonce who self =
      ⟨.ret (), { self with nonceMap := self.nonceMap.insert who n },
        [.put (nonceKey who) (encode n)]⟩ := by
  rw [nonce] at h
  simp [incNonce, h]

theorem incNonce_of_none {self : Pallet AccountId BlockNumber Nonce} {who : AccountId}
    (h : checkedAdd (self.nonce who) 1 = none) :
    incNonce who self = ⟨.panicked unwrapNone, self, []⟩ := by
  rw [nonce] at h
  simp [incNonce, h]

end IncNonce

end Pallet

end RustStateMachine.System
