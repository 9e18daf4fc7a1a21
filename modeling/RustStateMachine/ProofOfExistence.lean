import RustStateMachine.Lib.Exec
import RustStateMachine.Support

/-!
# Proof-of-existence pallet

Contents claimed by an owner. `create_claim` looks the key it persists up as the
last key of the claims map, which is the greatest content and not necessarily
the one just claimed.
-/

namespace RustStateMachine.ProofOfExistence

open Lib Lib.KeyValue Std Support

/-- `b"poe:"` -/
def prefixPoe : Bytes := "poe:".toUTF8.data.toList

/-- Who owns each claimed content. -/
structure Pallet (AccountId Content : Type) [Ord Content] where
  claims : ExtTreeMap Content AccountId

/-- The callable functions of the pallet. -/
inductive Call (Content : Type) where
  | createClaim (claim : Content)
  | revokeClaim (claim : Content)
deriving DecidableEq

namespace Pallet

variable {AccountId Content : Type} [Ord Content] [TransOrd Content]

/-- Load the pallet from the store. -/
def new [Decode AccountId] [Decode Content] (store : Entries) : Pallet AccountId Content where
  claims := loadMap prefixPoe store

/-- The owner of a content, if it is claimed. -/
def getClaim (self : Pallet AccountId Content) (claim : Content) : Option AccountId :=
  self.claims[claim]?

/-- The key under which a claim is persisted. -/
def claimKey [Encode Content] (claim : Content) : Bytes := prefixPoe ++ encode claim

section Writes

variable [Encode AccountId] [Encode Content] [DecidableEq AccountId]

/-- Claim a content that nobody has claimed. What is persisted is the entry of the last key. -/
def createClaim (caller : AccountId) (claim : Content) :
    Exec Write (Pallet AccountId Content) DispatchResult := do
  let self ← Exec.read
  if self.claims.contains claim then
    return .error "this content is already claimed"
  Exec.modify fun self => { self with claims := self.claims.insert claim caller }
  let self ← Exec.read
  let lastClaim ← Exec.unwrap "inserted; map not empty" self.claims.keys.getLast?
  let owner ← Exec.unwrap "owner exists" self.claims[lastClaim]?
  Exec.emit (.put (claimKey lastClaim) (encode owner))
  return .ok ()

/-- Give a claim up, which only its owner can. -/
def revokeClaim (caller : AccountId) (claim : Content) :
    Exec Write (Pallet AccountId Content) DispatchResult := do
  let self ← Exec.read
  match self.claims[claim]? with
  | none => return .error "claim does not exist"
  | some owner =>
    if owner ≠ caller then
      return .error "caller is not owner"
    Exec.modify fun self => { self with claims := self.claims.erase claim }
    Exec.emit (.delete (claimKey claim))
    return .ok ()

/-- Route a call to the function of its name. -/
def dispatch (caller : AccountId) :
    Call Content → Exec Write (Pallet AccountId Content) DispatchResult
  | .createClaim claim => createClaim caller claim
  | .revokeClaim claim => revokeClaim caller claim

omit [DecidableEq AccountId] in
theorem createClaim_of_some {self : Pallet AccountId Content} {claim : Content}
    {owner : AccountId} (h : self.claims[claim]? = some owner) (caller : AccountId) :
    createClaim caller claim self =
      ⟨.ret (.error "this content is already claimed"), self, []⟩ := by
  have hc : claim ∈ self.claims := (ExtTreeMap.getElem?_eq_some_iff.mp h).1
  simp [createClaim, hc]

omit [DecidableEq AccountId] in
/-- Both `expect`s succeed after the insertion: the map has a last key, and it has an owner. -/
theorem createClaim_of_none [LawfulEqOrd Content] {self : Pallet AccountId Content}
    {claim : Content} (h : self.claims[claim]? = none) (caller : AccountId) :
    ∃ last owner, (self.claims.insert claim caller).keys.getLast? = some last ∧
      (self.claims.insert claim caller)[last]? = some owner ∧
      createClaim caller claim self =
        ⟨.ret (.ok ()), ⟨self.claims.insert claim caller⟩,
          [.put (claimKey last) (encode owner)]⟩ := by
  have hc : claim ∉ self.claims := by
    intro hmem
    rw [ExtTreeMap.getElem?_eq_some_iff.mpr ⟨hmem, rfl⟩] at h
    cases h
  obtain ⟨last, hlast⟩ := OrderedMap.exists_last_key_insert self.claims claim caller
  obtain ⟨⟨owner, howner⟩, -⟩ := (OrderedMap.keys_getLast?_eq_some_iff _ last).mp hlast
  refine ⟨last, owner, hlast, howner, ?_⟩
  simp [createClaim, hc, hlast, howner]

omit [Encode AccountId] in
theorem revokeClaim_of_none {self : Pallet AccountId Content} {claim : Content}
    (h : self.claims[claim]? = none) (caller : AccountId) :
    revokeClaim caller claim self = ⟨.ret (.error "claim does not exist"), self, []⟩ := by
  simp [revokeClaim, h]

omit [Encode AccountId] in
theorem revokeClaim_of_ne {self : Pallet AccountId Content} {claim : Content}
    {owner caller : AccountId} (h : self.claims[claim]? = some owner) (hne : owner ≠ caller) :
    revokeClaim caller claim self = ⟨.ret (.error "caller is not owner"), self, []⟩ := by
  simp [revokeClaim, h, hne]

omit [Encode AccountId] in
theorem revokeClaim_of_owner {self : Pallet AccountId Content} {claim : Content}
    {caller : AccountId} (h : self.claims[claim]? = some caller) :
    revokeClaim caller claim self =
      ⟨.ret (.ok ()), ⟨self.claims.erase claim⟩, [.delete (claimKey claim)]⟩ := by
  simp [revokeClaim, h]

end Writes

end Pallet

section CallCodec

variable {Content : Type} [Encode Content] [Decode Content]

/-- The variant index, then the fields. -/
instance : Encode (Call Content) where
  encode
    | .createClaim claim => 0 :: encode claim
    | .revokeClaim claim => 1 :: encode claim

def decodeCall : Bytes → Option (Call Content × Bytes)
  | 0 :: bs => (decode bs).map (Prod.map .createClaim id)
  | 1 :: bs => (decode bs).map (Prod.map .revokeClaim id)
  | _ => none

instance : Decode (Call Content) := ⟨decodeCall⟩

instance [PrefixCodec Content] : PrefixCodec (Call Content) where
  decode_append c rest := by
    cases c with
    | createClaim claim => exact Codec.decode_map_append Call.createClaim claim rest
    | revokeClaim claim => exact Codec.decode_map_append Call.revokeClaim claim rest
  append_of_decode {bytes rest c} h := by
    change decodeCall bytes = some (c, rest) at h
    unfold decodeCall at h
    split at h
    · obtain ⟨claim, rfl, rfl⟩ := Codec.append_of_decode_map h
      rfl
    · obtain ⟨claim, rfl, rfl⟩ := Codec.append_of_decode_map h
      rfl
    · cases h

end CallCodec

end RustStateMachine.ProofOfExistence
