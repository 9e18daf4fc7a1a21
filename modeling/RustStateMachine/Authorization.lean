import RustStateMachine.Execution

/-!
# Authorization

What a block takes from an account, its nonce, its balance or its claims, is
accounted for by accepted extrinsics of that account.
-/

namespace RustStateMachine.Runtime

open Lib Lib.KeyValue Std Support

/-- The amount a call moves out of its caller's balance if it goes through. -/
def amountOf : RuntimeCall → ℕ
  | .balances (.transfer _ amount) => amount.toNat
  | .proofOfExistence _ => 0

/-- The amounts of the transfers of one account, added up. -/
def spending (a : Types.AccountId) (exts : List Types.Extrinsic) : ℕ :=
  ((exts.filter fun e => e.signer = a).map fun e => amountOf e.call).sum

theorem spending_cons (a : Types.AccountId) (ext : Types.Extrinsic)
    (exts : List Types.Extrinsic) :
    spending a (ext :: exts) =
      (if ext.signer = a then amountOf ext.call else 0) + spending a exts := by
  rw [spending, List.filter_cons]
  split_ifs with h h' h'
  · rfl
  · exact absurd (of_decide_eq_true h) h'
  · exact absurd (decide_eq_true h') h
  · rw [Nat.zero_add]
    rfl

theorem DispatchEffect.balance_le {caller : Types.AccountId} {self : Runtime} {call : RuntimeCall}
    {r : Run Event Runtime DispatchResult} (h : DispatchEffect caller self call r)
    (a : Types.AccountId) :
    (self.balances.balance a).toNat ≤
      (r.state.balances.balance a).toNat + if caller = a then amountOf call else 0 := by
  cases h with
  | failed => exact Nat.le_add_right _ _
  | @transferred recipient amount x y hx hy =>
      have hread : (⟨(self.balances.balances.insert caller x).insert recipient y⟩ :
          Balances.Pallet Types.AccountId Types.Balance).balance a =
            if recipient = a then y else if caller = a then x else self.balances.balance a := by
        rw [Balances.Pallet.balance, OrderedMap.getD_insert, OrderedMap.getD_insert]
        rfl
      dsimp only
      rw [hread, amountOf]
      by_cases hrecipient : recipient = a
      · subst hrecipient
        rw [if_pos rfl, hy]
        exact Nat.le_add_right_of_le (Nat.le_add_right _ _)
      · rw [if_neg hrecipient]
        by_cases hcaller : caller = a
        · subst hcaller
          rw [if_pos rfl, if_pos rfl, hx]
        · rw [if_neg hcaller, if_neg hcaller]
          exact Nat.le_refl _
  | created => exact Nat.le_add_right _ _
  | revoked => exact Nat.le_add_right _ _

theorem DispatchEffect.claim_kept {caller : Types.AccountId} {self : Runtime} {call : RuntimeCall}
    {r : Run Event Runtime DispatchResult} (h : DispatchEffect caller self call r)
    {claim : Types.Content} {a : Types.AccountId}
    (hclaim : self.proofOfExistence.claims[claim]? = some a) :
    r.state.proofOfExistence.claims[claim]? = some a ∨
      (caller = a ∧ call = .proofOfExistence (.revokeClaim claim)) := by
  cases h with
  | failed => exact .inl hclaim
  | transferred => exact .inl hclaim
  | @created claim' last owner hfree hlast howner =>
      have hne : ¬ claim' = claim := by
        rintro rfl
        rw [hclaim] at hfree
        cases hfree
      refine .inl ?_
      dsimp only
      rw [OrderedMap.getElem?_insert, if_neg hne, hclaim]
  | @revoked claim' howner =>
      by_cases heq : claim' = claim
      · subst heq
        rw [howner] at hclaim
        exact .inr ⟨Option.some.inj hclaim, rfl⟩
      · refine .inl ?_
        dsimp only
        rw [OrderedMap.getElem?_erase, if_neg heq, hclaim]

variable [Ed25519]

/-- The extrinsics among the steps that passed both checks where they were reached. -/
def acceptedAmong (sts : List (Exec.Step Event Runtime (Types.Extrinsic × ℕ) Unit)) :
    List Types.Extrinsic :=
  (sts.filter fun st => Accepted st.input.1 st.before).map fun st => st.input.1

/-- The accepted extrinsics of a block executed from a state, in order. -/
def acceptedIn (block : Types.Block) (self : Runtime) : List Types.Extrinsic :=
  acceptedAmong (extrinsicSteps block self)

theorem acceptedAmong_cons (s : Runtime) (p : Types.Extrinsic × ℕ) (r : Run Event Runtime Unit)
    (sts : List (Exec.Step Event Runtime (Types.Extrinsic × ℕ) Unit)) :
    acceptedAmong (⟨s, p, r⟩ :: sts) =
      if Accepted p.1 s then p.1 :: acceptedAmong sts else acceptedAmong sts := by
  by_cases h : Accepted p.1 s
  · simp [acceptedAmong, h]
  · simp [acceptedAmong, h]

/-- The accepted extrinsics are extrinsics of the block, in the block's order. -/
theorem acceptedIn_sublist (block : Types.Block) (self : Runtime) :
    (acceptedIn block self).Sublist block.extrinsics := by
  rw [acceptedIn, extrinsicSteps]
  split_ifs with h
  · have hinputs := Exec.steps_inputs_prefix (applyIndexed block.header.blockNumber)
      block.extrinsics.zipIdx (self.setBlockNumber block.header.blockNumber)
    have hfst := (hinputs.map Prod.fst).sublist
    rw [List.zipIdx_map_fst, List.map_map] at hfst
    exact (List.filter_sublist.map _).trans hfst
  · exact List.nil_sublist _

/-- An extrinsic that is not accepted changes nothing. -/
theorem ExtrinsicEffect.state_eq {ext : Types.Extrinsic} {self : Runtime}
    {r : Run Event Runtime Unit} (h : ExtrinsicEffect ext self r) (hacc : ¬ Accepted ext self) :
    r.state = self := by
  cases h with
  | skipped => rfl
  | overflowed => rfl
  | applied h => exact absurd h hacc

/-- A block changes the nonce of an account only if it accepts an extrinsic of that account. -/
theorem nonce_changed_accepted (block : Types.Block) (self : Runtime) (a : Types.AccountId)
    (h : (executeBlock block self).state.system.nonce a ≠ self.system.nonce a) :
    ∃ ext ∈ acceptedIn block self, ext.signer = a := by
  by_contra hnone
  refine h (executeBlock_induction (fun s sts s' =>
    (¬ ∃ ext ∈ acceptedAmong sts, ext.signer = a) → s'.system.nonce a = s.system.nonce a)
    (fun _ _ => rfl) (fun _ _ _ _ h => h) ?_ block self hnone)
  intro p s r sts s' heff ih hnone
  rw [acceptedAmong_cons] at hnone
  by_cases hacc : Accepted p.1 s
  · rw [if_pos hacc] at hnone
    push Not at hnone
    have hother := hnone p.1 List.mem_cons_self
    rw [ih]
    · rcases heff.nonce_cases with ⟨-, hsystem⟩ | ⟨-, -, hnonce⟩
      · rw [hsystem]
      · apply BitVec.eq_of_toNat_eq
        rw [hnonce a, if_neg hother, Nat.add_zero]
    · rintro ⟨ext, hext, hsigner⟩
      exact hnone ext (List.mem_cons_of_mem _ hext) hsigner
  · rw [if_neg hacc] at hnone
    rw [ih hnone, heff.state_eq hacc]

/-- A block takes from the balance of an account at most what its accepted transfers name. -/
theorem balance_le_executeBlock (block : Types.Block) (self : Runtime) (a : Types.AccountId) :
    (self.balances.balance a).toNat ≤
      ((executeBlock block self).state.balances.balance a).toNat +
        spending a (acceptedIn block self) := by
  refine executeBlock_induction (fun s sts s' => (s.balances.balance a).toNat ≤
    (s'.balances.balance a).toNat + spending a (acceptedAmong sts))
    (fun _ => Nat.le_add_right _ _) (fun _ _ _ _ h => h) ?_ block self
  intro p s r sts s' heff ih
  rw [acceptedAmong_cons]
  cases heff with
  | skipped text hacc =>
      rw [if_neg hacc]
      exact ih
  | overflowed hacc hmax =>
      rw [if_pos hacc, spending_cons]
      dsimp only at ih
      omega
  | applied hacc hm hd htail =>
      have hle := hd.balance_le a
      rw [if_pos hacc, spending_cons]
      dsimp only [setNonce_balances] at hle ih ⊢
      calc (s.balances.balance a).toNat
          ≤ _ + if p.1.signer = a then amountOf p.1.call else 0 := hle
        _ ≤ (s'.balances.balance a).toNat + spending a (acceptedAmong sts) +
            if p.1.signer = a then amountOf p.1.call else 0 := Nat.add_le_add_right ih _
        _ = (s'.balances.balance a).toNat + ((if p.1.signer = a then amountOf p.1.call else 0) +
            spending a (acceptedAmong sts)) := by omega

/-- A block takes a claim from its owner only by an accepted revocation of that owner. -/
theorem claim_kept_executeBlock (block : Types.Block) (self : Runtime) {a : Types.AccountId}
    {claim : Types.Content} (hclaim : self.proofOfExistence.claims[claim]? = some a) :
    (executeBlock block self).state.proofOfExistence.claims[claim]? = some a ∨
      ∃ ext ∈ acceptedIn block self,
        ext.signer = a ∧ ext.call = .proofOfExistence (.revokeClaim claim) := by
  refine executeBlock_induction (fun s sts s' => s.proofOfExistence.claims[claim]? = some a →
    s'.proofOfExistence.claims[claim]? = some a ∨ ∃ ext ∈ acceptedAmong sts,
      ext.signer = a ∧ ext.call = .proofOfExistence (.revokeClaim claim))
    (fun _ h => .inl h) (fun _ _ _ _ h => h) ?_ block self hclaim
  intro p s r sts s' heff ih hs
  have hlater : r.state.proofOfExistence.claims[claim]? = some a →
      s'.proofOfExistence.claims[claim]? = some a ∨
        ∃ ext ∈ acceptedAmong (⟨s, p, r⟩ :: sts),
          ext.signer = a ∧ ext.call = .proofOfExistence (.revokeClaim claim) := by
    intro hr
    rcases ih hr with hkept | ⟨ext, hext, hrevoke⟩
    · exact .inl hkept
    · refine .inr ⟨ext, ?_, hrevoke⟩
      rw [acceptedAmong_cons]
      split_ifs
      · exact List.mem_cons_of_mem _ hext
      · exact hext
  by_cases hacc : Accepted p.1 s
  · have hstep : r.state.proofOfExistence.claims[claim]? = some a ∨
        (p.1.signer = a ∧ p.1.call = .proofOfExistence (.revokeClaim claim)) := by
      cases heff with
      | skipped => exact .inl hs
      | overflowed => exact .inl hs
      | applied _ _ hd _ => exact hd.claim_kept hs
    rcases hstep with hr | hrevoke
    · exact hlater hr
    · refine .inr ⟨p.1, ?_, hrevoke⟩
      rw [acceptedAmong_cons, if_pos hacc]
      exact List.mem_cons_self
  · apply hlater
    rw [heff.state_eq hacc]
    exact hs

/-- Nonces, balances and claims of an account change to its disadvantage only through accepted
extrinsics of the block that the account signed. -/
theorem executeBlock_authorized (block : Types.Block) (self : Runtime) (a : Types.AccountId) :
    (acceptedIn block self).Sublist block.extrinsics ∧
    ((executeBlock block self).state.system.nonce a ≠ self.system.nonce a →
      ∃ ext ∈ acceptedIn block self, ext.signer = a) ∧
    (self.balances.balance a).toNat ≤
      ((executeBlock block self).state.balances.balance a).toNat +
        spending a (acceptedIn block self) ∧
    ∀ claim : Types.Content, self.proofOfExistence.claims[claim]? = some a →
      (executeBlock block self).state.proofOfExistence.claims[claim]? = some a ∨
        ∃ ext ∈ acceptedIn block self,
          ext.signer = a ∧ ext.call = .proofOfExistence (.revokeClaim claim) :=
  ⟨acceptedIn_sublist block self, nonce_changed_accepted block self a,
    balance_le_executeBlock block self a, fun _ => claim_kept_executeBlock block self⟩

end RustStateMachine.Runtime
