import RustStateMachine.Atomicity
import RustStateMachine.Conservation

/-!
# Extrinsics that commute

Extrinsics of different signers touch different nonces, and mostly different
balances and claims. Where two transfers share their recipient, a supply that
fits keeps the overflow check from depending on their order.
-/

namespace RustStateMachine

open Lib Lib.KeyValue Std Support

/-! ## Calls on one pallet -/

namespace Balances.Pallet

section After

variable {AccountId Balance : Type} [Ord AccountId] [TransOrd AccountId] [Encode AccountId]
  [Encode Balance] [Zero Balance] [CheckedAdd Balance] [CheckedSub Balance]

/-- The balances a call leaves. -/
def after (caller : AccountId) (call : Call AccountId Balance)
    (m : ExtTreeMap AccountId Balance) : ExtTreeMap AccountId Balance :=
  (dispatch caller call ⟨m⟩).state.balances

theorem after_transfer (caller recipient : AccountId) (amount : Balance)
    (m : ExtTreeMap AccountId Balance) :
    after caller (.transfer recipient amount) m =
      match checkedSub (m.getD caller 0) amount, checkedAdd (m.getD recipient 0) amount with
      | some x, some y => (m.insert caller x).insert recipient y
      | _, _ => m := by
  rw [after, dispatch]
  cases hsub : checkedSub (m.getD caller 0) amount with
  | none =>
      have hrun : transfer caller recipient amount ⟨m⟩ = _ := transfer_of_sub_none hsub
      rw [hrun]
  | some x =>
      cases hadd : checkedAdd (m.getD recipient 0) amount with
      | none =>
          have hrun : transfer caller recipient amount ⟨m⟩ = _ := transfer_of_add_none hsub hadd
          rw [hrun]
      | some y =>
          have hrun : transfer caller recipient amount ⟨m⟩ = _ := transfer_of_some hsub hadd
          rw [hrun]

variable [LawfulEqOrd AccountId]

theorem localOn_after (caller recipient : AccountId) (amount : Balance) :
    OrderedMap.LocalOn {caller, recipient} (after caller (.transfer recipient amount)) := by
  classical
  constructor
  · intro m k hk
    rw [Set.mem_insert_iff, Set.mem_singleton_iff, not_or] at hk
    rw [after_transfer]
    split
    · rw [OrderedMap.getElem?_insert, if_neg (Ne.symm hk.2), OrderedMap.getElem?_insert,
        if_neg (Ne.symm hk.1)]
    · rfl
  · intro m m' h k hk
    have hcaller : m.getD caller 0 = m'.getD caller 0 := by
      rw [ExtTreeMap.getD_eq_getD_getElem?, h caller (Set.mem_insert _ _),
        ← ExtTreeMap.getD_eq_getD_getElem?]
    have hrecipient : m.getD recipient 0 = m'.getD recipient 0 := by
      rw [ExtTreeMap.getD_eq_getD_getElem?, h recipient (Set.mem_insert_of_mem _ rfl),
        ← ExtTreeMap.getD_eq_getD_getElem?]
    rw [after_transfer, after_transfer, hcaller, hrecipient]
    split
    · simp only [OrderedMap.getElem?_insert, h k hk]
    · exact h k hk

end After

/-! A common recipient. -/

variable {m : ExtTreeMap Types.AccountId Types.Balance} {caller recipient : Types.AccountId}
  {amount : Types.Balance}

theorem after_of_lt (h : (m.getD caller 0).toNat < amount.toNat) :
    after caller (.transfer recipient amount) m = m := by
  rw [after_transfer, Machine.checkedSub_eq_none.mpr h]

theorem after_of_le (hfunds : amount.toNat ≤ (m.getD caller 0).toNat)
    (hroom : (m.getD recipient 0).toNat + amount.toNat < 2 ^ 128) :
    ∃ x y : Types.Balance, x.toNat + amount.toNat = (m.getD caller 0).toNat ∧
      y.toNat = (m.getD recipient 0).toNat + amount.toNat ∧
      after caller (.transfer recipient amount) m = (m.insert caller x).insert recipient y := by
  cases hsub : checkedSub (m.getD caller 0) amount with
  | none => exact absurd hfunds (Nat.not_le.mpr (Machine.checkedSub_eq_none.mp hsub))
  | some x =>
      cases hadd : checkedAdd (m.getD recipient 0) amount with
      | none => exact absurd hroom (Nat.not_lt.mpr (Machine.checkedAdd_eq_none.mp hadd))
      | some y =>
          refine ⟨x, y, Machine.checkedSub_eq_some.mp hsub, Machine.checkedAdd_eq_some.mp hadd, ?_⟩
          rw [after_transfer, hsub, hadd]

/-- The balances of three accounts are part of the supply. -/
theorem three_le_total {a b c : Types.AccountId} (hab : a ≠ b) (hac : a ≠ c) (hbc : b ≠ c) :
    (m.getD a 0).toNat + (m.getD b 0).toNat + (m.getD c 0).toNat ≤
      OrderedMap.total BitVec.toNat m := by
  have hsum := OrderedMap.sum_weightAt_le_total BitVec.toNat m {a, b, c}
  have hweight : ∀ k, OrderedMap.weightAt BitVec.toNat m k = (m.getD k 0).toNat :=
    fun k => Runtime.weightAt_balance ⟨m⟩ k
  rw [Finset.sum_insert (by simp [hab, hac]), Finset.sum_pair hbc] at hsum
  simp only [hweight] at hsum
  omega

/-- A transfer to someone else leaves a balance alone. -/
theorem getD_after_of_ne {other : Types.AccountId} (hcaller : caller ≠ other)
    (hrecipient : recipient ≠ other) :
    (after caller (.transfer recipient amount) m).getD other 0 = m.getD other 0 := by
  have hnot : other ∉ ({caller, recipient} : Set Types.AccountId) := by
    simp [hcaller.symm, hrecipient.symm]
  rw [ExtTreeMap.getD_eq_getD_getElem?, (localOn_after caller recipient amount).frame m other hnot,
    ← ExtTreeMap.getD_eq_getD_getElem?]

/-- Two transfers to one recipient, both of which go through. -/
theorem after_after_of_le {other : Types.AccountId} {amount' : Types.Balance}
    (hne : caller ≠ other) (hother : recipient ≠ other)
    (hfunds : amount.toNat ≤ (m.getD caller 0).toNat)
    (hfunds' : amount'.toNat ≤ (m.getD other 0).toNat)
    (hroom : (m.getD recipient 0).toNat + amount.toNat + amount'.toNat < 2 ^ 128) :
    ∃ x x' y : Types.Balance, x.toNat + amount.toNat = (m.getD caller 0).toNat ∧
      x'.toNat + amount'.toNat = (m.getD other 0).toNat ∧
      y.toNat = (m.getD recipient 0).toNat + amount.toNat + amount'.toNat ∧
      after other (.transfer recipient amount') (after caller (.transfer recipient amount) m) =
        ((m.insert caller x).insert other x').insert recipient y := by
  have hroom' : (m.getD recipient 0).toNat + amount.toNat < 2 ^ 128 :=
    Nat.lt_of_le_of_lt (Nat.le_add_right _ _) hroom
  obtain ⟨x, z, hx, hz, hfirst⟩ := after_of_le hfunds hroom'
  have hread := @getD_after_of_ne m caller recipient amount other hne hother
  have hread' : (after caller (.transfer recipient amount) m).getD recipient 0 = z := by
    rw [hfirst, OrderedMap.getD_insert, if_pos rfl]
  have hsecond := @after_of_le (after caller (.transfer recipient amount) m) other recipient amount'
  rw [hread, hread', hz] at hsecond
  obtain ⟨x', y, hx', hy, hboth⟩ := hsecond hfunds' hroom
  refine ⟨x, x', y, hx, hx', hy, ?_⟩
  rw [hboth, hfirst, OrderedMap.insert_comm hother, OrderedMap.insert_insert]

/-- Two transfers of different callers to one recipient commute if the supply fits. -/
theorem after_comm_of_common (htotal : OrderedMap.total BitVec.toNat m < 2 ^ 128)
    {other : Types.AccountId} (hne : caller ≠ other) (hcaller : caller ≠ recipient)
    (hother : other ≠ recipient) (amount' : Types.Balance) :
    after other (.transfer recipient amount') (after caller (.transfer recipient amount) m) =
      after caller (.transfer recipient amount) (after other (.transfer recipient amount') m) := by
  have hthree : (m.getD caller 0).toNat + (m.getD other 0).toNat + (m.getD recipient 0).toNat ≤
      OrderedMap.total BitVec.toNat m := three_le_total hne hcaller hother
  have hread := @getD_after_of_ne m caller recipient amount other hne hother.symm
  have hread' := @getD_after_of_ne m other recipient amount' caller hne.symm hcaller.symm
  by_cases hfunds : amount.toNat ≤ (m.getD caller 0).toNat
  · by_cases hfunds' : amount'.toNat ≤ (m.getD other 0).toNat
    · obtain ⟨x, x', y, hx, hx', hy, hboth⟩ :=
        @after_after_of_le m caller recipient amount other amount' hne hother.symm hfunds hfunds'
          (by omega)
      obtain ⟨p', p, q, hp', hp, hq, hboth'⟩ :=
        @after_after_of_le m other recipient amount' caller amount hne.symm hcaller.symm hfunds'
          hfunds (by omega)
      have hxp : x = p := BitVec.eq_of_toNat_eq (by omega)
      have hxp' : x' = p' := BitVec.eq_of_toNat_eq (by omega)
      have hyq : y = q := BitVec.eq_of_toNat_eq (by omega)
      rw [hboth, hboth', hxp, hxp', hyq, OrderedMap.insert_comm hne]
    · have hfail : after other (.transfer recipient amount') m = m :=
        after_of_lt (Nat.not_le.mp hfunds')
      rw [hfail]
      apply after_of_lt
      rw [hread]
      exact Nat.not_le.mp hfunds'
  · have hfail : after caller (.transfer recipient amount) m = m :=
      after_of_lt (Nat.not_le.mp hfunds)
    rw [hfail]
    symm
    apply after_of_lt
    rw [hread']
    exact Nat.not_le.mp hfunds

end Balances.Pallet

namespace ProofOfExistence.Pallet

variable {AccountId Content : Type} [Ord Content] [TransOrd Content] [Encode AccountId]
  [Encode Content] [DecidableEq AccountId]

/-- The claims a call leaves. -/
def after (caller : AccountId) (call : Call Content) (m : ExtTreeMap Content AccountId) :
    ExtTreeMap Content AccountId :=
  (dispatch caller call ⟨m⟩).state.claims

variable [LawfulEqOrd Content]

theorem after_createClaim (caller : AccountId) (claim : Content)
    (m : ExtTreeMap Content AccountId) :
    after caller (.createClaim claim) m =
      if m[claim]? = none then m.insert claim caller else m := by
  rw [after, dispatch]
  cases h : m[claim]? with
  | some owner =>
      have hrun : createClaim caller claim ⟨m⟩ = _ := createClaim_of_some h caller
      rw [hrun, if_neg (Option.some_ne_none owner)]
  | none =>
      obtain ⟨last, owner, -, -, hrun⟩ := @createClaim_of_none _ _ _ _ _ _ _ ⟨m⟩ _ h caller
      rw [hrun, if_pos rfl]

omit [LawfulEqOrd Content] in
theorem after_revokeClaim (caller : AccountId) (claim : Content)
    (m : ExtTreeMap Content AccountId) :
    after caller (.revokeClaim claim) m =
      if m[claim]? = some caller then m.erase claim else m := by
  rw [after, dispatch]
  cases h : m[claim]? with
  | none =>
      have hrun : revokeClaim caller claim ⟨m⟩ = _ := revokeClaim_of_none h caller
      rw [hrun, if_neg (Option.some_ne_none caller).symm]
  | some owner =>
      by_cases hne : owner = caller
      · subst hne
        have hrun : revokeClaim owner claim ⟨m⟩ = _ := revokeClaim_of_owner h
        rw [hrun, if_pos rfl]
      · have hother : ¬ some owner = some caller := fun heq => hne (Option.some.inj heq)
        have hrun : revokeClaim caller claim ⟨m⟩ = _ := revokeClaim_of_ne h hne
        rw [hrun, if_neg hother]

theorem localOn_after (caller : AccountId) (call : Call Content) :
    OrderedMap.LocalOn {call.content} (after caller call) := by
  classical
  constructor
  · intro m k hk
    rw [Set.mem_singleton_iff] at hk
    cases call with
    | createClaim claim =>
        have hne : ¬ claim = k := Ne.symm hk
        rw [after_createClaim]
        split_ifs
        · rw [OrderedMap.getElem?_insert, if_neg hne]
        · rfl
    | revokeClaim claim =>
        have hne : ¬ claim = k := Ne.symm hk
        rw [after_revokeClaim]
        split_ifs
        · rw [OrderedMap.getElem?_erase, if_neg hne]
        · rfl
  · intro m m' h k hk
    have hread : m[call.content]? = m'[call.content]? := h _ rfl
    cases call with
    | createClaim claim =>
        rw [after_createClaim, after_createClaim]
        change m[claim]? = m'[claim]? at hread
        rw [hread]
        split_ifs
        · rw [OrderedMap.getElem?_insert, OrderedMap.getElem?_insert, h k hk]
        · exact h k hk
    | revokeClaim claim =>
        rw [after_revokeClaim, after_revokeClaim]
        change m[claim]? = m'[claim]? at hread
        rw [hread]
        split_ifs
        · rw [OrderedMap.getElem?_erase, OrderedMap.getElem?_erase, h k hk]
        · exact h k hk

end ProofOfExistence.Pallet

namespace Runtime

/-! ## One extrinsic -/

/-- What a call makes of the balances. -/
def balancesAfter (caller : Types.AccountId) :
    RuntimeCall → ExtTreeMap Types.AccountId Types.Balance →
      ExtTreeMap Types.AccountId Types.Balance
  | .balances call => Balances.Pallet.after caller call
  | .proofOfExistence _ => id

/-- What a call makes of the claims. -/
def claimsAfter (caller : Types.AccountId) :
    RuntimeCall → ExtTreeMap Types.Content Types.AccountId →
      ExtTreeMap Types.Content Types.AccountId
  | .balances _ => id
  | .proofOfExistence call => ProofOfExistence.Pallet.after caller call

/-- The runtime after the call of an extrinsic whose signer's nonce becomes `m`. -/
def afterCall (ext : Types.Extrinsic) (m : Types.Nonce) (self : Runtime) : Runtime where
  system := { self.system with nonceMap := self.system.nonceMap.insert ext.signer m }
  balances := ⟨balancesAfter ext.signer ext.call self.balances.balances⟩
  proofOfExistence := ⟨claimsAfter ext.signer ext.call self.proofOfExistence.claims⟩

theorem dispatch_state (ext : Types.Extrinsic) (m : Types.Nonce) (self : Runtime) :
    (dispatch ext.signer ext.call (self.setNonce ext.signer m)).state = afterCall ext m self := by
  cases hcall : ext.call with
  | balances call =>
      simp only [afterCall, hcall]
      rfl
  | proofOfExistence call =>
      simp only [afterCall, hcall]
      rfl

/-- Neither extrinsic reads what the other one writes, a common recipient apart. -/
structure Independent (a b : Types.Extrinsic) : Prop where
  signers : a.signer ≠ b.signer
  recipients : ∀ r amount, a.call = .balances (.transfer r amount) → r ≠ b.signer
  recipients' : ∀ r amount, b.call = .balances (.transfer r amount) → r ≠ a.signer
  contents : ∀ c d, a.call = .proofOfExistence c → b.call = .proofOfExistence d →
    c.content ≠ d.content

theorem balancesAfter_comm {a b : Types.Extrinsic} (h : Independent a b)
    {m : ExtTreeMap Types.AccountId Types.Balance}
    (htotal : OrderedMap.total BitVec.toNat m < 2 ^ 128) :
    balancesAfter b.signer b.call (balancesAfter a.signer a.call m) =
      balancesAfter a.signer a.call (balancesAfter b.signer b.call m) := by
  cases ha : a.call with
  | proofOfExistence c => rfl
  | balances c =>
      cases hb : b.call with
      | proofOfExistence d => rfl
      | balances d =>
          obtain ⟨r, x⟩ := c
          obtain ⟨r', y⟩ := d
          have hr := h.recipients r x ha
          have hr' := h.recipients' r' y hb
          by_cases hcommon : r = r'
          · subst hcommon
            exact Balances.Pallet.after_comm_of_common htotal h.signers hr'.symm hr.symm y
          · have hdisjoint : ∀ k ∈ ({b.signer, r'} : Set Types.AccountId),
                k ∉ ({a.signer, r} : Set Types.AccountId) := by
              simp [h.signers.symm, hr.symm, hr', Ne.symm hcommon]
            exact (Balances.Pallet.localOn_after b.signer r' y).comm
              (Balances.Pallet.localOn_after a.signer r x) hdisjoint m

theorem claimsAfter_comm {a b : Types.Extrinsic} (h : Independent a b)
    (m : ExtTreeMap Types.Content Types.AccountId) :
    claimsAfter b.signer b.call (claimsAfter a.signer a.call m) =
      claimsAfter a.signer a.call (claimsAfter b.signer b.call m) := by
  cases ha : a.call with
  | balances c => rfl
  | proofOfExistence c =>
      cases hb : b.call with
      | balances d => rfl
      | proofOfExistence d =>
          have hdisjoint : ∀ k ∈ ({d.content} : Set Types.Content),
              k ∉ ({c.content} : Set Types.Content) := by
            simp [(h.contents c d ha hb).symm]
          exact (ProofOfExistence.Pallet.localOn_after b.signer d).comm
            (ProofOfExistence.Pallet.localOn_after a.signer c) hdisjoint m

theorem afterCall_comm {a b : Types.Extrinsic} (h : Independent a b) {self : Runtime}
    (hsupply : supply self < 2 ^ 128) (m n : Types.Nonce) :
    afterCall b n (afterCall a m self) = afterCall a m (afterCall b n self) := by
  simp only [afterCall, balancesAfter_comm h hsupply, claimsAfter_comm h,
    OrderedMap.insert_comm h.signers]

/-! ## Two extrinsics of a block -/

variable [Ed25519]

theorem overflows_iff {ext : Types.Extrinsic} {self : Runtime} :
    Overflows ext self ↔ Accepted ext self ∧ ext.nonce = BitVec.allOnes 32 := by
  constructor
  · rintro ⟨hverify, hmax, hnonce⟩
    exact ⟨⟨hverify, hnonce.trans hmax.symm⟩, hmax⟩
  · rintro ⟨hacc, hmax⟩
    exact ⟨hacc.1, hmax, hacc.2.trans hmax⟩

/-- The runtime after an extrinsic that does not overflow. -/
def afterExtrinsic (ext : Types.Extrinsic) (self : Runtime) : Runtime :=
  match checkedAdd ext.nonce 1 with
  | some m => if Accepted ext self then afterCall ext m self else self
  | none => self

theorem applyIndexed_of_not_overflows (n : Types.BlockNumber) (p : Types.Extrinsic × ℕ)
    {self : Runtime} (h : ¬ Overflows p.1 self) :
    (applyIndexed n p self).outcome = .ret () ∧
      (applyIndexed n p self).state = afterExtrinsic p.1 self := by
  rw [applyIndexed, afterExtrinsic]
  by_cases hacc : Accepted p.1 self
  · have hmax : p.1.nonce ≠ BitVec.allOnes 32 := fun hmax => h (overflows_iff.mpr ⟨hacc, hmax⟩)
    obtain ⟨m, hm⟩ := exists_next_nonce hmax
    have hstate := dispatch_state p.1 m self
    obtain ⟨res, hres⟩ :=
      (dispatch_effect p.1.signer p.1.call (self.setNonce p.1.signer m)).outcome_eq
    generalize hd : dispatch p.1.signer p.1.call (self.setNonce p.1.signer m) = r at hstate hres
    obtain ⟨o, state, log⟩ := r
    subst hres hstate
    rw [applyExtrinsic_of_accepted n p.2 hacc hm hd, Machine.checkedAdd_one_eq_some.mpr hm]
    exact ⟨rfl, (if_pos hacc).symm⟩
  · obtain ⟨text, hrun⟩ := applyExtrinsic_of_not_accepted n p.2 hacc
    rw [hrun]
    refine ⟨rfl, ?_⟩
    split
    · exact (if_neg hacc).symm
    · rfl

theorem applyIndexed_of_overflows (n : Types.BlockNumber) (p : Types.Extrinsic × ℕ)
    {self : Runtime} (h : Overflows p.1 self) :
    (applyIndexed n p self).outcome = .panicked System.unwrapNone :=
  applyIndexed_panicked_iff.mpr ⟨rfl, h⟩

/-- Whether an extrinsic is accepted does not depend on the extrinsics of other signers. -/
theorem nonce_afterExtrinsic_of_ne {ext : Types.Extrinsic} {a : Types.AccountId}
    (h : ext.signer ≠ a) (self : Runtime) :
    (afterExtrinsic ext self).system.nonce a = self.system.nonce a := by
  rw [afterExtrinsic]
  split
  · split_ifs
    · rename_i m _ _
      exact (setNonce_nonce self ext.signer a m).trans (if_neg h)
    · rfl
  · rfl

theorem accepted_afterExtrinsic_iff {a b : Types.Extrinsic} (h : a.signer ≠ b.signer)
    (self : Runtime) : Accepted b (afterExtrinsic a self) ↔ Accepted b self := by
  rw [Accepted, Accepted, nonce_afterExtrinsic_of_ne h]

theorem overflows_afterExtrinsic_iff {a b : Types.Extrinsic} (h : a.signer ≠ b.signer)
    (self : Runtime) : Overflows b (afterExtrinsic a self) ↔ Overflows b self := by
  rw [Overflows, Overflows, nonce_afterExtrinsic_of_ne h]

theorem afterExtrinsic_comm {a b : Types.Extrinsic} (h : Independent a b) {self : Runtime}
    (hsupply : supply self < 2 ^ 128) :
    afterExtrinsic b (afterExtrinsic a self) = afterExtrinsic a (afterExtrinsic b self) := by
  have hb : afterExtrinsic b (afterExtrinsic a self) =
      match checkedAdd b.nonce 1 with
      | some n => if Accepted b self then afterCall b n (afterExtrinsic a self)
          else afterExtrinsic a self
      | none => afterExtrinsic a self := by
    conv_lhs => rw [afterExtrinsic]
    simp only [accepted_afterExtrinsic_iff h.signers]
  have ha : afterExtrinsic a (afterExtrinsic b self) =
      match checkedAdd a.nonce 1 with
      | some m => if Accepted a self then afterCall a m (afterExtrinsic b self)
          else afterExtrinsic b self
      | none => afterExtrinsic b self := by
    conv_lhs => rw [afterExtrinsic]
    simp only [accepted_afterExtrinsic_iff h.signers.symm]
  rw [ha, hb, afterExtrinsic, afterExtrinsic]
  cases checkedAdd a.nonce 1 with
  | none => rfl
  | some m =>
      cases checkedAdd b.nonce 1 with
      | none => rfl
      | some n =>
          dsimp only
          split_ifs
          · exact afterCall_comm h hsupply m n
          · rfl
          · rfl
          · rfl

/-- Two extrinsics of different signers in a row: they panic if one of them overflows. -/
theorem applyAll_pair (n : Types.BlockNumber) {a b : Types.Extrinsic}
    (h : a.signer ≠ b.signer) (i j : ℕ) (self : Runtime) :
    ((Overflows a self ∨ Overflows b self) →
        (applyAll n [(a, i), (b, j)] self).outcome = .panicked System.unwrapNone) ∧
      (¬ Overflows a self → ¬ Overflows b self →
        (applyAll n [(a, i), (b, j)] self).outcome = .ret () ∧
          (applyAll n [(a, i), (b, j)] self).state = afterExtrinsic b (afterExtrinsic a self)) := by
  by_cases ha : Overflows a self
  · refine ⟨fun _ => ?_, fun hna => absurd ha hna⟩
    rw [applyAll, Exec.each_cons_panicked _ (applyIndexed_of_overflows n (a, i) ha)]
  · obtain ⟨hret, hstate⟩ := applyIndexed_of_not_overflows n (a, i) ha
    rw [applyAll, Exec.each_cons_ret _ hret, hstate]
    dsimp only [Run.prepend_outcome, Run.prepend_state]
    have hover := overflows_afterExtrinsic_iff h self
    constructor
    · intro hor
      have hb : Overflows b (afterExtrinsic a self) := hover.mpr (hor.resolve_left ha)
      rw [Exec.each_cons_panicked _ (applyIndexed_of_overflows n (b, j) hb)]
    · intro _ hb
      have hnot : ¬ Overflows b (afterExtrinsic a self) := fun hb' => hb (hover.mp hb')
      obtain ⟨hret', hstate'⟩ := applyIndexed_of_not_overflows n (b, j) hnot
      rw [Exec.each_cons_ret _ hret', hstate']
      exact ⟨rfl, rfl⟩

/-- Swapping two neighbours in the second pass. -/
theorem applyAll_swap (n : Types.BlockNumber) {a b : Types.Extrinsic} (h : Independent a b)
    (i j : ℕ) (post : List (Types.Extrinsic × ℕ)) {self : Runtime}
    (hsupply : supply self < 2 ^ 128) :
    let r := applyAll n ((a, i) :: (b, j) :: post) self
    let r' := applyAll n ((b, i) :: (a, j) :: post) self
    r'.outcome = r.outcome ∧
      (¬ Overflows a self → ¬ Overflows b self → r'.state = r.state) := by
  intro r r'
  have hr : r = (applyAll n [(a, i), (b, j)] self).andThen fun _ => applyAll n post :=
    Exec.each_append _ [(a, i), (b, j)] post self
  have hr' : r' = (applyAll n [(b, i), (a, j)] self).andThen fun _ => applyAll n post :=
    Exec.each_append _ [(b, i), (a, j)] post self
  obtain ⟨hpanic, hret⟩ := applyAll_pair n h.signers i j self
  obtain ⟨hpanic', hret'⟩ := applyAll_pair n h.signers.symm i j self
  rw [hr, hr']
  generalize applyAll n [(a, i), (b, j)] self = front at hpanic hret
  generalize applyAll n [(b, i), (a, j)] self = front' at hpanic' hret'
  by_cases hover : Overflows a self ∨ Overflows b self
  · rw [Run.andThen_of_panicked (hpanic hover), Run.andThen_of_panicked (hpanic' hover.symm)]
    refine ⟨rfl, ?_⟩
    intro ha hb
    exact absurd hover (not_or.mpr ⟨ha, hb⟩)
  · obtain ⟨ha, hb⟩ := not_or.mp hover
    obtain ⟨hout, hstate⟩ := hret ha hb
    obtain ⟨hout', hstate'⟩ := hret' hb ha
    rw [Run.andThen_of_ret hout, Run.andThen_of_ret hout', hstate, hstate',
      afterExtrinsic_comm h hsupply]
    simp only [Run.prepend_outcome, Run.prepend_state, implies_true, and_self]

/-- Swapping two neighbours behind a front of the second pass. -/
theorem applyAll_append_swap (n : Types.BlockNumber) {a b : Types.Extrinsic}
    (h : Independent a b) (front : List (Types.Extrinsic × ℕ)) (i j : ℕ)
    (post : List (Types.Extrinsic × ℕ)) {self : Runtime}
    (hsupply : supply (applyAll n front self).state < 2 ^ 128) :
    let reached := (applyAll n front self).state
    let r := applyAll n (front ++ (a, i) :: (b, j) :: post) self
    let r' := applyAll n (front ++ (b, i) :: (a, j) :: post) self
    r'.outcome = r.outcome ∧
      (¬ Overflows a reached → ¬ Overflows b reached → r'.state = r.state) := by
  intro reached r r'
  have hr : r = (applyAll n front self).andThen fun _ => applyAll n ((a, i) :: (b, j) :: post) :=
    Exec.each_append _ front _ self
  have hr' : r' = (applyAll n front self).andThen fun _ => applyAll n ((b, i) :: (a, j) :: post) :=
    Exec.each_append _ front _ self
  have hreached : reached = (applyAll n front self).state := rfl
  clear_value reached r r'
  generalize applyAll n front self = first at hsupply hr hr' hreached
  obtain ⟨o, state, log⟩ := first
  subst hr hr' hreached
  cases o with
  | panicked m =>
      rw [Run.andThen_panicked, Run.andThen_panicked]
      exact ⟨rfl, fun _ _ => rfl⟩
  | ret u =>
      rw [Run.andThen_ret, Run.andThen_ret]
      have hswap := applyAll_swap n h i j post hsupply
      generalize applyAll n ((a, i) :: (b, j) :: post) reached = rest at hswap ⊢
      generalize applyAll n ((b, i) :: (a, j) :: post) reached = rest' at hswap ⊢
      exact hswap

/-- A block whose header does not fit does not look at its extrinsics. -/
theorem executeBlock_congr_of_not_next {header : Types.Header} {self : Runtime}
    (h : header.blockNumber.toNat ≠ self.height + 1) (exts exts' : List Types.Extrinsic) :
    executeBlock ⟨header, exts⟩ self = executeBlock ⟨header, exts'⟩ self := by
  cases hadd : checkedAdd self.system.blockNumber 1 with
  | none => simp [executeBlock, onSystem, System.Pallet.incBlockNumber_of_none hadd]
  | some n =>
      have hne : header.blockNumber ≠ n := by
        intro heq
        rw [heq] at h
        exact h (Machine.checkedAdd_one_eq_some.mp hadd)
      simp [executeBlock, onSystem, System.Pallet.incBlockNumber_of_some hadd, hne]

/-- Two neighbours in a block that are independent can be swapped where the supply at the state they
are reached in fits: the block ends in the same way and, if each of the two is applied, skipped or
fails instead of panicking, in the same state. -/
theorem independent_extrinsics_commute {header : Types.Header} {pre post : List Types.Extrinsic}
    {a b : Types.Extrinsic} {self : Runtime} (h : Independent a b)
    (hsupply : supply (executeBlock ⟨header, pre⟩ self).state < 2 ^ 128) :
    let reached := (executeBlock ⟨header, pre⟩ self).state
    let r := executeBlock ⟨header, pre ++ a :: b :: post⟩ self
    let r' := executeBlock ⟨header, pre ++ b :: a :: post⟩ self
    r'.outcome = r.outcome ∧
      (¬ Overflows a reached → ¬ Overflows b reached → r'.state = r.state) := by
  by_cases hnum : header.blockNumber.toNat = self.height + 1
  · have hrun : ∀ exts, executeBlock ⟨header, exts⟩ self = _ :=
      fun exts => @executeBlock_of_next _ ⟨header, exts⟩ self hnum
    rw [hrun] at hsupply
    intro reached r r'
    have hreached : reached = _ := congrArg Run.state (hrun pre)
    have hr : r = _ := hrun (pre ++ a :: b :: post)
    have hr' : r' = _ := hrun (pre ++ b :: a :: post)
    clear_value reached r r'
    subst hr hr' hreached
    dsimp only at hsupply ⊢
    rw [List.zipIdx_append, List.zipIdx_append, Nat.zero_add, List.zipIdx_cons, List.zipIdx_cons,
      List.zipIdx_cons, List.zipIdx_cons]
    obtain ⟨hout, hstate⟩ := applyAll_append_swap header.blockNumber h pre.zipIdx pre.length
      (pre.length + 1) (post.zipIdx (pre.length + 1 + 1)) hsupply
    rw [hout]
    exact ⟨rfl, hstate⟩
  · intro reached r r'
    have hsame : r' = r := executeBlock_congr_of_not_next hnum _ _
    rw [hsame]
    exact ⟨rfl, fun _ _ => rfl⟩

/-- Alice and Bob pay Charlie in block 2 after genesis. -/
def commonPayments : Types.Extrinsic × Types.Extrinsic :=
  let charlie := @AccountKeyring.publicKey .transparent .charlie
  let payment (kr : AccountKeyring) := @UncheckedExtrinsic.newSigned _ _ .transparent
    kr.signingKey 0 (.balances (.transfer charlie 30))
  (payment .alice, payment .bob)

omit [Ed25519] in
theorem independent_extrinsics_commute_commonPayments :
    let := Ed25519.transparent
    let genesis := (maybeApplyGenesis (Runtime.new ∅)).state
    let r := executeBlock ⟨⟨2⟩, [commonPayments.1, commonPayments.2]⟩ genesis
    r.outcome = .ret (.ok ()) ∧
      (executeBlock ⟨⟨2⟩, [commonPayments.2, commonPayments.1]⟩ genesis).state = r.state := by
  intro scheme genesis r
  have hind : Independent commonPayments.1 commonPayments.2 := by
    refine ⟨by decide +kernel, ?_, ?_, ?_⟩
    · rintro _ _ ⟨⟩
      decide +kernel
    · rintro _ _ ⟨⟩
      decide +kernel
    · rintro _ _ ⟨⟩
  have hlow : ∀ ext : Types.Extrinsic, ext.nonce = 0 → ∀ s, ¬ Overflows ext s := by
    rintro ext hzero s ⟨-, hmax, -⟩
    rw [hzero] at hmax
    exact absurd hmax (by decide)
  have hsupply : supply (executeBlock ⟨⟨2⟩, []⟩ genesis).state < 2 ^ 128 := by decide +kernel
  obtain ⟨-, hsame⟩ := @independent_extrinsics_commute _ ⟨2⟩ [] [] commonPayments.1
    commonPayments.2 genesis hind hsupply
  have hone := hlow commonPayments.1 rfl
  have htwo := hlow commonPayments.2 rfl
  refine ⟨by decide +kernel, ?_⟩
  exact hsame (hone _) (htwo _)

end Runtime

end RustStateMachine
