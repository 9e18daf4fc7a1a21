import RustStateMachine.Execution

/-!
# Token supply

A transfer between two accounts keeps the total of all balances. A transfer to
oneself writes the raised balance last and so adds its amount to the total.
-/

namespace RustStateMachine.Runtime

open Lib Lib.KeyValue Std Support

/-- The sum of all balances. -/
def supply (self : Runtime) : ℕ := OrderedMap.total BitVec.toNat self.balances.balances

theorem weightAt_balance (b : Balances.Pallet Types.AccountId Types.Balance)
    (a : Types.AccountId) :
    OrderedMap.weightAt BitVec.toNat b.balances a = (b.balance a).toNat := by
  rw [OrderedMap.weightAt, Balances.Pallet.balance, ExtTreeMap.getD_eq_getD_getElem?]
  cases b.balances[a]? with
  | none => rfl
  | some v => rfl

variable [Ed25519]

/-- The extrinsic is an accepted transfer of a positive amount to its own signer that the
balance covers and that does not overflow. -/
def SelfTransfers (ext : Types.Extrinsic) (self : Runtime) : Prop :=
  Accepted ext self ∧ ext.nonce ≠ BitVec.allOnes 32 ∧
    ∃ amount, ext.call = .balances (.transfer ext.signer amount) ∧ 0 < amount.toNat ∧
      amount.toNat ≤ (self.balances.balance ext.signer).toNat ∧
      (self.balances.balance ext.signer).toNat + amount.toNat < 2 ^ 128

/-- What a dispatched call adds to the supply. -/
def mintedBy (caller : Types.AccountId) (self : Runtime) : RuntimeCall → ℕ
  | .balances (.transfer recipient amount) =>
      if recipient = caller ∧ amount.toNat ≤ (self.balances.balance caller).toNat ∧
          (self.balances.balance caller).toNat + amount.toNat < 2 ^ 128 then
        amount.toNat
      else 0
  | .proofOfExistence _ => 0

/-- What an extrinsic adds to the supply. -/
def minted (ext : Types.Extrinsic) (self : Runtime) : ℕ :=
  if Accepted ext self ∧ ext.nonce ≠ BitVec.allOnes 32 then mintedBy ext.signer self ext.call
  else 0

theorem minted_eq_zero_iff (ext : Types.Extrinsic) (self : Runtime) :
    minted ext self = 0 ↔ ¬ SelfTransfers ext self := by
  rw [minted]
  constructor
  · rintro h ⟨hacc, hne, amount, hcall, hpos, hgo⟩
    rw [if_pos ⟨hacc, hne⟩, hcall, mintedBy, if_pos ⟨rfl, hgo⟩] at h
    exact absurd h hpos.ne'
  · intro h
    by_cases hacc : Accepted ext self ∧ ext.nonce ≠ BitVec.allOnes 32
    · rw [if_pos hacc]
      cases hcall : ext.call with
      | balances call =>
          obtain ⟨recipient, amount⟩ := call
          rw [mintedBy]
          split_ifs with hgo
          · by_contra hpos
            refine h ⟨hacc.1, hacc.2, amount, ?_, Nat.pos_of_ne_zero hpos, hgo.2⟩
            rw [hcall, hgo.1]
          · rfl
      | proofOfExistence call => rfl
    · exact if_neg hacc

omit [Ed25519] in
/-- A dispatch adds the amount of a self-transfer that goes through, and nothing else. -/
theorem DispatchEffect.supply_eq {caller : Types.AccountId} {self : Runtime} {call : RuntimeCall}
    {r : Run Event Runtime DispatchResult} (h : DispatchEffect caller self call r) :
    supply r.state = supply self + mintedBy caller self call := by
  cases h with
  | failed hwhy =>
      cases hwhy with
      | noFunds hlt =>
          rw [mintedBy, if_neg]
          · rfl
          · rintro ⟨-, hle, -⟩
            exact absurd hlt hle.not_gt
      | overflow hfunds hbig =>
          rw [mintedBy, if_neg]
          · rfl
          · rintro ⟨rfl, -, hlt⟩
            exact absurd hlt hbig.not_gt
      | claimed => rfl
      | unclaimed => rfl
      | notOwner => rfl
  | @transferred recipient amount x y hx hy =>
      have hfirst := OrderedMap.total_insert BitVec.toNat self.balances.balances caller x
      have hsecond := OrderedMap.total_insert BitVec.toNat
        (self.balances.balances.insert caller x) recipient y
      rw [weightAt_balance] at hfirst
      have hlt := y.isLt
      rw [mintedBy, supply, supply]
      by_cases hself : recipient = caller
      · -- the second write reads back what the first one wrote
        subst hself
        have hread : OrderedMap.weightAt BitVec.toNat
            (self.balances.balances.insert recipient x) recipient = x.toNat := by
          simp [OrderedMap.weightAt]
        rw [hread] at hsecond
        rw [if_pos ⟨rfl, by omega, by omega⟩]
        dsimp only
        omega
      · have hread : OrderedMap.weightAt BitVec.toNat
            (self.balances.balances.insert caller x) recipient =
              (self.balances.balance recipient).toNat := by
          have hne : ¬ caller = recipient := fun h => hself h.symm
          rw [← weightAt_balance]
          simp [OrderedMap.weightAt, OrderedMap.getElem?_insert, hne]
        rw [hread] at hsecond
        rw [if_neg fun h => hself h.1]
        dsimp only
        omega
  | created => rfl
  | revoked => rfl

theorem ExtrinsicEffect.supply_eq {ext : Types.Extrinsic} {self : Runtime}
    {r : Run Event Runtime Unit} (h : ExtrinsicEffect ext self r) :
    supply r.state = supply self + minted ext self := by
  cases h with
  | skipped text hacc =>
      rw [minted, if_neg fun h => hacc h.1]
      rfl
  | overflowed hacc hmax =>
      rw [minted, if_neg fun h => h.2 hmax]
      rfl
  | @applied m state res log tail hacc hm hd htail =>
      have hne : ext.nonce ≠ BitVec.allOnes 32 := by
        intro hmax
        have hlt := m.isLt
        rw [hmax, BitVec.toNat_allOnes] at hm
        omega
      rw [minted, if_pos ⟨hacc, hne⟩]
      exact hd.supply_eq

/-- A block adds what its self-transfers mint. -/
theorem supply_executeBlock (block : Types.Block) (self : Runtime) :
    supply (executeBlock block self).state = supply self +
      ((extrinsicSteps block self).map fun st => minted st.input.1 st.before).sum :=
  executeBlock_telescope supply minted (fun _ _ => rfl) (fun _ _ _ h => h.supply_eq) block self

/-- No extrinsic of the block is a self-transfer that goes through at the state it is reached. -/
def NoSelfTransfer (block : Types.Block) (self : Runtime) : Prop :=
  ∀ st ∈ extrinsicSteps block self, ¬ SelfTransfers st.input.1 st.before

theorem minted_sum_eq_zero_iff (block : Types.Block) (self : Runtime) :
    ((extrinsicSteps block self).map fun st => minted st.input.1 st.before).sum = 0 ↔
      NoSelfTransfer block self := by
  rw [List.sum_eq_zero_iff_forall_eq_nat]
  simp only [List.mem_map, forall_exists_index, and_imp, forall_apply_eq_imp_iff₂]
  exact forall₂_congr fun st _ => minted_eq_zero_iff st.input.1 st.before

/-- A block keeps the supply exactly when it reaches no self-transfer that goes through, and a
run keeps it throughout exactly when none of its blocks does. -/
theorem supply_unchanged_iff :
    (∀ block self, supply (executeBlock block self).state = supply self ↔
      NoSelfTransfer block self) ∧
    ∀ (blocks : List Types.Block) self,
      (∀ pre, pre <+: blocks → supply (Exec.each executeBlock pre self).state = supply self) ↔
        ∀ st ∈ Exec.steps executeBlock blocks self, NoSelfTransfer st.input st.before := by
  constructor
  · intro block self
    rw [supply_executeBlock, ← minted_sum_eq_zero_iff]
    exact Nat.add_eq_left
  · intro blocks self
    have hzero : ∀ pre, supply (Exec.each executeBlock pre self).state = supply self ↔
        ∀ st ∈ Exec.steps executeBlock pre self, NoSelfTransfer st.input st.before := by
      intro pre
      rw [Exec.each_telescope executeBlock supply
        (fun block s => ((extrinsicSteps block s).map fun st => minted st.input.1 st.before).sum)
        supply_executeBlock, Nat.add_eq_left, List.sum_eq_zero_iff_forall_eq_nat]
      simp only [List.mem_map, forall_exists_index, and_imp, forall_apply_eq_imp_iff₂]
      exact forall₂_congr fun st _ => minted_sum_eq_zero_iff st.input st.before
    constructor
    · intro h
      exact (hzero blocks).mp (h blocks List.prefix_rfl)
    · intro h pre hpre
      rw [hzero pre]
      intro st hst
      exact h st ((Exec.steps_prefix executeBlock hpre self).subset hst)

/-- Block 2 after genesis: Alice pays herself 30. -/
def selfTransferBlock : Types.Block :=
  let alice := @AccountKeyring.publicKey .transparent .alice
  ⟨⟨2⟩, [@UncheckedExtrinsic.newSigned _ _ .transparent AccountKeyring.alice.signingKey 0
    (.balances (.transfer alice 30))]⟩

omit [Ed25519] in
/-- After genesis the three dev accounts hold 3,000,000 in all; the block makes it 3,000,030. -/
theorem supply_selfTransferBlock_ne :
    let genesis := (@maybeApplyGenesis .transparent (Runtime.new ∅)).state
    supply (@executeBlock .transparent selfTransferBlock genesis).state ≠ supply genesis := by
  decide +kernel

end RustStateMachine.Runtime
