import RustStateMachine.Execution

/-!
# System and balances across a restart

Block number, nonces and balances are written through to key ranges that do not
meet, so the store mirrors them after every operation and a rebuilt runtime
holds the same values. No pallet writes into what another one loads.
-/

namespace RustStateMachine

open Lib Lib.KeyValue Std Support

/-! ## Key ranges -/

theorem apart_balance_nonce : Apart Balances.prefixBalance System.prefixNonce := by decide +kernel

theorem apart_balance_blockNumber : Apart Balances.prefixBalance System.prefixBlockNumber := by
  decide +kernel

theorem apart_poe_nonce : Apart ProofOfExistence.prefixPoe System.prefixNonce := by decide +kernel

theorem apart_poe_blockNumber : Apart ProofOfExistence.prefixPoe System.prefixBlockNumber := by
  decide +kernel

theorem apart_poe_balance : Apart ProofOfExistence.prefixPoe Balances.prefixBalance := by
  decide +kernel

theorem apart_blockNumber_nonce : Apart System.prefixBlockNumber System.prefixNonce := by
  decide +kernel

/-! ## The mirror -/

/-- The store holds the block number, the nonces and the balances of the runtime. -/
structure Persisted (db : Entries) (rt : Runtime) : Prop where
  blockNumber : db[System.prefixBlockNumber]? = some (encode rt.system.blockNumber) ∨
    (db[System.prefixBlockNumber]? = none ∧ rt.system.blockNumber = 0)
  nonces : Mirrors System.prefixNonce db rt.system.nonceMap
  balances : Mirrors Balances.prefixBalance db rt.balances.balances

namespace Persisted

variable {db : Entries} {rt : Runtime}

/-- A runtime rebuilt from the store has the same system and balances pallets. -/
theorem new_eq (h : Persisted db rt) :
    (Runtime.new db).system = rt.system ∧ (Runtime.new db).balances = rt.balances := by
  have hnonces : (loadMap System.prefixNonce db : ExtTreeMap Types.AccountId Types.Nonce) =
      rt.system.nonceMap := h.nonces.loadMap_eq encode_account_ne_nil
  have hbalances : (loadMap Balances.prefixBalance db :
      ExtTreeMap Types.AccountId Types.Balance) = rt.balances.balances :=
    h.balances.loadMap_eq encode_account_ne_nil
  have hnumber : ((db[System.prefixBlockNumber]?.bind decode).map Prod.fst).getD 0 =
      rt.system.blockNumber := by
    rcases h.blockNumber with hsome | ⟨hnone, hzero⟩
    · rw [hsome, Option.bind_some, Codec.decode_encode]
      rfl
    · rw [hnone, hzero]
      rfl
  obtain ⟨⟨blockNumber, nonceMap⟩, ⟨balances⟩, poe⟩ := rt
  constructor
  · exact congrArg₂ System.Pallet.mk hnumber hnonces
  · exact congrArg Balances.Pallet.mk hbalances

theorem new (h : Persisted db rt) : Persisted db (Runtime.new db) := by
  obtain ⟨hsystem, hbalances⟩ := h.new_eq
  constructor
  · rw [hsystem]
    exact h.blockNumber
  · rw [hsystem]
    exact h.nonces
  · rw [hbalances]
    exact h.balances

theorem empty : Persisted ∅ (Runtime.new ∅) where
  blockNumber := .inr ⟨rfl, rfl⟩
  nonces := mirrors_empty System.prefixNonce
  balances := mirrors_empty Balances.prefixBalance

theorem put_blockNumber (h : Persisted db rt) (n : Types.BlockNumber) :
    Persisted ((Write.put System.prefixBlockNumber (encode n)).apply db)
      (rt.setBlockNumber n) where
  blockNumber := by
    refine .inl ?_
    simp [Write.apply]
  nonces := h.nonces.write_apart apart_blockNumber_nonce List.prefix_rfl
  balances := h.balances.write_apart apart_balance_blockNumber.symm List.prefix_rfl

theorem blockNumber_write (h : Persisted db rt) {w : Write}
    (hw : w.key ≠ System.prefixBlockNumber) :
    (w.apply db)[System.prefixBlockNumber]? = some (encode rt.system.blockNumber) ∨
      ((w.apply db)[System.prefixBlockNumber]? = none ∧ rt.system.blockNumber = 0) := by
  rw [Write.apply_getElem?_of_ne hw]
  exact h.blockNumber

theorem put_nonce (h : Persisted db rt) (who : Types.AccountId) (n : Types.Nonce) :
    Persisted ((Write.put (System.Pallet.nonceKey who) (encode n)).apply db)
      (rt.setNonce who n) where
  blockNumber := h.blockNumber_write
    (apart_blockNumber_nonce.symm.ne_of_prefix (List.prefix_append _ _))
  nonces := h.nonces.put who n
  balances := h.balances.write_apart apart_balance_nonce.symm (List.prefix_append _ _)

theorem put_balance (h : Persisted db rt) (who : Types.AccountId) (amount : Types.Balance) :
    Persisted ((Write.put (Balances.Pallet.balanceKey who) (encode amount)).apply db)
      { rt with balances := ⟨rt.balances.balances.insert who amount⟩ } where
  blockNumber := h.blockNumber_write
    (apart_balance_blockNumber.ne_of_prefix (List.prefix_append _ _))
  nonces := h.nonces.write_apart apart_balance_nonce (List.prefix_append _ _)
  balances := h.balances.put who amount

theorem write_claim (h : Persisted db rt) {w : Write}
    (hw : ProofOfExistence.prefixPoe <+: w.key)
    (poe : ProofOfExistence.Pallet Types.AccountId Types.Content) :
    Persisted (w.apply db) { rt with proofOfExistence := poe } where
  blockNumber := h.blockNumber_write (apart_poe_blockNumber.ne_of_prefix hw)
  nonces := h.nonces.write_apart apart_poe_nonce hw
  balances := h.balances.write_apart apart_poe_balance hw

end Persisted

/-! ## Operations -/

theorem Runtime.DispatchEffect.persisted {caller : Types.AccountId} {rt : Runtime}
    {call : RuntimeCall} {r : Run Event Runtime DispatchResult}
    (heff : Runtime.DispatchEffect caller rt call r) {db : Entries} (h : Persisted db rt) :
    Persisted (replay db (writes r.log)) r.state := by
  cases heff with
  | failed => exact h
  | @transferred recipient amount x y => exact (h.put_balance caller x).put_balance recipient y
  | @created claim last owner =>
      have hkey : ProofOfExistence.prefixPoe <+: (Write.put
          (ProofOfExistence.Pallet.claimKey last) (encode owner)).key := List.prefix_append _ _
      exact h.write_claim hkey _
  | @revoked claim =>
      have hkey : ProofOfExistence.prefixPoe <+:
          (Write.delete (ProofOfExistence.Pallet.claimKey claim)).key := List.prefix_append _ _
      exact h.write_claim hkey _

/-- The store stays a mirror while a runtime that starts from it runs. -/
def PersistedAfter (db : Entries) (rt : Runtime) (log : List Event) : Prop :=
  Persisted (replay db (writes log)) rt

variable [Ed25519]

theorem Runtime.ExtrinsicEffect.persisted {ext : Types.Extrinsic} {rt : Runtime}
    {r : Run Event Runtime Unit} (heff : Runtime.ExtrinsicEffect ext rt r) {db : Entries}
    (h : Persisted db rt) : Persisted (replay db (writes r.log)) r.state := by
  cases heff with
  | skipped => exact h
  | overflowed => exact h
  | @applied m state res log tail hacc hm hd htail =>
      rw [Runtime.writes_applied htail.1, replay_cons]
      exact hd.persisted (h.put_nonce ext.signer m)

theorem keeps_persisted_executeBlock (db : Entries) (block : Types.Block) :
    Exec.Keeps (PersistedAfter db) (Runtime.executeBlock block) := by
  refine Runtime.keeps_executeBlock ?_ ?_ block
  · intro s n l h
    rw [PersistedAfter, writes_append, replay_append]
    exact h.put_blockNumber n
  · intro ext s r l heff h
    rw [PersistedAfter, writes_append, replay_append]
    exact heff.persisted h

omit [Ed25519] in
theorem keeps_persisted_setBalance (db : Entries) (who : Types.AccountId)
    (amount : Types.Balance) :
    Exec.Keeps (PersistedAfter db)
      (Runtime.onBalances (Balances.Pallet.setBalance who amount)) := by
  intro s l h
  rw [PersistedAfter, writes_append, replay_append]
  exact h.put_balance who amount

omit [Ed25519] in
theorem keeps_persisted_println (db : Entries) (text : String) :
    Exec.Keeps (PersistedAfter db) (Exec.emit (.println text)) := by
  intro s l h
  rw [PersistedAfter, writes_append, replay_append]
  exact h

omit [Ed25519] in
theorem keeps_persisted_eprintln (db : Entries) (text : String) :
    Exec.Keeps (PersistedAfter db) (Exec.emit (.eprintln text)) := by
  intro s l h
  rw [PersistedAfter, writes_append, replay_append]
  exact h

/-- The operations of a process on its runtime. -/
inductive Operation where
  | executeBlock (block : Types.Block)
  | setBalance (who : Types.AccountId) (amount : Types.Balance)
  | maybeApplyGenesis

/-- The operation on the runtime. -/
def Operation.run : Operation → Exec Event Runtime Unit
  | .executeBlock block => do
    let _ ← Runtime.executeBlock block
    return ()
  | .setBalance who amount => Runtime.onBalances (Balances.Pallet.setBalance who amount)
  | .maybeApplyGenesis => Runtime.maybeApplyGenesis

theorem keeps_persisted_operation (db : Entries) (op : Operation) :
    Exec.Keeps (PersistedAfter db) op.run := by
  cases op with
  | executeBlock block =>
      exact Exec.keeps_bind (keeps_persisted_executeBlock db block) fun _ => Exec.keeps_pure ()
  | setBalance who amount => exact keeps_persisted_setBalance db who amount
  | maybeApplyGenesis =>
      exact Runtime.keeps_maybeApplyGenesis (keeps_persisted_setBalance db)
        (keeps_persisted_executeBlock db) (keeps_persisted_println db)

/-! ## Frames -/

/-- The writes one function of the system pallet issues. -/
inductive SystemWrites : List Write → Prop
  | incBlockNumber (self : System.Pallet Types.AccountId Types.BlockNumber Types.Nonce) :
      SystemWrites (System.Pallet.incBlockNumber self).log
  | incNonce (who : Types.AccountId)
      (self : System.Pallet Types.AccountId Types.BlockNumber Types.Nonce) :
      SystemWrites (System.Pallet.incNonce who self).log

/-- The writes one function of the balances pallet issues. -/
inductive BalancesWrites : List Write → Prop
  | setBalance (who : Types.AccountId) (amount : Types.Balance)
      (self : Balances.Pallet Types.AccountId Types.Balance) :
      BalancesWrites (Balances.Pallet.setBalance who amount self).log
  | dispatch (caller : Types.AccountId) (call : Balances.Call Types.AccountId Types.Balance)
      (self : Balances.Pallet Types.AccountId Types.Balance) :
      BalancesWrites (Balances.Pallet.dispatch caller call self).log

/-- The writes one function of the proof-of-existence pallet issues. -/
inductive ClaimWrites : List Write → Prop
  | dispatch (caller : Types.AccountId) (call : ProofOfExistence.Call Types.Content)
      (self : ProofOfExistence.Pallet Types.AccountId Types.Content) :
      ClaimWrites (ProofOfExistence.Pallet.dispatch caller call self).log

omit [Ed25519] in
theorem SystemWrites.keys {ws : List Write} (h : SystemWrites ws) :
    ∀ w ∈ ws, System.prefixBlockNumber <+: w.key ∨ System.prefixNonce <+: w.key := by
  cases h with
  | incBlockNumber self =>
      cases hadd : checkedAdd self.blockNumber 1 with
      | none => simp [System.Pallet.incBlockNumber_of_none hadd]
      | some n =>
          rw [System.Pallet.incBlockNumber_of_some hadd, List.forall_mem_singleton]
          exact .inl List.prefix_rfl
  | incNonce who self =>
      cases hadd : checkedAdd (self.nonce who) 1 with
      | none => simp [System.Pallet.incNonce_of_none hadd]
      | some n =>
          rw [System.Pallet.incNonce_of_some hadd, List.forall_mem_singleton]
          exact .inr (List.prefix_append _ _)

omit [Ed25519] in
theorem BalancesWrites.keys {ws : List Write} (h : BalancesWrites ws) :
    ∀ w ∈ ws, Balances.prefixBalance <+: w.key := by
  cases h with
  | setBalance who amount self =>
      rw [Balances.Pallet.setBalance_apply, List.forall_mem_singleton]
      exact List.prefix_append _ _
  | dispatch caller call self =>
      obtain ⟨recipient, amount⟩ := call
      rw [Balances.Pallet.dispatch]
      cases hsub : checkedSub (self.balance caller) amount with
      | none => simp [Balances.Pallet.transfer_of_sub_none hsub]
      | some x =>
          cases hadd : checkedAdd (self.balance recipient) amount with
          | none => simp [Balances.Pallet.transfer_of_add_none hsub hadd]
          | some y =>
              rw [Balances.Pallet.transfer_of_some hsub hadd, List.forall_mem_cons,
                List.forall_mem_singleton]
              exact ⟨List.prefix_append _ _, List.prefix_append _ _⟩

omit [Ed25519] in
theorem ClaimWrites.keys {ws : List Write} (h : ClaimWrites ws) :
    ∀ w ∈ ws, ProofOfExistence.prefixPoe <+: w.key := by
  obtain ⟨caller, call, self⟩ := h
  cases call with
  | createClaim claim =>
      rw [ProofOfExistence.Pallet.dispatch]
      cases hclaim : self.claims[claim]? with
      | some owner => simp [ProofOfExistence.Pallet.createClaim_of_some hclaim]
      | none =>
          obtain ⟨last, owner, -, -, hrun⟩ :=
            ProofOfExistence.Pallet.createClaim_of_none hclaim caller
          rw [hrun, List.forall_mem_singleton]
          exact List.prefix_append _ _
  | revokeClaim claim =>
      rw [ProofOfExistence.Pallet.dispatch]
      cases hclaim : self.claims[claim]? with
      | none => simp [ProofOfExistence.Pallet.revokeClaim_of_none hclaim]
      | some owner =>
          by_cases hne : owner = caller
          · subst hne
            rw [ProofOfExistence.Pallet.revokeClaim_of_owner hclaim, List.forall_mem_singleton]
            exact List.prefix_append _ _
          · simp [ProofOfExistence.Pallet.revokeClaim_of_ne hclaim hne]

omit [Ed25519] in
theorem system_new_replay {db : Entries} {ws : List Write} {p : Bytes}
    (hnumber : Apart p System.prefixBlockNumber) (hnonce : Apart p System.prefixNonce)
    (hws : ∀ w ∈ ws, p <+: w.key) :
    (Runtime.new (replay db ws)).system = (Runtime.new db).system := by
  have hget : (replay db ws)[System.prefixBlockNumber]? = db[System.prefixBlockNumber]? :=
    replay_getElem?_of_forall_ne fun w hw => hnumber.ne_of_prefix (hws w hw)
  have hload : (loadMap System.prefixNonce (replay db ws) :
      ExtTreeMap Types.AccountId Types.Nonce) = loadMap System.prefixNonce db :=
    loadMap_congr (agreeUnder_replay fun w hw => hnonce.not_prefix (hws w hw))
  refine congrArg₂ System.Pallet.mk ?_ hload
  rw [hget]

omit [Ed25519] in
theorem balances_new_replay {db : Entries} {ws : List Write}
    (hws : ∀ w ∈ ws, ¬ Balances.prefixBalance <+: w.key) :
    (Runtime.new (replay db ws)).balances = (Runtime.new db).balances :=
  congrArg Balances.Pallet.mk (loadMap_congr (agreeUnder_replay hws))

omit [Ed25519] in
theorem proofOfExistence_new_replay {db : Entries} {ws : List Write}
    (hws : ∀ w ∈ ws, ¬ ProofOfExistence.prefixPoe <+: w.key) :
    (Runtime.new (replay db ws)).proofOfExistence = (Runtime.new db).proofOfExistence :=
  congrArg ProofOfExistence.Pallet.mk (loadMap_congr (agreeUnder_replay hws))

/-- After any operations a runtime rebuilt from the store has the block number, nonces and
balances in memory, and the writes of one pallet never change what another one loads. -/
theorem system_and_balances_survive_restart :
    (∀ ops : List Operation,
      let r := Exec.each Operation.run ops (Runtime.new ∅)
      let rebuilt := Runtime.new (replay ∅ (writes r.log))
      rebuilt.system = r.state.system ∧ rebuilt.balances = r.state.balances) ∧
    (∀ (db : Entries) (ws : List Write), SystemWrites ws →
      (Runtime.new (replay db ws)).balances = (Runtime.new db).balances ∧
        (Runtime.new (replay db ws)).proofOfExistence = (Runtime.new db).proofOfExistence) ∧
    (∀ (db : Entries) (ws : List Write), BalancesWrites ws →
      (Runtime.new (replay db ws)).system = (Runtime.new db).system ∧
        (Runtime.new (replay db ws)).proofOfExistence = (Runtime.new db).proofOfExistence) ∧
    ∀ (db : Entries) (ws : List Write), ClaimWrites ws →
      (Runtime.new (replay db ws)).system = (Runtime.new db).system ∧
        (Runtime.new (replay db ws)).balances = (Runtime.new db).balances := by
  refine ⟨?_, ?_, ?_, ?_⟩
  · intro ops
    have h : PersistedAfter ∅ (Exec.each Operation.run ops (Runtime.new ∅)).state
        ([] ++ (Exec.each Operation.run ops (Runtime.new ∅)).log) :=
      Exec.keeps_each Operation.run (keeps_persisted_operation ∅) ops _ [] Persisted.empty
    exact h.new_eq
  · intro db ws h
    constructor
    · apply balances_new_replay
      intro w hw
      rcases h.keys w hw with hkey | hkey
      · exact apart_balance_blockNumber.symm.not_prefix hkey
      · exact apart_balance_nonce.symm.not_prefix hkey
    · apply proofOfExistence_new_replay
      intro w hw
      rcases h.keys w hw with hkey | hkey
      · exact apart_poe_blockNumber.symm.not_prefix hkey
      · exact apart_poe_nonce.symm.not_prefix hkey
  · intro db ws h
    constructor
    · exact system_new_replay apart_balance_blockNumber apart_balance_nonce h.keys
    · exact proofOfExistence_new_replay fun w hw =>
        apart_poe_balance.symm.not_prefix (h.keys w hw)
  · intro db ws h
    constructor
    · exact system_new_replay apart_poe_blockNumber apart_poe_nonce h.keys
    · exact balances_new_replay fun w hw => apart_poe_balance.not_prefix (h.keys w hw)

end RustStateMachine
