import RustStateMachine.Persistence

/-!
# Genesis across crashes

A start-up loads the runtime and applies genesis. It writes the same values at
every attempt and the height last, so a start-up that is cut off leaves a store
from which the next one arrives where an uninterrupted one would have.
-/

namespace RustStateMachine

open Lib Lib.KeyValue Std Support

/-! ## The stores the pallets write -/

/-- An entry as one of the pallets writes it. -/
inductive PalletEntry : Bytes → Bytes → Prop
  | blockNumber (n : Types.BlockNumber) : PalletEntry System.prefixBlockNumber (encode n)
  | nonce (who : Types.AccountId) (n : Types.Nonce) :
      PalletEntry (System.Pallet.nonceKey who) (encode n)
  | balance (who : Types.AccountId) (amount : Types.Balance) :
      PalletEntry (Balances.Pallet.balanceKey who) (encode amount)
  | claim (content : Types.Content) (owner : Types.AccountId) :
      PalletEntry (ProofOfExistence.Pallet.claimKey content) (encode owner)

/-- A store all of whose entries are ones the pallets write. -/
def WrittenByPallets (db : Entries) : Prop :=
  ∀ key value, db[key]? = some value → PalletEntry key value

namespace WrittenByPallets

variable {db : Entries}

theorem empty : WrittenByPallets ∅ := by
  intro key value h
  simp at h

theorem put (h : WrittenByPallets db) {key value : Bytes} (hentry : PalletEntry key value) :
    WrittenByPallets ((Write.put key value).apply db) := by
  classical
  intro key' value' hget
  rw [Write.apply, OrderedMap.getElem?_insert] at hget
  split_ifs at hget with hkey
  · cases hget
    subst hkey
    exact hentry
  · exact h key' value' hget

theorem delete (h : WrittenByPallets db) (key : Bytes) :
    WrittenByPallets ((Write.delete key).apply db) := by
  classical
  intro key' value' hget
  rw [Write.apply, OrderedMap.getElem?_erase] at hget
  split_ifs at hget
  exact h key' value' hget

theorem replay {ws : List Write} (h : WrittenByPallets db)
    (hws : ∀ w ∈ ws, ∃ key value, w = .put key value ∧ PalletEntry key value) :
    WrittenByPallets (replay db ws) := by
  induction ws generalizing db with
  | nil => exact h
  | cons w ws ih =>
      obtain ⟨key, value, rfl, hentry⟩ := hws w List.mem_cons_self
      exact ih (h.put hentry) fun v hv => hws v (List.mem_cons_of_mem _ hv)

theorem encodedUnder_nonce (h : WrittenByPallets db) :
    EncodedUnder Types.AccountId Types.Nonce System.prefixNonce db := by
  intro key value hpre hkey
  cases h key value hkey with
  | blockNumber n => exact absurd hpre apart_blockNumber_nonce.2
  | nonce who n => exact ⟨who, n, rfl, rfl⟩
  | balance who amount =>
      exact absurd hpre (apart_balance_nonce.not_prefix (List.prefix_append _ _))
  | claim content owner =>
      exact absurd hpre (apart_poe_nonce.not_prefix (List.prefix_append _ _))

theorem encodedUnder_balance (h : WrittenByPallets db) :
    EncodedUnder Types.AccountId Types.Balance Balances.prefixBalance db := by
  intro key value hpre hkey
  cases h key value hkey with
  | blockNumber n => exact absurd hpre apart_balance_blockNumber.1
  | nonce who n =>
      exact absurd hpre (apart_balance_nonce.symm.not_prefix (List.prefix_append _ _))
  | balance who amount => exact ⟨who, amount, rfl, rfl⟩
  | claim content owner =>
      exact absurd hpre (apart_poe_balance.not_prefix (List.prefix_append _ _))

/-- The stored block number, if there is one, is an encoded one. -/
theorem blockNumber_eq (h : WrittenByPallets db) {value : Bytes}
    (hkey : db[System.prefixBlockNumber]? = some value) :
    ∃ n : Types.BlockNumber, value = encode n := by
  generalize hname : System.prefixBlockNumber = key at hkey
  cases h key value hkey with
  | blockNumber n => exact ⟨n, rfl⟩
  | nonce who n =>
      exact absurd hname.symm
        (apart_blockNumber_nonce.symm.ne_of_prefix (List.prefix_append _ _))
  | balance who amount =>
      exact absurd hname.symm (apart_balance_blockNumber.ne_of_prefix (List.prefix_append _ _))
  | claim content owner =>
      exact absurd hname.symm (apart_poe_blockNumber.ne_of_prefix (List.prefix_append _ _))

/-- What is loaded from such a store is what it holds. -/
theorem persisted (h : WrittenByPallets db) : Persisted db (Runtime.new db) where
  blockNumber := by
    cases hkey : db[System.prefixBlockNumber]? with
    | none =>
        refine .inr ⟨rfl, ?_⟩
        simp [Runtime.new, System.Pallet.new, hkey]
    | some value =>
        obtain ⟨n, rfl⟩ := h.blockNumber_eq hkey
        refine .inl (congrArg some ?_)
        simp [Runtime.new, System.Pallet.new, hkey]
  nonces := mirrors_loadMap h.encodedUnder_nonce encode_account_ne_nil
  balances := mirrors_loadMap h.encodedUnder_balance encode_account_ne_nil

end WrittenByPallets

/-- What one dispatch writes are entries of the pallets. -/
theorem Runtime.DispatchEffect.writtenByPallets {caller : Types.AccountId} {rt : Runtime}
    {call : RuntimeCall} {r : Run Event Runtime DispatchResult}
    (heff : Runtime.DispatchEffect caller rt call r) {db : Entries} (h : WrittenByPallets db) :
    WrittenByPallets (replay db (writes r.log)) := by
  cases heff with
  | failed => exact h
  | @transferred recipient amount x y =>
      exact (h.put (.balance caller x)).put (.balance recipient y)
  | @created claim last owner => exact h.put (.claim last owner)
  | @revoked claim => exact h.delete _

variable [Ed25519]

theorem Runtime.ExtrinsicEffect.writtenByPallets {ext : Types.Extrinsic} {rt : Runtime}
    {r : Run Event Runtime Unit} (heff : Runtime.ExtrinsicEffect ext rt r) {db : Entries}
    (h : WrittenByPallets db) : WrittenByPallets (replay db (writes r.log)) := by
  cases heff with
  | skipped => exact h
  | overflowed => exact h
  | @applied m state res log tail hacc hm hd htail =>
      rw [Runtime.writes_applied htail.1, replay_cons]
      exact hd.writtenByPallets (h.put (.nonce ext.signer m))

theorem keeps_writtenByPallets_operation (db : Entries) (op : Operation) :
    Exec.Keeps (fun _ log => WrittenByPallets (replay db (writes log))) op.run := by
  have hfund : ∀ who amount, Exec.Keeps (fun _ log => WrittenByPallets (replay db (writes log)))
      (Runtime.onBalances (Balances.Pallet.setBalance who amount)) := by
    intro who amount s l h
    rw [writes_append, replay_append]
    exact h.put (.balance who amount)
  have hblock : ∀ block, Exec.Keeps (fun _ log => WrittenByPallets (replay db (writes log)))
      (Runtime.executeBlock block) := by
    refine Runtime.keeps_executeBlock ?_ ?_
    · intro s n l h
      rw [writes_append, replay_append]
      exact h.put (.blockNumber n)
    · intro ext s r l heff h
      rw [writes_append, replay_append]
      exact heff.writtenByPallets h
  cases op with
  | executeBlock block => exact Exec.keeps_bind (hblock block) fun _ => Exec.keeps_pure ()
  | setBalance who amount => exact hfund who amount
  | maybeApplyGenesis =>
      refine Runtime.keeps_maybeApplyGenesis hfund hblock fun text s l h => ?_
      rw [writes_append, replay_append]
      exact h

/-- Every store a process builds up from an empty one holds entries of the pallets only. -/
theorem writtenByPallets_operations (ops : List Operation) :
    WrittenByPallets (replay ∅ (writes (Exec.each Operation.run ops (Runtime.new ∅)).log)) :=
  Exec.keeps_each Operation.run (keeps_writtenByPallets_operation ∅) ops (Runtime.new ∅) []
    WrittenByPallets.empty

/-! ## Start-ups -/

namespace Runtime

/-- Load the runtime and apply genesis. -/
def startUp (db : Entries) : Run Event Runtime Unit := maybeApplyGenesis (Runtime.new db)

/-- The store a start-up leaves when it runs to its end. -/
def started (db : Entries) : Entries := replay db (writes (startUp db).log)

/-- The store a start-up leaves when it is cut off after `k` of its writes. -/
def interrupted (db : Entries) (k : ℕ) : Entries := replay db ((writes (startUp db).log).take k)

/-- The balances genesis writes. -/
def fundingWrites : List Write :=
  [AccountKeyring.alice, AccountKeyring.bob, AccountKeyring.charlie].map fun kr =>
    .put (Balances.Pallet.balanceKey kr.publicKey) (encode (1000000 : Types.Balance))

/-- The writes of genesis, the height last. -/
def genesisWrites : List Write :=
  fundingWrites ++ [.put System.prefixBlockNumber (encode (1 : Types.BlockNumber))]

theorem startUp_of_zero {db : Entries} (h : (Runtime.new db).height = 0) :
    (startUp db).outcome = .ret () ∧ (startUp db).state.height = 1 ∧
      (startUp db).state.proofOfExistence = (Runtime.new db).proofOfExistence ∧
      writes (startUp db).log = genesisWrites := by
  have hzero : (Runtime.new db).system.blockNumber = 0 := BitVec.eq_of_toNat_eq h
  obtain ⟨text, hrun⟩ := maybeApplyGenesis_of_zero hzero
  rw [startUp, hrun]
  exact ⟨rfl, rfl, rfl, rfl⟩

theorem startUp_of_ne {db : Entries} (h : (Runtime.new db).height ≠ 0) :
    startUp db = ⟨.ret (), Runtime.new db, []⟩ :=
  maybeApplyGenesis_of_ne h

theorem mem_fundingWrites {w : Write} (h : w ∈ fundingWrites) :
    ∃ who : Types.AccountId,
      w = .put (Balances.Pallet.balanceKey who) (encode (1000000 : Types.Balance)) := by
  obtain ⟨kr, -, rfl⟩ := List.mem_map.mp h
  exact ⟨kr.publicKey, rfl⟩

theorem mem_genesisWrites {w : Write} (h : w ∈ genesisWrites) :
    (∃ key value, w = .put key value ∧ PalletEntry key value) ∧
      ¬ ProofOfExistence.prefixPoe <+: w.key := by
  rcases List.mem_append.mp h with hfund | hheight
  · obtain ⟨who, rfl⟩ := mem_fundingWrites hfund
    exact ⟨⟨_, _, rfl, .balance who _⟩,
      apart_poe_balance.symm.not_prefix (List.prefix_append _ _)⟩
  · rw [List.mem_singleton.mp hheight]
    exact ⟨⟨_, _, rfl, .blockNumber 1⟩, apart_poe_blockNumber.1⟩

/-- A start-up ends past height zero, in the state its store holds. -/
theorem startUp_spec {db : Entries} (h : WrittenByPallets db) :
    (startUp db).outcome = .ret () ∧ (startUp db).state.height ≠ 0 ∧
      (startUp db).state = Runtime.new (started db) := by
  by_cases hzero : (Runtime.new db).height = 0
  · obtain ⟨hret, hone, hclaims, hwrites⟩ := startUp_of_zero hzero
    refine ⟨hret, by rw [hone]; exact one_ne_zero, ?_⟩
    have hpers : PersistedAfter db (startUp db).state ([] ++ (startUp db).log) :=
      keeps_persisted_operation db .maybeApplyGenesis _ [] h.persisted
    obtain ⟨hsystem, hbalances⟩ := hpers.new_eq
    have hpoe : (Runtime.new (started db)).proofOfExistence =
        (startUp db).state.proofOfExistence := by
      rw [hclaims, started, hwrites]
      exact proofOfExistence_new_replay fun w hw => (mem_genesisWrites hw).2
    rw [List.nil_append] at hsystem hbalances
    change (Runtime.new (started db)).system = _ at hsystem
    change (Runtime.new (started db)).balances = _ at hbalances
    generalize (startUp db).state = rt at hsystem hbalances hpoe ⊢
    obtain ⟨system, balances, proofOfExistence⟩ := rt
    dsimp only at hsystem hbalances hpoe
    rw [← hsystem, ← hbalances, ← hpoe]
  · rw [started, startUp_of_ne hzero]
    exact ⟨rfl, hzero, rfl⟩

/-- A start-up that was cut off leaves a store of the pallets, from which the next one reaches the
store it was to reach. -/
theorem started_interrupted {db : Entries} (h : WrittenByPallets db) (k : ℕ) :
    WrittenByPallets (interrupted db k) ∧ started (interrupted db k) = started db := by
  by_cases hzero : (Runtime.new db).height = 0
  · have hwrites := (startUp_of_zero hzero).2.2.2
    constructor
    · rw [interrupted, hwrites]
      exact h.replay fun w hw => (mem_genesisWrites (List.mem_of_mem_take hw)).1
    · by_cases hk : k ≤ fundingWrites.length
      · -- the height is not written yet: genesis runs again and writes the same
        have htake : interrupted db k = replay db (fundingWrites.take k) := by
          rw [interrupted, hwrites, genesisWrites, List.take_append_of_le_length hk]
        have hsystem : (Runtime.new (interrupted db k)).system = (Runtime.new db).system := by
          rw [htake]
          refine system_new_replay apart_balance_blockNumber apart_balance_nonce fun w hw => ?_
          obtain ⟨who, rfl⟩ := mem_fundingWrites (List.mem_of_mem_take hw)
          exact List.prefix_append _ _
        have hagain : (Runtime.new (interrupted db k)).height = 0 := by
          rw [height, hsystem]
          exact hzero
        rw [started, started, (startUp_of_zero hagain).2.2.2, hwrites, htake]
        apply replay_absorb
        intro u hu
        exact ⟨u, List.mem_append_left _ (List.mem_of_mem_take hu), rfl⟩
      · -- everything is written: genesis does nothing
        have hall : interrupted db k = started db := by
          rw [interrupted, started, hwrites, genesisWrites, List.take_of_length_le]
          rw [List.length_append, List.length_singleton]
          omega
        obtain ⟨-, hheight, hstate⟩ := startUp_spec h
        rw [hstate] at hheight
        rw [hall, started, startUp_of_ne hheight, writes_nil, replay_nil]
  · have hnothing : interrupted db k = db := by
      rw [interrupted, startUp_of_ne hzero, writes_nil, List.take_nil, replay_nil]
    rw [hnothing]
    exact ⟨h, rfl⟩

/-- Genesis is idempotent and survives crashes: after any number of start-ups that are cut off
after any of their writes, the next one that completes leaves the state and the store of a single
uninterrupted start-up, and applying genesis again does nothing. -/
theorem genesis_crash_convergent {db : Entries} (h : WrittenByPallets db) (cuts : List ℕ) :
    let crashed := cuts.foldl interrupted db
    (startUp crashed).outcome = .ret () ∧ (startUp crashed).state = (startUp db).state ∧
      started crashed = started db ∧
      maybeApplyGenesis (startUp crashed).state = ⟨.ret (), (startUp crashed).state, []⟩ := by
  induction cuts generalizing db with
  | nil =>
      obtain ⟨hret, hheight, -⟩ := startUp_spec h
      exact ⟨hret, rfl, rfl, maybeApplyGenesis_of_ne hheight⟩
  | cons k cuts ih =>
      obtain ⟨hwritten, hstarted⟩ := started_interrupted h k
      obtain ⟨hret, hstate, hstore, hagain⟩ := ih hwritten
      refine ⟨hret, ?_, hstore.trans hstarted, hagain⟩
      calc (startUp ((k :: cuts).foldl interrupted db)).state
          = (startUp (interrupted db k)).state := hstate
        _ = Runtime.new (started (interrupted db k)) := (startUp_spec hwritten).2.2
        _ = Runtime.new (started db) := by rw [hstarted]
        _ = (startUp db).state := (startUp_spec h).2.2.symm

omit [Ed25519] in
/-- A store without a height in which Alice has 5. The first start-up crashes after two of its
writes, the second before any. -/
theorem genesis_crash_convergent_leftover :
    let := Ed25519.transparent
    let db : Entries := (∅ : Entries).insert
      (Balances.Pallet.balanceKey AccountKeyring.alice.publicKey) (encode (5 : Types.Balance))
    (startUp ([2, 0].foldl interrupted db)).state = (startUp db).state := by
  intro scheme db
  have hdb : WrittenByPallets db :=
    WrittenByPallets.empty.put (.balance AccountKeyring.alice.publicKey 5)
  exact (genesis_crash_convergent hdb [2, 0]).2.1

end Runtime

end RustStateMachine
