import RustStateMachine.Custody
import RustStateMachine.Lib.Counter

/-!
# Lost writes

A write that the store refuses is reported and the process goes on. Whichever
writes are lost, a restart finds the height and each nonce at a value they had
in memory, and an extrinsic is dispatched twice only over a lost nonce.
-/

namespace RustStateMachine

open Lib Lib.KeyValue Std Support

/-! ## What a process writes -/

/-- A write as one of the pallets issues it. -/
def PalletWrite (w : Write) : Prop :=
  (∃ key value, w = .put key value ∧ PalletEntry key value) ∨ ∃ key, w = .delete key

/-- Any of the writes of the pallets leave a store of the pallets. -/
theorem WrittenByPallets.replay_palletWrites {db : Entries} (h : WrittenByPallets db)
    {ws : List Write} (hws : ∀ w ∈ ws, PalletWrite w) :
    WrittenByPallets (KeyValue.replay db ws) := by
  induction ws generalizing db with
  | nil => exact h
  | cons w ws ih =>
      have hrest : ∀ v ∈ ws, PalletWrite v := fun v hv => hws v (List.mem_cons_of_mem w hv)
      rcases hws w List.mem_cons_self with ⟨key, value, rfl, hentry⟩ | ⟨key, rfl⟩
      · exact ih (h.put hentry) hrest
      · exact ih (h.delete key) hrest

/-- What a number is written as. -/
def code (n : ℕ) : Bytes := encode (BitVec.ofNat 32 n : U32)

theorem code_toNat (x : U32) : code x.toNat = encode x := by
  rw [code, BitVec.ofNat_toNat, BitVec.setWidth_eq]

theorem code_injOn (x : U32) : Set.InjOn code (Set.Iic x.toNat) := by
  intro m hm n hn heq
  have hbits := Codec.encode_injective heq
  have hx := x.isLt
  have hm' : m % 2 ^ 32 = m := Nat.mod_eq_of_lt (Nat.lt_of_le_of_lt hm hx)
  have hn' : n % 2 ^ 32 = n := Nat.mod_eq_of_lt (Nat.lt_of_le_of_lt hn hx)
  rw [← hm', ← hn', ← BitVec.toNat_ofNat, ← BitVec.toNat_ofNat, hbits]

/-- Since it was `start`, the runtime has written entries of the pallets only, and each count of
its height and of its nonces. -/
structure Counting (start rt : Runtime) (log : List Event) : Prop where
  entries : ∀ w ∈ writes log, PalletWrite w
  height : CountsUp code System.prefixBlockNumber start.height rt.height (writes log)
  nonce : ∀ a, CountsUp code (System.Pallet.nonceKey a) (start.system.nonce a).toNat
    (rt.system.nonce a).toNat (writes log)

open RustStateMachine.Runtime

namespace Counting

variable {start rt rt' : Runtime} {log : List Event}

theorem refl (rt : Runtime) : Counting rt rt [] where
  entries w hw := by cases hw
  height := CountsUp.refl code _ _
  nonce a := CountsUp.refl code _ _

/-- Writes that are none of the counters', from a step that leaves the system pallet alone. -/
theorem skip (h : Counting start rt log) (hsystem : rt'.system = rt.system) {more : List Event}
    (hmore : ∀ w ∈ writes more, PalletWrite w ∧
      (Balances.prefixBalance <+: w.key ∨ ProofOfExistence.prefixPoe <+: w.key)) :
    Counting start rt' (log ++ more) where
  entries := by
    rw [writes_append, List.forall_mem_append]
    exact ⟨h.entries, fun w hw => (hmore w hw).1⟩
  height := by
    have hheight : rt'.height = rt.height := by
      rw [Runtime.height, Runtime.height, hsystem]
    rw [writes_append, hheight]
    refine h.height.skip fun w hw => ?_
    rcases (hmore w hw).2 with hkey | hkey
    · exact apart_balance_blockNumber.ne_of_prefix hkey
    · exact apart_poe_blockNumber.ne_of_prefix hkey
  nonce a := by
    rw [writes_append, hsystem]
    refine (h.nonce a).skip fun w hw heq => ?_
    have hnonce : System.prefixNonce <+: w.key := heq ▸ List.prefix_append _ _
    rcases (hmore w hw).2 with hkey | hkey
    · exact apart_balance_nonce.not_prefix hkey hnonce
    · exact apart_poe_nonce.not_prefix hkey hnonce

/-- A step that leaves the system pallet alone and writes nothing. -/
theorem quiet (h : Counting start rt log) (hsystem : rt'.system = rt.system) {more : List Event}
    (hmore : writes more = []) : Counting start rt' (log ++ more) := by
  refine h.skip hsystem ?_
  rw [hmore]
  exact List.forall_mem_nil _

theorem setBlockNumber (h : Counting start rt log) {n : Types.BlockNumber}
    (hn : n.toNat = rt.height + 1) :
    Counting start (rt.setBlockNumber n)
      (log ++ [.write (.put System.prefixBlockNumber (encode n))]) where
  entries := by
    rw [writes_append, List.forall_mem_append]
    exact ⟨h.entries, List.forall_mem_singleton.mpr (.inl ⟨_, _, rfl, .blockNumber n⟩)⟩
  height := by
    have hsucc := h.height.succ
    rw [← hn, code_toNat] at hsucc
    rw [writes_append]
    exact hsucc
  nonce a := by
    rw [writes_append]
    refine (h.nonce a).skip fun w hw heq => ?_
    rw [List.mem_singleton.mp hw] at heq
    exact apart_blockNumber_nonce.symm.ne_of_prefix (List.prefix_append _ _) heq.symm

theorem setNonce (h : Counting start rt log) {who : Types.AccountId} {m : Types.Nonce}
    (hm : m.toNat = (rt.system.nonce who).toNat + 1) :
    Counting start (rt.setNonce who m)
      (log ++ [.write (.put (System.Pallet.nonceKey who) (encode m))]) where
  entries := by
    rw [writes_append, List.forall_mem_append]
    exact ⟨h.entries, List.forall_mem_singleton.mpr (.inl ⟨_, _, rfl, .nonce who m⟩)⟩
  height := by
    have hheight : (rt.setNonce who m).height = rt.height := rfl
    rw [writes_append, hheight]
    refine h.height.skip fun w hw heq => ?_
    rw [List.mem_singleton.mp hw] at heq
    exact apart_blockNumber_nonce.symm.ne_of_prefix (List.prefix_append _ _) heq
  nonce a := by
    rw [writes_append, setNonce_nonce]
    by_cases ha : who = a
    · subst ha
      have hsucc := (h.nonce who).succ
      rw [← hm, code_toNat] at hsucc
      rw [if_pos rfl]
      exact hsucc
    · rw [if_neg ha]
      refine (h.nonce a).skip fun w hw heq => ?_
      rw [List.mem_singleton.mp hw] at heq
      exact ha (Codec.encode_injective (List.append_cancel_left heq))

end Counting

/-- A call writes what the other two pallets write. -/
theorem Runtime.DispatchEffect.palletWrites {caller : Types.AccountId} {rt : Runtime}
    {call : RuntimeCall} {r : Run Event Runtime DispatchResult}
    (heff : DispatchEffect caller rt call r) :
    ∀ w ∈ writes r.log, PalletWrite w ∧
      (Balances.prefixBalance <+: w.key ∨ ProofOfExistence.prefixPoe <+: w.key) := by
  cases heff with
  | failed => exact List.forall_mem_nil _
  | @transferred recipient amount x y =>
      refine List.forall_mem_cons.mpr ⟨?_, List.forall_mem_singleton.mpr ?_⟩
      · exact ⟨.inl ⟨_, _, rfl, .balance caller x⟩, .inl (List.prefix_append _ _)⟩
      · exact ⟨.inl ⟨_, _, rfl, .balance recipient y⟩, .inl (List.prefix_append _ _)⟩
  | @created claim last owner =>
      refine List.forall_mem_singleton.mpr ?_
      exact ⟨.inl ⟨_, _, rfl, .claim last owner⟩, .inr (List.prefix_append _ _)⟩
  | @revoked claim =>
      refine List.forall_mem_singleton.mpr ?_
      exact ⟨.inr ⟨_, rfl⟩, .inr (List.prefix_append _ _)⟩

section Runs

variable [Ed25519]

theorem Counting.extrinsic {start rt : Runtime} {log : List Event} (h : Counting start rt log)
    {ext : Types.Extrinsic} {r : Run Event Runtime Unit} (heff : ExtrinsicEffect ext rt r) :
    Counting start r.state (log ++ r.log) := by
  cases heff with
  | skipped => exact h.quiet rfl rfl
  | overflowed => exact h.quiet rfl rfl
  | @applied m state res dlog tail hacc hm hd htail =>
      have hnext : m.toNat = (rt.system.nonce ext.signer).toNat + 1 := by rw [hm, hacc.2]
      have hnonce := h.setNonce hnext
      have hmore : ∀ w ∈ writes (.dispatching ext :: (dlog ++ .dispatched res :: tail)),
          PalletWrite w ∧
            (Balances.prefixBalance <+: w.key ∨ ProofOfExistence.prefixPoe <+: w.key) := by
        have hwrites : writes (.dispatching ext :: (dlog ++ .dispatched res :: tail)) =
            writes dlog := by
          have hdone : writes (.dispatched res :: tail) = [] := htail.1
          change writes (dlog ++ .dispatched res :: tail) = _
          rw [writes_append, hdone, List.append_nil]
        rw [hwrites]
        exact hd.palletWrites
      have hend := hnonce.skip hd.system_eq hmore
      rw [List.append_assoc] at hend
      exact hend

theorem keeps_counting (start : Runtime) (block : Types.Block) :
    Exec.Keeps (Counting start) (executeBlock block) :=
  keeps_executeBlock_of_succ (fun _ _ _ hn h => h.setBlockNumber hn)
    (fun _ _ _ _ heff h => h.extrinsic heff) block

/-- A start-up counts, whether it applies genesis or not. -/
theorem counting_startUp (db : Entries) :
    Counting (Runtime.new db) (startUp db).state (startUp db).log := by
  have hfund : ∀ who amount, Exec.Keeps (Counting (Runtime.new db))
      (onBalances (Balances.Pallet.setBalance who amount)) := by
    intro who amount s l h
    have hlog : writes (onBalances (Balances.Pallet.setBalance who amount) s).log =
        [.put (Balances.Pallet.balanceKey who) (encode amount)] := rfl
    have hsystem : (onBalances (Balances.Pallet.setBalance who amount) s).state.system =
        s.system := rfl
    refine h.skip hsystem ?_
    rw [hlog, List.forall_mem_singleton]
    exact ⟨.inl ⟨_, _, rfl, .balance who amount⟩, .inl (List.prefix_append _ _)⟩
  have hprint : ∀ text, Exec.Keeps (Counting (Runtime.new db)) (Exec.emit (.println text)) := by
    intro text s l h
    exact h.quiet rfl rfl
  exact keeps_maybeApplyGenesis hfund (keeps_counting _) hprint _ [] (Counting.refl _)

/-- Every dispatched extrinsic was verified. -/
def Verified (log : List Event) : Prop := ∀ ext ∈ dispatches log, ext.verify = .ok ()

theorem Verified.extrinsic {rt : Runtime} {log : List Event} (h : Verified log)
    {ext : Types.Extrinsic} {r : Run Event Runtime Unit} (heff : ExtrinsicEffect ext rt r) :
    Verified (log ++ r.log) := by
  rw [Verified, dispatches_append, List.forall_mem_append]
  rcases heff.nonce_cases with ⟨hlog, -⟩ | ⟨hlog, hacc, -⟩
  · rw [hlog]
    exact ⟨h, List.forall_mem_nil _⟩
  · rw [hlog]
    exact ⟨h, List.forall_mem_singleton.mpr hacc.1⟩

/-! ## A life and the store it leaves -/

/-- What a process does to its runtime since it was `start`: it counts, and dispatches verified
extrinsics with the nonces in between. -/
structure Served (start rt : Runtime) (log : List Event) : Prop where
  counting : Counting start rt log
  verified : Verified log
  consecutive : ∀ a, Consecutive a (start.system.nonce a).toNat rt log

theorem keeps_served (start : Runtime) (block : Types.Block) :
    Exec.Keeps (Served start) (executeBlock block) := by
  intro s l h
  refine ⟨keeps_counting start block s l h.counting, ?_, ?_⟩
  · have hkeeps : Exec.Keeps (fun _ log => Verified log) (executeBlock block) := by
      refine keeps_executeBlock ?_ (fun _ _ _ _ heff hs => hs.extrinsic heff) block
      intro s n l hs
      rw [Verified, dispatches_append, List.forall_mem_append]
      exact ⟨hs, List.forall_mem_nil _⟩
    exact hkeeps s l h.verified
  · exact fun a => keeps_consecutive a _ block s l (h.consecutive a)

theorem served_startUp (db : Entries) :
    Served (Runtime.new db) (startUp db).state (startUp db).log := by
  have hnone : dispatches (startUp db).log = [] ∧
      ∀ a, (startUp db).state.system.nonce a = (Runtime.new db).system.nonce a := by
    by_cases hzero : (Runtime.new db).height = 0
    · obtain ⟨text, hrun⟩ := maybeApplyGenesis_of_zero (BitVec.eq_of_toNat_eq hzero)
      rw [startUp, hrun]
      exact ⟨rfl, fun a => rfl⟩
    · rw [startUp_of_ne hzero]
      exact ⟨rfl, fun a => rfl⟩
  refine ⟨counting_startUp db, ?_, ?_⟩
  · rw [Verified, hnone.1]
    exact List.forall_mem_nil _
  · intro a
    rw [Consecutive, hnone.1, hnone.2, Nat.sub_self]
    exact ⟨le_rfl, rfl⟩

variable {PeerId : Type} [LinearOrder PeerId]

/-- The runtime a life ends with. -/
def NodeLife.runtime (life : NodeLife PeerId) (db : Entries) : Runtime :=
  (Trace.run Process.next life.moves (Process.start
    ⟨life.id, [life.id], (startUp db).state, Mempool.withBlockLimit 3⟩)).server.node.runtime

theorem NodeLife.served (life : NodeLife PeerId) (db : Entries) :
    Served (Runtime.new db) (life.runtime db) (life.log db) := by
  have hret : (startUp db).outcome = .ret () := by
    by_cases hzero : (Runtime.new db).height = 0
    · exact (startUp_of_zero hzero).1
    · rw [startUp_of_ne hzero]
  let since : Runtime → List Event → Prop := fun rt log =>
    Served (Runtime.new db) rt ((startUp db).log ++ log)
  have hblock : ∀ block, Exec.Keeps since (executeBlock block) := by
    intro block s l h
    have hnext := keeps_served (Runtime.new db) block s _ h
    rw [List.append_assoc] at hnext
    exact hnext
  have hstart : since (startUp db).state [] := by
    have hbegin := served_startUp db
    rw [← List.append_nil (startUp db).log] at hbegin
    exact hbegin
  have hrun := Trace.run_keeps (Process.keeps_next hblock) life.moves
    (s := Process.start ⟨life.id, [life.id], (startUp db).state, Mempool.withBlockLimit 3⟩) hstart
  rw [NodeLife.log, hret]
  exact hrun

/-- A counter that was `x` when a life began and `y` when it ended is `z` after a restart, with
only some of the writes kept: in between, and where it was exactly if it had not moved or was
written last. -/
structure ReadsBack (key : Bytes) (kept : List Write) (x y z : U32) : Prop where
  ge : x.toNat ≤ z.toNat
  le : z.toNat ≤ y.toNat
  eq_iff : z = y ↔ x = y ∨ .put key (encode y) ∈ kept

omit [Ed25519] in
theorem readsBack_of_countsUp {key : Bytes} {ws kept : List Write} {x y z : U32} {db : Entries}
    (h : CountsUp code key x.toNat y.toNat ws) (hkept : kept.Sublist ws)
    (hnew : ∀ n : U32, (replay db kept)[key]? = some (encode n) → z = n)
    (hold : (replay db kept)[key]? = db[key]? → z = x) : ReadsBack key kept x y z := by
  obtain ⟨m, hge, hle, hm, hlast⟩ := h.lossy (code_injOn y) hkept db
  have hz : z.toNat = m := by
    rcases hm with hput | ⟨rfl, hsame⟩
    · have hlt : m < 2 ^ 32 := Nat.lt_of_le_of_lt hle y.isLt
      rw [hnew (BitVec.ofNat 32 m) hput, BitVec.toNat_ofNat, Nat.mod_eq_of_lt hlt]
    · rw [hold hsame]
  subst hz
  rw [code_toNat, BitVec.toNat_inj, BitVec.toNat_inj] at hlast
  exact ⟨hge, hle, hlast⟩

omit [Ed25519] in
/-- Two stores with the same entry for a nonce hold the same nonce. -/
theorem Persisted.nonce_congr {db db' : Entries} {rt rt' : Runtime} (h : Persisted db rt)
    (h' : Persisted db' rt') {a : Types.AccountId}
    (hsame : db'[System.Pallet.nonceKey a]? = db[System.Pallet.nonceKey a]?) :
    rt'.system.nonce a = rt.system.nonce a := by
  rw [System.Pallet.nonceKey, h'.nonces.getElem?_eq, h.nonces.getElem?_eq] at hsame
  have hinj : Function.Injective (Option.map (encode : U32 → Bytes)) :=
    Option.map_injective Codec.encode_injective
  have hentry := hinj hsame
  rw [System.Pallet.nonce, System.Pallet.nonce, Std.ExtTreeMap.getD_eq_getD_getElem?,
    Std.ExtTreeMap.getD_eq_getD_getElem?, hentry]

omit [Ed25519] in
theorem Persisted.nonce_eq {db : Entries} {rt : Runtime} (h : Persisted db rt)
    {a : Types.AccountId} {n : U32} (hput : db[System.Pallet.nonceKey a]? = some (encode n)) :
    rt.system.nonce a = n := by
  rw [System.Pallet.nonceKey, h.nonces.getElem?_eq, Option.map_eq_some_iff] at hput
  obtain ⟨m, hm, hcode⟩ := hput
  obtain rfl := Codec.encode_injective hcode
  rw [System.Pallet.nonce, Std.ExtTreeMap.getD_eq_getD_getElem?, hm]
  rfl

omit [Ed25519] in
theorem Persisted.blockNumber_eq {db : Entries} {rt : Runtime} (h : Persisted db rt) {n : U32}
    (hput : db[System.prefixBlockNumber]? = some (encode n)) : rt.system.blockNumber = n := by
  rcases h.blockNumber with hsome | ⟨hnone, -⟩
  · rw [hput] at hsome
    exact (Codec.encode_injective (Option.some.inj hsome)).symm
  · rw [hput] at hnone
    cases hnone

omit [Ed25519] in
theorem Persisted.blockNumber_congr {db db' : Entries} {rt rt' : Runtime} (h : Persisted db rt)
    (h' : Persisted db' rt')
    (hsame : db'[System.prefixBlockNumber]? = db[System.prefixBlockNumber]?) :
    rt'.system.blockNumber = rt.system.blockNumber := by
  rcases h.blockNumber with hsome | ⟨hnone, hzero⟩
  · exact h'.blockNumber_eq (hsame.trans hsome)
  · rcases h'.blockNumber with hsome' | ⟨-, hzero'⟩
    · rw [hsame, hnone] at hsome'
      cases hsome'
    · rw [hzero, hzero']

/-- Whatever a life of a node does and whichever of its writes are lost: a restart finds the height
and each nonce between what they were before the life and at its end, and at its end exactly where
the last write was kept. Of an account's extrinsics that were dispatched it accepts again just the
one with the nonce it finds, and there is one exactly if the account's last nonce was lost. -/
theorem lost_writes {db : Entries} (hdb : WrittenByPallets db) (life : NodeLife PeerId)
    {kept : List Write} (hkept : kept.Sublist (writes (life.log db))) :
    let before := Runtime.new db
    let now := life.runtime db
    let after := Runtime.new (replay db kept)
    ReadsBack System.prefixBlockNumber kept before.system.blockNumber now.system.blockNumber
        after.system.blockNumber ∧
      ∀ a, ReadsBack (System.Pallet.nonceKey a) kept (before.system.nonce a) (now.system.nonce a)
          (after.system.nonce a) ∧
        (∀ ext ∈ dispatches (life.log db), ext.signer = a →
          (Accepted ext after ↔ ext.nonce = after.system.nonce a)) ∧
        ((∃ ext ∈ dispatches (life.log db), ext.signer = a ∧ Accepted ext after) ↔
          before.system.nonce a ≠ now.system.nonce a ∧
            .put (System.Pallet.nonceKey a) (encode (now.system.nonce a)) ∉ kept) := by
  intro before now after
  have hserved : Served before now (life.log db) := life.served db
  have hbefore : Persisted db before := hdb.persisted
  have hafter : Persisted (replay db kept) after :=
    (hdb.replay_palletWrites fun w hw =>
      hserved.counting.entries w (hkept.subset hw)).persisted
  refine ⟨readsBack_of_countsUp hserved.counting.height hkept (fun _ => hafter.blockNumber_eq)
    (hbefore.blockNumber_congr hafter), fun a => ?_⟩
  have hnonce : ReadsBack (System.Pallet.nonceKey a) kept (before.system.nonce a)
      (now.system.nonce a) (after.system.nonce a) :=
    readsBack_of_countsUp (hserved.counting.nonce a) hkept (fun _ => hafter.nonce_eq)
      (hbefore.nonce_congr hafter)
  have hagain : ∀ ext ∈ dispatches (life.log db), ext.signer = a →
      (Accepted ext after ↔ ext.nonce = after.system.nonce a) := by
    rintro ext hext rfl
    exact ⟨fun hacc => hacc.2.symm, fun heq => ⟨hserved.verified ext hext, heq.symm⟩⟩
  refine ⟨hnonce, hagain, ?_⟩
  have hspent := (hserved.consecutive a).2
  have hmem : (∃ ext ∈ dispatches (life.log db), ext.signer = a ∧ Accepted ext after) ↔
      (after.system.nonce a).toNat ∈ noncesOf a (dispatches (life.log db)) := by
    rw [mem_noncesOf]
    constructor
    · rintro ⟨ext, hext, ha, hacc⟩
      exact ⟨ext, hext, ha, congrArg BitVec.toNat ((hagain ext hext ha).mp hacc)⟩
    · rintro ⟨ext, hext, ha, heq⟩
      exact ⟨ext, hext, ha, (hagain ext hext ha).mpr (BitVec.eq_of_toNat_eq heq)⟩
  have hlost : after.system.nonce a ≠ now.system.nonce a ↔
      before.system.nonce a ≠ now.system.nonce a ∧
        .put (System.Pallet.nonceKey a) (encode (now.system.nonce a)) ∉ kept := by
    rw [ne_eq, hnonce.eq_iff, not_or]
  rw [hmem, hspent, List.mem_range'_1, ← hlost, ne_eq, ← BitVec.toNat_inj]
  have hge := hnonce.ge
  have hle := hnonce.le
  omega

end Runs

theorem paymentMoves_nonce :
    let := Ed25519.ledger signedTwice
    (Runtime.new genesisStore).system.nonce ⟨AccountKeyring.alice.seed⟩ ≠
      ((⟨0, paymentMoves⟩ : NodeLife ℕ).runtime genesisStore).system.nonce
        ⟨AccountKeyring.alice.seed⟩ := by
  decide +kernel

/-- The store loses the nonce of the payment: after a restart the payment is accepted again. -/
theorem lost_writes_payment :
    let := Ed25519.ledger signedTwice
    let alice : Types.AccountId := ⟨AccountKeyring.alice.seed⟩
    let life : NodeLife ℕ := ⟨0, paymentMoves⟩
    let kept : List Write := (writes (life.log genesisStore)).filter fun w =>
      decide (w.key ≠ System.Pallet.nonceKey alice)
    ∃ ext ∈ dispatches (life.log genesisStore), ext.signer = alice ∧
      Accepted ext (Runtime.new (replay genesisStore kept)) := by
  intro scheme alice life kept
  have hwritten : WrittenByPallets genesisStore :=
    writtenByPallets_operations [.maybeApplyGenesis]
  have hsublist : kept.Sublist (writes (life.log genesisStore)) := List.filter_sublist
  have hlost := lost_writes hwritten life hsublist
  have hnone : ∀ value, .put (System.Pallet.nonceKey alice) value ∉ kept := by
    intro value hmem
    have hkey := (List.mem_filter.mp hmem).2
    exact of_decide_eq_true hkey rfl
  exact (hlost.2 alice).2.2.mpr ⟨paymentMoves_nonce, hnone _⟩

end RustStateMachine
