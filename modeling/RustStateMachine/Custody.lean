import Mathlib.Algebra.BigOperators.Intervals
import RustStateMachine.Authorization
import RustStateMachine.Cli
import RustStateMachine.Genesis
import RustStateMachine.Lib.Crashes
import RustStateMachine.Lib.Trace
import RustStateMachine.Process
import RustStateMachine.Signing

/-!
# Custody

A node takes in what anybody sends. Under a scheme that accepts only what the
owner of a key has signed, an account still loses nothing but what its owner
signed away: in a process in memory, and over crashes and restarts in the store.
-/

namespace RustStateMachine

open Lib Lib.Crashes Lib.KeyValue Std Support

namespace Runtime

open UncheckedExtrinsic

variable [Ed25519]

/-- The owner of the account has signed the call with this nonce. -/
def SignedCall (signed : Vector UInt8 32 → Bytes → Prop) (a : Types.AccountId) (n : ℕ)
    (call : RuntimeCall) : Prop :=
  ∃ (sk : Vector UInt8 32) (nonce : U32), Ed25519.verifyingKey sk = a.bytes ∧ nonce.toNat = n ∧
    signed sk (payload a nonce call)

/-- What the owner has signed moves with each nonce at most this much. -/
def WithinBudget (signed : Vector UInt8 32 → Bytes → Prop) (a : Types.AccountId)
    (budget : ℕ → ℕ) : Prop :=
  ∀ n call, SignedCall signed a n call → amountOf call ≤ budget n

/-- Since its nonce was `first` and its balance `had`, the account has spent nonces its owner has
signed for, and of its balance at most what was signed with them. -/
structure Custody (signed : Vector UInt8 32 → Bytes → Prop) (a : Types.AccountId)
    (budget : ℕ → ℕ) (first had : ℕ) (rt : Runtime) : Prop where
  nonce_le : first ≤ (rt.system.nonce a).toNat
  signed : ∀ n, first ≤ n → n < (rt.system.nonce a).toNat → ∃ call, SignedCall signed a n call
  covered : had ≤ (rt.balances.balance a).toNat +
    ∑ n ∈ Finset.Ico first (rt.system.nonce a).toNat, budget n

/-- The claim is still the account's, or its owner has signed its revocation with a spent nonce. -/
def ClaimKept (signed : Vector UInt8 32 → Bytes → Prop) (a : Types.AccountId) (first : ℕ)
    (claim : Types.Content) (rt : Runtime) : Prop :=
  rt.proofOfExistence.claims[claim]? = some a ∨
    ∃ n, first ≤ n ∧ n < (rt.system.nonce a).toNat ∧
      SignedCall signed a n (.proofOfExistence (.revokeClaim claim))

section Steps

variable {signed : Vector UInt8 32 → Bytes → Prop} {a : Types.AccountId} {budget : ℕ → ℕ}
  {first had : ℕ} {rt rt' : Runtime} {ext : Types.Extrinsic}

theorem Custody.refl (rt : Runtime) : Custody signed a budget (rt.system.nonce a).toNat
    (rt.balances.balance a).toNat rt := by
  refine ⟨le_rfl, fun n hle hlt => absurd hle hlt.not_ge, ?_⟩
  rw [Finset.Ico_self, Finset.sum_empty]
  exact le_rfl

theorem Custody.of_eq {first' had' : ℕ} (h : Custody signed a budget first had rt)
    (hfirst : first = first') (hhad : had = had') : Custody signed a budget first' had' rt := by
  subst hfirst hhad
  exact h

/-- What passes both checks was signed by its signer's owner, with the nonce it spends next. -/
theorem Accepted.signedCall (h : Accepted ext rt) (hideal : Ed25519.Ideal signed) :
    SignedCall signed ext.signer (rt.system.nonce ext.signer).toNat ext.call := by
  obtain ⟨sk, hkey, hsigned, -⟩ := (verify_ideal hideal).mp h.1
  exact ⟨sk, ext.nonce, hkey, by rw [h.2], hsigned⟩

/-- Spending a nonce makes room for what was signed with it. -/
theorem Custody.setNonce (h : Custody signed a budget first had rt)
    (hideal : Ed25519.Ideal signed) (hbudget : WithinBudget signed a budget)
    (hacc : Accepted ext rt) {m : Types.Nonce} (hm : m.toNat = ext.nonce.toNat + 1) :
    Custody signed a budget first (had + if ext.signer = a then amountOf ext.call else 0)
      (rt.setNonce ext.signer m) := by
  have hcall := hacc.signedCall hideal
  have hread := setNonce_nonce rt ext.signer a m
  by_cases ha : ext.signer = a
  · subst ha
    have hnext : m.toNat = (rt.system.nonce ext.signer).toNat + 1 := by rw [hm, hacc.2]
    rw [if_pos rfl] at hread ⊢
    refine ⟨?_, ?_, ?_⟩
    · rw [hread, hnext]
      exact h.nonce_le.trans (Nat.le_succ _)
    · intro n hle hlt
      rw [hread, hnext] at hlt
      rcases Nat.lt_succ_iff_lt_or_eq.mp hlt with hlt | rfl
      · exact h.signed n hle hlt
      · exact ⟨_, hcall⟩
    · rw [hread, hnext, Finset.sum_Ico_succ_top h.nonce_le, setNonce_balances]
      have hcovered := h.covered
      have hamount := hbudget _ _ hcall
      omega
  · rw [if_neg ha] at hread ⊢
    refine ⟨?_, ?_, ?_⟩
    · rw [hread]
      exact h.nonce_le
    · rw [hread]
      exact h.signed
    · rw [hread]
      exact h.covered

/-- A balance may fall by the room that was made. -/
theorem Custody.spend {room : ℕ} (h : Custody signed a budget first (had + room) rt)
    (hsystem : rt'.system = rt.system)
    (hbalance : (rt.balances.balance a).toNat ≤ (rt'.balances.balance a).toNat + room) :
    Custody signed a budget first had rt' := by
  refine ⟨?_, ?_, ?_⟩
  · rw [hsystem]
    exact h.nonce_le
  · rw [hsystem]
    exact h.signed
  · rw [hsystem]
    have hcovered := h.covered
    omega

theorem Custody.extrinsic (h : Custody signed a budget first had rt)
    (hideal : Ed25519.Ideal signed) (hbudget : WithinBudget signed a budget)
    {r : Run Event Runtime Unit} (heff : ExtrinsicEffect ext rt r) :
    Custody signed a budget first had r.state := by
  cases heff with
  | skipped => exact h
  | overflowed => exact h
  | applied hacc hm hd _ =>
      exact (h.setNonce hideal hbudget hacc hm).spend hd.system_eq (hd.balance_le a)

theorem ClaimKept.extrinsic {claim : Types.Content} (hc : Custody signed a budget first had rt)
    (h : ClaimKept signed a first claim rt) (hideal : Ed25519.Ideal signed)
    {r : Run Event Runtime Unit} (heff : ExtrinsicEffect ext rt r) :
    ClaimKept signed a first claim r.state := by
  have hnonce : (rt.system.nonce a).toNat ≤ (r.state.system.nonce a).toNat := by
    rcases heff.nonce_cases with ⟨-, hsystem⟩ | ⟨-, -, hraised⟩
    · rw [hsystem]
    · rw [hraised a]
      exact Nat.le_add_right _ _
  rcases h with hclaim | ⟨n, hle, hlt, hcall⟩
  · cases heff with
    | skipped => exact .inl hclaim
    | overflowed => exact .inl hclaim
    | @applied m state res log tail hacc hm hd htail =>
        rcases hd.claim_kept hclaim with hkept | ⟨rfl, hrevoke⟩
        · exact .inl hkept
        · right
          refine ⟨_, hc.nonce_le, ?_, hrevoke ▸ hacc.signedCall hideal⟩
          have hspent : state.system.nonce ext.signer = m := by
            rw [show state.system = _ from hd.system_eq, setNonce_nonce, if_pos rfl]
          dsimp only
          rw [hspent, hm, ← hacc.2]
          exact Nat.lt_succ_self _
  · exact .inr ⟨n, hle, hlt.trans_le hnonce, hcall⟩

theorem keeps_custody (hideal : Ed25519.Ideal signed) (hbudget : WithinBudget signed a budget)
    (claims : Types.Content → Prop) (block : Types.Block) :
    Exec.Keeps (fun rt _ => Custody signed a budget first had rt ∧
      ∀ claim, claims claim → ClaimKept signed a first claim rt) (executeBlock block) := by
  refine keeps_executeBlock ?_ ?_ block
  · intro s n l h
    exact ⟨⟨h.1.nonce_le, h.1.signed, h.1.covered⟩, h.2⟩
  · intro ext s r l heff h
    refine ⟨h.1.extrinsic hideal hbudget heff, fun claim hclaim => ?_⟩
    exact ClaimKept.extrinsic h.1 (h.2 claim hclaim) hideal heff

end Steps

end Runtime

open RustStateMachine.Runtime

/-! ## In one process -/

section Process

variable [Ed25519] {PeerId : Type} [LinearOrder PeerId]

/-- Whatever anybody sends to a node and however its parts interleave, an account's nonces, balance
and claims are in the custody of its owner. -/
theorem custody_in_process {signed : Vector UInt8 32 → Bytes → Prop}
    (hideal : Ed25519.Ideal signed) {a : Types.AccountId} {budget : ℕ → ℕ}
    (hbudget : WithinBudget signed a budget) (node : Node PeerId)
    (moves : List (Process.Move PeerId)) :
    let rt := node.runtime
    let rt' := (Trace.run Process.next moves (Process.start node)).server.node.runtime
    Custody signed a budget (rt.system.nonce a).toNat (rt.balances.balance a).toNat rt' ∧
      ∀ claim : Types.Content, rt.proofOfExistence.claims[claim]? = some a →
        ClaimKept signed a (rt.system.nonce a).toNat claim rt' := by
  intro rt rt'
  let owned : Types.Content → Prop := fun claim => rt.proofOfExistence.claims[claim]? = some a
  let held : Runtime → List Event → Prop := fun s _ =>
    Custody signed a budget (rt.system.nonce a).toNat (rt.balances.balance a).toNat s ∧
      ∀ claim, owned claim → ClaimKept signed a (rt.system.nonce a).toNat claim s
  have hblock : ∀ block, Exec.Keeps held (executeBlock block) :=
    keeps_custody hideal hbudget owned
  have hstart : held (Process.start node).server.node.runtime [] :=
    ⟨Custody.refl rt, fun claim hclaim => .inl hclaim⟩
  exact Trace.run_keeps (Process.keeps_next hblock) moves hstart

end Process

/-! ## Over crashes and restarts -/

/-- What an entry of the log changes in the store. -/
def store (e : Event) (db : Entries) : Entries :=
  match e.write? with
  | some w => w.apply db
  | none => db

theorem durable_store (db : Entries) (log : List Event) :
    durable store db log = replay db (writes log) := by
  induction log generalizing db with
  | nil => rfl
  | cons e log ih =>
      rw [durable_cons, ih, writes_cons, store]
      cases e.write? with
      | none => rfl
      | some w => rfl

/-- Entries that write nothing. -/
theorem throughout_of_writes_nil {P : Entries → Prop} {db : Entries} {log : List Event}
    (hlog : writes log = []) (h : P db) : Throughout store P db log := by
  intro cut hcut
  have hnone : writes cut = [] := List.prefix_nil.mp (hlog ▸ hcut.filterMap Event.write?)
  rw [durable_store, hnone]
  exact h

section Lives

variable [Ed25519] {signed : Vector UInt8 32 → Bytes → Prop} {a : Types.AccountId}
  {budget : ℕ → ℕ} {first had : ℕ}

/-- The store holds a runtime past genesis in which the account is in its owner's custody. -/
def Kept (signed : Vector UInt8 32 → Bytes → Prop) (a : Types.AccountId) (budget : ℕ → ℕ)
    (first had : ℕ) (rt : Runtime) (db : Entries) : Prop :=
  Persisted db rt ∧ rt.height ≠ 0 ∧ Custody signed a budget first had rt

/-- Some runtime that the store persists keeps what the account is owed. -/
def Safe (signed : Vector UInt8 32 → Bytes → Prop) (a : Types.AccountId) (budget : ℕ → ℕ)
    (first had : ℕ) (db : Entries) : Prop :=
  ∃ rt, Kept signed a budget first had rt db

omit [Ed25519] in
/-- A transfer in progress: the caller's new balance is written first. -/
theorem balance_of_debit {rt : Runtime} {caller : Types.AccountId} {amount x : Types.Balance}
    (hx : x.toNat + amount.toNat = (rt.balances.balance caller).toNat) (a : Types.AccountId) :
    (rt.balances.balance a).toNat ≤
      ((⟨rt.balances.balances.insert caller x⟩ :
        Balances.Pallet Types.AccountId Types.Balance).balance a).toNat +
          if caller = a then amount.toNat else 0 := by
  rw [Balances.Pallet.balance, Balances.Pallet.balance, OrderedMap.getD_insert]
  by_cases ha : caller = a
  · subst ha
    rw [if_pos rfl, if_pos rfl, hx]
    exact le_rfl
  · rw [if_neg ha, if_neg ha]
    exact le_rfl

/-- A runtime loaded from the store is in the same custody. -/
theorem Safe.loaded {db : Entries} (h : Safe signed a budget first had db) :
    Kept signed a budget first had (Runtime.new db) db := by
  obtain ⟨rt, hdb, hheight, hcustody⟩ := h
  obtain ⟨hsystem, hbalances⟩ := hdb.new_eq
  refine ⟨hdb.new, ?_, ?_⟩
  · rw [Runtime.height, hsystem]
    exact hheight
  · have hsame : (rt.balances.balance a).toNat ≤
        ((Runtime.new db).balances.balance a).toNat + 0 := by rw [hbalances, Nat.add_zero]
    exact hcustody.spend hsystem hsame

/-- The writes of a call leave the account in custody after each of them. -/
theorem Runtime.DispatchEffect.safe {caller : Types.AccountId} {rt : Runtime} {call : RuntimeCall}
    {r : Run Event Runtime DispatchResult} (heff : DispatchEffect caller rt call r)
    {db : Entries} (hdb : Persisted db rt) (hheight : rt.height ≠ 0)
    (h : Custody signed a budget first (had + if caller = a then amountOf call else 0) rt) :
    Throughout store (Safe signed a budget first had) db r.log := by
  have hstart : Safe signed a budget first had db :=
    ⟨rt, hdb, hheight, h.spend rfl (Nat.le_add_right _ _)⟩
  have hend : Safe signed a budget first had (durable store db r.log) := by
    refine ⟨r.state, ?_, ?_, h.spend heff.system_eq (heff.balance_le a)⟩
    · rw [durable_store]
      exact heff.persisted hdb
    · rw [Runtime.height, heff.system_eq]
      exact hheight
  cases heff with
  | failed => exact throughout_nil.mpr hstart
  | @transferred recipient amount x y hx hy =>
      refine throughout_cons.mpr ⟨hstart, throughout_cons.mpr ⟨?_, throughout_nil.mpr hend⟩⟩
      exact ⟨_, hdb.put_balance caller x, hheight, h.spend rfl (balance_of_debit hx a)⟩
  | created => exact throughout_cons.mpr ⟨hstart, throughout_nil.mpr hend⟩
  | revoked => exact throughout_cons.mpr ⟨hstart, throughout_nil.mpr hend⟩

theorem Runtime.ExtrinsicEffect.kept {ext : Types.Extrinsic} {rt : Runtime}
    {r : Run Event Runtime Unit} (heff : ExtrinsicEffect ext rt r)
    (hideal : Ed25519.Ideal signed) (hbudget : WithinBudget signed a budget) {db : Entries}
    (h : Kept signed a budget first had rt db) :
    Kept signed a budget first had r.state (durable store db r.log) ∧
      Throughout store (Safe signed a budget first had) db r.log := by
  obtain ⟨hdb, hheight, hcustody⟩ := h
  have hsafe : Safe signed a budget first had db := ⟨rt, hdb, hheight, hcustody⟩
  constructor
  · refine ⟨?_, ?_, hcustody.extrinsic hideal hbudget heff⟩
    · rw [durable_store]
      exact heff.persisted hdb
    · rw [Runtime.height, heff.blockNumber_eq]
      exact hheight
  · cases heff with
    | skipped => exact throughout_of_writes_nil rfl hsafe
    | overflowed => exact throughout_nil.mpr hsafe
    | @applied m state res log tail hacc hm hd htail =>
        have hnonce := hcustody.setNonce hideal hbudget hacc hm
        have hput := hdb.put_nonce ext.signer m
        have hcall := hd.safe hput hheight hnonce
        have hdone : writes (.dispatched res :: tail) = [] := htail.1
        refine throughout_cons.mpr ⟨hsafe, throughout_cons.mpr ⟨hcall.start, ?_⟩⟩
        refine throughout_append.mpr ⟨hcall, throughout_of_writes_nil hdone ?_⟩
        exact hcall log List.prefix_rfl

theorem keeps_recoverable_executeBlock (hideal : Ed25519.Ideal signed)
    (hbudget : WithinBudget signed a budget) (db : Entries) (block : Types.Block) :
    Exec.Keeps (Recoverable store (Kept signed a budget first had)
      (Safe signed a budget first had) db) (executeBlock block) := by
  refine keeps_executeBlock_of_succ ?_ ?_ block
  · intro s n l hn h
    refine h.extend fun hkept => ?_
    have hnext : Kept signed a budget first had (s.setBlockNumber n)
        (durable store (durable store db l)
          [.write (.put System.prefixBlockNumber (encode n))]) := by
      refine ⟨hkept.1.put_blockNumber n, ?_, ?_⟩
      · rw [height, setBlockNumber_blockNumber, hn]
        exact Nat.succ_ne_zero _
      · exact ⟨hkept.2.2.nonce_le, hkept.2.2.signed, hkept.2.2.covered⟩
    exact ⟨hnext, throughout_cons.mpr ⟨⟨s, hkept⟩, throughout_nil.mpr ⟨_, hnext⟩⟩⟩
  · intro ext s r l heff h
    exact h.extend fun hkept => heff.kept hideal hbudget hkept

end Lives

/-- One life of a node: the id it draws and the steps it takes. -/
structure NodeLife (PeerId : Type) where
  id : PeerId
  moves : List (Process.Move PeerId)

section Theorem

variable [Ed25519] {PeerId : Type} [LinearOrder PeerId]

/-- What a life of the node does to its runtime, from the store it starts with: it loads the
runtime, applies genesis and takes its steps. -/
def NodeLife.log (life : NodeLife PeerId) (db : Entries) : List Event :=
  (startUp db).log ++
    match (startUp db).outcome with
    | .ret _ => runtimeLog (Trace.run Process.next life.moves (Process.start
        ⟨life.id, [life.id], (startUp db).state, Mempool.withBlockLimit 3⟩)).log
    | .panicked _ => []

/-- Whatever anybody sends to a node over any number of lives, however its parts interleave and
after whichever entries of their logs its lives are cut off: in the store an account's nonce and
balance stay in the custody of its owner. -/
theorem custody_across_lives {signed : Vector UInt8 32 → Bytes → Prop}
    (hideal : Ed25519.Ideal signed) {a : Types.AccountId} {budget : ℕ → ℕ}
    (hbudget : WithinBudget signed a budget) {db : Entries} (hdb : WrittenByPallets db)
    (hheight : (Runtime.new db).height ≠ 0) (lives : List (NodeLife PeerId × ℕ)) :
    let rt := Runtime.new db
    let rt' := Runtime.new (outlived store NodeLife.log lives db)
    Custody signed a budget (rt.system.nonce a).toNat (rt.balances.balance a).toNat rt' := by
  intro rt rt'
  let first := (rt.system.nonce a).toNat
  let had := (rt.balances.balance a).toNat
  have hlife : ∀ (life : NodeLife PeerId) db, Safe signed a budget first had db →
      Throughout store (Safe signed a budget first had) db (life.log db) := by
    intro life db hsafe
    have hloaded := hsafe.loaded
    have hboot : startUp db = ⟨.ret (), Runtime.new db, []⟩ := startUp_of_ne hloaded.2.1
    have hblock : ∀ block, Exec.Keeps (Recoverable store (Kept signed a budget first had)
        (Safe signed a budget first had) db) (executeBlock block) :=
      keeps_recoverable_executeBlock hideal hbudget db
    rw [NodeLife.log, hboot]
    have hrun := Trace.run_keeps (Process.keeps_next hblock) life.moves
      (s := Process.start ⟨life.id, [life.id], Runtime.new db, Mempool.withBlockLimit 3⟩)
      ⟨hloaded, throughout_nil.mpr hsafe⟩
    exact hrun.2
  have hend := outlived_keeps hlife lives ⟨rt, hdb.persisted, hheight, Custody.refl rt⟩
  exact hend.loaded.2.2

end Theorem

/-- Alice has signed nothing that moves more than 30 with a nonce. -/
theorem withinBudget_signedTwice :
    let := Ed25519.ledger signedTwice
    WithinBudget (fun sk message => (sk, message) ∈ signedTwice) ⟨AccountKeyring.alice.seed⟩
      fun _ => 30 := by
  rintro scheme n call ⟨sk, nonce, -, -, hmem⟩
  simp only [signedTwice, List.mem_cons, Prod.mk.injEq, List.not_mem_nil, or_false] at hmem
  rcases hmem with ⟨-, hpayload⟩ | ⟨-, hpayload⟩
  · obtain ⟨-, -, rfl⟩ := UncheckedExtrinsic.payload_inj.mp hpayload
    exact le_rfl
  · obtain ⟨-, -, rfl⟩ := UncheckedExtrinsic.payload_inj.mp hpayload
    exact le_rfl

/-- A payment of Alice is posted twice, received, and put into a block. -/
def paymentMoves : List (Process.Move ℕ) :=
  let := Ed25519.ledger signedTwice
  let payment : Types.Extrinsic := UncheckedExtrinsic.newSigned AccountKeyring.alice.seed 0
    (.balances (.transfer ⟨AccountKeyring.bob.seed⟩ 30))
  [.connection (.established 1), .post (encode payment), .post (encode payment), .forward payment,
    .receive, .forward payment, .tick, .checkSlot 0, .drain, .receive, .select .inserted, .execute,
    .publish true, .receive]

/-- A node after genesis, not connected to any other. -/
def soloNode : Node ℕ :=
  ⟨0, [0], @Cli.genesisState (Ed25519.ledger signedTwice), Mempool.withBlockLimit 3⟩

theorem soloNode_alice :
    (soloNode.runtime.system.nonce ⟨AccountKeyring.alice.seed⟩).toNat = 0 ∧
      (soloNode.runtime.balances.balance ⟨AccountKeyring.alice.seed⟩).toNat = 1000000 := by
  decide +kernel

theorem custody_in_process_payment :
    let := Ed25519.ledger signedTwice
    Custody (fun sk message => (sk, message) ∈ signedTwice) ⟨AccountKeyring.alice.seed⟩
      (fun _ => 30) 0 1000000
      (Trace.run Process.next paymentMoves (Process.start soloNode)).server.node.runtime := by
  intro scheme
  have hideal : Ed25519.Ideal fun sk message => (sk, message) ∈ signedTwice :=
    Ed25519.ideal_ledger (by decide)
  have hcustody := (custody_in_process hideal withinBudget_signedTwice soloNode paymentMoves).1
  exact hcustody.of_eq soloNode_alice.1 soloNode_alice.2

/-- The store a first start-up leaves. -/
def genesisStore : Entries := @started (Ed25519.ledger signedTwice) ∅

theorem genesisStore_alice :
    ((Runtime.new genesisStore).system.nonce ⟨AccountKeyring.alice.seed⟩).toNat = 0 ∧
      ((Runtime.new genesisStore).balances.balance ⟨AccountKeyring.alice.seed⟩).toNat =
        1000000 := by
  decide +kernel

/-- The first life crashes between the two balances of the payment; the second one is sent the
payment again. -/
theorem custody_across_lives_payment :
    let := Ed25519.ledger signedTwice
    Custody (fun sk message => (sk, message) ∈ signedTwice) ⟨AccountKeyring.alice.seed⟩
      (fun _ => 30) 0 1000000
      (Runtime.new (outlived store NodeLife.log
        [((⟨0, paymentMoves⟩ : NodeLife ℕ), 4), (⟨0, paymentMoves⟩, 100)] genesisStore)) := by
  intro scheme
  have hideal : Ed25519.Ideal fun sk message => (sk, message) ∈ signedTwice :=
    Ed25519.ideal_ledger (by decide)
  have hwritten : WrittenByPallets genesisStore :=
    writtenByPallets_operations [.maybeApplyGenesis]
  have hcustody := custody_across_lives hideal withinBudget_signedTwice hwritten (by decide +kernel)
    [((⟨0, paymentMoves⟩ : NodeLife ℕ), 4), (⟨0, paymentMoves⟩, 100)]
  exact hcustody.of_eq genesisStore_alice.1 genesisStore_alice.2

end RustStateMachine
