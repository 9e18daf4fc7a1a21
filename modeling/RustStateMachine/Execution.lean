import RustStateMachine.Runtime

/-!
# What one call, one extrinsic and one block do

Every way a dispatch, an iteration of the second pass and a block execution can
end, with the guards that lead there. The properties of the runtime are derived
from these case lists and never unfold the functions again.
-/

namespace RustStateMachine

open Lib Lib.KeyValue Std Support

namespace Runtime

/-- The runtime with another nonce for one account. -/
def setNonce (self : Runtime) (who : Types.AccountId) (n : Types.Nonce) : Runtime :=
  { self with system := { self.system with nonceMap := self.system.nonceMap.insert who n } }

/-- The runtime at another height. -/
def setBlockNumber (self : Runtime) (n : Types.BlockNumber) : Runtime :=
  { self with system := { self.system with blockNumber := n } }

/-- The block number, as a number. -/
def height (self : Runtime) : ℕ := self.system.blockNumber.toNat

/-- Below the greatest height there is a next one. -/
theorem height_lt_of_ne {self : Runtime} (h : self.system.blockNumber ≠ BitVec.allOnes 32) :
    self.height + 1 < 2 ^ 32 := by
  obtain ⟨n, hadd⟩ := Option.ne_none_iff_exists'.mp (mt Machine.checkedAdd_one_eq_none.mp h)
  rw [height, ← Machine.checkedAdd_one_eq_some.mp hadd]
  exact n.isLt

@[simp] theorem setNonce_balances (self : Runtime) (who : Types.AccountId) (n : Types.Nonce) :
    (self.setNonce who n).balances = self.balances := rfl

@[simp] theorem setNonce_proofOfExistence (self : Runtime) (who : Types.AccountId)
    (n : Types.Nonce) : (self.setNonce who n).proofOfExistence = self.proofOfExistence := rfl

@[simp] theorem setNonce_blockNumber (self : Runtime) (who : Types.AccountId) (n : Types.Nonce) :
    (self.setNonce who n).system.blockNumber = self.system.blockNumber := rfl

theorem setNonce_nonce (self : Runtime) (who a : Types.AccountId) (n : Types.Nonce) :
    (self.setNonce who n).system.nonce a = if who = a then n else self.system.nonce a :=
  OrderedMap.getD_insert self.system.nonceMap who a n 0

@[simp] theorem setBlockNumber_balances (self : Runtime) (n : Types.BlockNumber) :
    (self.setBlockNumber n).balances = self.balances := rfl

@[simp] theorem setBlockNumber_proofOfExistence (self : Runtime) (n : Types.BlockNumber) :
    (self.setBlockNumber n).proofOfExistence = self.proofOfExistence := rfl

@[simp] theorem setBlockNumber_blockNumber (self : Runtime) (n : Types.BlockNumber) :
    (self.setBlockNumber n).system.blockNumber = n := rfl

@[simp] theorem setBlockNumber_nonceMap (self : Runtime) (n : Types.BlockNumber) :
    (self.setBlockNumber n).system.nonceMap = self.system.nonceMap := rfl

@[simp] theorem setBlockNumber_nonce (self : Runtime) (n : Types.BlockNumber)
    (a : Types.AccountId) : (self.setBlockNumber n).system.nonce a = self.system.nonce a := rfl

/-! ## Dispatch -/

/-- Why a call fails. -/
inductive Fails (caller : Types.AccountId) (self : Runtime) : RuntimeCall → String → Prop
  | noFunds {recipient : Types.AccountId} {amount : Types.Balance}
      (h : (self.balances.balance caller).toNat < amount.toNat) :
      Fails caller self (.balances (.transfer recipient amount)) "Not enough funds."
  | overflow {recipient : Types.AccountId} {amount : Types.Balance}
      (hfunds : amount.toNat ≤ (self.balances.balance caller).toNat)
      (h : 2 ^ 128 ≤ (self.balances.balance recipient).toNat + amount.toNat) :
      Fails caller self (.balances (.transfer recipient amount)) "Overflow"
  | claimed {claim : Types.Content} {owner : Types.AccountId}
      (h : self.proofOfExistence.claims[claim]? = some owner) :
      Fails caller self (.proofOfExistence (.createClaim claim)) "this content is already claimed"
  | unclaimed {claim : Types.Content} (h : self.proofOfExistence.claims[claim]? = none) :
      Fails caller self (.proofOfExistence (.revokeClaim claim)) "claim does not exist"
  | notOwner {claim : Types.Content} {owner : Types.AccountId}
      (h : self.proofOfExistence.claims[claim]? = some owner) (hne : owner ≠ caller) :
      Fails caller self (.proofOfExistence (.revokeClaim claim)) "caller is not owner"

/-- Everything a dispatch can do. It never panics. -/
inductive DispatchEffect (caller : Types.AccountId) (self : Runtime) :
    RuntimeCall → Run Event Runtime DispatchResult → Prop
  | failed {call : RuntimeCall} {e : String} (h : Fails caller self call e) :
      DispatchEffect caller self call ⟨.ret (.error e), self, []⟩
  | transferred {recipient : Types.AccountId} {amount x y : Types.Balance}
      (hx : x.toNat + amount.toNat = (self.balances.balance caller).toNat)
      (hy : y.toNat = (self.balances.balance recipient).toNat + amount.toNat) :
      DispatchEffect caller self (.balances (.transfer recipient amount))
        ⟨.ret (.ok ()),
          { self with balances := ⟨(self.balances.balances.insert caller x).insert recipient y⟩ },
          [.write (.put (Balances.Pallet.balanceKey caller) (encode x)),
            .write (.put (Balances.Pallet.balanceKey recipient) (encode y))]⟩
  | created {claim last : Types.Content} {owner : Types.AccountId}
      (h : self.proofOfExistence.claims[claim]? = none)
      (hlast : (self.proofOfExistence.claims.insert claim caller).keys.getLast? = some last)
      (howner : (self.proofOfExistence.claims.insert claim caller)[last]? = some owner) :
      DispatchEffect caller self (.proofOfExistence (.createClaim claim))
        ⟨.ret (.ok ()),
          { self with proofOfExistence := ⟨self.proofOfExistence.claims.insert claim caller⟩ },
          [.write (.put (ProofOfExistence.Pallet.claimKey last) (encode owner))]⟩
  | revoked {claim : Types.Content} (h : self.proofOfExistence.claims[claim]? = some caller) :
      DispatchEffect caller self (.proofOfExistence (.revokeClaim claim))
        ⟨.ret (.ok ()),
          { self with proofOfExistence := ⟨self.proofOfExistence.claims.erase claim⟩ },
          [.write (.delete (ProofOfExistence.Pallet.claimKey claim))]⟩

theorem dispatch_effect (caller : Types.AccountId) (call : RuntimeCall) (self : Runtime) :
    DispatchEffect caller self call (dispatch caller call self) := by
  cases call with
  | balances call =>
      obtain ⟨recipient, amount⟩ := call
      rw [dispatch, onBalances, Exec.zoom_apply, Balances.Pallet.dispatch]
      cases hsub : checkedSub (self.balances.balance caller) amount with
      | none =>
          rw [Balances.Pallet.transfer_of_sub_none hsub]
          exact .failed (.noFunds (Machine.checkedSub_eq_none.mp hsub))
      | some x =>
          have hx := Machine.checkedSub_eq_some.mp hsub
          cases hadd : checkedAdd (self.balances.balance recipient) amount with
          | none =>
              rw [Balances.Pallet.transfer_of_add_none hsub hadd]
              exact .failed (.overflow (by omega) (Machine.checkedAdd_eq_none.mp hadd))
          | some y =>
              rw [Balances.Pallet.transfer_of_some hsub hadd]
              exact .transferred hx (Machine.checkedAdd_eq_some.mp hadd)
  | proofOfExistence call =>
      rw [dispatch, onProofOfExistence, Exec.zoom_apply]
      cases call with
      | createClaim claim =>
          rw [ProofOfExistence.Pallet.dispatch]
          cases h : self.proofOfExistence.claims[claim]? with
          | some owner =>
              rw [ProofOfExistence.Pallet.createClaim_of_some h]
              exact .failed (.claimed h)
          | none =>
              obtain ⟨last, owner, hlast, howner, heq⟩ :=
                ProofOfExistence.Pallet.createClaim_of_none h caller
              rw [heq]
              exact .created h hlast howner
      | revokeClaim claim =>
          rw [ProofOfExistence.Pallet.dispatch]
          cases h : self.proofOfExistence.claims[claim]? with
          | none =>
              rw [ProofOfExistence.Pallet.revokeClaim_of_none h]
              exact .failed (.unclaimed h)
          | some owner =>
              by_cases hne : owner = caller
              · subst hne
                rw [ProofOfExistence.Pallet.revokeClaim_of_owner h]
                exact .revoked h
              · rw [ProofOfExistence.Pallet.revokeClaim_of_ne h hne]
                exact .failed (.notOwner h hne)

theorem DispatchEffect.outcome_eq {caller : Types.AccountId} {self : Runtime} {call : RuntimeCall}
    {r : Run Event Runtime DispatchResult} (h : DispatchEffect caller self call r) :
    ∃ res, r.outcome = .ret res := by
  cases h with
  | failed => exact ⟨_, rfl⟩
  | transferred => exact ⟨_, rfl⟩
  | created => exact ⟨_, rfl⟩
  | revoked => exact ⟨_, rfl⟩

theorem DispatchEffect.system_eq {caller : Types.AccountId} {self : Runtime} {call : RuntimeCall}
    {r : Run Event Runtime DispatchResult} (h : DispatchEffect caller self call r) :
    r.state.system = self.system := by
  cases h with
  | failed => rfl
  | transferred => rfl
  | created => rfl
  | revoked => rfl

theorem DispatchEffect.dispatches_eq {caller : Types.AccountId} {self : Runtime}
    {call : RuntimeCall} {r : Run Event Runtime DispatchResult}
    (h : DispatchEffect caller self call r) : dispatches r.log = [] := by
  cases h with
  | failed => rfl
  | transferred => rfl
  | created => rfl
  | revoked => rfl

/-! ## One extrinsic -/

variable [Ed25519]

/-- The extrinsic passes both checks of the second pass. -/
def Accepted (ext : Types.Extrinsic) (self : Runtime) : Prop :=
  ext.verify = .ok () ∧ self.system.nonce ext.signer = ext.nonce

instance (ext : Types.Extrinsic) (self : Runtime) : Decidable (Accepted ext self) :=
  inferInstanceAs (Decidable (_ ∧ _))

/-- Everything one iteration of the second pass can do. -/
inductive ExtrinsicEffect (ext : Types.Extrinsic) (self : Runtime) :
    Run Event Runtime Unit → Prop
  | skipped (text : String) (h : ¬ Accepted ext self) :
      ExtrinsicEffect ext self ⟨.ret (), self, [.eprintln text]⟩
  | overflowed (h : Accepted ext self) (hmax : ext.nonce = BitVec.allOnes 32) :
      ExtrinsicEffect ext self ⟨.panicked System.unwrapNone, self, []⟩
  | applied {m : Types.Nonce} {state : Runtime} {res : DispatchResult} {log tail : List Event}
      (h : Accepted ext self) (hm : m.toNat = ext.nonce.toNat + 1)
      (hd : DispatchEffect ext.signer (self.setNonce ext.signer m) ext.call
        ⟨.ret res, state, log⟩)
      (htail : writes tail = [] ∧ dispatches tail = []) :
      ExtrinsicEffect ext self ⟨.ret (), state,
        .write (.put (System.Pallet.nonceKey ext.signer) (encode m)) :: .dispatching ext ::
          (log ++ .dispatched res :: tail)⟩

omit [Ed25519] in
/-- The writes of an accepted extrinsic: its signer's nonce, then those of its call. -/
theorem writes_applied {ext : Types.Extrinsic} {m : Types.Nonce} {res : DispatchResult}
    {log tail : List Event} (htail : writes tail = []) :
    writes (.write (.put (System.Pallet.nonceKey ext.signer) (encode m)) :: .dispatching ext ::
      (log ++ .dispatched res :: tail)) =
        .put (System.Pallet.nonceKey ext.signer) (encode m) :: writes log := by
  simp [Event.write?, htail]

/-- The line printed for a dispatch that fails; none for one that succeeds. -/
def failureLine (n : Types.BlockNumber) (i : ℕ) : DispatchResult → List Event
  | .ok () => []
  | .error e => [extrinsicError n i e]

theorem applyExtrinsic_of_accepted (n : Types.BlockNumber) (i : ℕ) {ext : Types.Extrinsic}
    {self : Runtime} (h : Accepted ext self) {m : Types.Nonce}
    (hm : m.toNat = ext.nonce.toNat + 1) {res : DispatchResult} {state : Runtime}
    {log : List Event}
    (hd : dispatch ext.signer ext.call (self.setNonce ext.signer m) = ⟨.ret res, state, log⟩) :
    applyExtrinsic n i ext ext.verify self = ⟨.ret (), state,
      .write (.put (System.Pallet.nonceKey ext.signer) (encode m)) :: .dispatching ext ::
        (log ++ .dispatched res :: failureLine n i res)⟩ := by
  obtain ⟨hv, hn⟩ := h
  have hadd : checkedAdd (self.system.nonce ext.signer) 1 = some m := by
    rw [hn]
    exact Machine.checkedAdd_one_eq_some.mpr hm
  rw [setNonce] at hd
  cases res with
  | ok u =>
      simp [applyExtrinsic, hv, hn, onSystem, System.Pallet.incNonce_of_some hadd, hd, failureLine]
  | error e =>
      simp [applyExtrinsic, hv, hn, onSystem, System.Pallet.incNonce_of_some hadd, hd, failureLine]

theorem applyExtrinsic_of_overflow (n : Types.BlockNumber) (i : ℕ) {ext : Types.Extrinsic}
    {self : Runtime} (h : Accepted ext self) (hmax : ext.nonce = BitVec.allOnes 32) :
    applyExtrinsic n i ext ext.verify self = ⟨.panicked System.unwrapNone, self, []⟩ := by
  obtain ⟨hv, hn⟩ := h
  have hadd : checkedAdd (self.system.nonce ext.signer) 1 = none := by
    rw [hn]
    exact Machine.checkedAdd_one_eq_none.mpr hmax
  simp [applyExtrinsic, hv, hn, onSystem, System.Pallet.incNonce_of_none hadd]

theorem applyExtrinsic_of_not_accepted (n : Types.BlockNumber) (i : ℕ) {ext : Types.Extrinsic}
    {self : Runtime} (h : ¬ Accepted ext self) :
    ∃ text, applyExtrinsic n i ext ext.verify self = ⟨.ret (), self, [.eprintln text]⟩ := by
  cases hv : ext.verify with
  | error e => exact ⟨_, rfl⟩
  | ok u =>
      have hn : self.system.nonce ext.signer ≠ ext.nonce := fun hn => h ⟨hv, hn⟩
      simp [applyExtrinsic, hn, extrinsicError]

omit [Ed25519] in
/-- The next nonce exists unless the nonce is the greatest. -/
theorem exists_next_nonce {nonce : Types.Nonce} (h : nonce ≠ BitVec.allOnes 32) :
    ∃ m : Types.Nonce, m.toNat = nonce.toNat + 1 := by
  cases hadd : checkedAdd nonce 1 with
  | none => exact absurd (Machine.checkedAdd_one_eq_none.mp hadd) h
  | some m => exact ⟨m, Machine.checkedAdd_one_eq_some.mp hadd⟩

theorem applyExtrinsic_effect (n : Types.BlockNumber) (i : ℕ) (ext : Types.Extrinsic)
    (self : Runtime) : ExtrinsicEffect ext self (applyExtrinsic n i ext ext.verify self) := by
  by_cases hacc : Accepted ext self
  · by_cases hmax : ext.nonce = BitVec.allOnes 32
    · rw [applyExtrinsic_of_overflow n i hacc hmax]
      exact .overflowed hacc hmax
    · obtain ⟨m, hm⟩ := exists_next_nonce hmax
      have heff := dispatch_effect ext.signer ext.call (self.setNonce ext.signer m)
      generalize hd : dispatch ext.signer ext.call (self.setNonce ext.signer m) = r at heff
      obtain ⟨res, hres⟩ := heff.outcome_eq
      obtain ⟨o, state, log⟩ := r
      subst hres
      rw [applyExtrinsic_of_accepted n i hacc hm hd]
      refine .applied hacc hm heff ?_
      cases res with
      | ok u => exact ⟨rfl, rfl⟩
      | error e => exact ⟨rfl, rfl⟩
  · obtain ⟨text, hrun⟩ := applyExtrinsic_of_not_accepted n i hacc
    rw [hrun]
    exact .skipped text hacc

theorem ExtrinsicEffect.blockNumber_eq {ext : Types.Extrinsic} {self : Runtime}
    {r : Run Event Runtime Unit} (h : ExtrinsicEffect ext self r) :
    r.state.system.blockNumber = self.system.blockNumber := by
  cases h with
  | skipped => rfl
  | overflowed => rfl
  | applied _ _ hd _ =>
      have hsystem := hd.system_eq
      dsimp only at hsystem ⊢
      rw [hsystem, setNonce_blockNumber]

/-- An extrinsic either leaves all nonces alone and is not dispatched, or it is accepted,
dispatched, and raises its signer's nonce by one. -/
theorem ExtrinsicEffect.nonce_cases {ext : Types.Extrinsic} {self : Runtime}
    {r : Run Event Runtime Unit} (h : ExtrinsicEffect ext self r) :
    (dispatches r.log = [] ∧ r.state.system = self.system) ∨
      (dispatches r.log = [ext] ∧ Accepted ext self ∧ ∀ a, (r.state.system.nonce a).toNat =
        (self.system.nonce a).toNat + if ext.signer = a then 1 else 0) := by
  cases h with
  | skipped => exact .inl ⟨rfl, rfl⟩
  | overflowed => exact .inl ⟨rfl, rfl⟩
  | applied hacc hm hd htail =>
      refine .inr ⟨?_, hacc, ?_⟩
      · have hlog := hd.dispatches_eq
        dsimp only at hlog ⊢
        simp [hlog, htail.2, Event.dispatching?]
      · intro a
        have hsystem := hd.system_eq
        dsimp only at hsystem ⊢
        rw [hsystem, setNonce_nonce]
        split_ifs with ha
        · rw [hm, ← hacc.2, ha]
        · rfl

/-- Only an extrinsic that carries the greatest nonce can panic. -/
theorem ExtrinsicEffect.returns {ext : Types.Extrinsic} {self : Runtime}
    {r : Run Event Runtime Unit} (h : ExtrinsicEffect ext self r)
    (hmax : ext.nonce ≠ BitVec.allOnes 32) : r.outcome = .ret () := by
  cases h with
  | skipped => rfl
  | overflowed _ htop => exact absurd htop hmax
  | applied => rfl

/-! ## One block -/

/-- The body of the second pass on an extrinsic with its position. -/
def applyIndexed (n : Types.BlockNumber) (p : Types.Extrinsic × ℕ) : Exec Event Runtime Unit :=
  applyExtrinsic n p.2 p.1 p.1.verify

theorem applyIndexed_effect (n : Types.BlockNumber) (p : Types.Extrinsic × ℕ) (self : Runtime) :
    ExtrinsicEffect p.1 self (applyIndexed n p self) :=
  applyExtrinsic_effect n p.2 p.1 self

/-- The second pass over extrinsics with their positions. -/
def applyAll (n : Types.BlockNumber) : List (Types.Extrinsic × ℕ) → Exec Event Runtime Unit :=
  Exec.each (applyIndexed n)

/-- What the second pass dispatches when the first extrinsic does not panic. -/
theorem dispatches_applyAll_cons {n : Types.BlockNumber} {p : Types.Extrinsic × ℕ} {self : Runtime}
    (h : (applyIndexed n p self).outcome = .ret ()) (exts : List (Types.Extrinsic × ℕ)) :
    dispatches (applyAll n (p :: exts) self).log = dispatches (applyIndexed n p self).log ++
      dispatches (applyAll n exts (applyIndexed n p self).state).log := by
  rw [applyAll, Exec.each_cons_ret (applyIndexed n) h, Run.prepend_log, dispatches_append]

/-- Everything a block execution can do. -/
inductive BlockEffect (block : Types.Block) (self : Runtime) :
    Run Event Runtime DispatchResult → Prop
  | overflowed (h : self.system.blockNumber = BitVec.allOnes 32) :
      BlockEffect block self ⟨.panicked System.unwrapNone, self, []⟩
  | rejected {n : Types.BlockNumber} (hn : n.toNat = self.system.blockNumber.toNat + 1)
      (h : block.header.blockNumber ≠ n) :
      BlockEffect block self
        ⟨.ret (.error "block number does not match what is expected"), self.setBlockNumber n,
          [.write (.put System.prefixBlockNumber (encode n))]⟩
  | executed {r : Run Event Runtime Unit}
      (hn : block.header.blockNumber.toNat = self.system.blockNumber.toNat + 1)
      (hr : applyAll block.header.blockNumber block.extrinsics.zipIdx
        (self.setBlockNumber block.header.blockNumber) = r) :
      BlockEffect block self ⟨r.outcome.map fun _ => .ok (), r.state,
        .write (.put System.prefixBlockNumber (encode block.header.blockNumber)) :: r.log⟩

/-- The iterations the second pass of a block goes through; none for a rejected block. -/
def extrinsicSteps (block : Types.Block) (self : Runtime) :
    List (Exec.Step Event Runtime (Types.Extrinsic × ℕ) Unit) :=
  if block.header.blockNumber.toNat = self.system.blockNumber.toNat + 1 then
    Exec.steps (applyIndexed block.header.blockNumber) block.extrinsics.zipIdx
      (self.setBlockNumber block.header.blockNumber)
  else []

omit [Ed25519] in
theorem zip_zipIdx {α β : Type} (f : α → β) (xs : List α) (k : ℕ) :
    (xs.zip (xs.map f)).zipIdx k = (xs.zipIdx k).map fun p => ((p.1, f p.1), p.2) := by
  induction xs generalizing k with
  | nil => rfl
  | cons x xs ih => simp [ih]

theorem executeBlock_effect (block : Types.Block) (self : Runtime) :
    BlockEffect block self (executeBlock block self) := by
  cases hadd : checkedAdd self.system.blockNumber 1 with
  | none =>
      have hrun : executeBlock block self = ⟨.panicked System.unwrapNone, self, []⟩ := by
        simp [executeBlock, onSystem, System.Pallet.incBlockNumber_of_none hadd]
      rw [hrun]
      exact .overflowed (Machine.checkedAdd_one_eq_none.mp hadd)
  | some n =>
      have hn := Machine.checkedAdd_one_eq_some.mp hadd
      by_cases heq : block.header.blockNumber = n
      · have hloop : Exec.each
            (fun p : (Types.Extrinsic × DispatchResult) × ℕ => applyExtrinsic n p.2 p.1.1 p.1.2)
            (block.extrinsics.zip (verifyBatch block.extrinsics)).zipIdx =
              applyAll n block.extrinsics.zipIdx := by
          funext s
          rw [verifyBatch, zip_zipIdx, Exec.each_map]
          rfl
        have hrun : executeBlock block self = ⟨(applyAll n block.extrinsics.zipIdx
            (self.setBlockNumber n)).outcome.map fun _ => .ok (),
            (applyAll n block.extrinsics.zipIdx (self.setBlockNumber n)).state,
            .write (.put System.prefixBlockNumber (encode n)) ::
              (applyAll n block.extrinsics.zipIdx (self.setBlockNumber n)).log⟩ := by
          simp [executeBlock, onSystem, System.Pallet.incBlockNumber_of_some hadd, heq, hloop,
            Exec.andThen_pure, setBlockNumber]
        rw [hrun]
        subst heq
        exact .executed hn rfl
      · have hrun : executeBlock block self =
            ⟨.ret (.error "block number does not match what is expected"),
              self.setBlockNumber n, [.write (.put System.prefixBlockNumber (encode n))]⟩ := by
          simp [executeBlock, onSystem, System.Pallet.incBlockNumber_of_some hadd, heq,
            setBlockNumber]
        rw [hrun]
        exact .rejected hn heq

theorem extrinsicSteps_of_ne {block : Types.Block} {self : Runtime}
    (h : block.header.blockNumber.toNat ≠ self.system.blockNumber.toNat + 1) :
    extrinsicSteps block self = [] := if_neg h

theorem extrinsicSteps_of_next {block : Types.Block} {self : Runtime}
    (h : block.header.blockNumber.toNat = self.height + 1) :
    extrinsicSteps block self = Exec.steps (applyIndexed block.header.blockNumber)
      block.extrinsics.zipIdx (self.setBlockNumber block.header.blockNumber) := if_pos h

/-- Only an extrinsic with the greatest nonce can make the second pass panic. -/
theorem applyAll_returns (n : Types.BlockNumber) {exts : List (Types.Extrinsic × ℕ)}
    (h : ∀ p ∈ exts, p.1.nonce ≠ BitVec.allOnes 32) (self : Runtime) :
    (applyAll n exts self).outcome = .ret () := by
  apply Exec.each_returns
  intro p hp s
  have heff := applyIndexed_effect n p s
  generalize applyIndexed n p s = r at heff ⊢
  cases heff with
  | skipped => trivial
  | overflowed hacc hmax => exact absurd hmax (h p hp)
  | applied => trivial

theorem applyAll_blockNumber (n : Types.BlockNumber) (exts : List (Types.Extrinsic × ℕ))
    (self : Runtime) :
    (applyAll n exts self).state.system.blockNumber = self.system.blockNumber := by
  refine Exec.each_invariant (applyIndexed n)
    (fun s => s.system.blockNumber = self.system.blockNumber) ?_ exts rfl
  intro p s hs
  rw [(applyIndexed_effect n p s).blockNumber_eq, hs]

theorem applyAll_nonce_le (n : Types.BlockNumber) (exts : List (Types.Extrinsic × ℕ))
    (self : Runtime) (a : Types.AccountId) :
    (self.system.nonce a).toNat ≤ ((applyAll n exts self).state.system.nonce a).toNat := by
  refine Exec.each_invariant (applyIndexed n)
    (fun s => (self.system.nonce a).toNat ≤ (s.system.nonce a).toNat) ?_ exts le_rfl
  intro p s hs
  rcases (applyIndexed_effect n p s).nonce_cases with ⟨-, hsystem⟩ | ⟨-, -, hnonce⟩
  · rw [hsystem]
    exact hs
  · rw [hnonce a]
    exact Nat.le_add_right_of_le hs

/-- A block with the next number executes its extrinsics. -/
theorem executeBlock_of_next {block : Types.Block} {self : Runtime}
    (h : block.header.blockNumber.toNat = self.height + 1) :
    executeBlock block self =
      let r := applyAll block.header.blockNumber block.extrinsics.zipIdx
        (self.setBlockNumber block.header.blockNumber)
      ⟨r.outcome.map fun _ => .ok (), r.state,
        .write (.put System.prefixBlockNumber (encode block.header.blockNumber)) :: r.log⟩ := by
  have heff := executeBlock_effect block self
  have hlt := block.header.blockNumber.isLt
  generalize executeBlock block self = r at heff ⊢
  cases heff with
  | overflowed hmax =>
      rw [height, hmax, BitVec.toNat_allOnes] at h
      omega
  | rejected hn hne => exact absurd (BitVec.eq_of_toNat_eq (h.trans hn.symm)) hne
  | executed hn hr =>
      subst hr
      rfl

/-- A block with the next number is accepted if none of its nonces is the greatest. -/
theorem executeBlock_ok (block : Types.Block) (self : Runtime)
    (hnum : block.header.blockNumber.toNat = self.height + 1)
    (hmax : ∀ e ∈ block.extrinsics, e.nonce ≠ BitVec.allOnes 32) :
    ∃ rt log, executeBlock block self = ⟨.ret (.ok ()), rt, log⟩ := by
  have hret : (applyAll block.header.blockNumber block.extrinsics.zipIdx
      (self.setBlockNumber block.header.blockNumber)).outcome = .ret () := by
    apply applyAll_returns
    intro p hp
    exact hmax p.1 (List.fst_mem_of_mem_zipIdx hp)
  have hrun := executeBlock_of_next hnum
  dsimp only at hrun
  rw [hret, Outcome.map_ret] at hrun
  exact ⟨_, _, hrun⟩

/-- A block with another number only raises the height, if a next height exists. -/
theorem executeBlock_of_other {block : Types.Block} {self : Runtime} {n : Types.BlockNumber}
    (hn : n.toNat = self.height + 1) (h : block.header.blockNumber ≠ n) :
    (executeBlock block self).outcome.Returns ∧
      (executeBlock block self).state = self.setBlockNumber n := by
  have heff := executeBlock_effect block self
  have hlt := n.isLt
  generalize executeBlock block self = r at heff ⊢
  cases heff with
  | overflowed hmax =>
      rw [height, hmax, BitVec.toNat_allOnes] at hn
      omega
  | @rejected n' hn' hne =>
      have heq : n' = n := BitVec.eq_of_toNat_eq (hn'.trans hn.symm)
      rw [heq]
      exact ⟨trivial, rfl⟩
  | executed hn' hr => exact absurd (BitVec.eq_of_toNat_eq (hn'.trans hn.symm)) h

/-- A block that is not the next one is not applied and leaves the nonces alone. -/
theorem executeBlock_of_not_next {block : Types.Block} {self : Runtime}
    (h : block.header.blockNumber.toNat ≠ self.height + 1) :
    (executeBlock block self).outcome ≠ .ret (.ok ()) ∧
      (executeBlock block self).state.system.nonceMap = self.system.nonceMap := by
  have heff := executeBlock_effect block self
  generalize executeBlock block self = r at heff ⊢
  cases heff with
  | overflowed =>
      refine ⟨fun hout => ?_, rfl⟩
      cases hout
  | rejected =>
      refine ⟨fun hout => ?_, rfl⟩
      cases hout
  | executed hn => exact absurd hn h

/-- A block that returns raises the height by one, accepted or not. -/
theorem height_executeBlock {block : Types.Block} {self : Runtime}
    (h : (executeBlock block self).outcome.Returns) :
    (executeBlock block self).state.height = self.height + 1 := by
  have heff := executeBlock_effect block self
  generalize executeBlock block self = r at heff h ⊢
  cases heff with
  | overflowed => exact absurd h (Outcome.not_returns_panicked _)
  | rejected hn hne => exact hn
  | executed hn hr =>
      subst hr
      rw [height, applyAll_blockNumber]
      exact hn

theorem height_of_executeBlock {block : Types.Block} {self rt : Runtime} {res : DispatchResult}
    {log : List Event} (h : executeBlock block self = ⟨.ret res, rt, log⟩) :
    rt.height = self.height + 1 := by
  have hret : (executeBlock block self).outcome.Returns := by
    rw [h]
    trivial
  have hheight := height_executeBlock hret
  rwa [h] at hheight

/-- A block keeps what its count and each extrinsic keep, rejected blocks and panics included. -/
theorem keeps_executeBlock {I : Runtime → List Event → Prop}
    (hnum : ∀ s n l, I s l →
      I (s.setBlockNumber n) (l ++ [.write (.put System.prefixBlockNumber (encode n))]))
    (hext : ∀ ext s r l, ExtrinsicEffect ext s r → I s l → I r.state (l ++ r.log))
    (block : Types.Block) : Exec.Keeps I (executeBlock block) := by
  intro self l h
  have heff := executeBlock_effect block self
  generalize executeBlock block self = r at heff ⊢
  cases heff with
  | overflowed => simpa using h
  | rejected => exact hnum self _ l h
  | executed hn hr =>
      subst hr
      have hbody : ∀ p, Exec.Keeps I (applyIndexed block.header.blockNumber p) := by
        intro p s l hs
        exact hext p.1 s _ l (applyIndexed_effect _ p s) hs
      have hloop := Exec.keeps_each _ hbody block.extrinsics.zipIdx _ _
        (hnum self block.header.blockNumber l h)
      rw [List.append_assoc] at hloop
      exact hloop

/-- A block keeps what counting one height up and each extrinsic keep. -/
theorem keeps_executeBlock_of_succ {I : Runtime → List Event → Prop}
    (hnum : ∀ s n l, n.toNat = s.height + 1 → I s l →
      I (s.setBlockNumber n) (l ++ [.write (.put System.prefixBlockNumber (encode n))]))
    (hext : ∀ ext s r l, ExtrinsicEffect ext s r → I s l → I r.state (l ++ r.log))
    (block : Types.Block) : Exec.Keeps I (executeBlock block) := by
  intro self l h
  have heff := executeBlock_effect block self
  generalize executeBlock block self = r at heff ⊢
  cases heff with
  | overflowed => simpa using h
  | rejected hn => exact hnum self _ l hn h
  | executed hn hr =>
      subst hr
      have hbody : ∀ p, Exec.Keeps I (applyIndexed block.header.blockNumber p) := by
        intro p s l hs
        exact hext p.1 s _ l (applyIndexed_effect _ p s) hs
      have hloop := Exec.keeps_each _ hbody block.extrinsics.zipIdx _ _
        (hnum self block.header.blockNumber l hn h)
      rw [List.append_assoc] at hloop
      exact hloop

theorem maybeApplyGenesis_of_zero {self : Runtime} (h : self.system.blockNumber = 0) :
    ∃ text, maybeApplyGenesis self =
      ⟨.ret (), { self with
          system := { self.system with blockNumber := 1 }
          balances := ⟨((self.balances.balances.insert
            AccountKeyring.alice.publicKey 1000000).insert
            AccountKeyring.bob.publicKey 1000000).insert
            AccountKeyring.charlie.publicKey 1000000⟩ },
        [.write (.put (Balances.Pallet.balanceKey AccountKeyring.alice.publicKey)
            (encode (1000000 : Types.Balance))),
          .write (.put (Balances.Pallet.balanceKey AccountKeyring.bob.publicKey)
            (encode (1000000 : Types.Balance))),
          .write (.put (Balances.Pallet.balanceKey AccountKeyring.charlie.publicKey)
            (encode (1000000 : Types.Balance))),
          .write (.put System.prefixBlockNumber (encode (1 : Types.BlockNumber))),
          .println text]⟩ := by
  obtain ⟨⟨blockNumber, nonceMap⟩, balances, poe⟩ := self
  subst h
  exact ⟨_, rfl⟩

theorem maybeApplyGenesis_of_ne {self : Runtime} (h : self.height ≠ 0) :
    maybeApplyGenesis self = ⟨.ret (), self, []⟩ := by
  have hne : self.system.blockNumber ≠ 0 := by
    intro hzero
    apply h
    rw [height, hzero]
    rfl
  rw [maybeApplyGenesis, Exec.bind_apply, Exec.read_apply, Run.andThen_ret, if_pos hne]
  rfl

/-- Genesis keeps what funding an account, executing a block and printing a line keep. -/
theorem keeps_maybeApplyGenesis {I : Runtime → List Event → Prop}
    (hfund : ∀ who amount, Exec.Keeps I (onBalances (Balances.Pallet.setBalance who amount)))
    (hblock : ∀ block, Exec.Keeps I (executeBlock block))
    (hprint : ∀ text, Exec.Keeps I (Exec.emit (.println text))) :
    Exec.Keeps I maybeApplyGenesis := by
  refine Exec.keeps_bind Exec.keeps_read ?_
  intro self
  split_ifs with hzero
  · exact Exec.keeps_pure ()
  · refine Exec.keeps_bind (hfund _ _) fun _ => ?_
    refine Exec.keeps_bind (hfund _ _) fun _ => ?_
    refine Exec.keeps_bind (hfund _ _) fun _ => ?_
    refine Exec.keeps_bind (hblock _) ?_
    intro res
    cases res with
    | ok u => exact hprint _
    | error e => exact Exec.keeps_panicWith _

/-- What the steps of a block add up to: a relation between the state before, the steps and the
state after that holds of no steps and is extended by one extrinsic in front. -/
theorem executeBlock_induction
    (P : Runtime → List (Exec.Step Event Runtime (Types.Extrinsic × ℕ) Unit) → Runtime → Prop)
    (hnil : ∀ s, P s [] s)
    (hnum : ∀ s n sts s', P (s.setBlockNumber n) sts s' → P s sts s')
    (hcons : ∀ p s r sts s', ExtrinsicEffect p.1 s r → P r.state sts s' →
      P s (⟨s, p, r⟩ :: sts) s')
    (block : Types.Block) (self : Runtime) :
    P self (extrinsicSteps block self) (executeBlock block self).state := by
  have heff := executeBlock_effect block self
  generalize executeBlock block self = r at heff ⊢
  cases heff with
  | overflowed h =>
      have hne : block.header.blockNumber.toNat ≠ self.system.blockNumber.toNat + 1 := by
        have hlt := block.header.blockNumber.isLt
        rw [h, BitVec.toNat_allOnes]
        omega
      rw [extrinsicSteps_of_ne hne]
      exact hnil self
  | @rejected n hn h =>
      have hne : block.header.blockNumber.toNat ≠ self.system.blockNumber.toNat + 1 := by
        intro heq
        exact h (BitVec.eq_of_toNat_eq (heq.trans hn.symm))
      rw [extrinsicSteps_of_ne hne]
      exact hnum self n [] _ (hnil _)
  | executed hn hr =>
      subst hr
      rw [extrinsicSteps_of_next hn]
      apply hnum self block.header.blockNumber
      apply Exec.steps_induction _ P hnil
      intro p s sts s' hP
      exact hcons p s _ sts s' (applyIndexed_effect _ p s) hP

/-- A quantity that each extrinsic raises by `gain` is raised by a block by the sum of the gains. -/
theorem executeBlock_telescope {M : Type} [AddCommMonoid M] (measure : Runtime → M)
    (gain : Types.Extrinsic → Runtime → M)
    (hnum : ∀ s n, measure (s.setBlockNumber n) = measure s)
    (hext : ∀ ext s r, ExtrinsicEffect ext s r → measure r.state = measure s + gain ext s)
    (block : Types.Block) (self : Runtime) :
    measure (executeBlock block self).state = measure self +
      ((extrinsicSteps block self).map fun st => gain st.input.1 st.before).sum := by
  apply executeBlock_induction fun s sts s' =>
    measure s' = measure s + (sts.map fun st => gain st.input.1 st.before).sum
  · intro s
    simp
  · intro s n sts s' h
    rw [h, hnum]
  · intro p s r sts s' heff h
    simp [h, hext p.1 s r heff, add_assoc]

end Runtime

end RustStateMachine
