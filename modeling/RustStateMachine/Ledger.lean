import RustStateMachine.Lib.Ledger
import RustStateMachine.Lib.Trace
import RustStateMachine.Process

/-!
# The ledger behind a node

The log of a node tells which extrinsics were dispatched and what came of each.
That alone explains its accounts, and it is what an ideal ledger makes of the
same orders unless an account has paid itself.
-/

namespace RustStateMachine

open Lib Lib.KeyValue Std Support

namespace Runtime

/-! ## What a log settles -/

/-- The dispatch begun last, unless it has returned, and those that have, with their results. -/
structure Journal where
  begun : Option Types.Extrinsic
  settled : List (Types.Extrinsic × DispatchResult)

/-- An entry of the log begins a dispatch or settles the one that was begun. -/
def Journal.enter (j : Journal) : Event → Journal
  | .dispatching ext => { j with begun := some ext }
  | .dispatched res =>
      match j.begun with
      | some ext => ⟨none, j.settled ++ [(ext, res)]⟩
      | none => j
  | _ => j

/-- The journal of a log. -/
def journal (log : List Event) : Journal := log.foldl Journal.enter ⟨none, []⟩

/-- The dispatched extrinsics of a log with what they returned. -/
def settled (log : List Event) : List (Types.Extrinsic × DispatchResult) := (journal log).settled

/-- Without a dispatch nothing is settled. -/
theorem enter_of_dispatches_nil {log : List Event} (h : dispatches log = [])
    (settled : List (Types.Extrinsic × DispatchResult)) :
    log.foldl Journal.enter ⟨none, settled⟩ = ⟨none, settled⟩ := by
  induction log with
  | nil => rfl
  | cons e log ih =>
      rw [dispatches_cons, List.append_eq_nil_iff] at h
      rw [List.foldl_cons]
      cases e with
      | dispatching ext => cases h.1
      | write w => exact ih h.2
      | dispatched res => exact ih h.2
      | println text => exact ih h.2
      | eprintln text => exact ih h.2

/-- A dispatch reports its writes only. -/
theorem DispatchEffect.enter_eq {caller : Types.AccountId} {self : Runtime} {call : RuntimeCall}
    {r : Run Event Runtime DispatchResult} (h : DispatchEffect caller self call r) (j : Journal) :
    r.log.foldl Journal.enter j = j := by
  cases h with
  | failed => rfl
  | transferred => rfl
  | created => rfl
  | revoked => rfl

variable [Ed25519]

/-- An extrinsic changes nothing and settles nothing, or it is dispatched and settles itself. -/
theorem ExtrinsicEffect.settles {ext : Types.Extrinsic} {self : Runtime}
    {r : Run Event Runtime Unit} (h : ExtrinsicEffect ext self r)
    (settled : List (Types.Extrinsic × DispatchResult)) :
    (r.state = self ∧ r.log.foldl Journal.enter ⟨none, settled⟩ = ⟨none, settled⟩) ∨
      ∃ (m : Types.Nonce) (res : DispatchResult) (log : List Event),
        Accepted ext self ∧ m.toNat = ext.nonce.toNat + 1 ∧
        DispatchEffect ext.signer (self.setNonce ext.signer m) ext.call ⟨.ret res, r.state, log⟩ ∧
        r.log.foldl Journal.enter ⟨none, settled⟩ = ⟨none, settled ++ [(ext, res)]⟩ := by
  cases h with
  | skipped => exact .inl ⟨rfl, rfl⟩
  | overflowed => exact .inl ⟨rfl, rfl⟩
  | @applied m state res log tail hacc hm hd htail =>
      refine .inr ⟨m, res, log, hacc, hm, hd, ?_⟩
      have hcall : log.foldl Journal.enter ⟨some ext, settled⟩ = ⟨some ext, settled⟩ :=
        hd.enter_eq _
      change (log ++ .dispatched res :: tail).foldl Journal.enter ⟨some ext, settled⟩ = _
      rw [List.foldl_append, hcall]
      exact enter_of_dispatches_nil htail.2 _

/-- Between two blocks nothing is half settled, and the runtime is explained by what is settled. -/
structure Explained (P : Runtime → List (Types.Extrinsic × DispatchResult) → Prop)
    (rt : Runtime) (log : List Event) : Prop where
  begun_eq : (journal log).begun = none
  explains : P rt (settled log)

/-- A block keeps what its count and each settled extrinsic keep. -/
theorem keeps_explained {P : Runtime → List (Types.Extrinsic × DispatchResult) → Prop}
    (hnum : ∀ s n settled, P s settled → P (s.setBlockNumber n) settled)
    (hsettle : ∀ ext s (m : Types.Nonce) res state log settled, Accepted ext s →
      m.toNat = ext.nonce.toNat + 1 →
      DispatchEffect ext.signer (s.setNonce ext.signer m) ext.call ⟨.ret res, state, log⟩ →
      P s settled → P state (settled ++ [(ext, res)]))
    (block : Types.Block) : Exec.Keeps (Explained P) (executeBlock block) := by
  have hjournal : ∀ s l, Explained P s l → journal l = ⟨none, settled l⟩ := by
    intro s l h
    rw [← h.begun_eq]
    rfl
  refine keeps_executeBlock ?_ ?_ block
  · intro s n l h
    have hsame : journal (l ++ [.write (.put System.prefixBlockNumber (encode n))]) =
        journal l := by
      rw [journal, List.foldl_append]
      rfl
    constructor
    · rw [hsame, h.begun_eq]
    · rw [settled, hsame]
      exact hnum s n _ h.explains
  · intro ext s r l heff h
    have hentered : journal (l ++ r.log) = r.log.foldl Journal.enter ⟨none, settled l⟩ := by
      rw [← hjournal s l h, journal, List.foldl_append]
      rfl
    rcases heff.settles (settled l) with ⟨hstate, hlog⟩ | ⟨m, res, log, hacc, hm, hd, hlog⟩
    · rw [hlog] at hentered
      constructor
      · rw [hentered]
      · rw [settled, hentered, hstate]
        exact h.explains
    · rw [hlog] at hentered
      constructor
      · rw [hentered]
      · rw [settled, hentered]
        exact hsettle ext s m res r.state log _ hacc hm hd h.explains

/-! ## Statements of account -/

/-- Who paid whom how much. -/
structure Payment where
  payer : Types.AccountId
  recipient : Types.AccountId
  amount : ℕ

/-- The payment an extrinsic has made: that of a transfer that returned `Ok`. -/
def payment? : Types.Extrinsic × DispatchResult → Option Payment
  | (ext, .ok ()) =>
      match ext.call with
      | .balances (.transfer recipient amount) => some ⟨ext.signer, recipient, amount.toNat⟩
      | .proofOfExistence _ => none
  | (_, .error _) => none

/-- What the payments with the property come to. -/
def totalOf (p : Payment → Bool) (settled : List (Types.Extrinsic × DispatchResult)) : ℕ :=
  (((settled.filterMap payment?).filter p).map Payment.amount).sum

/-- Who owns the claim after the extrinsic. -/
def ownerAfter (claim : Types.Content) (owner : Option Types.AccountId) :
    Types.Extrinsic × DispatchResult → Option Types.AccountId
  | (ext, .ok ()) =>
      match ext.call with
      | .proofOfExistence (.createClaim claim') => if claim' = claim then some ext.signer else owner
      | .proofOfExistence (.revokeClaim claim') => if claim' = claim then none else owner
      | .balances _ => owner
  | (_, .error _) => owner

/-- The accounts of a runtime follow from those at the start and what was settled since. A payment
to oneself counts as paid and as received, and its amount is added once more. -/
structure Statement (start rt : Runtime) (settled : List (Types.Extrinsic × DispatchResult)) :
    Prop where
  nonce : ∀ a, (rt.system.nonce a).toNat =
    (start.system.nonce a).toNat + settled.countP fun p => p.1.signer = a
  balance : ∀ a, (rt.balances.balance a).toNat + totalOf (fun p => p.payer = a) settled =
    (start.balances.balance a).toNat + totalOf (fun p => p.recipient = a) settled +
      totalOf (fun p => p.payer = a ∧ p.recipient = a) settled
  owner : ∀ claim, rt.proofOfExistence.claims[claim]? =
    settled.foldl (ownerAfter claim) start.proofOfExistence.claims[claim]?

omit [Ed25519] in
theorem totalOf_concat (p : Payment → Bool) (settled : List (Types.Extrinsic × DispatchResult))
    (last : Types.Extrinsic × DispatchResult) :
    totalOf p (settled ++ [last]) = totalOf p settled + totalOf p [last] := by
  rw [totalOf, List.filterMap_append, List.filter_append, List.map_append, List.sum_append]
  rfl

omit [Ed25519] in
/-- A payment of a dispatched extrinsic. -/
theorem totalOf_singleton (p : Payment → Bool) {ext : Types.Extrinsic}
    {recipient : Types.AccountId} {amount : Types.Balance}
    (hcall : ext.call = .balances (.transfer recipient amount)) :
    totalOf p [(ext, .ok ())] = if p ⟨ext.signer, recipient, amount.toNat⟩ then amount.toNat
      else 0 := by
  have hpayment : payment? (ext, .ok ()) = some ⟨ext.signer, recipient, amount.toNat⟩ := by
    rw [payment?, hcall]
  rw [totalOf, List.filterMap_cons_some hpayment, List.filterMap_nil, List.filter_singleton]
  cases p ⟨ext.signer, recipient, amount.toNat⟩ <;> rfl

omit [Ed25519] in
theorem totalOf_none (p : Payment → Bool) {last : Types.Extrinsic × DispatchResult}
    (hlast : payment? last = none) : totalOf p [last] = 0 := by
  rw [totalOf, List.filterMap_cons_none hlast]
  rfl

omit [Ed25519] in
/-- What a dispatch does to a balance. -/
theorem DispatchEffect.balance_eq {ext : Types.Extrinsic} {self : Runtime} {res : DispatchResult}
    {state : Runtime} {log : List Event}
    (h : DispatchEffect ext.signer self ext.call ⟨.ret res, state, log⟩) (a : Types.AccountId) :
    (state.balances.balance a).toNat + totalOf (fun p => p.payer = a) [(ext, res)] =
      (self.balances.balance a).toNat + totalOf (fun p => p.recipient = a) [(ext, res)] +
        totalOf (fun p => p.payer = a ∧ p.recipient = a) [(ext, res)] := by
  generalize hcall : ext.call = call at h
  cases h with
  | failed => rfl
  | @transferred recipient amount x y hx hy =>
      rw [totalOf_singleton _ hcall, totalOf_singleton _ hcall, totalOf_singleton _ hcall]
      have hread : (⟨(self.balances.balances.insert ext.signer x).insert recipient y⟩ :
          Balances.Pallet Types.AccountId Types.Balance).balance a =
            if recipient = a then y else if ext.signer = a then x
              else self.balances.balance a := by
        rw [Balances.Pallet.balance, OrderedMap.getD_insert, OrderedMap.getD_insert]
        rfl
      dsimp only
      rw [hread]
      simp only [decide_eq_true_eq]
      by_cases hrecipient : recipient = a
      · subst hrecipient
        -- the second write wins
        simp only [if_true, and_true, hy]
      · by_cases hsigner : ext.signer = a
        · subst hsigner
          simp only [if_true, true_and, if_neg hrecipient, hx]
          omega
        · simp only [if_neg hrecipient, hsigner, false_and, if_false]
  | created =>
      have hnone : payment? (ext, .ok ()) = none := by rw [payment?, hcall]
      rw [totalOf_none _ hnone, totalOf_none _ hnone, totalOf_none _ hnone]
  | revoked =>
      have hnone : payment? (ext, .ok ()) = none := by rw [payment?, hcall]
      rw [totalOf_none _ hnone, totalOf_none _ hnone, totalOf_none _ hnone]

omit [Ed25519] in
/-- What a dispatch does to the owner of a claim. -/
theorem DispatchEffect.owner_eq {ext : Types.Extrinsic} {self : Runtime} {res : DispatchResult}
    {state : Runtime} {log : List Event}
    (h : DispatchEffect ext.signer self ext.call ⟨.ret res, state, log⟩) (claim : Types.Content) :
    state.proofOfExistence.claims[claim]? =
      ownerAfter claim self.proofOfExistence.claims[claim]? (ext, res) := by
  generalize hcall : ext.call = call at h
  cases h with
  | failed => rfl
  | transferred => rw [ownerAfter, hcall]
  | created =>
      rw [ownerAfter, hcall]
      exact OrderedMap.getElem?_insert _ _ _ _
  | revoked =>
      rw [ownerAfter, hcall]
      exact OrderedMap.getElem?_erase _ _ _

theorem Statement.settle {start s state : Runtime} {ext : Types.Extrinsic} {m : Types.Nonce}
    {res : DispatchResult} {log : List Event} {settled : List (Types.Extrinsic × DispatchResult)}
    (h : Statement start s settled) (hacc : Accepted ext s) (hm : m.toNat = ext.nonce.toNat + 1)
    (hd : DispatchEffect ext.signer (s.setNonce ext.signer m) ext.call ⟨.ret res, state, log⟩) :
    Statement start state (settled ++ [(ext, res)]) := by
  constructor
  · intro a
    have hsystem : state.system = (s.setNonce ext.signer m).system := hd.system_eq
    rw [hsystem, setNonce_nonce, List.countP_append, List.countP_singleton, ← Nat.add_assoc,
      ← h.nonce a]
    by_cases ha : ext.signer = a
    · rw [if_pos ha, if_pos (by simpa using ha), hm, ← hacc.2, ha]
    · rw [if_neg ha, if_neg (by simpa using ha), Nat.add_zero]
  · intro a
    have hstep := hd.balance_eq a
    have hbefore := h.balance a
    rw [setNonce_balances] at hstep
    rw [totalOf_concat, totalOf_concat, totalOf_concat]
    omega
  · intro claim
    rw [hd.owner_eq claim, setNonce_proofOfExistence, List.foldl_append, h.owner claim]
    rfl

omit [Ed25519] in
theorem Statement.refl (start : Runtime) : Statement start start [] :=
  ⟨fun _ => rfl, fun _ => rfl, fun _ => rfl⟩

theorem keeps_statement (start : Runtime) (block : Types.Block) :
    Exec.Keeps (Explained (Statement start)) (executeBlock block) := by
  refine keeps_explained ?_ ?_ block
  · intro s n settled h
    exact ⟨h.nonce, h.balance, h.owner⟩
  · intro ext s m res state log settled hacc hm hd h
    exact h.settle hacc hm hd

/-! ## The ideal ledger -/

/-- What a call orders. -/
def command : RuntimeCall → Ledger.Command Types.AccountId Types.Content
  | .balances (.transfer recipient amount) => .pay recipient amount.toNat
  | .proofOfExistence (.createClaim claim) => .claim claim
  | .proofOfExistence (.revokeClaim claim) => .revoke claim

/-- What a dispatched extrinsic orders. -/
def order (ext : Types.Extrinsic) : Ledger.Order Types.AccountId Types.Content :=
  ⟨ext.signer, command ext.call⟩

/-- What a runtime says about its accounts. -/
def ledger (rt : Runtime) : Ledger Types.AccountId Types.Content where
  spent a := (rt.system.nonce a).toNat
  holds a := (rt.balances.balance a).toNat
  owner claim := rt.proofOfExistence.claims[claim]?

/-- Balances are `u128`. -/
abbrev cap : ℕ := 2 ^ 128

/-- An account has paid itself some amount. -/
def PaysItself (p : Types.Extrinsic × DispatchResult) : Prop :=
  ∃ payment, payment? p = some payment ∧ payment.payer = payment.recipient ∧ 0 < payment.amount

omit [Ed25519] in
theorem ledger_setNonce (rt : Runtime) (who : Types.AccountId) {m : Types.Nonce}
    (hm : m.toNat = (rt.system.nonce who).toNat + 1) :
    ledger (rt.setNonce who m) = (ledger rt).count who := by
  apply Ledger.ext
  · funext a
    change ((rt.setNonce who m).system.nonce a).toNat =
      Function.update (ledger rt).spent who ((ledger rt).spent who + 1) a
    rw [setNonce_nonce, Function.update_apply]
    by_cases ha : who = a
    · rw [if_pos ha, if_pos ha.symm, hm]
      rfl
    · rw [if_neg ha, if_neg fun h => ha h.symm]
      rfl
  · rfl
  · rfl

omit [Ed25519] in
/-- A dispatch returns `Ok` when the ledger permits its order. -/
theorem DispatchEffect.permits_iff {ext : Types.Extrinsic} {self : Runtime} {res : DispatchResult}
    {state : Runtime} {log : List Event}
    (h : DispatchEffect ext.signer self ext.call ⟨.ret res, state, log⟩) :
    (ledger self).Permits cap (order ext) ↔ res = .ok () := by
  rw [order]
  generalize hcall : ext.call = call at h
  cases h with
  | failed hwhy =>
      refine iff_of_false ?_ fun hok => by cases hok
      cases hwhy with
      | noFunds hlt =>
          rintro ⟨hle, -⟩
          exact absurd hlt hle.not_gt
      | overflow hfunds hbig =>
          rintro ⟨-, hlt⟩
          exact absurd hlt hbig.not_gt
      | claimed hclaim =>
          intro hfree
          cases hclaim.symm.trans hfree
      | unclaimed hclaim =>
          intro howner
          cases hclaim.symm.trans howner
      | notOwner hclaim hne =>
          intro howner
          exact hne (Option.some.inj (hclaim.symm.trans howner))
  | @transferred recipient amount x y hx hy =>
      have hafford : amount.toNat ≤ (self.balances.balance ext.signer).toNat :=
        hx ▸ Nat.le_add_left _ _
      have hfits : (self.balances.balance recipient).toNat + amount.toNat < cap := hy ▸ y.isLt
      exact iff_of_true ⟨hafford, hfits⟩ rfl
  | created hfree => exact iff_of_true hfree rfl
  | revoked howner => exact iff_of_true howner rfl

omit [Ed25519] in
/-- A dispatch that returns `Ok` carries its order out, unless its caller pays itself. -/
theorem DispatchEffect.ledger_eq {ext : Types.Extrinsic} {self state : Runtime} {log : List Event}
    (h : DispatchEffect ext.signer self ext.call ⟨.ret (.ok ()), state, log⟩)
    (hself : ¬ PaysItself (ext, .ok ())) :
    ledger state = (ledger self).carry (order ext) := by
  rw [order]
  generalize hcall : ext.call = call at h
  cases h with
  | @transferred recipient amount x y hx hy =>
      have hpayment : payment? (ext, .ok ()) = some ⟨ext.signer, recipient, amount.toNat⟩ := by
        rw [payment?, hcall]
      have hends : ext.signer = recipient → amount.toNat = 0 := by
        intro heq
        by_contra hpos
        exact hself ⟨_, hpayment, heq, Nat.pos_of_ne_zero hpos⟩
      apply Ledger.ext
      · rfl
      · funext a
        change ((⟨(self.balances.balances.insert ext.signer x).insert recipient y⟩ :
          Balances.Pallet Types.AccountId Types.Balance).balance a).toNat =
            (self.balances.balance a).toNat + (if recipient = a then amount.toNat else 0) -
              if ext.signer = a then amount.toNat else 0
        rw [Balances.Pallet.balance, OrderedMap.getD_insert, OrderedMap.getD_insert]
        by_cases hrecipient : recipient = a
        · subst hrecipient
          rw [if_pos rfl, if_pos rfl, hy]
          split_ifs with hsigner
          · rw [hends hsigner]
            rfl
          · rfl
        · rw [if_neg hrecipient, if_neg hrecipient]
          split_ifs with hsigner
          · subst hsigner
            omega
          · rfl
      · rfl
  | @created claim last owner hfree hlast howner =>
      apply Ledger.ext
      · rfl
      · rfl
      · funext claim'
        change (self.proofOfExistence.claims.insert claim ext.signer)[claim']? =
          Function.update (ledger self).owner claim (some ext.signer) claim'
        rw [OrderedMap.getElem?_insert, Function.update_apply]
        simp only [eq_comm]
        rfl
  | @revoked claim howner =>
      apply Ledger.ext
      · rfl
      · rfl
      · funext claim'
        change (self.proofOfExistence.claims.erase claim)[claim']? =
          Function.update (ledger self).owner claim none claim'
        rw [OrderedMap.getElem?_erase, Function.update_apply]
        simp only [eq_comm]
        rfl

omit [Ed25519] in
theorem DispatchEffect.state_of_error {caller : Types.AccountId} {self state : Runtime}
    {call : RuntimeCall} {e : String} {log : List Event}
    (h : DispatchEffect caller self call ⟨.ret (.error e), state, log⟩) : state = self := by
  cases h
  rfl

/-- What the settled extrinsics order, one after the other. -/
def orders (settled : List (Types.Extrinsic × DispatchResult)) :
    List (Ledger.Order Types.AccountId Types.Content) := settled.map fun p => order p.1

/-- The ledger makes the same of what was settled as the runtime: the same accounts, and the same
orders go through. -/
structure Refines (start rt : Runtime) (settled : List (Types.Extrinsic × DispatchResult)) :
    Prop where
  ledger_eq : ledger rt = Ledger.replay cap (orders settled) (ledger start)
  verdicts_eq : Ledger.verdicts cap (orders settled) (ledger start) =
    settled.map fun p => p.2.isOk

theorem Refines.settle {start s state : Runtime} {ext : Types.Extrinsic} {m : Types.Nonce}
    {res : DispatchResult} {log : List Event} {settled : List (Types.Extrinsic × DispatchResult)}
    (h : Refines start s settled) (hacc : Accepted ext s) (hm : m.toNat = ext.nonce.toNat + 1)
    (hd : DispatchEffect ext.signer (s.setNonce ext.signer m) ext.call ⟨.ret res, state, log⟩)
    (hself : ¬ PaysItself (ext, res)) : Refines start state (settled ++ [(ext, res)]) := by
  have hcount : ledger (s.setNonce ext.signer m) = (ledger s).count ext.signer :=
    ledger_setNonce s ext.signer (by rw [hm, hacc.2])
  have hpermits : (ledger s).Permits cap (order ext) ↔ res = .ok () := by
    rw [← hd.permits_iff, hcount, Ledger.permits_count]
  have horders : orders (settled ++ [(ext, res)]) = orders settled ++ [order ext] :=
    List.map_append
  constructor
  · rw [horders, Ledger.replay_concat, ← h.ledger_eq, Ledger.step]
    cases res with
    | ok u =>
        rw [if_pos (hpermits.mpr rfl), hd.ledger_eq hself, hcount]
        rfl
    | error e =>
        rw [if_neg fun hok => by cases hpermits.mp hok]
        rw [hd.state_of_error, hcount]
        rfl
  · rw [horders, Ledger.verdicts_concat, h.verdicts_eq, ← h.ledger_eq, List.map_append]
    congr 1
    cases res with
    | ok u => simp [hpermits, Except.isOk, Except.toBool]
    | error e => simp [hpermits, Except.isOk, Except.toBool]

theorem keeps_refines (start : Runtime) (block : Types.Block) :
    Exec.Keeps (Explained fun rt settled =>
      (∀ p ∈ settled, ¬ PaysItself p) → Refines start rt settled) (executeBlock block) := by
  refine keeps_explained ?_ ?_ block
  · intro s n settled h hself
    exact ⟨(h hself).ledger_eq, (h hself).verdicts_eq⟩
  · intro ext s m res state log settled hacc hm hd h hself
    refine (h fun p hp => hself p ?_).settle hacc hm hd (hself _ ?_)
    · exact List.mem_append_left _ hp
    · exact List.mem_append_right _ (List.mem_singleton_self _)

/-! ## What self-payments come to -/

omit [Ed25519] in
/-- Summed over whoever takes part, the payments by payer come to all payments. -/
theorem sum_totalOf (s : Finset Types.AccountId) (role : Payment → Types.AccountId)
    (also : Payment → Bool) {settled : List (Types.Extrinsic × DispatchResult)}
    (hs : ∀ p ∈ settled.filterMap payment?, role p ∈ s) :
    ∑ a ∈ s, totalOf (fun p => role p = a && also p) settled = totalOf also settled := by
  simp only [totalOf]
  generalize settled.filterMap payment? = payments at hs ⊢
  induction payments with
  | nil => simp
  | cons p ps ih =>
      have hp := hs p List.mem_cons_self
      have hrest := ih fun q hq => hs q (List.mem_cons_of_mem _ hq)
      have hone : ∀ a, (((p :: ps).filter fun q => role q = a && also q).map Payment.amount).sum =
          (if role p = a then if also p then p.amount else 0 else 0) +
            ((ps.filter fun q => role q = a && also q).map Payment.amount).sum := by
        intro a
        rw [List.filter_cons]
        by_cases ha : role p = a <;> cases also p <;> simp [ha]
      simp only [hone]
      rw [Finset.sum_add_distrib, hrest, Finset.sum_ite_eq, if_pos hp, List.filter_cons]
      split_ifs <;> simp

omit [Ed25519] in
theorem totalOf_congr {p q : Payment → Bool} (h : ∀ payment, p payment = q payment)
    (settled : List (Types.Extrinsic × DispatchResult)) :
    totalOf p settled = totalOf q settled := by
  rw [funext h]

omit [Ed25519] in
/-- No account has paid itself if the payments by and to the same account come to nothing. -/
theorem not_paysItself_of_totalOf {settled : List (Types.Extrinsic × DispatchResult)}
    (h : totalOf (fun p => p.payer = p.recipient) settled = 0) :
    ∀ p ∈ settled, ¬ PaysItself p := by
  rintro p hp ⟨payment, hpayment, hends, hpos⟩
  rw [totalOf, List.sum_eq_zero_iff_forall_eq_nat] at h
  have hmem : payment ∈ settled.filterMap payment? := List.mem_filterMap.mpr ⟨p, hp, hpayment⟩
  have hzero := h payment.amount
    (List.mem_map_of_mem (List.mem_filter.mpr ⟨hmem, by simpa using hends⟩))
  exact hpos.ne' hzero

omit [Ed25519] in
/-- The payments of an account to itself come to what the total of the accounts has grown by. -/
theorem Statement.sum_balance {start rt : Runtime}
    {settled : List (Types.Extrinsic × DispatchResult)} (h : Statement start rt settled)
    (s : Finset Types.AccountId)
    (hs : ∀ p ∈ settled.filterMap payment?, p.payer ∈ s ∧ p.recipient ∈ s) :
    ∑ a ∈ s, (rt.balances.balance a).toNat = ∑ a ∈ s, (start.balances.balance a).toNat +
      totalOf (fun p => p.payer = p.recipient) settled := by
  have hpaid :
      ∑ a ∈ s, totalOf (fun p => p.payer = a) settled = totalOf (fun _ => true) settled := by
    rw [← sum_totalOf s Payment.payer (fun _ => true) fun p hp => (hs p hp).1]
    simp
  have hreceived : ∑ a ∈ s, totalOf (fun p => p.recipient = a) settled =
      totalOf (fun _ => true) settled := by
    rw [← sum_totalOf s Payment.recipient (fun _ => true) fun p hp => (hs p hp).2]
    simp
  have hself : ∑ a ∈ s, totalOf (fun p => p.payer = a ∧ p.recipient = a) settled =
      totalOf (fun p => p.payer = p.recipient) settled := by
    rw [← sum_totalOf s Payment.payer (fun p => p.payer = p.recipient) fun p hp => (hs p hp).1]
    refine Finset.sum_congr rfl fun a _ => totalOf_congr ?_ settled
    rintro ⟨payer, recipient, amount⟩
    by_cases ha : payer = a
    · subst ha
      simp [eq_comm]
    · simp [ha]
  have htotal := Finset.sum_congr (rfl : s = s) fun a _ => h.balance a
  rw [Finset.sum_add_distrib, Finset.sum_add_distrib, Finset.sum_add_distrib, hpaid, hreceived,
    hself] at htotal
  omega

omit [Ed25519] in
/-- The accounts a payment touches are parties of its order. -/
theorem parties_of_payment {p : Types.Extrinsic × DispatchResult} {payment : Payment}
    (h : payment? p = some payment) :
    payment.payer ∈ (order p.1).parties ∧ payment.recipient ∈ (order p.1).parties := by
  obtain ⟨ext, res⟩ := p
  cases res with
  | error e => cases h
  | ok u =>
      rw [payment?] at h
      split at h
      · rename_i recipient amount hcall
        cases h
        rw [order, hcall]
        exact ⟨List.mem_cons_self, List.mem_cons_of_mem _ List.mem_cons_self⟩
      · cases h

omit [Ed25519] in
/-- Where the ledger and the runtime end with the same balances, no account has paid itself. -/
theorem Statement.not_paysItself {start rt : Runtime}
    {settled : List (Types.Extrinsic × DispatchResult)} (h : Statement start rt settled)
    (hsame : ledger rt = Ledger.replay cap (orders settled) (ledger start)) :
    ∀ p ∈ settled, ¬ PaysItself p := by
  let s : Finset Types.AccountId := ((orders settled).flatMap Ledger.Order.parties).toFinset
  have hparties : ∀ o ∈ orders settled, ∀ a ∈ o.parties, a ∈ s := by
    intro o ho a ha
    exact List.mem_toFinset.mpr (List.mem_flatMap.mpr ⟨o, ho, ha⟩)
  have hpayments : ∀ p ∈ settled.filterMap payment?, p.payer ∈ s ∧ p.recipient ∈ s := by
    intro payment hpayment
    obtain ⟨p, hp, hsome⟩ := List.mem_filterMap.mp hpayment
    have ho : order p.1 ∈ orders settled := List.mem_map_of_mem (f := fun p => order p.1) hp
    obtain ⟨hpayer, hrecipient⟩ := parties_of_payment hsome
    exact ⟨hparties _ ho _ hpayer, hparties _ ho _ hrecipient⟩
  have hconserved : ∑ a ∈ s, (Ledger.replay cap (orders settled) (ledger start)).holds a =
      ∑ a ∈ s, (ledger start).holds a := Ledger.sum_replay s hparties _
  rw [← hsame] at hconserved
  have hgrown := h.sum_balance s hpayments
  apply not_paysItself_of_totalOf
  change ∑ a ∈ s, (rt.balances.balance a).toNat =
    ∑ a ∈ s, (start.balances.balance a).toNat at hconserved
  omega

end Runtime

open RustStateMachine.Runtime

variable [Ed25519] {PeerId : Type} [LinearOrder PeerId]

/-- What a node has settled in the steps of its parts. -/
def Process.settled (self : Process PeerId) : List (Types.Extrinsic × DispatchResult) :=
  Runtime.settled (runtimeLog self.log)

/-- However the parts of a node interleave, its accounts follow from those at the start and what it
has settled since. -/
theorem statement_of_account (node : Node PeerId) (moves : List (Process.Move PeerId)) :
    let self := Trace.run Process.next moves (Process.start node)
    Statement node.runtime self.server.node.runtime self.settled := by
  intro self
  have hrun : Explained (Statement node.runtime) self.server.node.runtime (runtimeLog self.log) :=
    Trace.run_keeps (Process.keeps_next (keeps_statement node.runtime)) moves
      ⟨rfl, Statement.refl node.runtime⟩
  exact hrun.explains

/-- However the parts of a node interleave, its accounts are those of a ledger that carries out the
same orders exactly when no account has paid itself; then the same orders go through. -/
theorem runtime_refines_ledger (node : Node PeerId) (moves : List (Process.Move PeerId)) :
    let self := Trace.run Process.next moves (Process.start node)
    (ledger self.server.node.runtime =
        Ledger.replay cap (orders self.settled) (ledger node.runtime) ↔
      ∀ p ∈ self.settled, ¬ PaysItself p) ∧
    ((∀ p ∈ self.settled, ¬ PaysItself p) →
      Ledger.verdicts cap (orders self.settled) (ledger node.runtime) =
        self.settled.map fun p => p.2.isOk) := by
  intro self
  have hrun : Explained (fun rt settled =>
      (∀ p ∈ settled, ¬ PaysItself p) → Refines node.runtime rt settled)
      self.server.node.runtime (runtimeLog self.log) :=
    Trace.run_keeps (Process.keeps_next (keeps_refines node.runtime)) moves
      ⟨rfl, fun _ => ⟨rfl, rfl⟩⟩
  have hstatement : Explained (Statement node.runtime) self.server.node.runtime
      (runtimeLog self.log) :=
    Trace.run_keeps (Process.keeps_next (keeps_statement node.runtime)) moves
      ⟨rfl, Statement.refl node.runtime⟩
  refine ⟨⟨?_, ?_⟩, ?_⟩
  · exact hstatement.explains.not_paysItself
  · exact fun hself => (hrun.explains hself).ledger_eq
  · exact fun hself => (hrun.explains hself).verdicts_eq

end RustStateMachine
