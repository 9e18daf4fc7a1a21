import RustStateMachine.Forgery

/-!
# Eviction after a peer block

What a block lists is evicted; what it consumes is decided extrinsic by
extrinsic. The two agree on the pool exactly when the validly signed extrinsics
of the block reach every pending nonce it lists.
-/

namespace RustStateMachine

open Lib Lib.KeyValue Lib.Runs Std Support

namespace Runtime

variable [Ed25519]

/-- The nonces of the validly signed extrinsics of `a`, in order. -/
def signedNonces (a : Types.AccountId) (exts : List Types.Extrinsic) : List ℕ :=
  noncesOf a (exts.filter fun e => e.verify = .ok ())

theorem signedNonces_cons (a : Types.AccountId) (e : Types.Extrinsic)
    (exts : List Types.Extrinsic) :
    signedNonces a (e :: exts) =
      if e.verify = .ok () ∧ e.signer = a then nonceOf e :: signedNonces a exts
      else signedNonces a exts := by
  by_cases hv : e.verify = .ok ()
  · by_cases hs : e.signer = a
    · simp [signedNonces, noncesOf, hv, hs, nonceOf]
    · simp [signedNonces, noncesOf, hv, hs]
  · simp [signedNonces, hv]

/-- Where all extrinsics of the account are validly signed, all its nonces count. -/
theorem signedNonces_of_verified {a : Types.AccountId} {exts : List Types.Extrinsic}
    (h : ∀ e ∈ exts, e.signer = a → e.verify = .ok ()) :
    signedNonces a exts = noncesOf a exts := by
  rw [signedNonces, noncesOf, noncesOf, List.filter_filter]
  congr 1
  refine List.filter_congr fun e he => ?_
  by_cases hs : e.signer = a
  · simp [hs, h e he hs]
  · simp [hs]

theorem mem_signedNonces {a : Types.AccountId} {v : ℕ} {exts : List Types.Extrinsic} :
    v ∈ signedNonces a exts ↔
      ∃ e ∈ exts, e.verify = .ok () ∧ e.signer = a ∧ e.nonce.toNat = v := by
  rw [signedNonces, mem_noncesOf]
  constructor
  · rintro ⟨e, he, hs, hv⟩
    obtain ⟨he, hverify⟩ := List.mem_filter.mp he
    exact ⟨e, he, of_decide_eq_true hverify, hs, hv⟩
  · rintro ⟨e, he, hverify, hs, hv⟩
    exact ⟨e, List.mem_filter.mpr ⟨he, decide_eq_true hverify⟩, hs, hv⟩

/-- An extrinsic that does not panic counts for `a` exactly when it is validly signed by `a` and
carries the nonce of `a`. -/
theorem ExtrinsicEffect.nonce_advance {ext : Types.Extrinsic} {self : Runtime}
    {r : Run Event Runtime Unit} (h : ExtrinsicEffect ext self r) (hret : r.outcome = .ret ())
    (a : Types.AccountId) (exts : List Types.Extrinsic) :
    advance (self.system.nonce a).toNat (signedNonces a (ext :: exts)) =
      advance (r.state.system.nonce a).toNat (signedNonces a exts) := by
  rw [signedNonces_cons]
  by_cases hacc : Accepted ext self
  · have hmax : ext.nonce ≠ BitVec.allOnes 32 := by
      cases h with
      | skipped _ hskip => exact absurd hacc hskip
      | overflowed => cases hret
      | @applied m _ _ _ _ _ hm =>
          intro htop
          have hlt := m.isLt
          rw [hm, htop, BitVec.toNat_allOnes] at hlt
          omega
    obtain ⟨-, -, hnonce⟩ := h.of_accepted hacc hmax
    by_cases hs : ext.signer = a
    · have hcurrent : nonceOf ext = (self.system.nonce a).toNat := by
        rw [← hs, hacc.2]
        rfl
      rw [if_pos ⟨hacc.1, hs⟩, advance, if_pos hcurrent, hnonce a, if_pos hs]
    · rw [if_neg fun hboth => hs hboth.2, hnonce a, if_neg hs, Nat.add_zero]
  · obtain ⟨-, hsame⟩ := h.unaffected (s := a) fun _ => hacc
    rw [hsame]
    split_ifs with hboth
    · have hne : nonceOf ext ≠ (self.system.nonce a).toNat := by
        intro heq
        refine hacc ⟨hboth.1, BitVec.eq_of_toNat_eq ?_⟩
        rw [hboth.2]
        exact heq.symm
      rw [advance, if_neg hne]
    · rfl

theorem nonce_applyAll {n : Types.BlockNumber} {exts : List (Types.Extrinsic × ℕ)}
    {self : Runtime} (hret : (applyAll n exts self).outcome = .ret ()) (a : Types.AccountId) :
    ((applyAll n exts self).state.system.nonce a).toNat =
      advance (self.system.nonce a).toNat (signedNonces a (exts.map Prod.fst)) := by
  induction exts generalizing self with
  | nil => rfl
  | cons p exts ih =>
      cases ho : (applyIndexed n p self).outcome with
      | ret u =>
          rw [applyAll, Exec.each_cons_ret _ ho] at hret ⊢
          rw [List.map_cons, (applyIndexed_effect n p self).nonce_advance ho]
          exact ih hret
      | panicked m =>
          rw [applyAll, Exec.each_cons_panicked _ ho] at hret
          cases hret

/-- An applied block moves a nonce through its validly signed extrinsics. -/
theorem nonce_executeBlock_eq {block : Types.Block} {self rt : Runtime} {log : List Event}
    (hexec : executeBlock block self = ⟨.ret (.ok ()), rt, log⟩) (a : Types.AccountId) :
    (rt.system.nonce a).toNat =
      advance (self.system.nonce a).toNat (signedNonces a block.extrinsics) := by
  have heff := executeBlock_effect block self
  rw [hexec] at heff
  generalize hr : (⟨.ret (.ok ()), rt, log⟩ : Run Event Runtime DispatchResult) = r at heff
  cases heff with
  | overflowed => cases hr
  | rejected => cases hr
  | @executed q hn hq =>
      obtain ⟨hout, rfl, -⟩ := Run.mk.inj hr
      have hret : q.outcome = .ret () := by
        cases hqo : q.outcome with
        | ret u => rfl
        | panicked m =>
            rw [hqo] at hout
            cases hout
      subst hq
      rw [nonce_applyAll hret, List.zipIdx_map_fst, setBlockNumber_nonce]

/-- An applied block moves a nonce past `k` numbers exactly when its validly signed extrinsics carry
these numbers in order. -/
theorem nonce_executeBlock {block : Types.Block} {self rt : Runtime} {log : List Event}
    (hexec : executeBlock block self = ⟨.ret (.ok ()), rt, log⟩) (a : Types.AccountId) (k : ℕ) :
    (self.system.nonce a).toNat + k ≤ (rt.system.nonce a).toNat ↔
      (List.range' (self.system.nonce a).toNat k).Sublist (signedNonces a block.extrinsics) := by
  rw [nonce_executeBlock_eq hexec, add_le_advance_iff]

theorem nonce_le_executeBlock {block : Types.Block} {self rt : Runtime} {log : List Event}
    (hexec : executeBlock block self = ⟨.ret (.ok ()), rt, log⟩) (a : Types.AccountId) :
    (self.system.nonce a).toNat ≤ (rt.system.nonce a).toNat :=
  (nonce_executeBlock hexec a 0).mpr (List.nil_sublist _)

end Runtime

/-! ## The pool after a peer block -/

/-- The block contains an extrinsic with this signer and nonce. -/
def Listed (block : Types.Block) (e : Types.Extrinsic) : Prop :=
  ∃ f ∈ block.extrinsics, f.signer = e.signer ∧ f.nonce = e.nonce

/-- The nonce is behind its signer's, or the validly signed extrinsics of the signer in the block
carry, in order, all nonces from the signer's up to this one. -/
def Consumed [Ed25519] (block : Types.Block) (self : Runtime) (e : Types.Extrinsic) : Prop :=
  nonceOf e < (self.system.nonce e.signer).toNat ∨
    (List.range' (self.system.nonce e.signer).toNat
      (nonceOf e + 1 - (self.system.nonce e.signer).toNat)).Sublist
        (Runtime.signedNonces e.signer block.extrinsics)

/-- The nonce is not behind its signer's. -/
def applicable (self : Runtime) (e : Types.Extrinsic) : Bool :=
  self.system.nonce e.signer ≤ e.nonce

namespace Node

variable {PeerId : Type}

theorem mem_evict {block : Types.Block} {pool : Types.Mempool} {e : Types.Extrinsic} :
    e ∈ (evict block pool).pending ↔ e ∈ pool.pending ∧ ¬ Listed block e := by
  rw [evict, Mempool.retain, List.mem_filter, Listed]
  simp

variable [Ed25519]

/-- Consumed nonces are the ones behind the new nonce of the signer. -/
theorem consumed_iff {block : Types.Block} {self rt : Runtime} {log : List Event}
    (hexec : Runtime.executeBlock block self = ⟨.ret (.ok ()), rt, log⟩) (e : Types.Extrinsic) :
    Consumed block self e ↔ applicable rt e = false := by
  have hadvance := Runtime.nonce_executeBlock hexec e.signer
    (nonceOf e + 1 - (self.system.nonce e.signer).toNat)
  have hle := Runtime.nonce_le_executeBlock hexec e.signer
  have hbehind : applicable rt e = false ↔ nonceOf e < (rt.system.nonce e.signer).toNat := by
    rw [applicable, decide_eq_false_iff_not]
    exact Nat.not_le
  rw [Consumed, hbehind, ← hadvance]
  omega

/-- After an applied peer block no pending extrinsic has the signer and nonce of a dispatched one,
and all applicable ones are still there in order, exactly when every pending extrinsic that the
block lists is consumed. -/
theorem receiveBlock_evicts_exactly_iff {block : Types.Block} {self : Node PeerId} {rt : Runtime}
    {log : List Event}
    (hexec : Runtime.executeBlock block self.runtime = ⟨.ret (.ok ()), rt, log⟩) :
    ((∀ e ∈ (receiveBlock block self).state.mempool.pending, ∀ d ∈ dispatches log,
        (e.signer, e.nonce) ≠ (d.signer, d.nonce)) ∧
      (receiveBlock block self).state.mempool.pending.filter (applicable rt) =
        self.mempool.pending.filter (applicable rt)) ↔
      ∀ e ∈ self.mempool.pending, Listed block e → Consumed block self.runtime e := by
  rw [receiveBlock_of_ok hexec]
  dsimp only
  constructor
  · rintro ⟨-, hkept⟩ e he hlisted
    rw [consumed_iff hexec, Bool.eq_false_iff]
    intro happ
    have hmem : e ∈ (evict block self.mempool).pending.filter (applicable rt) :=
      hkept ▸ List.mem_filter.mpr ⟨he, happ⟩
    exact (mem_evict.mp (List.mem_filter.mp hmem).1).2 hlisted
  · intro h
    constructor
    · intro e he d hd heq
      obtain ⟨hsigner, hnonce⟩ := Prod.mk.inj heq
      have hsub := Runtime.dispatches_executeBlock_subset block self.runtime
      rw [hexec] at hsub
      exact (mem_evict.mp he).2 ⟨d, hsub hd, hsigner.symm, hnonce.symm⟩
    · rw [evict, Mempool.retain, List.filter_filter]
      apply List.filter_congr
      intro e he
      cases happ : applicable rt e with
      | false => rfl
      | true =>
          rw [Bool.true_and]
          have hfree : ¬ Listed block e := by
            intro hlisted
            have hgone := (consumed_iff hexec e).mp (h e he hlisted)
            rw [happ] at hgone
            cases hgone
          have hmem : e ∈ (evict block self.mempool).pending := mem_evict.mpr ⟨he, hfree⟩
          exact (List.mem_filter.mp hmem).2

end Node

/-- The block dispatches the first pending payment; the second one stays. -/
theorem receiveBlock_evicts_exactly_paymentsNode :
    let := Ed25519.transparent
    let node := paymentsNode [0, 1]
    let block : Types.Block := ⟨⟨2⟩, [smallPayment 0]⟩
    ∃ rt log, Runtime.executeBlock block node.runtime = ⟨.ret (.ok ()), rt, log⟩ ∧
      (∀ e ∈ (Node.receiveBlock block node).state.mempool.pending, ∀ d ∈ dispatches log,
        (e.signer, e.nonce) ≠ (d.signer, d.nonce)) ∧
      (Node.receiveBlock block node).state.mempool.pending.filter (applicable rt) =
        node.mempool.pending.filter (applicable rt) := by
  intro scheme node block
  obtain ⟨rt, log, hexec⟩ := Runtime.executeBlock_ok block node.runtime
    (by decide +kernel) (by decide +kernel)
  refine ⟨rt, log, hexec, (Node.receiveBlock_evicts_exactly_iff hexec).mpr ?_⟩
  rintro e he ⟨f, hf, -, hnonce⟩
  rw [List.mem_singleton.mp hf] at hnonce
  have hfirst : ∀ e ∈ node.mempool.pending, (smallPayment 0).nonce = e.nonce →
      e = smallPayment 0 := by decide +kernel
  rw [hfirst e he hnonce]
  refine .inr ?_
  have hsigned : Runtime.signedNonces (smallPayment 0).signer block.extrinsics = [0] := by
    rw [Runtime.signedNonces_cons, if_pos ⟨verify_smallPayment 0, rfl⟩]
    rfl
  rw [hsigned]
  decide +kernel

/-- A peer block that carries a forged copy of a pending payment skips the copy and evicts the
payment, which is still applicable. -/
theorem forged_copy_evicts_payment :
    let := Ed25519.transparent
    let node := paymentsNode [0]
    let block : Types.Block := ⟨⟨2⟩, [forgedPayment 0]⟩
    ∃ rt log, Runtime.executeBlock block node.runtime = ⟨.ret (.ok ()), rt, log⟩ ∧
      ¬ ((∀ e ∈ (Node.receiveBlock block node).state.mempool.pending, ∀ d ∈ dispatches log,
        (e.signer, e.nonce) ≠ (d.signer, d.nonce)) ∧
      (Node.receiveBlock block node).state.mempool.pending.filter (applicable rt) =
        node.mempool.pending.filter (applicable rt)) := by
  intro scheme node block
  obtain ⟨rt, log, hexec⟩ := Runtime.executeBlock_ok block node.runtime
    (by decide +kernel) (by decide +kernel)
  refine ⟨rt, log, hexec, ?_⟩
  rintro ⟨-, hkept⟩
  have hgone : (Node.receiveBlock block node).state.mempool.pending = [] := by
    rw [Node.receiveBlock_of_ok hexec]
    change (Node.evict block node.mempool).pending = []
    decide +kernel
  have hsame : applicable rt (smallPayment 0) = true := by
    have hstate := congrArg Run.state hexec
    dsimp only at hstate
    rw [← hstate]
    decide +kernel
  have hmem : smallPayment 0 ∈ node.mempool.pending.filter (applicable rt) :=
    List.mem_filter.mpr ⟨List.mem_cons_self, hsame⟩
  rw [← hkept, hgone] at hmem
  cases hmem

end RustStateMachine
