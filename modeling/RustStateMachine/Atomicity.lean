import RustStateMachine.Execution

/-!
# Failed calls and panics

A call makes all its checks before it writes: one that fails changes nothing,
and one that succeeds changes only what it names. A block panics exactly where
a counter stands at its maximum.
-/

namespace RustStateMachine

open Lib Lib.KeyValue Std Support

/-- The content a claim call names. -/
def ProofOfExistence.Call.content {Content : Type} : ProofOfExistence.Call Content → Content
  | .createClaim claim => claim
  | .revokeClaim claim => claim

namespace Runtime

/-! ## Frames -/

/-- What a call that succeeds leaves alone among balances and claims. -/
def Framed (caller : Types.AccountId) (self after : Runtime) : RuntimeCall → Prop
  | .balances (.transfer recipient _) =>
      after.proofOfExistence = self.proofOfExistence ∧ ∀ a, a ≠ caller → a ≠ recipient →
        after.balances.balances[a]? = self.balances.balances[a]?
  | .proofOfExistence call =>
      after.balances = self.balances ∧ ∀ content, content ≠ call.content →
        after.proofOfExistence.claims[content]? = self.proofOfExistence.claims[content]?

/-- What a call that succeeds leaves alone in the store. -/
def StoreFramed (caller : Types.AccountId) (db after : Entries) : RuntimeCall → Prop
  | .balances (.transfer recipient _) =>
      ∀ key, key ≠ Balances.Pallet.balanceKey caller → key ≠ Balances.Pallet.balanceKey recipient →
        after[key]? = db[key]?
  | .proofOfExistence _ => ∀ key, ¬ ProofOfExistence.prefixPoe <+: key → after[key]? = db[key]?

namespace DispatchEffect

variable {caller : Types.AccountId} {self : Runtime} {call : RuntimeCall}
  {r : Run Event Runtime DispatchResult}

theorem eq_of_error (h : DispatchEffect caller self call r) {e : String}
    (he : r.outcome = .ret (.error e)) : r.state = self ∧ r.log = [] := by
  cases h with
  | failed => exact ⟨rfl, rfl⟩
  | transferred => cases he
  | created => cases he
  | revoked => cases he

/-- A dispatch logs writes only. -/
theorem log_eq (h : DispatchEffect caller self call r) : r.log = (writes r.log).map .write := by
  cases h with
  | failed => rfl
  | transferred => rfl
  | created => rfl
  | revoked => rfl

theorem framed (h : DispatchEffect caller self call r) (hok : r.outcome = .ret (.ok ())) :
    Framed caller self r.state call := by
  cases h with
  | failed => cases hok
  | @transferred recipient amount x y hx hy =>
      refine ⟨rfl, ?_⟩
      intro a hcaller hrecipient
      simp [OrderedMap.getElem?_insert, hcaller.symm, hrecipient.symm]
  | @created claim last owner h hlast howner =>
      refine ⟨rfl, ?_⟩
      intro content hne
      have hne' : ¬ claim = content := fun heq => hne heq.symm
      simp [OrderedMap.getElem?_insert, hne']
  | @revoked claim h =>
      refine ⟨rfl, ?_⟩
      intro content hne
      have hne' : ¬ claim = content := fun heq => hne heq.symm
      simp [OrderedMap.getElem?_erase, hne']

theorem storeFramed (h : DispatchEffect caller self call r) (hok : r.outcome = .ret (.ok ()))
    (db : Entries) : StoreFramed caller db (replay db (writes r.log)) call := by
  cases h with
  | failed => cases hok
  | @transferred recipient amount x y hx hy =>
      intro key hcaller hrecipient
      apply replay_getElem?_of_forall_ne
      intro w hw
      simp only [writes_cons, Event.write?, Option.toList_some, List.singleton_append,
        writes_nil, List.mem_cons, List.not_mem_nil, or_false] at hw
      rcases hw with rfl | rfl
      · exact hcaller.symm
      · exact hrecipient.symm
  | @created claim last owner h hlast howner =>
      intro key hkey
      apply replay_getElem?_of_forall_ne
      intro w hw heq
      rw [List.mem_singleton.mp hw] at heq
      exact hkey (heq ▸ List.prefix_append _ _)
  | @revoked claim h =>
      intro key hkey
      apply replay_getElem?_of_forall_ne
      intro w hw heq
      rw [List.mem_singleton.mp hw] at heq
      exact hkey (heq ▸ List.prefix_append _ _)

end DispatchEffect

variable [Ed25519]

/-- An accepted extrinsic whose call fails uses up a nonce of its signer, in memory and in the
store, and does nothing else. -/
theorem applyIndexed_of_failed {n : Types.BlockNumber} {p : Types.Extrinsic × ℕ} {self : Runtime}
    (hacc : Accepted p.1 self) {e : String}
    (he : .dispatched (.error e) ∈ (applyIndexed n p self).log) :
    ∃ m : Types.Nonce, m.toNat = (self.system.nonce p.1.signer).toNat + 1 ∧
      (applyIndexed n p self).state = self.setNonce p.1.signer m ∧
      writes (applyIndexed n p self).log =
        [.put (System.Pallet.nonceKey p.1.signer) (encode m)] := by
  by_cases hmax : p.1.nonce = BitVec.allOnes 32
  · rw [applyIndexed, applyExtrinsic_of_overflow n p.2 hacc hmax] at he
    cases he
  · obtain ⟨m, hm⟩ := exists_next_nonce hmax
    have heff := dispatch_effect p.1.signer p.1.call (self.setNonce p.1.signer m)
    generalize hd : dispatch p.1.signer p.1.call (self.setNonce p.1.signer m) = r at heff
    obtain ⟨res, hres⟩ := heff.outcome_eq
    have hlog := heff.log_eq
    obtain ⟨o, state, log⟩ := r
    subst hres
    have hrun := applyExtrinsic_of_accepted n p.2 hacc hm hd
    rw [applyIndexed, hrun] at he ⊢
    -- the only result in the log is the one of this dispatch
    have hresult : res = .error e := by
      dsimp only at hlog
      rw [hlog] at he
      simp only [List.mem_cons, List.mem_append, List.mem_map, reduceCtorEq, and_false,
        exists_false, false_or, Event.dispatched.injEq] at he
      rcases he with he | he
      · exact he.symm
      · cases res with
        | ok u => cases he
        | error e' => cases List.mem_singleton.mp he
    subst hresult
    obtain ⟨rfl, rfl⟩ := heff.eq_of_error rfl
    refine ⟨m, ?_, rfl, rfl⟩
    rw [hm, hacc.2]

/-- A call that fails changes nothing, one that succeeds changes nothing but what it names, and an
accepted extrinsic of a block whose call fails changes its signer's nonce only, by one. -/
theorem failed_dispatch_changes_nothing :
    (∀ (caller : Types.AccountId) (call : RuntimeCall) (self : Runtime) (db : Entries),
      let r := dispatch caller call self
      (∀ e, r.outcome = .ret (.error e) → r.state = self ∧ replay db (writes r.log) = db) ∧
        (r.outcome = .ret (.ok ()) → r.state.system = self.system ∧
          Framed caller self r.state call ∧
          StoreFramed caller db (replay db (writes r.log)) call)) ∧
    ∀ (block : Types.Block) (self : Runtime), ∀ st ∈ extrinsicSteps block self,
      Accepted st.input.1 st.before → ∀ e, .dispatched (.error e) ∈ st.run.log →
        ∃ m : Types.Nonce, m.toNat = (st.before.system.nonce st.input.1.signer).toNat + 1 ∧
          st.run.state = st.before.setNonce st.input.1.signer m ∧
          ∀ db : Entries, replay db (writes st.run.log) =
            db.insert (System.Pallet.nonceKey st.input.1.signer) (encode m) := by
  constructor
  · intro caller call self db r
    have heff : DispatchEffect caller self call r := dispatch_effect caller call self
    constructor
    · intro e he
      obtain ⟨hstate, hlog⟩ := heff.eq_of_error he
      refine ⟨hstate, ?_⟩
      rw [hlog, writes_nil, replay_nil]
    · intro hok
      exact ⟨heff.system_eq, heff.framed hok, heff.storeFramed hok db⟩
  · intro block self st hst hacc e he
    have hrun : st.run = applyIndexed block.header.blockNumber st.input st.before := by
      rw [extrinsicSteps] at hst
      split_ifs at hst
      · exact (Exec.mem_steps _ hst).2
      · cases hst
    rw [hrun] at he ⊢
    obtain ⟨m, hm, hstate, hwrites⟩ := applyIndexed_of_failed hacc he
    refine ⟨m, hm, hstate, ?_⟩
    intro db
    rw [hwrites]
    rfl

/-! ## Panics -/

/-- The extrinsic would raise a nonce that has no successor. -/
def Overflows (ext : Types.Extrinsic) (self : Runtime) : Prop :=
  ext.verify = .ok () ∧ ext.nonce = BitVec.allOnes 32 ∧
    self.system.nonce ext.signer = BitVec.allOnes 32

/-- An extrinsic panics only in `inc_nonce`, and only where it overflows. -/
theorem applyIndexed_panicked_iff {n : Types.BlockNumber} {p : Types.Extrinsic × ℕ}
    {self : Runtime} {m : String} :
    (applyIndexed n p self).outcome = .panicked m ↔ m = System.unwrapNone ∧ Overflows p.1 self := by
  have heff := applyIndexed_effect n p self
  generalize applyIndexed n p self = r at heff ⊢
  constructor
  · intro h
    cases heff with
    | skipped => cases h
    | overflowed hacc hmax =>
        cases h
        exact ⟨rfl, hacc.1, hmax, hacc.2.trans hmax⟩
    | applied => cases h
  · rintro ⟨rfl, hverify, hmax, hnonce⟩
    have hacc : Accepted p.1 self := ⟨hverify, hnonce.trans hmax.symm⟩
    cases heff with
    | skipped text h => exact absurd hacc h
    | overflowed => rfl
    | @applied next _ _ _ _ h hm =>
        have hlt := next.isLt
        rw [hm, hmax, BitVec.toNat_allOnes] at hlt
        omega

/-- The state in which an extrinsic of a block is reached is the one the block leaves without it and
what follows it. -/
theorem executeBlock_front {block : Types.Block} {self rt : Runtime}
    (hnum : block.header.blockNumber.toNat = self.height + 1) {exts : List Types.Extrinsic} :
    (∃ log, executeBlock ⟨block.header, exts⟩ self = ⟨.ret (.ok ()), rt, log⟩) ↔
      (applyAll block.header.blockNumber exts.zipIdx
          (self.setBlockNumber block.header.blockNumber)).outcome = .ret () ∧
        (applyAll block.header.blockNumber exts.zipIdx
          (self.setBlockNumber block.header.blockNumber)).state = rt := by
  have hrun := @executeBlock_of_next _ ⟨block.header, exts⟩ self hnum
  dsimp only at hrun
  rw [hrun]
  generalize applyAll _ exts.zipIdx _ = r
  obtain ⟨o, s, l⟩ := r
  cases o with
  | ret u => simp
  | panicked m => simp

/-- A block panics exactly if the height is at its maximum, or its header fits and an extrinsic is
reached whose signature verifies while its nonce and its signer's nonce are at their maximum. No
other `unwrap` or `expect` fails. -/
theorem executeBlock_panics_iff (block : Types.Block) (self : Runtime) (m : String) :
    (executeBlock block self).outcome = .panicked m ↔ m = System.unwrapNone ∧
      (self.system.blockNumber = BitVec.allOnes 32 ∨
        block.header.blockNumber.toNat = self.height + 1 ∧ ∃ pre ext post rt log,
          block.extrinsics = pre ++ ext :: post ∧
          executeBlock ⟨block.header, pre⟩ self = ⟨.ret (.ok ()), rt, log⟩ ∧
          ext.verify = .ok () ∧ ext.nonce = BitVec.allOnes 32 ∧
          rt.system.nonce ext.signer = BitVec.allOnes 32) := by
  have heff := executeBlock_effect block self
  generalize executeBlock block self = r at heff ⊢
  cases heff with
  | overflowed hmax =>
      constructor
      · intro h
        cases h
        exact ⟨rfl, .inl hmax⟩
      · rintro ⟨rfl, -⟩
        rfl
  | @rejected n hn hne =>
      have hlt := n.isLt
      constructor
      · intro h
        cases h
      · rintro ⟨-, hmax | ⟨hnum, -⟩⟩
        · rw [hn, hmax, BitVec.toNat_allOnes] at hlt
          omega
        · exact absurd (BitVec.eq_of_toNat_eq (hnum.trans hn.symm)) hne
  | executed hnum hr =>
      subst hr
      have hheight : self.system.blockNumber ≠ BitVec.allOnes 32 := by
        intro hmax
        have hlt := block.header.blockNumber.isLt
        rw [hnum, hmax, BitVec.toNat_allOnes] at hlt
        omega
      rw [Outcome.map_eq_panicked_iff, applyAll, Exec.each_panicked_iff]
      constructor
      · rintro ⟨pre', p, post', hsplit, hret, hpanic⟩
        obtain ⟨rfl, hover⟩ := applyIndexed_panicked_iff.mp hpanic
        obtain ⟨pre, rest, hexts, rfl, hrest⟩ := List.zipIdx_eq_append_iff.mp hsplit
        obtain ⟨ext, post, rfl, hp, -⟩ := List.zipIdx_eq_cons_iff.mp hrest.symm
        subst hp
        obtain ⟨log, hfront⟩ := (executeBlock_front hnum).mpr ⟨hret, rfl⟩
        exact ⟨rfl, .inr ⟨hnum, pre, ext, post, _, log, hexts, hfront, hover⟩⟩
      · rintro ⟨rfl, hmax | ⟨-, pre, ext, post, rt, log, hexts, hfront, hover⟩⟩
        · exact absurd hmax hheight
        · obtain ⟨hret, rfl⟩ := (executeBlock_front hnum).mp ⟨log, hfront⟩
          refine ⟨pre.zipIdx, (ext, pre.length), post.zipIdx (pre.length + 1), ?_, hret, ?_⟩
          · rw [hexts, List.zipIdx_append, List.zipIdx_cons, Nat.zero_add]
          · exact applyIndexed_panicked_iff.mpr ⟨rfl, hover⟩

end Runtime

end RustStateMachine
