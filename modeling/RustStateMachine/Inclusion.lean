import RustStateMachine.Production

/-!
# What a block includes, and what of it applies

The nonces a batch takes of each signer, against the longest unbroken run of
nonces the candidates offer, and what executing the batch does to the nonces.
-/

namespace RustStateMachine

open Lib Lib.KeyValue Lib.Runs Std Support

/-! ## Membership in a batch -/

theorem inRun_sortByNonce {n : ℕ} {txs : List Types.Extrinsic} {e : Types.Extrinsic} :
    InRun nonceOf n (sortByNonce txs) e ↔ InRun nonceOf n txs e := by
  have hfilter : ∀ v, ((sortByNonce txs).filter fun e => nonceOf e = v) =
      txs.filter fun e => nonceOf e = v := by
    intro v
    apply filter_insertionSort
    intro a b hab
    exact Nat.le_of_eq hab
  constructor
  · exact inRun_congr nonceOf hfilter
  · exact inRun_congr nonceOf fun v => (hfilter v).symm

section Selected

variable (order : HashOrder) {nonce : Types.AccountId → Types.Nonce}
  {candidates : List Types.Extrinsic}

/-- An extrinsic is selected when it is in the run of its signer's candidates. -/
theorem mem_selected {e : Types.Extrinsic} :
    e ∈ selected order nonce candidates ↔ InRun nonceOf (nonce e.signer).toNat
      (candidates.filter fun f => f.signer = e.signer) e := by
  have hsigner : e ∈ selected order nonce candidates ↔
      e ∈ (selected order nonce candidates).filter fun f => f.signer = e.signer := by
    rw [List.mem_filter]
    simp
  rw [hsigner, selected_filter, mem_takeRun nonceOf (sortByNonce_sorted _), inRun_sortByNonce]

/-- The selected nonces of a signer: nothing is stale, each one before is carried exactly once. -/
theorem mem_noncesOf_selected {s : Types.AccountId} {v : ℕ} :
    v ∈ Runtime.noncesOf s (selected order nonce candidates) ↔
      v ∈ Runtime.noncesOf s candidates ∧
      (∀ w ∈ Runtime.noncesOf s candidates, (nonce s).toNat ≤ w) ∧
      ∀ w, (nonce s).toNat ≤ w → w < v → (Runtime.noncesOf s candidates).count w = 1 := by
  rw [Runtime.mem_noncesOf]
  constructor
  · rintro ⟨e, he, rfl, rfl⟩
    have hrun := (mem_selected order).mp he
    refine ⟨List.mem_map_of_mem hrun.mem, ?_, hrun.once⟩
    intro w hw
    obtain ⟨f, hf, rfl⟩ := List.mem_map.mp hw
    exact hrun.ge f hf
  · rintro ⟨hv, hge, honce⟩
    obtain ⟨f, hf, hfv⟩ := List.mem_map.mp hv
    obtain ⟨e, he⟩ : ∃ e, (candidates.filter fun f => f.signer = s).find?
        (fun g => nonceOf g = v) = some e := by
      rw [← Option.isSome_iff_exists, List.find?_isSome]
      exact ⟨f, hf, decide_eq_true hfv⟩
    have hev : nonceOf e = v := by simpa using List.find?_some he
    have hes : e.signer = s :=
      of_decide_eq_true (List.mem_filter.mp (List.mem_of_find?_eq_some he)).2
    refine ⟨e, (mem_selected order).mpr ?_, hes, hev⟩
    rw [hes]
    refine ⟨?_, ?_, ?_⟩
    · intro b hb
      exact hge (nonceOf b) (List.mem_map_of_mem hb)
    · intro w hw hlt
      exact honce w hw (hev ▸ hlt)
    · rw [hev]
      exact he

end Selected

/-! ## The longest unbroken run -/

/-- `k` is the greatest number such that all of `n`, …, `n + k - 1` occur. -/
def LongestRun (n : ℕ) (ns : List ℕ) (k : ℕ) : Prop :=
  (∀ v, n ≤ v → v < n + k → v ∈ ns) ∧ n + k ∉ ns

/-- The batch takes candidates, none more often than it was drained, and of every signer one for
each nonce of the longest run from its runtime nonce on, in that order. -/
structure TakesLongestRuns (nonce : Types.AccountId → Types.Nonce)
    (candidates batch : List Types.Extrinsic) : Prop where
  drained : batch.Subperm candidates
  run : ∀ s, ∃ k, LongestRun (nonce s).toNat (Runtime.noncesOf s candidates) k ∧
    Runtime.noncesOf s batch = List.range' (nonce s).toNat k

/-- Wherever the nonces from `n` on reach without a gap, the greatest nonce is not among them,
none is below `n`, and none on the way there occurs twice. -/
def Selectable (n : ℕ) (ns : List ℕ) : Prop :=
  ∀ v, n ≤ v → (∀ w, n ≤ w → w ≤ v → w ∈ ns) →
    v + 1 < 2 ^ 32 ∧ (∀ w ∈ ns, n ≤ w) ∧ ∀ w, n ≤ w → w < v → ns.count w = 1

section Longest

variable (order : HashOrder) (nonce : Types.AccountId → Types.Nonce)
  (candidates : List Types.Extrinsic)

theorem takesLongestRuns_selected
    (h : ∀ s, Selectable (nonce s).toNat (Runtime.noncesOf s candidates)) :
    TakesLongestRuns nonce candidates (selected order nonce candidates) := by
  refine ⟨selected_subperm order nonce candidates, ?_⟩
  intro s
  have hrange := noncesOf_selected order nonce candidates s
  generalize (Runtime.noncesOf s (selected order nonce candidates)).length = k at hrange
  have hrun : ∀ v, (nonce s).toNat ≤ v → v < (nonce s).toNat + k →
      v ∈ Runtime.noncesOf s candidates := by
    intro v hv hlt
    have hmem : v ∈ Runtime.noncesOf s (selected order nonce candidates) := by
      rw [hrange, List.mem_range'_1]
      exact ⟨hv, hlt⟩
    exact ((mem_noncesOf_selected order).mp hmem).1
  refine ⟨k, ⟨hrun, ?_⟩, hrange⟩
  -- a nonce right behind the run would have been taken as well
  intro hnext
  have hall : ∀ w, (nonce s).toNat ≤ w → w ≤ (nonce s).toNat + k →
      w ∈ Runtime.noncesOf s candidates := by
    intro w hw hle
    rcases Nat.eq_or_lt_of_le hle with heq | hlt
    · rw [heq]
      exact hnext
    · exact hrun w hw hlt
  obtain ⟨-, hge, honce⟩ := h s _ (Nat.le_add_right _ k) hall
  have htaken := (mem_noncesOf_selected order).mpr ⟨hnext, hge, honce⟩
  rw [hrange, List.mem_range'_1] at htaken
  omega

theorem nonce_ne_of_selectable
    (h : ∀ s, Selectable (nonce s).toNat (Runtime.noncesOf s candidates)) :
    ∀ tx ∈ selected order nonce candidates, tx.nonce ≠ BitVec.allOnes 32 := by
  intro tx htx hmax
  have hrange := noncesOf_selected order nonce candidates tx.signer
  have hmem : nonceOf tx ∈ Runtime.noncesOf tx.signer (selected order nonce candidates) :=
    Runtime.mem_noncesOf.mpr ⟨tx, htx, rfl, rfl⟩
  have htop := List.mem_range'_1.mp (hrange ▸ hmem)
  have hall : ∀ w, (nonce tx.signer).toNat ≤ w → w ≤ nonceOf tx →
      w ∈ Runtime.noncesOf tx.signer candidates := by
    intro w hw hle
    have hmem : w ∈ Runtime.noncesOf tx.signer (selected order nonce candidates) := by
      rw [hrange, List.mem_range'_1]
      omega
    exact ((mem_noncesOf_selected order).mp hmem).1
  have hroom := (h tx.signer (nonceOf tx) htop.1 hall).1
  rw [nonceOf, hmax, BitVec.toNat_allOnes] at hroom
  omega

end Longest

/-- Selection takes of every signer the longest run its candidates offer, exactly when no such run
reaches the greatest nonce, passes a nonce that occurs twice, or comes with a stale candidate. -/
theorem selectBatch_takesLongestRuns_iff (order : HashOrder) (self : Runtime)
    (candidates : List Types.Extrinsic) :
    (∃ batch, selectBatch order self.system.nonce candidates = some batch ∧
        TakesLongestRuns self.system.nonce candidates batch) ↔
      ∀ s, Selectable (self.system.nonce s).toNat (Runtime.noncesOf s candidates) := by
  constructor
  · rintro ⟨batch, hbatch, htakes⟩ s v hv hall
    rw [selectBatch_eq] at hbatch
    split_ifs at hbatch with hmax
    cases hbatch
    obtain ⟨k, ⟨-, hnext⟩, hrange⟩ := htakes.run s
    have hlt : v < (self.system.nonce s).toNat + k := by
      by_contra hge
      exact hnext (hall _ (Nat.le_add_right _ k) (Nat.le_of_not_lt hge))
    have hmem : v ∈ Runtime.noncesOf s (selected order self.system.nonce candidates) := by
      rw [hrange, List.mem_range'_1]
      exact ⟨hv, hlt⟩
    refine ⟨?_, ((mem_noncesOf_selected order).mp hmem).2⟩
    obtain ⟨tx, htx, -, rfl⟩ := Runtime.mem_noncesOf.mp hmem
    have hne : nonceOf tx ≠ 2 ^ 32 - 1 := by
      intro htop
      exact hmax tx htx (BitVec.eq_of_toNat_eq (htop.trans BitVec.toNat_allOnes.symm))
    have hlt32 := tx.nonce.isLt
    rw [nonceOf] at hne
    omega
  · intro h
    refine ⟨selected order self.system.nonce candidates, ?_,
      takesLongestRuns_selected order _ candidates h⟩
    rw [selectBatch_eq, if_pos (nonce_ne_of_selectable order _ candidates h)]

/-- Alice's next payment is dropped because an old one, already counted by her nonce, is drained
with it; and a copy of her first payment keeps the second one out. -/
theorem selectBatch_drops_applicable :
    let fresh := (paymentsNode []).runtime
    let paid := fresh.setNonce (@AccountKeyring.publicKey .transparent .alice) 1
    (¬ ∃ batch, selectBatch .inserted paid.system.nonce [smallPayment 0, smallPayment 1] =
        some batch ∧
      TakesLongestRuns paid.system.nonce [smallPayment 0, smallPayment 1] batch) ∧
    ¬ ∃ batch, selectBatch .inserted fresh.system.nonce
        [smallPayment 0, smallPayment 0, smallPayment 1] = some batch ∧
      TakesLongestRuns fresh.system.nonce [smallPayment 0, smallPayment 0, smallPayment 1]
        batch := by
  intro fresh paid
  constructor
  · rintro ⟨batch, hbatch, htakes⟩
    have hnone : selectBatch .inserted paid.system.nonce [smallPayment 0, smallPayment 1] =
        some [] := by decide +kernel
    rw [hnone, Option.some.injEq] at hbatch
    subst hbatch
    obtain ⟨k, ⟨-, hnext⟩, hrange⟩ := htakes.run (smallPayment 1).signer
    have hk := congrArg List.length hrange
    rw [List.length_range'] at hk
    subst hk
    exact hnext (by decide +kernel)
  · rintro ⟨batch, hbatch, htakes⟩
    have hone : selectBatch .inserted fresh.system.nonce
        [smallPayment 0, smallPayment 0, smallPayment 1] = some [smallPayment 0] := by
      decide +kernel
    rw [hone, Option.some.injEq] at hbatch
    subst hbatch
    obtain ⟨k, ⟨-, hnext⟩, hrange⟩ := htakes.run (smallPayment 1).signer
    have hk := congrArg List.length hrange
    have hlen : (Runtime.noncesOf (smallPayment 1).signer [smallPayment 0]).length = 1 := by
      decide +kernel
    rw [hlen, List.length_range'] at hk
    subst hk
    exact hnext (by decide +kernel)

/-! ## The nonces a block leaves -/

namespace Runtime

/-- The entry of an account in the nonce map once these extrinsics were dispatched. -/
def nonceEntry (a : Types.AccountId) (start : Option Types.Nonce) (exts : List Types.Extrinsic) :
    Option Types.Nonce :=
  match (exts.filter fun e => e.signer = a).getLast? with
  | some e => some (e.nonce + 1)
  | none => start

theorem nonceEntry_concat (a : Types.AccountId) (start : Option Types.Nonce)
    (exts : List Types.Extrinsic) (e : Types.Extrinsic) :
    nonceEntry a start (exts ++ [e]) =
      if e.signer = a then some (e.nonce + 1) else nonceEntry a start exts := by
  by_cases h : e.signer = a
  · simp [nonceEntry, h]
  · simp [nonceEntry, h]

theorem nonceEntry_congr {a : Types.AccountId} {exts exts' : List Types.Extrinsic}
    (h : (exts.filter fun e => e.signer = a) = exts'.filter fun e => e.signer = a)
    (start : Option Types.Nonce) : nonceEntry a start exts = nonceEntry a start exts' := by
  rw [nonceEntry, nonceEntry, h]

variable [Ed25519]

/-- A dispatched extrinsic writes the nonce after its own under its signer. -/
theorem ExtrinsicEffect.nonceMap_cases {ext : Types.Extrinsic} {self : Runtime}
    {r : Run Event Runtime Unit} (h : ExtrinsicEffect ext self r) :
    (dispatches r.log = [] ∧ r.state.system = self.system) ∨
      (dispatches r.log = [ext] ∧
        r.state.system.nonceMap = self.system.nonceMap.insert ext.signer (ext.nonce + 1)) := by
  have hcases := h.nonce_cases
  cases h with
  | skipped => exact .inl ⟨rfl, rfl⟩
  | overflowed => exact .inl ⟨rfl, rfl⟩
  | @applied m state res log tail hacc hm hd htail =>
      rcases hcases with ⟨hnone, -⟩ | ⟨hone, -, -⟩
      · simp [Event.dispatching?] at hnone
      · refine .inr ⟨hone, ?_⟩
        have hsucc : m = ext.nonce + 1 := by
          apply BitVec.eq_of_toNat_eq
          have hlt := m.isLt
          rw [BitVec.toNat_add, hm]
          exact (Nat.mod_eq_of_lt (hm ▸ hlt)).symm
        have hsystem := hd.system_eq
        dsimp only at hsystem ⊢
        rw [hsystem, hsucc]
        rfl

/-- Execution leaves in the nonce map what it dispatched. -/
theorem keeps_nonceEntry (a : Types.AccountId) (start : Option Types.Nonce)
    (block : Types.Block) :
    Exec.Keeps (fun self log => self.system.nonceMap[a]? = nonceEntry a start (dispatches log))
      (executeBlock block) := by
  refine keeps_executeBlock ?_ ?_ block
  · intro s n l h
    simpa [Event.dispatching?] using h
  · intro ext s r l heff h
    rcases heff.nonceMap_cases with ⟨hnone, hsystem⟩ | ⟨hone, hmap⟩
    · rw [dispatches_append, hnone, List.append_nil, hsystem]
      exact h
    · rw [dispatches_append, hone, nonceEntry_concat, hmap, OrderedMap.getElem?_insert, h]

theorem nonceMap_executeBlock (block : Types.Block) (self : Runtime) (a : Types.AccountId) :
    (executeBlock block self).state.system.nonceMap[a]? =
      nonceEntry a self.system.nonceMap[a]? (dispatches (executeBlock block self).log) :=
  keeps_nonceEntry a self.system.nonceMap[a]? block self [] rfl

theorem length_dispatches_applyAll_le (n : Types.BlockNumber)
    (exts : List (Types.Extrinsic × ℕ)) (self : Runtime) :
    (dispatches (applyAll n exts self).log).length ≤ exts.length := by
  induction exts generalizing self with
  | nil => exact Nat.le_refl 0
  | cons p exts ih =>
      have hhead : (dispatches (applyIndexed n p self).log).length ≤ 1 := by
        rcases (applyIndexed_effect n p self).nonce_cases with ⟨hnone, -⟩ | ⟨hone, -, -⟩
        · rw [hnone]
          exact Nat.zero_le 1
        · rw [hone, List.length_singleton]
      cases ho : (applyIndexed n p self).outcome with
      | ret u =>
          rw [dispatches_applyAll_cons ho, List.length_append, List.length_cons]
          have hrest := ih (applyIndexed n p self).state
          omega
      | panicked m =>
          rw [applyAll, Exec.each_cons_panicked _ ho, List.length_cons]
          exact Nat.le_trans hhead (Nat.le_add_left 1 _)

/-- If everything is dispatched, every extrinsic passed both checks when it was reached. -/
theorem accepted_of_dispatches_applyAll {n : Types.BlockNumber}
    {exts : List (Types.Extrinsic × ℕ)} {self : Runtime}
    (h : dispatches (applyAll n exts self).log = exts.map Prod.fst) :
    ∀ st ∈ Exec.steps (applyIndexed n) exts self, Accepted st.input.1 st.before := by
  induction exts generalizing self with
  | nil =>
      intro st hst
      cases hst
  | cons p exts ih =>
      have heff := applyIndexed_effect n p self
      cases ho : (applyIndexed n p self).outcome with
      | ret u =>
          rw [dispatches_applyAll_cons ho, List.map_cons] at h
          rw [Exec.steps_cons_ret _ ho, List.forall_mem_cons]
          rcases heff.nonce_cases with ⟨hnone, -⟩ | ⟨hone, hacc, -⟩
          · have hle := length_dispatches_applyAll_le n exts (applyIndexed n p self).state
            rw [hnone, List.nil_append] at h
            rw [h, List.length_cons, List.length_map] at hle
            omega
          · rw [hone, List.singleton_append, List.cons.injEq] at h
            exact ⟨hacc, ih h.2⟩
      | panicked m =>
          rw [applyAll, Exec.each_cons_panicked _ ho, List.map_cons] at h
          rw [Exec.steps_cons_panicked _ ho, List.forall_mem_singleton]
          rcases heff.nonce_cases with ⟨hnone, -⟩ | ⟨-, hacc, -⟩
          · rw [hnone] at h
            cases h
          · exact hacc

theorem accepted_of_dispatches {block : Types.Block} {self : Runtime}
    (h : dispatches (executeBlock block self).log = block.extrinsics) :
    ∀ st ∈ extrinsicSteps block self, Accepted st.input.1 st.before := by
  by_cases hnum : block.header.blockNumber.toNat = self.system.blockNumber.toNat + 1
  · rw [executeBlock_of_next hnum] at h
    rw [extrinsicSteps, if_pos hnum]
    apply accepted_of_dispatches_applyAll
    rw [List.zipIdx_map_fst]
    exact h
  · rw [extrinsicSteps_of_ne hnum]
    intro st hst
    cases hst

end Runtime

namespace Node

variable [Ed25519] {PeerId : Type}

omit [Ed25519] in
theorem mem_pending_of_mem_batch {order : HashOrder} {self : Node PeerId} {e : Types.Extrinsic}
    (h : e ∈ self.batch order) : e ∈ self.mempool.pending :=
  List.mem_of_mem_take ((selected_subperm order _ _).subset h)

/-- The nonces after a block whose extrinsics were all dispatched. -/
theorem nonce_of_dispatches {block : Types.Block} {self rt : Runtime} {log : List Event}
    (hexec : Runtime.executeBlock block self = ⟨.ret (.ok ()), rt, log⟩)
    (hall : dispatches log = block.extrinsics) (s : Types.AccountId) :
    (rt.system.nonce s).toNat =
      (self.system.nonce s).toNat + (block.extrinsics.filter fun e => e.signer = s).length := by
  have hstart : Runtime.Consecutive s (self.system.nonce s).toNat self [] := by
    refine ⟨Nat.le_refl _, ?_⟩
    rw [Nat.sub_self]
    rfl
  have hnow := Runtime.keeps_consecutive s _ block self [] hstart
  rw [hexec] at hnow
  obtain ⟨hle, hlist⟩ := hnow
  have hlen := congrArg List.length hlist
  rw [List.nil_append, hall, Runtime.noncesOf, List.length_map, List.length_range'] at hlen
  dsimp only at hle hlen
  omega

/-- With valid signatures and room for nonces and height, the batch is built into a block that is
accepted and dispatched as a whole. -/
theorem produceBlock_built {self : Node PeerId} (hheight : self.runtime.height < 2 ^ 32 - 1)
    (hverify : ∀ e ∈ self.mempool.pending, e.verify = .ok ())
    (hmax : ∀ e ∈ self.mempool.pending, nonceOf e < 2 ^ 32 - 1) (order : HashOrder) :
    ∃ (block : Types.Block) (rt : Runtime) (log : List Event) (lines : List String),
      Runtime.executeBlock block self.runtime = ⟨.ret (.ok ()), rt, log⟩ ∧
      produceBlock order self = ⟨.ret (), { self.drained with runtime := rt },
        log.map .runtime ++ (lines.map .println ++ [.publish (encode block)])⟩ ∧
      block.extrinsics = self.batch order ∧ dispatches log = block.extrinsics := by
  have hne : ∀ e ∈ self.batch order, e.nonce ≠ BitVec.allOnes 32 := by
    intro e he htop
    have hlt := hmax e (mem_pending_of_mem_batch he)
    rw [nonceOf, htop, BitVec.toNat_allOnes] at hlt
    exact Nat.lt_irrefl _ hlt
  have hroom : self.runtime.height + 1 < 2 ^ 32 := by omega
  obtain ⟨-, hall⟩ := dispatched_produceBlock
    (fun e he => hverify e (mem_pending_of_mem_batch he)) hne hroom
  obtain ⟨block, rt, log, lines, hexts, -, hexec, hrun⟩ := produceBlock_of_fits hne hroom
  rw [hrun, dispatched, runtimeLog_produced] at hall
  exact ⟨block, rt, log, lines, hexec, hrun, hexts, hall.trans hexts.symm⟩

/-- With valid signatures and room for nonces and height, the block built is accepted, every
extrinsic in it passes both checks and is dispatched, the nonces advance by what the block contains,
and the nonce map does not depend on the order of the signers. -/
theorem produceBlock_applies {self : Node PeerId} (hheight : self.runtime.height < 2 ^ 32 - 1)
    (hverify : ∀ e ∈ self.mempool.pending, e.verify = .ok ())
    (hmax : ∀ e ∈ self.mempool.pending, nonceOf e < 2 ^ 32 - 1) (order : HashOrder) :
    ∃ (block : Types.Block) (rt : Runtime) (log : List Event) (lines : List String),
      Runtime.executeBlock block self.runtime = ⟨.ret (.ok ()), rt, log⟩ ∧
      produceBlock order self = ⟨.ret (), { self.drained with runtime := rt },
        log.map .runtime ++ (lines.map .println ++ [.publish (encode block)])⟩ ∧
      dispatches log = block.extrinsics ∧
      (∀ st ∈ Runtime.extrinsicSteps block self.runtime,
        Runtime.Accepted st.input.1 st.before) ∧
      (∀ s, (rt.system.nonce s).toNat = (self.runtime.system.nonce s).toNat +
        (block.extrinsics.filter fun e => e.signer = s).length) ∧
      ∀ order', (produceBlock order' self).state.runtime.system.nonceMap =
        rt.system.nonceMap := by
  have hentry : ∀ order (a : Types.AccountId),
      (produceBlock order self).state.runtime.system.nonceMap[a]? =
        Runtime.nonceEntry a self.runtime.system.nonceMap[a]? (self.batch order) := by
    intro order a
    obtain ⟨block, rt, log, lines, hexec, hrun, hexts, hall⟩ :=
      produceBlock_built hheight hverify hmax order
    have hmap := Runtime.nonceMap_executeBlock block self.runtime a
    rw [hexec] at hmap
    rw [hrun, ← hexts, ← hall]
    exact hmap
  obtain ⟨block, rt, log, lines, hexec, hrun, -, hall⟩ :=
    produceBlock_built hheight hverify hmax order
  refine ⟨block, rt, log, lines, hexec, hrun, hall, ?_, nonce_of_dispatches hexec hall, ?_⟩
  · apply Runtime.accepted_of_dispatches
    rw [hexec]
    exact hall
  · intro order'
    apply ExtTreeMap.ext_getElem?
    intro a
    -- whatever the order, the batch holds the same extrinsics of one account
    have hsame : ((self.batch order').filter fun e => e.signer = a) =
        (self.batch order).filter fun e => e.signer = a := by
      rw [batch, batch, selected_filter, selected_filter]
    calc (produceBlock order' self).state.runtime.system.nonceMap[a]?
        = Runtime.nonceEntry a self.runtime.system.nonceMap[a]? (self.batch order') :=
          hentry order' a
      _ = Runtime.nonceEntry a self.runtime.system.nonceMap[a]? (self.batch order) :=
          Runtime.nonceEntry_congr hsame _
      _ = (produceBlock order self).state.runtime.system.nonceMap[a]? := (hentry order a).symm
      _ = rt.system.nonceMap[a]? := by rw [hrun]

end Node

/-- A pool with a gap, a duplicate and nothing of the other accounts. -/
theorem produceBlock_applies_paymentsNode :
    let := Ed25519.transparent
    let node := paymentsNode [1, 0, 1, 3]
    node.runtime.height < 2 ^ 32 - 1 ∧ ∃ (block : Types.Block) (rt : Runtime) (log : List Event)
      (lines : List String),
      Runtime.executeBlock block node.runtime = ⟨.ret (.ok ()), rt, log⟩ ∧
      Node.produceBlock .inserted node = ⟨.ret (), { node.drained with runtime := rt },
        log.map .runtime ++ (lines.map .println ++ [.publish (encode block)])⟩ ∧
      dispatches log = block.extrinsics ∧
      (∀ st ∈ Runtime.extrinsicSteps block node.runtime,
        Runtime.Accepted st.input.1 st.before) ∧
      (∀ s, (rt.system.nonce s).toNat = (node.runtime.system.nonce s).toNat +
        (block.extrinsics.filter fun e => e.signer = s).length) ∧
      ∀ order', (Node.produceBlock order' node).state.runtime.system.nonceMap =
        rt.system.nonceMap := by
  intro scheme node
  have hheight : node.runtime.height < 2 ^ 32 - 1 := by decide +kernel
  refine ⟨hheight, Node.produceBlock_applies hheight ?_ ?_ .inserted⟩
  · intro e he
    obtain ⟨nonce, -, rfl⟩ := List.mem_map.mp he
    exact verify_smallPayment nonce
  · decide +kernel

end RustStateMachine
