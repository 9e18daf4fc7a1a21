import RustStateMachine.Inclusion

/-!
# Forged extrinsics in the pool

Selection looks at nonces only, execution at signatures as well. Which
extrinsics the production of a block dispatches, for any pool, and when
inserting extrinsics with bad signatures takes none of them away.
-/

namespace RustStateMachine

open Lib Lib.KeyValue Lib.Runs Std Support

namespace Runtime

variable [Ed25519]

/-- An extrinsic of another signer, or one that is skipped, dispatches nothing of `s` and leaves its
nonce alone. -/
theorem ExtrinsicEffect.unaffected {ext : Types.Extrinsic} {self : Runtime}
    {r : Run Event Runtime Unit} (h : ExtrinsicEffect ext self r) {s : Types.AccountId}
    (hs : ext.signer = s → ¬ Accepted ext self) :
    ((dispatches r.log).filter fun e => e.signer = s) = [] ∧
      r.state.system.nonce s = self.system.nonce s := by
  rcases h.nonce_cases with ⟨hnone, hsystem⟩ | ⟨hone, hacc, hnonce⟩
  · rw [hnone, hsystem]
    exact ⟨rfl, rfl⟩
  · have hne : ext.signer ≠ s := fun heq => hs heq hacc
    refine ⟨by simp [hone, hne], BitVec.eq_of_toNat_eq ?_⟩
    rw [hnonce s, if_neg hne, Nat.add_zero]

/-- Of a signer whose extrinsics all carry nonces ahead of its own, none is dispatched. -/
theorem dispatches_applyAll_of_ahead (s : Types.AccountId) (n : Types.BlockNumber)
    (exts : List (Types.Extrinsic × ℕ)) (self : Runtime)
    (h : ∀ p ∈ exts, p.1.signer = s → (self.system.nonce s).toNat < nonceOf p.1) :
    ((dispatches (applyAll n exts self).log).filter fun e => e.signer = s) = [] := by
  induction exts generalizing self with
  | nil => rfl
  | cons p exts ih =>
      rw [List.forall_mem_cons] at h
      have hskip : p.1.signer = s → ¬ Accepted p.1 self := by
        intro hs hacc
        have hlt := h.1 hs
        rw [nonceOf, ← hacc.2, hs] at hlt
        exact Nat.lt_irrefl _ hlt
      obtain ⟨hhead, hnonce⟩ := (applyIndexed_effect n p self).unaffected hskip
      cases ho : (applyIndexed n p self).outcome with
      | ret u =>
          rw [dispatches_applyAll_cons ho, List.filter_append, hhead, List.nil_append]
          apply ih
          rw [hnonce]
          exact h.2
      | panicked m =>
          rw [applyAll, Exec.each_cons_panicked _ ho]
          exact hhead

/-- Of a signer whose nonces continue its own, everything up to the first bad signature is
dispatched. -/
theorem filter_dispatches_applyAll (s : Types.AccountId) (n : Types.BlockNumber)
    (exts : List (Types.Extrinsic × ℕ)) (self : Runtime)
    (hmax : ∀ p ∈ exts, p.1.nonce ≠ BitVec.allOnes 32)
    (hnonces : noncesOf s (exts.map Prod.fst) = List.range' (self.system.nonce s).toNat
      (noncesOf s (exts.map Prod.fst)).length) :
    ((dispatches (applyAll n exts self).log).filter fun e => e.signer = s) =
      ((exts.map Prod.fst).filter fun e => e.signer = s).takeWhile fun e =>
        e.verify = .ok () := by
  induction exts generalizing self with
  | nil => rfl
  | cons p exts ih =>
      rw [List.forall_mem_cons] at hmax
      have heff := applyIndexed_effect n p self
      have hret : (applyIndexed n p self).outcome = .ret () := heff.returns hmax.1
      rw [dispatches_applyAll_cons hret, List.filter_append, List.map_cons]
      rw [List.map_cons, noncesOf_cons] at hnonces
      by_cases hs : p.1.signer = s
      · rw [if_pos hs, List.singleton_append, List.length_cons, List.range'_succ] at hnonces
        obtain ⟨hhead, htail⟩ := List.cons.inj hnonces
        rw [List.filter_cons_of_pos (by simpa using hs)]
        by_cases hv : p.1.verify = .ok ()
        · have hacc : Accepted p.1 self := ⟨hv, BitVec.eq_of_toNat_eq (by rw [hs, hhead])⟩
          obtain ⟨-, hone, hnonce⟩ := heff.of_accepted hacc hmax.1
          have hnext := hnonce s
          rw [if_pos hs] at hnext
          have hrest := ih (applyIndexed n p self).state hmax.2 (by rw [hnext]; exact htail)
          rw [List.takeWhile_cons_of_pos (by simpa using hv), ← hrest, hone,
            List.filter_cons_of_pos (by simpa using hs)]
          rfl
        · -- the first bad signature leaves the nonce behind for good
          obtain ⟨hnone, hnonce⟩ := heff.unaffected (s := s) fun _ hacc => hv hacc.1
          rw [List.takeWhile_cons_of_neg (by simpa using hv), hnone, List.nil_append]
          apply dispatches_applyAll_of_ahead
          intro q hq hqs
          have hmem : nonceOf q.1 ∈ noncesOf s (exts.map Prod.fst) :=
            mem_noncesOf.mpr ⟨q.1, List.mem_map_of_mem hq, hqs, rfl⟩
          rw [htail] at hmem
          rw [hnonce]
          exact (List.mem_range'_1.mp hmem).1
      · rw [if_neg hs, List.nil_append] at hnonces
        obtain ⟨hnone, hnonce⟩ := heff.unaffected fun heq => absurd heq hs
        have hrest := ih (applyIndexed n p self).state hmax.2 (by rw [hnonce]; exact hnonces)
        rw [List.filter_cons_of_neg (by simpa using hs), hnone, List.nil_append, ← hrest]

theorem filter_dispatches_executeBlock {block : Types.Block} {self : Runtime}
    {s : Types.AccountId} (hnum : block.header.blockNumber.toNat = self.height + 1)
    (hmax : ∀ e ∈ block.extrinsics, e.nonce ≠ BitVec.allOnes 32)
    (hnonces : noncesOf s block.extrinsics = List.range' (self.system.nonce s).toNat
      (noncesOf s block.extrinsics).length) :
    ((dispatches (executeBlock block self).log).filter fun e => e.signer = s) =
      (block.extrinsics.filter fun e => e.signer = s).takeWhile fun e => e.verify = .ok () := by
  have hfst : block.extrinsics.zipIdx.map Prod.fst = block.extrinsics := List.zipIdx_map_fst _ _
  rw [executeBlock_of_next hnum]
  have hall := filter_dispatches_applyAll s block.header.blockNumber block.extrinsics.zipIdx
    (self.setBlockNumber block.header.blockNumber)
    (fun p hp => hmax p.1 (List.fst_mem_of_mem_zipIdx hp)) (by rw [hfst]; exact hnonces)
  rw [hfst] at hall
  exact hall

end Runtime

/-! ## What a pool gets dispatched -/

/-- Some signer's run reaches the greatest nonce. -/
def Overflows (nonce : Types.AccountId → Types.Nonce) (pending : List Types.Extrinsic) : Prop :=
  ∃ s, 2 ^ 32 - 1 ∈ Runtime.noncesOf s pending ∧
    (∀ w ∈ Runtime.noncesOf s pending, (nonce s).toNat ≤ w) ∧
    ∀ w, (nonce s).toNat ≤ w → w < 2 ^ 32 - 1 → (Runtime.noncesOf s pending).count w = 1

theorem overflows_iff (order : HashOrder) {nonce : Types.AccountId → Types.Nonce}
    {pending : List Types.Extrinsic} :
    Overflows nonce pending ↔
      ∃ tx ∈ selected order nonce pending, tx.nonce = BitVec.allOnes 32 := by
  constructor
  · rintro ⟨s, h⟩
    obtain ⟨tx, htx, -, htop⟩ :=
      Runtime.mem_noncesOf.mp ((mem_noncesOf_selected order).mpr h)
    exact ⟨tx, htx, BitVec.eq_of_toNat_eq (htop.trans BitVec.toNat_allOnes.symm)⟩
  · rintro ⟨tx, htx, htop⟩
    refine ⟨tx.signer, (mem_noncesOf_selected order).mp ?_⟩
    refine Runtime.mem_noncesOf.mpr ⟨tx, htx, rfl, ?_⟩
    rw [htop, BitVec.toNat_allOnes]

variable [Ed25519]

/-- The extrinsic is validly signed, it is in its signer's run, and every pending extrinsic of its
signer with a smaller nonce is validly signed too. -/
structure Ready (nonce : Types.AccountId → Types.Nonce) (pending : List Types.Extrinsic)
    (e : Types.Extrinsic) : Prop where
  verified : e.verify = .ok ()
  inRun : InRun nonceOf (nonce e.signer).toNat (pending.filter fun f => f.signer = e.signer) e
  before : ∀ f ∈ pending, f.signer = e.signer → nonceOf f < nonceOf e → f.verify = .ok ()

/-- Of one signer, the selected extrinsics in front of the first bad signature are the ready
ones. -/
theorem mem_selected_takeWhile_iff (order : HashOrder) {nonce : Types.AccountId → Types.Nonce}
    {pending : List Types.Extrinsic} {e : Types.Extrinsic} :
    e ∈ ((selected order nonce pending).filter fun f => f.signer = e.signer).takeWhile
        (fun f => f.verify = .ok ()) ↔ Ready nonce pending e := by
  rw [selected_filter, mem_takeWhile_of_pairwise nonceOf (takeRun_pairwise nonceOf _ _)]
  simp only [mem_takeRun nonceOf (sortByNonce_sorted _), inRun_sortByNonce, decide_eq_true_eq]
  constructor
  · rintro ⟨hrun, hverified, hbefore⟩
    refine ⟨hverified, hrun, ?_⟩
    intro f hf hs hlt
    have hmine : f ∈ pending.filter fun f => f.signer = e.signer :=
      List.mem_filter.mpr ⟨hf, decide_eq_true hs⟩
    exact hbefore f (hrun.of_lt hmine hlt) hlt
  · intro hready
    refine ⟨hready.inRun, hready.verified, ?_⟩
    intro f hf hlt
    obtain ⟨hmem, hs⟩ := List.mem_filter.mp hf.mem
    exact hready.before f hmem (of_decide_eq_true hs) hlt

/-- No extrinsic of the same signer with a bad signature carries a smaller nonce, or the same nonce
earlier in the pool. -/
structure Unshadowed (pending : List Types.Extrinsic) (e : Types.Extrinsic) : Prop where
  smaller : ∀ f ∈ pending, f.signer = e.signer → nonceOf f < nonceOf e → f.verify = .ok ()
  first : ∀ f, (pending.filter fun f => f.signer = e.signer).find?
    (fun f => nonceOf f = nonceOf e) = some f → f.verify = .ok ()

/-- Inserted forgeries leave an extrinsic ready exactly when they do not shadow it. -/
theorem ready_inserted_iff {nonce : Types.AccountId → Types.Nonce}
    {pending pending' : List Types.Extrinsic}
    (hins : Inserted (fun f : Types.Extrinsic => f.verify ≠ .ok ()) pending pending')
    {e : Types.Extrinsic} (h : Ready nonce pending e) :
    Ready nonce pending' e ↔ Unshadowed pending' e := by
  constructor
  · intro h'
    refine ⟨h'.before, ?_⟩
    intro f hf
    rw [h'.inRun.first, Option.some.injEq] at hf
    exact hf ▸ h'.verified
  · intro hfree
    have hmine := hins.filter fun f => decide (f.signer = e.signer)
    have hold : ∀ f ∈ pending', f.signer = e.signer → nonceOf f < nonceOf e →
        f ∈ pending.filter fun f => f.signer = e.signer := by
      intro f hf hs hlt
      rcases hmine.mem_or (List.mem_filter.mpr ⟨hf, decide_eq_true hs⟩) with hmem | hforged
      · exact hmem
      · exact absurd (hfree.smaller f hf hs hlt) hforged
    refine ⟨h.verified, ⟨?_, ?_, ?_⟩, hfree.smaller⟩
    · intro f hf
      obtain ⟨hmem, hs⟩ := List.mem_filter.mp hf
      rcases Nat.lt_or_ge (nonceOf f) (nonceOf e) with hlt | hge
      · exact h.inRun.ge f (hold f hmem (of_decide_eq_true hs) hlt)
      · exact Nat.le_trans (h.inRun.ge e h.inRun.mem) hge
    · intro v hv hlt
      have hcount := h.inRun.once v hv hlt
      rw [List.count_eq_countP, List.countP_map, List.countP_eq_length_filter] at hcount ⊢
      rw [hmine.filter_eq, hcount]
      intro f hf hforged
      obtain ⟨hmem, hs⟩ := List.mem_filter.mp hf
      rw [Function.comp_apply, beq_eq_false_iff_ne]
      intro hfv
      exact hforged (hfree.smaller f hmem (of_decide_eq_true hs) (hfv ▸ hlt))
    · have hmem : e ∈ pending'.filter fun f => f.signer = e.signer :=
        hmine.sublist.subset h.inRun.mem
      obtain ⟨f, hf⟩ : ∃ f, (pending'.filter fun f => f.signer = e.signer).find?
          (fun f => nonceOf f = nonceOf e) = some f := by
        rw [← Option.isSome_iff_exists, List.find?_isSome]
        exact ⟨e, hmem, decide_eq_true rfl⟩
      have hsame := hmine.find?_eq hf fun hforged => hforged (hfree.first f hf)
      rw [h.inRun.first, Option.some.injEq] at hsame
      rw [hf, hsame]

namespace Node

variable {PeerId : Type}

/-- Neither the height nor a nonce overflows when a block is made of the whole pool. -/
def HasRoom (self : Node PeerId) : Prop :=
  self.runtime.height + 1 < 2 ^ 32 ∧
    ¬ Overflows self.runtime.system.nonce self.mempool.pending

/-- The same node with another pool. -/
def withPending (self : Node PeerId) (pending : List Types.Extrinsic) : Node PeerId :=
  { self with mempool := { self.mempool with pending } }

/-- A pool that fits one block gets exactly its ready extrinsics dispatched. -/
theorem mem_dispatched_produceBlock (order : HashOrder) (self : Node PeerId)
    (hlimit : self.mempool.pending.length ≤ self.limit) {e : Types.Extrinsic} :
    e ∈ dispatched (produceBlock order self).log ↔
      self.HasRoom ∧ Ready self.runtime.system.nonce self.mempool.pending e := by
  have hcands : self.candidates = self.mempool.pending := List.take_of_length_le hlimit
  have hbatch : self.batch order =
      selected order self.runtime.system.nonce self.mempool.pending := by
    rw [batch, hcands]
  have hover : Overflows self.runtime.system.nonce self.mempool.pending ↔
      ∃ tx ∈ selected order self.runtime.system.nonce self.mempool.pending,
        tx.nonce = BitVec.allOnes 32 := overflows_iff order
  rw [← hbatch] at hover
  have heff := produceBlock_effect order self
  generalize produceBlock order self = r at heff ⊢
  cases heff with
  | overflowed h =>
      constructor
      · intro he
        cases he
      · rintro ⟨⟨-, hroom⟩, -⟩
        exact absurd (hover.mpr h) hroom
  | atMaxHeight _ h =>
      constructor
      · intro he
        cases he
      · rintro ⟨⟨hroom, -⟩, -⟩
        rw [Runtime.height, h, BitVec.toNat_allOnes] at hroom
        exact absurd hroom (by omega)
  | @produced block rt log lines hmax hnum hexts hexec =>
      have hroom : self.HasRoom := by
        constructor
        · rw [← hnum]
          exact block.header.blockNumber.isLt
        · intro h
          obtain ⟨tx, htx, htop⟩ := hover.mp h
          exact hmax tx htx htop
      have hall := Runtime.filter_dispatches_executeBlock (s := e.signer) hnum
        (hexts ▸ hmax) (hexts ▸ noncesOf_selected order _ self.candidates e.signer)
      rw [hexec, hexts, hbatch] at hall
      dsimp only at hall
      have hmem : e ∈ dispatches log ↔
          e ∈ (dispatches log).filter fun f => f.signer = e.signer := by
        rw [List.mem_filter]
        simp
      rw [dispatched, runtimeLog_produced, hmem, hall, mem_selected_takeWhile_iff]
      constructor
      · intro hready
        exact ⟨hroom, hready⟩
      · intro h
        exact h.2

/-- Extrinsics with bad signatures, inserted into a pool that still fits one block, take away none
of what is dispatched exactly when they shadow no ready extrinsic and complete no run up to the
greatest nonce. -/
theorem forged_inert_iff {self : Node PeerId} {pending : List Types.Extrinsic}
    (hins : Inserted (fun f : Types.Extrinsic => f.verify ≠ .ok ()) self.mempool.pending pending)
    (hlimit : pending.length ≤ self.limit) (order order' : HashOrder) :
    (∀ e ∈ dispatched (produceBlock order self).log,
        e ∈ dispatched (produceBlock order' (self.withPending pending)).log) ↔
      (self.HasRoom → ∀ e, Ready self.runtime.system.nonce self.mempool.pending e →
        Unshadowed pending e ∧ ¬ Overflows self.runtime.system.nonce pending) := by
  have hbefore : ∀ e, e ∈ dispatched (produceBlock order self).log ↔
      self.HasRoom ∧ Ready self.runtime.system.nonce self.mempool.pending e :=
    fun e => mem_dispatched_produceBlock order self (hins.sublist.length_le.trans hlimit)
  have hafter : ∀ e, e ∈ dispatched (produceBlock order' (self.withPending pending)).log ↔
      (self.withPending pending).HasRoom ∧ Ready self.runtime.system.nonce pending e :=
    fun e => mem_dispatched_produceBlock order' (self.withPending pending) hlimit
  simp only [hbefore, hafter]
  constructor
  · intro h hroom e hready
    obtain ⟨⟨-, hover⟩, hready'⟩ := h e ⟨hroom, hready⟩
    exact ⟨(ready_inserted_iff hins hready).mp hready', hover⟩
  · rintro h e ⟨hroom, hready⟩
    obtain ⟨hfree, hover⟩ := h hroom e hready
    exact ⟨⟨hroom.1, hover⟩, (ready_inserted_iff hins hready).mpr hfree⟩

end Node

/-- A payment in Alice's name without her signature. -/
def forgedPayment (nonce : Types.Nonce) : Types.Extrinsic :=
  { smallPayment nonce with signature := Vector.replicate 64 0 }

omit [Ed25519] in
theorem verify_forgedPayment :
    @UncheckedExtrinsic.verify _ _ .transparent (forgedPayment 0) ≠ .ok () := by
  decide +kernel

omit [Ed25519] in
/-- A forgery behind the payment whose nonce it copies takes nothing away. -/
theorem forged_inert_paymentsNode :
    let := Ed25519.transparent
    let node := paymentsNode [0]
    let pending := [smallPayment 0, forgedPayment 0]
    Inserted (fun f : Types.Extrinsic => f.verify ≠ .ok ()) node.mempool.pending pending ∧
      ∀ order order', ∀ e ∈ Node.dispatched (Node.produceBlock order node).log,
        e ∈ Node.dispatched (Node.produceBlock order' (node.withPending pending)).log := by
  intro scheme node pending
  have hins : Inserted (fun f : Types.Extrinsic => f.verify ≠ .ok ()) node.mempool.pending
      pending := .keep _ (.insert verify_forgedPayment .nil)
  refine ⟨hins, ?_⟩
  intro order order'
  apply (Node.forged_inert_iff hins (by decide) order order').mpr
  intro _ e hready
  have he : e = smallPayment 0 :=
    List.mem_singleton.mp (List.mem_filter.mp hready.inRun.mem).1
  subst he
  refine ⟨⟨?_, ?_⟩, ?_⟩
  · intro f _ _ hlt
    exact absurd hlt (Nat.not_lt_zero _)
  · have hfirst : (pending.filter fun f => f.signer = (smallPayment 0).signer).find?
        (fun f => nonceOf f = nonceOf (smallPayment 0)) = some (smallPayment 0) := by
      decide +kernel
    intro f hf
    rw [hfirst, Option.some.injEq] at hf
    exact hf ▸ verify_smallPayment 0
  · rintro ⟨s, hmem, -⟩
    obtain ⟨f, hf, -, htop⟩ := Runtime.mem_noncesOf.mp hmem
    have hne : ∀ f ∈ pending, nonceOf f ≠ 2 ^ 32 - 1 := by decide +kernel
    exact hne f hf htop

omit [Ed25519] in
/-- A forgery in front of the payment whose nonce it copies keeps that payment out of the block. -/
theorem forged_takes_payment_away :
    let := Ed25519.transparent
    let node := paymentsNode [0]
    let pending := [forgedPayment 0, smallPayment 0]
    Inserted (fun f : Types.Extrinsic => f.verify ≠ .ok ()) node.mempool.pending pending ∧
      pending.length ≤ node.limit ∧
      ¬ ∀ e ∈ Node.dispatched (Node.produceBlock .inserted node).log,
        e ∈ Node.dispatched (Node.produceBlock .inserted (node.withPending pending)).log := by
  intro scheme node pending
  refine ⟨.insert verify_forgedPayment (.keep _ .nil), by decide, ?_⟩
  intro hkept
  have hbatch : node.batch .inserted = [smallPayment 0] := by decide +kernel
  have hverify : ∀ e ∈ node.batch .inserted, e.verify = .ok () := by
    rw [hbatch, List.forall_mem_singleton]
    exact verify_smallPayment 0
  have hmax : ∀ e ∈ node.batch .inserted, e.nonce ≠ BitVec.allOnes 32 := by
    rw [hbatch]
    decide +kernel
  obtain ⟨-, hall⟩ := Node.dispatched_produceBlock hverify hmax (by decide +kernel)
  have hlost := hkept (smallPayment 0) (by
    rw [hall, hbatch]
    exact List.mem_singleton_self _)
  have hforged : (node.withPending pending).batch .inserted = [forgedPayment 0] := by
    decide +kernel
  have hmem := (Node.of_mem_dispatched_produceBlock hlost).1
  rw [hforged, List.mem_singleton] at hmem
  exact absurd hmem (by decide +kernel)

end RustStateMachine
