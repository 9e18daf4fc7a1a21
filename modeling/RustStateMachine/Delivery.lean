import RustStateMachine.Node

/-!
# Delivery of a chain of blocks

A node that receives the blocks of a chain in some order, with omissions and
repetitions, counts every delivery but applies only the block after its height.
Its state is that of the chain up to its height exactly as long as each delivery
is the next block, or the next block would have changed nothing.
-/

namespace RustStateMachine

open Lib Lib.KeyValue Std Support

namespace Runtime

variable [Ed25519]

/-- No extrinsic of the block passes both checks. -/
def Inert (block : Types.Block) (self : Runtime) : Prop :=
  ∀ ext ∈ block.extrinsics, ¬ Accepted ext self

/-- A pass over extrinsics ends where it began exactly when it accepts none of them. -/
theorem applyAll_unchanged_iff (n : Types.BlockNumber) (exts : List (Types.Extrinsic × ℕ))
    (self : Runtime) :
    ((applyAll n exts self).outcome = .ret () ∧ (applyAll n exts self).state = self) ↔
      ∀ p ∈ exts, ¬ Accepted p.1 self := by
  induction exts with
  | nil => simp [applyAll]
  | cons p exts ih =>
      have heff := applyIndexed_effect n p self
      rw [List.forall_mem_cons]
      generalize hr : applyIndexed n p self = r at heff
      cases heff with
      | skipped text hacc =>
          have hout : (applyIndexed n p self).outcome = .ret () := by rw [hr]
          have hcons := Exec.each_cons_ret (applyIndexed n) hout exts
          rw [hr] at hcons
          rw [applyAll, hcons, and_iff_right hacc, ← ih]
          rfl
      | overflowed hacc hmax =>
          have hout : (applyIndexed n p self).outcome = .panicked System.unwrapNone := by rw [hr]
          have hcons := Exec.each_cons_panicked (applyIndexed n) hout exts
          rw [applyAll, hcons]
          constructor
          · rintro ⟨hret, -⟩
            cases hret
          · intro h
            exact absurd hacc h.1
      | @applied m state res log tail hacc hm hd htail =>
          constructor
          · rintro ⟨-, hstate⟩
            exfalso
            have hout : (applyIndexed n p self).outcome = .ret () := by rw [hr]
            have hcons := Exec.each_cons_ret (applyIndexed n) hout exts
            rw [hr] at hcons
            rw [applyAll, hcons] at hstate
            have hnonce : (state.system.nonce p.1.signer).toNat =
                (self.system.nonce p.1.signer).toNat + 1 := by
              have hsystem := hd.system_eq
              dsimp only at hsystem
              rw [hsystem, setNonce_nonce, if_pos rfl, hm, ← hacc.2]
            have hle := applyAll_nonce_le n exts state p.1.signer
            have hend : (applyAll n exts state).state = self := hstate
            rw [hend, hnonce] at hle
            exact absurd hle (Nat.not_succ_le_self _)
          · intro h
            exact absurd hacc h.1

/-- Executing the next block only raises the height exactly when that block is inert. -/
theorem executeBlock_eq_setBlockNumber_iff {block : Types.Block} {self : Runtime}
    (h : block.header.blockNumber.toNat = self.height + 1) :
    ((executeBlock block self).outcome.Returns ∧
      (executeBlock block self).state = self.setBlockNumber block.header.blockNumber) ↔
      Inert block self := by
  have hloop := applyAll_unchanged_iff block.header.blockNumber block.extrinsics.zipIdx
    (self.setBlockNumber block.header.blockNumber)
  rw [executeBlock_of_next h]
  dsimp only
  rw [Outcome.returns_map]
  constructor
  · rintro ⟨hret, hstate⟩ ext hext hacc
    have hunit : (applyAll block.header.blockNumber block.extrinsics.zipIdx
        (self.setBlockNumber block.header.blockNumber)).outcome = .ret () := by
      generalize (applyAll block.header.blockNumber block.extrinsics.zipIdx
        (self.setBlockNumber block.header.blockNumber)).outcome = o at hret
      cases o with
      | ret u => rfl
      | panicked m => exact absurd hret (Outcome.not_returns_panicked m)
    obtain ⟨i, hi, rfl⟩ := List.mem_iff_getElem.mp hext
    have hmem : (block.extrinsics[i], i) ∈ block.extrinsics.zipIdx :=
      List.mk_mem_zipIdx_iff_getElem?.mpr (List.getElem?_eq_getElem hi)
    exact hloop.mp ⟨hunit, hstate⟩ _ hmem hacc
  · intro hinert
    have hnone : ∀ p ∈ block.extrinsics.zipIdx,
        ¬ Accepted p.1 (self.setBlockNumber block.header.blockNumber) := by
      intro p hp
      exact hinert p.1 (List.fst_mem_of_mem_zipIdx hp)
    obtain ⟨hret, hstate⟩ := hloop.mpr hnone
    rw [hret]
    exact ⟨trivial, hstate⟩

end Runtime

/-! ## Deliveries to a node -/

section Deliveries

variable [Ed25519] {PeerId : Type}

/-- The headers of the chain carry the numbers after the height of the starting state. -/
def IsChain (start : Runtime) (chain : List Types.Block) : Prop :=
  (chain.map fun b => b.header.blockNumber.toNat) =
    List.range' (start.height + 1) chain.length

/-- The chain executed once, in order, up to a height. -/
def reference (start : Runtime) (chain : List Types.Block) (h : ℕ) : Run Event Runtime Unit :=
  Exec.each Runtime.executeBlock (chain.take (h - start.height)) start

/-- The state is the one the chain reaches at its height, if the chain goes that far. -/
def FollowsChain (start : Runtime) (chain : List Types.Block) (rt : Runtime) : Prop :=
  start.height ≤ rt.height → rt.height ≤ start.height + chain.length →
    (reference start chain rt.height).outcome = .ret () ∧
      (reference start chain rt.height).state = rt

/-- The block is the next one of the chain, or the next one is inert, or the chain is over. -/
def InStep (start : Runtime) (chain : List Types.Block) (block : Types.Block) (rt : Runtime) :
    Prop :=
  ∀ next, chain[rt.height - start.height]? = some next → block = next ∨ Runtime.Inert next rt

/-- Blocks handled one after the other by the peer-block branch. -/
def deliver (ds : List Types.Block) : Exec NodeEvent (Node PeerId) Unit :=
  Exec.each Node.receiveBlock ds

/-- Every delivery is in step with the runtime it reaches. -/
def AllInStep (start : Runtime) (chain ds : List Types.Block) (node : Node PeerId) : Prop :=
  ∀ st ∈ Exec.steps Node.receiveBlock ds node, InStep start chain st.input st.before.runtime

omit [Ed25519] in
theorem IsChain.header {start : Runtime} {chain : List Types.Block} (h : IsChain start chain)
    {i : ℕ} {block : Types.Block} (hi : chain[i]? = some block) :
    block.header.blockNumber.toNat = start.height + 1 + i := by
  have hmap := congrArg (·[i]?) h
  have hlt : i < chain.length := (List.getElem?_eq_some_iff.mp hi).1
  simpa [hi, List.getElem?_range' hlt] using hmap

/-- The reference run goes on with the next block of the chain. -/
theorem reference_succ {start : Runtime} {chain : List Types.Block} {rt : Runtime}
    (hle : start.height ≤ rt.height)
    (href : (reference start chain rt.height).outcome = .ret () ∧
      (reference start chain rt.height).state = rt)
    {next : Types.Block} (hnext : chain[rt.height - start.height]? = some next) (rt' : Runtime) :
    (reference start chain (rt.height + 1)).outcome = .ret () ∧
        (reference start chain (rt.height + 1)).state = rt' ↔
      (Runtime.executeBlock next rt).outcome.Returns ∧
        (Runtime.executeBlock next rt).state = rt' := by
  have hidx : rt.height + 1 - start.height = (rt.height - start.height) + 1 := by omega
  have htake : chain.take (rt.height - start.height + 1) =
      chain.take (rt.height - start.height) ++ [next] := by
    rw [List.take_add_one, hnext]
    rfl
  have hsucc : reference start chain (rt.height + 1) =
      (Exec.each Runtime.executeBlock [next] rt).prepend (reference start chain rt.height).log := by
    rw [reference, hidx, htake, Exec.each_append]
    change (reference start chain rt.height).andThen _ = _
    rw [Run.andThen, href.1, href.2]
  rw [hsucc]
  cases ho : (Runtime.executeBlock next rt).outcome with
  | ret res => simp [Exec.each_cons_ret _ ho]
  | panicked m => simp [Exec.each_cons_panicked _ ho]

omit [Ed25519] in
/-- Two blocks of a chain with one number are the same block. -/
theorem IsChain.eq_of_blockNumber_eq {start : Runtime} {chain : List Types.Block}
    (h : IsChain start chain) {block block' : Types.Block} (hmem : block ∈ chain)
    (hmem' : block' ∈ chain) (hsame : block.header.blockNumber = block'.header.blockNumber) :
    block = block' := by
  obtain ⟨i, hi⟩ := List.getElem?_of_mem hmem
  obtain ⟨j, hj⟩ := List.getElem?_of_mem hmem'
  have hnum := h.header hi
  rw [hsame, h.header hj] at hnum
  have hij : i = j := by omega
  rw [hij, hj] at hi
  exact (Option.some.inj hi).symm

/-- One delivery from a state on the chain leads to a state on the chain exactly when it is in
step. -/
theorem followsChain_executeBlock_iff {start : Runtime} {chain : List Types.Block}
    (hchain : IsChain start chain) {rt : Runtime} (hle : start.height ≤ rt.height)
    (hrt : FollowsChain start chain rt) {block : Types.Block} (hmem : block ∈ chain)
    (hret : (Runtime.executeBlock block rt).outcome.Returns) :
    FollowsChain start chain (Runtime.executeBlock block rt).state ↔
      InStep start chain block rt := by
  have hheight := Runtime.height_executeBlock hret
  cases hnext : chain[rt.height - start.height]? with
  | none =>
      -- past the end of the chain nothing is asked of the state
      have hlen := List.getElem?_eq_none_iff.mp hnext
      constructor
      · intro _ next hsome
        rw [hnext] at hsome
        cases hsome
      · intro _ _ hbound
        omega
  | some next =>
      have hlt := (List.getElem?_eq_some_iff.mp hnext).1
      have hnum : next.header.blockNumber.toNat = rt.height + 1 := by
        rw [hchain.header hnext]
        omega
      have hgoal : FollowsChain start chain (Runtime.executeBlock block rt).state ↔
          (Runtime.executeBlock next rt).outcome.Returns ∧
            (Runtime.executeBlock next rt).state = (Runtime.executeBlock block rt).state := by
        rw [FollowsChain, hheight, ← reference_succ hle (hrt hle (by omega)) hnext]
        constructor
        · intro h
          exact h (by omega) (by omega)
        · intro h _ _
          exact h
      have hin : InStep start chain block rt ↔ block = next ∨ Runtime.Inert next rt := by
        simp [InStep, hnext]
      rw [hgoal, hin]
      by_cases heq : block = next
      · subst heq
        simp [hret]
      · have hother : block.header.blockNumber ≠ next.header.blockNumber := fun hsame =>
          heq (hchain.eq_of_blockNumber_eq hmem (List.mem_of_getElem? hnext) hsame)
        rw [(Runtime.executeBlock_of_other hnum hother).2,
          Runtime.executeBlock_eq_setBlockNumber_iff hnum]
        simp [heq]

theorem followsChain_start (start : Runtime) (chain : List Types.Block) :
    FollowsChain start chain start := by
  intro _ _
  rw [reference, Nat.sub_self, List.take_zero]
  exact ⟨rfl, rfl⟩

/-- A delivery that panics was the next block of the chain, or the chain was over. -/
theorem inStep_of_panicked {start : Runtime} {chain : List Types.Block}
    (hchain : IsChain start chain) {rt : Runtime} (hle : start.height ≤ rt.height)
    {block : Types.Block} (hmem : block ∈ chain)
    (h : ¬ (Runtime.executeBlock block rt).outcome.Returns) : InStep start chain block rt := by
  intro next hnext
  have hnum : next.header.blockNumber.toNat = rt.height + 1 := by
    rw [hchain.header hnext]
    omega
  by_cases hsame : block.header.blockNumber = next.header.blockNumber
  · exact .inl (hchain.eq_of_blockNumber_eq hmem (List.mem_of_getElem? hnext) hsame)
  · exact absurd (Runtime.executeBlock_of_other hnum hsame).1 h

/-- A delivery that is handled raises the height by one. -/
theorem height_receiveBlock {block : Types.Block} {node : Node PeerId}
    (h : (Node.receiveBlock block node).outcome = .ret ()) :
    (Runtime.executeBlock block node.runtime).outcome.Returns ∧
      (Node.receiveBlock block node).state.runtime.height = node.runtime.height + 1 := by
  obtain ⟨hruntime, hreturns⟩ := Node.receiveBlock_runtime block node
  have hret : (Runtime.executeBlock block node.runtime).outcome.Returns := by
    rw [← hreturns, h]
    trivial
  rw [hruntime]
  exact ⟨hret, Runtime.height_executeBlock hret⟩

/-- From a state on the chain, a node stays on the chain exactly while its deliveries are in
step. -/
theorem deliveries_iff {start : Runtime} {chain : List Types.Block} (hchain : IsChain start chain)
    (ds : List Types.Block) (hds : ∀ b ∈ ds, b ∈ chain) (node : Node PeerId)
    (hle : start.height ≤ node.runtime.height) (hnode : FollowsChain start chain node.runtime) :
    (∀ pre, pre <+: ds → (deliver pre node).outcome.Returns →
      FollowsChain start chain (deliver pre node).state.runtime) ↔
    AllInStep start chain ds node := by
  refine Exec.forall_prefix_iff Node.receiveBlock
    (I := fun node => start.height ≤ node.runtime.height)
    (K := fun node => FollowsChain start chain node.runtime)
    (G := fun block node => InStep start chain block node.runtime) ?_ ?_ hle hnode
  · intro block _ node hle hret
    obtain ⟨hruntime, hreturns⟩ := Node.receiveBlock_runtime block node
    rw [hreturns] at hret
    rw [hruntime, Runtime.height_executeBlock hret]
    exact Nat.le_succ_of_le hle
  · intro block hblock node hle hnode
    obtain ⟨hruntime, hreturns⟩ := Node.receiveBlock_runtime block node
    rw [hruntime, hreturns]
    by_cases hret : (Runtime.executeBlock block node.runtime).outcome.Returns
    · rw [← followsChain_executeBlock_iff hchain hle hnode (hds block hblock) hret]
      exact ⟨fun h => h hret, fun h _ => h⟩
    · exact ⟨fun _ => inStep_of_panicked hchain hle (hds block hblock) hret,
        fun _ h => absurd h hret⟩

/-- Deliveries that are all handled never lower the height. -/
theorem height_le_deliveries {ds : List Types.Block} {node : Node PeerId}
    (h : (deliver ds node).outcome.Returns) :
    node.runtime.height ≤ (deliver ds node).state.runtime.height := by
  induction ds generalizing node with
  | nil => exact Nat.le_refl _
  | cons block ds ih =>
      cases ho : (Node.receiveBlock block node).outcome with
      | ret u =>
          have hheight := (height_receiveBlock ho).2
          rw [deliver, Exec.each_cons_ret _ ho] at h ⊢
          calc node.runtime.height
              ≤ (Node.receiveBlock block node).state.runtime.height := by omega
            _ ≤ _ := ih h
      | panicked m =>
          rw [deliver, Exec.each_cons_panicked _ ho] at h
          exact absurd h (Outcome.not_returns_panicked m)

/-- A node that starts with the chain is on the chain after every delivery exactly when every
delivery is in step; two nodes whose deliveries are all in step hold the same state whenever
they report the same height of the chain. -/
theorem same_height_same_state_iff {start : Runtime} {chain : List Types.Block}
    (hchain : IsChain start chain) :
    (∀ (node : Node PeerId) (ds : List Types.Block), node.runtime = start →
      (∀ b ∈ ds, b ∈ chain) →
      ((∀ pre, pre <+: ds → (deliver pre node).outcome.Returns →
        FollowsChain start chain (deliver pre node).state.runtime) ↔
      AllInStep start chain ds node)) ∧
    ∀ (node node' : Node PeerId) (ds ds' : List Types.Block),
      node.runtime = start → node'.runtime = start →
      (∀ b ∈ ds, b ∈ chain) → (∀ b ∈ ds', b ∈ chain) →
      AllInStep start chain ds node → AllInStep start chain ds' node' →
      (deliver ds node).outcome.Returns → (deliver ds' node').outcome.Returns →
      (deliver ds node).state.runtime.height = (deliver ds' node').state.runtime.height →
      (deliver ds node).state.runtime.height ≤ start.height + chain.length →
      (deliver ds node).state.runtime = (deliver ds' node').state.runtime := by
  have hiff : ∀ (node : Node PeerId) (ds : List Types.Block), node.runtime = start →
      (∀ b ∈ ds, b ∈ chain) →
      ((∀ pre, pre <+: ds → (deliver pre node).outcome.Returns →
        FollowsChain start chain (deliver pre node).state.runtime) ↔
      AllInStep start chain ds node) := by
    rintro node ds rfl hds
    exact deliveries_iff hchain ds hds node (Nat.le_refl _) (followsChain_start _ chain)
  constructor
  · exact hiff
  · intro node node' ds ds' hn hn' hds hds' hin hin' hret hret' hheight hbound
    have hfollow := (hiff node ds hn hds).mpr hin ds List.prefix_rfl hret
    have hfollow' := (hiff node' ds' hn' hds').mpr hin' ds' List.prefix_rfl hret'
    have hle := height_le_deliveries hret
    rw [hn] at hle
    rw [FollowsChain, ← hheight] at hfollow'
    rw [← (hfollow hle hbound).2, ← (hfollow' hle hbound).2]

/-- Blocks delivered in order and without gaps are in step. -/
theorem allInStep_in_order {start : Runtime} {chain : List Types.Block} (ds : List Types.Block)
    (i : ℕ) (hds : ds <+: chain.drop i) (node : Node PeerId)
    (hnode : node.runtime.height = start.height + i) : AllInStep start chain ds node := by
  induction ds generalizing i node with
  | nil => exact fun st hst => absurd hst List.not_mem_nil
  | cons block ds ih =>
      obtain ⟨rest, hrest⟩ := hds
      have hblock : chain[i]? = some block := by
        have h := congrArg (·[0]?) hrest
        simpa using h.symm
      have hfirst : InStep start chain block node.runtime := by
        intro next hnext
        rw [hnode, Nat.add_sub_cancel_left, hblock] at hnext
        exact .inl (Option.some.inj hnext)
      cases ho : (Node.receiveBlock block node).outcome with
      | ret u =>
          rw [AllInStep, Exec.steps_cons_ret _ ho, List.forall_mem_cons]
          refine ⟨hfirst, ih (i + 1) ?_ _ ?_⟩
          · refine ⟨rest, ?_⟩
            rw [← List.drop_drop, ← hrest]
            rfl
          · rw [(height_receiveBlock ho).2, hnode, Nat.add_assoc]
      | panicked m =>
          rw [AllInStep, Exec.steps_cons_panicked _ ho, List.forall_mem_singleton]
          exact hfirst

/-- Two blocks after genesis: Alice pays Bob 30 in the first, the second is empty. -/
def paymentChain : List Types.Block :=
  let bob := @AccountKeyring.publicKey .transparent .bob
  [⟨⟨2⟩, [@UncheckedExtrinsic.newSigned _ _ .transparent AccountKeyring.alice.signingKey 0
    (.balances (.transfer bob 30))]⟩, ⟨⟨3⟩, []⟩]

/-- A node right after genesis. -/
def genesisNode : Node ℕ :=
  ⟨0, [0], (@Runtime.maybeApplyGenesis .transparent (Runtime.new ∅)).state,
    Mempool.withBlockLimit 3⟩

omit [Ed25519] in
theorem same_height_same_state_paymentChain :
    @FollowsChain .transparent genesisNode.runtime paymentChain
      (@deliver .transparent ℕ paymentChain genesisNode).state.runtime := by
  have hchain : IsChain genesisNode.runtime paymentChain := by
    unfold IsChain
    decide +kernel
  have hin := @allInStep_in_order .transparent ℕ genesisNode.runtime paymentChain paymentChain 0
    List.prefix_rfl genesisNode rfl
  exact ((@same_height_same_state_iff .transparent ℕ _ _ hchain).1 genesisNode paymentChain rfl
    (fun _ hb => hb)).mpr hin _ List.prefix_rfl (by decide +kernel)

omit [Ed25519] in
/-- The second block delivered first: the node reports height 2 without Alice's payment. -/
theorem skipped_block_diverges :
    let node := (@deliver .transparent ℕ (paymentChain.drop 1) genesisNode).state
    @IsChain genesisNode.runtime paymentChain ∧ node.runtime.height = 2 ∧
      (@reference .transparent genesisNode.runtime paymentChain 2).state.balances.balance
        (@AccountKeyring.publicKey .transparent .bob) ≠
      node.runtime.balances.balance (@AccountKeyring.publicKey .transparent .bob) := by
  unfold IsChain
  decide +kernel

end Deliveries

end RustStateMachine
