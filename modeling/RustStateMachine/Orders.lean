import RustStateMachine.Commutation
import RustStateMachine.Lib.Swaps
import RustStateMachine.Production

/-!
# The order of the signers

A batch is put together signer by signer, in whichever order the hash map is
iterated. Where the extrinsics of different signers do not get in each other's
way, that order never shows in the state of a node.
-/

namespace RustStateMachine

open Lib Lib.KeyValue Lib.Runs Lib.Swaps Std Support

namespace Runtime

/-! ## What an account pays itself -/

/-- The amount that a transfer pays to its own signer. -/
def selfPaid (ext : Types.Extrinsic) : ℕ :=
  match ext.call with
  | .balances (.transfer recipient amount) =>
      if recipient = ext.signer then amount.toNat else 0
  | .proofOfExistence _ => 0

/-- What the extrinsics pay to their own signers. -/
def selfPayments (exts : List Types.Extrinsic) : ℕ := (exts.map selfPaid).sum

theorem selfPayments_append (exts exts' : List Types.Extrinsic) :
    selfPayments (exts ++ exts') = selfPayments exts + selfPayments exts' := by
  rw [selfPayments, List.map_append, List.sum_append]
  rfl

theorem selfPayments_le {exts exts' : List Types.Extrinsic} (h : exts.Subperm exts') :
    selfPayments exts ≤ selfPayments exts' := by
  obtain ⟨l, hperm, hsub⟩ := h
  calc
    selfPayments exts = selfPayments l := ((hperm.map selfPaid).sum_eq).symm
    _ ≤ selfPayments exts' := (hsub.map selfPaid).sum_le_sum fun _ _ => Nat.zero_le _

variable [Ed25519]

theorem minted_le_selfPaid (ext : Types.Extrinsic) (self : Runtime) :
    minted ext self ≤ selfPaid ext := by
  rw [minted, selfPaid]
  split_ifs with hacc
  · cases ext.call with
    | balances call =>
        obtain ⟨recipient, amount⟩ := call
        dsimp only [mintedBy]
        by_cases hself : recipient = ext.signer
        · rw [if_pos hself]
          split_ifs
          · exact le_rfl
          · exact Nat.zero_le _
        · rw [if_neg fun h => hself h.1]
          exact Nat.zero_le _
    | proofOfExistence call => exact le_rfl
  · exact Nat.zero_le _

/-- A pass over extrinsics raises the supply at most by what they pay their own signers. -/
theorem supply_applyAll_le (n : Types.BlockNumber) (exts : List (Types.Extrinsic × ℕ))
    (self : Runtime) :
    supply (applyAll n exts self).state ≤ supply self + selfPayments (exts.map Prod.fst) := by
  have hsum := Exec.each_telescope (applyIndexed n) supply (fun p s => minted p.1 s)
    (fun p s => (applyIndexed_effect n p s).supply_eq) exts self
  have hinputs := (Exec.steps_inputs_prefix (applyIndexed n) exts self).sublist
  rw [applyAll, hsum]
  refine Nat.add_le_add_left ?_ _
  calc
    ((Exec.steps (applyIndexed n) exts self).map fun st => minted st.input.1 st.before).sum ≤
        ((Exec.steps (applyIndexed n) exts self).map fun st => selfPaid st.input.1).sum :=
      List.sum_le_sum fun st _ => minted_le_selfPaid st.input.1 st.before
    _ = selfPayments (((Exec.steps (applyIndexed n) exts self).map (·.input)).map Prod.fst) := by
      rw [selfPayments, List.map_map, List.map_map]
      rfl
    _ ≤ selfPayments (exts.map Prod.fst) := selfPayments_le (hinputs.map Prod.fst).subperm

theorem supply_executeBlock_le (block : Types.Block) (self : Runtime) :
    supply (executeBlock block self).state ≤ supply self + selfPayments block.extrinsics := by
  have heff := executeBlock_effect block self
  generalize executeBlock block self = r at heff ⊢
  cases heff with
  | overflowed => exact Nat.le_add_right _ _
  | rejected => exact Nat.le_add_right _ _
  | executed hn hr =>
      subst hr
      have hle := supply_applyAll_le block.header.blockNumber block.extrinsics.zipIdx
        (self.setBlockNumber block.header.blockNumber)
      rw [List.zipIdx_map_fst] at hle
      exact hle

/-! ## Rearranged extrinsics -/

/-- Extrinsics of different signers that do not get in each other's way. -/
def Unrelated (exts : List Types.Extrinsic) : Prop :=
  ∀ a ∈ exts, ∀ b ∈ exts, a.signer ≠ b.signer → Independent a b

/-- Whether an extrinsic goes through has nothing to do with the height. -/
theorem afterExtrinsic_setBlockNumber (ext : Types.Extrinsic) (self : Runtime)
    (n : Types.BlockNumber) :
    afterExtrinsic ext (self.setBlockNumber n) = (afterExtrinsic ext self).setBlockNumber n := by
  have hacc : Accepted ext (self.setBlockNumber n) ↔ Accepted ext self := Iff.rfl
  rw [afterExtrinsic, afterExtrinsic]
  cases checkedAdd ext.nonce 1 with
  | none => rfl
  | some m =>
      dsimp only
      by_cases h : Accepted ext self
      · rw [if_pos (hacc.mpr h), if_pos h]
        rfl
      · rw [if_neg fun h' => h (hacc.mp h'), if_neg h]

/-- The runtime after some extrinsics, none of which overflows. -/
def afterAll (exts : List Types.Extrinsic) (self : Runtime) : Runtime :=
  exts.foldl (fun s e => afterExtrinsic e s) self

theorem afterAll_append (exts exts' : List Types.Extrinsic) (self : Runtime) :
    afterAll (exts ++ exts') self = afterAll exts' (afterAll exts self) := List.foldl_append

theorem afterAll_setBlockNumber (exts : List Types.Extrinsic) (self : Runtime)
    (n : Types.BlockNumber) :
    afterAll exts (self.setBlockNumber n) = (afterAll exts self).setBlockNumber n := by
  induction exts generalizing self with
  | nil => rfl
  | cons e exts ih =>
      have hrest := ih (afterExtrinsic e self)
      rw [← afterExtrinsic_setBlockNumber] at hrest
      exact hrest

theorem applyAll_eq_afterAll (n : Types.BlockNumber) {exts : List (Types.Extrinsic × ℕ)}
    (hmax : ∀ p ∈ exts, p.1.nonce ≠ BitVec.allOnes 32) (self : Runtime) :
    (applyAll n exts self).outcome = .ret () ∧
      (applyAll n exts self).state = afterAll (exts.map Prod.fst) self := by
  induction exts generalizing self with
  | nil => exact ⟨rfl, rfl⟩
  | cons p exts ih =>
      have hno : ¬ Overflows p.1 self :=
        fun hover => hmax p List.mem_cons_self (overflows_iff.mp hover).2
      obtain ⟨hret, hstate⟩ := applyIndexed_of_not_overflows n p hno
      obtain ⟨hrest, hend⟩ := ih (fun q hq => hmax q (List.mem_cons_of_mem p hq))
        (afterExtrinsic p.1 self)
      rw [applyAll, Exec.each_cons_ret _ hret, hstate]
      exact ⟨hrest, hend⟩

theorem executeBlock_eq_afterAll {block : Types.Block} {self : Runtime}
    (hnum : block.header.blockNumber.toNat = self.height + 1)
    (hmax : ∀ e ∈ block.extrinsics, e.nonce ≠ BitVec.allOnes 32) :
    (executeBlock block self).outcome = .ret (.ok ()) ∧ (executeBlock block self).state =
      (afterAll block.extrinsics self).setBlockNumber block.header.blockNumber := by
  have hhere : ∀ p ∈ block.extrinsics.zipIdx, p.1.nonce ≠ BitVec.allOnes 32 :=
    fun p hp => hmax p.1 (List.fst_mem_of_mem_zipIdx hp)
  obtain ⟨hret, hstate⟩ := applyAll_eq_afterAll block.header.blockNumber hhere
    (self.setBlockNumber block.header.blockNumber)
  rw [executeBlock_of_next hnum]
  dsimp only
  rw [hret, hstate, List.zipIdx_map_fst, afterAll_setBlockNumber]
  exact ⟨rfl, rfl⟩

theorem supply_afterAll_le {exts : List Types.Extrinsic}
    (hmax : ∀ e ∈ exts, e.nonce ≠ BitVec.allOnes 32) (self : Runtime) :
    supply (afterAll exts self) ≤ supply self + selfPayments exts := by
  have hhere : ∀ p ∈ exts.zipIdx, p.1.nonce ≠ BitVec.allOnes 32 :=
    fun p hp => hmax p.1 (List.fst_mem_of_mem_zipIdx hp)
  have hle := supply_applyAll_le 0 exts.zipIdx self
  rw [(applyAll_eq_afterAll 0 hhere self).2, List.zipIdx_map_fst] at hle
  exact hle

/-- Extrinsics of different signers that do not get in each other's way, in any order that keeps
those of each signer in theirs. -/
theorem afterAll_rearranged {exts exts' : List Types.Extrinsic} {self : Runtime}
    (hsame : ∀ a, (exts.filter fun e => e.signer = a) = exts'.filter fun e => e.signer = a)
    (hunrelated : Unrelated exts) (hmax : ∀ e ∈ exts, e.nonce ≠ BitVec.allOnes 32)
    (hsupply : supply self + selfPayments exts < 2 ^ 128) :
    afterAll exts' self = afterAll exts self := by
  refine Rearranged.congr (f := fun l => afterAll l self)
    (rearranged_of_filter (fun e : Types.Extrinsic => e.signer) hsame) ?_
  intro pre post a b hperm hab
  have ha : a ∈ exts := hperm.subset (by simp)
  have hb : b ∈ exts := hperm.subset (by simp)
  have hpre : pre.Subperm exts :=
    (List.sublist_append_left pre _).subperm.trans hperm.subperm
  have hle := supply_afterAll_le (fun e he => hmax e (hpre.subset he)) self
  have hpaid := selfPayments_le hpre
  have hbound : supply (afterAll pre self) < 2 ^ 128 := by omega
  have hcomm := afterExtrinsic_comm (hunrelated a ha b hb hab) hbound
  rw [afterAll_append, afterAll_append]
  exact congrArg (afterAll post) hcomm.symm

/-- Two blocks with the same extrinsics of each signer, in the same order, do the same. -/
theorem executeBlock_rearranged (header : Types.Header) {exts exts' : List Types.Extrinsic}
    {self : Runtime}
    (hsame : ∀ a, (exts.filter fun e => e.signer = a) = exts'.filter fun e => e.signer = a)
    (hunrelated : Unrelated exts) (hmax : ∀ e ∈ exts, e.nonce ≠ BitVec.allOnes 32)
    (hsupply : supply self + selfPayments exts < 2 ^ 128) :
    (executeBlock ⟨header, exts'⟩ self).outcome = (executeBlock ⟨header, exts⟩ self).outcome ∧
      (executeBlock ⟨header, exts'⟩ self).state = (executeBlock ⟨header, exts⟩ self).state := by
  by_cases hnum : header.blockNumber.toNat = self.height + 1
  · have hperm := (rearranged_of_filter (fun e : Types.Extrinsic => e.signer) hsame).perm
    obtain ⟨hout, hstate⟩ := @executeBlock_eq_afterAll _ ⟨header, exts⟩ self hnum hmax
    obtain ⟨hout', hstate'⟩ := @executeBlock_eq_afterAll _ ⟨header, exts'⟩ self hnum
      fun e he => hmax e (hperm.symm.subset he)
    have hend := afterAll_rearranged hsame hunrelated hmax hsupply
    rw [hout, hout', hstate, hstate', hend]
    exact ⟨rfl, rfl⟩
  · rw [executeBlock_congr_of_not_next hnum exts' exts]
    exact ⟨rfl, rfl⟩

/-! ## Chains of blocks -/

/-- The blocks carry the next heights one after the other. -/
def Follows (blocks : List Types.Block) (self : Runtime) : Prop :=
  blocks.map (fun b => b.header.blockNumber.toNat) =
    List.range' (self.height + 1) blocks.length

instance (blocks : List Types.Block) (self : Runtime) : Decidable (Follows blocks self) :=
  inferInstanceAs (Decidable (_ = _))

theorem each_executeBlock_eq_afterAll {blocks : List Types.Block} {self : Runtime}
    (hfollows : Follows blocks self)
    (hmax : ∀ b ∈ blocks, ∀ e ∈ b.extrinsics, e.nonce ≠ BitVec.allOnes 32) :
    (Exec.each executeBlock blocks self).outcome = .ret () ∧
      ∃ n, (Exec.each executeBlock blocks self).state =
        (afterAll (blocks.flatMap Block.extrinsics) self).setBlockNumber n := by
  induction blocks generalizing self with
  | nil => exact ⟨rfl, self.system.blockNumber, rfl⟩
  | cons b blocks ih =>
      rw [Follows, List.map_cons, List.length_cons, List.range'_succ, List.cons.injEq] at hfollows
      obtain ⟨hnum, hrest⟩ := hfollows
      obtain ⟨hout, hnext⟩ := executeBlock_eq_afterAll hnum (hmax b List.mem_cons_self)
      have hfollows' : Follows blocks (executeBlock b self).state := by
        rw [Follows, hnext, height, setBlockNumber_blockNumber, hnum]
        exact hrest
      obtain ⟨hall, n, hend⟩ := ih hfollows' fun c hc => hmax c (List.mem_cons_of_mem b hc)
      rw [Exec.each_cons_ret _ hout]
      refine ⟨hall, n, ?_⟩
      rw [Run.prepend_state, hend, hnext, afterAll_setBlockNumber, List.flatMap_cons,
        afterAll_append]
      rfl

/-- Blocks are only envelopes: two chains from one state that carry the same extrinsics of each
signer, in the same order, leave the same nonces, balances and claims, however the extrinsics are
spread over the blocks and however those of different signers are mixed, if these do not get in each
other's way. -/
theorem blocks_are_envelopes {blocks blocks' : List Types.Block} {self : Runtime}
    (hfollows : Follows blocks self) (hfollows' : Follows blocks' self)
    (hsame : ∀ a, ((blocks.flatMap Block.extrinsics).filter fun e => e.signer = a) =
      (blocks'.flatMap Block.extrinsics).filter fun e => e.signer = a)
    (hunrelated : Unrelated (blocks.flatMap Block.extrinsics))
    (hmax : ∀ e ∈ blocks.flatMap Block.extrinsics, e.nonce ≠ BitVec.allOnes 32)
    (hsupply : supply self + selfPayments (blocks.flatMap Block.extrinsics) < 2 ^ 128) :
    let r := Exec.each executeBlock blocks self
    let r' := Exec.each executeBlock blocks' self
    r.outcome = .ret () ∧ r'.outcome = .ret () ∧
      r'.state.system.nonceMap = r.state.system.nonceMap ∧
      r'.state.balances = r.state.balances ∧
      r'.state.proofOfExistence = r.state.proofOfExistence := by
  have hperm := (rearranged_of_filter (fun e : Types.Extrinsic => e.signer) hsame).perm
  obtain ⟨hret, n, hend⟩ := each_executeBlock_eq_afterAll hfollows fun b hb e he =>
    hmax e (List.mem_flatMap.mpr ⟨b, hb, he⟩)
  obtain ⟨hret', n', hend'⟩ := each_executeBlock_eq_afterAll hfollows' fun b hb e he =>
    hmax e (hperm.symm.subset (List.mem_flatMap.mpr ⟨b, hb, he⟩))
  rw [afterAll_rearranged hsame hunrelated hmax hsupply] at hend'
  intro r r'
  refine ⟨hret, hret', ?_⟩
  rw [hend, hend']
  exact ⟨rfl, rfl, rfl⟩

omit [Ed25519] in
theorem unrelated_commonPayments : Unrelated [commonPayments.1, commonPayments.2] := by
  have hsigners : commonPayments.1.signer ≠ commonPayments.2.signer := by decide +kernel
  have hrecipient : ∀ r amount, (commonPayments.1.call = .balances (.transfer r amount) ∨
      commonPayments.2.call = .balances (.transfer r amount)) →
        r ≠ commonPayments.1.signer ∧ r ≠ commonPayments.2.signer := by
    rintro _ _ (⟨⟨⟩⟩ | ⟨⟨⟩⟩)
    · decide +kernel
    · decide +kernel
  have hind : Independent commonPayments.1 commonPayments.2 :=
    ⟨hsigners, fun r x h => (hrecipient r x (.inl h)).2, fun r x h => (hrecipient r x (.inr h)).1,
      fun _ _ h => nomatch h⟩
  have hind' : Independent commonPayments.2 commonPayments.1 :=
    ⟨hsigners.symm, hind.recipients', hind.recipients, fun _ _ h => nomatch h⟩
  intro a ha b hb hne
  simp only [List.mem_cons, List.not_mem_nil, or_false] at ha hb
  rcases ha with rfl | rfl
  · rcases hb with rfl | rfl
    · exact absurd rfl hne
    · exact hind
  · rcases hb with rfl | rfl
    · exact hind'
    · exact absurd rfl hne

omit [Ed25519] in
/-- The two payments in one block, and in two blocks the other way round. -/
theorem blocks_are_envelopes_commonPayments :
    let := Ed25519.transparent
    let genesis := (maybeApplyGenesis (Runtime.new ∅)).state
    let r := Exec.each executeBlock [⟨⟨2⟩, [commonPayments.1, commonPayments.2]⟩] genesis
    let r' := Exec.each executeBlock [⟨⟨2⟩, [commonPayments.2]⟩, ⟨⟨3⟩, [commonPayments.1]⟩] genesis
    r'.state.balances = r.state.balances ∧ r'.state.height = 3 := by
  intro scheme genesis r r'
  have hsigners : commonPayments.1.signer ≠ commonPayments.2.signer := by decide +kernel
  have hsame : ∀ a, ([commonPayments.1, commonPayments.2].filter fun e => e.signer = a) =
      [commonPayments.2, commonPayments.1].filter fun e => e.signer = a := by
    intro a
    by_cases ha : commonPayments.1.signer = a
    · subst ha
      simp [hsigners.symm]
    · by_cases hb : commonPayments.2.signer = a
      · subst hb
        simp [hsigners]
      · simp [ha, hb]
  have hmax : ∀ e ∈ [commonPayments.1, commonPayments.2], e.nonce ≠ BitVec.allOnes 32 := by
    decide +kernel
  have hsupply : supply genesis + selfPayments [commonPayments.1, commonPayments.2] < 2 ^ 128 := by
    decide +kernel
  have hsplit := @blocks_are_envelopes _ [⟨⟨2⟩, [commonPayments.1, commonPayments.2]⟩]
    [⟨⟨2⟩, [commonPayments.2]⟩, ⟨⟨3⟩, [commonPayments.1]⟩] genesis (by decide +kernel)
    (by decide +kernel) hsame unrelated_commonPayments hmax hsupply
  exact ⟨hsplit.2.2.2.1, by decide +kernel⟩

end Runtime

/-! ## One node -/

open RustStateMachine.Runtime

namespace Node

variable {PeerId : Type}

/-- Two orders take the same extrinsics of each signer. -/
theorem batch_filter (order order' : HashOrder) (self : Node PeerId) (a : Types.AccountId) :
    ((self.batch order).filter fun e => e.signer = a) =
      (self.batch order').filter fun e => e.signer = a := by
  have hrun := fun o : HashOrder => selected_filter o self.runtime.system.nonce self.candidates a
  exact (hrun order).trans (hrun order').symm

theorem batch_perm (order order' : HashOrder) (self : Node PeerId) :
    (self.batch order).Perm (self.batch order') :=
  (rearranged_of_filter (fun e : Types.Extrinsic => e.signer)
    (batch_filter order order' self)).perm

theorem batch_subperm (order : HashOrder) (self : Node PeerId) :
    (self.batch order).Subperm self.candidates :=
  selected_subperm order self.runtime.system.nonce self.candidates

variable [Ed25519]

/-- The production of a block leaves the same node, in whichever order the signers come. -/
theorem produceBlock_order (order order' : HashOrder) {self : Node PeerId}
    (hunrelated : Unrelated self.candidates)
    (hsupply : supply self.runtime + selfPayments self.candidates < 2 ^ 128) :
    (produceBlock order' self).outcome = (produceBlock order self).outcome ∧
      (produceBlock order' self).state = (produceBlock order self).state := by
  have hperm := batch_perm order order' self
  have hsame : (∀ tx ∈ self.batch order', tx.nonce ≠ BitVec.allOnes 32) ↔
      ∀ tx ∈ self.batch order, tx.nonce ≠ BitVec.allOnes 32 :=
    forall_congr' fun tx => imp_congr_left hperm.mem_iff.symm
  by_cases hbatch : ∀ tx ∈ self.batch order, tx.nonce ≠ BitVec.allOnes 32
  · by_cases hmax : self.runtime.system.blockNumber = BitVec.allOnes 32
    · rw [produceBlock_of_max hbatch hmax, produceBlock_of_max (hsame.mpr hbatch) hmax]
      exact ⟨rfl, rfl⟩
    · have hheight := Runtime.height_lt_of_ne hmax
      obtain ⟨⟨⟨number⟩, exts⟩, rt, log, lines, hexts, hnum, hexec, hrun⟩ :=
        produceBlock_of_fits hbatch hheight
      obtain ⟨⟨⟨number'⟩, exts'⟩, rt', log', lines', hexts', hnum', hexec', hrun'⟩ :=
        produceBlock_of_fits (hsame.mpr hbatch) hheight
      dsimp only at hnum hnum' hexts hexts'
      subst hexts hexts'
      obtain rfl : number = number' := BitVec.eq_of_toNat_eq (hnum.trans hnum'.symm)
      have hsubset := (batch_subperm order self).subset
      have hunrelated' : Unrelated (self.batch order) :=
        fun a ha b hb => hunrelated a (hsubset ha) b (hsubset hb)
      have hpaid := selfPayments_le (batch_subperm order self)
      have hbound : supply self.runtime + selfPayments (self.batch order) < 2 ^ 128 := by omega
      obtain ⟨-, hstate⟩ := executeBlock_rearranged ⟨number⟩ (batch_filter order order' self)
        hunrelated' hbatch hbound
      rw [hexec, hexec'] at hstate
      rw [hrun, hrun']
      dsimp only at hstate ⊢
      rw [hstate]
      exact ⟨rfl, rfl⟩
  · rw [produceBlock_of_overflow hbatch, produceBlock_of_overflow (mt hsame.mp hbatch)]
    exact ⟨rfl, rfl⟩

end Node

/-! ## Runs of a node -/

/-- What reaches the task of a node: an extrinsic, a block of a peer, or a tick in a slot, with the
order in which a batch is put together then. -/
inductive Activity where
  | arrive (ext : Types.Extrinsic)
  | peerBlock (block : Types.Block)
  | tick (slot : ℕ) (order : HashOrder)

namespace Activity

/-- The same, up to the order of the signers. -/
inductive Alike : Activity → Activity → Prop
  | arrive (ext : Types.Extrinsic) : Alike (.arrive ext) (.arrive ext)
  | peerBlock (block : Types.Block) : Alike (.peerBlock block) (.peerBlock block)
  | tick (slot : ℕ) (order order' : HashOrder) : Alike (.tick slot order) (.tick slot order')

/-- What may come to be pending. -/
def arrivals : Activity → List Types.Extrinsic
  | .arrive ext => [ext]
  | .peerBlock _ => []
  | .tick _ _ => []

/-- What may come to be executed. -/
def brought : Activity → List Types.Extrinsic
  | .arrive ext => [ext]
  | .peerBlock block => block.extrinsics
  | .tick _ _ => []

variable [Ed25519] {PeerId : Type} [DecidableEq PeerId]

/-- The branch of the task for an activity. -/
def run : Activity → Exec NodeEvent (Node PeerId) Unit
  | .arrive ext => Node.receiveExtrinsic ext
  | .peerBlock block => Node.receiveBlock block
  | .tick slot order => Node.tick slot order

end Activity

section Activities

variable [Ed25519] {PeerId : Type}

/-- What is pending and what is to arrive does not get in each other's way, and with all that is to
be executed the supply stays within what a balance holds. -/
structure Orderly (acts : List Activity) (node : Node PeerId) : Prop where
  unrelated : Unrelated (node.mempool.pending ++ acts.flatMap Activity.arrivals)
  supply : supply node.runtime +
    selfPayments (node.mempool.pending ++ acts.flatMap Activity.brought) < 2 ^ 128

omit [Ed25519] in
theorem submit_pending (ext : Types.Extrinsic) (pool : Types.Mempool) :
    (pool.submit ext).2.pending.Sublist (pool.pending ++ [ext]) := by
  rw [Mempool.submit]
  cases pool.maxCapacity with
  | none => exact List.Sublist.refl _
  | some max =>
      dsimp only
      split_ifs
      · exact List.sublist_append_left _ _
      · exact List.Sublist.refl _

/-- What one activity does to the pool and to the supply: what it spends was pending or came with
it, and so was what is pending afterwards. -/
structure Spends (act : Activity) (node s : Node PeerId) : Prop where
  pending : s.mempool.pending.Sublist (node.mempool.pending ++ act.arrivals)
  supply : ∃ spent, supply s.runtime ≤ supply node.runtime + selfPayments spent ∧
    (spent ++ s.mempool.pending).Subperm (node.mempool.pending ++ act.brought)

theorem spends_receiveBlock (block : Types.Block) (self : Node PeerId) :
    Spends (.peerBlock block) self (Node.receiveBlock block self).state := by
  have hpending : (Node.receiveBlock block self).state.mempool.pending.Sublist
      self.mempool.pending := by
    cases h : executeBlock block self.runtime with
    | mk o rt log =>
        cases o with
        | panicked m =>
            rw [Node.receiveBlock_of_panicked h]
        | ret res =>
            cases res with
            | error e => rw [Node.receiveBlock_of_error h]
            | ok u =>
                rw [Node.receiveBlock_of_ok h]
                exact List.filter_sublist
  constructor
  · rw [Activity.arrivals, List.append_nil]
    exact hpending
  · refine ⟨block.extrinsics, ?_, ?_⟩
    · rw [(Node.receiveBlock_runtime block self).1]
      exact supply_executeBlock_le block self.runtime
    · exact (List.perm_append_comm.subperm).trans (hpending.subperm.append (List.Subperm.refl _))

theorem spends_produceBlock (slot : ℕ) (order : HashOrder) (self : Node PeerId) :
    Spends (.tick slot order) self (Node.produceBlock order self).state := by
  have hpool := (Node.produceBlock_pool order self).1
  have hall : (self.candidates ++ self.mempool.pending.drop self.limit).Subperm
      (self.mempool.pending ++ []) := by
    rw [List.append_nil, Node.candidates, List.take_append_drop]
  refine ⟨?_, self.candidates, ?_, ?_⟩
  · rw [hpool, Activity.arrivals, List.append_nil]
    exact List.drop_sublist _ _
  · have heff := Node.produceBlock_effect order self
    generalize Node.produceBlock order self = r at heff ⊢
    cases heff with
    | overflowed => exact Nat.le_add_right _ _
    | atMaxHeight => exact Nat.le_add_right _ _
    | @produced block rt log lines hbatch hnum hexts hexec =>
        have hle := supply_executeBlock_le block self.runtime
        rw [hexec, hexts] at hle
        exact hle.trans (Nat.add_le_add_left (selfPayments_le (Node.batch_subperm order self)) _)
  · rw [hpool]
    exact hall

omit [Ed25519] in
theorem Spends.refl (act : Activity) (self : Node PeerId) : Spends act self self where
  pending := List.sublist_append_left _ _
  supply := ⟨[], Nat.le_add_right _ _, (List.sublist_append_left _ _).subperm⟩

variable [DecidableEq PeerId]

/-- Whether a tick produces a block does not depend on the order. -/
theorem tick_cases (slot : ℕ) (self : Node PeerId) :
    (∀ order, Node.tick slot order self = Node.produceBlock order self) ∨
      ∀ order, Node.tick slot order self = ⟨.ret (), self, []⟩ := by
  by_cases hpeers : 1 < self.peers.length
  · have hlt : slot % self.peers.length < self.peers.length := Nat.mod_lt _ (by omega)
    have hauthor := List.getElem?_eq_getElem hlt
    by_cases hid : self.peers[slot % self.peers.length] = self.id
    · rw [hid] at hauthor
      exact .inl fun order => Node.tick_of_author hpeers hauthor
    · exact .inr fun order => Node.tick_of_other hpeers hauthor hid
  · refine .inr fun order => ?_
    simp [Node.tick, hpeers]

theorem spends_run (act : Activity) (self : Node PeerId) :
    Spends act self (act.run self).state := by
  cases act with
  | arrive ext =>
      have hpending := submit_pending ext self.mempool
      exact ⟨hpending, [], Nat.le_add_right _ _, hpending.subperm⟩
  | peerBlock block => exact spends_receiveBlock block self
  | tick slot order =>
      rw [Activity.run]
      rcases tick_cases slot self with hproduce | hnothing
      · rw [hproduce]
        exact spends_produceBlock slot order self
      · rw [hnothing]
        exact Spends.refl _ self

omit [Ed25519] [DecidableEq PeerId] in
/-- The step lemma: what is orderly stays so. -/
theorem Orderly.next {act : Activity} {acts : List Activity} {self s : Node PeerId}
    (h : Orderly (act :: acts) self) (hspends : Spends act self s) : Orderly acts s := by
  obtain ⟨hpending, spent, hsupply, hspent⟩ := hspends
  constructor
  · have hsubset : s.mempool.pending ++ acts.flatMap Activity.arrivals ⊆
        self.mempool.pending ++ (act :: acts).flatMap Activity.arrivals := by
      rw [List.flatMap_cons, ← List.append_assoc]
      exact (hpending.append (List.Sublist.refl _)).subset
    exact fun a ha b hb => h.unrelated a (hsubset ha) b (hsubset hb)
  · have hall := h.supply
    rw [List.flatMap_cons, ← List.append_assoc, selfPayments_append] at hall
    have hle := selfPayments_le hspent
    rw [selfPayments_append] at hle ⊢
    omega

omit [Ed25519] [DecidableEq PeerId] in
theorem Orderly.candidates {acts : List Activity} {self : Node PeerId}
    (h : Orderly acts self) : Unrelated self.candidates ∧
      Runtime.supply self.runtime + selfPayments self.candidates < 2 ^ 128 := by
  have hsub : self.candidates.Sublist self.mempool.pending := List.take_sublist _ _
  constructor
  · have hsubset : self.candidates ⊆ self.mempool.pending ++ acts.flatMap Activity.arrivals :=
      (hsub.trans (List.sublist_append_left _ _)).subset
    exact fun a ha b hb => h.unrelated a (hsubset ha) b (hsubset hb)
  · have hle := selfPayments_le hsub.subperm
    have hall := h.supply
    rw [selfPayments_append] at hall
    omega

/-- Whatever reaches a node, and in whichever orders its batches are put together: if the
extrinsics that are pending or arrive do not get in each other's way where their signers differ,
and what accounts pay themselves leaves the supply within what a balance holds, the node ends in
the same state, its runtime, its pool and its peers included. -/
theorem order_of_signers_never_shows {acts acts' : List Activity}
    (halike : List.Forall₂ Activity.Alike acts acts') {self : Node PeerId}
    (h : Orderly acts self) :
    (Exec.each Activity.run acts' self).outcome = (Exec.each Activity.run acts self).outcome ∧
      (Exec.each Activity.run acts' self).state = (Exec.each Activity.run acts self).state := by
  induction halike generalizing self with
  | nil => exact ⟨rfl, rfl⟩
  | @cons act act' acts acts' hact _ ih =>
      have hstep : (act'.run self).outcome = (act.run self).outcome ∧
          (act'.run self).state = (act.run self).state := by
        cases hact with
        | arrive ext => exact ⟨rfl, rfl⟩
        | peerBlock block => exact ⟨rfl, rfl⟩
        | tick slot order order' =>
            rw [Activity.run, Activity.run]
            rcases tick_cases slot self with hproduce | hnothing
            · obtain ⟨hunrelated, hsupply⟩ := h.candidates
              rw [hproduce, hproduce]
              exact Node.produceBlock_order order order' hunrelated hsupply
            · rw [hnothing, hnothing]
              exact ⟨rfl, rfl⟩
      have hrest := ih (h.next (spends_run act self))
      cases ho : (act.run self).outcome with
      | ret u =>
          rw [Exec.each_cons_ret _ ho, Exec.each_cons_ret _ (hstep.1.trans ho), hstep.2]
          exact hrest
      | panicked m =>
          rw [Exec.each_cons_panicked _ ho, Exec.each_cons_panicked _ (hstep.1.trans ho)]
          exact ⟨rfl, hstep.2⟩

end Activities

/-- The map is iterated from the last signer to the first. -/
def HashOrder.reversed : HashOrder := ⟨List.reverse, List.reverse_perm⟩

/-- Two payments to Charlie arrive, and a block is produced. -/
def paymentActivities (order : HashOrder) : List Activity :=
  [.arrive commonPayments.1, .arrive commonPayments.2, .tick 0 order]

/-- A node after genesis, with one peer. -/
def pairedNode : Node ℕ :=
  ⟨0, [0, 1], (@maybeApplyGenesis .transparent (Runtime.new ∅)).state, Mempool.withBlockLimit 3⟩

/-- The payments of Alice and Bob, in either order. -/
theorem order_of_signers_never_shows_payments :
    let := Ed25519.transparent
    let r := Exec.each Activity.run (paymentActivities .inserted) pairedNode
    let r' := Exec.each Activity.run (paymentActivities .reversed) pairedNode
    r'.state = r.state ∧ r.state.runtime.height = 2 ∧ published r'.log ≠ published r.log := by
  intro scheme r r'
  have halike : List.Forall₂ Activity.Alike (paymentActivities .inserted)
      (paymentActivities .reversed) :=
    .cons (.arrive _) (.cons (.arrive _) (.cons (.tick 0 _ _) .nil))
  have horderly : Orderly (paymentActivities .inserted) pairedNode :=
    ⟨unrelated_commonPayments, by decide +kernel⟩
  have hsame := order_of_signers_never_shows halike horderly
  exact ⟨hsame.2, by decide +kernel, by decide +kernel⟩

end RustStateMachine
