import RustStateMachine.Execution

/-!
# Rejected blocks

The block count is raised and persisted before the header is compared with it,
so a block that is rejected still leaves the raised count behind, in memory and
in the store.
-/

namespace RustStateMachine.Runtime

open Lib Lib.KeyValue Std Support

variable [Ed25519]

/-- The header carries the number after the height, or there is no such number. -/
def HeaderFits (block : Types.Block) (self : Runtime) : Prop :=
  block.header.blockNumber.toNat = self.height + 1 ∨
    self.system.blockNumber = BitVec.allOnes 32

/-- A block that fits never returns an error. -/
theorem executeBlock_of_fits {block : Types.Block} {self : Runtime} (h : HeaderFits block self)
    (e : String) : (executeBlock block self).outcome ≠ .ret (.error e) := by
  have heff := executeBlock_effect block self
  generalize executeBlock block self = r at heff ⊢
  cases heff with
  | overflowed => simp
  | rejected hn hne =>
      rcases h with h | h
      · exact absurd (BitVec.eq_of_toNat_eq (h.trans hn.symm)) hne
      · rename_i n
        have hlt := n.isLt
        rw [hn, h, BitVec.toNat_allOnes] at hlt
        omega
  | executed hn hr =>
      rename_i loop
      obtain ⟨o, s, l⟩ := loop
      cases o with
      | ret u => simp
      | panicked m => simp

/-- A block that fits and returns is accepted and raises the height. -/
theorem accepted_of_fits {block : Types.Block} {self : Runtime} (hfit : HeaderFits block self)
    {res : DispatchResult} (ho : (executeBlock block self).outcome = .ret res) :
    res = .ok () ∧ (executeBlock block self).state.height = self.height + 1 := by
  constructor
  · cases res with
    | ok u => rfl
    | error e => exact absurd ho (executeBlock_of_fits hfit e)
  · apply height_executeBlock
    rw [ho]
    exact Outcome.returns_ret res

/-- A block that does not fit is rejected, and only the block count changes. -/
theorem executeBlock_of_not_fits {block : Types.Block} {self : Runtime}
    (h : ¬ HeaderFits block self) :
    ∃ n : Types.BlockNumber, n.toNat = self.height + 1 ∧ executeBlock block self =
      ⟨.ret (.error "block number does not match what is expected"), self.setBlockNumber n,
        [.write (.put System.prefixBlockNumber (encode n))]⟩ := by
  have heff := executeBlock_effect block self
  generalize executeBlock block self = r at heff ⊢
  cases heff with
  | overflowed hmax => exact absurd (.inr hmax) h
  | @rejected n hn hne => exact ⟨n, hn, rfl⟩
  | executed hn hr => exact absurd (.inl hn) h

/-- Returning an error leaves no trace exactly when no error is returned: the header fits. -/
theorem unchanged_of_error_iff (block : Types.Block) (self : Runtime) (db : Entries) :
    (∀ e, (executeBlock block self).outcome = .ret (.error e) →
      (executeBlock block self).state = self ∧
        replay db (writes (executeBlock block self).log) = db) ↔ HeaderFits block self := by
  constructor
  · intro h
    by_contra hfit
    obtain ⟨n, hn, hrun⟩ := executeBlock_of_not_fits hfit
    rw [hrun] at h
    have hstate := (h _ rfl).1
    have hheight : self.height = n.toNat := by
      conv_lhs => rw [← hstate]
      rfl
    omega
  · intro hfit e he
    exact absurd he (executeBlock_of_fits hfit e)

/-- The steps of a run that were answered with `Ok`. -/
def accepted (blocks : List Types.Block) (self : Runtime) : ℕ :=
  (Exec.steps executeBlock blocks self).countP fun st => st.run.outcome = .ret (.ok ())

theorem accepted_cons_of_ret {block : Types.Block} {self : Runtime} {res : DispatchResult}
    (h : (executeBlock block self).outcome = .ret res) (blocks : List Types.Block) :
    accepted (block :: blocks) self =
      (if res = .ok () then 1 else 0) + accepted blocks (executeBlock block self).state := by
  rw [accepted, Exec.steps_cons_ret executeBlock h, List.countP_cons, accepted, Nat.add_comm]
  congr 1
  simp [h]

/-- A run counts its accepted blocks exactly while every block fits. -/
theorem height_eq_accepted_of_fits {blocks : List Types.Block} {self : Runtime}
    (hfit : ∀ st ∈ Exec.steps executeBlock blocks self, HeaderFits st.input st.before)
    (hret : (Exec.each executeBlock blocks self).outcome.Returns) :
    (Exec.each executeBlock blocks self).state.height = self.height + accepted blocks self := by
  induction blocks generalizing self with
  | nil => rfl
  | cons block blocks ih =>
      cases ho : (executeBlock block self).outcome with
      | ret res =>
          rw [Exec.steps_cons_ret executeBlock ho] at hfit
          rw [Exec.each_cons_ret executeBlock ho] at hret ⊢
          have hhead : HeaderFits block self := hfit _ List.mem_cons_self
          obtain ⟨hok, hstep⟩ := accepted_of_fits hhead ho
          have htail := ih (fun st hst => hfit st (List.mem_cons_of_mem _ hst)) hret
          rw [Run.prepend_state, htail, hstep, accepted_cons_of_ret ho, if_pos hok]
          omega
      | panicked m =>
          rw [Exec.each_cons_panicked executeBlock ho] at hret
          exact absurd hret (Outcome.not_returns_panicked m)

theorem fits_of_height_eq_accepted {blocks : List Types.Block} {self : Runtime}
    (h : ∀ pre, pre <+: blocks → (Exec.each executeBlock pre self).outcome.Returns →
      (Exec.each executeBlock pre self).state.height = self.height + accepted pre self) :
    ∀ st ∈ Exec.steps executeBlock blocks self, HeaderFits st.input st.before := by
  induction blocks generalizing self with
  | nil => simp
  | cons block blocks ih =>
      intro st hst
      by_cases hfit : HeaderFits block self
      · cases ho : (executeBlock block self).outcome with
        | ret res =>
            rw [Exec.steps_cons_ret executeBlock ho, List.mem_cons] at hst
            rcases hst with rfl | hst
            · exact hfit
            · apply ih _ st hst
              intro pre hpre hret
              have hfull := h (block :: pre) (List.cons_prefix_cons.mpr ⟨rfl, hpre⟩)
              rw [Exec.each_cons_ret executeBlock ho] at hfull
              obtain ⟨hok, hstep⟩ := accepted_of_fits hfit ho
              have heq := hfull hret
              rw [Run.prepend_state, accepted_cons_of_ret ho, if_pos hok] at heq
              omega
        | panicked m =>
            rw [Exec.steps_cons_panicked executeBlock ho, List.mem_singleton] at hst
            rw [hst]
            exact hfit
      · -- the rejected block alone already breaks the count
        obtain ⟨n, hn, hrun⟩ := executeBlock_of_not_fits hfit
        have ho : (executeBlock block self).outcome =
            .ret (.error "block number does not match what is expected") := by rw [hrun]
        have hone := h [block] (List.cons_prefix_cons.mpr ⟨rfl, List.nil_prefix⟩)
        rw [Exec.each_cons_ret executeBlock ho, accepted_cons_of_ret ho, hrun] at hone
        have heq : n.toNat = self.height + (0 + 0) := hone trivial
        omega

/-- A rejected block leaves a trace exactly when its header does not fit, and the block number
counts the accepted blocks of a run exactly when every block of the run fits. -/
theorem rejected_leaves_no_trace_iff :
    (∀ (block : Types.Block) (self : Runtime) (db : Entries),
      (∀ e, (executeBlock block self).outcome = .ret (.error e) →
        (executeBlock block self).state = self ∧
          replay db (writes (executeBlock block self).log) = db) ↔ HeaderFits block self) ∧
    ∀ (blocks : List Types.Block) (self : Runtime),
      (∀ pre, pre <+: blocks → (Exec.each executeBlock pre self).outcome.Returns →
        (Exec.each executeBlock pre self).state.height = self.height + accepted pre self) ↔
      ∀ st ∈ Exec.steps executeBlock blocks self, HeaderFits st.input st.before := by
  constructor
  · exact unchanged_of_error_iff
  · intro blocks self
    constructor
    · exact fits_of_height_eq_accepted
    · intro h pre hpre hret
      apply height_eq_accepted_of_fits _ hret
      intro st hst
      exact h st ((Exec.steps_prefix executeBlock hpre self).subset hst)

omit [Ed25519] in
/-- Right after genesis, a block with header number 5 is rejected; the height is 2 afterwards,
in memory and in the store. -/
theorem rejected_block_leaves_trace :
    let genesis := @maybeApplyGenesis .transparent (Runtime.new ∅)
    let db := replay ∅ (writes genesis.log)
    let r := @executeBlock .transparent ⟨⟨5⟩, []⟩ genesis.state
    r.outcome = .ret (.error "block number does not match what is expected") ∧
      r.state.height ≠ genesis.state.height ∧
      (replay db (writes r.log))[System.prefixBlockNumber]? ≠ db[System.prefixBlockNumber]? := by
  decide +kernel

end RustStateMachine.Runtime
