import RustStateMachine.Authorization

/-!
# Blocks without their skipped extrinsics

A skipped extrinsic leaves only a printed line behind, and an accepted one does
the same at every position of a block. So a block and the block of its accepted
extrinsics agree on everything but the printed lines.
-/

namespace RustStateMachine

open Lib Lib.KeyValue Std Support

namespace Event

/-- The text of a line on the error stream. -/
def eprintln? : Event → Option String
  | eprintln text => some text
  | _ => none

/-- The result that ends a dispatch. -/
def dispatched? : Event → Option DispatchResult
  | dispatched result => some result
  | _ => none

end Event

/-- What the dispatches handed back, in order. -/
def results (log : List Event) : List DispatchResult := log.filterMap Event.dispatched?

/-- The log without the lines printed to the error stream. -/
def withoutLines (log : List Event) : List Event := log.filter fun e => e.eprintln?.isNone

@[simp] theorem withoutLines_nil : withoutLines [] = [] := rfl

theorem withoutLines_cons (e : Event) (l : List Event) :
    withoutLines (e :: l) = if e.eprintln?.isNone then e :: withoutLines l else withoutLines l :=
  List.filter_cons

@[simp] theorem withoutLines_append (l l' : List Event) :
    withoutLines (l ++ l') = withoutLines l ++ withoutLines l' := List.filter_append ..

/-- What ignores the printed lines can be read off the rest of the log. -/
theorem filterMap_withoutLines {β : Type} {f : Event → Option β}
    (hf : ∀ text, f (.eprintln text) = none) (log : List Event) :
    (withoutLines log).filterMap f = log.filterMap f := by
  rw [withoutLines, List.filterMap_filter]
  refine List.filterMap_congr fun e _ => ?_
  cases e with
  | eprintln text => exact (hf text).symm
  | write w => rfl
  | dispatching ext => rfl
  | dispatched result => rfl
  | println text => rfl

namespace Runtime

/-- Two runs that differ in their printed lines only. -/
structure SameActions {α : Type} (r r' : Run Event Runtime α) : Prop where
  outcome : r'.outcome = r.outcome
  state : r'.state = r.state
  log : withoutLines r'.log = withoutLines r.log

namespace SameActions

variable {α : Type} {r r' : Run Event Runtime α}

theorem prepend (h : SameActions r r') {l l' : List Event}
    (hl : withoutLines l' = withoutLines l) : SameActions (r.prepend l) (r'.prepend l') := by
  refine ⟨h.outcome, h.state, ?_⟩
  rw [Run.prepend_log, Run.prepend_log, withoutLines_append, withoutLines_append, hl, h.log]

theorem filterMap_eq (h : SameActions r r') {β : Type} {f : Event → Option β}
    (hf : ∀ text, f (.eprintln text) = none) : r'.log.filterMap f = r.log.filterMap f := by
  rw [← filterMap_withoutLines hf, h.log, filterMap_withoutLines hf]

end SameActions

theorem withoutLines_failureLine (n : Types.BlockNumber) (i : ℕ) (res : DispatchResult) :
    withoutLines (failureLine n i res) = [] := by
  cases res with
  | ok u => rfl
  | error e => rfl

variable [Ed25519]

/-- An accepted extrinsic does the same at every position. -/
theorem applyIndexed_position (n : Types.BlockNumber) {ext : Types.Extrinsic} {self : Runtime}
    (h : Accepted ext self) (i j : ℕ) :
    SameActions (applyIndexed n (ext, i) self) (applyIndexed n (ext, j) self) := by
  by_cases hmax : ext.nonce = BitVec.allOnes 32
  · rw [applyIndexed, applyIndexed, applyExtrinsic_of_overflow n i h hmax,
      applyExtrinsic_of_overflow n j h hmax]
    exact ⟨rfl, rfl, rfl⟩
  · obtain ⟨m, hm⟩ := exists_next_nonce hmax
    obtain ⟨res, hres⟩ :=
      (dispatch_effect ext.signer ext.call (self.setNonce ext.signer m)).outcome_eq
    generalize hd : dispatch ext.signer ext.call (self.setNonce ext.signer m) = r at hres
    obtain ⟨o, state, log⟩ := r
    subst hres
    rw [applyIndexed, applyIndexed, applyExtrinsic_of_accepted n i h hm hd,
      applyExtrinsic_of_accepted n j h hm hd]
    refine ⟨rfl, rfl, ?_⟩
    simp only [withoutLines_cons, withoutLines_append, withoutLines_failureLine]

/-- What a second pass that returns did is done by its accepted extrinsics alone, all of which are
accepted again. -/
theorem applyAll_acceptedAmong (n : Types.BlockNumber) (exts : List (Types.Extrinsic × ℕ)) (k : ℕ)
    {self : Runtime} (h : (applyAll n exts self).outcome = .ret ()) :
    let kept := (acceptedAmong (Exec.steps (applyIndexed n) exts self)).zipIdx k
    SameActions (applyAll n exts self) (applyAll n kept self) ∧
      acceptedAmong (Exec.steps (applyIndexed n) kept self) =
        acceptedAmong (Exec.steps (applyIndexed n) exts self) := by
  induction exts generalizing self k with
  | nil => exact ⟨⟨rfl, rfl, rfl⟩, rfl⟩
  | cons p exts ih =>
      cases ho : (applyIndexed n p self).outcome with
      | panicked m =>
          rw [applyAll, Exec.each_cons_panicked _ ho] at h
          cases h
      | ret u =>
          rw [applyAll, Exec.each_cons_ret _ ho] at h ⊢
          rw [Exec.steps_cons_ret _ ho, acceptedAmong_cons]
          by_cases hacc : Accepted p.1 self
          · -- the extrinsic is applied in both runs, at two positions
            have hsame := applyIndexed_position n hacc p.2 k
            have ho' : (applyIndexed n (p.1, k) self).outcome = .ret u := by
              rw [hsame.outcome]
              exact ho
            obtain ⟨hrest, hkept⟩ := ih (k + 1) h
            rw [if_pos hacc, List.zipIdx_cons]
            dsimp only at hrest hkept ⊢
            rw [Exec.each_cons_ret _ ho', Exec.steps_cons_ret _ ho', acceptedAmong_cons,
              if_pos hacc, hsame.state]
            exact ⟨hrest.prepend hsame.log, congrArg (p.1 :: ·) hkept⟩
          · -- the extrinsic is skipped in one run and absent from the other
            have heff := applyIndexed_effect n p self
            have hstate := heff.state_eq hacc
            have hlines : withoutLines (applyIndexed n p self).log = [] := by
              generalize applyIndexed n p self = r at heff
              cases heff with
              | skipped => rfl
              | overflowed => rfl
              | applied h => exact absurd h hacc
            rw [hstate] at h ⊢
            obtain ⟨hrest, hkept⟩ := ih k h
            rw [if_neg hacc]
            have hnil : withoutLines [] = withoutLines (applyIndexed n p self).log := hlines.symm
            exact ⟨hrest.prepend hnil, hkept⟩

/-- A block that is accepted and the block of the extrinsics it accepts leave the same state and the
same store, with the same dispatches and results, and the second one skips nothing. -/
theorem skipped_extrinsics_deletable {block : Types.Block} {self rt : Runtime} {log : List Event}
    (h : executeBlock block self = ⟨.ret (.ok ()), rt, log⟩) :
    let kept : Types.Block := ⟨block.header, acceptedIn block self⟩
    ∃ log', executeBlock kept self = ⟨.ret (.ok ()), rt, log'⟩ ∧
      acceptedIn kept self = kept.extrinsics ∧
      dispatches log' = dispatches log ∧ results log' = results log ∧
      ∀ db : Entries, replay db (writes log') = replay db (writes log) := by
  intro kept
  have hnum : block.header.blockNumber.toNat = self.height + 1 := by
    by_contra hne
    have hout := (executeBlock_of_not_next hne).1
    rw [h] at hout
    exact hout rfl
  have hrun := executeBlock_of_next hnum
  have hrun' := @executeBlock_of_next _ kept self hnum
  rw [h] at hrun
  dsimp only at hrun hrun'
  obtain ⟨hout, rfl, rfl⟩ := Run.mk.inj hrun
  have hret : (applyAll block.header.blockNumber block.extrinsics.zipIdx
      (self.setBlockNumber block.header.blockNumber)).outcome = .ret () := by
    cases ho : (applyAll block.header.blockNumber block.extrinsics.zipIdx
        (self.setBlockNumber block.header.blockNumber)).outcome with
    | ret u => rfl
    | panicked m =>
        rw [ho] at hout
        cases hout
  obtain ⟨hsame, hkept⟩ := applyAll_acceptedAmong block.header.blockNumber
    block.extrinsics.zipIdx 0 hret
  have haccepted : acceptedIn block self = acceptedAmong
      (Exec.steps (applyIndexed block.header.blockNumber) block.extrinsics.zipIdx
        (self.setBlockNumber block.header.blockNumber)) := by
    rw [acceptedIn, extrinsicSteps_of_next hnum]
  rw [← haccepted] at hsame hkept
  have hlog : ∀ {β : Type} {f : Event → Option β}, (∀ text, f (.eprintln text) = none) →
      (Event.write (.put System.prefixBlockNumber (encode block.header.blockNumber)) ::
        (applyAll block.header.blockNumber kept.extrinsics.zipIdx
          (self.setBlockNumber block.header.blockNumber)).log).filterMap f =
      (Event.write (.put System.prefixBlockNumber (encode block.header.blockNumber)) ::
        (applyAll block.header.blockNumber block.extrinsics.zipIdx
          (self.setBlockNumber block.header.blockNumber)).log).filterMap f := by
    intro β f hf
    rw [List.filterMap_cons, List.filterMap_cons, hsame.filterMap_eq hf]
  refine ⟨_, ?_, ?_, hlog fun _ => rfl, hlog fun _ => rfl, ?_⟩
  · rw [hrun', hsame.outcome, hsame.state, hret]
    rfl
  · rw [acceptedIn, @extrinsicSteps_of_next _ kept self hnum]
    exact hkept
  · intro db
    exact congrArg (replay db) (hlog fun _ => rfl)

/-- Block 2 after genesis: a payment of Alice, the same payment again and her next one. -/
def replayedBlock : Types.Block :=
  let bob := @AccountKeyring.publicKey .transparent .bob
  let payment (nonce : Types.Nonce) := @UncheckedExtrinsic.newSigned _ _ .transparent
    AccountKeyring.alice.signingKey nonce (.balances (.transfer bob 30))
  ⟨⟨2⟩, [payment 0, payment 0, payment 1]⟩

omit [Ed25519] in
/-- The second copy is skipped, and the block without it ends in the same state. -/
theorem skipped_extrinsics_deletable_replayedBlock :
    let := Ed25519.transparent
    let genesis := (maybeApplyGenesis (Runtime.new ∅)).state
    let kept : Types.Block := ⟨⟨2⟩, acceptedIn replayedBlock genesis⟩
    kept.extrinsics.length = 2 ∧ ∃ rt log log',
      executeBlock replayedBlock genesis = ⟨.ret (.ok ()), rt, log⟩ ∧
      executeBlock kept genesis = ⟨.ret (.ok ()), rt, log'⟩ ∧
      acceptedIn kept genesis = kept.extrinsics ∧ results log' = results log := by
  intro scheme genesis kept
  obtain ⟨rt, log, hexec⟩ := executeBlock_ok replayedBlock genesis
    (by decide +kernel) (by decide +kernel)
  obtain ⟨log', hkept, haccepted, -, hresults, -⟩ := skipped_extrinsics_deletable hexec
  exact ⟨by decide +kernel, rt, log, log', hexec, hkept, haccepted, hresults⟩

end Runtime

end RustStateMachine
