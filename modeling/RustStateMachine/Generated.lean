import Mathlib.Logic.Function.Basic
import RustStateMachine.Execution
import RustStateMachine.RuntimeMacro

/-!
# The generated runtime

What the runtime macro generates for any pallets whatever: each pallet is left
to its own calls, the system counts, and nothing else happens. The runtime of
the crate is the instance for its two pallets.
-/

namespace RustStateMachine.Generated

open Lib Lib.KeyValue Std Support

/-! ## The generated code -/

/-- What the generated code uses of a pallet. -/
structure PalletDef where
  State : Type
  Call : Type
  new : Entries → State
  dispatch : Types.AccountId → Call → Exec Write State DispatchResult

variable {n : ℕ}

/-- The struct the macro is applied to: the system pallet, then the others. -/
structure Runtime (pallets : Fin n → PalletDef) where
  system : System.Pallet Types.AccountId Types.BlockNumber Types.Nonce
  pallet : (i : Fin n) → (pallets i).State

/-- The enum of all calls, one variant for each pallet. -/
abbrev RuntimeCall (pallets : Fin n → PalletDef) := (i : Fin n) × (pallets i).Call

/-- A signed call of the generated runtime. -/
abbrev Extrinsic (pallets : Fin n → PalletDef) := UncheckedExtrinsic (RuntimeCall pallets)

/-- A block of such calls. -/
abbrev Block (pallets : Fin n → PalletDef) := Support.Block Types.Header (Extrinsic pallets)

/-- The position of the variant, then the call of the pallet. -/
instance {pallets : Fin n → PalletDef} [∀ i, Encode (pallets i).Call] :
    Encode (RuntimeCall pallets) where
  encode call := UInt8.ofNat call.1 :: encode call.2

/-- What the generated code does besides changing its own state. -/
inductive Event (pallets : Fin n → PalletDef) where
  | write (w : Write)
  | dispatching (ext : Extrinsic pallets)
  | dispatched (result : DispatchResult)
  | eprintln (text : String)

/-- The extrinsic of an entry that starts a dispatch. -/
def Event.dispatching? {pallets : Fin n → PalletDef} : Event pallets → Option (Extrinsic pallets)
  | dispatching ext => some ext
  | _ => none

namespace Runtime

variable {pallets : Fin n → PalletDef}

/-- Build every pallet from the store. -/
def new (store : Entries) : Runtime pallets where
  system := System.Pallet.new store
  pallet i := (pallets i).new store

/-- Run a computation of the system pallet on the runtime. -/
def onSystem {α : Type}
    (x : Exec Write (System.Pallet Types.AccountId Types.BlockNumber Types.Nonce) α) :
    Exec (Event pallets) (Runtime pallets) α :=
  Exec.zoom Runtime.system (fun self system => { self with system }) Event.write x

/-- Run a computation of the pallet at position `i` on the runtime. -/
def onPallet {α : Type} (i : Fin n) (x : Exec Write (pallets i).State α) :
    Exec (Event pallets) (Runtime pallets) α :=
  Exec.zoom (fun self => self.pallet i)
    (fun self s => { self with pallet := Function.update self.pallet i s }) Event.write x

/-- Route a call to its pallet and hand the result on. -/
def dispatch (caller : Types.AccountId) (call : RuntimeCall pallets) :
    Exec (Event pallets) (Runtime pallets) DispatchResult :=
  onPallet call.1 ((pallets call.1).dispatch caller call.2)

/-- The line printed for an extrinsic that fails. -/
def extrinsicError (blockNumber : Types.BlockNumber) (i : ℕ) (error : String) : Event pallets :=
  .eprintln ("Extrinsic Error\n\tBlock Number: " ++ toString blockNumber.toNat ++
    "\n\tExtrinsic Number: " ++ toString i ++ "\n\tError: " ++ error)

/-- The body of the second pass, for the extrinsic at position `i` of a block. -/
def applyExtrinsic (blockNumber : Types.BlockNumber) (i : ℕ) (ext : Extrinsic pallets)
    (sigResult : DispatchResult) : Exec (Event pallets) (Runtime pallets) Unit :=
  match sigResult with
  | .error e => Exec.emit (extrinsicError blockNumber i ("bad signature — " ++ e))
  | .ok () => do
    let self ← Exec.read
    if self.system.nonce ext.signer ≠ ext.nonce then
      Exec.emit (extrinsicError blockNumber i "nonce mismatch")
    else
      onSystem (System.Pallet.incNonce ext.signer)
      Exec.emit (.dispatching ext)
      let res ← dispatch ext.signer ext.call
      Exec.emit (.dispatched res)
      match res with
      | .ok () => return ()
      | .error e => Exec.emit (extrinsicError blockNumber i e)

/-- Count the block, check its header, verify all signatures, then apply each extrinsic. -/
def executeBlock [∀ i, Encode (pallets i).Call] [Ed25519] (block : Block pallets) :
    Exec (Event pallets) (Runtime pallets) DispatchResult := do
  onSystem System.Pallet.incBlockNumber
  let self ← Exec.read
  if block.header.blockNumber ≠ self.system.blockNumber then
    return .error "block number does not match what is expected"
  else
    let verifyResults := verifyBatch block.extrinsics
    Exec.each (fun p => applyExtrinsic block.header.blockNumber p.2 p.1.1 p.1.2)
      (block.extrinsics.zip verifyResults).zipIdx
    return .ok ()

/-! ## What a run does -/

/-- The extrinsics whose dispatch a log records, in order. -/
def dispatches (log : List (Event pallets)) : List (Extrinsic pallets) :=
  log.filterMap Event.dispatching?

/-- The call of an extrinsic, with its caller, if it is one of the pallet. -/
def callOf (i : Fin n) (ext : Extrinsic pallets) : Option (Types.AccountId × (pallets i).Call) :=
  if h : ext.call.1 = i then some (ext.signer, h ▸ ext.call.2) else none

/-- The pallet by itself, after some calls. -/
def alone (i : Fin n) (calls : List (Types.AccountId × (pallets i).Call))
    (s : (pallets i).State) : (pallets i).State :=
  calls.foldl (fun s p => ((pallets i).dispatch p.1 p.2 s).state) s

/-- The nonces of an account's dispatched extrinsics. -/
def noncesOf (a : Types.AccountId) (exts : List (Extrinsic pallets)) : List ℕ :=
  (exts.filter fun e => e.signer = a).map fun e => e.nonce.toNat

/-- Since the start each pallet has done what it does by itself on its own calls, and the system has
counted each account's dispatched extrinsics, which carry consecutive nonces. -/
structure Isolated (start s : Runtime pallets) (log : List (Event pallets)) : Prop where
  pallet : ∀ i, s.pallet i = alone i ((dispatches log).filterMap (callOf i)) (start.pallet i)
  nonce : ∀ a, (s.system.nonce a).toNat =
    (start.system.nonce a).toNat + (noncesOf a (dispatches log)).length
  consecutive : ∀ a, noncesOf a (dispatches log) =
    List.range' (start.system.nonce a).toNat (noncesOf a (dispatches log)).length

theorem isolated_refl (start : Runtime pallets) : Isolated start start [] :=
  ⟨fun _ => rfl, fun _ => rfl, fun _ => rfl⟩

@[simp] theorem dispatches_append (l l' : List (Event pallets)) :
    dispatches (l ++ l') = dispatches l ++ dispatches l' := List.filterMap_append

@[simp] theorem dispatches_map_write (ws : List Write) :
    dispatches (ws.map (Event.write : Write → Event pallets)) = [] := by
  induction ws with
  | nil => rfl
  | cons w ws ih => exact ih

/-- A step that dispatches nothing and leaves the pallets and the nonces alone. -/
theorem Isolated.congr {start s s' : Runtime pallets} {log tail : List (Event pallets)}
    (h : Isolated start s log) (hpallet : s'.pallet = s.pallet)
    (hnonce : ∀ a, s'.system.nonce a = s.system.nonce a) (htail : dispatches tail = []) :
    Isolated start s' (log ++ tail) := by
  have hlog : dispatches (log ++ tail) = dispatches log := by
    rw [dispatches_append, htail, List.append_nil]
  constructor
  · intro i
    rw [hpallet, hlog]
    exact h.pallet i
  · intro a
    rw [hnonce, hlog]
    exact h.nonce a
  · intro a
    rw [hlog]
    exact h.consecutive a

/-- Everything one iteration of the second pass can do: nothing is dispatched and nothing changes,
or the extrinsic carries the next nonce of its signer, which is counted, and its pallet alone runs
it. -/
inductive Effect (ext : Extrinsic pallets) (self : Runtime pallets)
    (r : Run (Event pallets) (Runtime pallets) Unit) : Prop
  | passed (hstate : r.state = self) (hlog : dispatches r.log = [])
  | dispatched (m : Types.Nonce) (hnonce : self.system.nonce ext.signer = ext.nonce)
      (hm : m.toNat = ext.nonce.toNat + 1)
      (hsystem : r.state.system =
        { self.system with nonceMap := self.system.nonceMap.insert ext.signer m })
      (hpallet : r.state.pallet = Function.update self.pallet ext.call.1
        ((pallets ext.call.1).dispatch ext.signer ext.call.2 (self.pallet ext.call.1)).state)
      (hlog : dispatches r.log = [ext])

/-- What follows the dispatch changes nothing any more, however it ends. -/
theorem applyExtrinsic_of_next (blockNumber : Types.BlockNumber) (i : ℕ) {ext : Extrinsic pallets}
    {self : Runtime pallets} {m : Types.Nonce} (hnonce : self.system.nonce ext.signer = ext.nonce)
    (hadd : checkedAdd (self.system.nonce ext.signer) 1 = some m)
    {r : Run Write (pallets ext.call.1).State DispatchResult}
    (hr : (pallets ext.call.1).dispatch ext.signer ext.call.2 (self.pallet ext.call.1) = r) :
    ∃ o tail, dispatches tail = [] ∧ applyExtrinsic blockNumber i ext (.ok ()) self =
      ⟨o, ⟨{ self.system with nonceMap := self.system.nonceMap.insert ext.signer m },
        Function.update self.pallet ext.call.1 r.state⟩,
        .write (.put (System.Pallet.nonceKey ext.signer) (encode m)) :: .dispatching ext ::
          (r.log.map Event.write ++ tail)⟩ := by
  have hinc := System.Pallet.incNonce_of_some hadd
  obtain ⟨outcome, state, log⟩ := r
  cases outcome with
  | panicked message =>
      refine ⟨.panicked message, [], rfl, ?_⟩
      simp [applyExtrinsic, hnonce, onSystem, hinc, dispatch, onPallet, hr]
  | ret res =>
      cases res with
      | ok =>
          refine ⟨.ret (), [.dispatched (.ok ())], rfl, ?_⟩
          simp [applyExtrinsic, hnonce, onSystem, hinc, dispatch, onPallet, hr]
      | error e =>
          refine ⟨.ret (), [.dispatched (.error e), extrinsicError blockNumber i e], rfl, ?_⟩
          simp [applyExtrinsic, hnonce, onSystem, hinc, dispatch, onPallet, hr]

theorem applyExtrinsic_effect (blockNumber : Types.BlockNumber) (i : ℕ) (ext : Extrinsic pallets)
    (sigResult : DispatchResult) (self : Runtime pallets) :
    Effect ext self (applyExtrinsic blockNumber i ext sigResult self) := by
  cases sigResult with
  | error e => exact .passed rfl rfl
  | ok =>
      by_cases hnonce : self.system.nonce ext.signer = ext.nonce
      · cases hadd : checkedAdd (self.system.nonce ext.signer) 1 with
        | none =>
            have hrun : applyExtrinsic blockNumber i ext (.ok ()) self =
                ⟨.panicked System.unwrapNone, self, []⟩ := by
              simp [applyExtrinsic, hnonce, onSystem, System.Pallet.incNonce_of_none hadd]
            rw [hrun]
            exact .passed rfl rfl
        | some m =>
            have hm : m.toNat = ext.nonce.toNat + 1 := by
              rw [← hnonce]
              exact Machine.checkedAdd_one_eq_some.mp hadd
            obtain ⟨o, tail, htail, hrun⟩ := applyExtrinsic_of_next blockNumber i hnonce hadd rfl
            rw [hrun]
            refine .dispatched m hnonce hm rfl rfl ?_
            have hwrites := @dispatches_map_write n pallets
              ((pallets ext.call.1).dispatch ext.signer ext.call.2 (self.pallet ext.call.1)).log
            calc
              dispatches (.write (.put (System.Pallet.nonceKey ext.signer) (encode m)) ::
                  .dispatching ext :: (_ ++ tail)) = ext :: dispatches (_ ++ tail) := rfl
              _ = [ext] := by rw [dispatches_append, hwrites, htail, List.append_nil]
      · have hrun : applyExtrinsic blockNumber i ext (.ok ()) self =
            ⟨.ret (), self, [extrinsicError blockNumber i "nonce mismatch"]⟩ := by
          simp [applyExtrinsic, hnonce]
        rw [hrun]
        exact .passed rfl rfl

theorem filterMap_callOf_self (ext : Extrinsic pallets) :
    [ext].filterMap (callOf ext.call.1) = [(ext.signer, ext.call.2)] := by
  simp [callOf]

theorem filterMap_callOf_ne {i : Fin n} {ext : Extrinsic pallets} (h : ext.call.1 ≠ i) :
    [ext].filterMap (callOf i) = [] := by
  simp [callOf, h]

theorem noncesOf_append (a : Types.AccountId) (exts exts' : List (Extrinsic pallets)) :
    noncesOf a (exts ++ exts') = noncesOf a exts ++ noncesOf a exts' := by
  simp [noncesOf]

theorem noncesOf_singleton (a : Types.AccountId) (ext : Extrinsic pallets) :
    noncesOf a [ext] = if ext.signer = a then [ext.nonce.toNat] else [] := by
  by_cases h : ext.signer = a
  · simp [noncesOf, h]
  · simp [noncesOf, h]

theorem alone_concat (i : Fin n) (calls : List (Types.AccountId × (pallets i).Call))
    (c : Types.AccountId × (pallets i).Call) (s : (pallets i).State) :
    alone i (calls ++ [c]) s = ((pallets i).dispatch c.1 c.2 (alone i calls s)).state := by
  rw [alone, List.foldl_append]
  rfl

/-- The step lemma: one iteration of the second pass. -/
theorem Isolated.effect {start s : Runtime pallets} {log : List (Event pallets)}
    {ext : Extrinsic pallets} {r : Run (Event pallets) (Runtime pallets) Unit}
    (h : Isolated start s log) (he : Effect ext s r) : Isolated start r.state (log ++ r.log) := by
  cases he with
  | passed hstate hlog =>
      rw [hstate]
      exact h.congr rfl (fun _ => rfl) hlog
  | dispatched m hnonce hm hsystem hpallet hlog =>
      have hall : dispatches (log ++ r.log) = dispatches log ++ [ext] := by
        rw [dispatches_append, hlog]
      have hnow : ∀ a, r.state.system.nonce a = if ext.signer = a then m else s.system.nonce a := by
        intro a
        rw [hsystem]
        exact OrderedMap.getD_insert s.system.nonceMap ext.signer a m 0
      constructor
      · intro i
        rw [hall, List.filterMap_append, hpallet]
        by_cases hi : ext.call.1 = i
        · subst hi
          rw [filterMap_callOf_self, alone_concat, ← h.pallet, Function.update_self]
        · rw [filterMap_callOf_ne hi, List.append_nil, ← h.pallet,
            Function.update_of_ne (Ne.symm hi)]
      · intro a
        have hbefore := h.nonce a
        rw [hnow, hall, noncesOf_append, noncesOf_singleton]
        by_cases ha : ext.signer = a
        · subst ha
          rw [if_pos rfl, if_pos rfl, List.length_append, List.length_singleton, hm, ← hnonce]
          omega
        · rw [if_neg ha, if_neg ha, List.append_nil]
          exact hbefore
      · intro a
        have hbefore := h.consecutive a
        rw [hall, noncesOf_append, noncesOf_singleton]
        by_cases ha : ext.signer = a
        · subst ha
          have hnext := h.nonce ext.signer
          rw [if_pos rfl, List.length_append, List.length_singleton, List.range'_1_concat,
            ← hbefore, ← hnext, hnonce]
        · rw [if_neg ha, List.append_nil]
          exact hbefore

variable [∀ i, Encode (pallets i).Call] [Ed25519]

/-- One block, wherever it stops. -/
theorem keeps_executeBlock (start : Runtime pallets) (block : Block pallets) :
    Exec.Keeps (Isolated start) (executeBlock block) := by
  refine Exec.keeps_bind ?_ fun _ => Exec.keeps_bind Exec.keeps_read ?_
  · intro s l h
    cases hadd : checkedAdd s.system.blockNumber 1 with
    | none =>
        refine h.congr ?_ ?_ ?_
        · simp [onSystem, System.Pallet.incBlockNumber_of_none hadd]
        · simp [onSystem, System.Pallet.incBlockNumber_of_none hadd]
        · simp [onSystem, System.Pallet.incBlockNumber_of_none hadd, dispatches]
    | some k =>
        refine h.congr ?_ ?_ ?_
        · simp [onSystem, System.Pallet.incBlockNumber_of_some hadd]
        · simp [onSystem, System.Pallet.incBlockNumber_of_some hadd, System.Pallet.nonce]
        · simp [onSystem, System.Pallet.incBlockNumber_of_some hadd, dispatches,
            Event.dispatching?]
  · intro self
    split_ifs
    · exact Exec.keeps_pure _
    · refine Exec.keeps_bind (Exec.keeps_each _ ?_ _) fun _ => Exec.keeps_pure _
      intro p s l h
      exact h.effect (applyExtrinsic_effect block.header.blockNumber p.2 p.1.1 p.1.2 s)

/-- Whatever pallets the macro is applied to and whatever blocks their runtime executes, up to a
panic: each pallet is where its own dispatched calls bring it by themselves, in their order, and
the dispatched extrinsics of each account are counted and carry consecutive nonces. -/
theorem pallets_isolated (start : Runtime pallets) (blocks : List (Block pallets)) :
    Isolated start (Exec.each executeBlock blocks start).state
      (Exec.each executeBlock blocks start).log :=
  Exec.keeps_each _ (keeps_executeBlock start) blocks start [] (isolated_refl start)

end Runtime

end RustStateMachine.Generated
