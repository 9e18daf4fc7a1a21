import RustStateMachine.Eviction
import RustStateMachine.Persistence

/-!
# Local commands on one database

Every command is a process of its own on the same database: two of them execute
an extrinsic in the next block, the third starts a node and seeds the chain if
its height is zero. Only a first block that genesis made has the genesis state.
-/

namespace RustStateMachine

open Lib Lib.KeyValue Lib.Runs Std Support

namespace Cli

/-! ## Commands -/

/-- The panic message for a name that is not in the keyring. -/
def unknownAccount (name : String) : String :=
  "unknown account '" ++ name ++ "'; use alice / bob / charlie"

/-- A subcommand without `--node`. -/
inductive Command where
  | submitTransfer (sender recipient : String) (amount : Types.Balance)
  | submitClaim (account : String) (claim : Types.Content)
  | start
deriving DecidableEq

/-- The transfer is for known accounts and its tenfold amount fits, or the claim is of a known
account. In a release build the tenfold amount would wrap. -/
def Command.submits : Command → Bool
  | .submitTransfer sender recipient amount =>
      (AccountKeyring.fromName sender).isSome && (AccountKeyring.fromName recipient).isSome &&
        (Machine.checkedMul amount 10).isSome
  | .submitClaim account _ => (AccountKeyring.fromName account).isSome
  | .start => false

/-- Only a start or a submission that is well formed changes the database. -/
def Command.takesEffect (cmd : Command) : Bool := cmd = .start || cmd.submits

theorem Command.takesEffect_iff {cmd : Command} :
    cmd.takesEffect ↔ cmd = .start ∨ cmd.submits := by
  rw [takesEffect, Bool.or_eq_true, decide_eq_true_iff]

section Run

variable [Ed25519]

/-- The end of a local submission: one extrinsic in the next block. The printed dump of the runtime
is left out. -/
def executeLocally (signer : AccountKeyring) (call : RuntimeCall) : Exec Event Runtime Unit := do
  let self ← Exec.read
  let nonce := self.system.nonce signer.publicKey
  let ext := UncheckedExtrinsic.newSigned signer.signingKey nonce call
  let nextBlockNumber ← Exec.unwrap System.unwrapNone (checkedAdd self.system.blockNumber 1)
  let res ← Runtime.executeBlock ⟨⟨nextBlockNumber⟩, [ext]⟩
  match res with
  | .ok () => return ()
  | .error e => Exec.emit (.eprintln ("Execution error: " ++ e))

/-- The sender is funded with ten times the amount before its transfer is executed. A product that
overflows panics in the dev profile; in a release build it would wrap. -/
def submitTransfer (sender recipient : String) (amount : Types.Balance) :
    Exec Event Runtime Unit := do
  let senderKr ← Exec.unwrap (unknownAccount sender) (AccountKeyring.fromName sender)
  let recipientKr ← Exec.unwrap (unknownAccount recipient) (AccountKeyring.fromName recipient)
  let call := RuntimeCall.balances (.transfer recipientKr.publicKey amount)
  let funds ← Exec.unwrap "attempt to multiply with overflow" (Machine.checkedMul amount 10)
  Runtime.onBalances (Balances.Pallet.setBalance senderKr.publicKey funds)
  executeLocally senderKr call

/-- A claim is executed as it is. -/
def submitClaim (account : String) (claim : Types.Content) : Exec Event Runtime Unit := do
  let kr ← Exec.unwrap (unknownAccount account) (AccountKeyring.fromName account)
  executeLocally kr (.proofOfExistence (.createClaim claim))

/-- A command on the runtime it builds from the database; a start up to the genesis step. -/
def Command.run : Command → Exec Event Runtime Unit
  | .submitTransfer sender recipient amount => Cli.submitTransfer sender recipient amount
  | .submitClaim account claim => Cli.submitClaim account claim
  | .start => Runtime.maybeApplyGenesis

/-- The database a command leaves behind. -/
def Command.process (db : Entries) (cmd : Command) : Entries :=
  replay db (writes (cmd.run (Runtime.new db)).log)

/-- The database after some commands, empty at first. -/
def database (cmds : List Command) : Entries := cmds.foldl Command.process ∅

end Run

/-! ## One command -/

variable [Ed25519]

/-- The dev accounts at 1,000,000 each, at height 1, and nothing else. -/
def genesisState : Runtime where
  system := ⟨1, ∅⟩
  balances := ⟨((((∅ : ExtTreeMap Types.AccountId Types.Balance).insert
    AccountKeyring.alice.publicKey 1000000).insert
    AccountKeyring.bob.publicKey 1000000).insert
    AccountKeyring.charlie.publicKey 1000000)⟩
  proofOfExistence := ⟨∅⟩

theorem executeLocally_of_max {self : Runtime} (h : ¬ self.height + 1 < 2 ^ 32)
    (signer : AccountKeyring) (call : RuntimeCall) :
    executeLocally signer call self = ⟨.panicked System.unwrapNone, self, []⟩ := by
  have hadd : checkedAdd self.system.blockNumber 1 = none := by
    rw [Machine.checkedAdd_eq_none]
    exact Nat.not_lt.mp h
  simp only [executeLocally, Exec.bind_apply, Exec.read_apply, Run.andThen_ret, hadd,
    Exec.unwrap_none, Run.andThen_panicked, Run.prepend_nil]

theorem executeLocally_of_next {self : Runtime} {n : Types.BlockNumber}
    (hn : n.toNat = self.height + 1) (signer : AccountKeyring) (call : RuntimeCall) :
    (executeLocally signer call self).state =
      (Runtime.executeBlock ⟨⟨n⟩, [UncheckedExtrinsic.newSigned signer.signingKey
        (self.system.nonce signer.publicKey) call]⟩ self).state := by
  have hadd : checkedAdd self.system.blockNumber 1 = some n :=
    Machine.checkedAdd_one_eq_some.mpr hn
  simp only [executeLocally, Exec.bind_apply, Exec.read_apply, Run.andThen_ret, hadd,
    Exec.unwrap_some, Run.prepend_nil]
  generalize Runtime.executeBlock _ self = r
  obtain ⟨o, rt, log⟩ := r
  cases o with
  | ret res =>
      cases res with
      | ok u => rfl
      | error e => rfl
  | panicked m => rfl

omit [Ed25519] in
theorem exists_next {self : Runtime} (h : self.height + 1 < 2 ^ 32) :
    ∃ n : Types.BlockNumber, n.toNat = self.height + 1 := by
  refine ⟨BitVec.ofNat 32 (self.height + 1), ?_⟩
  rw [BitVec.toNat_ofNat, Nat.mod_eq_of_lt h]

theorem height_executeLocally (signer : AccountKeyring) (call : RuntimeCall) (self : Runtime) :
    (executeLocally signer call self).state.height =
      if self.height + 1 < 2 ^ 32 then self.height + 1 else self.height := by
  split_ifs with h
  · obtain ⟨n, hn⟩ := exists_next h
    rw [executeLocally_of_next hn, Runtime.executeBlock_of_next hn, Runtime.height,
      Runtime.applyAll_blockNumber]
    exact hn
  · rw [executeLocally_of_max h]

/-- A local submission uses up a nonce of its signer, if the scheme reads back what the dev keys
sign. -/
theorem nonce_executeLocally
    (hkey : ∀ kr : AccountKeyring,
      Ed25519.isVerifyingKey (Ed25519.verifyingKey kr.signingKey) = true)
    (hsign : ∀ (kr : AccountKeyring) (message : Bytes), Ed25519.verifies
      (Ed25519.verifyingKey kr.signingKey) message (Ed25519.sign kr.signingKey message) = true)
    {self : Runtime} (hheight : self.height + 1 < 2 ^ 32) {signer : AccountKeyring}
    (hnonce : (self.system.nonce signer.publicKey).toNat + 1 < 2 ^ 32) (call : RuntimeCall) :
    (self.system.nonce signer.publicKey).toNat <
      ((executeLocally signer call self).state.system.nonce signer.publicKey).toNat := by
  obtain ⟨n, hn⟩ := exists_next hheight
  rw [executeLocally_of_next hn]
  generalize hext : UncheckedExtrinsic.newSigned signer.signingKey
    (self.system.nonce signer.publicKey) call = ext
  have hfields : ext.signer = signer.publicKey ∧
      ext.nonce = self.system.nonce signer.publicKey := by
    rw [← hext]
    exact ⟨rfl, rfl⟩
  have hverify : ext.verify = .ok () := by
    rw [← hext]
    exact UncheckedExtrinsic.verify_newSigned (hkey signer) (hsign signer) _ call
  have hmax : ∀ e ∈ [ext], e.nonce ≠ BitVec.allOnes 32 := by
    intro e he htop
    rw [List.mem_singleton.mp he, hfields.2] at htop
    rw [htop, BitVec.toNat_allOnes] at hnonce
    omega
  obtain ⟨rt, log, hexec⟩ := Runtime.executeBlock_ok ⟨⟨n⟩, [ext]⟩ self hn hmax
  have hsigned : Runtime.signedNonces signer.publicKey [ext] =
      List.range' (self.system.nonce signer.publicKey).toNat 1 := by
    rw [Runtime.signedNonces_cons, if_pos ⟨hverify, hfields.1⟩, nonceOf, hfields.2]
    rfl
  rw [hexec]
  calc
    (self.system.nonce signer.publicKey).toNat < (self.system.nonce signer.publicKey).toNat + 1 :=
      Nat.lt_succ_self _
    _ = advance (self.system.nonce signer.publicKey).toNat
        (Runtime.signedNonces signer.publicKey [ext]) := by rw [hsigned, advance_range']
    _ = (rt.system.nonce signer.publicKey).toNat :=
      (Runtime.nonce_executeBlock_eq hexec signer.publicKey).symm

/-- A well-formed submission executes one extrinsic, on a runtime whose system pallet is still the
one it was built with. -/
theorem Command.run_of_submits {cmd : Command} (h : cmd.submits) (self : Runtime) :
    ∃ signer call funded log, funded.system = self.system ∧
      cmd.run self = (executeLocally signer call funded).prepend log := by
  cases cmd with
  | submitTransfer sender recipient amount =>
      rw [submits, Bool.and_eq_true, Bool.and_eq_true] at h
      simp only [Option.isSome_iff_exists] at h
      obtain ⟨⟨⟨signer, hsender⟩, ⟨other, hrecipient⟩⟩, funds, hfunds⟩ := h
      refine ⟨signer, .balances (.transfer other.publicKey amount),
        { self with balances := ⟨self.balances.balances.insert signer.publicKey funds⟩ },
        [.write (.put (Balances.Pallet.balanceKey signer.publicKey) (encode funds))], rfl, ?_⟩
      simp only [run, Cli.submitTransfer, Exec.bind_apply, hsender, hrecipient, hfunds,
        Exec.unwrap_some, Run.andThen_ret, Run.prepend_nil]
      rfl
  | submitClaim account claim =>
      obtain ⟨signer, haccount⟩ := Option.isSome_iff_exists.mp h
      refine ⟨signer, .proofOfExistence (.createClaim claim), self, [], rfl, ?_⟩
      simp only [run, Cli.submitClaim, Exec.bind_apply, haccount, Exec.unwrap_some,
        Run.andThen_ret, Run.prepend_nil]
  | start => cases h

/-- A submission that is not well formed ends in a panic before it writes. -/
theorem Command.log_of_not_takesEffect {cmd : Command} (h : ¬ cmd.takesEffect) (self : Runtime) :
    (cmd.run self).log = [] := by
  rw [takesEffect_iff, not_or, Bool.not_eq_true] at h
  obtain ⟨hstart, hsubmits⟩ := h
  cases cmd with
  | submitTransfer sender recipient amount =>
      simp only [run, Cli.submitTransfer, Exec.bind_apply]
      cases hsender : AccountKeyring.fromName sender with
      | none => rfl
      | some signer =>
          cases hrecipient : AccountKeyring.fromName recipient with
          | none => rfl
          | some other =>
              cases hfunds : Machine.checkedMul amount 10 with
              | none => rfl
              | some funds =>
                  rw [submits, hsender, hrecipient, hfunds] at hsubmits
                  cases hsubmits
  | submitClaim account claim =>
      simp only [run, Cli.submitClaim, Exec.bind_apply]
      cases haccount : AccountKeyring.fromName account with
      | none => rfl
      | some signer =>
          rw [submits, haccount] at hsubmits
          cases hsubmits
  | start => exact absurd rfl hstart

theorem keeps_persisted_executeLocally (db : Entries) (signer : AccountKeyring)
    (call : RuntimeCall) : Exec.Keeps (PersistedAfter db) (executeLocally signer call) := by
  refine Exec.keeps_bind Exec.keeps_read fun self => ?_
  refine Exec.keeps_bind (Exec.keeps_unwrap _ _) fun n => ?_
  refine Exec.keeps_bind (keeps_persisted_executeBlock db _) ?_
  intro res
  cases res with
  | ok u => exact Exec.keeps_pure ()
  | error e => exact keeps_persisted_eprintln db _

theorem Command.keeps_persisted_run (db : Entries) (cmd : Command) :
    Exec.Keeps (PersistedAfter db) cmd.run := by
  cases cmd with
  | submitTransfer sender recipient amount =>
      refine Exec.keeps_bind (Exec.keeps_unwrap _ _) fun signer => ?_
      refine Exec.keeps_bind (Exec.keeps_unwrap _ _) fun other => ?_
      refine Exec.keeps_bind (Exec.keeps_unwrap _ _) fun funds => ?_
      refine Exec.keeps_bind (keeps_persisted_setBalance db _ _) fun _ => ?_
      exact keeps_persisted_executeLocally db signer _
  | submitClaim account claim =>
      refine Exec.keeps_bind (Exec.keeps_unwrap _ _) fun signer => ?_
      exact keeps_persisted_executeLocally db signer _
  | start =>
      exact Runtime.keeps_maybeApplyGenesis (keeps_persisted_setBalance db)
        (keeps_persisted_executeBlock db) (keeps_persisted_println db)

/-! ## The database -/

section Database

variable {db : Entries}

theorem process_of_not_takesEffect {cmd : Command} (h : ¬ cmd.takesEffect) (db : Entries) :
    cmd.process db = db := by
  rw [Command.process, Command.log_of_not_takesEffect h, writes_nil, replay_nil]

/-- A start on a chain that has a block changes nothing. -/
theorem process_start_of_ne (h : (Runtime.new db).height ≠ 0) : Command.start.process db = db := by
  rw [Command.process, Command.run, Runtime.maybeApplyGenesis_of_ne h, writes_nil, replay_nil]

/-- The next process finds the block number, the nonces and the balances of this one. -/
theorem new_process (hdb : Persisted db (Runtime.new db)) (cmd : Command) :
    (Runtime.new (cmd.process db)).system = (cmd.run (Runtime.new db)).state.system ∧
      (Runtime.new (cmd.process db)).balances = (cmd.run (Runtime.new db)).state.balances := by
  have h := cmd.keeps_persisted_run db (Runtime.new db) [] hdb
  exact h.new_eq

theorem persisted_process (hdb : Persisted db (Runtime.new db)) (cmd : Command) :
    Persisted (cmd.process db) (Runtime.new (cmd.process db)) := by
  have h := cmd.keeps_persisted_run db (Runtime.new db) [] hdb
  exact h.new

theorem height_process_of_submits (hdb : Persisted db (Runtime.new db)) {cmd : Command}
    (h : cmd.submits) :
    (Runtime.new (cmd.process db)).height =
      if (Runtime.new db).height + 1 < 2 ^ 32 then (Runtime.new db).height + 1
      else (Runtime.new db).height := by
  obtain ⟨signer, call, funded, log, hsystem, hrun⟩ := cmd.run_of_submits h (Runtime.new db)
  have hheight := height_executeLocally signer call funded
  have hfunded : funded.height = (Runtime.new db).height := by
    rw [Runtime.height, hsystem]
    rfl
  rw [hfunded] at hheight
  rw [← hheight, Runtime.height, (new_process hdb cmd).1, hrun]
  rfl

/-- Only commands that take effect count. -/
theorem foldl_process_filter (cmds : List Command) (db : Entries) :
    cmds.foldl Command.process db =
      (cmds.filter Command.takesEffect).foldl Command.process db := by
  induction cmds generalizing db with
  | nil => rfl
  | cons cmd cmds ih =>
      by_cases heff : cmd.takesEffect
      · rw [List.filter_cons_of_pos heff, List.foldl_cons, List.foldl_cons]
        exact ih _
      · rw [List.filter_cons_of_neg heff, List.foldl_cons, process_of_not_takesEffect heff]
        exact ih db

/-- From the first block on, starts change nothing. -/
theorem foldl_process_starts (h : (Runtime.new db).height ≠ 0) {cmds : List Command}
    (hstarts : ∀ cmd ∈ cmds, cmd = .start) : cmds.foldl Command.process db = db := by
  induction cmds with
  | nil => rfl
  | cons cmd cmds ih =>
      rw [List.foldl_cons, hstarts cmd List.mem_cons_self, process_start_of_ne h]
      exact ih fun c hc => hstarts c (List.mem_cons_of_mem cmd hc)

/-- From the first block on, no command brings the height back, and a submission raises it past
the first block. -/
theorem height_foldl_process (hdb : Persisted db (Runtime.new db))
    (h : (Runtime.new db).height ≠ 0) {cmds : List Command} (heff : ∀ cmd ∈ cmds, cmd.takesEffect) :
    (Runtime.new db).height ≤ (Runtime.new (cmds.foldl Command.process db)).height ∧
      ((∃ cmd ∈ cmds, cmd ≠ .start) →
        2 ≤ (Runtime.new (cmds.foldl Command.process db)).height) := by
  induction cmds generalizing db with
  | nil => exact ⟨Nat.le_refl _, fun ⟨_, hmem, _⟩ => absurd hmem List.not_mem_nil⟩
  | cons cmd cmds ih =>
      have hrest : ∀ c ∈ cmds, c.takesEffect := fun c hc => heff c (List.mem_cons_of_mem cmd hc)
      rw [List.foldl_cons]
      rcases Command.takesEffect_iff.mp (heff cmd List.mem_cons_self) with rfl | hsubmits
      · rw [process_start_of_ne h]
        obtain ⟨hle, htwo⟩ := ih hdb h hrest
        refine ⟨hle, ?_⟩
        rintro ⟨c, hc, hne⟩
        rcases List.mem_cons.mp hc with rfl | hc
        · exact absurd rfl hne
        · exact htwo ⟨c, hc, hne⟩
      · have hheight := height_process_of_submits hdb hsubmits
        have hup : (Runtime.new db).height ≤ (Runtime.new (cmd.process db)).height ∧
            2 ≤ (Runtime.new (cmd.process db)).height := by
          rw [hheight]
          split_ifs <;> omega
        obtain ⟨hle, -⟩ := ih (persisted_process hdb cmd) (by omega) hrest
        exact ⟨hup.1.trans hle, fun _ => hup.2.trans hle⟩

end Database

/-! ## The first block -/

theorem maybeApplyGenesis_empty :
    (Runtime.maybeApplyGenesis (Runtime.new ∅)).state = genesisState := rfl

/-- A start on an empty database leaves the genesis state to later processes. -/
theorem new_process_start_empty : Runtime.new (Command.start.process ∅) = genesisState := by
  have hzero : (Runtime.new ∅).system.blockNumber = 0 := rfl
  obtain ⟨text, hrun⟩ := Runtime.maybeApplyGenesis_of_zero hzero
  have hpoe : (Runtime.new (Command.start.process ∅)).proofOfExistence =
      (Runtime.new ∅).proofOfExistence := by
    apply proofOfExistence_new_replay
    rw [Command.run, hrun]
    intro w hw
    simp only [writes_cons, Event.write?, Option.toList_some, Option.toList_none, writes_nil,
      List.append_nil, List.mem_append, List.mem_singleton] at hw
    rcases hw with rfl | rfl | rfl | rfl
    · exact apart_poe_balance.symm.not_prefix (List.prefix_append _ _)
    · exact apart_poe_balance.symm.not_prefix (List.prefix_append _ _)
    · exact apart_poe_balance.symm.not_prefix (List.prefix_append _ _)
    · exact apart_poe_blockNumber.symm.not_prefix List.prefix_rfl
  obtain ⟨hsystem, hbalances⟩ := new_process Persisted.empty .start
  rw [Command.run, maybeApplyGenesis_empty] at hsystem hbalances
  generalize Runtime.new (Command.start.process ∅) = rt at hsystem hbalances hpoe
  obtain ⟨system, balances, poe⟩ := rt
  subst hsystem hbalances hpoe
  rfl

/-- The first effective command is a submission and all later ones are starts. -/
def SubmitsFirst (cmds : List Command) : Prop :=
  ∃ cmd starts, cmds.filter Command.takesEffect = cmd :: starts ∧ cmd ≠ .start ∧
    ∀ c ∈ starts, c = .start

/-- On an empty database a submission makes the first block, without genesis. -/
theorem new_process_submit_empty
    (hkey : ∀ kr : AccountKeyring,
      Ed25519.isVerifyingKey (Ed25519.verifyingKey kr.signingKey) = true)
    (hsign : ∀ (kr : AccountKeyring) (message : Bytes), Ed25519.verifies
      (Ed25519.verifyingKey kr.signingKey) message (Ed25519.sign kr.signingKey message) = true)
    {cmd : Command} (h : cmd.submits) :
    (Runtime.new (cmd.process ∅)).height = 1 ∧ Runtime.new (cmd.process ∅) ≠ genesisState := by
  constructor
  · rw [height_process_of_submits Persisted.empty h]
    rfl
  · intro heq
    obtain ⟨signer, call, funded, log, hsystem, hrun⟩ := cmd.run_of_submits h (Runtime.new ∅)
    have hheight : funded.height + 1 < 2 ^ 32 := by
      rw [Runtime.height, hsystem]
      decide
    have hfresh : funded.system.nonce signer.publicKey = 0 := by
      rw [hsystem]
      rfl
    have hnonce : (funded.system.nonce signer.publicKey).toNat + 1 < 2 ^ 32 := by
      rw [hfresh]
      decide
    have hused := nonce_executeLocally hkey hsign hheight hnonce call
    have hafter := (new_process Persisted.empty cmd).1
    rw [hrun, heq] at hafter
    rw [← Run.prepend_state log, ← hafter] at hused
    exact absurd hused (Nat.not_lt_zero _)

theorem start_of_ne {db : Entries} (h : (Runtime.new db).height ≠ 0) :
    (Runtime.maybeApplyGenesis (Runtime.new db)).state = Runtime.new db := by
  rw [Runtime.maybeApplyGenesis_of_ne h]

/-- After a first block, a start finds height 1 only if nothing but starts came in between, and then
it finds the state that block left. -/
theorem start_after_first {db : Entries} (hdb : Persisted db (Runtime.new db))
    (h : (Runtime.new db).height = 1) {cmds : List Command} (heff : ∀ cmd ∈ cmds, cmd.takesEffect)
    (state : Runtime) :
    ((Runtime.maybeApplyGenesis (Runtime.new (cmds.foldl Command.process db))).state.height = 1 →
      (Runtime.maybeApplyGenesis (Runtime.new (cmds.foldl Command.process db))).state = state) ↔
      ((∀ c ∈ cmds, c = .start) → Runtime.new db = state) := by
  have hne : (Runtime.new db).height ≠ 0 := by omega
  by_cases hstarts : ∀ c ∈ cmds, c = .start
  · rw [foldl_process_starts hne hstarts, start_of_ne hne]
    exact ⟨fun hstate _ => hstate h, fun hstate _ => hstate hstarts⟩
  · obtain ⟨hle, htwo⟩ := height_foldl_process hdb hne heff
    have hheight : 2 ≤ (Runtime.new (cmds.foldl Command.process db)).height := by
      apply htwo
      by_contra hnone
      refine hstarts fun c hc => ?_
      by_contra hother
      exact hnone ⟨c, hc, hother⟩
    rw [start_of_ne (by omega)]
    exact ⟨fun _ hall => absurd hall hstarts, fun _ hone => by omega⟩

/-- After commands that all took effect, a start has the genesis state at height 1 unless the first
of them was a submission and the others starts. -/
theorem start_after_effective
    (hkey : ∀ kr : AccountKeyring,
      Ed25519.isVerifyingKey (Ed25519.verifyingKey kr.signingKey) = true)
    (hsign : ∀ (kr : AccountKeyring) (message : Bytes), Ed25519.verifies
      (Ed25519.verifyingKey kr.signingKey) message (Ed25519.sign kr.signingKey message) = true)
    {cmds : List Command} (heff : ∀ cmd ∈ cmds, cmd.takesEffect) :
    let rt := (Runtime.maybeApplyGenesis (Runtime.new (cmds.foldl Command.process ∅))).state
    (rt.height = 1 → rt = genesisState) ↔
      ¬ ∃ cmd starts, cmds = cmd :: starts ∧ cmd ≠ .start ∧ ∀ c ∈ starts, c = .start := by
  cases cmds with
  | nil =>
      refine ⟨fun _ => ?_, fun _ _ => maybeApplyGenesis_empty⟩
      rintro ⟨cmd, starts, hcmds, -⟩
      cases hcmds
  | cons cmd rest =>
      have hrest : ∀ c ∈ rest, c.takesEffect := fun c hc => heff c (List.mem_cons_of_mem cmd hc)
      have hdb := persisted_process Persisted.empty cmd
      have hcond : (∃ first starts, cmd :: rest = first :: starts ∧ first ≠ .start ∧
          ∀ c ∈ starts, c = .start) ↔ cmd ≠ .start ∧ ∀ c ∈ rest, c = .start := by
        constructor
        · rintro ⟨first, starts, hcmds, hne, hstarts⟩
          obtain ⟨rfl, rfl⟩ := List.cons.inj hcmds
          exact ⟨hne, hstarts⟩
        · rintro ⟨hne, hstarts⟩
          exact ⟨cmd, rest, rfl, hne, hstarts⟩
      rw [List.foldl_cons, hcond]
      rcases Command.takesEffect_iff.mp (heff cmd List.mem_cons_self) with rfl | hsubmits
      · have hone : (Runtime.new (Command.start.process ∅)).height = 1 := by
          rw [new_process_start_empty]
          rfl
        refine (start_after_first hdb hone hrest genesisState).trans ?_
        exact ⟨fun _ hboth => hboth.1 rfl, fun _ _ => new_process_start_empty⟩
      · obtain ⟨hone, hother⟩ := new_process_submit_empty hkey hsign hsubmits
        refine (start_after_first hdb hone hrest genesisState).trans ?_
        have hne : cmd ≠ .start := by
          rintro rfl
          cases hsubmits
        constructor
        · rintro hgenesis ⟨-, hstarts⟩
          exact hother (hgenesis hstarts)
        · intro hnot hstarts
          exact absurd ⟨hne, hstarts⟩ hnot

/-- The commands are those that ran before a start. This start, if it finds or makes height 1, has
the genesis state exactly when no local submission took the place of genesis. -/
theorem height_one_genesis_iff
    (hkey : ∀ kr : AccountKeyring,
      Ed25519.isVerifyingKey (Ed25519.verifyingKey kr.signingKey) = true)
    (hsign : ∀ (kr : AccountKeyring) (message : Bytes), Ed25519.verifies
      (Ed25519.verifyingKey kr.signingKey) message (Ed25519.sign kr.signingKey message) = true)
    (cmds : List Command) :
    let rt := (Runtime.maybeApplyGenesis (Runtime.new (database cmds))).state
    (rt.height = 1 → rt = genesisState) ↔ ¬ SubmitsFirst cmds := by
  rw [database, foldl_process_filter]
  exact start_after_effective hkey hsign fun cmd hcmd => (List.mem_filter.mp hcmd).2

omit [Ed25519] in
/-- A start is read after the genesis start and a claim: it finds height 2. -/
theorem height_one_genesis_started :
    let := Ed25519.transparent
    let cmds := [Command.start, .submitClaim "Alice" ⟨"My first document", by decide⟩]
    let rt := (Runtime.maybeApplyGenesis (Runtime.new (database cmds))).state
    ¬ SubmitsFirst cmds ∧ (rt.height = 1 → rt = genesisState) := by
  intro scheme cmds
  have hstart : ¬ SubmitsFirst cmds := by
    rintro ⟨cmd, starts, hfilter, hne, -⟩
    exact hne (List.cons.inj hfilter).1.symm
  have hkey : ∀ kr : AccountKeyring,
      Ed25519.isVerifyingKey (Ed25519.verifyingKey kr.signingKey) = true := fun _ => rfl
  have hsign : ∀ (kr : AccountKeyring) (message : Bytes), Ed25519.verifies
      (Ed25519.verifyingKey kr.signingKey) message (Ed25519.sign kr.signingKey message) = true :=
    fun _ _ => beq_self_eq_true _
  exact ⟨hstart, (height_one_genesis_iff hkey hsign cmds).mpr hstart⟩

omit [Ed25519] in
/-- Before some start of a sequence a submission has taken the place of genesis exactly if the first
two commands that take effect are a submission and a start. -/
theorem exists_submitsFirst_iff {cmds : List Command} :
    (∃ pre, pre ++ [.start] <+: cmds ∧ SubmitsFirst pre) ↔
      ∃ cmd rest, cmds.filter Command.takesEffect = cmd :: .start :: rest ∧ cmd ≠ .start := by
  constructor
  · rintro ⟨pre, ⟨rest, rfl⟩, cmd, starts, hpre, hne, hstarts⟩
    have hall : (pre ++ [Command.start] ++ rest).filter Command.takesEffect =
        cmd :: (starts ++ .start :: rest.filter Command.takesEffect) := by
      rw [List.filter_append, List.filter_append, hpre, List.append_assoc]
      rfl
    cases starts with
    | nil => exact ⟨cmd, _, hall, hne⟩
    | cons first starts =>
        obtain rfl := hstarts first List.mem_cons_self
        exact ⟨cmd, _, hall, hne⟩
  · rintro ⟨cmd, rest, hall, hne⟩
    obtain ⟨before, after, rfl, hbefore, heff, hafter⟩ := List.filter_eq_cons_iff.mp hall
    obtain ⟨between, later, rfl, hbetween, -, -⟩ := List.filter_eq_cons_iff.mp hafter
    refine ⟨before ++ cmd :: between, ⟨later, ?_⟩, cmd, [], ?_, hne, List.forall_mem_nil _⟩
    · simp only [List.append_assoc, List.cons_append, List.nil_append]
    · rw [List.filter_append, List.filter_cons_of_pos heff, List.filter_eq_nil_iff.mpr hbefore,
        List.filter_eq_nil_iff.mpr hbetween]
      rfl

/-- Every start of a sequence that finds or makes height 1 has the genesis state exactly if the
first two commands that take effect are not a submission and a start. -/
theorem every_start_genesis_iff
    (hkey : ∀ kr : AccountKeyring,
      Ed25519.isVerifyingKey (Ed25519.verifyingKey kr.signingKey) = true)
    (hsign : ∀ (kr : AccountKeyring) (message : Bytes), Ed25519.verifies
      (Ed25519.verifyingKey kr.signingKey) message (Ed25519.sign kr.signingKey message) = true)
    (cmds : List Command) :
    (∀ pre, pre ++ [Command.start] <+: cmds →
      let rt := (Runtime.maybeApplyGenesis (Runtime.new (database pre))).state
      rt.height = 1 → rt = genesisState) ↔
    ¬ ∃ cmd rest, cmds.filter Command.takesEffect = cmd :: .start :: rest ∧ cmd ≠ .start := by
  rw [← exists_submitsFirst_iff, not_exists]
  refine forall_congr' fun pre => ?_
  rw [not_and]
  refine imp_congr_right fun _ => ?_
  rw [database, foldl_process_filter]
  exact start_after_effective hkey hsign fun cmd hcmd => (List.mem_filter.mp hcmd).2

omit [Ed25519] in
/-- Alice claims a text on an empty database; the start after that finds height 1 and no funds. -/
theorem claim_takes_genesis_place :
    let := Ed25519.transparent
    let rt := (Runtime.maybeApplyGenesis (Runtime.new
      (database [.submitClaim "Alice" ⟨"My first document", by decide⟩]))).state
    rt.height = 1 ∧ rt ≠ genesisState := by
  intro scheme rt
  let cmd := Command.submitClaim "Alice" ⟨"My first document", by decide⟩
  have hsubmits : cmd.submits := by decide +kernel
  obtain ⟨hone, hother⟩ := new_process_submit_empty (fun _ => rfl) (fun _ _ => beq_self_eq_true _)
    hsubmits
  have hne : (Runtime.new (cmd.process ∅)).height ≠ 0 := by
    rw [hone]
    exact Nat.one_ne_zero
  have hrt : rt = Runtime.new (cmd.process ∅) := start_of_ne hne
  rw [hrt]
  exact ⟨hone, hother⟩

end Cli

end RustStateMachine
