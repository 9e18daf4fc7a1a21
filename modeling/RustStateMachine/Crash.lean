import RustStateMachine.Persistence
import RustStateMachine.Replay

/-!
# Replay protection across crashes

A process is a sequence of lives. Each life rebuilds the runtime from the store,
runs operations, and ends at an arbitrary point of its log: the writes before
that point are in the store, the others are lost. The nonce of an extrinsic is
written before its dispatch starts, so no later life dispatches it again.
-/

namespace RustStateMachine

open Lib Lib.KeyValue Std Support

open RustStateMachine.Runtime

/-- What one life of the process runs, and how much of its log happens before the crash. -/
structure Life where
  operations : List Operation
  crashAt : ℕ

section Lives

variable [Ed25519]

/-- What a life leaves behind, from the store it starts with. -/
def Life.log (life : Life) (db : Entries) : List Event :=
  (Exec.each Operation.run life.operations (Runtime.new db)).log.take life.crashAt

/-- Everything that happens over several lives. -/
def lifetimes : Entries → List Life → List Event
  | _, [] => []
  | db, life :: lives =>
      life.log db ++ lifetimes (replay db (writes (life.log db))) lives

end Lives

/-- The nonces dispatched in a log lie between those the life started with and those the store
holds now, and increase. -/
structure NoncesSpent (db : Entries) (start m : ExtTreeMap Types.AccountId Types.Nonce)
    (log : List Event) : Prop where
  stored : Mirrors System.prefixNonce (replay db (writes log)) m
  raised : ∀ a, (start.getD a 0).toNat ≤ (m.getD a 0).toNat
  increasing : ∀ a, (noncesOf a (dispatches log)).Pairwise (· < ·)
  spent : ∀ a, ∀ n ∈ noncesOf a (dispatches log),
    (start.getD a 0).toNat ≤ n ∧ n < (m.getD a 0).toNat

/-- No dispatch starts, and nothing is written among the nonces. -/
def Quiet (e : Event) : Prop :=
  e.dispatching? = none ∧ ∀ w, e.write? = some w → ¬ System.prefixNonce <+: w.key

namespace NoncesSpent

variable {db : Entries} {start m : ExtTreeMap Types.AccountId Types.Nonce} {log : List Event}

theorem quiet (h : NoncesSpent db start m log) {es : List Event} (hes : ∀ e ∈ es, Quiet e) :
    NoncesSpent db start m (log ++ es) := by
  have hdispatches : dispatches es = [] := by
    rw [dispatches, List.filterMap_eq_nil_iff]
    exact fun e he => (hes e he).1
  refine ⟨?_, h.raised, ?_, ?_⟩
  · rw [writes_append, replay_append]
    apply h.stored.replay_outside
    intro w hw
    obtain ⟨e, he, hwe⟩ := List.mem_filterMap.mp hw
    exact (hes e he).2 w hwe
  · rw [dispatches_append, hdispatches, List.append_nil]
    exact h.increasing
  · rw [dispatches_append, hdispatches, List.append_nil]
    exact h.spent

/-- Writing a nonce that is not lower than the stored one. -/
theorem put_nonce (h : NoncesSpent db start m log) {who : Types.AccountId} {n : Types.Nonce}
    (hn : (m.getD who 0).toNat ≤ n.toNat) :
    NoncesSpent db start (m.insert who n)
      (log ++ [.write (.put (System.Pallet.nonceKey who) (encode n))]) := by
  have hle : ∀ a, (m.getD a 0).toNat ≤ ((m.insert who n).getD a 0).toNat := by
    intro a
    rw [OrderedMap.getD_insert]
    split_ifs with ha
    · exact ha ▸ hn
    · exact Nat.le_refl _
  have hdispatches : ∀ l : List Event, dispatches
      (l ++ [.write (.put (System.Pallet.nonceKey who) (encode n))]) = dispatches l := by
    intro l
    rw [dispatches_append]
    exact List.append_nil _
  refine ⟨?_, fun a => Nat.le_trans (h.raised a) (hle a), ?_, ?_⟩
  · rw [writes_append, replay_append]
    exact h.stored.put who n
  · rw [hdispatches]
    exact h.increasing
  · intro a k hk
    rw [hdispatches] at hk
    exact ⟨(h.spent a k hk).1, Nat.lt_of_lt_of_le (h.spent a k hk).2 (hle a)⟩

/-- Starting the dispatch of an extrinsic whose nonce was stored as spent just before. -/
theorem dispatching (h : NoncesSpent db start m log) {m' : ExtTreeMap Types.AccountId Types.Nonce}
    {log' : List Event} (h' : NoncesSpent db start m' log')
    (hsame : dispatches log' = dispatches log) {ext : Types.Extrinsic}
    (hold : (m.getD ext.signer 0).toNat = ext.nonce.toNat)
    (hnew : (m'.getD ext.signer 0).toNat = ext.nonce.toNat + 1) :
    NoncesSpent db start m' (log' ++ [.dispatching ext]) := by
  have hnonces : ∀ a, noncesOf a (dispatches (log' ++ [.dispatching ext])) =
      noncesOf a (dispatches log) ++ if ext.signer = a then [ext.nonce.toNat] else [] := by
    intro a
    rw [dispatches_append, hsame, noncesOf_append, ← noncesOf_singleton]
    rfl
  refine ⟨?_, h'.raised, ?_, ?_⟩
  · rw [writes_append, replay_append]
    exact h'.stored
  · intro a
    rw [hnonces]
    split_ifs with ha
    · rw [List.pairwise_append]
      refine ⟨h.increasing a, List.pairwise_singleton _ _, ?_⟩
      intro k hk j hj
      rw [List.mem_singleton.mp hj, ← hold, ha]
      exact (h.spent a k hk).2
    · rw [List.append_nil]
      exact h.increasing a
  · intro a k hk
    rw [hnonces, List.mem_append] at hk
    rcases hk with hk | hk
    · rw [← hsame] at hk
      exact h'.spent a k hk
    · split_ifs at hk with ha
      · rw [List.mem_singleton.mp hk, ← ha]
        constructor
        · rw [← hold]
          exact h.raised ext.signer
        · rw [hnew]
          exact Nat.lt_succ_self _
      · exact absurd hk List.not_mem_nil

end NoncesSpent

/-- A beginning of a concatenation ends in one of its two parts. -/
theorem prefix_append_cases {α : Type} {cut l es : List α} (h : cut <+: l ++ es) :
    cut <+: l ∨ ∃ part, part <+: es ∧ cut = l ++ part := by
  rcases List.prefix_or_prefix_of_prefix h (List.prefix_append l es) with hcut | ⟨part, rfl⟩
  · exact .inl hcut
  · exact .inr ⟨part, (List.prefix_append_right_inj l).mp h, rfl⟩

/-- The spent nonces are in order at every point of the log, and the store holds those of the
runtime at its end. -/
def SpentThroughout (db : Entries) (start : ExtTreeMap Types.AccountId Types.Nonce)
    (rt : Runtime) (log : List Event) : Prop :=
  NoncesSpent db start rt.system.nonceMap log ∧
    ∀ cut, cut <+: log → ∃ m, NoncesSpent db start m cut

theorem SpentThroughout.quiet {db : Entries} {start : ExtTreeMap Types.AccountId Types.Nonce}
    {rt rt' : Runtime} {log es : List Event} (h : SpentThroughout db start rt log)
    (hnonces : rt'.system.nonceMap = rt.system.nonceMap) (hes : ∀ e ∈ es, Quiet e) :
    SpentThroughout db start rt' (log ++ es) := by
  constructor
  · rw [hnonces]
    exact h.1.quiet hes
  · intro cut hcut
    rcases prefix_append_cases hcut with hcut | ⟨part, hpart, rfl⟩
    · exact h.2 cut hcut
    · exact ⟨_, h.1.quiet fun e he => hes e (hpart.subset he)⟩

/-! ## What the operations log -/

theorem quiet_write {w : Write} {p : Bytes} (hp : Apart p System.prefixNonce)
    (hw : p <+: w.key) : Quiet (.write w) := by
  refine ⟨rfl, ?_⟩
  rintro _ ⟨⟩
  exact hp.not_prefix hw

theorem quiet_text (text : String) : Quiet (.println text) ∧ Quiet (.eprintln text) :=
  ⟨⟨rfl, nofun⟩, ⟨rfl, nofun⟩⟩

theorem Runtime.DispatchEffect.quiet {caller : Types.AccountId} {rt : Runtime}
    {call : RuntimeCall} {r : Run Event Runtime DispatchResult}
    (h : DispatchEffect caller rt call r) : ∀ e ∈ r.log, Quiet e := by
  cases h with
  | failed => exact fun e he => absurd he List.not_mem_nil
  | transferred =>
      rw [List.forall_mem_cons, List.forall_mem_singleton]
      exact ⟨quiet_write apart_balance_nonce (List.prefix_append _ _),
        quiet_write apart_balance_nonce (List.prefix_append _ _)⟩
  | created =>
      rw [List.forall_mem_singleton]
      exact quiet_write apart_poe_nonce (List.prefix_append _ _)
  | revoked =>
      rw [List.forall_mem_singleton]
      exact quiet_write apart_poe_nonce (List.prefix_append _ _)

section Keeps

variable [Ed25519] {db : Entries} {start : ExtTreeMap Types.AccountId Types.Nonce}

/-- The nonce is stored before the dispatch starts, and whatever follows is quiet. -/
theorem Runtime.ExtrinsicEffect.spentThroughout {ext : Types.Extrinsic} {rt : Runtime}
    {r : Run Event Runtime Unit} (heff : ExtrinsicEffect ext rt r) {log : List Event}
    (h : SpentThroughout db start rt log) : SpentThroughout db start r.state (log ++ r.log) := by
  cases heff with
  | skipped text hacc =>
      refine h.quiet rfl ?_
      rw [List.forall_mem_singleton]
      exact (quiet_text text).2
  | overflowed hacc hmax => exact h.quiet rfl fun e he => absurd he List.not_mem_nil
  | @applied m state res elog tail hacc hm hd htail =>
      have hold : (rt.system.nonceMap.getD ext.signer 0).toNat = ext.nonce.toNat :=
        congrArg BitVec.toNat hacc.2
      have hput : NoncesSpent db start (rt.system.nonceMap.insert ext.signer m)
          (log ++ [.write (.put (System.Pallet.nonceKey ext.signer) (encode m))]) := by
        apply h.1.put_nonce
        rw [hold, hm]
        exact Nat.le_succ _
      have hstarted : NoncesSpent db start (rt.system.nonceMap.insert ext.signer m)
          ((log ++ [.write (.put (System.Pallet.nonceKey ext.signer) (encode m))]) ++
            [.dispatching ext]) := by
        refine h.1.dispatching hput ?_ hold ?_
        · rw [dispatches_append]
          exact List.append_nil _
        · rw [ExtTreeMap.getD_insert_self, hm]
      have hrest : ∀ e ∈ elog ++ .dispatched res :: tail, Quiet e := by
        intro e he
        rcases List.mem_append.mp he with he | he
        · exact hd.quiet e he
        · rcases List.mem_cons.mp he with rfl | he
          · exact ⟨rfl, nofun⟩
          · have hwrite := List.filterMap_eq_nil_iff.mp htail.1 e he
            refine ⟨List.filterMap_eq_nil_iff.mp htail.2 e he, ?_⟩
            rw [hwrite]
            exact nofun
      have hstate : state.system.nonceMap = rt.system.nonceMap.insert ext.signer m :=
        congrArg System.Pallet.nonceMap hd.system_eq
      have hsplit : ∀ es : List Event, log ++
          .write (.put (System.Pallet.nonceKey ext.signer) (encode m)) :: .dispatching ext :: es =
            ((log ++ [.write (.put (System.Pallet.nonceKey ext.signer) (encode m))]) ++
              [.dispatching ext]) ++ es := by
        intro es
        simp
      rw [hsplit]
      constructor
      · rw [hstate]
        exact hstarted.quiet hrest
      · -- the cut is before the nonce write, right after it, or after the start of the dispatch
        intro cut hcut
        rcases prefix_append_cases hcut with hcut | ⟨part, hpart, rfl⟩
        · rcases List.prefix_concat_iff.mp hcut with rfl | hcut
          · exact ⟨_, hstarted⟩
          · rcases List.prefix_concat_iff.mp hcut with rfl | hcut
            · exact ⟨_, hput⟩
            · exact h.2 cut hcut
        · exact ⟨_, hstarted.quiet fun e he => hrest e (hpart.subset he)⟩

theorem keeps_spent_executeBlock (block : Types.Block) :
    Exec.Keeps (SpentThroughout db start) (executeBlock block) := by
  refine keeps_executeBlock ?_ ?_ block
  · intro s n l h
    refine h.quiet rfl ?_
    rw [List.forall_mem_singleton]
    exact quiet_write apart_blockNumber_nonce List.prefix_rfl
  · intro ext s r l heff h
    exact heff.spentThroughout h

omit [Ed25519] in
theorem keeps_spent_setBalance (who : Types.AccountId) (amount : Types.Balance) :
    Exec.Keeps (SpentThroughout db start)
      (onBalances (Balances.Pallet.setBalance who amount)) := by
  intro s l h
  refine h.quiet rfl ?_
  intro e he
  rw [List.mem_singleton.mp he]
  exact quiet_write apart_balance_nonce (List.prefix_append _ _)

theorem keeps_spent_operation (op : Operation) :
    Exec.Keeps (SpentThroughout db start) op.run := by
  cases op with
  | executeBlock block =>
      exact Exec.keeps_bind (keeps_spent_executeBlock block) fun _ => Exec.keeps_pure ()
  | setBalance who amount => exact keeps_spent_setBalance who amount
  | maybeApplyGenesis =>
      refine keeps_maybeApplyGenesis keeps_spent_setBalance keeps_spent_executeBlock ?_
      intro text s l h
      refine h.quiet rfl ?_
      rw [Exec.emit_apply, List.forall_mem_singleton]
      exact (quiet_text text).1

end Keeps

/-! ## Lives -/

section Lives

variable [Ed25519]

/-- One life, cut anywhere, spends nonces between those it loads and those the next one loads. -/
theorem Life.spent {db : Entries} {m : ExtTreeMap Types.AccountId Types.Nonce}
    (hdb : Mirrors System.prefixNonce db m) (life : Life) :
    ∃ m', NoncesSpent db m m' (life.log db) := by
  have hload : (Runtime.new db).system.nonceMap = m := hdb.loadMap_eq encode_account_ne_nil
  have hstart : SpentThroughout db m (Runtime.new db) [] := by
    have hnil : NoncesSpent db m m [] :=
      ⟨hdb, fun _ => Nat.le_refl _, fun _ => List.Pairwise.nil,
        fun _ _ hn => absurd hn List.not_mem_nil⟩
    refine ⟨hload ▸ hnil, ?_⟩
    intro cut hcut
    rw [List.prefix_nil.mp hcut]
    exact ⟨m, hnil⟩
  have hend := Exec.keeps_each Operation.run keeps_spent_operation life.operations _ _ hstart
  exact hend.2 (life.log db) (List.take_prefix _ _)

/-- Over any lives the nonces of an account increase, from the one stored at the start on. -/
theorem lifetimes_increasing (lives : List Life) {db : Entries}
    {m : ExtTreeMap Types.AccountId Types.Nonce} (hdb : Mirrors System.prefixNonce db m)
    (a : Types.AccountId) :
    (noncesOf a (dispatches (lifetimes db lives))).Pairwise (· < ·) ∧
      ∀ n ∈ noncesOf a (dispatches (lifetimes db lives)), (m.getD a 0).toNat ≤ n := by
  induction lives generalizing db m with
  | nil => exact ⟨List.Pairwise.nil, fun n hn => absurd hn List.not_mem_nil⟩
  | cons life lives ih =>
      obtain ⟨m', hspent⟩ := life.spent hdb
      obtain ⟨hlater, hbound⟩ := ih hspent.stored
      rw [lifetimes, dispatches_append, noncesOf_append]
      constructor
      · rw [List.pairwise_append]
        refine ⟨hspent.increasing a, hlater, ?_⟩
        intro n hn k hk
        calc n < (m'.getD a 0).toNat := (hspent.spent a n hn).2
          _ ≤ k := hbound k hk
      · intro n hn
        rcases List.mem_append.mp hn with hn | hn
        · exact (hspent.spent a n hn).1
        · calc (m.getD a 0).toNat ≤ (m'.getD a 0).toNat := hspent.raised a
            _ ≤ n := hbound n hn

/-- Whatever the process runs and wherever it crashes, the dispatched nonces of an account
increase over all its lives, and no pair of signer and nonce is dispatched twice. -/
theorem no_replay_across_crashes {db : Entries}
    (hdb : ∃ m : ExtTreeMap Types.AccountId Types.Nonce, Mirrors System.prefixNonce db m)
    (lives : List Life) :
    (∀ a, (noncesOf a (dispatches (lifetimes db lives))).Pairwise (· < ·)) ∧
      ((dispatches (lifetimes db lives)).map fun e => (e.signer, e.nonce)).Nodup := by
  obtain ⟨m, hm⟩ := hdb
  have hincreasing : ∀ a, (noncesOf a (dispatches (lifetimes db lives))).Pairwise (· < ·) :=
    fun a => (lifetimes_increasing lives hm a).1
  exact ⟨hincreasing, nodup_of_noncesOf_nodup fun a => (hincreasing a).imp Nat.ne_of_lt⟩

/-- Genesis and a payment of Alice, cut right after the start of its dispatch; then the same
payment again in the next block. -/
def crashedPayment : List Life :=
  let bob := @AccountKeyring.publicKey .transparent .bob
  let payment := @UncheckedExtrinsic.newSigned _ _ .transparent AccountKeyring.alice.signingKey 0
    (.balances (.transfer bob 30))
  [⟨[.maybeApplyGenesis, .executeBlock ⟨⟨2⟩, [payment]⟩], 8⟩,
    ⟨[.maybeApplyGenesis, .executeBlock ⟨⟨3⟩, [payment]⟩], 100⟩]

omit [Ed25519] in
/-- The payment's dispatch is started once, in the first life, and it moves nothing. -/
theorem no_replay_across_crashes_crashedPayment :
    (dispatches (@lifetimes .transparent ∅ crashedPayment)).length = 1 ∧
      ((dispatches (@lifetimes .transparent ∅ crashedPayment)).map
        fun e => (e.signer, e.nonce)).Nodup :=
  ⟨by decide +kernel,
    (@no_replay_across_crashes .transparent ∅ ⟨∅, mirrors_empty _⟩ crashedPayment).2⟩

end Lives

end RustStateMachine
