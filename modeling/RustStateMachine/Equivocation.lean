import RustStateMachine.Losses

/-!
# No equivocation

A node hands a block over for publication once it was executed, and the height
is in the store by then. So over any number of crashes and restarts the blocks
of a node carry increasing heights: it never publishes two for one height.
-/

namespace RustStateMachine

open Lib Lib.Crashes Lib.KeyValue Std Support

open RustStateMachine.Runtime

/-! ## What outlasts a crash -/

/-- The store of a node, and the block messages it has handed over for publication. -/
structure Trail where
  store : Entries
  published : List Bytes

/-- What an entry of the log of a node changes in it. -/
def outlast (e : NodeEvent) (t : Trail) : Trail :=
  match e with
  | .runtime event => { t with store := store event t.store }
  | .publish data => { t with published := t.published ++ [data] }
  | .println _ => t
  | .eprintln _ => t

theorem durable_outlast (t : Trail) (log : List NodeEvent) :
    durable outlast t log =
      ⟨replay t.store (writes (runtimeLog log)), t.published ++ published log⟩ := by
  induction log generalizing t with
  | nil =>
      obtain ⟨db, msgs⟩ := t
      exact congrArg (Trail.mk db) (List.append_nil msgs).symm
  | cons e log ih =>
      rw [durable_cons, ih]
      cases e with
      | runtime event =>
          have hstore := durable_store t.store [event]
          rw [durable_cons, durable_nil] at hstore
          have hwrites : writes (runtimeLog (.runtime event :: log)) =
              writes [event] ++ writes (runtimeLog log) := writes_append [event] (runtimeLog log)
          rw [hwrites, replay_append, ← hstore]
          rfl
      | publish data =>
          have hpublished : published (.publish data :: log) = data :: published log := rfl
          rw [hpublished, List.append_cons]
          rfl
      | println text => rfl
      | eprintln text => rfl

/-- Messages of blocks with increasing heights, up to `h`. -/
def UpTo (h : ℕ) (msgs : List Bytes) : Prop :=
  ∃ blocks : List Types.Block, msgs = blocks.map encode ∧
    (blocks.map fun b => b.header.blockNumber.toNat).Pairwise (· < ·) ∧
    ∀ b ∈ blocks, b.header.blockNumber.toNat ≤ h

theorem UpTo.nil (h : ℕ) : UpTo h [] := ⟨[], rfl, .nil, List.forall_mem_nil _⟩

theorem UpTo.mono {h h' : ℕ} {msgs : List Bytes} (hu : UpTo h msgs) (hle : h ≤ h') :
    UpTo h' msgs := by
  obtain ⟨blocks, hmsgs, hsorted, hbound⟩ := hu
  exact ⟨blocks, hmsgs, hsorted, fun b hb => (hbound b hb).trans hle⟩

theorem UpTo.snoc {h : ℕ} {msgs : List Bytes} (hu : UpTo h msgs) {block : Types.Block}
    (hnum : block.header.blockNumber.toNat = h + 1) : UpTo (h + 1) (msgs ++ [encode block]) := by
  obtain ⟨blocks, rfl, hsorted, hbound⟩ := hu
  refine ⟨blocks ++ [block], ?_, ?_, ?_⟩
  · rw [List.map_append, List.map_singleton]
  · rw [List.map_append, List.pairwise_append]
    refine ⟨hsorted, List.pairwise_singleton _ _, ?_⟩
    intro m hm n hn
    obtain ⟨b, hb, rfl⟩ := List.mem_map.mp hm
    rw [List.map_singleton, List.mem_singleton, hnum] at hn
    rw [hn]
    exact Nat.lt_succ_of_le (hbound b hb)
  · intro b hb
    rcases List.mem_append.mp hb with hb | hb
    · exact (hbound b hb).trans (Nat.le_succ h)
    · rw [List.mem_singleton.mp hb, hnum]

/-- The store is one of the pallets, and no published block is above the height it holds. -/
structure Honest (t : Trail) : Prop where
  store : WrittenByPallets t.store
  upTo : UpTo (Runtime.new t.store).height t.published

/-- The same of the height in memory, which the store holds. -/
structure Keeping (rt : Runtime) (t : Trail) : Prop where
  store : WrittenByPallets t.store
  persisted : Persisted t.store rt
  upTo : UpTo rt.height t.published

theorem height_new {db : Entries} {rt : Runtime} (h : Persisted db rt) :
    (Runtime.new db).height = rt.height := by
  rw [height, height, h.new_eq.1]

theorem Keeping.honest {rt : Runtime} {t : Trail} (h : Keeping rt t) : Honest t := by
  refine ⟨h.store, ?_⟩
  rw [height_new h.persisted]
  exact h.upTo

theorem Honest.keeping {t : Trail} (h : Honest t) : Keeping (Runtime.new t.store) t :=
  ⟨h.store, h.store.persisted, h.upTo⟩

/-! ## Steps -/

/-- What a runtime that counts writes is honest wherever it is cut off. -/
theorem Keeping.counting {rt rt' : Runtime} {t : Trail} {log : List Event} (h : Keeping rt t)
    (hcounting : Counting rt rt' log) (hpersisted : Persisted (replay t.store (writes log)) rt') :
    Keeping rt' (durable outlast t (log.map .runtime)) ∧
      Throughout outlast Honest t (log.map .runtime) := by
  have htrail : ∀ cut : List Event, durable outlast t (cut.map .runtime) =
      ⟨replay t.store (writes cut), t.published⟩ := by
    intro cut
    rw [durable_outlast, Process.runtimeLog_map_runtime, published_map_runtime, List.append_nil]
  constructor
  · rw [htrail]
    exact ⟨h.store.replay_palletWrites hcounting.entries, hpersisted,
      h.upTo.mono hcounting.height.le⟩
  · intro cut hcut
    obtain ⟨cut, hbefore, rfl⟩ := List.prefix_map_iff.mp hcut
    have hkept : (writes cut).Sublist (writes log) := (hbefore.filterMap Event.write?).sublist
    have hstore : WrittenByPallets (replay t.store (writes cut)) :=
      h.store.replay_palletWrites fun w hw => hcounting.entries w (hkept.subset hw)
    have hread : ReadsBack System.prefixBlockNumber (writes cut) rt.system.blockNumber
        rt'.system.blockNumber (Runtime.new (replay t.store (writes cut))).system.blockNumber :=
      readsBack_of_countsUp hcounting.height hkept (fun _ => hstore.persisted.blockNumber_eq)
        (h.persisted.blockNumber_congr hstore.persisted)
    rw [htrail]
    exact ⟨hstore, h.upTo.mono hread.ge⟩

/-- A report that publishes nothing. -/
theorem Honest.quiet {t : Trail} (h : Honest t) {report : List NodeEvent}
    (hruntime : runtimeLog report = []) (hpublished : published report = []) :
    Throughout outlast Honest t report := by
  intro cut hcut
  have hnone : runtimeLog cut = [] :=
    List.prefix_nil.mp (hruntime ▸ hcut.filterMap NodeEvent.runtime?)
  have hnone' : published cut = [] :=
    List.prefix_nil.mp (hpublished ▸ hcut.filterMap NodeEvent.publish?)
  rw [durable_outlast, hnone, hnone', List.append_nil]
  exact h

theorem Keeping.quiet {rt : Runtime} {t : Trail} (h : Keeping rt t) {report : List NodeEvent}
    (hruntime : runtimeLog report = []) (hpublished : published report = []) :
    Keeping rt (durable outlast t report) ∧ Throughout outlast Honest t report := by
  refine ⟨?_, h.honest.quiet hruntime hpublished⟩
  rw [durable_outlast, hruntime, hpublished, List.append_nil]
  exact h

/-- The block that raised the height is handed over for publication. -/
theorem Keeping.publish {rt : Runtime} {t : Trail} (h : Keeping rt t) {below : ℕ}
    (hbelow : UpTo below t.published) (hheight : rt.height = below + 1) {block : Types.Block}
    (hnum : block.header.blockNumber.toNat = below + 1) :
    Keeping rt (durable outlast t [.publish (encode block)]) ∧
      Throughout outlast Honest t [.publish (encode block)] := by
  have hnext : Keeping rt ⟨t.store, t.published ++ [encode block]⟩ := by
    refine ⟨h.store, h.persisted, ?_⟩
    rw [hheight]
    exact hbelow.snoc hnum
  exact ⟨hnext, throughout_cons.mpr ⟨h.honest, throughout_nil.mpr hnext.honest⟩⟩

/-! ## The log of a process -/

section Process

variable [Ed25519] {PeerId : Type}

/-- A block leaves the node honest wherever its execution is cut off. -/
theorem Keeping.executeBlock {rt : Runtime} {t : Trail} (h : Keeping rt t) (block : Types.Block) :
    let r := Runtime.executeBlock block rt
    Keeping r.state (durable outlast t (r.log.map .runtime)) ∧
      Throughout outlast Honest t (r.log.map .runtime) :=
  h.counting (keeps_counting rt block rt [] (Counting.refl rt))
    (keeps_persisted_executeBlock t.store block rt [] h.persisted)

theorem Process.Logged.recoverable {p p' : Process PeerId} (hstep : Process.Logged p p')
    {t : Trail} (h : Recoverable outlast Keeping Honest t p.server.node.runtime p.log) :
    Recoverable outlast Keeping Honest t p'.server.node.runtime p'.log := by
  cases hstep with
  | nothing hrt hlog hannounced =>
      rw [hrt, hlog]
      exact h
  | executed block report hruntime hpublished hrt hlog hannounced =>
      rw [hrt, hlog]
      refine h.extend fun hkeeping => ?_
      obtain ⟨hend, hcuts⟩ := hkeeping.executeBlock block
      obtain ⟨hend', hcuts'⟩ := hend.quiet hruntime hpublished
      rw [durable_append]
      exact ⟨hend', throughout_append.mpr ⟨hcuts, hcuts'⟩⟩
  | produced block hnum hret hrt hlog hannounced =>
      have hreport : producedReport block (.ret (.ok ())) =
          (producedLines block).map .println ++ [.publish (encode block)] := rfl
      rw [hrt, hlog, hreport]
      refine h.extend fun hkeeping => ?_
      obtain ⟨hend, hcuts⟩ := hkeeping.executeBlock block
      have hreturns : (Runtime.executeBlock block p.server.node.runtime).outcome.Returns := by
        rw [hret]
        trivial
      have hheight := height_executeBlock hreturns
      have hlines : runtimeLog ((producedLines block).map .println) = [] :=
        Process.runtimeLog_map_println _
      obtain ⟨hend', hcuts'⟩ := hend.quiet hlines (published_map_println _)
      have hbelow : UpTo p.server.node.runtime.height
          (durable outlast (durable outlast (durable outlast t p.log)
            ((Runtime.executeBlock block p.server.node.runtime).log.map .runtime))
            ((producedLines block).map .println)).published := by
        rw [durable_outlast, durable_outlast (durable outlast t p.log), published_map_println,
          published_map_runtime, List.append_nil, List.append_nil]
        exact hkeeping.upTo
      obtain ⟨hend'', hcuts''⟩ := hend'.publish hbelow hheight hnum
      rw [durable_append, durable_append]
      exact ⟨hend'', throughout_append.mpr ⟨hcuts, throughout_append.mpr ⟨hcuts', hcuts''⟩⟩⟩

/-! ## Lives -/

/-- What a life of the node does, from what it finds: it loads the runtime, applies genesis and
takes its steps. -/
def NodeLife.trace [LinearOrder PeerId] (life : NodeLife PeerId) (t : Trail) : List NodeEvent :=
  (startUp t.store).log.map .runtime ++
    match (startUp t.store).outcome with
    | .ret _ => (Trace.run Process.next life.moves (Process.start
        ⟨life.id, [life.id], (startUp t.store).state, Mempool.withBlockLimit 3⟩)).log
    | .panicked _ => []

/-- The runtime's part of the trace of a life is its log. -/
theorem NodeLife.runtimeLog_trace [LinearOrder PeerId] (life : NodeLife PeerId) (t : Trail) :
    runtimeLog (life.trace t) = life.log t.store := by
  rw [NodeLife.trace, NodeLife.log, Process.runtimeLog_append, Process.runtimeLog_map_runtime]
  cases (startUp t.store).outcome with
  | ret _ => rfl
  | panicked m => rfl

theorem Honest.startUp {t : Trail} (h : Honest t) :
    let r := Runtime.startUp t.store
    Keeping r.state (durable outlast t (r.log.map .runtime)) ∧
      Throughout outlast Honest t (r.log.map .runtime) :=
  h.keeping.counting (counting_startUp t.store)
    (keeps_persisted_operation t.store .maybeApplyGenesis _ [] h.store.persisted)

theorem NodeLife.honest [LinearOrder PeerId] (life : NodeLife PeerId) {t : Trail} (h : Honest t) :
    Throughout outlast Honest t (life.trace t) := by
  obtain ⟨hbegin, hcuts⟩ := h.startUp
  refine throughout_append.mpr ⟨hcuts, ?_⟩
  cases (startUp t.store).outcome with
  | panicked m => exact throughout_nil.mpr hbegin.honest
  | ret _ =>
      have hrun := Trace.run_keeps (I := fun p : Process PeerId => Recoverable outlast Keeping
        Honest (durable outlast t ((Runtime.startUp t.store).log.map .runtime))
        p.server.node.runtime p.log) (fun move p hp => (Process.logged_next move p).recoverable hp)
        life.moves (s := Process.start
          ⟨life.id, [life.id], (Runtime.startUp t.store).state, Mempool.withBlockLimit 3⟩)
        ⟨hbegin, throughout_nil.mpr hbegin.honest⟩
      exact hrun.2

/-- However often a node crashes, wherever, and whatever it is sent: the blocks it has handed over
for publication carry increasing heights, none above the height in its store. -/
theorem no_equivocation [LinearOrder PeerId] {db : Entries} (hdb : WrittenByPallets db)
    (lives : List (NodeLife PeerId × ℕ)) :
    let t := outlived outlast NodeLife.trace lives ⟨db, []⟩
    ∃ blocks : List Types.Block, t.published = blocks.map encode ∧
      (blocks.map fun b => b.header.blockNumber.toNat).Pairwise (· < ·) ∧
      ∀ b ∈ blocks, b.header.blockNumber.toNat ≤ (Runtime.new t.store).height := by
  intro t
  have hhonest : Honest t :=
    outlived_keeps (fun life _ ht => life.honest ht) lives ⟨hdb, UpTo.nil _⟩
  exact hhonest.upTo

end Process

/-- The second of three lives crashes before it hands over the block it has executed. -/
theorem no_equivocation_crash :
    let := Ed25519.ledger signedTwice
    let life : NodeLife ℕ := ⟨0, paymentMoves⟩
    let t := outlived outlast NodeLife.trace [(life, 100), (life, 1), (life, 100)]
      ⟨genesisStore, []⟩
    t.published.length = 2 ∧ ∃ blocks : List Types.Block, t.published = blocks.map encode ∧
      (blocks.map fun b => b.header.blockNumber.toNat).Pairwise (· < ·) ∧
      ∀ b ∈ blocks, b.header.blockNumber.toNat ≤ (Runtime.new t.store).height := by
  intro scheme life t
  have hwritten : WrittenByPallets genesisStore :=
    writtenByPallets_operations [.maybeApplyGenesis]
  refine ⟨by decide +kernel, ?_⟩
  exact no_equivocation hwritten [(life, 100), (life, 1), (life, 100)]

end RustStateMachine
