import RustStateMachine.Lag
import RustStateMachine.Lib.Rounds

/-!
# Forks stay apart

Nodes that take part in the same slots from different heights. A block raises
everybody's height and is applied only by nodes at its author's height, so the
nodes of one height go on as if the others did not exist.
-/

namespace RustStateMachine

open Lib Lib.KeyValue Lib.Network Std Support

namespace Node

variable {PeerId : Type}

/-- The node is running, and its id, its peers and its block limit are as before. -/
structure Healthy (node : Node PeerId) (r : Run NodeEvent (Node PeerId) Unit) : Prop where
  returned : r.outcome = .ret ()
  id_eq : r.state.id = node.id
  peers_eq : r.state.peers = node.peers
  limit_eq : r.state.limit = node.limit

theorem Orderly.healthy {node : Node PeerId} {r : Run NodeEvent (Node PeerId) Unit}
    (h : Orderly node r) : Healthy node r := ⟨h.returned, h.id_eq, h.peers_eq, h.limit_eq⟩

variable [Ed25519]

/-- The bytes are those of a block one above the height of `author`, whose nonces can be counted. -/
def Proposes (data : Bytes) (block : Types.Block) (author : Runtime) : Prop :=
  decode data = some (block, []) ∧ block.header.blockNumber.toNat = author.height + 1 ∧
    ∀ e ∈ block.extrinsics, e.nonce ≠ BitVec.allOnes 32

/-- A node below the greatest height survives a proposed block, whatever it makes of it. -/
theorem Proposes.returns {data : Bytes} {block : Types.Block} {author rt : Runtime}
    (h : Proposes data block author) (hheight : rt.height + 1 < 2 ^ 32) :
    (Runtime.executeBlock block rt).outcome.Returns := by
  by_cases hnum : block.header.blockNumber.toNat = rt.height + 1
  · obtain ⟨rt', log, hexec⟩ := Runtime.executeBlock_ok block rt hnum h.2.2
    rw [hexec]
    trivial
  · obtain ⟨m, hm⟩ : ∃ m : Types.BlockNumber, m.toNat = rt.height + 1 := by
      refine ⟨BitVec.ofNat 32 (rt.height + 1), ?_⟩
      rw [BitVec.toNat_ofNat, Nat.mod_eq_of_lt hheight]
    refine (Runtime.executeBlock_of_other hm ?_).1
    rintro rfl
    exact hnum hm

theorem receiveMessage_of_proposed {data : Bytes} {block : Types.Block} {author : Runtime}
    (h : Proposes data block author) {self : Node PeerId}
    (hheight : self.runtime.height + 1 < 2 ^ 32) :
    Healthy self (receiveMessage data self) ∧
      (receiveMessage data self).state.runtime =
        (Runtime.executeBlock block self.runtime).state ∧
      published (receiveMessage data self).log = [] := by
  have hret := h.returns hheight
  have hrun : receiveMessage data self = receiveBlock block self := by
    rw [receiveMessage, h.1]
  rw [hrun]
  cases hexec : Runtime.executeBlock block self.runtime with
  | mk o rt log =>
      rw [hexec] at hret
      cases o with
      | ret res =>
          cases res with
          | ok u =>
              rw [receiveBlock_of_ok hexec]
              refine ⟨⟨rfl, rfl, rfl, rfl⟩, rfl, ?_⟩
              rw [published_append, published_map_runtime]
              rfl
          | error e =>
              rw [receiveBlock_of_error hexec]
              refine ⟨⟨rfl, rfl, rfl, rfl⟩, rfl, ?_⟩
              rw [published_append, published_map_runtime]
              rfl
      | panicked m => exact absurd hret (Outcome.not_returns_panicked m)

/-- The author proposes the block it has applied. -/
theorem produceBlock_proposes {self : Node PeerId} (order : HashOrder)
    (hlimit : self.limit < 2 ^ 32) (hnonces : self.NoncesBelowMax)
    (hheight : self.runtime.height + 1 < 2 ^ 32) :
    ∃ data block, Proposes data block self.runtime ∧
      (Runtime.executeBlock block self.runtime).outcome = .ret (.ok ()) ∧
      (produceBlock order self).state.runtime =
        (Runtime.executeBlock block self.runtime).state ∧
      published (produceBlock order self).log = [data] := by
  have hbatch := hnonces.batch_nonce_ne order
  obtain ⟨block, rt, log, lines, hexts, hnum, hexec, hrun⟩ := produceBlock_of_fits hbatch hheight
  rw [hrun]
  refine ⟨encode block, block, ⟨?_, hnum, hexts ▸ hbatch⟩, ?_, ?_, ?_⟩
  · have hlen : block.extrinsics.length < 2 ^ 32 := by
      rw [hexts]
      exact (self.batch_length_le order).trans_lt hlimit
    have hread := decode_block_append hlen []
    rwa [List.append_nil] at hread
  · rw [hexec]
  · rw [hexec]
  · rw [published_append, published_append, published_map_runtime, published_map_println]
    rfl

end Node

section Slots

variable [Ed25519] {PeerId : Type} [DecidableEq PeerId] {n : ℕ}

/-- Every node runs with its configuration. -/
abbrev Functioning (peers : List PeerId) (ids : Fin n → PeerId) (net : Net PeerId n) : Prop :=
  net.Running (Configured peers ids) fun _ => True

omit [Ed25519] [DecidableEq PeerId] in
theorem Functioning.act {peers : List PeerId} {ids : Fin n → PeerId} {net : Net PeerId n}
    (h : Functioning peers ids net) {i : Fin n} {x : Exec NodeEvent (Node PeerId) Unit}
    (hx : Node.Healthy (net.party i) (x (net.party i))) :
    Functioning peers ids (net.act published i x) := by
  have hconf := h.parties i
  refine Network.Running.act h hx.returned ?_ fun _ _ => trivial
  exact ⟨hx.id_eq.trans hconf.id_eq, hx.peers_eq.trans hconf.peers_eq,
    hx.limit_eq ▸ hconf.limit_lt⟩

/-- What every node makes of the block. -/
def executed (block : Types.Block) (s : Fin n → Runtime) : Fin n → Runtime :=
  fun i => (Runtime.executeBlock block (s i)).state

section OneSlot

variable {peers : List PeerId} {ids : Fin n → PeerId} {author : Fin n} {slot : ℕ}
  {net net' : Net PeerId n} {s : Fin n → Runtime}

theorem tick_idle (hn : 2 ≤ n) (hroster : Roster peers ids)
    (hauthor : peers[slot % peers.length]? = some (ids author))
    (honly : ∀ j, ids author = ids j → j = author) (hnet : Functioning peers ids net) {i : Fin n}
    (hi : i ≠ author) (order : HashOrder) :
    Node.tick slot order (net.party i) = ⟨.ret (), net.party i, []⟩ := by
  have hconf := hnet.parties i
  apply Node.tick_of_other
  · rw [hconf.peers_eq, hroster.length_eq]
    exact hn
  · rw [hconf.peers_eq]
    exact hauthor
  · rw [hconf.id_eq]
    exact fun heq => hi (honly i heq)

/-- Before the author's tick the runtimes stay; the tick sends a block one above its height. -/
theorem still_step (hn : 2 ≤ n) (hroster : Roster peers ids)
    (hauthor : peers[slot % peers.length]? = some (ids author))
    (honly : ∀ j, ids author = ids j → j = author) {a : Action n} (hstep : Step slot net a net')
    (hnet : Functioning peers ids net) (hstill : net.Still Node.runtime s)
    (hheight : ∀ i, (s i).height + 1 < 2 ^ 32) :
    Functioning peers ids net' ∧
      if a.isTick author then
        ∃ data block, Node.Proposes data block (s author) ∧
          (Runtime.executeBlock block (s author)).outcome = .ret (.ok ()) ∧
          net'.Passing Node.runtime data s (executed block s)
      else net'.Still Node.runtime s := by
  cases hstep with
  | submit i ext =>
      exact ⟨hnet.act (Node.receiveExtrinsic_orderly ext _).healthy,
        hstill.act (hnet.awake i) rfl rfl⟩
  | tick i order hnonces =>
      by_cases hi : i = author
      · subst hi
        have hconf := hnet.parties i
        have htick : Node.tick slot order (net.party i) =
            Node.produceBlock order (net.party i) := by
          apply Node.tick_of_author
          · rw [hconf.peers_eq, hroster.length_eq]
            exact hn
          · rw [hconf.peers_eq, hconf.id_eq]
            exact hauthor
        have hheight' : (net.party i).runtime.height + 1 < 2 ^ 32 := by
          rw [hstill.views i]
          exact hheight i
        obtain ⟨data, block, hproposes, hok, hview, hsent⟩ :=
          Node.produceBlock_proposes order hconf.limit_lt hnonces hheight'
        have horderly := (Node.produceBlock_extends order hconf.limit_lt hnonces hheight').1
        rw [← htick] at hview hsent horderly
        rw [hstill.views i] at hproposes hok hview
        refine ⟨hnet.act horderly.healthy, ?_⟩
        rw [if_pos (by simp [Action.isTick])]
        exact ⟨data, block, hproposes, hok, hstill.send (hnet.awake i) hview hsent⟩
      · have hidle := tick_idle hn hroster hauthor honly hnet hi order
        refine ⟨hnet.act ?_, ?_⟩
        · rw [hidle]
          exact ⟨rfl, rfl, rfl, rfl⟩
        · rw [if_neg (by simp [Action.isTick, hi])]
          refine hstill.act (hnet.awake i) ?_ ?_
          · rw [hidle]
          · rw [hidle]
            rfl
  | deliver i data hmem =>
      rw [hstill.empty] at hmem
      cases hmem

/-- After the author's tick every delivery hands its block to a node that still has to handle it. -/
theorem passing_step (hn : 2 ≤ n) (hroster : Roster peers ids)
    (hauthor : peers[slot % peers.length]? = some (ids author))
    (honly : ∀ j, ids author = ids j → j = author) {a : Action n} (hstep : Step slot net a net')
    (ha : a.isTick author = false) (hnet : Functioning peers ids net) {data : Bytes}
    {block : Types.Block} (hproposes : Node.Proposes data block (s author))
    (hpassing : net.Passing Node.runtime data s (executed block s))
    (hheight : ∀ i, (s i).height + 1 < 2 ^ 32) :
    Functioning peers ids net' ∧ net'.Passing Node.runtime data s (executed block s) := by
  cases hstep with
  | submit i ext =>
      exact ⟨hnet.act (Node.receiveExtrinsic_orderly ext _).healthy,
        hpassing.act (hnet.awake i) rfl rfl⟩
  | tick i order hnonces =>
      have hi : i ≠ author := by simpa [Action.isTick] using ha
      have hidle := tick_idle hn hroster hauthor honly hnet hi order
      constructor
      · apply hnet.act
        rw [hidle]
        exact ⟨rfl, rfl, rfl, rfl⟩
      · apply hpassing.act (hnet.awake i)
        · rw [hidle]
        · rw [hidle]
          rfl
  | deliver i bytes hmem =>
      have hdata : bytes = data := hpassing.message _ hmem
      subst hdata
      have hbefore := hpassing.waiting i (List.mem_map_of_mem hmem)
      have hheight' : (net.party i).runtime.height + 1 < 2 ^ 32 := by
        rw [hbefore]
        exact hheight i
      obtain ⟨hhealthy, hafter, hquiet⟩ := Node.receiveMessage_of_proposed hproposes hheight'
      rw [hbefore] at hafter
      constructor
      · exact Functioning.act (hnet.take i bytes) hhealthy
      · exact hpassing.deliver hmem (hnet.awake i) hafter hquiet

theorem passing_steps (hn : 2 ≤ n) (hroster : Roster peers ids)
    (hauthor : peers[slot % peers.length]? = some (ids author))
    (honly : ∀ j, ids author = ids j → j = author) {acts : List (Action n)}
    (hsteps : Steps slot net acts net') (hacts : (acts.countP fun a => a.isTick author) = 0)
    (hnet : Functioning peers ids net) {data : Bytes} {block : Types.Block}
    (hproposes : Node.Proposes data block (s author))
    (hpassing : net.Passing Node.runtime data s (executed block s))
    (hheight : ∀ i, (s i).height + 1 < 2 ^ 32) :
    Functioning peers ids net' ∧ net'.Passing Node.runtime data s (executed block s) := by
  induction hsteps with
  | nil => exact ⟨hnet, hpassing⟩
  | @cons _ _ _ a acts hstep _ ih =>
      rw [List.countP_eq_zero] at hacts
      have ha : a.isTick author = false := by simpa using hacts a List.mem_cons_self
      obtain ⟨hnet', hpassing'⟩ :=
        passing_step hn hroster hauthor honly hstep ha hnet hproposes hpassing hheight
      refine ih ?_ hnet' hpassing'
      rw [List.countP_eq_zero]
      exact fun b hb => hacts b (List.mem_cons_of_mem _ hb)

/-- The author's one tick splits the slot in two. -/
theorem still_steps (hn : 2 ≤ n) (hroster : Roster peers ids)
    (hauthor : peers[slot % peers.length]? = some (ids author))
    (honly : ∀ j, ids author = ids j → j = author) {acts : List (Action n)}
    (hsteps : Steps slot net acts net') (hacts : (acts.countP fun a => a.isTick author) = 1)
    (hnet : Functioning peers ids net) (hstill : net.Still Node.runtime s)
    (hheight : ∀ i, (s i).height + 1 < 2 ^ 32) :
    Functioning peers ids net' ∧ ∃ data block, Node.Proposes data block (s author) ∧
      (Runtime.executeBlock block (s author)).outcome = .ret (.ok ()) ∧
      net'.Passing Node.runtime data s (executed block s) := by
  induction hsteps with
  | nil => cases hacts
  | @cons _ _ _ a acts hstep hrest ih =>
      obtain ⟨hnet', hphase⟩ := still_step hn hroster hauthor honly hstep hnet hstill hheight
      rw [List.countP_cons] at hacts
      by_cases ha : a.isTick author
      · rw [if_pos ha] at hphase hacts
        obtain ⟨data, block, hproposes, hok, hpassing⟩ := hphase
        obtain ⟨hnet'', hpassing'⟩ := passing_steps hn hroster hauthor honly hrest
          (Nat.succ.inj hacts) hnet' hproposes hpassing hheight
        exact ⟨hnet'', data, block, hproposes, hok, hpassing'⟩
      · rw [if_neg ha] at hphase hacts
        exact ih hacts hnet' hphase

/-- A slot ends with one block handled by everybody, one above the height of its author. -/
theorem slot_executed (hn : 2 ≤ n) (hroster : Roster peers ids) {acts : List (Action n)}
    (hslot : Slot slot acts net net') (hnet : Functioning peers ids net)
    (hstill : net.Still Node.runtime s) (hheight : ∀ i, (s i).height + 1 < 2 ^ 32) :
    Functioning peers ids net' ∧ ∃ author data block, Node.Proposes data block (s author) ∧
      (Runtime.executeBlock block (s author)).outcome = .ret (.ok ()) ∧
      net'.Still Node.runtime (executed block s) := by
  obtain ⟨author, hauthor, honly⟩ := hroster.exists_author hn slot
  obtain ⟨hnet', data, block, hproposes, hok, hpassing⟩ := still_steps hn hroster hauthor honly
    hslot.steps (hslot.ticks author) hnet hstill hheight
  exact ⟨hnet', author, data, block, hproposes, hok, hpassing.still hslot.handled⟩

end OneSlot

/-- How a run starts: the same peer list of all nodes, nobody has crashed and nothing is on its
way. The runtimes are as they are. -/
structure Connected (peers : List PeerId) (net : Net PeerId n) : Prop where
  roster : Roster peers fun i => (net.party i).id
  peers_eq : ∀ i, (net.party i).peers = peers
  limit_lt : ∀ i, (net.party i).limit < 2 ^ 32
  awake : ∀ i, net.halted i = false
  empty : net.inFlight = []

/-- What node `i` makes of a block: it executes those of the nodes that started at its own height
and only counts the others. -/
def followed (start : Net PeerId n) (i : Fin n) (rt : Runtime) (p : Fin n × Types.Block) :
    Runtime :=
  if (start.party p.1).runtime.height = (start.party i).runtime.height then
    (Runtime.executeBlock p.2 rt).state
  else
    rt.setBlockNumber (rt.system.blockNumber + 1)

/-- The runtime of node `i` after the blocks of the history. -/
def replayed (start : Net PeerId n) (i : Fin n) (history : List (Fin n × Types.Block)) : Runtime :=
  history.foldl (followed start i) (start.party i).runtime

omit [DecidableEq PeerId] in
@[simp] theorem replayed_concat (start : Net PeerId n) (i : Fin n)
    (history : List (Fin n × Types.Block)) (p : Fin n × Types.Block) :
    replayed start i (history ++ [p]) = followed start i (replayed start i history) p := by
  rw [replayed, List.foldl_append]
  rfl

/-- The history explains the runtimes, one block at a time. -/
structure Explains (start : Net PeerId n) (history : List (Fin n × Types.Block))
    (s : Fin n → Runtime) : Prop where
  views : ∀ i, s i = replayed start i history
  heights : ∀ i, (s i).height = (start.party i).runtime.height + history.length
  accepted : ∀ m p, history[m]? = some p →
    (Runtime.executeBlock p.2 (replayed start p.1 (history.take m))).outcome = .ret (.ok ())

omit [DecidableEq PeerId] in
/-- One more block: the nodes at the height of its author execute it, the others count it. -/
theorem Explains.concat {start : Net PeerId n} {history : List (Fin n × Types.Block)}
    {s : Fin n → Runtime} (h : Explains start history s) {author : Fin n} {data : Bytes}
    {block : Types.Block} (hproposes : Node.Proposes data block (s author))
    (hok : (Runtime.executeBlock block (s author)).outcome = .ret (.ok ()))
    (hheight : ∀ i, (s i).height + 1 < 2 ^ 32) :
    Explains start (history ++ [(author, block)]) (executed block s) := by
  have hnum := hproposes.2.1
  constructor
  · intro i
    rw [replayed_concat, ← h.views i, followed]
    have hsame : (start.party author).runtime.height = (start.party i).runtime.height ↔
        (s author).height = (s i).height := by
      rw [h.heights author, h.heights i]
      omega
    split_ifs with heq
    · rfl
    · have hnext : ((s i).system.blockNumber + 1).toNat = (s i).height + 1 :=
        Nat.mod_eq_of_lt (hheight i)
      refine (Runtime.executeBlock_of_other hnext ?_).2
      intro hblock
      rw [hblock, hnext] at hnum
      exact heq (hsame.mpr (by omega))
  · intro i
    rw [executed, Runtime.height_executeBlock (hproposes.returns (hheight i)), h.heights i,
      List.length_append, List.length_singleton, Nat.add_assoc]
  · intro m p hp
    rcases Nat.lt_trichotomy m history.length with hm | hm | hm
    · rw [List.getElem?_append_left hm] at hp
      rw [List.take_append_of_le_length hm.le]
      exact h.accepted m p hp
    · rw [hm, List.getElem?_concat_length, Option.some_inj] at hp
      rw [hm, List.take_left, ← hp, ← h.views author]
      exact hok
    · have hlen : (history ++ [(author, block)]).length ≤ m := by
        rw [List.length_append, List.length_singleton]
        exact hm
      rw [List.getElem?_eq_none hlen] at hp
      cases hp

/-- Nodes that take part in the same slots from different heights never join: each block is applied
by its author and counts for every node, but only those that started at the author's height execute
it, for everybody else it is one number more. So nodes with the same runtime at the start stay
equal, whatever the others hold, and all heights grow by one per slot. The slots leave all heights
below `2 ^ 32`, and `NoncesBelowMax` holds of every node that ticks, as each step requires it. -/
theorem forks_stay_apart (hn : 2 ≤ n) {peers : List PeerId} {start net : Net PeerId n}
    (hstart : Connected peers start) {k : ℕ} (hslots : Slots start k net)
    (hheight : ∀ i, (start.party i).runtime.height + k < 2 ^ 32) :
    (∃ history : List (Fin n × Types.Block), history.length = k ∧
      Explains start history fun i => (net.party i).runtime) ∧
    (∀ i, net.halted i = false) ∧
    ∀ i j, (start.party i).runtime = (start.party j).runtime →
      (net.party i).runtime = (net.party j).runtime := by
  have hrun : Functioning peers (fun i => (start.party i).id) net ∧
      ∃ (history : List (Fin n × Types.Block)) (s : Fin n → Runtime), history.length = k ∧
        Explains start history s ∧ net.Still Node.runtime s := by
    induction hslots with
    | start =>
        refine ⟨⟨hstart.awake, ?_, fun _ _ => trivial⟩, [], fun i => (start.party i).runtime, rfl,
          ⟨fun _ => rfl, fun _ => rfl, ?_⟩, fun _ => rfl, hstart.empty⟩
        · intro i
          exact ⟨rfl, hstart.peers_eq i, hstart.limit_lt i⟩
        · intro m p hp
          cases hp
    | @next k slot acts net net' h hslot ih =>
        obtain ⟨hnet, history, s, hlen, hexplains, hstill⟩ := ih fun i => by
          have := hheight i
          omega
        have hbelow : ∀ i, (s i).height + 1 < 2 ^ 32 := by
          intro i
          have := hheight i
          rw [hexplains.heights i]
          omega
        obtain ⟨hnet', author, data, block, hproposes, hok, hstill'⟩ :=
          slot_executed hn hstart.roster hslot hnet hstill hbelow
        refine ⟨hnet', history ++ [(author, block)], executed block s, ?_, ?_, hstill'⟩
        · rw [List.length_append, List.length_singleton, hlen]
        · exact hexplains.concat hproposes hok hbelow
  obtain ⟨hnet, history, s, hlen, hexplains, hstill⟩ := hrun
  have hviews : (fun i => (net.party i).runtime) = s := funext hstill.views
  rw [← hviews] at hexplains
  refine ⟨⟨history, hlen, hexplains⟩, hnet.awake, ?_⟩
  intro i j hij
  have hi : (net.party i).runtime = replayed start i history := hexplains.views i
  have hj : (net.party j).runtime = replayed start j history := hexplains.views j
  have hsame : followed start i = followed start j := by
    funext rt p
    rw [followed, followed, hij]
  rw [hi, hj, replayed, replayed, hij, hsame]

end Slots

/-- In slot 0 the first node makes a block, and the second one, four blocks ahead, handles it. -/
theorem forks_stay_apart_unequalNet :
    ∃ net, @Slot .transparent ℕ _ 2 0 [.tick 0 .inserted,
        .deliver 1 (encode (⟨⟨2⟩, []⟩ : Types.Block)), .tick 1 .inserted] unequalNet net ∧
      ∃ history, history.length = 1 ∧
        @Explains .transparent ℕ 2 unequalNet history fun i => (net.party i).runtime := by
  let := Ed25519.transparent
  have hstart : Connected [0, 1] unequalNet :=
    ⟨⟨List.Perm.refl _, by decide⟩, fun _ => rfl, by decide, fun _ => rfl, rfl⟩
  obtain ⟨net, hslot⟩ : ∃ net, Slot 0 [.tick 0 .inserted,
      .deliver 1 (encode (⟨⟨2⟩, []⟩ : Types.Block)), .tick 1 .inserted] unequalNet net := by
    refine ⟨_, .cons (.tick _ _ _ ?_) (.cons (.deliver _ _ _ ?_) (.cons (.tick _ _ _ ?_)
      (.nil _))), ?_, ?_⟩
    · decide +kernel
    · decide +kernel
    · decide +kernel
    · decide +kernel
    · decide +kernel
  have hforks := forks_stay_apart (by decide) hstart (.next .start hslot) (by decide +kernel)
  exact ⟨net, hslot, hforks.1⟩

end RustStateMachine
