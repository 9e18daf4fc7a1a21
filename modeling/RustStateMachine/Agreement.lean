import RustStateMachine.Lib.Network
import RustStateMachine.Selection

/-!
# Agreement of synchronous nodes

Nodes with the same peer list and the same runtime go through slots. In a slot
extrinsics enter any pool, every node ticks once, and the published block is
delivered to every other node before the slot ends, all in any order. The author
alone publishes, everybody applies its block, and the runtimes are equal again.
-/

namespace RustStateMachine

open Lib Lib.KeyValue Lib.Network Lib.Runs Std Support

/-- A line on the error stream: a rejected block, or bytes that are no block. -/
def NodeEvent.isError : NodeEvent → Bool
  | .eprintln _ => true
  | _ => false

namespace Node

variable {PeerId : Type}

/-! ## One node -/

/-- Nonces stay below the greatest one: a pending extrinsic carries it only if its signer's nonce
is further away from it than a block can count. -/
def NoncesBelowMax (self : Node PeerId) : Prop :=
  ∀ e ∈ self.mempool.pending, e.nonce = BitVec.allOnes 32 →
    (self.runtime.system.nonce e.signer).toNat + self.limit < 2 ^ 32

instance (self : Node PeerId) : Decidable self.NoncesBelowMax :=
  inferInstanceAs (Decidable (∀ e ∈ self.mempool.pending, _))

theorem batch_subperm_pending (order : HashOrder) (self : Node PeerId) :
    (self.batch order).Subperm self.mempool.pending :=
  (selected_subperm order _ _).trans (List.take_sublist _ _).subperm

theorem batch_length_le (order : HashOrder) (self : Node PeerId) :
    (self.batch order).length ≤ self.limit :=
  (selected_subperm order _ _).length_le.trans (List.length_take_le _ _)

/-- Counting the nonces of a batch does not overflow. -/
theorem NoncesBelowMax.batch_nonce_ne {self : Node PeerId} (h : self.NoncesBelowMax)
    (order : HashOrder) : ∀ tx ∈ self.batch order, tx.nonce ≠ BitVec.allOnes 32 := by
  intro tx htx hmax
  have hbelow := h tx ((self.batch_subperm_pending order).subset htx) hmax
  have hmem : nonceOf tx ∈ Runtime.noncesOf tx.signer (self.batch order) :=
    Runtime.mem_noncesOf.mpr ⟨tx, htx, rfl, rfl⟩
  have hcount : (Runtime.noncesOf tx.signer (self.batch order)).length ≤
      (self.batch order).length := by
    rw [Runtime.noncesOf, List.length_map]
    exact List.length_filter_le _ _
  have hrange := noncesOf_selected order self.runtime.system.nonce self.candidates tx.signer
  change Runtime.noncesOf tx.signer (self.batch order) = List.range' _
    (Runtime.noncesOf tx.signer (self.batch order)).length at hrange
  rw [hrange, List.mem_range'_1] at hmem
  have htop : nonceOf tx = 2 ^ 32 - 1 := by
    rw [nonceOf, hmax, BitVec.toNat_allOnes]
  have hreach : 2 ^ 32 ≤ (self.runtime.system.nonce tx.signer).toNat + self.limit := by
    calc 2 ^ 32
        = nonceOf tx + 1 := by omega
      _ ≤ (self.runtime.system.nonce tx.signer).toNat +
          (Runtime.noncesOf tx.signer (self.batch order)).length := hmem.2
      _ ≤ (self.runtime.system.nonce tx.signer).toNat + (self.batch order).length :=
          Nat.add_le_add_left hcount _
      _ ≤ (self.runtime.system.nonce tx.signer).toNat + self.limit :=
          Nat.add_le_add_left (self.batch_length_le order) _
  exact absurd hbelow hreach.not_gt

/-- What no step of a node changes, and what it never reports. -/
structure Orderly (node : Node PeerId) (r : Run NodeEvent (Node PeerId) Unit) : Prop where
  returned : r.outcome = .ret ()
  id_eq : r.state.id = node.id
  peers_eq : r.state.peers = node.peers
  limit_eq : r.state.limit = node.limit
  accepted : ∀ e ∈ r.log, e.isError = false

theorem receiveExtrinsic_orderly (ext : Types.Extrinsic) (self : Node PeerId) :
    Orderly self (receiveExtrinsic ext self) := by
  have hlimit : (self.mempool.submit ext).2.blockLimit = self.mempool.blockLimit := by
    rw [Mempool.submit]
    split
    · split_ifs <;> rfl
    · rfl
  refine ⟨rfl, rfl, rfl, ?_, ?_⟩
  · exact congrArg (·.getD 10) hlimit
  · intro e he
    cases he

variable [Ed25519]

/-- The bytes are those of a block that the runtime `old` accepts and that leads to `new`. -/
def Extends (data : Bytes) (old new : Runtime) : Prop :=
  ∃ (block : Types.Block) (log : List Event), decode data = some (block, []) ∧
    Runtime.executeBlock block old = ⟨.ret (.ok ()), new, log⟩

theorem Extends.height_eq {data : Bytes} {old new : Runtime} (h : Extends data old new) :
    new.height = old.height + 1 := by
  obtain ⟨block, log, -, hexec⟩ := h
  exact Runtime.height_of_executeBlock hexec

theorem receiveMessage_of_extends {data : Bytes} {self : Node PeerId} {new : Runtime}
    (h : Extends data self.runtime new) :
    Orderly self (receiveMessage data self) ∧ (receiveMessage data self).state.runtime = new ∧
      published (receiveMessage data self).log = [] := by
  obtain ⟨block, log, hdecode, hexec⟩ := h
  have hrun : receiveMessage data self = receiveBlock block self := by
    rw [receiveMessage, hdecode]
  rw [hrun, receiveBlock_of_ok hexec]
  refine ⟨⟨rfl, rfl, rfl, rfl, ?_⟩, rfl, ?_⟩
  · intro e he
    rcases List.mem_append.mp he with he | he
    · obtain ⟨ev, -, rfl⟩ := List.mem_map.mp he
      rfl
    · rw [List.mem_singleton.mp he]
      rfl
  · rw [published_append, published_map_runtime]
    rfl

/-- The author publishes exactly the block it applied, and the others can read it. -/
theorem produceBlock_extends {self : Node PeerId} (order : HashOrder)
    (hlimit : self.limit < 2 ^ 32) (hnonces : self.NoncesBelowMax)
    (hheight : self.runtime.height + 1 < 2 ^ 32) :
    Orderly self (produceBlock order self) ∧
      ∃ data, Extends data self.runtime (produceBlock order self).state.runtime ∧
        published (produceBlock order self).log = [data] := by
  obtain ⟨block, rt, log, lines, hexts, -, hexec, hrun⟩ :=
    produceBlock_of_fits (hnonces.batch_nonce_ne order) hheight
  rw [hrun]
  constructor
  · refine ⟨rfl, rfl, rfl, rfl, ?_⟩
    intro e he
    simp only [List.mem_append, List.mem_map, List.mem_singleton] at he
    rcases he with ⟨ev, -, rfl⟩ | ⟨line, -, rfl⟩ | rfl <;> rfl
  · refine ⟨encode block, ⟨block, log, ?_, hexec⟩, ?_⟩
    · have hlen : block.extrinsics.length < 2 ^ 32 := by
        rw [hexts]
        exact (self.batch_length_le order).trans_lt hlimit
      have hread := decode_block_append hlen []
      rwa [List.append_nil] at hread
    · rw [published_append, published_append, published_map_runtime, published_map_println]
      rfl

end Node

/-! ## The network -/

/-- Nodes, with the block messages on their way. -/
abbrev Net (PeerId : Type) (n : ℕ) := Network n NodeEvent (Node PeerId) Bytes

/-- What can happen at a node. -/
inductive Action (n : ℕ) where
  | submit (i : Fin n) (ext : Types.Extrinsic)
  | tick (i : Fin n) (order : HashOrder)
  | deliver (i : Fin n) (data : Bytes)

/-- The tick of node `i`. -/
def Action.isTick {n : ℕ} (i : Fin n) : Action n → Bool
  | .tick j _ => j = i
  | _ => false

section Slots

variable [Ed25519] {PeerId : Type} [DecidableEq PeerId] {n : ℕ}

/-- One action during a slot. A tick is a step only of a node whose pool satisfies `NoncesBelowMax`,
so that counting nonces does not overflow in it; a delivery takes a message that is on its way. -/
inductive Step (slot : ℕ) : Net PeerId n → Action n → Net PeerId n → Prop
  | submit (net : Net PeerId n) (i : Fin n) (ext : Types.Extrinsic) :
      Step slot net (.submit i ext) (net.act published i (Node.receiveExtrinsic ext))
  | tick (net : Net PeerId n) (i : Fin n) (order : HashOrder)
      (h : (net.party i).NoncesBelowMax) :
      Step slot net (.tick i order) (net.act published i (Node.tick slot order))
  | deliver (net : Net PeerId n) (i : Fin n) (data : Bytes) (h : (i, data) ∈ net.inFlight) :
      Step slot net (.deliver i data)
        ((net.take i data).act published i (Node.receiveMessage data))

/-- Actions one after the other. -/
inductive Steps (slot : ℕ) : Net PeerId n → List (Action n) → Net PeerId n → Prop
  | nil (net : Net PeerId n) : Steps slot net [] net
  | cons {net net' net'' : Net PeerId n} {a : Action n} {acts : List (Action n)}
      (h : Step slot net a net') (hs : Steps slot net' acts net'') :
      Steps slot net (a :: acts) net''

/-- One slot: every node ticks once, and every message is handled before the slot ends. -/
structure Slot (slot : ℕ) (acts : List (Action n)) (net net' : Net PeerId n) : Prop where
  steps : Steps slot net acts net'
  ticks : ∀ i, (acts.countP fun a => a.isTick i) = 1
  handled : net'.inFlight = []

/-- The nets reached after a number of slots. -/
inductive Slots (start : Net PeerId n) : ℕ → Net PeerId n → Prop
  | start : Slots start 0 start
  | next {k slot : ℕ} {acts : List (Action n)} {net net' : Net PeerId n}
      (h : Slots start k net) (hslot : Slot slot acts net net') : Slots start (k + 1) net'

/-- The peer list names every node once. -/
structure Roster (peers : List PeerId) (ids : Fin n → PeerId) : Prop where
  perm : peers.Perm (List.ofFn ids)
  nodup : peers.Nodup

/-- What stays true of node `i`: its id, the peer list, and a block limit that fits a length. -/
structure Configured (peers : List PeerId) (ids : Fin n → PeerId) (i : Fin n)
    (node : Node PeerId) : Prop where
  id_eq : node.id = ids i
  peers_eq : node.peers = peers
  limit_lt : node.limit < 2 ^ 32

/-- Every node runs with its configuration, and none has reported an error. -/
abbrev InOrder (peers : List PeerId) (ids : Fin n → PeerId) (net : Net PeerId n) : Prop :=
  net.Running (Configured peers ids) fun e => e.isError = false

omit [Ed25519] [DecidableEq PeerId] in
theorem Roster.length_eq {peers : List PeerId} {ids : Fin n → PeerId} (h : Roster peers ids) :
    peers.length = n := by
  rw [h.perm.length_eq, List.length_ofFn]

omit [Ed25519] [DecidableEq PeerId] in
/-- Every slot has an author among the nodes, and it is the only one. -/
theorem Roster.exists_author {peers : List PeerId} {ids : Fin n → PeerId} (h : Roster peers ids)
    (hn : 2 ≤ n) (slot : ℕ) :
    ∃ i, peers[slot % peers.length]? = some (ids i) ∧ ∀ j, ids i = ids j → j = i := by
  have hlen := h.length_eq
  have hlt : slot % peers.length < peers.length := Nat.mod_lt _ (by omega)
  have hmem : peers[slot % peers.length] ∈ List.ofFn ids :=
    h.perm.subset (List.getElem_mem hlt)
  obtain ⟨i, hi⟩ := List.mem_ofFn.mp hmem
  have hinj := List.nodup_ofFn.mp (h.perm.nodup_iff.mp h.nodup)
  refine ⟨i, ?_, ?_⟩
  · rw [List.getElem?_eq_getElem hlt, hi]
  · intro j hj
    exact (hinj hj).symm

omit [Ed25519] [DecidableEq PeerId] in
theorem InOrder.act {peers : List PeerId} {ids : Fin n → PeerId} {net : Net PeerId n}
    (h : InOrder peers ids net) {i : Fin n} {x : Exec NodeEvent (Node PeerId) Unit}
    (hx : Node.Orderly (net.party i) (x (net.party i))) :
    InOrder peers ids (net.act published i x) := by
  have hconf := h.parties i
  refine Network.Running.act h hx.returned ?_ hx.accepted
  exact ⟨hx.id_eq.trans hconf.id_eq, hx.peers_eq.trans hconf.peers_eq,
    hx.limit_eq ▸ hconf.limit_lt⟩

section OneSlot

variable {peers : List PeerId} {ids : Fin n → PeerId} {author : Fin n} {slot : ℕ}
  {net net' : Net PeerId n} {s : Runtime}

/-- A node that is not the author of the slot does nothing at its tick. -/
theorem tick_of_not_author (hn : 2 ≤ n) (hroster : Roster peers ids)
    (hauthor : peers[slot % peers.length]? = some (ids author))
    (honly : ∀ j, ids author = ids j → j = author) (horder : InOrder peers ids net) {i : Fin n}
    (hi : i ≠ author) (order : HashOrder) :
    Node.Orderly (net.party i) (Node.tick slot order (net.party i)) ∧
      (Node.tick slot order (net.party i)).state.runtime = (net.party i).runtime ∧
      published (Node.tick slot order (net.party i)).log = [] := by
  have hconf := horder.parties i
  have hidle : Node.tick slot order (net.party i) = ⟨.ret (), net.party i, []⟩ := by
    apply Node.tick_of_other
    · rw [hconf.peers_eq, hroster.length_eq]
      exact hn
    · rw [hconf.peers_eq]
      exact hauthor
    · rw [hconf.id_eq]
      exact fun heq => hi (honly i heq)
  rw [hidle]
  exact ⟨⟨rfl, rfl, rfl, rfl, fun e he => absurd he List.not_mem_nil⟩, rfl, rfl⟩

/-- Before the author's tick nothing changes the runtimes, and the tick sends one block. -/
theorem settled_step (hn : 2 ≤ n) (hroster : Roster peers ids)
    (hauthor : peers[slot % peers.length]? = some (ids author))
    (honly : ∀ j, ids author = ids j → j = author) {a : Action n} (hstep : Step slot net a net')
    (horder : InOrder peers ids net) (hset : net.Settled Node.runtime s)
    (hheight : s.height + 1 < 2 ^ 32) :
    InOrder peers ids net' ∧
      if a.isTick author then
        ∃ data new, Node.Extends data s new ∧ net'.Spreading Node.runtime data s new
      else net'.Settled Node.runtime s := by
  cases hstep with
  | submit i ext =>
      constructor
      · exact horder.act (Node.receiveExtrinsic_orderly ext _)
      · exact hset.act (horder.awake i) rfl rfl
  | tick i order hnonces =>
      by_cases hi : i = author
      · subst hi
        have hconf := horder.parties i
        have htick : Node.tick slot order (net.party i) =
            Node.produceBlock order (net.party i) := by
          apply Node.tick_of_author
          · rw [hconf.peers_eq, hroster.length_eq]
            exact hn
          · rw [hconf.peers_eq, hconf.id_eq]
            exact hauthor
        have hheight' : (net.party i).runtime.height + 1 < 2 ^ 32 := by
          rw [hset.views i]
          exact hheight
        obtain ⟨horderly, data, hextends, hpublished⟩ :=
          Node.produceBlock_extends order hconf.limit_lt hnonces hheight'
        rw [← htick] at horderly hextends hpublished
        rw [hset.views i] at hextends
        refine ⟨horder.act horderly, ?_⟩
        rw [if_pos (by simp [Action.isTick])]
        exact ⟨data, _, hextends, hset.send (horder.awake i) rfl hpublished⟩
      · obtain ⟨horderly, hsame, hquiet⟩ :=
          tick_of_not_author hn hroster hauthor honly horder hi order
        refine ⟨horder.act horderly, ?_⟩
        rw [if_neg (by simp [Action.isTick, hi])]
        exact hset.act (horder.awake i) hsame hquiet
  | deliver i data hmem =>
      rw [hset.empty] at hmem
      cases hmem

/-- After the author's tick every delivery hands its block to a node that still has to apply it. -/
theorem spreading_step (hn : 2 ≤ n) (hroster : Roster peers ids)
    (hauthor : peers[slot % peers.length]? = some (ids author))
    (honly : ∀ j, ids author = ids j → j = author) {a : Action n} (hstep : Step slot net a net')
    (ha : a.isTick author = false) (horder : InOrder peers ids net) {data : Bytes} {new : Runtime}
    (hextends : Node.Extends data s new) (hspread : net.Spreading Node.runtime data s new) :
    InOrder peers ids net' ∧ net'.Spreading Node.runtime data s new := by
  cases hstep with
  | submit i ext =>
      constructor
      · exact horder.act (Node.receiveExtrinsic_orderly ext _)
      · exact hspread.act (horder.awake i) rfl rfl
  | tick i order hnonces =>
      have hi : i ≠ author := by simpa [Action.isTick] using ha
      obtain ⟨horderly, hsame, hquiet⟩ :=
        tick_of_not_author hn hroster hauthor honly horder hi order
      exact ⟨horder.act horderly, hspread.act (horder.awake i) hsame hquiet⟩
  | deliver i bytes hmem =>
      have hdata : bytes = data := hspread.message _ hmem
      subst hdata
      have hold := hspread.waiting i (List.mem_map_of_mem hmem)
      rw [← hold] at hextends
      obtain ⟨horderly, hnew, hquiet⟩ := Node.receiveMessage_of_extends hextends
      constructor
      · exact InOrder.act (horder.take i bytes) horderly
      · exact hspread.deliver hmem (horder.awake i) hnew hquiet

theorem spreading_steps (hn : 2 ≤ n) (hroster : Roster peers ids)
    (hauthor : peers[slot % peers.length]? = some (ids author))
    (honly : ∀ j, ids author = ids j → j = author) {acts : List (Action n)}
    (hsteps : Steps slot net acts net') (hacts : (acts.countP fun a => a.isTick author) = 0)
    (horder : InOrder peers ids net) {data : Bytes} {new : Runtime}
    (hextends : Node.Extends data s new) (hspread : net.Spreading Node.runtime data s new) :
    InOrder peers ids net' ∧ net'.Spreading Node.runtime data s new := by
  induction hsteps with
  | nil => exact ⟨horder, hspread⟩
  | @cons _ _ _ a acts hstep _ ih =>
      rw [List.countP_eq_zero] at hacts
      have ha : a.isTick author = false := by simpa using hacts a List.mem_cons_self
      obtain ⟨horder', hspread'⟩ :=
        spreading_step hn hroster hauthor honly hstep ha horder hextends hspread
      refine ih ?_ horder' hspread'
      rw [List.countP_eq_zero]
      exact fun b hb => hacts b (List.mem_cons_of_mem _ hb)

/-- The author's one tick splits the slot in two: its block is on its way from then on. -/
theorem settled_steps (hn : 2 ≤ n) (hroster : Roster peers ids)
    (hauthor : peers[slot % peers.length]? = some (ids author))
    (honly : ∀ j, ids author = ids j → j = author) {acts : List (Action n)}
    (hsteps : Steps slot net acts net') (hacts : (acts.countP fun a => a.isTick author) = 1)
    (horder : InOrder peers ids net) (hset : net.Settled Node.runtime s)
    (hheight : s.height + 1 < 2 ^ 32) :
    InOrder peers ids net' ∧
      ∃ data new, Node.Extends data s new ∧ net'.Spreading Node.runtime data s new := by
  induction hsteps with
  | nil => cases hacts
  | @cons _ _ _ a acts hstep hrest ih =>
      obtain ⟨horder', hphase⟩ :=
        settled_step hn hroster hauthor honly hstep horder hset hheight
      rw [List.countP_cons] at hacts
      by_cases ha : a.isTick author
      · rw [if_pos ha] at hphase hacts
        obtain ⟨data, new, hextends, hspread⟩ := hphase
        obtain ⟨horder'', hspread'⟩ := spreading_steps hn hroster hauthor honly hrest
          (Nat.succ.inj hacts) horder' hextends hspread
        exact ⟨horder'', data, new, hextends, hspread'⟩
      · rw [if_neg ha] at hphase hacts
        exact ih hacts horder' hphase

/-- A slot takes equal runtimes to equal runtimes, one block higher. -/
theorem slot_agreement (hn : 2 ≤ n) (hroster : Roster peers ids) {acts : List (Action n)}
    (hslot : Slot slot acts net net') (horder : InOrder peers ids net)
    (hset : net.Settled Node.runtime s) (hheight : s.height + 1 < 2 ^ 32) :
    InOrder peers ids net' ∧
      ∃ new, new.height = s.height + 1 ∧ net'.Settled Node.runtime new := by
  obtain ⟨author, hauthor, honly⟩ := hroster.exists_author hn slot
  obtain ⟨horder', data, new, hextends, hspread⟩ := settled_steps hn hroster hauthor honly
    hslot.steps (hslot.ticks author) horder hset hheight
  exact ⟨horder', new, hextends.height_eq, hspread.settled hslot.handled⟩

end OneSlot

/-- How a run starts: the same peer list of all nodes and the same runtime everywhere, nobody has
crashed, nothing is on its way, and nothing was logged. Pools may hold anything. -/
structure Synchronized (peers : List PeerId) (s : Runtime) (net : Net PeerId n) : Prop where
  roster : Roster peers fun i => (net.party i).id
  peers_eq : ∀ i, (net.party i).peers = peers
  limit_lt : ∀ i, (net.party i).limit < 2 ^ 32
  runtime_eq : ∀ i, (net.party i).runtime = s
  awake : ∀ i, net.halted i = false
  empty : net.inFlight = []
  log_nil : net.log = []

/-- After every slot of a synchronous run all nodes hold the same runtime, one block higher per
slot, no node has panicked, and no message was rejected. -/
theorem agreement_every_slot (hn : 2 ≤ n) {peers : List PeerId} {s : Runtime}
    {start net : Net PeerId n} (hstart : Synchronized peers s start) {k : ℕ}
    (hslots : Slots start k net) (hheight : s.height + k < 2 ^ 32) :
    (∃ rt, rt.height = s.height + k ∧ ∀ i, (net.party i).runtime = rt) ∧
      (∀ i, net.halted i = false) ∧ ∀ i text, (i, .eprintln text) ∉ net.log := by
  have hrun : InOrder peers (fun i => (start.party i).id) net ∧
      ∃ rt : Runtime, rt.height = s.height + k ∧ net.Settled Node.runtime rt := by
    induction hslots with
    | start =>
        refine ⟨⟨hstart.awake, ?_, ?_⟩, s, rfl, hstart.runtime_eq, hstart.empty⟩
        · intro i
          exact ⟨rfl, hstart.peers_eq i, hstart.limit_lt i⟩
        · intro p hp
          rw [hstart.log_nil] at hp
          cases hp
    | @next k slot acts net net' h hslot ih =>
        obtain ⟨horder, rt, hrt, hset⟩ := ih (by omega)
        obtain ⟨horder', new, hnew, hset'⟩ :=
          slot_agreement hn hstart.roster hslot horder hset (by omega)
        exact ⟨horder', new, by omega, hset'⟩
  obtain ⟨horder, rt, hrt, hset⟩ := hrun
  refine ⟨⟨rt, hrt, hset.views⟩, horder.awake, ?_⟩
  intro i text hmem
  have hquiet := horder.entries _ hmem
  cases hquiet

end Slots

/-- Two nodes right after genesis. -/
def pairNet : Net ℕ 2 where
  party i := ⟨i, [0, 1], (@Runtime.maybeApplyGenesis .transparent (Runtime.new ∅)).state,
    Mempool.withBlockLimit 3⟩
  halted _ := false
  inFlight := []
  log := []

/-- Alice pays Bob 30. -/
def payment : Types.Extrinsic :=
  @UncheckedExtrinsic.newSigned _ _ .transparent AccountKeyring.alice.signingKey 0
    (.balances (.transfer (@AccountKeyring.publicKey .transparent .bob) 30))

/-- The payment enters the pool of the first node, which authors slot 0. -/
def paymentSlot : List (Action 2) :=
  [.submit 0 payment, .tick 0 .inserted, .deliver 1 (encode (⟨⟨2⟩, [payment]⟩ : Types.Block)),
    .tick 1 .inserted]

theorem agreement_every_slot_payment :
    ∃ net, @Slot .transparent ℕ _ 2 0 paymentSlot pairNet net ∧
      ∃ rt : Runtime, rt.height = 2 ∧ ∀ i, (net.party i).runtime = rt := by
  let := Ed25519.transparent
  have hstart : Synchronized [0, 1] (pairNet.party 0).runtime pairNet :=
    ⟨⟨List.Perm.refl _, by decide⟩, fun _ => rfl, by decide, fun _ => rfl, fun _ => rfl, rfl, rfl⟩
  have hsteps : ∃ net, Slot 0 paymentSlot pairNet net := by
    refine ⟨_, .cons (.submit _ _ _) (.cons (.tick _ _ _ ?_) (.cons (.deliver _ _ _ ?_)
      (.cons (.tick _ _ _ ?_) (.nil _)))), ?_, ?_⟩
    · decide +kernel
    · decide +kernel
    · decide +kernel
    · decide +kernel
    · decide +kernel
  obtain ⟨net, hslot⟩ := hsteps
  have hagree := agreement_every_slot (by decide) hstart (.next .start hslot) (by decide +kernel)
  exact ⟨net, hslot, hagree.1⟩

end RustStateMachine
