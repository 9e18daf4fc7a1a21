import RustStateMachine.Agreement
import RustStateMachine.Lib.InTransit
import RustStateMachine.Peers
import RustStateMachine.Production

/-!
# Lag

Blocks travel for as long as they like, in any order, and may be lost. Whatever
the nodes do meanwhile, a node's height and the blocks on their way to it grow
together with what anybody publishes. There is no other way up, so a node that
once lags behind never catches up.
-/

namespace RustStateMachine

open Lib Lib.KeyValue Lib.Network Std Support

/-- What can happen in a network without any timing. -/
inductive Happening (n : ℕ) (PeerId : Type) where
  | submit (i : Fin n) (ext : Types.Extrinsic)
  | connection (i : Fin n) (e : ConnectionEvent PeerId)
  | tick (i : Fin n) (slot : ℕ) (order : HashOrder)
  | deliver (i : Fin n) (data : Bytes)
  | lose (i : Fin n) (data : Bytes)

/-- One for a message that is read as a block. -/
def blockWeight (data : Bytes) : ℕ :=
  if (decode data : Option (Types.Block × Bytes)).isSome then 1 else 0

/-- The blocks lost on their way to a node. -/
def lostTo {n : ℕ} {PeerId : Type} (i : Fin n) : List (Happening n PeerId) → ℕ
  | [] => 0
  | .lose j data :: hs => (if i = j then blockWeight data else 0) + lostTo i hs
  | _ :: hs => lostTo i hs

section Runs

variable [Ed25519] {PeerId : Type} [LinearOrder PeerId] {n : ℕ}

/-- One happening: only a message on its way is delivered or lost. -/
inductive Happens : Net PeerId n → Happening n PeerId → Net PeerId n → Prop
  | submit (net : Net PeerId n) (i : Fin n) (ext : Types.Extrinsic) :
      Happens net (.submit i ext) (net.act published i (Node.receiveExtrinsic ext))
  | connection (net : Net PeerId n) (i : Fin n) (e : ConnectionEvent PeerId) :
      Happens net (.connection i e) (net.act published i (Node.connectionEvent e))
  | tick (net : Net PeerId n) (i : Fin n) (slot : ℕ) (order : HashOrder) :
      Happens net (.tick i slot order) (net.act published i (Node.tick slot order))
  | deliver (net : Net PeerId n) (i : Fin n) (data : Bytes) (h : (i, data) ∈ net.inFlight) :
      Happens net (.deliver i data) ((net.take i data).act published i (Node.receiveMessage data))
  | lose (net : Net PeerId n) (i : Fin n) (data : Bytes) (h : (i, data) ∈ net.inFlight) :
      Happens net (.lose i data) (net.take i data)

/-- Happenings one after the other. -/
inductive Evolves : Net PeerId n → List (Happening n PeerId) → Net PeerId n → Prop
  | nil (net : Net PeerId n) : Evolves net [] net
  | cons {net net' net'' : Net PeerId n} {h : Happening n PeerId}
      {hs : List (Happening n PeerId)} (hstep : Happens net h net')
      (hrest : Evolves net' hs net'') : Evolves net (h :: hs) net''

end Runs

namespace Node

variable {PeerId : Type}

/-! ## What one node does -/

/-- The height rises by the weight received and sent, and the block limit stays. -/
structure Climbs (got : ℕ) (node : Node PeerId) (r : Run NodeEvent (Node PeerId) Unit) : Prop where
  height_eq : r.outcome.Returns →
    r.state.runtime.height = node.runtime.height + got +
      totalWeight blockWeight (published r.log)
  limit_eq : r.state.limit = node.limit

theorem receiveExtrinsic_climbs (ext : Types.Extrinsic) (self : Node PeerId) :
    Climbs 0 self (receiveExtrinsic ext self) :=
  ⟨fun _ => rfl, (receiveExtrinsic_orderly ext self).limit_eq⟩

theorem connectionEvent_climbs [LinearOrder PeerId] (e : ConnectionEvent PeerId)
    (self : Node PeerId) : Climbs 0 self (connectionEvent e self) := by
  cases e with
  | established => exact ⟨fun _ => rfl, rfl⟩
  | closed => exact ⟨fun _ => rfl, rfl⟩

variable [Ed25519]

theorem produceBlock_climbs (order : HashOrder) {self : Node PeerId}
    (hlimit : self.limit < 2 ^ 32) : Climbs 0 self (produceBlock order self) := by
  have heff := produceBlock_effect order self
  have hpool := (produceBlock_pool order self).2
  generalize produceBlock order self = r at heff hpool ⊢
  refine ⟨fun hret => ?_, hpool⟩
  cases heff with
  | overflowed => exact absurd hret (Outcome.not_returns_panicked _)
  | atMaxHeight => exact absurd hret (Outcome.not_returns_panicked _)
  | @produced block rt log lines _ _ hexts hexec =>
      have hlen : block.extrinsics.length < 2 ^ 32 := by
        rw [hexts]
        exact (self.batch_length_le order).trans_lt hlimit
      have hread := decode_block_append hlen []
      rw [List.append_nil] at hread
      have hweight : blockWeight (encode block) = 1 := by
        rw [blockWeight, hread]
        rfl
      rw [published_append, published_append, published_map_runtime, published_map_println]
      change rt.height = self.runtime.height + 0 + (blockWeight (encode block) + 0)
      rw [hweight]
      exact Runtime.height_of_executeBlock hexec

theorem tick_climbs [DecidableEq PeerId] (slot : ℕ) (order : HashOrder) {self : Node PeerId}
    (hlimit : self.limit < 2 ^ 32) : Climbs 0 self (tick slot order self) := by
  have hidle : Climbs 0 self ⟨.ret (), self, []⟩ := ⟨fun _ => rfl, rfl⟩
  by_cases hpeers : 1 < self.peers.length
  · have hlt : slot % self.peers.length < self.peers.length := Nat.mod_lt _ (by omega)
    have hauthor := List.getElem?_eq_getElem hlt
    by_cases hmine : self.peers[slot % self.peers.length] = self.id
    · rw [hmine] at hauthor
      rw [tick_of_author hpeers hauthor]
      exact produceBlock_climbs order hlimit
    · rw [tick_of_other hpeers hauthor hmine]
      exact hidle
  · have hrun : tick slot order self = ⟨.ret (), self, []⟩ := by
      simp [tick, hpeers]
    rw [hrun]
    exact hidle

theorem receiveMessage_climbs (data : Bytes) (self : Node PeerId) :
    Climbs (blockWeight data) self (receiveMessage data self) := by
  rw [receiveMessage, blockWeight]
  cases hread : (decode data : Option (Types.Block × Bytes)) with
  | none => exact ⟨fun _ => rfl, rfl⟩
  | some p =>
      obtain ⟨block, rest⟩ := p
      cases hexec : Runtime.executeBlock block self.runtime with
      | mk o rt log =>
          cases o with
          | ret res =>
              have hheight := Runtime.height_of_executeBlock hexec
              cases res with
              | ok u =>
                  dsimp only
                  rw [receiveBlock_of_ok hexec]
                  refine ⟨fun _ => ?_, rfl⟩
                  rw [published_append, published_map_runtime]
                  exact hheight
              | error e =>
                  dsimp only
                  rw [receiveBlock_of_error hexec]
                  refine ⟨fun _ => ?_, rfl⟩
                  rw [published_append, published_map_runtime]
                  exact hheight
          | panicked m =>
              dsimp only
              rw [receiveBlock_of_panicked hexec]
              exact ⟨fun hret => absurd hret (Outcome.not_returns_panicked m), rfl⟩

end Node

/-! ## What the network does -/

section Runs

variable [Ed25519] {PeerId : Type} [LinearOrder PeerId] {n : ℕ} {net net' : Net PeerId n}

/-- The heights are in balance with what is published, and every block limit fits a length. -/
structure Balanced (base lost : Fin n → ℕ) (net : Net PeerId n) : Prop where
  balance : net.InBalance (fun node => node.runtime.height) blockWeight published base lost
  limits : ∀ i, (net.party i).limit < 2 ^ 32

omit [Ed25519] [LinearOrder PeerId] in
theorem Balanced.act {base lost : Fin n → ℕ} {i : Fin n} {got : ℕ}
    {x : Exec NodeEvent (Node PeerId) Unit}
    (h : Balanced base (fun j => lost j + if j = i then got else 0) net)
    (hx : Node.Climbs got (net.party i) (x (net.party i))) :
    Balanced base lost (net.act published i x) := by
  cases hhalted : net.halted i with
  | true =>
      have hsame : net.act published i x = net := by
        rw [Network.act, hhalted]
        rfl
      rw [hsame]
      refine ⟨fun j hj => ?_, h.limits⟩
      have hne : j ≠ i := by
        rintro rfl
        rw [hhalted] at hj
        cases hj
      have hbefore := h.balance j hj
      rwa [if_neg hne, Nat.add_zero] at hbefore
  | false =>
      refine ⟨h.balance.act published_append hhalted hx.height_eq, fun j => ?_⟩
      rw [act_party hhalted]
      split_ifs
      · rw [hx.limit_eq]
        exact h.limits i
      · exact h.limits j

theorem Balanced.step {base lost : Fin n → ℕ} {h : Happening n PeerId}
    (hnet : Balanced base (fun i => lost i) net) (hstep : Happens net h net') :
    Balanced base (fun i => lost i + lostTo i [h]) net' := by
  have hnothing : ∀ i, Balanced base (fun j => lost j + if j = i then 0 else 0) net := by
    intro i
    simpa using hnet
  cases hstep with
  | submit i ext => exact (hnothing i).act (Node.receiveExtrinsic_climbs ext _)
  | connection i e => exact (hnothing i).act (Node.connectionEvent_climbs e _)
  | tick i slot order => exact (hnothing i).act (Node.tick_climbs slot order (hnet.limits i))
  | deliver i data hmem =>
      have htaken : Balanced base (fun j => lost j + if j = i then blockWeight data else 0)
          (net.take i data) := ⟨hnet.balance.take hmem, hnet.limits⟩
      exact htaken.act (Node.receiveMessage_climbs data _)
  | lose i data hmem => exact ⟨hnet.balance.take hmem, hnet.limits⟩

omit [Ed25519] [LinearOrder PeerId] in
theorem lostTo_cons (i : Fin n) (h : Happening n PeerId) (hs : List (Happening n PeerId)) :
    lostTo i (h :: hs) = lostTo i [h] + lostTo i hs := by
  cases h <;> simp [lostTo]

theorem Balanced.run {base lost : Fin n → ℕ} {hs : List (Happening n PeerId)}
    (hnet : Balanced base lost net) (hrun : Evolves net hs net') :
    Balanced base (fun i => lost i + lostTo i hs) net' := by
  induction hrun generalizing lost with
  | nil => exact hnet
  | @cons net₀ net₁ net₂ h hs hstep hrest ih =>
      have hlost : (fun i => lost i + lostTo i (h :: hs)) =
          fun i => lost i + lostTo i [h] + lostTo i hs := by
        funext i
        rw [lostTo_cons, Nat.add_assoc]
      rw [hlost]
      exact ih (hnet.step hstep)

/-- However long blocks travel, in which order they arrive and which are lost, and whatever happens
besides: the height of a node that has not panicked, the blocks on their way to it and those lost
on that way have grown together by the number of blocks published by anybody. So between two
moments at which nothing is on its way, two nodes that have lost nothing keep the distance of their
heights. -/
theorem heights_keep_distance (hlimits : ∀ i, (net.party i).limit < 2 ^ 32)
    {hs : List (Happening n PeerId)} (hrun : Evolves net hs net') :
    (∀ i, net'.halted i = false →
      (net'.party i).runtime.height + net'.inTransit blockWeight i + lostTo i hs +
          net.sentWeight blockWeight published =
        (net.party i).runtime.height + net.inTransit blockWeight i +
          net'.sentWeight blockWeight published) ∧
    ∀ i j, net.inFlight = [] → net'.inFlight = [] → net'.halted i = false →
      net'.halted j = false → lostTo i hs = 0 → lostTo j hs = 0 →
        (net'.party i).runtime.height + (net.party j).runtime.height =
          (net'.party j).runtime.height + (net.party i).runtime.height := by
  have hstart : Balanced (fun i => (net.party i).runtime.height + net.inTransit blockWeight i)
      (fun _ => net.sentWeight blockWeight published) net := ⟨fun _ _ => rfl, hlimits⟩
  have hend : ∀ i, net'.halted i = false →
      (net'.party i).runtime.height + net'.inTransit blockWeight i + lostTo i hs +
          net.sentWeight blockWeight published =
        (net.party i).runtime.height + net.inTransit blockWeight i +
          net'.sentWeight blockWeight published := by
    intro i hi
    have hbalance : (net'.party i).runtime.height + net'.inTransit blockWeight i +
        (net.sentWeight blockWeight published + lostTo i hs) =
          (net.party i).runtime.height + net.inTransit blockWeight i +
            net'.sentWeight blockWeight published := (hstart.run hrun).balance i hi
    omega
  refine ⟨hend, ?_⟩
  intro i j hquiet hquiet' hi hj hlosti hlostj
  have hempty : ∀ (k : Fin n) (m : Net PeerId n), m.inFlight = [] →
      m.inTransit blockWeight k = 0 := by
    intro k m hm
    rw [inTransit, hm]
    rfl
  have hbi := hend i hi
  have hbj := hend j hj
  rw [hempty i net hquiet, hempty i net' hquiet', hlosti] at hbi
  rw [hempty j net hquiet, hempty j net' hquiet', hlostj] at hbj
  omega

end Runs

/-- Two connected nodes, the second one four blocks ahead. -/
def unequalNet : Net ℕ 2 where
  party i := ⟨i, [0, 1], (Runtime.new ∅).setBlockNumber (if i.val = 0 then 1 else 5),
    Mempool.withBlockLimit 3⟩
  halted _ := false
  inFlight := []
  log := []

/-- The first node makes a block and the second one handles it. -/
theorem heights_keep_distance_unequalNet :
    let := Ed25519.transparent
    let sent := unequalNet.act published 0 (Node.tick 0 .inserted)
    let data := encode (⟨⟨2⟩, []⟩ : Types.Block)
    let net := (sent.take 1 data).act published 1 (Node.receiveMessage data)
    (net.party 0).runtime.height + 5 = (net.party 1).runtime.height + 1 := by
  intro scheme sent data net
  have hmem : ((1 : Fin 2), data) ∈ sent.inFlight := by decide +kernel
  have hrun : Evolves unequalNet [.tick 0 0 .inserted, .deliver 1 data] net :=
    .cons (.tick unequalNet 0 0 .inserted) (.cons (.deliver sent 1 data hmem) (.nil net))
  have hlimits : ∀ i, (unequalNet.party i).limit < 2 ^ 32 := fun i => by
    simp [unequalNet, Node.limit, Mempool.withBlockLimit]
  exact (heights_keep_distance hlimits hrun).2 0 1 rfl (by decide +kernel) (by decide +kernel)
    (by decide +kernel) rfl rfl

end RustStateMachine
