import Mathlib.Data.Finset.Sort
import RustStateMachine.Lib.Sessions
import RustStateMachine.Node

/-!
# Peer list and slot authors

The network loop keeps the peer list by the connection events it sees. Which
list a history of events leaves, when it mirrors the open connections, and what
that means for the author of a slot. The lines printed, which show ids in base
58, are left out.
-/

namespace RustStateMachine

open Lib Lib.Sessions Support

/-- A connection opens or closes; several may be open to one peer. -/
abbrev ConnectionEvent (PeerId : Type) := Sessions.Event PeerId

namespace Node

variable {PeerId : Type} [LinearOrder PeerId]

/-- A connection event of the swarm: push and sort, or remove. -/
def connectionEvent : ConnectionEvent PeerId → Exec NodeEvent (Node PeerId) Unit
  | .established peer => Exec.modify fun self => { self with
      peers := (self.peers ++ [peer]).insertionSort (· ≤ ·) }
  | .closed peer => Exec.modify fun self => { self with
      peers := self.peers.filter fun id => id ≠ peer }

/-- The node after connection events. -/
def connected (self : Node PeerId) (events : List (ConnectionEvent PeerId)) : Node PeerId :=
  (Exec.each connectionEvent events self).state

theorem connected_concat (self : Node PeerId) (events : List (ConnectionEvent PeerId))
    (e : ConnectionEvent PeerId) :
    self.connected (events ++ [e]) = (connectionEvent e (self.connected events)).state := by
  have hreturns : ∀ e ∈ events, ∀ s : Node PeerId, (connectionEvent e s).outcome.Returns := by
    intro e _ s
    cases e with
    | established => trivial
    | closed => trivial
  have hstep : (connectionEvent e (self.connected events)).outcome = .ret () := by
    cases e with
    | established => rfl
    | closed => rfl
  rw [connected, (Exec.each_concat connectionEvent (Exec.each_returns _ hreturns self) hstep).1]
  rfl

theorem connected_id (self : Node PeerId) (events : List (ConnectionEvent PeerId)) :
    (self.connected events).id = self.id := by
  refine Exec.each_invariant connectionEvent (fun s => s.id = self.id) ?_ events rfl
  intro e s hs
  cases e with
  | established => exact hs
  | closed => exact hs

end Node

/-- The events libp2p can emit to a node: none about itself, and only open connections close. -/
structure Emitted {PeerId : Type} [DecidableEq PeerId] (me : PeerId)
    (events : List (ConnectionEvent PeerId)) : Prop where
  others : ∀ e ∈ events, e.key ≠ me
  possible : Possible events

theorem Emitted.mono {PeerId : Type} [DecidableEq PeerId] {me : PeerId}
    {events pre : List (ConnectionEvent PeerId)} (h : Emitted me events) (hpre : pre <+: events) :
    Emitted me pre :=
  ⟨fun e he => h.others e (hpre.subset he), h.possible.mono hpre⟩

/-! ## The list a history leaves -/

section PeerList

variable {PeerId : Type} [LinearOrder PeerId] {self : Node PeerId}
  {events : List (ConnectionEvent PeerId)}

theorem peers_sorted (hstart : self.peers = [self.id]) :
    (self.connected events).peers.Pairwise (· ≤ ·) := by
  refine Exec.each_invariant Node.connectionEvent (fun s => s.peers.Pairwise (· ≤ ·)) ?_ events ?_
  · intro e s hs
    cases e with
    | established => exact List.pairwise_insertionSort _ _
    | closed => exact hs.filter _
  · rw [hstart]
    exact List.pairwise_singleton _ _

/-- Another peer is listed once for each connection established since one was last closed. -/
theorem count_peers (hstart : self.peers = [self.id]) {p : PeerId} (hp : p ≠ self.id) :
    (self.connected events).peers.count p = sinceClosed p events := by
  induction events using List.reverseRecOn with
  | nil =>
      change self.peers.count p = 0
      rw [hstart, List.count_eq_zero, List.mem_singleton]
      exact hp
  | append_singleton events e ih =>
      rw [Node.connected_concat]
      cases e with
      | established q =>
          rw [sinceClosed_established, ← ih]
          change ((((self.connected events).peers ++ [q]).insertionSort (· ≤ ·)).count p) = _
          rw [(List.perm_insertionSort _ _).count_eq, List.count_append, List.count_singleton]
          simp
      | closed q =>
          rw [sinceClosed_closed, ← ih]
          change (((self.connected events).peers.filter fun id => id ≠ q).count p) = _
          split_ifs with hq
          · rw [hq, List.count_eq_zero, List.mem_filter]
            simp
          · exact List.count_filter (by simpa using Ne.symm hq)

/-- The node's own id stays listed once. -/
theorem count_peers_self (hstart : self.peers = [self.id])
    (hemit : ∀ e ∈ events, e.key ≠ self.id) :
    (self.connected events).peers.count self.id = 1 := by
  induction events using List.reverseRecOn with
  | nil =>
      change self.peers.count self.id = 1
      rw [hstart]
      exact List.count_singleton_self
  | append_singleton events e ih =>
      rw [List.forall_mem_append, List.forall_mem_singleton] at hemit
      have hmine := ih hemit.1
      rw [Node.connected_concat]
      cases e with
      | established q =>
          have hq : q ≠ self.id := hemit.2
          change ((((self.connected events).peers ++ [q]).insertionSort (· ≤ ·)).count self.id) = 1
          have hnone : [q].count self.id = 0 := by
            rw [List.count_eq_zero, List.mem_singleton]
            exact hq.symm
          rw [(List.perm_insertionSort _ _).count_eq, List.count_append, hmine, hnone]
      | closed q =>
          have hq : q ≠ self.id := hemit.2
          change (((self.connected events).peers.filter fun id => id ≠ q).count self.id) = 1
          rw [List.count_filter (by simpa using hq.symm)]
          exact hmine

/-- The list is strictly ascending, holds the node's own id once, and another id exactly while a
connection to that peer is open. -/
structure Mirrored (me : PeerId) (events : List (ConnectionEvent PeerId)) (peers : List PeerId) :
    Prop where
  ascending : peers.Pairwise (· < ·)
  own : peers.count me = 1
  others : ∀ p, p ≠ me → (p ∈ peers ↔ 0 < openCount p events)

theorem mirrored_iff (hstart : self.peers = [self.id]) (hemit : Emitted self.id events) :
    Mirrored self.id events (self.connected events).peers ↔
      ∀ p, 0 < openCount p events → sinceClosed p events = 1 := by
  have hown := count_peers_self hstart hemit.others
  constructor
  · intro h p hopen
    have hp : p ≠ self.id := by
      rintro rfl
      have hnone : events.count (.established self.id) = 0 :=
        List.count_eq_zero.mpr fun hmem => hemit.others _ hmem rfl
      rw [openCount, hnone, Nat.zero_sub] at hopen
      cases hopen
    rw [← count_peers hstart hp]
    exact List.count_eq_one_of_mem (h.ascending.imp ne_of_lt) ((h.others p hp).mpr hopen)
  · intro h
    have hcount : ∀ p, p ≠ self.id →
        (self.connected events).peers.count p = if 0 < openCount p events then 1 else 0 := by
      intro p hp
      rw [count_peers hstart hp]
      split_ifs with hopen
      · exact h p hopen
      · have hle := sinceClosed_le_openCount hemit.possible p
        omega
    refine ⟨?_, hown, ?_⟩
    · have hnodup : (self.connected events).peers.Nodup := by
        rw [List.nodup_iff_count_le_one]
        intro p
        by_cases hp : p = self.id
        · rw [hp, hown]
        · rw [hcount p hp]
          split_ifs
          · exact Nat.le_refl 1
          · exact Nat.zero_le 1
      exact ((peers_sorted hstart).and hnodup).imp fun hboth =>
        lt_of_le_of_ne hboth.1 hboth.2
    · intro p hp
      rw [← List.count_pos_iff, hcount p hp]
      split_ifs with hopen
      · exact ⟨fun _ => hopen, fun _ => Nat.one_pos⟩
      · exact ⟨fun hlt => absurd hlt (Nat.lt_irrefl 0), fun hlt => absurd hlt hopen⟩

/-- After any events the peer list mirrors the open connections exactly when, for every peer with
one, a single connection was established since one was last closed; and it does so at every moment
exactly when no two connections to a peer are ever open together. -/
theorem peers_mirror_connections_iff (hstart : self.peers = [self.id])
    (hemit : Emitted self.id events) :
    (Mirrored self.id events (self.connected events).peers ↔
      ∀ p, 0 < openCount p events → sinceClosed p events = 1) ∧
    ((∀ pre, pre <+: events → Mirrored self.id pre (self.connected pre).peers) ↔
      OneAtATime events) := by
  refine ⟨mirrored_iff hstart hemit, ?_⟩
  constructor
  · intro h
    apply oneAtATime_of_sinceClosed hemit.possible
    intro pre hpre
    exact (mirrored_iff hstart (hemit.mono hpre)).mp (h pre hpre)
  · intro hone pre hpre
    have hemit' := hemit.mono hpre
    rw [mirrored_iff hstart hemit']
    intro p hopen
    have heq := sinceClosed_eq_openCount hemit'.possible (hone.mono hpre) p
    have hle := hone pre hpre p
    omega

end PeerList

/-- A peer connects, disconnects and connects again. -/
theorem peers_mirror_connections_reconnect :
    let node : Node ℕ := ⟨1, [1], Runtime.new ∅, Mempool.withBlockLimit 3⟩
    let events : List (ConnectionEvent ℕ) := [.established 0, .closed 0, .established 0]
    Emitted 1 events ∧ OneAtATime events ∧
      ∀ pre, pre <+: events → Mirrored 1 pre (node.connected pre).peers := by
  intro node events
  have hpossible : Possible events :=
    ((possible_nil.established 0).closed (p := 0) (by decide)).established 0
  have hemit : Emitted node.id events := ⟨by decide, hpossible⟩
  have hone : OneAtATime events := by
    refine ((oneAtATime_nil.concat (e := .established 0) ?_).concat (e := .closed 0) ?_).concat ?_
    · intro k
      rw [openCount_established possible_nil]
      split_ifs
      · exact Nat.le_refl 1
      · exact Nat.zero_le 1
    · intro k
      rw [openCount_closed, openCount_established possible_nil]
      split_ifs
      · exact Nat.zero_le 1
      · exact Nat.zero_le 1
    · intro k
      rw [openCount_established ((possible_nil.established 0).closed (p := 0) (by decide)),
        openCount_closed, openCount_established possible_nil]
      split_ifs
      · exact Nat.le_refl 1
      · exact Nat.zero_le 1
  exact ⟨hemit, hone, (peers_mirror_connections_iff rfl hemit).2.mpr hone⟩

/-- With two connections to one peer the peer is listed twice; when one of them closes it is not
listed any more, although the other is open. -/
theorem second_connection_breaks_peers :
    let node : Node ℕ := ⟨1, [1], Runtime.new ∅, Mempool.withBlockLimit 3⟩
    let twice : List (ConnectionEvent ℕ) := [.established 0, .established 0]
    let once : List (ConnectionEvent ℕ) := [.established 0, .established 0, .closed 0]
    Emitted 1 once ∧ ¬ Mirrored 1 twice (node.connected twice).peers ∧
      ¬ Mirrored 1 once (node.connected once).peers := by
  intro node twice once
  have hpossible : Possible once :=
    ((possible_nil.established 0).established 0).closed (p := 0) (by decide)
  refine ⟨⟨by decide, hpossible⟩, ?_, ?_⟩
  · intro h
    have hpeers : (node.connected twice).peers = [0, 0, 1] := by decide
    have hasc := h.ascending
    rw [hpeers] at hasc
    exact absurd hasc (by decide)
  · intro h
    have hpeers : (node.connected once).peers = [1] := by decide
    have hopen : 0 < openCount 0 once := by decide
    have hlisted := (h.others 0 (by decide)).mpr hopen
    rw [hpeers] at hlisted
    exact absurd hlisted (by decide)

/-! ## A full mesh -/

section Mesh

variable {PeerId : Type} [LinearOrder PeerId]

/-- The node's own id is always listed, so the author of any slot can be read off the list. -/
theorem isMySlot_returns {self : Node PeerId} {events : List (ConnectionEvent PeerId)}
    (hstart : self.peers = [self.id]) (hemit : Emitted self.id events) (slot : ℕ) :
    ∃ author, (self.connected events).peers[slot % (self.connected events).peers.length]? =
        some author ∧
      Node.isMySlot slot (self.connected events) =
        ⟨.ret (author = (self.connected events).id), self.connected events, []⟩ := by
  have hmem : self.id ∈ (self.connected events).peers := by
    rw [← List.count_pos_iff, count_peers_self hstart hemit.others]
    exact Nat.one_pos
  have hlt := Nat.mod_lt slot (List.length_pos_of_mem hmem)
  refine ⟨_, List.getElem?_eq_getElem hlt, ?_⟩
  exact Node.isMySlot_of_author (List.getElem?_eq_getElem hlt)

/-- Nodes connected to exactly the other members of a set list the set in order. -/
theorem peers_of_mesh {S : Finset PeerId} {self : Node PeerId}
    {events : List (ConnectionEvent PeerId)} (hstart : self.peers = [self.id])
    (hemit : Emitted self.id events) (hone : OneAtATime events) (hmem : self.id ∈ S)
    (hmesh : ∀ q, 0 < openCount q events ↔ q ∈ S ∧ q ≠ self.id) :
    (self.connected events).peers = S.sort := by
  have hmirror := (peers_mirror_connections_iff hstart hemit).2.mpr hone events List.prefix_rfl
  have hset : (self.connected events).peers.toFinset = S := by
    ext q
    rw [List.mem_toFinset]
    by_cases hq : q = self.id
    · rw [hq, ← List.count_pos_iff, hmirror.own]
      exact ⟨fun _ => hmem, fun _ => Nat.one_pos⟩
    · rw [hmirror.others q hq, hmesh q]
      exact and_iff_left hq
  have hnodup : (self.connected events).peers.Nodup := hmirror.ascending.imp ne_of_lt
  rw [← hset]
  exact ((List.toFinset_sort (· ≤ ·) hnodup).mpr (peers_sorted hstart)).symm

/-- Nodes that all list the members of a set in order agree on one author for every slot. -/
theorem existsUnique_author {S : Finset PeerId} (hS : S.Nonempty) {node : PeerId → Node PeerId}
    (hid : ∀ p ∈ S, (node p).id = p) (hlist : ∀ p ∈ S, (node p).peers = S.sort) (slot : ℕ) :
    ∃! p, p ∈ S ∧ (Node.isMySlot slot (node p)).outcome = .ret true := by
  have hpos : 0 < S.sort.length := by
    rw [Finset.length_sort]
    exact hS.card_pos
  have hlt := Nat.mod_lt slot hpos
  have hauthor : ∀ p ∈ S, (Node.isMySlot slot (node p)).outcome =
      .ret (S.sort[slot % S.sort.length] = p) := by
    intro p hp
    have hread : (node p).peers[slot % (node p).peers.length]? =
        some S.sort[slot % S.sort.length] := by
      rw [hlist p hp]
      exact List.getElem?_eq_getElem hlt
    rw [Node.isMySlot_of_author hread, hid p hp]
  have hmem : S.sort[slot % S.sort.length] ∈ S :=
    (Finset.mem_sort (· ≤ ·)).mp (List.getElem_mem hlt)
  refine ⟨S.sort[slot % S.sort.length], ⟨hmem, ?_⟩, ?_⟩
  · rw [hauthor _ hmem]
    simp
  · rintro p ⟨hp, hmine⟩
    rw [hauthor p hp] at hmine
    exact (of_decide_eq_true (Outcome.ret.inj hmine)).symm

/-- In a full mesh all nodes hold the same list, and every slot has exactly one author; reading the
author never fails, whatever happened before. -/
theorem one_author_per_slot {S : Finset PeerId} (hS : S.Nonempty) {node : PeerId → Node PeerId}
    {events : PeerId → List (ConnectionEvent PeerId)} (hid : ∀ p ∈ S, (node p).id = p)
    (hstart : ∀ p ∈ S, (node p).peers = [p]) (hemit : ∀ p ∈ S, Emitted p (events p))
    (hone : ∀ p ∈ S, OneAtATime (events p))
    (hmesh : ∀ p ∈ S, ∀ q, 0 < openCount q (events p) ↔ q ∈ S ∧ q ≠ p) :
    (∀ p ∈ S, ((node p).connected (events p)).peers = S.sort) ∧
      (∀ slot, ∃! p, p ∈ S ∧ (Node.isMySlot slot ((node p).connected (events p))).outcome =
        .ret true) ∧
      ∀ p ∈ S, ∀ pre, pre <+: events p → ∀ slot,
        (Node.isMySlot slot ((node p).connected pre)).outcome.Returns := by
  have hlist : ∀ p ∈ S, ((node p).connected (events p)).peers = S.sort := by
    intro p hp
    have hpid := hid p hp
    apply peers_of_mesh
    · rw [hpid]
      exact hstart p hp
    · rw [hpid]
      exact hemit p hp
    · exact hone p hp
    · rw [hpid]
      exact hp
    · rw [hpid]
      exact hmesh p hp
  refine ⟨hlist, ?_, ?_⟩
  · refine existsUnique_author hS (fun p hp => ?_) hlist
    rw [Node.connected_id]
    exact hid p hp
  · intro p hp pre hpre slot
    have hself : (node p).peers = [(node p).id] := by
      rw [hid p hp]
      exact hstart p hp
    have hpast : Emitted (node p).id pre := by
      rw [hid p hp]
      exact (hemit p hp).mono hpre
    obtain ⟨author, -, hrun⟩ := isMySlot_returns hself hpast slot
    rw [hrun]
    trivial

end Mesh

/-- Two nodes connected to each other take turns. -/
theorem one_author_per_slot_pair :
    let node : ℕ → Node ℕ := fun p => ⟨p, [p], Runtime.new ∅, Mempool.withBlockLimit 3⟩
    let events : ℕ → List (ConnectionEvent ℕ) := fun p => [.established (1 - p)]
    (∀ p ∈ ({0, 1} : Finset ℕ), ((node p).connected (events p)).peers =
        ({0, 1} : Finset ℕ).sort) ∧
      (∀ slot, ∃! p, p ∈ ({0, 1} : Finset ℕ) ∧
        (Node.isMySlot slot ((node p).connected (events p))).outcome = .ret true) ∧
      ∀ p ∈ ({0, 1} : Finset ℕ), ∀ pre, pre <+: events p → ∀ slot,
        (Node.isMySlot slot ((node p).connected pre)).outcome.Returns := by
  intro node events
  have hopen : ∀ p q, openCount q (events p) = if 1 - p = q then 1 else 0 := by
    intro p q
    exact (openCount_established possible_nil q (1 - p)).trans (Nat.zero_add _)
  apply one_author_per_slot ⟨0, by decide⟩
  · exact fun p _ => rfl
  · exact fun p _ => rfl
  · intro p hp
    refine ⟨?_, possible_nil.established (1 - p)⟩
    rw [List.forall_mem_singleton, Event.key]
    omega
  · intro p hp
    refine oneAtATime_nil.concat fun q => ?_
    rw [List.nil_append]
    exact (hopen p q).trans_le (by split_ifs <;> omega)
  · intro p hp q
    rw [hopen]
    rw [Finset.mem_insert, Finset.mem_singleton] at hp
    rw [Finset.mem_insert, Finset.mem_singleton]
    split_ifs with hq
    · omega
    · omega

end RustStateMachine
