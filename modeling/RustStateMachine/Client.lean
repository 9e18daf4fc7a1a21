import RustStateMachine.Lib.Trace
import RustStateMachine.Server

/-!
# One client against the interleaved node

A client asks for a nonce, signs with the answer, posts and starts over, while
the steps of the node task come in between, also between the two reads of the
nonce handler. It never gets a nonce twice exactly if every count finds all its
posted extrinsics in the pool or executed before the first read.
-/

namespace RustStateMachine

open Lib Lib.KeyValue Lib.Runs Lib.Trace Std Support

/-- What the client waits for: nothing, the second read of the handler, its own signature, or an
answer that never comes because the handler panicked. -/
inductive Client where
  | ready
  | counting (base : Types.Nonce)
  | answered (nonce : Types.Nonce)
  | unanswered

/-- The node, its client and the nonces returned to it so far. -/
structure World (PeerId : Type) where
  server : Server PeerId
  client : Client
  returned : List Types.Nonce

/-- One step of a handler, of the network loop or of the node task. -/
inductive Move where
  | readNonce
  | countPending
  | submit (call : RuntimeCall)
  | gossip (ext : Types.Extrinsic)
  | receive
  | drain
  | select (order : HashOrder)
  | execute
  | apply (block : Types.Block)
  | evict

namespace World

variable {PeerId : Type}

/-- The sum of the nonce that was read and the pending extrinsics; nothing if it overflows. -/
def answer (a : Types.AccountId) (base : Types.Nonce) (self : Node PeerId) : Option Types.Nonce :=
  checkedAdd base (BitVec.ofNat 32 (self.mempool.pending.countP fun e => e.signer = a))

theorem answer_eq_some {a : Types.AccountId} {base nonce : Types.Nonce} {self : Node PeerId} :
    answer a base self = some nonce ↔ nonce.toNat =
      base.toNat + (Runtime.noncesOf a self.mempool.pending).length % 2 ^ 32 := by
  rw [answer, Machine.checkedAdd_eq_some, BitVec.toNat_ofNat, Runtime.noncesOf, List.length_map,
    List.countP_eq_length_filter]

theorem answer_eq_none {a : Types.AccountId} {base : Types.Nonce} {self : Node PeerId} :
    answer a base self = none ↔
      2 ^ 32 ≤ base.toNat + (Runtime.noncesOf a self.mempool.pending).length % 2 ^ 32 := by
  rw [answer, Machine.checkedAdd_eq_none, BitVec.toNat_ofNat, Runtime.noncesOf, List.length_map,
    List.countP_eq_length_filter]

/-- Without a step between its two reads, the handler gives this answer. -/
theorem nonceHandler_eq_answer {hexDecode : String → Except String Bytes} {hex : String}
    {a : Types.AccountId} (hhex : hexDecode hex = .ok a.bytes.toList) (self : Node PeerId) :
    Rpc.nonceHandler hexDecode hex self =
      match answer a (self.runtime.system.nonce a) self with
      | some nonce => ⟨.ret (.ok (toString nonce.toNat)), self, []⟩
      | none => ⟨.panicked "attempt to add with overflow", self, []⟩ := by
  have hsum : checkedAdd (self.runtime.system.nonce a) (BitVec.ofNat 32
      (Runtime.noncesOf a self.mempool.pending).length) =
        answer a (self.runtime.system.nonce a) self := by
    rw [answer, Runtime.noncesOf, List.length_map, List.countP_eq_length_filter]
  cases hanswer : answer a (self.runtime.system.nonce a) self with
  | some nonce => rw [Rpc.nonceHandler_of_account hhex, hsum, hanswer]
  | none => rw [Rpc.nonceHandler_of_account hhex, hsum, hanswer]

/-- A node as `run` starts it on a runtime, and a client that has asked nothing yet. -/
def start (id : PeerId) (peers : List PeerId) (runtime : Runtime) : World PeerId where
  server := ⟨⟨id, peers, runtime, Mempool.withBlockLimit 3⟩, [], .idle⟩
  client := .ready
  returned := []

variable [Ed25519]

/-- The account of a key. -/
def account (sk : Vector UInt8 32) : Types.AccountId := ⟨Ed25519.verifyingKey sk⟩

/-- The world after a step; a step whose turn it is not changes nothing. -/
def next (sk : Vector UInt8 32) : Move → World PeerId → World PeerId
  | .readNonce, self =>
      match self.client with
      | .ready =>
          { self with client := .counting (self.server.node.runtime.system.nonce (account sk)) }
      | _ => self
  | .countPending, self =>
      match self.client with
      | .counting base =>
          match answer (account sk) base self.server.node with
          | some nonce =>
              { self with client := .answered nonce, returned := self.returned ++ [nonce] }
          | none => { self with client := .unanswered }
      | _ => self
  | .submit call, self =>
      match self.client with
      | .answered nonce =>
          let ext := UncheckedExtrinsic.newSigned sk nonce call
          { self with
            server := (Server.submitHandler (encode ext) self.server).state
            client := .ready }
      | _ => self
  | .gossip ext, self => { self with server := self.server.send ext }
  | .receive, self => { self with server := self.server.receive }
  | .drain, self => { self with server := self.server.drain }
  | .select order, self => { self with server := self.server.select order }
  | .execute, self => { self with server := self.server.execute }
  | .apply block, self => { self with server := self.server.apply block }
  | .evict, self => { self with server := self.server.evict }

/-! ## Conditions on a step -/

/-- Nobody else sends extrinsics of the account, a peer block takes its pending extrinsics as it
lists them, and nothing pending is counted that such a block is about to evict. -/
def Undisturbed (sk : Vector UInt8 32) : Move → World PeerId → Prop
  | .gossip ext, _ => ext.signer ≠ account sk
  | .apply block, self => self.server.task = .idle →
      block.header.blockNumber.toNat = self.server.node.runtime.height + 1 →
      Server.TakesPending (account sk) block self.server
  | .countPending, self => ∀ base, self.client = .counting base →
      ∀ e ∈ self.server.node.mempool.pending, e.signer = account sk → e ∈ self.server.staying
  | _, _ => True

theorem undisturbed_countPending {sk : Vector UInt8 32} {self : World PeerId}
    (h : self.server.task = .idle) : Undisturbed sk .countPending self := by
  intro base _ e he _
  rw [Server.staying, h]
  exact he

/-- A count finds the runtime nonce as it was read, and none of the account's extrinsics on the
channel, in the hands of the task or lost to a panic of the task; and it fits the counter. -/
def Settled (sk : Vector UInt8 32) : Move → World PeerId → Prop
  | .countPending, self => ∀ base, self.client = .counting base →
      base = self.server.node.runtime.system.nonce (account sk) ∧
      (∀ e ∈ self.server.held ++ self.server.channel ++ self.server.lost,
        e.signer ≠ account sk) ∧
      (Runtime.noncesOf (account sk) self.server.node.mempool.pending).length < 2 ^ 32
  | _, _ => True

/-! ## What a run keeps -/

/-- How many of the returned nonces the client has posted an extrinsic for. -/
def posted (self : World PeerId) : ℕ :=
  match self.client with
  | .answered _ => self.returned.length - 1
  | _ => self.returned.length

/-- The returned nonces are consecutive, and the posted ones are executed or outstanding. -/
structure Consecutive (a : Types.AccountId) (first : ℕ) (w : World PeerId) : Prop where
  returned : w.returned.map BitVec.toNat = List.range' first w.returned.length
  tracks : Server.Tracks a (first + w.posted) w.server
  first_le : first ≤ (w.server.node.runtime.system.nonce a).toNat
  counting : ∀ base, w.client = .counting base →
    first ≤ base.toNat ∧ base.toNat ≤ (w.server.node.runtime.system.nonce a).toNat
  answered : ∀ nonce, w.client = .answered nonce →
    nonce.toNat = first + w.posted ∧ w.posted + 1 = w.returned.length

section Keeps

variable {a : Types.AccountId} {first : ℕ} {self : World PeerId}

/-- What the server keeps about the account is all the client relies on. -/
theorem Consecutive.server (h : Consecutive a first self) {s : Server PeerId}
    (htracks : Server.Tracks a (first + self.posted) s)
    (hnonce : (self.server.node.runtime.system.nonce a).toNat ≤
      (s.node.runtime.system.nonce a).toNat) :
    Consecutive a first { self with server := s } where
  returned := h.returned
  tracks := htracks
  first_le := h.first_le.trans hnonce
  counting base hbase := ⟨(h.counting base hbase).1, (h.counting base hbase).2.trans hnonce⟩
  answered := h.answered

theorem Consecutive.readNonce {sk : Vector UInt8 32} (h : Consecutive (account sk) first self) :
    Consecutive (account sk) first (next sk .readNonce self) := by
  obtain ⟨server, client, returned⟩ := self
  cases client with
  | ready =>
      refine ⟨h.returned, h.tracks, h.first_le, ?_, fun _ hanswer => Client.noConfusion hanswer⟩
      intro base hbase
      cases hbase
      exact ⟨h.first_le, Nat.le_refl _⟩
  | counting => exact h
  | answered => exact h
  | unanswered => exact h

/-- Posting sends the account's next nonce, validly signed. -/
theorem Consecutive.submit {sk : Vector UInt8 32}
    (hkey : Ed25519.isVerifyingKey (Ed25519.verifyingKey sk) = true)
    (hsign : ∀ message,
      Ed25519.verifies (Ed25519.verifyingKey sk) message (Ed25519.sign sk message) = true)
    (h : Consecutive (account sk) first self) (call : RuntimeCall) :
    Consecutive (account sk) first (next sk (.submit call) self) := by
  obtain ⟨server, client, returned⟩ := self
  cases client with
  | answered nonce =>
      obtain ⟨hnonce, hlast⟩ := h.answered nonce rfl
      let ext := UncheckedExtrinsic.newSigned sk nonce call
      have hnext : next sk (.submit call) (⟨server, .answered nonce, returned⟩ : World PeerId) =
          ⟨server.send ext, .ready, returned⟩ := by
        simp only [next, Server.submitHandler_encode]
        rfl
      have hverify : ext.verify = .ok () :=
        UncheckedExtrinsic.verify_newSigned hkey hsign nonce call
      have hsent := h.tracks.send (rfl : ext.signer = account sk) hnonce hverify
      have hfirst : first ≤ ((server.send ext).node.runtime.system.nonce (account sk)).toNat := by
        rw [Server.send_node]
        exact h.first_le
      rw [hnext]
      refine ⟨h.returned, ?_, hfirst, fun _ hbase => Client.noConfusion hbase,
        fun _ hanswer => Client.noConfusion hanswer⟩
      rw [Nat.add_assoc, hlast] at hsent
      exact hsent
  | ready => exact h
  | counting => exact h
  | unanswered => exact h

/-- What the counts of a world with consecutive nonces add up to. -/
theorem Consecutive.count (h : Consecutive a first self) :
    (self.server.node.runtime.system.nonce a).toNat +
      ((Runtime.noncesOf a self.server.staying).length +
        (Runtime.noncesOf a
          (self.server.held ++ self.server.channel ++ self.server.lost)).length) =
      first + self.posted := by
  have hlen := congrArg List.length h.tracks.nonces
  rw [h.tracks.length_noncesOf_outstanding, List.length_range'] at hlen
  have hle := h.tracks.nonce_le
  omega

theorem Consecutive.count_pending {sk : Vector UInt8 32} (h : Consecutive (account sk) first self)
    (hundisturbed : Undisturbed sk .countPending self) {base : Types.Nonce}
    (hbase : self.client = .counting base) :
    (self.server.node.runtime.system.nonce (account sk)).toNat +
      ((Runtime.noncesOf (account sk) self.server.node.mempool.pending).length +
        (Runtime.noncesOf (account sk)
          (self.server.held ++ self.server.channel ++ self.server.lost)).length) =
      first + self.returned.length := by
  have hcount := h.count
  rw [Server.noncesOf_staying (hundisturbed base hbase)] at hcount
  have hposted : self.posted = self.returned.length := by rw [posted, hbase]
  rw [← hposted]
  exact hcount

theorem next_countPending_some {sk : Vector UInt8 32} {server : Server PeerId}
    {base nonce : Types.Nonce} (h : answer (account sk) base server.node = some nonce)
    (returned : List Types.Nonce) :
    next sk .countPending (⟨server, .counting base, returned⟩ : World PeerId) =
      ⟨server, .answered nonce, returned ++ [nonce]⟩ := by
  simp only [next, h]

/-- A settled count returns the nonce after all that were posted. -/
theorem Consecutive.countPending {sk : Vector UInt8 32} (h : Consecutive (account sk) first self)
    (hundisturbed : Undisturbed sk .countPending self) (hsettled : Settled sk .countPending self) :
    Consecutive (account sk) first (next sk .countPending self) := by
  obtain ⟨server, client, returned⟩ := self
  cases client with
  | counting base =>
      obtain ⟨hbase, hfree, hfits⟩ := hsettled base rfl
      have hcount := h.count_pending hundisturbed rfl
      rw [Server.noncesOf_eq_nil_iff.mpr hfree, List.length_nil, Nat.add_zero, ← hbase] at hcount
      cases hanswer : answer (account sk) base server.node with
      | some nonce =>
          have hnonce : nonce.toNat = first + returned.length := by
            calc
              nonce.toNat = base.toNat + (Runtime.noncesOf (account sk)
                  server.node.mempool.pending).length % 2 ^ 32 := answer_eq_some.mp hanswer
              _ = base.toNat +
                  (Runtime.noncesOf (account sk) server.node.mempool.pending).length := by
                rw [Nat.mod_eq_of_lt hfits]
              _ = first + returned.length := hcount
          have hposted : (⟨server, .answered nonce, returned ++ [nonce]⟩ : World PeerId).posted =
              returned.length := by
            rw [posted, List.length_append, List.length_singleton, Nat.add_sub_cancel]
          rw [next_countPending_some hanswer]
          refine ⟨?_, ?_, h.first_le, fun _ hclient => Client.noConfusion hclient, ?_⟩
          · have hreturned : returned.map BitVec.toNat = List.range' first returned.length :=
              h.returned
            rw [List.map_append, hreturned, List.length_append, List.length_singleton,
              List.range'_concat, Nat.one_mul, List.map_singleton, hnonce]
          · rw [hposted]
            exact h.tracks
          · intro n hn
            cases hn
            rw [hposted, List.length_append, List.length_singleton]
            exact ⟨hnonce, rfl⟩
      | none =>
          have hnext : next sk .countPending (⟨server, .counting base, returned⟩ : World PeerId) =
              ⟨server, .unanswered, returned⟩ := by
            simp only [next, hanswer]
          rw [hnext]
          exact ⟨h.returned, h.tracks, h.first_le, fun _ hclient => Client.noConfusion hclient,
            fun _ hclient => Client.noConfusion hclient⟩
  | ready => exact h
  | answered => exact h
  | unanswered => exact h

/-- All nonces from the first up to the next one were returned. -/
theorem Consecutive.mem_returned (h : Consecutive a first self) {v : ℕ} (hv : first ≤ v)
    (hlt : v < first + self.returned.length) : ∃ nonce ∈ self.returned, nonce.toNat = v := by
  apply List.mem_map.mp
  rw [h.returned, List.mem_range'_1]
  exact ⟨hv, hlt⟩

/-- A count that is not settled stays below the next nonce. -/
theorem Consecutive.count_lt {sk : Vector UInt8 32} (h : Consecutive (account sk) first self)
    (hundisturbed : Undisturbed sk .countPending self)
    (hsettled : ¬ Settled sk .countPending self) {base : Types.Nonce}
    (hbase : self.client = .counting base) :
    base.toNat +
        (Runtime.noncesOf (account sk) self.server.node.mempool.pending).length % 2 ^ 32 <
      first + self.returned.length := by
  have hread := (h.counting base hbase).2
  have hcount := h.count_pending hundisturbed hbase
  have hmod := Nat.mod_le
    (Runtime.noncesOf (account sk) self.server.node.mempool.pending).length (2 ^ 32)
  by_contra hge
  apply hsettled
  intro b hb
  obtain rfl : base = b := Client.counting.inj (hbase.symm.trans hb)
  refine ⟨BitVec.eq_of_toNat_eq (by omega), ?_, ?_⟩
  · rw [← Server.noncesOf_eq_nil_iff]
    apply List.eq_nil_of_length_eq_zero
    omega
  · have hlt := Nat.mod_lt
      (Runtime.noncesOf (account sk) self.server.node.mempool.pending).length (Nat.two_pow_pos 32)
    omega

/-- A count that is not settled returns a nonce for the second time. -/
theorem Consecutive.not_nodup {sk : Vector UInt8 32} (h : Consecutive (account sk) first self)
    (hundisturbed : Undisturbed sk .countPending self)
    (hsettled : ¬ Settled sk .countPending self) :
    ¬ (next sk .countPending self).returned.Nodup := by
  obtain ⟨server, client, returned⟩ := self
  cases client with
  | counting base =>
      have hfirst : first ≤ base.toNat := (h.counting base rfl).1
      have hlt := h.count_lt hundisturbed hsettled rfl
      -- all nonces below the next one were returned before
      obtain ⟨old, hold, heq⟩ := h.mem_returned (by omega) hlt
      cases hanswer : answer (account sk) base server.node with
      | some nonce =>
          rw [next_countPending_some hanswer, List.nodup_append]
          rintro ⟨-, -, hdisjoint⟩
          have hsame : old = nonce :=
            BitVec.eq_of_toNat_eq (heq.trans (answer_eq_some.mp hanswer).symm)
          exact hdisjoint old hold nonce (List.mem_singleton_self nonce) hsame
      | none =>
          have hover := answer_eq_none.mp hanswer
          have hroom := old.isLt
          rw [heq] at hroom
          exact absurd hover hroom.not_ge
  | ready => exact absurd (fun _ hclient => Client.noConfusion hclient) hsettled
  | answered => exact absurd (fun _ hclient => Client.noConfusion hclient) hsettled
  | unanswered => exact absurd (fun _ hclient => Client.noConfusion hclient) hsettled

/-- Every step keeps consecutive nonces, if nobody disturbs the account and a count is settled. -/
theorem Consecutive.next {sk : Vector UInt8 32}
    (hkey : Ed25519.isVerifyingKey (Ed25519.verifyingKey sk) = true)
    (hsign : ∀ message,
      Ed25519.verifies (Ed25519.verifyingKey sk) message (Ed25519.sign sk message) = true)
    (h : Consecutive (account sk) first self) {move : Move}
    (hundisturbed : Undisturbed sk move self) (hsettled : Settled sk move self) :
    Consecutive (account sk) first (World.next sk move self) := by
  cases move with
  | readNonce => exact h.readNonce
  | countPending => exact h.countPending hundisturbed hsettled
  | submit call => exact h.submit hkey hsign call
  | gossip ext =>
      exact h.server (h.tracks.send_other hundisturbed) (Nat.le_of_eq (by rw [Server.send_node]))
  | receive => exact h.server h.tracks.receive (Nat.le_of_eq (by rw [Server.receive_runtime]))
  | drain => exact h.server h.tracks.drain (Nat.le_of_eq (by rw [Server.drain_runtime]))
  | select order =>
      exact h.server (h.tracks.select order) (Nat.le_of_eq (by rw [Server.select_runtime]))
  | execute => exact h.server h.tracks.execute.1 h.tracks.execute.2
  | apply block =>
      have happly := h.tracks.apply hundisturbed
      exact h.server happly.1 happly.2
  | evict => exact h.server h.tracks.evict (Nat.le_of_eq (by rw [Server.evict_runtime]))

end Keeps

/-- A step returns a nonce or none, and takes none back. -/
theorem returned_isPrefix (sk : Vector UInt8 32) (move : Move) (self : World PeerId) :
    self.returned <+: (next sk move self).returned := by
  obtain ⟨server, client, returned⟩ := self
  cases move with
  | readNonce =>
      cases client <;> exact List.prefix_rfl
  | countPending =>
      cases client with
      | counting base =>
          simp only [next]
          cases answer (account sk) base server.node with
          | some nonce => exact List.prefix_append _ _
          | none => exact List.prefix_rfl
      | ready => exact List.prefix_rfl
      | answered => exact List.prefix_rfl
      | unanswered => exact List.prefix_rfl
  | submit call =>
      cases client <;> exact List.prefix_rfl
  | _ => exact List.prefix_rfl

/-- In a run that nobody disturbs, the client never gets a nonce twice exactly if every count is
settled. -/
theorem returned_nodup_iff {sk : Vector UInt8 32}
    (hkey : Ed25519.isVerifyingKey (Ed25519.verifyingKey sk) = true)
    (hsign : ∀ message,
      Ed25519.verifies (Ed25519.verifyingKey sk) message (Ed25519.sign sk message) = true)
    (id : PeerId) (peers : List PeerId) (runtime : Runtime) {moves : List Move}
    (hundisturbed : AtEachStep (next sk) (Undisturbed sk) moves (start id peers runtime)) :
    (run (next sk) moves (start id peers runtime)).returned.Nodup ↔
      AtEachStep (next sk) (Settled sk) moves (start id peers runtime) := by
  have hstart : Consecutive (account sk) (runtime.system.nonce (account sk)).toNat
      (start id peers runtime) := by
    refine ⟨rfl, ⟨?_, ?_, Nat.le_refl _, fun _ hsel => Task.noConfusion hsel, rfl,
      False.elim⟩, Nat.le_refl _,
      fun _ hclient => Client.noConfusion hclient, fun _ hclient => Client.noConfusion hclient⟩
    · intro e he
      cases he
    · change [] = List.range' _ ((runtime.system.nonce (account sk)).toNat -
        (runtime.system.nonce (account sk)).toNat)
      rw [Nat.sub_self]
      rfl
  refine hundisturbed.iff_of_step hstart ?_ ?_ ?_ ?_ (G := fun w => w.returned.Nodup)
  · intro w hw
    have hmap : (w.returned.map BitVec.toNat).Nodup := by
      rw [hw.returned]
      exact List.nodup_range'
    exact hmap.of_map
  · intro move w hnodup
    exact hnodup.sublist (returned_isPrefix sk move w).sublist
  · intro move w hw hund hset
    exact hw.next hkey hsign hund hset
  · intro move w hw hund hnodup
    by_contra hset
    cases move with
    | countPending => exact hw.not_nodup hund hset hnodup
    | _ => exact hset trivial

end World

/-- Two rounds of Alice's client on a node right after genesis; the task receives the first payment
before the second count. -/
theorem returned_nodup_two_rounds :
    let := Ed25519.transparent
    let sk := AccountKeyring.alice.signingKey
    let w : World ℕ := World.start 0 [0] (Runtime.maybeApplyGenesis (Runtime.new ∅)).state
    let moves : List Move := [.readNonce, .countPending, .submit (smallPayment 0).call, .receive,
      .readNonce, .countPending]
    AtEachStep (World.next sk) (World.Undisturbed sk) moves w ∧
      AtEachStep (World.next sk) (World.Settled sk) moves w ∧
      (run (World.next sk) moves w).returned = [0, 1] := by
  intro scheme sk w moves
  have hundisturbed : AtEachStep (World.next sk) (World.Undisturbed sk) moves w := by
    change AtEachStep _ _ (([] : List Move) ++ [.readNonce] ++ [.countPending] ++
      [.submit (smallPayment 0).call] ++ [.receive] ++ [.readNonce] ++ [.countPending]) w
    iterate 6 rw [atEachStep_concat]
    refine ⟨⟨⟨⟨⟨⟨atEachStep_nil _ _, trivial⟩, ?_⟩, trivial⟩, trivial⟩, trivial⟩, ?_⟩
    · exact World.undisturbed_countPending (by decide +kernel)
    · exact World.undisturbed_countPending (by decide +kernel)
  have hreturned : (run (World.next sk) moves w).returned = [0, 1] := by decide +kernel
  refine ⟨hundisturbed, ?_, hreturned⟩
  apply (World.returned_nodup_iff rfl (fun _ => beq_self_eq_true _) 0 [0] _ hundisturbed).mp
  change (run (World.next sk) moves w).returned.Nodup
  rw [hreturned]
  decide

/-- The task has not yet received the first payment when the second count reads the pool: Alice's
client gets nonce 0 twice. -/
theorem returned_twice :
    let := Ed25519.transparent
    let sk := AccountKeyring.alice.signingKey
    let w : World ℕ := World.start 0 [0] (Runtime.maybeApplyGenesis (Runtime.new ∅)).state
    let moves : List Move := [.readNonce, .countPending, .submit (smallPayment 0).call,
      .readNonce, .countPending]
    ¬ (run (World.next sk) moves w).returned.Nodup := by
  intro scheme sk w moves
  have hreturned : (run (World.next sk) moves w).returned = [0, 0] := by decide +kernel
  rw [hreturned]
  decide

end RustStateMachine
