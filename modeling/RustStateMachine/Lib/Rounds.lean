import RustStateMachine.Lib.Network

/-!
# Rounds

In a round one party sends one message to everyone else, and each of them
handles its copy once. Every party starts from a view of its own and moves by
itself, the sender when it sends and the others when they handle the message.
-/

namespace Lib.Network

variable {n : ℕ} {ε σ μ τ : Type}

/-- Nothing is on its way and every party shows its own view. -/
structure Still (view : σ → τ) (before : Fin n → τ) (net : Network n ε σ μ) : Prop where
  views : ∀ i, view (net.party i) = before i
  empty : net.inFlight = []

/-- Copies of one message are on their way: whoever still has one to handle shows its view from
before, everyone else the one after. -/
structure Passing (view : σ → τ) (m : μ) (before after : Fin n → τ) (net : Network n ε σ μ) :
    Prop where
  message : ∀ p ∈ net.inFlight, p.2 = m
  once : (net.inFlight.map Prod.fst).Nodup
  waiting : ∀ i, i ∈ net.inFlight.map Prod.fst → view (net.party i) = before i
  handled : ∀ i, i ∉ net.inFlight.map Prod.fst → view (net.party i) = after i

section Phases

variable {view : σ → τ} {m : μ} {before after : Fin n → τ} {sent : List ε → List μ} {i : Fin n}
  {x : Exec ε σ Unit} {net : Network n ε σ μ}

/-- An action that changes no view. -/
theorem view_act (hawake : net.halted i = false)
    (hview : view (x (net.party i)).state = view (net.party i)) (j : Fin n) :
    view ((net.act sent i x).party j) = view (net.party j) := by
  rw [act_party hawake]
  split_ifs with hj
  · rw [hview, hj]
  · rfl

theorem Still.act (h : Still view before net) (hawake : net.halted i = false)
    (hview : view (x (net.party i)).state = view (net.party i))
    (hsent : sent (x (net.party i)).log = []) : Still view before (net.act sent i x) := by
  refine ⟨fun j => (view_act hawake hview j).trans (h.views j), ?_⟩
  rw [act_inFlight hawake, hsent, h.empty]
  rfl

/-- The sender moves, and everyone else has a copy to handle. -/
theorem Still.send (h : Still view before net) (hawake : net.halted i = false)
    (hview : view (x (net.party i)).state = after i) (hsent : sent (x (net.party i)).log = [m]) :
    Passing view m before after (net.act sent i x) := by
  have hflight : (net.act sent i x).inFlight = (others i).map fun j => (j, m) := by
    rw [act_inFlight hawake, hsent, h.empty, broadcast_singleton]
    rfl
  have hfst : (net.act sent i x).inFlight.map Prod.fst = others i := by
    rw [hflight, List.map_map]
    exact List.map_id _
  constructor
  · intro p hp
    rw [hflight] at hp
    obtain ⟨j, -, rfl⟩ := List.mem_map.mp hp
    rfl
  · rw [hfst]
    exact others_nodup i
  · intro j hj
    rw [hfst, mem_others] at hj
    rw [act_party hawake, if_neg hj, h.views j]
  · intro j hj
    rw [hfst, mem_others, not_not] at hj
    rw [act_party hawake, if_pos hj, hview, hj]

theorem Passing.act (h : Passing view m before after net) (hawake : net.halted i = false)
    (hview : view (x (net.party i)).state = view (net.party i))
    (hsent : sent (x (net.party i)).log = []) :
    Passing view m before after (net.act sent i x) := by
  have hflight : (net.act sent i x).inFlight = net.inFlight := by
    rw [act_inFlight hawake, hsent, broadcast_nil, List.append_nil]
  constructor
  · rw [hflight]
    exact h.message
  · rw [hflight]
    exact h.once
  · intro j hj
    rw [hflight] at hj
    rw [view_act hawake hview, h.waiting j hj]
  · intro j hj
    rw [hflight] at hj
    rw [view_act hawake hview, h.handled j hj]

/-- A party handles its copy and moves. -/
theorem Passing.deliver [DecidableEq μ] (h : Passing view m before after net)
    (hmem : (i, m) ∈ net.inFlight) (hawake : net.halted i = false)
    (hview : view (x (net.party i)).state = after i) (hsent : sent (x (net.party i)).log = []) :
    Passing view m before after ((net.take i m).act sent i x) := by
  have hawake' : (net.take i m).halted i = false := hawake
  have hflight : ((net.take i m).act sent i x).inFlight = net.inFlight.erase (i, m) := by
    rw [act_inFlight hawake']
    change net.inFlight.erase (i, m) ++ broadcast i (sent (x (net.party i)).log) = _
    rw [hsent, broadcast_nil, List.append_nil]
  have hpending : ∀ j, j ∈ (net.inFlight.erase (i, m)).map Prod.fst ↔
      j ≠ i ∧ j ∈ net.inFlight.map Prod.fst := by
    intro j
    simp only [List.mem_map, Prod.exists, h.once.of_map.mem_erase_iff]
    constructor
    · rintro ⟨k, m', ⟨hne, hin⟩, rfl⟩
      refine ⟨?_, k, m', hin, rfl⟩
      rintro rfl
      exact hne (Prod.ext rfl (h.message _ hin))
    · rintro ⟨hj, k, m', hin, rfl⟩
      exact ⟨k, m', ⟨fun heq => hj (congrArg Prod.fst heq), hin⟩, rfl⟩
  constructor
  · intro p hp
    rw [hflight] at hp
    exact h.message p (List.mem_of_mem_erase hp)
  · rw [hflight]
    exact h.once.sublist ((List.erase_sublist).map Prod.fst)
  · intro j hj
    rw [hflight, hpending] at hj
    rw [act_party hawake', if_neg hj.1]
    exact h.waiting j hj.2
  · intro j hj
    rw [hflight, hpending, not_and] at hj
    rw [act_party hawake']
    split_ifs with heq
    · rw [heq]
      exact hview
    · exact h.handled j (hj heq)

/-- Once no copy is left the round is over. -/
theorem Passing.still (h : Passing view m before after net) (hempty : net.inFlight = []) :
    Still view after net := by
  refine ⟨fun i => h.handled i ?_, hempty⟩
  rw [hempty]
  exact List.not_mem_nil

end Phases

end Lib.Network
