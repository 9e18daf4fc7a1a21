import Mathlib.Data.List.FinRange
import Mathlib.Data.List.Nodup
import RustStateMachine.Lib.Exec

/-!
# Parties and messages in flight

A fixed number of parties run logged computations. What a computation publishes
is sent to every other party, and a message is handled in any order and at any
time after it was sent. A panic halts a party for good. The rules follow one
message from the moment it is sent until every party has handled it.
-/

namespace Lib

/-- The parties, the messages not yet handled and everything logged so far. -/
structure Network (n : ℕ) (ε σ μ : Type) where
  party : Fin n → σ
  halted : Fin n → Bool
  inFlight : List (Fin n × μ)
  log : List (Fin n × ε)

namespace Network

variable {n : ℕ} {ε σ μ τ : Type}

/-- The parties a message of `i` is sent to. -/
def others (i : Fin n) : List (Fin n) := (List.finRange n).filter fun j => j ≠ i

/-- One copy of every message for everyone but the sender. -/
def broadcast (i : Fin n) (ms : List μ) : List (Fin n × μ) :=
  ms.flatMap fun m => (others i).map fun j => (j, m)

/-- A party that has not halted runs a computation; `sent` tells what its log publishes. -/
def act (sent : List ε → List μ) (i : Fin n) (x : Exec ε σ Unit) (net : Network n ε σ μ) :
    Network n ε σ μ :=
  if net.halted i then net
  else
    { party := Function.update net.party i (x (net.party i)).state
      halted := Function.update net.halted i (!decide (x (net.party i)).outcome.Returns)
      inFlight := net.inFlight ++ broadcast i (sent (x (net.party i)).log)
      log := net.log ++ (x (net.party i)).log.map (Prod.mk i) }

/-- A message is taken off the network. -/
def take [DecidableEq μ] (i : Fin n) (m : μ) (net : Network n ε σ μ) : Network n ε σ μ :=
  { net with inFlight := net.inFlight.erase (i, m) }

theorem mem_others {i j : Fin n} : j ∈ others i ↔ j ≠ i := by
  simp [others]

theorem others_nodup (i : Fin n) : (others i).Nodup := (List.nodup_finRange n).filter _

@[simp] theorem broadcast_nil (i : Fin n) : broadcast i ([] : List μ) = [] := rfl

theorem broadcast_singleton (i : Fin n) (m : μ) :
    broadcast i [m] = (others i).map fun j => (j, m) := by
  simp [broadcast]

section Act

variable {sent : List ε → List μ} {i : Fin n} {x : Exec ε σ Unit} {net : Network n ε σ μ}

/-- A party that acts changes no other party. -/
theorem act_party (h : net.halted i = false) (j : Fin n) :
    (net.act sent i x).party j = if j = i then (x (net.party i)).state else net.party j := by
  by_cases hj : j = i
  · subst hj
    simp [act, h]
  · simp [act, h, hj]

theorem act_inFlight (h : net.halted i = false) :
    (net.act sent i x).inFlight = net.inFlight ++ broadcast i (sent (x (net.party i)).log) := by
  simp [act, h]

end Act

/-! ## Everyone is running -/

/-- No party has halted, each satisfies `P` and each entry logged satisfies `Q`. -/
structure Running (P : Fin n → σ → Prop) (Q : ε → Prop) (net : Network n ε σ μ) : Prop where
  awake : ∀ i, net.halted i = false
  parties : ∀ i, P i (net.party i)
  entries : ∀ p ∈ net.log, Q p.2

section Running

variable {P : Fin n → σ → Prop} {Q : ε → Prop} {net : Network n ε σ μ}

theorem Running.act (h : Running P Q net) {sent : List ε → List μ} {i : Fin n}
    {x : Exec ε σ Unit} (hret : (x (net.party i)).outcome = .ret ())
    (hP : P i (x (net.party i)).state) (hQ : ∀ e ∈ (x (net.party i)).log, Q e) :
    Running P Q (net.act sent i x) := by
  have hact : net.act sent i x =
      { party := Function.update net.party i (x (net.party i)).state
        halted := Function.update net.halted i (!decide (x (net.party i)).outcome.Returns)
        inFlight := net.inFlight ++ broadcast i (sent (x (net.party i)).log)
        log := net.log ++ (x (net.party i)).log.map (Prod.mk i) } := by
    simp [Network.act, h.awake i]
  rw [hact]
  constructor
  · intro j
    by_cases hj : j = i
    · subst hj
      simp [hret]
    · simp [Function.update_of_ne hj, h.awake j]
  · intro j
    by_cases hj : j = i
    · subst hj
      simpa using hP
    · simpa [Function.update_of_ne hj] using h.parties j
  · intro p hp
    rcases List.mem_append.mp hp with hp | hp
    · exact h.entries p hp
    · obtain ⟨e, he, rfl⟩ := List.mem_map.mp hp
      exact hQ e he

theorem Running.take [DecidableEq μ] (h : Running P Q net) (i : Fin n) (m : μ) :
    Running P Q (net.take i m) := ⟨h.awake, h.parties, h.entries⟩

end Running

/-! ## One message -/

/-- Every party shows `s` and no message is on its way. -/
structure Settled (view : σ → τ) (s : τ) (net : Network n ε σ μ) : Prop where
  views : ∀ i, view (net.party i) = s
  empty : net.inFlight = []

/-- Copies of one message are on their way: whoever still has one to handle shows `old`, everyone
else `new`. -/
structure Spreading (view : σ → τ) (m : μ) (old new : τ) (net : Network n ε σ μ) : Prop where
  message : ∀ p ∈ net.inFlight, p.2 = m
  once : (net.inFlight.map Prod.fst).Nodup
  waiting : ∀ i, i ∈ net.inFlight.map Prod.fst → view (net.party i) = old
  handled : ∀ i, i ∉ net.inFlight.map Prod.fst → view (net.party i) = new

section Message

variable {view : σ → τ} {m : μ} {s old new : τ} {sent : List ε → List μ} {i : Fin n}
  {x : Exec ε σ Unit} {net : Network n ε σ μ}

theorem Settled.act (h : Settled view s net) (hawake : net.halted i = false)
    (hview : view (x (net.party i)).state = view (net.party i))
    (hsent : sent (x (net.party i)).log = []) : Settled view s (net.act sent i x) := by
  constructor
  · intro j
    rw [act_party hawake]
    split_ifs with hj
    · rw [hview, h.views i]
    · exact h.views j
  · rw [act_inFlight hawake, hsent, h.empty]
    rfl

/-- A party sends one message while nothing else is on its way. -/
theorem Settled.send (h : Settled view s net) (hawake : net.halted i = false)
    (hview : view (x (net.party i)).state = new) (hsent : sent (x (net.party i)).log = [m]) :
    Spreading view m s new (net.act sent i x) := by
  have hflight : (net.act sent i x).inFlight = (others i).map fun j => (j, m) := by
    rw [act_inFlight hawake, hsent, h.empty, broadcast_singleton]
    rfl
  have hfst : (net.act sent i x).inFlight.map Prod.fst = others i := by
    rw [hflight, List.map_map]
    exact List.map_id _
  constructor
  · intro p hp
    rw [hflight] at hp
    obtain ⟨j, -, rfl⟩ := List.mem_map.mp hp
    rfl
  · rw [hfst]
    exact others_nodup i
  · intro j hj
    rw [hfst, mem_others] at hj
    rw [act_party hawake, if_neg hj, h.views j]
  · intro j hj
    rw [hfst, mem_others, not_not] at hj
    rw [act_party hawake, if_pos hj, hview]

theorem Spreading.act (h : Spreading view m old new net) (hawake : net.halted i = false)
    (hview : view (x (net.party i)).state = view (net.party i))
    (hsent : sent (x (net.party i)).log = []) :
    Spreading view m old new (net.act sent i x) := by
  have hflight : (net.act sent i x).inFlight = net.inFlight := by
    rw [act_inFlight hawake, hsent, broadcast_nil, List.append_nil]
  have hsame : ∀ j, view ((net.act sent i x).party j) = view (net.party j) := by
    intro j
    rw [act_party hawake]
    split_ifs with hj
    · rw [hview, hj]
    · rfl
  constructor
  · rw [hflight]
    exact h.message
  · rw [hflight]
    exact h.once
  · intro j hj
    rw [hflight] at hj
    rw [hsame, h.waiting j hj]
  · intro j hj
    rw [hflight] at hj
    rw [hsame, h.handled j hj]

/-- A party handles its copy. -/
theorem Spreading.deliver [DecidableEq μ] (h : Spreading view m old new net)
    (hmem : (i, m) ∈ net.inFlight) (hawake : net.halted i = false)
    (hview : view (x (net.party i)).state = new) (hsent : sent (x (net.party i)).log = []) :
    Spreading view m old new ((net.take i m).act sent i x) := by
  have hawake' : (net.take i m).halted i = false := hawake
  have hflight : ((net.take i m).act sent i x).inFlight = net.inFlight.erase (i, m) := by
    rw [act_inFlight hawake']
    change net.inFlight.erase (i, m) ++ broadcast i (sent (x (net.party i)).log) = _
    rw [hsent, broadcast_nil, List.append_nil]
  have hfst : ∀ j, j ∈ (net.inFlight.erase (i, m)).map Prod.fst ↔
      j ≠ i ∧ j ∈ net.inFlight.map Prod.fst := by
    have hcopies : net.inFlight.Nodup := h.once.of_map
    intro j
    simp only [List.mem_map, Prod.exists, hcopies.mem_erase_iff]
    constructor
    · rintro ⟨k, m', ⟨hne, hin⟩, rfl⟩
      refine ⟨?_, k, m', hin, rfl⟩
      rintro rfl
      exact hne (Prod.ext rfl (h.message _ hin))
    · rintro ⟨hj, k, m', hin, rfl⟩
      exact ⟨k, m', ⟨fun heq => hj (congrArg Prod.fst heq), hin⟩, rfl⟩
  constructor
  · intro p hp
    rw [hflight] at hp
    exact h.message p (List.mem_of_mem_erase hp)
  · rw [hflight]
    exact h.once.sublist ((List.erase_sublist).map Prod.fst)
  · intro j hj
    rw [hflight, hfst] at hj
    rw [act_party hawake', if_neg hj.1]
    exact h.waiting j hj.2
  · intro j hj
    rw [hflight, hfst, not_and] at hj
    rw [act_party hawake']
    split_ifs with heq
    · exact hview
    · exact h.handled j (hj heq)

/-- Once no copy is left everyone shows the new state. -/
theorem Spreading.settled (h : Spreading view m old new net) (hempty : net.inFlight = []) :
    Settled view new net := by
  refine ⟨?_, hempty⟩
  intro i
  apply h.handled i
  rw [hempty]
  exact List.not_mem_nil

end Message

end Network

end Lib
