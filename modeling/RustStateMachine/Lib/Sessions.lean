import Mathlib.Data.List.Basic
import Mathlib.Data.List.Infix
import Mathlib.Tactic.Common

/-!
# Sessions with keys

A history tells of sessions being established and closed, any number at a time
with the same key. Two counts of a key are compared: its open sessions, and its
sessions established since one was last closed.
-/

namespace Lib.Sessions

/-- What a history tells of. -/
inductive Event (κ : Type) where
  | established (key : κ)
  | closed (key : κ)
deriving DecidableEq

namespace Event

variable {κ : Type}

/-- Whose session an event is about. -/
def key : Event κ → κ
  | established key => key
  | closed key => key

end Event

variable {κ : Type} [DecidableEq κ]

/-- How many sessions of a key are open. -/
def openCount (k : κ) (events : List (Event κ)) : ℕ :=
  events.count (.established k) - events.count (.closed k)

/-- How many sessions of a key were established since one was last closed. -/
def sinceClosed (k : κ) (events : List (Event κ)) : ℕ :=
  events.foldl (fun n e =>
    match e with
    | .established k' => if k' = k then n + 1 else n
    | .closed k' => if k' = k then 0 else n) 0

/-- Only sessions that are open are closed. -/
def Possible (events : List (Event κ)) : Prop :=
  ∀ pre, pre <+: events → ∀ k, pre.count (.closed k) ≤ pre.count (.established k)

/-- No two sessions of a key are ever open together. -/
def OneAtATime (events : List (Event κ)) : Prop :=
  ∀ pre, pre <+: events → ∀ k, openCount k pre ≤ 1

theorem sinceClosed_established (k k' : κ) (events : List (Event κ)) :
    sinceClosed k (events ++ [.established k']) =
      sinceClosed k events + if k' = k then 1 else 0 := by
  rw [sinceClosed, List.foldl_append]
  change (if k' = k then sinceClosed k events + 1 else sinceClosed k events) = _
  split_ifs
  · rfl
  · rfl

theorem sinceClosed_closed (k k' : κ) (events : List (Event κ)) :
    sinceClosed k (events ++ [.closed k']) = if k' = k then 0 else sinceClosed k events := by
  rw [sinceClosed, List.foldl_append]
  rfl

theorem Possible.mono {events pre : List (Event κ)} (h : Possible events)
    (hpre : pre <+: events) : Possible pre :=
  fun pre' hpre' => h pre' (hpre'.trans hpre)

theorem OneAtATime.mono {events pre : List (Event κ)} (h : OneAtATime events)
    (hpre : pre <+: events) : OneAtATime pre :=
  fun pre' hpre' => h pre' (hpre'.trans hpre)

theorem openCount_established {events : List (Event κ)} (h : Possible events) (k k' : κ) :
    openCount k (events ++ [.established k']) =
      openCount k events + if k' = k then 1 else 0 := by
  have hle := h events List.prefix_rfl k
  by_cases hk : k' = k
  · subst hk
    simp only [openCount, List.count_append, List.count_singleton]
    simp only [beq_self_eq_true, if_true, reduceCtorEq, beq_iff_eq, if_false]
    omega
  · simp [openCount, hk]

theorem openCount_closed {events : List (Event κ)} (k k' : κ) :
    openCount k (events ++ [.closed k']) = openCount k events - if k' = k then 1 else 0 := by
  by_cases hk : k' = k
  · subst hk
    simp only [openCount, List.count_append, List.count_singleton]
    simp only [beq_self_eq_true, if_true, reduceCtorEq, beq_iff_eq, if_false]
    omega
  · simp [openCount, hk]

theorem possible_nil : Possible ([] : List (Event κ)) := by
  intro pre hpre k
  rw [List.prefix_nil.mp hpre]
  exact Nat.le_refl 0

theorem Possible.established {events : List (Event κ)} (h : Possible events) (k' : κ) :
    Possible (events ++ [.established k']) := by
  intro pre hpre k
  rcases List.prefix_concat_iff.mp hpre with rfl | hold
  · have hle := h events List.prefix_rfl k
    rw [List.count_append, List.count_append, List.count_singleton, List.count_singleton]
    simp only [beq_iff_eq, reduceCtorEq, if_false]
    omega
  · exact h pre hold k

theorem Possible.closed {events : List (Event κ)} (h : Possible events) {p : κ}
    (hopen : 0 < openCount p events) : Possible (events ++ [.closed p]) := by
  intro pre hpre k
  rcases List.prefix_concat_iff.mp hpre with rfl | hold
  · have hle := h events List.prefix_rfl k
    rw [openCount] at hopen
    rw [List.count_append, List.count_append, List.count_singleton, List.count_singleton]
    simp only [beq_iff_eq, reduceCtorEq, if_false, Event.closed.injEq]
    split_ifs with hk
    · subst hk
      omega
    · exact hle
  · exact h pre hold k

theorem oneAtATime_nil : OneAtATime ([] : List (Event κ)) := by
  intro pre hpre k
  rw [List.prefix_nil.mp hpre]
  exact Nat.zero_le 1

theorem OneAtATime.concat {events : List (Event κ)} {e : Event κ} (h : OneAtATime events)
    (hlast : ∀ k, openCount k (events ++ [e]) ≤ 1) : OneAtATime (events ++ [e]) := by
  intro pre hpre k
  rcases List.prefix_concat_iff.mp hpre with rfl | hold
  · exact hlast k
  · exact h pre hold k

/-- The sessions established since the last close are still open. -/
theorem sinceClosed_le_openCount {events : List (Event κ)} (h : Possible events) (k : κ) :
    sinceClosed k events ≤ openCount k events := by
  induction events using List.reverseRecOn with
  | nil => exact Nat.le_refl 0
  | append_singleton events e ih =>
      have hpre := h.mono (List.prefix_append events [e])
      have hle := ih hpre
      cases e with
      | established k' =>
          rw [sinceClosed_established, openCount_established hpre]
          omega
      | closed k' =>
          rw [sinceClosed_closed, openCount_closed]
          split_ifs
          · exact Nat.zero_le _
          · exact hle

/-- One at a time, they are all the open ones. -/
theorem sinceClosed_eq_openCount {events : List (Event κ)} (h : Possible events)
    (hone : OneAtATime events) (k : κ) : sinceClosed k events = openCount k events := by
  induction events using List.reverseRecOn with
  | nil => rfl
  | append_singleton events e ih =>
      have hpre := List.prefix_append events [e]
      have heq := ih (h.mono hpre) (hone.mono hpre)
      cases e with
      | established k' =>
          rw [sinceClosed_established, openCount_established (h.mono hpre), heq]
      | closed k' =>
          have hle := hone events hpre k
          rw [sinceClosed_closed, openCount_closed, heq]
          split_ifs
          · omega
          · rfl

/-- If one session was established since the last close whenever any is open, no two are ever open
together. -/
theorem oneAtATime_of_sinceClosed {events : List (Event κ)} (h : Possible events)
    (hone : ∀ pre, pre <+: events → ∀ k, 0 < openCount k pre → sinceClosed k pre = 1) :
    OneAtATime events := by
  induction events using List.reverseRecOn with
  | nil => exact oneAtATime_nil
  | append_singleton events e ih =>
      have hpre := List.prefix_append events [e]
      have hbefore := ih (h.mono hpre) fun pre hpre' => hone pre (hpre'.trans hpre)
      refine hbefore.concat ?_
      intro k
      have hle := hbefore events List.prefix_rfl k
      cases e with
      | established k' =>
          have hafter := hone _ List.prefix_rfl k
          have hnow := hone events hpre k
          rw [openCount_established (h.mono hpre), sinceClosed_established] at hafter
          rw [openCount_established (h.mono hpre)]
          split_ifs at hafter ⊢
          · omega
          · exact hle
      | closed k' =>
          rw [openCount_closed]
          omega

end Lib.Sessions
