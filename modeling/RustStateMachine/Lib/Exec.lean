import Mathlib.Algebra.BigOperators.Group.List.Basic
import Mathlib.Tactic.Common

/-!
# Logged state computations that can panic

A computation reads and replaces a state, appends entries to a log, and ends
with a value or with a panic. The state and the log reached at a panic are kept:
what was already done stays done. Loops are described by their steps, and the
loop rules lift a fact about one step to a fact about the whole loop.
-/

namespace Lib

/-- How a computation ends: it hands back a value, or a panic unwinds it. -/
inductive Outcome (α : Type) where
  | ret (value : α)
  | panicked (message : String)
deriving DecidableEq, Repr

/-- The computation handed back a value. -/
def Outcome.Returns {α : Type} : Outcome α → Prop
  | .ret _ => True
  | .panicked _ => False

/-- Change the value handed back, if there is one. -/
def Outcome.map {α β : Type} (f : α → β) : Outcome α → Outcome β
  | .ret a => .ret (f a)
  | .panicked m => .panicked m

instance {α : Type} : DecidablePred (@Outcome.Returns α) := fun o =>
  match o with
  | .ret _ => isTrue trivial
  | .panicked _ => isFalse id

@[simp] theorem Outcome.returns_ret {α : Type} (a : α) : (Outcome.ret a).Returns := trivial

@[simp] theorem Outcome.not_returns_panicked {α : Type} (m : String) :
    ¬ (Outcome.panicked m : Outcome α).Returns := id

@[simp] theorem Outcome.map_ret {α β : Type} (f : α → β) (a : α) :
    (Outcome.ret a).map f = .ret (f a) := rfl

@[simp] theorem Outcome.map_panicked {α β : Type} (f : α → β) (m : String) :
    (Outcome.panicked m).map f = .panicked m := rfl

@[simp] theorem Outcome.returns_map {α β : Type} (f : α → β) (o : Outcome α) :
    (o.map f).Returns ↔ o.Returns := by
  cases o with
  | ret a => exact Iff.rfl
  | panicked m => exact Iff.rfl

theorem Outcome.map_eq_panicked_iff {α β : Type} {f : α → β} {o : Outcome α} {m : String} :
    o.map f = .panicked m ↔ o = .panicked m := by
  cases o with
  | ret a => simp
  | panicked m' => simp

/-- Everything one execution leaves behind. -/
structure Run (ε σ α : Type) where
  outcome : Outcome α
  state : σ
  log : List ε

/-- A stateful computation with a log of `ε`, a state `σ` and a result `α`. -/
def Exec (ε σ α : Type) := σ → Run ε σ α

namespace Run

variable {ε σ α β : Type}

/-- Put the entries logged earlier in front. -/
def prepend (l : List ε) (r : Run ε σ α) : Run ε σ α := ⟨r.outcome, r.state, l ++ r.log⟩

@[simp] theorem prepend_outcome (l : List ε) (r : Run ε σ α) :
    (r.prepend l).outcome = r.outcome := rfl

@[simp] theorem prepend_state (l : List ε) (r : Run ε σ α) : (r.prepend l).state = r.state := rfl

@[simp] theorem prepend_log (l : List ε) (r : Run ε σ α) : (r.prepend l).log = l ++ r.log := rfl

@[simp] theorem prepend_mk (l l' : List ε) (o : Outcome α) (s : σ) :
    (⟨o, s, l'⟩ : Run ε σ α).prepend l = ⟨o, s, l ++ l'⟩ := rfl

@[simp] theorem prepend_nil (r : Run ε σ α) : r.prepend [] = r := rfl

/-- Continue with the value handed back; a panic stays where it happened. -/
def andThen (r : Run ε σ α) (f : α → Exec ε σ β) : Run ε σ β :=
  match r.outcome with
  | .ret a => (f a r.state).prepend r.log
  | .panicked m => ⟨.panicked m, r.state, r.log⟩

@[simp] theorem andThen_ret (a : α) (s : σ) (l : List ε) (f : α → Exec ε σ β) :
    andThen ⟨.ret a, s, l⟩ f = (f a s).prepend l := rfl

@[simp] theorem andThen_panicked (m : String) (s : σ) (l : List ε) (f : α → Exec ε σ β) :
    andThen ⟨.panicked m, s, l⟩ f = ⟨.panicked m, s, l⟩ := rfl

theorem andThen_of_ret {r : Run ε σ α} {a : α} (h : r.outcome = .ret a) (f : α → Exec ε σ β) :
    r.andThen f = (f a r.state).prepend r.log := by
  rw [andThen, h]

theorem andThen_of_panicked {r : Run ε σ α} {m : String} (h : r.outcome = .panicked m)
    (f : α → Exec ε σ β) : (r.andThen f).outcome = .panicked m := by
  rw [andThen, h]

end Run

namespace Exec

variable {ε ε' σ τ α β : Type}

instance : Monad (Exec ε σ) where
  pure a := fun s => ⟨.ret a, s, []⟩
  bind x f := fun s => (x s).andThen f

@[simp] theorem pure_apply (a : α) (s : σ) : (pure a : Exec ε σ α) s = ⟨.ret a, s, []⟩ := rfl

/-- Ending with a fixed value changes only the outcome. -/
theorem andThen_pure (r : Run ε σ α) (b : β) :
    (r.andThen fun _ => (pure b : Exec ε σ β)) = ⟨r.outcome.map fun _ => b, r.state, r.log⟩ := by
  obtain ⟨o, s, l⟩ := r
  cases o with
  | ret a => simp
  | panicked m => rfl

@[simp] theorem bind_apply (x : Exec ε σ α) (f : α → Exec ε σ β) (s : σ) :
    (x >>= f) s = (x s).andThen f := rfl

/-- The current state. -/
def read : Exec ε σ σ := fun s => ⟨.ret s, s, []⟩

/-- Replace the state. -/
def modify (f : σ → σ) : Exec ε σ Unit := fun s => ⟨.ret (), f s, []⟩

/-- Append one entry to the log. -/
def emit (e : ε) : Exec ε σ Unit := fun s => ⟨.ret (), s, [e]⟩

/-- Unwind, keeping the state and the log. -/
def panicWith (message : String) : Exec ε σ α := fun s => ⟨.panicked message, s, []⟩

/-- The value inside, or a panic: Rust's `unwrap` and `expect`. -/
def unwrap (message : String) : Option α → Exec ε σ α
  | some a => pure a
  | none => panicWith message

@[simp] theorem read_apply (s : σ) : (read : Exec ε σ σ) s = ⟨.ret s, s, []⟩ := rfl

@[simp] theorem modify_apply (f : σ → σ) (s : σ) :
    (modify f : Exec ε σ Unit) s = ⟨.ret (), f s, []⟩ := rfl

@[simp] theorem emit_apply (e : ε) (s : σ) : (emit e : Exec ε σ Unit) s = ⟨.ret (), s, [e]⟩ := rfl

@[simp] theorem unwrap_some (m : String) (a : α) (s : σ) :
    (unwrap m (some a) : Exec ε σ α) s = ⟨.ret a, s, []⟩ := rfl

@[simp] theorem unwrap_none (m : String) (s : σ) :
    (unwrap m none : Exec ε σ α) s = ⟨.panicked m, s, []⟩ := rfl

/-- Run a computation on a field of a larger state, translating its log. -/
def zoom (get : σ → τ) (set : σ → τ → σ) (entry : ε → ε') (x : Exec ε τ α) : Exec ε' σ α :=
  fun s => ⟨(x (get s)).outcome, set s (x (get s)).state, (x (get s)).log.map entry⟩

@[simp] theorem zoom_apply (get : σ → τ) (set : σ → τ → σ) (entry : ε → ε') (x : Exec ε τ α)
    (s : σ) :
    zoom get set entry x s =
      ⟨(x (get s)).outcome, set s (x (get s)).state, (x (get s)).log.map entry⟩ := rfl

/-! ## Invariants -/

/-- The computation keeps a property of the state and the log so far, also when it panics. -/
def Keeps (I : σ → List ε → Prop) (x : Exec ε σ α) : Prop :=
  ∀ s l, I s l → I (x s).state (l ++ (x s).log)

section Keeps

variable {I : σ → List ε → Prop}

theorem keeps_pure (a : α) : Keeps I (pure a) := by
  intro s l h
  simpa using h

theorem keeps_read : Keeps I read := by
  intro s l h
  simpa using h

theorem keeps_panicWith (m : String) : Keeps I (panicWith m : Exec ε σ α) := by
  intro s l h
  simpa [panicWith] using h

theorem keeps_unwrap (m : String) (o : Option α) : Keeps I (unwrap m o) := by
  cases o with
  | some a => exact keeps_pure a
  | none => exact keeps_panicWith m

theorem keeps_bind {x : Exec ε σ α} {f : α → Exec ε σ β} (hx : Keeps I x)
    (hf : ∀ a, Keeps I (f a)) : Keeps I (x >>= f) := by
  intro s l h
  have hs := hx s l h
  rw [bind_apply, Run.andThen]
  cases ho : (x s).outcome with
  | ret a =>
      have hfs := hf a (x s).state (l ++ (x s).log) hs
      simpa using hfs
  | panicked m => exact hs

end Keeps

/-! ## Loops -/

/-- Run `f` on every element in order, dropping the values: `for x in xs { let _ = f(x); }`. -/
def each (f : α → Exec ε σ β) : List α → Exec ε σ Unit
  | [] => pure ()
  | a :: as => do
    let _ ← f a
    each f as

/-- One iteration of a loop: its input, the state it started from and what it left. -/
structure Step (ε σ α β : Type) where
  before : σ
  input : α
  run : Run ε σ β

/-- The iterations `each` goes through; the last one is the one that panicked, if any. -/
def steps (f : α → Exec ε σ β) : List α → σ → List (Step ε σ α β)
  | [], _ => []
  | a :: as, s =>
      ⟨s, a, f a s⟩ ::
        match (f a s).outcome with
        | .ret _ => steps f as (f a s).state
        | .panicked _ => []

variable (f : α → Exec ε σ β)

@[simp] theorem each_nil (s : σ) : each f [] s = ⟨.ret (), s, []⟩ := rfl

@[simp] theorem steps_nil (s : σ) : steps f [] s = [] := rfl

theorem each_cons_ret {a : α} {s : σ} {b : β} (h : (f a s).outcome = .ret b) (as : List α) :
    each f (a :: as) s = (each f as (f a s).state).prepend (f a s).log := by
  simp [each, Run.andThen, h]

theorem each_cons_panicked {a : α} {s : σ} {m : String} (h : (f a s).outcome = .panicked m)
    (as : List α) :
    each f (a :: as) s = ⟨.panicked m, (f a s).state, (f a s).log⟩ := by
  simp [each, Run.andThen, h]

theorem steps_cons_ret {a : α} {s : σ} {b : β} (h : (f a s).outcome = .ret b) (as : List α) :
    steps f (a :: as) s = ⟨s, a, f a s⟩ :: steps f as (f a s).state := by
  simp [steps, h]

theorem steps_cons_panicked {a : α} {s : σ} {m : String} (h : (f a s).outcome = .panicked m)
    (as : List α) :
    steps f (a :: as) s = [⟨s, a, f a s⟩] := by
  simp [steps, h]

/-- Every recorded step is an execution of the body on an element of the list. -/
theorem mem_steps {as : List α} {s : σ} {st : Step ε σ α β} (h : st ∈ steps f as s) :
    st.input ∈ as ∧ st.run = f st.input st.before := by
  induction as generalizing s with
  | nil => simp at h
  | cons a as ih =>
      cases ho : (f a s).outcome with
      | ret b =>
          rw [steps_cons_ret f ho, List.mem_cons] at h
          rcases h with rfl | h
          · exact ⟨List.mem_cons_self, rfl⟩
          · exact ⟨List.mem_cons_of_mem _ (ih h).1, (ih h).2⟩
      | panicked m =>
          rw [steps_cons_panicked f ho, List.mem_singleton] at h
          subst h
          exact ⟨List.mem_cons_self, rfl⟩

/-- A step starts from the state in which the loop over the elements before its own returned. -/
theorem before_of_mem_steps {as : List α} {s : σ} {st : Step ε σ α β} (h : st ∈ steps f as s) :
    ∃ pre post, as = pre ++ st.input :: post ∧ (each f pre s).outcome = .ret () ∧
      st.before = (each f pre s).state := by
  induction as generalizing s with
  | nil => simp at h
  | cons a as ih =>
      cases ho : (f a s).outcome with
      | ret b =>
          rw [steps_cons_ret f ho, List.mem_cons] at h
          rcases h with rfl | h
          · exact ⟨[], as, rfl, rfl, rfl⟩
          · obtain ⟨pre, post, rfl, hret, hbefore⟩ := ih h
            refine ⟨a :: pre, post, rfl, ?_, ?_⟩
            · rw [each_cons_ret f ho]
              exact hret
            · rw [each_cons_ret f ho]
              exact hbefore
      | panicked m =>
          rw [steps_cons_panicked f ho, List.mem_singleton] at h
          subst h
          exact ⟨[], as, rfl, rfl, rfl⟩

/-- The steps take the elements of the list in order, up to a panic. -/
theorem steps_inputs_prefix (as : List α) (s : σ) : (steps f as s).map (·.input) <+: as := by
  induction as generalizing s with
  | nil => exact List.prefix_rfl
  | cons a as ih =>
      cases ho : (f a s).outcome with
      | ret b =>
          rw [steps_cons_ret f ho, List.map_cons]
          exact List.cons_prefix_cons.mpr ⟨rfl, ih _⟩
      | panicked m =>
          rw [steps_cons_panicked f ho]
          exact List.cons_prefix_cons.mpr ⟨rfl, List.nil_prefix⟩

/-- The log of a loop is the concatenation of the logs of its steps. -/
theorem each_log (as : List α) (s : σ) :
    (each f as s).log = (steps f as s).flatMap (·.run.log) := by
  induction as generalizing s with
  | nil => rfl
  | cons a as ih =>
      cases ho : (f a s).outcome with
      | ret b => simp [each_cons_ret f ho, steps_cons_ret f ho, ih]
      | panicked m => simp [each_cons_panicked f ho, steps_cons_panicked f ho]

/-- A loop whose body panics on none of the elements returns. -/
theorem each_returns {as : List α} (hf : ∀ a ∈ as, ∀ s, (f a s).outcome.Returns) (s : σ) :
    (each f as s).outcome = .ret () := by
  induction as generalizing s with
  | nil => rfl
  | cons a as ih =>
      have ha := hf a List.mem_cons_self s
      cases ho : (f a s).outcome with
      | ret b =>
          rw [each_cons_ret f ho]
          exact ih (fun b hb => hf b (List.mem_cons_of_mem a hb)) _
      | panicked m =>
          rw [ho] at ha
          exact absurd ha (Outcome.not_returns_panicked m)

/-- A property every step preserves holds after the loop, panics included. -/
theorem each_invariant (I : σ → Prop) (hstep : ∀ a s, I s → I (f a s).state)
    (as : List α) {s : σ} (h : I s) : I (each f as s).state := by
  induction as generalizing s with
  | nil => exact h
  | cons a as ih =>
      cases ho : (f a s).outcome with
      | ret b => simpa [each_cons_ret f ho] using ih (hstep a s h)
      | panicked m => simpa [each_cons_panicked f ho] using hstep a s h

/-- A loop keeps what its body keeps. -/
theorem keeps_each {I : σ → List ε → Prop} (hf : ∀ a, Keeps I (f a)) (as : List α) :
    Keeps I (each f as) := by
  induction as with
  | nil => exact keeps_pure ()
  | cons a as ih => exact keeps_bind (hf a) fun _ => ih

/-- Induction along the steps of a loop, from the last one back: what holds between the state
before, the steps and the state after is extended by one step in front. -/
theorem steps_induction (P : σ → List (Step ε σ α β) → σ → Prop) (hnil : ∀ s, P s [] s)
    (hcons : ∀ a s sts s', P (f a s).state sts s' → P s (⟨s, a, f a s⟩ :: sts) s')
    (as : List α) (s : σ) : P s (steps f as s) (each f as s).state := by
  induction as generalizing s with
  | nil => exact hnil s
  | cons a as ih =>
      cases ho : (f a s).outcome with
      | ret b =>
          rw [each_cons_ret f ho, steps_cons_ret f ho]
          exact hcons a s _ _ (ih _)
      | panicked m =>
          rw [each_cons_panicked f ho, steps_cons_panicked f ho]
          exact hcons a s _ _ (hnil _)

/-- A quantity that each step raises by `gain` is raised by the sum of the gains. -/
theorem each_telescope {M : Type} [AddCommMonoid M] (measure : σ → M) (gain : α → σ → M)
    (hstep : ∀ a s, measure (f a s).state = measure s + gain a s) (as : List α) (s : σ) :
    measure (each f as s).state =
      measure s + ((steps f as s).map fun st => gain st.input st.before).sum := by
  apply steps_induction f fun s sts s' =>
    measure s' = measure s + (sts.map fun st => gain st.input st.before).sum
  · intro s
    simp
  · intro a s sts s' h
    simp [h, hstep, add_assoc]

/-- Loops over a concatenation run one after the other. -/
theorem each_append (as bs : List α) (s : σ) :
    each f (as ++ bs) s = (each f as s).andThen fun _ => each f bs := by
  induction as generalizing s with
  | nil => rfl
  | cons a as ih =>
      cases ho : (f a s).outcome with
      | ret b =>
          rw [List.cons_append, each_cons_ret f ho, each_cons_ret f ho, ih]
          cases hr : (each f as (f a s).state).outcome <;>
            simp [Run.andThen, Run.prepend, hr, List.append_assoc]
      | panicked m =>
          rw [List.cons_append, each_cons_panicked f ho, each_cons_panicked f ho]
          rfl

/-- A loop panics exactly where its body panics on an element, in the state in which the loop over
the elements before it returned. -/
theorem each_panicked_iff {as : List α} {s : σ} {m : String} :
    (each f as s).outcome = .panicked m ↔ ∃ pre a post, as = pre ++ a :: post ∧
      (each f pre s).outcome = .ret () ∧
      (f a (each f pre s).state).outcome = .panicked m := by
  constructor
  · intro h
    induction as generalizing s with
    | nil => cases h
    | cons a as ih =>
        cases ho : (f a s).outcome with
        | ret b =>
            rw [each_cons_ret f ho] at h
            obtain ⟨pre, a', post, rfl, hret, hpanic⟩ := ih h
            refine ⟨a :: pre, a', post, rfl, ?_⟩
            rw [each_cons_ret f ho]
            exact ⟨hret, hpanic⟩
        | panicked m' =>
            rw [each_cons_panicked f ho] at h
            cases h
            exact ⟨[], a, as, rfl, rfl, ho⟩
  · rintro ⟨pre, a, post, rfl, hret, hpanic⟩
    rw [each_append, Run.andThen, hret]
    dsimp only
    rw [each_cons_panicked f hpanic]
    rfl

/-- The steps over a concatenation: those of the second part follow if the first returned. -/
theorem steps_append (as bs : List α) (s : σ) :
    steps f (as ++ bs) s = steps f as s ++
      match (each f as s).outcome with
      | .ret _ => steps f bs (each f as s).state
      | .panicked _ => [] := by
  induction as generalizing s with
  | nil => rfl
  | cons a as ih =>
      cases ho : (f a s).outcome with
      | ret b =>
          rw [List.cons_append, steps_cons_ret f ho, steps_cons_ret f ho, each_cons_ret f ho, ih]
          rfl
      | panicked m =>
          rw [List.cons_append, steps_cons_panicked f ho, steps_cons_panicked f ho,
            each_cons_panicked f ho]
          rfl

/-- One more element after a loop that returned is one more step. -/
theorem each_concat {as : List α} {s : σ} (h : (each f as s).outcome = .ret ()) {a : α} {b : β}
    (hb : (f a (each f as s).state).outcome = .ret b) :
    each f (as ++ [a]) s = ⟨.ret (), (f a (each f as s).state).state,
        (each f as s).log ++ (f a (each f as s).state).log⟩ ∧
      steps f (as ++ [a]) s =
        steps f as s ++ [⟨(each f as s).state, a, f a (each f as s).state⟩] := by
  constructor
  · rw [each_append, Run.andThen, h]
    dsimp only
    rw [each_cons_ret f hb]
    simp [Run.prepend]
  · rw [steps_append, h]
    dsimp only
    rw [steps_cons_ret f hb]
    rfl

/-- One more element on which the body panics ends the loop there. -/
theorem each_concat_panicked {as : List α} {s : σ} (h : (each f as s).outcome = .ret ()) {a : α}
    {m : String} (ha : (f a (each f as s).state).outcome = .panicked m) :
    each f (as ++ [a]) s = ⟨.panicked m, (f a (each f as s).state).state,
      (each f as s).log ++ (f a (each f as s).state).log⟩ := by
  rw [each_append, Run.andThen, h]
  dsimp only
  rw [each_cons_panicked f ha]
  rfl

/-- A loop over a beginning of the list goes through a beginning of the steps. -/
theorem steps_prefix {as bs : List α} (h : as <+: bs) (s : σ) : steps f as s <+: steps f bs s := by
  obtain ⟨cs, rfl⟩ := h
  rw [steps_append]
  exact List.prefix_append _ _

omit f in
theorem forall_prefix_cons {P : List α → Prop} {a : α} {as : List α} :
    (∀ pre, pre <+: a :: as → P pre) ↔ P [] ∧ ∀ pre, pre <+: as → P (a :: pre) := by
  constructor
  · intro h
    exact ⟨h [] List.nil_prefix, fun pre hpre => h _ (List.cons_prefix_cons.mpr ⟨rfl, hpre⟩)⟩
  · rintro ⟨hnil, hcons⟩ pre hpre
    rcases List.prefix_cons_iff.mp hpre with rfl | ⟨rest, rfl, hrest⟩
    · exact hnil
    · exact hcons rest hrest

/-- Something holds after every beginning of a loop that returns exactly if every step is one that
keeps it, where an invariant of the loop says which steps these are. -/
theorem forall_prefix_iff {I K : σ → Prop} {G : α → σ → Prop} {as : List α}
    (hinv : ∀ a ∈ as, ∀ s, I s → (f a s).outcome.Returns → I (f a s).state)
    (hgood : ∀ a ∈ as, ∀ s, I s → K s → (((f a s).outcome.Returns → K (f a s).state) ↔ G a s))
    {s : σ} (hI : I s) (hK : K s) :
    (∀ pre, pre <+: as → (each f pre s).outcome.Returns → K (each f pre s).state) ↔
      ∀ st ∈ steps f as s, G st.input st.before := by
  induction as generalizing s with
  | nil =>
      constructor
      · intro _ st hst
        cases hst
      · intro _ pre hpre _
        rw [List.prefix_nil.mp hpre]
        exact hK
  | cons a as ih =>
      have hone := hgood a List.mem_cons_self s hI hK
      rw [forall_prefix_cons]
      cases ho : (f a s).outcome with
      | ret b =>
          have hreturns : (f a s).outcome.Returns := by
            rw [ho]
            trivial
          have hrest := @ih (fun b hb => hinv b (List.mem_cons_of_mem a hb))
            (fun b hb => hgood b (List.mem_cons_of_mem a hb)) (f a s).state
            (hinv a List.mem_cons_self s hI hreturns)
          have hlater : ∀ pre, each f (a :: pre) s =
              (each f pre (f a s).state).prepend (f a s).log := each_cons_ret f ho
          simp only [hlater, Run.prepend_outcome, Run.prepend_state]
          rw [steps_cons_ret f ho, List.forall_mem_cons, ← hone]
          constructor
          · rintro ⟨-, h⟩
            have hfirst : K (f a s).state := h [] List.nil_prefix trivial
            exact ⟨fun _ => hfirst, (hrest hfirst).mp h⟩
          · rintro ⟨hfirst, hsteps⟩
            exact ⟨fun _ => hK, (hrest (hfirst hreturns)).mpr hsteps⟩
      | panicked m =>
          have hpanics : ¬ (f a s).outcome.Returns := by
            rw [ho]
            exact Outcome.not_returns_panicked m
          rw [steps_cons_panicked f ho, List.forall_mem_singleton, ← hone]
          constructor
          · exact fun _ hret => absurd hret hpanics
          · refine fun _ => ⟨fun _ => hK, fun pre _ hret => ?_⟩
            rw [each_cons_panicked f ho] at hret
            exact absurd hret (Outcome.not_returns_panicked m)

/-- Looping over a mapped list is looping with the map moved into the body. -/
theorem each_map {γ : Type} (g : γ → α) (cs : List γ) (s : σ) :
    each f (cs.map g) s = each (fun c => f (g c)) cs s := by
  induction cs generalizing s with
  | nil => rfl
  | cons c cs ih =>
      cases ho : (f (g c) s).outcome with
      | ret b =>
          rw [List.map_cons, each_cons_ret f ho, each_cons_ret (fun c => f (g c)) ho, ih]
      | panicked m =>
          rw [List.map_cons, each_cons_panicked f ho, each_cons_panicked (fun c => f (g c)) ho]

end Exec

end Lib
