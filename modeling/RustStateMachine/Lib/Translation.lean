import RustStateMachine.Lib.Exec

/-!
# Translations of computations

Two computations over different states and logs do the same if a map of the
states and a map of the log entries carry the one to the other. The rules take
this from the parts of a computation to the whole.
-/

namespace Lib.Exec

variable {ε ε' δ σ τ ρ α β γ : Type}

/-- From the image of a state, `y` ends like `x`, in the image of the state, with the image of the
log. -/
def Translates (f : σ → τ) (g : ε → ε') (x : Exec ε σ α) (y : Exec ε' τ α) : Prop :=
  ∀ s, y (f s) = ⟨(x s).outcome, f (x s).state, (x s).log.map g⟩

variable {f : σ → τ} {g : ε → ε'}

theorem translates_pure (a : α) : Translates f g (pure a) (pure a) := fun _ => rfl

theorem translates_emit (e : ε) : Translates f g (emit e) (emit (g e)) := fun _ => rfl

theorem translates_bind {x : Exec ε σ α} {y : Exec ε' τ α} {k : α → Exec ε σ β}
    {k' : α → Exec ε' τ β} (hx : Translates f g x y) (hk : ∀ a, Translates f g (k a) (k' a)) :
    Translates f g (x >>= k) (y >>= k') := by
  intro s
  rw [bind_apply, bind_apply, hx s]
  generalize x s = r
  obtain ⟨o, s', l⟩ := r
  cases o with
  | ret a => simp [hk a s']
  | panicked m => rfl

/-- After a read the two continue with a state and its image. -/
theorem translates_read_bind {k : σ → Exec ε σ β} {k' : τ → Exec ε' τ β}
    (hk : ∀ s, Translates f g (k s) (k' (f s))) : Translates f g (read >>= k) (read >>= k') := by
  intro s
  simp [hk s s]

theorem translates_ite {p q : Prop} [Decidable p] [Decidable q] (hpq : p ↔ q)
    {x x' : Exec ε σ α} {y y' : Exec ε' τ α} (hx : Translates f g x y)
    (hx' : Translates f g x' y') :
    Translates f g (if p then x else x') (if q then y else y') := by
  by_cases hp : p
  · rw [if_pos hp, if_pos (hpq.mp hp)]
    exact hx
  · rw [if_neg hp, if_neg fun hq => hp (hpq.mpr hq)]
    exact hx'

/-- Two fields whose values the map of the states carries over, with the rest left as it is. -/
theorem translates_zoom {get : σ → ρ} {set : σ → ρ → σ} {entry : δ → ε} {get' : τ → ρ}
    {set' : τ → ρ → τ} {entry' : δ → ε'} (x : Exec δ ρ α) (hget : ∀ s, get' (f s) = get s)
    (hset : ∀ s r, set' (f s) r = f (set s r)) (hentry : ∀ e, entry' e = g (entry e)) :
    Translates f g (zoom get set entry x) (zoom get' set' entry' x) := by
  intro s
  have hmap : (x (get s)).log.map entry' = ((x (get s)).log.map entry).map g := by
    rw [List.map_map]
    exact List.map_congr_left fun e _ => hentry e
  rw [zoom_apply, zoom_apply, hget, hset, hmap]

/-- Loops whose bodies do the same on each input and its image. -/
theorem translates_each (h : α → γ) {body : α → Exec ε σ β} {body' : γ → Exec ε' τ β}
    (hbody : ∀ a, Translates f g (body a) (body' (h a))) (as : List α) :
    Translates f g (each body as) (each body' (as.map h)) := by
  induction as with
  | nil => exact translates_pure ()
  | cons a as ih => exact translates_bind (hbody a) fun _ => ih

end Lib.Exec
