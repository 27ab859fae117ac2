import Mathlib.Data.List.Basic
import Mathlib.Logic.Function.Iterate

/-! Runs of a deterministic step function whose nondeterminism sits in the action.
A blocked or spinning action is a step that leaves the state as it is. -/
namespace Transition

variable {σ α : Type*} {step : σ → α → σ} {s : σ} {a : α} {xs ys : List α}

/-- The state after taking the listed actions in order. -/
def run (step : σ → α → σ) (s : σ) (xs : List α) : σ := xs.foldl step s

/-- Every action of the run is taken in a state that meets `P`. -/
def Along (step : σ → α → σ) (P : σ → α → Prop) : σ → List α → Prop
  | _, [] => True
  | s, a :: xs => P s a ∧ Along step P (step s a) xs

instance decidableAlong {P : σ → α → Prop} [∀ s a, Decidable (P s a)] :
    (s : σ) → (xs : List α) → Decidable (Along step P s xs)
  | _, [] => .isTrue trivial
  | s, a :: xs =>
    have := decidableAlong (P := P) (step s a) xs
    inferInstanceAs (Decidable (_ ∧ _))

@[simp] theorem run_nil : run step s [] = s := rfl

@[simp] theorem run_cons : run step s (a :: xs) = run step (step s a) xs := rfl

theorem run_append : run step s (xs ++ ys) = run step (run step s xs) ys :=
  List.foldl_append

theorem run_concat : run step s (xs ++ [a]) = step (run step s xs) a := by
  rw [run_append]
  rfl

@[simp] theorem along_nil {P : σ → α → Prop} : Along step P s [] := trivial

@[simp] theorem along_cons {P : σ → α → Prop} :
    Along step P s (a :: xs) ↔ P s a ∧ Along step P (step s a) xs := Iff.rfl

theorem along_append {P : σ → α → Prop} :
    Along step P s (xs ++ ys) ↔ Along step P s xs ∧ Along step P (run step s xs) ys := by
  induction xs generalizing s with
  | nil => simp
  | cons a xs ih => simp [ih, and_assoc]

/-- What one guarded step preserves, a guarded run preserves. -/
theorem invariant_along {P : σ → α → Prop} {I : σ → Prop}
    (hstep : ∀ s a, P s a → I s → I (step s a))
    (h : Along step P s xs) (hi : I s) : I (run step s xs) := by
  induction xs generalizing s with
  | nil => exact hi
  | cons a xs ih => exact ih h.2 (hstep s a h.1 hi)

/-- What every step preserves, every run preserves. -/
theorem invariant_run {I : σ → Prop} (hstep : ∀ s a, I s → I (step s a))
    (hi : I s) : I (run step s xs) := by
  induction xs generalizing s with
  | nil => exact hi
  | cons a xs ih => exact ih (hstep s a hi)

/-- What the listed actions preserve, their run preserves. -/
theorem invariant_of_mem {I : σ → Prop} (hstep : ∀ s, ∀ a ∈ xs, I s → I (step s a))
    (hi : I s) : I (run step s xs) := by
  induction xs generalizing s with
  | nil => exact hi
  | cons a xs ih =>
    refine ih (fun s b hb => hstep s b (List.mem_cons_of_mem a hb)) ?_
    exact hstep s a List.mem_cons_self hi

/-- An invariant that gives the guard gives it along the whole run. -/
theorem along_of_invariant {P : σ → α → Prop} {I : σ → Prop}
    (hstep : ∀ s a, I s → I (step s a)) (hp : ∀ s a, I s → P s a)
    (hi : I s) : Along step P s xs := by
  induction xs generalizing s with
  | nil => trivial
  | cons a xs ih => exact ⟨hp s a hi, ih (hstep s a hi)⟩

/-- In a guarded run, an invariant of the guarded steps holds at each of them. -/
theorem along_guarded {P Q : σ → α → Prop} {I : σ → Prop}
    (hstep : ∀ s a, P s a → I s → I (step s a)) (hq : ∀ s a, P s a → I s → Q s a)
    (h : Along step P s xs) (hi : I s) : Along step Q s xs := by
  induction xs generalizing s with
  | nil => trivial
  | cons a xs ih => exact ⟨hq s a h.1 hi, ih h.2 (hstep s a h.1 hi)⟩

/-! ## Steps of one agent -/

/-- What holds of agent `i` after its step, and of another one before it, holds after it. -/
theorem update_holds {ι β : Type*} [DecidableEq ι] {g : ι → β} {i j : ι} {b : β} {P : β → Prop}
    (hself : j = i → P b) (hother : j ≠ i → P (g j)) : P (Function.update g i b j) := by
  by_cases hji : j = i
  · subst hji
    rw [Function.update_self]
    exact hself rfl
  · rw [Function.update_of_ne hji]
    exact hother hji

/-! ## Runs without choices -/

/-- Some number of steps leads from `s` to `s'`. -/
def Reaches (f : σ → σ) (s s' : σ) : Prop := ∃ n, f^[n] s = s'

variable {f : σ → σ} {s' t t' : σ}

theorem Reaches.refl (f : σ → σ) (s : σ) : Reaches f s s := ⟨0, rfl⟩

theorem Reaches.cons (hs : f s = t) (h : Reaches f t s') : Reaches f s s' := by
  obtain ⟨n, hn⟩ := h
  exact ⟨n + 1, by rw [Function.iterate_succ_apply, hs, hn]⟩

theorem Reaches.trans (h : Reaches f s s') (h' : Reaches f s' t) : Reaches f s t := by
  obtain ⟨n, rfl⟩ := h
  obtain ⟨k, rfl⟩ := h'
  exact ⟨k + n, Function.iterate_add_apply f k n s⟩

theorem reaches_fixed (ht : f t = t) (h : Reaches f t s) : s = t := by
  obtain ⟨n, rfl⟩ := h
  exact Function.iterate_fixed ht n

/-- A run ends in one state only. -/
theorem Reaches.unique (h : Reaches f s t) (h' : Reaches f s t') (ht : f t = t)
    (ht' : f t' = t') : t = t' := by
  obtain ⟨n, hn⟩ := h
  obtain ⟨k, hk⟩ := h'
  rcases Nat.le_total n k with hle | hle
  · obtain ⟨d, rfl⟩ := Nat.exists_eq_add_of_le' hle
    rw [Function.iterate_add_apply, hn] at hk
    exact (reaches_fixed ht ⟨d, hk⟩).symm
  · obtain ⟨d, rfl⟩ := Nat.exists_eq_add_of_le' hle
    rw [Function.iterate_add_apply, hk] at hn
    exact reaches_fixed ht' ⟨d, hn⟩

end Transition
