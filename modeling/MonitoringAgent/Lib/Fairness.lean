import MonitoringAgent.Lib.Transition
import Mathlib.Data.Nat.Init
import Mathlib.Order.Nat

/-! Infinite runs of a step function, and what is eventually true along them. Fairness is
a property of the schedule alone: some action is taken again and again. -/
namespace Transition

variable {σ α : Type*} {step : σ → α → σ} {s : σ} {sched : Nat → α} {x : Nat → σ}
  {P Q R S : σ → Prop} {helps : α → Prop}

/-- The state after the first `n` actions of the schedule. -/
def stateAt (step : σ → α → σ) (s : σ) (sched : Nat → α) : Nat → σ
  | 0 => s
  | n + 1 => step (stateAt step s sched n) (sched n)

theorem stateAt_eq_run (n : Nat) :
    stateAt step s sched n = run step s ((List.range n).map sched) := by
  induction n with
  | zero => rfl
  | succ n ih =>
    rw [List.range_succ, List.map_append, List.map_singleton, run_concat, ← ih]
    rfl

theorem invariant_stateAt (I : σ → Prop) (hstep : ∀ s a, I s → I (step s a)) (hi : I s)
    (n : Nat) : I (stateAt step s sched n) := by
  rw [stateAt_eq_run]
  exact invariant_run hstep hi

/-- A relation that every step keeps holds between any two states of the run. -/
theorem related_stateAt {r : σ → σ → Prop} (hrefl : ∀ s, r s s)
    (htrans : ∀ s t u, r s t → r t u → r s u)
    (hstep : ∀ n, r (stateAt step s sched n) (stateAt step s sched (n + 1))) {m n : Nat}
    (hmn : m ≤ n) : r (stateAt step s sched m) (stateAt step s sched n) := by
  induction n, hmn using Nat.le_induction with
  | base => exact hrefl _
  | succ n _ ih => exact htrans _ _ _ ih (hstep n)

/-- Some action with the property is taken after any point. -/
def Often (sched : Nat → α) (helps : α → Prop) : Prop := ∀ n, ∃ m, n ≤ m ∧ helps (sched m)

/-- Whenever `P` holds, `Q` holds at that point or later. -/
def LeadsTo (x : Nat → σ) (P Q : σ → Prop) : Prop := ∀ n, P (x n) → ∃ m, n ≤ m ∧ Q (x m)

theorem LeadsTo.trans (h : LeadsTo x P Q) (hr : LeadsTo x Q R) : LeadsTo x P R := by
  intro n hp
  obtain ⟨m, hnm, hq⟩ := h n hp
  obtain ⟨k, hmk, hr⟩ := hr m hq
  exact ⟨k, hnm.trans hmk, hr⟩

/-- What `P` may lead to instead of `Q` leads to `Q` itself. -/
theorem LeadsTo.cancel (h : LeadsTo x P fun s => Q s ∨ R s) (hr : LeadsTo x R Q) :
    LeadsTo x P Q := by
  intro n hp
  obtain ⟨m, hnm, hq | hrm⟩ := h n hp
  · exact ⟨m, hnm, hq⟩
  · obtain ⟨k, hmk, hq⟩ := hr m hrm
    exact ⟨k, hnm.trans hmk, hq⟩

/-- What stays until `S` comes is still there when `Q` does. -/
theorem LeadsTo.carry (h : LeadsTo x P Q)
    (hstays : ∀ n, R (x n) → R (x (n + 1)) ∨ S (x (n + 1))) :
    LeadsTo x (fun s => P s ∧ R s) fun s => S s ∨ Q s ∧ R s := by
  rintro n ⟨hp, hr⟩
  obtain ⟨m, hnm, hq⟩ := h n hp
  have hreach : R (x m) ∨ ∃ k, n ≤ k ∧ S (x k) := by
    clear hq
    induction m, hnm using Nat.le_induction with
    | base => exact .inl hr
    | succ k hnk ih =>
      rcases ih with hr | hs
      · rcases hstays k hr with hr | hs
        · exact .inl hr
        · exact .inr ⟨k + 1, by omega, hs⟩
      · exact .inr hs
  rcases hreach with hr | ⟨k, hnk, hs⟩
  · exact ⟨m, hnm, .inr ⟨hq, hr⟩⟩
  · exact ⟨k, hnk, .inl hs⟩

/-- The same from a later point on. -/
theorem LeadsTo.later (h : LeadsTo x P Q) (k : Nat) : LeadsTo (fun n => x (k + n)) P Q := by
  intro n hp
  obtain ⟨m, hnm, hq⟩ := h (k + n) hp
  refine ⟨m - k, by omega, ?_⟩
  dsimp only
  rwa [show k + (m - k) = m by omega]

theorem Often.later (h : Often sched helps) (k : Nat) :
    Often (fun n => sched (k + n)) helps := by
  intro n
  obtain ⟨m, hnm, hm⟩ := h (k + n)
  refine ⟨m - k, by omega, ?_⟩
  dsimp only
  rwa [show k + (m - k) = m by omega]

/-- What no longer holds has been lost in one step, and held up to it. -/
theorem exists_lost {p : Nat → Prop} {m n : Nat} (hnm : n ≤ m) (hn : p n) (hm : ¬ p m) :
    ∃ k, n ≤ k ∧ (∀ j, n ≤ j → j ≤ k → p j) ∧ ¬ p (k + 1) := by
  have hall : (∀ j, n ≤ j → j ≤ m → p j) ∨
      ∃ k, n ≤ k ∧ (∀ j, n ≤ j → j ≤ k → p j) ∧ ¬ p (k + 1) := by
    clear hm
    induction m, hnm using Nat.le_induction with
    | base =>
      left
      intro j hnj hjn
      rwa [Nat.le_antisymm hjn hnj]
    | succ k hnk ih =>
      rcases ih with hall | hlost
      · by_cases hk : p (k + 1)
        · left
          intro j hnj hjk
          rcases Nat.le_succ_iff.mp hjk with hjk | rfl
          · exact hall j hnj hjk
          · exact hk
        · exact .inr ⟨k, hnk, hall, hk⟩
      · exact .inr hlost
  rcases hall with hall | hlost
  · exact absurd (hall m hnm le_rfl) hm
  · exact hlost

/-- `P` stays until `Q`, and a helpful action brings `Q` about. -/
theorem leadsTo_ensures (hoften : Often sched helps)
    (hstep : ∀ n, P (x n) → P (x (n + 1)) ∨ Q (x (n + 1)))
    (hhelps : ∀ n, P (x n) → helps (sched n) → Q (x (n + 1))) : LeadsTo x P Q := by
  intro n hp
  obtain ⟨k, hnk, hk⟩ := hoften n
  have hreach : P (x k) ∨ ∃ m, n ≤ m ∧ Q (x m) := by
    clear hk
    induction k, hnk using Nat.le_induction with
    | base => exact .inl hp
    | succ k hnk ih =>
      rcases ih with hp | hq
      · rcases hstep k hp with hp' | hq
        · exact .inl hp'
        · exact .inr ⟨k + 1, by omega, hq⟩
      · exact .inr hq
  rcases hreach with hp | hq
  · exact ⟨k + 1, by omega, hhelps k hp hk⟩
  · exact hq

/-- As long as no helpful action is taken, `P` stays; the first one brings `Q` about. -/
theorem leadsTo_of_stays (hoften : Often sched helps)
    (hstays : ∀ n, P (x n) → ¬ helps (sched n) → P (x (n + 1)))
    (hhelps : ∀ n, P (x n) → helps (sched n) → Q (x (n + 1))) : LeadsTo x P Q := by
  refine leadsTo_ensures hoften (fun n hp => ?_) hhelps
  by_cases hn : helps (sched n)
  · exact .inr (hhelps n hp hn)
  · exact .inl (hstays n hp hn)

/-- A measure that comes down again and again. -/
theorem leadsTo_measure (μ : σ → Nat)
    (h : ∀ k, LeadsTo x (fun s => P s ∧ μ s = k) fun s => Q s ∨ P s ∧ μ s < k) :
    LeadsTo x P Q := by
  suffices ∀ k n, P (x n) → μ (x n) = k → ∃ m, n ≤ m ∧ Q (x m) from fun n hp => this _ n hp rfl
  intro k
  induction k using Nat.strong_induction_on with
  | _ k ih =>
    intro n hp hk
    obtain ⟨m, hnm, hq | ⟨hp', hlt⟩⟩ := h k n ⟨hp, hk⟩
    · exact ⟨m, hnm, hq⟩
    · obtain ⟨j, hmj, hq⟩ := ih _ hlt m hp' rfl
      exact ⟨j, hnm.trans hmj, hq⟩

end Transition
