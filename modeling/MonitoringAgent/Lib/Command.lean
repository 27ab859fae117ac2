import MonitoringAgent.Lib.Transition

/-! Straight-line commands over a shared state. A command is a tree of atomic
operations that branches on their answers, so one text serves three readings: the
run to completion, the trace of its operations, and the interleaving of its steps. -/

/-- A command over operations `ω`, each answering with a value of `ρ`. -/
inductive Command (ω : Type) (ρ : ω → Type) (α : Type) : Type where
  | ret (a : α)
  | op (o : ω) (k : ρ o → Command ω ρ α)

/-- What an operation answers and how it changes the state. -/
structure Effects (ω : Type) (ρ : ω → Type) (σ : Type) where
  answer : (o : ω) → σ → ρ o
  next : σ → ω → σ

namespace Command

open Transition

variable {ω : Type} {ρ : ω → Type} {σ α β : Type}

def bind : Command ω ρ α → (α → Command ω ρ β) → Command ω ρ β
  | ret a, f => f a
  | op o k, f => op o fun r => (k r).bind f

instance : Monad (Command ω ρ) where
  pure := ret
  bind := bind

/-- The command of a single operation. -/
def perform (o : ω) : Command ω ρ (ρ o) := op o ret

@[simp] theorem pure_eq (a : α) : (pure a : Command ω ρ α) = ret a := rfl

@[simp] theorem ret_bind (a : α) (f : α → Command ω ρ β) : (ret a >>= f) = f a := rfl

@[simp] theorem op_bind (o : ω) (k : ρ o → Command ω ρ α) (f : α → Command ω ρ β) :
    (op o k >>= f) = op o fun r => k r >>= f := rfl

@[simp] theorem perform_bind (o : ω) (f : ρ o → Command ω ρ β) :
    (perform o >>= f) = op o f := rfl

variable (E : Effects ω ρ σ)

/-- Run a command to completion. -/
def exec : Command ω ρ α → σ → α × σ
  | ret a, s => (a, s)
  | op o k, s => (k (E.answer o s)).exec (E.next s o)

/-- The operations a run performs, in order. -/
def trace : Command ω ρ α → σ → List ω
  | ret _, _ => []
  | op o k, s => o :: (k (E.answer o s)).trace (E.next s o)

variable {E} {P : σ → ω → Prop} {c : Command ω ρ α} {s : σ}

@[simp] theorem exec_ret (a : α) : (ret a : Command ω ρ α).exec E s = (a, s) := rfl

@[simp] theorem exec_op (o : ω) (k : ρ o → Command ω ρ α) :
    (op o k).exec E s = (k (E.answer o s)).exec E (E.next s o) := rfl

@[simp] theorem exec_bind (f : α → Command ω ρ β) :
    (c >>= f).exec E s = (f (c.exec E s).1).exec E (c.exec E s).2 := by
  induction c generalizing s with
  | ret a => rfl
  | op o k ih => exact ih _

@[simp] theorem trace_ret (a : α) : (ret a : Command ω ρ α).trace E s = [] := rfl

@[simp] theorem trace_op (o : ω) (k : ρ o → Command ω ρ α) :
    (op o k).trace E s = o :: (k (E.answer o s)).trace E (E.next s o) := rfl

theorem trace_bind (f : α → Command ω ρ β) :
    (c >>= f).trace E s =
      c.trace E s ++ (f (c.exec E s).1).trace E (c.exec E s).2 := by
  induction c generalizing s with
  | ret a => rfl
  | op o k ih => simp [ih]

/-- Replaying the trace gives the state the run ends in. -/
theorem run_trace : run E.next s (c.trace E s) = (c.exec E s).2 := by
  induction c generalizing s with
  | ret a => rfl
  | op o k ih => exact ih _

/-! ## The operations of a command -/

/-- Every operation of the command, whatever the answers before it, meets `P`. -/
inductive Each (P : ω → Prop) : Command ω ρ α → Prop where
  | ret (a : α) : Each P (ret a)
  | op {o : ω} {k : ρ o → Command ω ρ α} (ho : P o) (hk : ∀ r, Each P (k r)) : Each P (op o k)

theorem Each.perform {P : ω → Prop} {o : ω} (ho : P o) :
    Each P (.perform o : Command ω ρ (ρ o)) := .op ho .ret

theorem Each.bind {P : ω → Prop} {f : α → Command ω ρ β} (h : Each P c)
    (hf : ∀ a, Each P (f a)) : Each P (c >>= f) := by
  induction h with
  | ret a => exact hf a
  | op ho _ ih => exact .op ho ih

/-! ## Exact specifications -/

/-- From `s` every operation of `c` meets `P` exactly when `safe` holds, and then `c`
returns `a` in a state that meets `Q`. -/
structure Exact (E : Effects ω ρ σ) (P : σ → ω → Prop) (c : Command ω ρ α) (s : σ)
    (safe : Prop) (a : α) (Q : σ → Prop) : Prop where
  guard : Along E.next P s (c.trace E s) ↔ safe
  post : safe → (c.exec E s).1 = a ∧ Q (c.exec E s).2

theorem Exact.congr {safe safe' : Prop} {a : α} {Q : σ → Prop}
    (h : Exact E P c s safe a Q) (he : safe' ↔ safe) : Exact E P c s safe' a Q :=
  ⟨h.guard.trans he.symm, fun hs => h.post (he.mp hs)⟩

theorem Exact.mono {safe : Prop} {a : α} {Q Q' : σ → Prop}
    (h : Exact E P c s safe a Q) (hq : safe → ∀ s', Q s' → Q' s') : Exact E P c s safe a Q' :=
  ⟨h.guard, fun hs => ⟨(h.post hs).1, hq hs _ (h.post hs).2⟩⟩

theorem Exact.ret {a : α} {Q : σ → Prop} (hq : Q s) : Exact E P (.ret a) s True a Q :=
  ⟨Iff.rfl, fun _ => ⟨rfl, hq⟩⟩

theorem Exact.op {o : ω} {k : ρ o → Command ω ρ α} {safe : Prop} {a : α} {Q : σ → Prop}
    (h : P s o → Exact E P (k (E.answer o s)) (E.next s o) safe a Q) :
    Exact E P (.op o k) s (P s o ∧ safe) a Q := by
  constructor
  · rw [trace_op, along_cons]
    exact and_congr_right fun hp => (h hp).guard
  · rintro ⟨hp, hs⟩
    exact (h hp).post hs

/-- An operation that always meets the guard adds nothing to `safe`. -/
theorem Exact.step {o : ω} {k : ρ o → Command ω ρ α} {safe : Prop} {a : α} {Q : σ → Prop}
    (hp : P s o) (h : Exact E P (k (E.answer o s)) (E.next s o) safe a Q) :
    Exact E P (.op o k) s safe a Q :=
  (Exact.op fun _ => h).congr (by simp [hp])

theorem Exact.perform {o : ω} : Exact E P (.perform o) s (P s o) (E.answer o s) (· = E.next s o) :=
  ⟨by simp [Command.perform], fun _ => ⟨rfl, rfl⟩⟩

theorem Exact.bind {f : α → Command ω ρ β} {safe safe' : Prop} {a : α} {b : β}
    {Q Q' : σ → Prop} (h : Exact E P c s safe a Q)
    (hf : safe → ∀ s', Q s' → Exact E P (f a) s' safe' b Q') :
    Exact E P (c >>= f) s (safe ∧ safe') b Q' := by
  constructor
  · rw [trace_bind, along_append, run_trace, h.guard]
    refine and_congr_right fun hs => ?_
    obtain ⟨ha, hq⟩ := h.post hs
    rw [ha]
    exact (hf hs _ hq).guard
  · rintro ⟨hs, hs'⟩
    obtain ⟨ha, hq⟩ := h.post hs
    rw [exec_bind, ha]
    exact (hf hs _ hq).post hs'

end Command
