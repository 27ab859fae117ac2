import MonitoringAgent.Pool.Safety
import Mathlib.Data.Fintype.Card

/-!
# No packet leaks

Every packet that was allocated is READY, DONE or in the hands of one plugin. A packet can
only be lost by a race of two pushes, which takes it out of the list, and never by a plugin
that forgets it.
-/
namespace MonitoringAgent

open Buffer Command Transition Packet

variable {ι : Type} {m : Meta} {license : Text} {tid : ι → UInt64} {v v' : View ι} {i : ι}
  {r : Nat} {pkt : Packet} {u : Use ι} {hd : Hold} {p : Posting}

/-- Nobody has to hold such a packet. -/
def PacketState.Settled (st : PacketState) : Prop := st = .ready ∨ st = .done

instance : DecidablePred PacketState.Settled := fun _ => inferInstanceAs (Decidable (_ ∨ _))

def View.Accounted (v : View ι) : Prop :=
  ∀ r, r < v.count → (v.pkt r).state.Settled ∨ ∃ i, (v.hold i).cell = some r

/-- A move of plugin `i`, which held no other packet than `r`. -/
theorem View.Accounted.set [DecidableEq ι] (h : v.Accounted) {count : Nat}
    (hcount : ∀ r', r' < count → r' = r ∨ r' < v.count)
    (hold : ∀ r', (v.hold i).cell = some r' → r' = r)
    (hnew : pkt.state.Settled ∨ hd.cell = some r) : (v.set i r pkt u hd count).Accounted := by
  intro r' hr'
  simp only [View.set] at hr' ⊢
  by_cases he : r' = r
  · subst he
    rw [Function.update_self]
    rcases hnew with hst | hcell
    · exact .inl hst
    · exact .inr ⟨i, by rw [Function.update_self]; exact hcell⟩
  · rw [Function.update_of_ne he]
    rcases h r' ((hcount r' hr').resolve_left he) with hst | ⟨j, hj⟩
    · exact .inl hst
    · have hji : j ≠ i := by
        rintro rfl
        exact he (hold r' hj)
      exact .inr ⟨j, by rw [Function.update_of_ne hji]; exact hj⟩

theorem View.Accounted.post (h : v.Accounted) (hst : pkt.state.Settled) :
    (v.post r pkt u p).Accounted := by
  intro r' hr'
  simp only [View.post] at hr' ⊢
  refine update_holds (P := fun pkt : Packet => pkt.state.Settled ∨ ∃ i, (v.hold i).cell = some r')
    (fun _ => .inl hst) fun _ => h r' hr'

/-- What a call has left to do keeps the packet. -/
theorem Closing.after {prog : PacketM (GatherError × Bool)} (h : Closing prog) :
    (Hold.after r prog).cell = some r := by
  cases h <;> rfl

/-- Every move keeps the packets accounted for. -/
theorem accounted_move [DecidableEq ι] (h : v.Accounted) (hinv : v.Inv m tid)
    (hmove : Move m.license tid v v') : v'.Accounted := by
  have hsame : ∀ r r', r' < v.count → r' = r ∨ r' < v.count := fun _ _ hr' => .inr hr'
  have hown {i : ι} {r : Nat} {hd : Hold} (hhold : v.hold i = hd) (hcell : hd.cell = some r)
      (r' : Nat) (hr' : (v.hold i).cell = some r') : r' = r := by
    rw [hhold, hcell] at hr'
    exact (Option.some.inj hr').symm
  have hnothing {i : ι} {r : Nat} (hnone : v.hold i = .none) (r' : Nat)
      (hr' : (v.hold i).cell = some r') : r' = r := by
    rw [hnone] at hr'
    cases hr'
  cases hmove with
  | quiet => exact h
  | take i r hnone hdone => exact h.set (hsame r) (hnothing hnone) (.inr rfl)
  | reset i r htaken => exact h.set (hsame r) (hown htaken rfl) (.inr rfl)
  | fresh i hnone =>
    refine h.set (fun r' hr' => ?_) (hnothing hnone) (.inr rfl)
    omega
  | call i r c hrest => exact h.set (hsame r) (hown hrest rfl) (.inr rfl)
  | op i r o k hbusy =>
    have hheld := hinv.held i r (by rw [hbusy]; rfl)
    rw [hbusy] at hheld
    refine h.set (hsame r) (hown hbusy rfl) ?_
    cases hheld.content.1 with
    | last res hst hk => exact .inl hst
    | op ho hk => exact .inr (hk _).after
  | leave i r a hbusy =>
    have hheld := hinv.held i r (by rw [hbusy]; rfl)
    rw [hbusy] at hheld
    exact h.set (hsame r) (hown hbusy rfl) (.inr hheld.content.1.after)
  | find r hidle hready => exact h.post (.inl hready)
  | attempt r htrying | abandon r htrying | refuse r response htrying
  | accept r response htrying => exact h.post (.inl (hinv.trying htrying).1)
  | finish r haccepted => exact h.post (.inr rfl)

/-! ## Runs -/

theorem accounted_start : (Traced.start : Traced ι).view.Accounted :=
  fun r hr => absurd hr (Nat.not_lt_zero r)

theorem accounted_step [DecidableEq ι] {t : Traced ι} (h : t.view.Accounted)
    (hpool : PoolInv m tid t) (act : PoolAct ι) :
    (tracedStep m.license tid t act).view.Accounted :=
  accounted_move h hpool.view (move_step hpool.tied act)

/-- Whatever the interleaving, a packet is READY or DONE, or exactly one plugin fills it; so
there are never more packets in between than plugins. -/
theorem packets_accounted [DecidableEq ι] [Fintype ι] (m : Meta) (tid : ι → UInt64)
    (acts : List (PoolAct ι)) :
    let s := run (poolStep m.license tid) Pool.start acts
    (∀ r, r < s.count → (s.pkt r).state.Settled ∧ (∀ i, ¬ s.Fills i r) ∨
      (s.pkt r).state.Open ∧ ∃! i, s.Fills i r) ∧
    ((Finset.range s.count).filter fun r => ¬ (s.pkt r).state.Settled).card ≤
      Fintype.card ι := by
  intro s
  let t := run (tracedStep m.license tid) Traced.start acts
  obtain ⟨hpool, haccounted⟩ : PoolInv m tid t ∧ t.view.Accounted :=
    invariant_run (I := fun t => PoolInv m tid t ∧ t.view.Accounted)
      (fun _ act h => ⟨poolInv_step h.1 act, accounted_step h.2 h.1 act⟩)
      ⟨poolInv_start m tid, accounted_start⟩
  have hts : t.pool = s := pool_run_tracedStep acts
  have hall : ∀ r, r < t.pool.count → (t.pool.pkt r).state.Settled ∧ (∀ i, ¬ t.pool.Fills i r) ∨
      (t.pool.pkt r).state.Open ∧ ∃! i, t.pool.Fills i r := by
    intro r hr
    by_cases hst : (t.pool.pkt r).state.Settled
    · refine .inl ⟨hst, hpool.view.not_held ?_⟩
      change ¬ (t.pool.pkt r).state.Open
      rcases hst with hst | hst <;> rw [hst] <;> exact id
    · obtain ⟨i, hi⟩ := (haccounted r hr).resolve_left hst
      exact .inr ⟨(hpool.view.held i r hi).isOpen, i, hi, fun j hj => hpool.view.exclusive hj hi⟩
  rw [hts] at hall
  refine ⟨hall, ?_⟩
  have hheld : ((Finset.range s.count).filter fun r => ¬ (s.pkt r).state.Settled) ⊆
      Finset.univ.image fun i => ((s.hold i).cell).getD 0 := by
    intro r hr
    obtain ⟨hcount, hst⟩ := Finset.mem_filter.mp hr
    rcases hall r (Finset.mem_range.mp hcount) with ⟨hsettled, -⟩ | ⟨-, i, hi, -⟩
    · exact absurd hsettled hst
    · refine Finset.mem_image.mpr ⟨i, Finset.mem_univ i, ?_⟩
      change (s.hold i).cell = some r at hi
      rw [hi]
      rfl
  exact (Finset.card_le_card hheld).trans Finset.card_image_le

end MonitoringAgent
