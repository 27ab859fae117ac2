import MonitoringAgent.Lib.Fairness
import MonitoringAgent.Pool.Order
import Mathlib.Data.Fintype.EquivFin
import Mathlib.Algebra.BigOperators.Group.Finset.Basic
import Mathlib.Algebra.Order.BigOperators.Group.Finset

/-!
# Traversals end

The loops of `get_packet` and `storage_main` end under any schedule that keeps running the
threads. The only wait in them is for the lock in `packet_fetch`: a thread takes the lock
of a packet at most once, since it takes that of the first one and then becomes first.
-/
namespace MonitoringAgent

open Buffer Command Transition Packet Chain

variable {ι : Type}

/-! ## Locks -/

/-- The packet whose lock a thread has. -/
def PluginPc.locks : PluginPc → Option Nat
  | linkLoad _ _ k | linkStore _ _ k _ | storeHead _ _ k | release _ _ k => some k
  | _ => none

/-- The packet whose lock a thread is about to take. -/
def PluginPc.awaits : PluginPc → Option Nat
  | acquire _ _ k => some k
  | _ => none

/-- The steps up to `*head_lock = 0`. -/
def PluginPc.left : PluginPc → Nat
  | linkLoad _ _ _ => 4
  | linkStore _ _ _ _ => 3
  | storeHead _ _ _ => 2
  | release _ _ _ => 1
  | _ => 0

/-- The packet whose lock the storage thread has. -/
def StoragePc.locks : StoragePc → Option Nat
  | fetchState r | fetchUnlock r _ => some r
  | _ => none

/-- How much thread `i` can still have to do with the lock of packet `k`. -/
def Pool.owed (s : Pool ι) (k : Nat) (i : ι) : Nat :=
  if (s.pc i).locks = some k then (s.pc i).left
  else if s.head = some k ∨ (s.pc i).awaits = some k then 5
  else 0

/-- Whoever has set `spin` is still there; `packet_change_state` may have cleared it. -/
def Pool.Locked (s : Pool ι) : Prop :=
  ∀ k, (s.heap k).spin = true → (∃ i, (s.pc i).locks = some k) ∨ s.storage.locks = some k

variable [DecidableEq ι] (license : Text) (tid : ι → UInt64) {s : Pool ι} {i : ι} {l : List Nat}

omit [DecidableEq ι] in
theorem PluginPc.left_le (pc : PluginPc) : pc.left ≤ 4 := by
  cases pc <;> simp [PluginPc.left]

/-- What a step of a thread has to do with the lock of packet `k`: it is one step closer to
giving it back, gives it back, takes it, or does not touch it. -/
theorem locks_plugin (s : Pool ι) (i : ι) (k : Nat) :
    let pc := s.pc i
    let pc' := (pluginStep license tid s i).pc i
    (pc.locks = some k ∧ pc'.locks = some k ∧ pc'.left + 1 = pc.left) ∨
      ((∃ c r, pc = .release c r k) ∧ pc'.locks = none ∧ pc'.awaits = none) ∨
      (pc.awaits = some k ∧ pc'.locks = some k) ∨
      (pc.locks ≠ some k ∧ pc'.locks ≠ some k ∧
        (pc'.awaits = some k → s.head = some k ∨ pc.awaits = some k)) := by
  intro pc pc'
  have hother (hlocks : pc.locks = none) (hlocks' : pc'.locks = none)
      (hawaits : ∀ k, pc'.awaits = some k → s.head = some k ∨ pc.awaits = some k) :
      pc.locks ≠ some k ∧ pc'.locks ≠ some k ∧
        (pc'.awaits = some k → s.head = some k ∨ pc.awaits = some k) := by
    refine ⟨by simp [hlocks], by simp [hlocks'], hawaits k⟩
  have hkeeps {k' : Nat} (hlocks : pc.locks = some k') (hlocks' : pc'.locks = some k')
      (hleft : pc'.left + 1 = pc.left) (hawaits : pc'.awaits = none) :
      (pc.locks = some k ∧ pc'.locks = some k ∧ pc'.left + 1 = pc.left) ∨
        (pc.locks ≠ some k ∧ pc'.locks ≠ some k ∧
          (pc'.awaits = some k → s.head = some k ∨ pc.awaits = some k)) := by
    by_cases hk : k' = k
    · subst hk
      exact .inl ⟨hlocks, hlocks', hleft⟩
    · exact .inr ⟨by simpa [hlocks], by simpa [hlocks'], by simp [hawaits]⟩
  have hpc : s.pc i = pc := rfl
  have hpc' : (pluginStep license tid s i).pc i = pc' := rfl
  clear_value pc pc'
  simp only [pluginStep, hpc] at hpc'
  cases pc with
  | linkLoad c r k' | linkStore c r k' n | storeHead c r k' =>
    dsimp only at hpc'
    rw [Pool.pc_setPc_self] at hpc'
    subst hpc'
    rcases hkeeps rfl rfl rfl rfl with hstay | hnot
    · exact .inl hstay
    · exact .inr (.inr (.inr hnot))
  | release c r k' =>
    dsimp only at hpc'
    rw [Pool.pc_setPc_self] at hpc'
    subst hpc'
    by_cases hk : k' = k
    · subst hk
      exact .inr (.inl ⟨⟨c, r, rfl⟩, rfl, rfl⟩)
    · exact .inr (.inr (.inr ⟨by simpa [PluginPc.locks], by simp [PluginPc.locks],
        by simp [PluginPc.awaits]⟩))
  | acquire c r k' =>
    dsimp only at hpc'
    split at hpc'
    · rw [hpc] at hpc'
      subst hpc'
      exact .inr (.inr (.inr (hother rfl rfl fun k hk => .inr hk)))
    · rw [Pool.pc_setPc_self] at hpc'
      subst hpc'
      by_cases hk : k' = k
      · subst hk
        exact .inr (.inr (.inl ⟨rfl, rfl⟩))
      · exact .inr (.inr (.inr ⟨by simp [PluginPc.locks], by simpa [PluginPc.locks],
          by simp [PluginPc.awaits]⟩))
  | loadLock c r =>
    dsimp only at hpc'
    split at hpc'
    · next k' hhead =>
      rw [Pool.pc_setPc_self] at hpc'
      subst hpc'
      exact .inr (.inr (.inr (hother rfl rfl fun k hk => .inl (hhead.trans hk))))
    · rw [hpc] at hpc'
      subst hpc'
      exact .inr (.inr (.inr (hother rfl rfl fun k hk => .inr hk)))
  | idle =>
    dsimp only at hpc'
    rw [hpc] at hpc'
    subst hpc'
    exact .inr (.inr (.inr (hother rfl rfl fun k hk => .inr hk)))
  | body r prog =>
    have hresume (prog : PacketM (GatherError × Bool)) :
        (PluginPc.resume r prog).locks = none ∧ (PluginPc.resume r prog).awaits = none := by
      unfold PluginPc.resume
      split <;> exact ⟨rfl, rfl⟩
    cases prog with
    | ret a | op o k =>
      dsimp only at hpc'
      rw [Pool.pc_setPc_self] at hpc'
      subst hpc'
      obtain ⟨hlocks, hawaits⟩ := hresume _
      exact .inr (.inr (.inr (hother rfl hlocks fun k hk => by simp [hawaits] at hk)))
  | recycle | storeSpin | alloc | setWorking | clearWorking =>
    dsimp only at hpc'
    rw [Pool.pc_setPc_self] at hpc'
    subst hpc'
    exact .inr (.inr (.inr (hother rfl rfl fun k hk => by cases hk)))
  | scanHead | scanNext | testHead | readWorking | scanCas | casHead =>
    dsimp only at hpc'
    split at hpc' <;> rw [Pool.pc_setPc_self] at hpc' <;> subst hpc' <;>
      exact .inr (.inr (.inr (hother rfl rfl fun k hk => by cases hk)))
  | loadWorking =>
    dsimp only at hpc'
    split at hpc'
    · rw [Pool.pc_setPc_self] at hpc'
      subst hpc'
      exact .inr (.inr (.inr (hother rfl rfl fun k hk => by cases hk)))
    · rw [hpc] at hpc'
      subst hpc'
      exact .inr (.inr (.inr (hother rfl rfl fun k hk => .inr hk)))

section spin

omit [DecidableEq ι]

theorem Pool.spin_setCell {r : Nat} {cell : Cell} (k : Nat) :
    ((s.setCell r cell).heap k).spin = if k = r then cell.spin else (s.heap k).spin := by
  simp only [Pool.setCell, Function.update_apply]
  split <;> rfl

theorem Pool.spin_setCell_of_eq {r : Nat} {cell : Cell} (h : cell.spin = (s.heap r).spin)
    (k : Nat) : ((s.setCell r cell).heap k).spin = (s.heap k).spin := by
  rw [Pool.spin_setCell]
  split
  · next hk => rw [hk, h]
  · rfl

theorem Pool.spin_setPkt {r : Nat} {pkt : Packet} (k : Nat) :
    ((s.setPkt r pkt).heap k).spin = (s.heap k).spin := Pool.spin_setCell_of_eq (by rfl) k

theorem Pool.spin_setNext {r : Nat} {n : Option Nat} (k : Nat) :
    ((s.setNext r n).heap k).spin = (s.heap k).spin := Pool.spin_setCell_of_eq (by rfl) k

end spin

/-- A thread leaves `spin` set only where it has the lock or found it set. -/
theorem spin_plugin {k : Nat} (h : ((pluginStep license tid s i).heap k).spin = true) :
    ((pluginStep license tid s i).pc i).locks = some k ∨
      ((s.heap k).spin = true ∧ (s.pc i).locks ≠ some k) := by
  simp only [pluginStep] at h ⊢
  cases hpc : s.pc i with
  | linkLoad c r k' | storeHead c r k' =>
    rw [hpc] at h
    dsimp only at h ⊢
    rw [Pool.pc_setPc_self]
    by_cases hk : k' = k
    · exact .inl (by rw [hk]; rfl)
    · exact .inr ⟨h, by simpa [PluginPc.locks]⟩
  | linkStore c r k' n =>
    rw [hpc] at h
    dsimp only [Pool.setPc] at h
    rw [Pool.spin_setNext] at h
    dsimp only
    rw [Pool.pc_setPc_self]
    by_cases hk : k' = k
    · exact .inl (by rw [hk]; rfl)
    · exact .inr ⟨h, by simpa [PluginPc.locks]⟩
  | release c r k' =>
    rw [hpc] at h
    dsimp only [Pool.setPc, Pool.setSpin] at h
    rw [Pool.spin_setCell] at h
    split at h
    · cases h
    · next hk => exact .inr ⟨h, by simpa [PluginPc.locks] using Ne.symm hk⟩
  | acquire c r k' =>
    rw [hpc] at h
    dsimp only at h ⊢
    split at h
    · exact .inr ⟨h, by simp [PluginPc.locks]⟩
    · next hspin =>
      rw [if_neg hspin, Pool.pc_setPc_self]
      dsimp only [Pool.setPc, Pool.setSpin] at h
      rw [Pool.spin_setCell] at h
      split at h
      · next hk => exact .inl (by rw [hk]; rfl)
      · exact .inr ⟨h, by simp [PluginPc.locks]⟩
  | storeSpin c r =>
    rw [hpc] at h
    dsimp only [Pool.setPc, Pool.setSpin] at h
    rw [Pool.spin_setCell] at h
    split at h
    · cases h
    · exact .inr ⟨h, by simp [PluginPc.locks]⟩
  | alloc c =>
    rw [hpc] at h
    dsimp only [Pool.setPc] at h
    rw [Pool.spin_setCell] at h
    split at h
    · cases h
    · exact .inr ⟨h, by simp [PluginPc.locks]⟩
  | scanCas c r =>
    rw [hpc] at h
    refine .inr ⟨?_, by simp [PluginPc.locks]⟩
    dsimp only at h
    split at h
    · dsimp only [Pool.setPc] at h
      rwa [Pool.spin_setPkt] at h
    · exact h
  | recycle c r =>
    rw [hpc] at h
    dsimp only [Pool.setPc] at h
    rw [Pool.spin_setPkt] at h
    exact .inr ⟨h, by simp [PluginPc.locks]⟩
  | body r prog =>
    rw [hpc] at h
    refine .inr ⟨?_, by simp [PluginPc.locks]⟩
    cases prog with
    | ret a => exact h
    | op o k' =>
      dsimp only [Pool.setPc] at h
      rwa [Pool.spin_setPkt] at h
  | casHead | loadLock | loadWorking =>
    rw [hpc] at h
    refine .inr ⟨?_, by simp [PluginPc.locks]⟩
    dsimp only at h
    split at h <;> exact h
  | idle | readWorking | scanHead | scanNext | testHead | setWorking | clearWorking =>
    rw [hpc] at h
    exact .inr ⟨h, by simp [PluginPc.locks]⟩

theorem locked_plugin (h : s.Locked) (i : ι) : (pluginStep license tid s i).Locked := by
  intro k hspin
  rcases spin_plugin license tid hspin with hlocks | ⟨hold, hnot⟩
  · exact .inl ⟨i, hlocks⟩
  · rcases h k hold with ⟨j, hj⟩ | hst
    · refine .inl ⟨j, ?_⟩
      have hji : j ≠ i := by
        rintro rfl
        exact hnot hj
      rwa [pluginStep_pc_of_ne hji]
    · exact .inr (by rwa [pluginStep_storage])

omit [DecidableEq ι] in
theorem locked_storage (h : s.Locked) (reply : Reply) : (storageStep s reply).Locked := by
  intro k hspin
  have hpc := (sameList_storage s reply).pc
  rw [hpc]
  have hthread (hold : (s.heap k).spin = true) (hne : s.storage.locks ≠ some k) :
      ∃ i, (s.pc i).locks = some k := by
    rcases h k hold with hi | hst
    · exact hi
    · exact absurd hst hne
  simp only [storageStep] at hspin ⊢
  cases hst : s.storage with
  | idle =>
    rw [hst] at hspin
    exact .inl (hthread hspin (by simp [hst, StoragePc.locks]))
  | loadHead | check r | next r =>
    rw [hst] at hspin
    exact .inl (hthread hspin (by simp [hst, StoragePc.locks]))
  | attempt r | markDone r | send r =>
    rw [hst] at hspin
    dsimp only at hspin
    rw [Pool.spin_setPkt] at hspin
    exact .inl (hthread hspin (by simp [hst, StoragePc.locks]))
  | fetchLock r =>
    rw [hst] at hspin
    dsimp only at hspin ⊢
    split at hspin
    · exact .inl (hthread hspin (by simp [hst, StoragePc.locks]))
    · next hfree =>
      rw [if_neg hfree]
      dsimp only [Pool.setSpin] at hspin
      rw [Pool.spin_setCell] at hspin
      split at hspin
      · next hk => exact .inr (by rw [hk]; rfl)
      · exact .inl (hthread hspin (by simp [hst, StoragePc.locks]))
  | fetchState r =>
    rw [hst] at hspin
    rcases h k hspin with hi | hlocks
    · exact .inl hi
    · rw [hst] at hlocks
      exact .inr hlocks
  | fetchUnlock r ready =>
    rw [hst] at hspin
    dsimp only [Pool.setSpin] at hspin
    rw [Pool.spin_setCell] at hspin
    split at hspin
    · cases hspin
    · next hk =>
      exact .inl (hthread hspin (by simpa [hst, StoragePc.locks] using Ne.symm hk))

theorem locked_step (h : s.Locked) (act : PoolAct ι) : (poolStep license tid s act).Locked := by
  cases act with
  | call i c =>
    simp only [poolStep]
    cases hpc : s.pc i with
    | idle =>
      intro k hspin
      rcases h k hspin with ⟨j, hj⟩ | hst
      · refine .inl ⟨j, ?_⟩
        have hji : j ≠ i := by
          rintro rfl
          rw [hpc] at hj
          cases hj
        simpa [Pool.setPc, hji] using hj
      · exact .inr hst
    | _ => exact h
  | plugin i => exact locked_plugin license tid h i
  | pass =>
    simp only [poolStep]
    cases hst : s.storage with
    | idle =>
      intro k hspin
      rcases h k hspin with hi | hlocks
      · exact .inl hi
      · rw [hst] at hlocks
        cases hlocks
    | _ => exact h
  | storage reply => exact locked_storage h reply

omit [DecidableEq ι] in
theorem locked_start : (Pool.start : Pool ι).Locked := by
  intro k hspin
  cases hspin

/-! ## A lock is taken a bounded number of times -/

variable {k : Nat}

/-- Once another packet has been published, `packets` does not come back to `k`. -/
theorem head_plugin (h : OrderInv l s) (hk : k ∈ l)
    (hhead : (pluginStep license tid s i).head = some k) : s.head = some k := by
  obtain ⟨-, h'⟩ : Publishes _ l s (pluginStep license tid s i) := orderInv_plugin h i
  rw [h'.head] at hhead
  have hnodup := h'.nodup
  cases hstored : s.stored i with
  | none =>
    rw [hstored] at hhead
    exact h.head.trans hhead
  | some r =>
    rw [hstored] at hhead hnodup
    obtain rfl := Option.some.inj hhead
    exact absurd hk (List.nodup_cons.mp hnodup).1

section owed

omit [DecidableEq ι]

theorem owed_of_locks (h : (s.pc i).locks = some k) : s.owed k i = (s.pc i).left := if_pos h

theorem owed_of_can (hnot : (s.pc i).locks ≠ some k)
    (hcan : s.head = some k ∨ (s.pc i).awaits = some k) : s.owed k i = 5 := by
  rw [Pool.owed, if_neg hnot, if_pos hcan]

theorem owed_of_cannot (hnot : (s.pc i).locks ≠ some k)
    (hcannot : ¬ (s.head = some k ∨ (s.pc i).awaits = some k)) : s.owed k i = 0 := by
  rw [Pool.owed, if_neg hnot, if_neg hcannot]

theorem PluginPc.locks_of_awaits {pc : PluginPc} (h : pc.awaits = some k) : pc.locks = none := by
  cases pc with
  | acquire => rfl
  | _ => cases h

end owed

/-- The own step of a thread: it has not more to do with the lock than before, and less if
it has the lock before or after the step. -/
theorem owed_plugin (h : OrderInv l s) (hk : k ∈ l) (i : ι) :
    (pluginStep license tid s i).owed k i ≤ s.owed k i ∧
      ((s.pc i).locks = some k ∨ ((pluginStep license tid s i).pc i).locks = some k →
        (pluginStep license tid s i).owed k i < s.owed k i) := by
  have hhead := head_plugin license tid (i := i) h hk
  have hlinked := h.linked i
  have hleft := ((pluginStep license tid s i).pc i).left_le
  rcases locks_plugin license tid s i k with ⟨hlocks, hlocks', hstep⟩ |
    ⟨⟨c, r, hpc⟩, hlocks', hawaits'⟩ | ⟨hawaits, hlocks'⟩ | ⟨hlocks, hlocks', hawaits⟩
  · rw [owed_of_locks hlocks, owed_of_locks hlocks']
    omega
  · -- the lock is given back, and this packet is no longer first
    rw [hpc] at hlinked
    have hne : (pluginStep license tid s i).head ≠ some k := fun he => hlinked.2 (hhead he)
    have hzero : (pluginStep license tid s i).owed k i = 0 :=
      owed_of_cannot (by simp [hlocks']) (by simp [hne, hawaits'])
    have hone : s.owed k i = 1 := by
      rw [owed_of_locks (by rw [hpc]; rfl), hpc]
      rfl
    omega
  · have hnot := PluginPc.locks_of_awaits hawaits
    rw [owed_of_locks hlocks', owed_of_can (by simp [hnot]) (.inr hawaits)]
    omega
  · refine ⟨?_, fun he => he.elim (absurd · hlocks) (absurd · hlocks')⟩
    by_cases hcan : (pluginStep license tid s i).head = some k ∨
        ((pluginStep license tid s i).pc i).awaits = some k
    · have hcould : s.head = some k ∨ (s.pc i).awaits = some k := hcan.elim (.inl ∘ hhead) hawaits
      rw [owed_of_can hlocks' hcan, owed_of_can hlocks hcould]
    · rw [owed_of_cannot hlocks' hcan]
      exact Nat.zero_le _

omit [DecidableEq ι] in
/-- A step of another thread. -/
theorem owed_of_pc_eq {s' : Pool ι} {j : ι} (hpc : s'.pc j = s.pc j)
    (hhead : s'.head = some k → s.head = some k) : s'.owed k j ≤ s.owed k j := by
  by_cases hlocks : (s.pc j).locks = some k
  · rw [owed_of_locks hlocks, owed_of_locks (hpc ▸ hlocks), hpc]
  · by_cases hcan : s'.head = some k ∨ (s'.pc j).awaits = some k
    · rw [owed_of_can (hpc ▸ hlocks) hcan, owed_of_can hlocks (hcan.imp hhead (hpc ▸ ·))]
    · rw [owed_of_cannot (hpc ▸ hlocks) hcan]
      exact Nat.zero_le _

/-- What an action leaves thread `j` to do with the lock of `k`: not more than before, and
less if the thread takes it or gets on with giving it back. -/
theorem owed_step (h : OrderInv l s) (hk : k ∈ l) (act : PoolAct ι) (j : ι) :
    let s' := poolStep license tid s act
    s'.owed k j ≤ s.owed k j ∧
      (s'.owed k j = s.owed k j → ((s'.pc j).locks = some k ↔ (s.pc j).locks = some k)) ∧
      (act = .plugin j → (s.pc j).locks = some k → s'.owed k j < s.owed k j) := by
  intro s'
  have hsame (hpc : s'.pc j = s.pc j) (hhead : s'.head = some k → s.head = some k)
      (hact : act ≠ .plugin j) : s'.owed k j ≤ s.owed k j ∧
        (s'.owed k j = s.owed k j → ((s'.pc j).locks = some k ↔ (s.pc j).locks = some k)) ∧
        (act = .plugin j → (s.pc j).locks = some k → s'.owed k j < s.owed k j) :=
    ⟨owed_of_pc_eq hpc hhead, fun _ => by rw [hpc], fun he => absurd he hact⟩
  cases act with
  | call i c =>
    by_cases hcalled : s.pc i = .idle ∧ j = i
    · obtain ⟨hpc, rfl⟩ := hcalled
      have hs' : s' = s.setPc j (.readWorking c) := by simp only [s', poolStep, hpc]
      have hpc' : s'.pc j = .readWorking c := by rw [hs', Pool.pc_setPc_self]
      have hlocks : (s'.pc j).locks = (s.pc j).locks := by rw [hpc, hpc']; rfl
      have howed : s'.owed k j = s.owed k j := by
        simp only [Pool.owed, hlocks]
        rw [hpc, hpc', hs']
        rfl
      exact ⟨howed.le, fun _ => by rw [hlocks], fun he => by cases he⟩
    · refine hsame ?_ ?_ (by simp) <;> simp only [s', poolStep]
      · cases hpc : s.pc i with
        | idle =>
          have hji : j ≠ i := fun he => hcalled ⟨hpc, he⟩
          simp [Pool.setPc, hji]
        | _ => rfl
      · cases s.pc i <;> exact id
  | plugin i =>
    by_cases hji : j = i
    · subst hji
      obtain ⟨hle, hlt⟩ := owed_plugin license tid h hk j
      refine ⟨hle, fun he => ?_, fun _ hlocks => hlt (.inl hlocks)⟩
      constructor <;> intro hlocks
      · exact absurd he (hlt (.inr hlocks)).ne
      · exact absurd he (hlt (.inl hlocks)).ne
    · refine hsame (pluginStep_pc_of_ne hji) (head_plugin license tid h hk) ?_
      simpa using Ne.symm hji
  | pass =>
    have hpc : s'.pc = s.pc ∧ s'.head = s.head := by
      simp only [s', poolStep]
      cases s.storage <;> exact ⟨rfl, rfl⟩
    exact hsame (congrFun hpc.1 j) (fun he => hpc.2 ▸ he) (by simp)
  | storage reply =>
    have hs := sameList_storage s reply
    exact hsame (congrFun hs.pc j) (fun he => hs.head ▸ he) (by simp)

/-- How much all threads together can still have to do with the lock of `k`. -/
def Pool.debt [Fintype ι] (s : Pool ι) (k : Nat) : Nat := ∑ i, s.owed k i

section debt

variable [Fintype ι]

theorem debt_step (h : OrderInv l s) (hk : k ∈ l) (act : PoolAct ι) :
    let s' := poolStep license tid s act
    s'.debt k ≤ s.debt k ∧
      (s'.debt k = s.debt k → ∀ j, (s'.pc j).locks = some k ↔ (s.pc j).locks = some k) := by
  intro s'
  have howed (j : ι) := owed_step license tid h hk act j
  refine ⟨Finset.sum_le_sum fun j _ => (howed j).1, fun he j => (howed j).2.1 ?_⟩
  exact (Finset.sum_eq_sum_iff_of_le fun j _ => (howed j).1).mp he j (Finset.mem_univ j)

theorem debt_step_lt (h : OrderInv l s) (hk : k ∈ l) (hlocks : (s.pc i).locks = some k) :
    (poolStep license tid s (.plugin i)).debt k < s.debt k := by
  have howed (j : ι) := owed_step license tid h hk (.plugin i) j
  exact Finset.sum_lt_sum (fun j _ => (howed j).1) ⟨i, Finset.mem_univ i, (howed i).2.2 rfl hlocks⟩

end debt

/-! ## Infinite runs -/

/-- The schedule keeps running every thread. -/
structure Fair (sched : Nat → PoolAct ι) : Prop where
  plugin : ∀ i, Often sched (· = .plugin i)
  storage : Often sched fun act => ∃ reply, act = .storage reply

def recordedRun (license : Text) (tid : ι → UInt64) (sched : Nat → PoolAct ι) :
    Nat → Recorded ι :=
  stateAt (recordedStep license tid) Recorded.start sched

variable {sched : Nat → PoolAct ι}

theorem recordInv_run (sched : Nat → PoolAct ι) (n : Nat) :
    RecordInv (recordedRun license tid sched n) :=
  invariant_stateAt RecordInv (fun _ act h => (recordInv_step h act).1) recordInv_start n

theorem keeps_run {m n : Nat} (hmn : m ≤ n) :
    (recordedRun license tid sched m).Keeps (recordedRun license tid sched n) :=
  related_stateAt .refl (fun _ _ _ => .trans)
    (fun n => (recordInv_step (recordInv_run license tid sched n) (sched n)).2) hmn

theorem pool_run (sched : Nat → PoolAct ι) (n : Nat) :
    (recordedRun license tid sched n).pool = stateAt (poolStep license tid) Pool.start sched n := by
  induction n with
  | zero => rfl
  | succ n ih =>
    rw [stateAt, ← ih]
    exact pool_recordedStep _ _

theorem locked_run (sched : Nat → PoolAct ι) (n : Nat) :
    (recordedRun license tid sched n).pool.Locked := by
  rw [pool_run license tid]
  exact invariant_stateAt Pool.Locked (fun _ act h => locked_step license tid h act) locked_start n

section wait

variable {x : Recorded ι} {t : Traversal}

/-- The pass `t` waits for the lock of packet `k`. -/
def Recorded.Waits (k : Nat) (t : Traversal) (x : Recorded ι) : Prop :=
  x.pool.storage = .fetchLock k ∧ x.pass = t

/-- The pass `t` has the lock of packet `k`. -/
def Recorded.Fetches (k : Nat) (t : Traversal) (x : Recorded ι) : Prop :=
  x.pool.storage = .fetchState k ∧ x.pass = t

/-- The storage thread stays where it is while others act. -/
theorem storage_other {act : PoolAct ι} (hact : ∀ reply, act ≠ .storage reply)
    (hst : x.pool.storage ≠ .idle) :
    (recordedStep license tid x act).pool.storage = x.pool.storage ∧
      (recordedStep license tid x act).pass = x.pass := by
  cases act with
  | call i c =>
    refine ⟨?_, rfl⟩
    simp only [recordedStep, poolStep]
    cases x.pool.pc i <;> rfl
  | plugin i => exact ⟨pluginStep_storage x.pool i, rfl⟩
  | pass =>
    refine ⟨?_, rfl⟩
    simp only [recordedStep, poolStep]
  | storage reply => exact absurd rfl (hact reply)

/-- The compare-and-swap of `packet_fetch`. -/
theorem waits_storage (h : x.Waits k t) (reply : Reply) :
    if (x.pool.heap k).spin then (recordedStep license tid x (.storage reply)).Waits k t
    else (recordedStep license tid x (.storage reply)).Fetches k t := by
  obtain ⟨hst, hpass⟩ := h
  have hpass' : (recordedStep license tid x (.storage reply)).pass = t := by
    simp only [recordedStep, hst, hpass]
  split
  · next hspin =>
    refine ⟨?_, hpass'⟩
    simp only [recordedStep, poolStep, storageStep, hst, hspin, if_true]
  · next hspin =>
    refine ⟨?_, hpass'⟩
    simp only [recordedStep, poolStep, storageStep, hst, if_neg hspin]

omit [DecidableEq ι] in
theorem RecordInv.waits_mem (h : RecordInv x) (hw : x.Waits k t) : k ∈ x.order :=
  h.pass.known.subset (h.pass.met k (by rw [hw.1]; rfl)).mem

/-- While the pass waits, the others have less and less to do with the lock. -/
theorem waits_step [Fintype ι] (h : RecordInv x) (hw : x.Waits k t) (act : PoolAct ι) :
    let y := recordedStep license tid x act
    y.Fetches k t ∨ y.Waits k t ∧ y.pool.debt k ≤ x.pool.debt k ∧
      (y.pool.debt k = x.pool.debt k →
        ∀ j, (y.pool.pc j).locks = some k ↔ (x.pool.pc j).locks = some k) := by
  intro y
  have hdebt := debt_step license tid h.order (h.waits_mem hw) act
  rw [← pool_recordedStep] at hdebt
  by_cases hact : ∃ reply, act = .storage reply
  · obtain ⟨reply, rfl⟩ := hact
    have hnext := waits_storage license tid hw reply
    split at hnext
    · exact .inr ⟨hnext, hdebt⟩
    · exact .inl hnext
  · obtain ⟨hst, hpass⟩ := storage_other license tid (x := x)
      (fun reply he => hact ⟨reply, he⟩) (by simp [hw.1])
    exact .inr ⟨⟨hst.trans hw.1, hpass.trans hw.2⟩, hdebt⟩

theorem waits_free (h : x.pool.Locked) (hw : x.Waits k t)
    (hfree : ∀ i, (x.pool.pc i).locks ≠ some k) (reply : Reply) :
    (recordedStep license tid x (.storage reply)).Fetches k t := by
  have hspin : ¬ (x.pool.heap k).spin = true := by
    intro hspin
    rcases h k hspin with ⟨i, hi⟩ | hst
    · exact hfree i hi
    · rw [hw.1] at hst
      cases hst
  have hnext := waits_storage license tid hw reply
  rwa [if_neg hspin] at hnext

end wait

/-- The pass gets the lock it waits for: as long as a thread has it, that thread gives it
back in the end, and no thread takes it twice. -/
theorem waits_leadsTo [Fintype ι] (hfair : Fair sched) (k : Nat) (t : Traversal) :
    LeadsTo (recordedRun license tid sched) (Recorded.Waits k t) (Recorded.Fetches k t) := by
  refine leadsTo_measure (fun x => x.pool.debt k) fun w n ⟨hn, hdebt⟩ => ?_
  let x := recordedRun license tid sched
  let Nearer (y : Recorded ι) : Prop := y.Fetches k t ∨ y.Waits k t ∧ y.pool.debt k < w
  have hstep (m : Nat) (hm : (x m).Waits k t ∧ (x m).pool.debt k = w) :
      Nearer (x (m + 1)) ∨ ((x (m + 1)).Waits k t ∧ (x (m + 1)).pool.debt k = w) ∧
        ∀ j, ((x (m + 1)).pool.pc j).locks = some k ↔ ((x m).pool.pc j).locks = some k := by
    obtain ⟨hwaits, hdebt⟩ := hm
    rcases waits_step license tid (recordInv_run license tid sched m) hwaits (sched m)
      with hdone | ⟨hwaits, hle, hsame⟩
    · exact .inl (.inl hdone)
    · rcases hle.lt_or_eq with hlt | heq
      · exact .inl (.inr ⟨hwaits, hdebt ▸ hlt⟩)
      · exact .inr ⟨⟨hwaits, heq.trans hdebt⟩, hsame heq⟩
  by_cases hheld : ∃ i, ((x n).pool.pc i).locks = some k
  · obtain ⟨i, hi⟩ := hheld
    let Held (y : Recorded ι) : Prop :=
      (y.Waits k t ∧ y.pool.debt k = w) ∧ (y.pool.pc i).locks = some k
    have hleads : LeadsTo x Held Nearer := by
      refine leadsTo_ensures (hfair.plugin i) (fun m ⟨hm, hi⟩ => ?_) fun m ⟨hm, hi⟩ hact => ?_
      · rcases hstep m hm with hdone | ⟨hm', hsame⟩
        · exact .inr hdone
        · exact .inl ⟨hm', (hsame i).mpr hi⟩
      · have hinv := recordInv_run license tid sched m
        have hlt := debt_step_lt license tid hinv.order
          (hinv.waits_mem hm.1) hi
        rw [← pool_recordedStep, ← hact] at hlt
        rcases hstep m hm with hdone | ⟨⟨-, heq⟩, -⟩
        · exact hdone
        · exact absurd (heq.trans hm.2.symm) hlt.ne
    exact hleads n ⟨⟨hn, hdebt⟩, hi⟩
  · let Free (y : Recorded ι) : Prop :=
      (y.Waits k t ∧ y.pool.debt k = w) ∧ ∀ i, (y.pool.pc i).locks ≠ some k
    have hleads : LeadsTo x Free Nearer := by
      refine leadsTo_ensures hfair.storage (fun m ⟨hm, hfree⟩ => ?_)
        fun m ⟨hm, hfree⟩ ⟨reply, hact⟩ => .inl ?_
      · rcases hstep m hm with hdone | ⟨hm', hsame⟩
        · exact .inr hdone
        · exact .inl ⟨hm', fun i hi => hfree i ((hsame i).mp hi)⟩
      · have hnext := waits_free license tid (locked_run license tid sched m) hm.1 hfree reply
        rwa [← hact] at hnext
    exact hleads n ⟨⟨hn, hdebt⟩, fun i hi => hheld ⟨i, hi⟩⟩

/-! ## The pass of `storage_main` -/

/-- The steps the storage thread spends on the packet it is at, unless it has to wait. -/
def StoragePc.left : StoragePc → Nat
  | check _ => 7
  | attempt _ => 6
  | fetchLock _ => 5
  | fetchState _ => 4
  | fetchUnlock _ _ => 3
  | send _ => 2
  | markDone _ => 1
  | next _ | idle | loadHead => 0

namespace Recorded

/-- The pass is at a packet. -/
def Passing (x : Recorded ι) : Prop := ∃ r, x.pool.storage.passes = some r

def passLeft (x : Recorded ι) : Nat :=
  8 * (x.pass.known.length - x.pass.seen.length) + x.pool.storage.left

end Recorded

section pass

variable {x : Recorded ι}

/-- A step of the pass that is no wait brings it closer to its end: what was known when it
began bounds what it can still come to. -/
theorem pass_step (h : RecordInv x) (hpassing : x.Passing)
    (hlock : ∀ k, x.pool.storage ≠ .fetchLock k) (reply : Reply) :
    let y := recordedStep license tid x (.storage reply)
    y.pool.storage = .idle ∨ y.Passing ∧ y.passLeft < x.passLeft := by
  intro y
  have hinv : RecordInv y := (recordInv_storage h reply).1
  have hseen := hinv.pass.seen.length_le
  simp only [Recorded.passLeft, Recorded.Passing, y, recordedStep, poolStep, storageStep]
    at hseen ⊢
  obtain ⟨r, hr⟩ := hpassing
  cases hst : x.pool.storage with
  | idle | loadHead =>
    rw [hst] at hr
    cases hr
  | fetchLock k => exact absurd hst (hlock k)
  | check r' =>
    dsimp only
    split <;> exact .inr ⟨⟨r', rfl⟩, by simp [StoragePc.left]⟩
  | attempt r' | fetchState r' | markDone r' => exact .inr ⟨⟨r', rfl⟩, by simp [StoragePc.left]⟩
  | fetchUnlock r' ready =>
    cases ready with
    | true => exact .inr ⟨⟨r', rfl⟩, by simp [StoragePc.left]⟩
    | false => exact .inl rfl
  | send r' =>
    dsimp only
    split
    · exact .inr ⟨⟨r', rfl⟩, by simp [StoragePc.left]⟩
    · exact .inl rfl
  | next r' =>
    rw [hst] at hseen
    dsimp only at hseen ⊢
    cases hnext : (x.pool.heap r').next with
    | none => exact .inl rfl
    | some r'' =>
      have hmove : (x.pass.move (x.pool.next r')).seen = x.pass.seen ++ [r''] := by
        rw [Traversal.move, Pool.next, hnext]
        rfl
      rw [hmove, List.length_append, List.length_singleton] at hseen
      refine .inr ⟨⟨r'', rfl⟩, ?_⟩
      rw [hmove, List.length_append, List.length_singleton]
      simp only [Traversal.move, StoragePc.left] at hseen ⊢
      omega

/-- The first packet of the pass, if there is one. -/
theorem pass_begins (hst : x.pool.storage = .loadHead) (reply : Reply) :
    let y := recordedStep license tid x (.storage reply)
    y.pool.storage = .idle ∨ y.Passing := by
  simp only [Recorded.Passing, recordedStep, poolStep, storageStep, hst]
  cases x.pool.head with
  | none => exact .inl rfl
  | some r => exact .inr ⟨r, rfl⟩

end pass

theorem passing_leadsTo [Fintype ι] (hfair : Fair sched) :
    LeadsTo (recordedRun license tid sched) Recorded.Passing (fun x => x.pool.storage = .idle) := by
  refine leadsTo_measure Recorded.passLeft fun w n ⟨hn, hleft⟩ => ?_
  let x := recordedRun license tid sched
  let Nearer (y : Recorded ι) : Prop :=
    y.pool.storage = .idle ∨ y.Passing ∧ y.passLeft < w
  by_cases hlock : ∃ k, (x n).pool.storage = .fetchLock k
  · obtain ⟨k, hk⟩ := hlock
    obtain ⟨m, hnm, hst, hpass⟩ := waits_leadsTo license tid hfair k
      (x n).pass n ⟨hk, rfl⟩
    refine ⟨m, hnm, .inr ⟨⟨k, by rw [hst]; rfl⟩, ?_⟩⟩
    rw [← hleft, Recorded.passLeft, Recorded.passLeft, hst, hpass, hk]
    exact Nat.add_lt_add_left (Nat.lt_succ_self 4) _
  · let Here (y : Recorded ι) : Prop :=
      y.pool.storage = (x n).pool.storage ∧ y.pass = (x n).pass
    have hpassing {y : Recorded ι} (hy : Here y) : y.Passing := by rwa [Recorded.Passing, hy.1]
    have hleads : LeadsTo x Here Nearer := by
      refine leadsTo_of_stays hfair.storage (fun m hm hact => ?_) fun m hm ⟨reply, hact⟩ => ?_
      · have hst : (x m).pool.storage ≠ .idle := by
          obtain ⟨r, hr⟩ := hpassing hm
          intro he
          rw [he] at hr
          cases hr
        obtain ⟨hst', hpass'⟩ := storage_other license tid (fun reply he => hact ⟨reply, he⟩) hst
        exact ⟨hst'.trans hm.1, hpass'.trans hm.2⟩
      · have hnext := pass_step license tid (recordInv_run license tid sched m)
          (hpassing hm) (fun k hk => hlock ⟨k, hm.1 ▸ hk⟩) reply
        have hleft' : (x m).passLeft = w := by
          rw [← hleft, Recorded.passLeft, Recorded.passLeft, hm.1, hm.2]
        rwa [← hact, hleft'] at hnext
    exact hleads n ⟨rfl, rfl⟩

/-- Every pass ends. -/
theorem pass_leadsTo [Fintype ι] (hfair : Fair sched) :
    LeadsTo (recordedRun license tid sched) (fun _ => True) (fun x => x.pool.storage = .idle) := by
  let x := recordedRun license tid sched
  have hbegin : LeadsTo x (fun y => y.pool.storage = .loadHead)
      (fun y => y.pool.storage = .idle ∨ y.Passing) := by
    refine leadsTo_of_stays hfair.storage (fun m hm hact => ?_) fun m hm ⟨reply, hact⟩ => ?_
    · obtain ⟨hst, -⟩ := storage_other license tid
        (fun reply he => hact ⟨reply, he⟩) (hm.trans_ne nofun)
      exact hst.trans hm
    · have hnext := pass_begins license tid hm reply
      rwa [← hact] at hnext
  intro n _
  cases hst : (x n).pool.storage with
  | idle => exact ⟨n, le_rfl, hst⟩
  | loadHead => exact hbegin.cancel (passing_leadsTo license tid hfair) n hst
  | check r | attempt r | fetchLock r | fetchState r | fetchUnlock r ready | send r
  | markDone r | next r => exact passing_leadsTo license tid hfair n ⟨r, by rw [hst]; rfl⟩

/-! ## The scan of `get_packet` -/

/-- In the loop of `get_packet`. -/
def PluginPc.InScan : PluginPc → Prop
  | scanHead _ | scanCas _ _ | scanNext _ _ => True
  | _ => False

/-- Behind the loop of `get_packet`, with a packet that was DONE or without one. -/
def PluginPc.Scanned : PluginPc → Prop
  | recycle _ _ | alloc _ => True
  | _ => False

/-- The steps thread `i` can still spend in the loop once it has loaded `packets`. -/
def Recorded.scanLeft (x : Recorded ι) (i : ι) : Nat :=
  2 * ((x.scans i).known.length - (x.scans i).seen.length) +
    match x.pool.pc i with
    | .scanCas _ _ => 1
    | _ => 0

section scan

variable {x : Recorded ι}

/-- A thread in the loop stays where it is while others act. -/
theorem scan_other {act : PoolAct ι} (hact : act ≠ .plugin i) (hpc : (x.pool.pc i).InScan) :
    ((recordedStep license tid x act).pool.pc i) = x.pool.pc i ∧
      (recordedStep license tid x act).scans i = x.scans i := by
  cases act with
  | call j c =>
    refine ⟨?_, rfl⟩
    simp only [recordedStep, poolStep]
    cases hj : x.pool.pc j with
    | idle =>
      have hij : i ≠ j := by
        rintro rfl
        rw [hj] at hpc
        exact hpc
      simp [Pool.setPc, hij]
    | _ => rfl
  | plugin j =>
    have hij : i ≠ j := by
      rintro rfl
      exact hact rfl
    refine ⟨pluginStep_pc_of_ne hij, ?_⟩
    simp [recordedStep, hij]
  | pass =>
    refine ⟨?_, rfl⟩
    simp only [recordedStep, poolStep]
    cases x.pool.storage <;> rfl
  | storage reply => exact ⟨congrFun (sameList_storage x.pool reply).pc i, rfl⟩

/-- The scan of thread `i` is at a packet. -/
def Recorded.Scanning (i : ι) (x : Recorded ι) : Prop := ∃ r, (x.pool.pc i).scans = some r

omit [DecidableEq ι] in
theorem Recorded.Scanning.inScan (h : x.Scanning i) : (x.pool.pc i).InScan := by
  obtain ⟨r, hr⟩ := h
  cases hpc : x.pool.pc i with
  | scanCas | scanNext => trivial
  | _ =>
    rw [hpc] at hr
    cases hr

/-- Every step of a scan brings it closer to its end: what was known when it began bounds
what it can still come to. -/
theorem scan_step (h : RecordInv x) (hscanning : x.Scanning i) :
    let y := recordedStep license tid x (.plugin i)
    (y.pool.pc i).Scanned ∨ y.Scanning i ∧ y.scanLeft i < x.scanLeft i := by
  intro y
  have hinv : RecordInv y := (recordInv_plugin h i).1
  have hseen := (hinv.scans i).seen.length_le
  have hscans : y.scans i = x.scan i := by simp only [y, recordedStep, Function.update_self]
  have hpool : y.pool = pluginStep license tid x.pool i := rfl
  rw [hscans] at hseen
  rw [Recorded.Scanning, Recorded.scanLeft, Recorded.scanLeft, hscans]
  obtain ⟨r, hr⟩ := hscanning
  cases hpc : x.pool.pc i with
  | scanCas c r' =>
    have hscan : x.scan i = x.scans i := by rw [Recorded.scan, hpc]
    have hnext : y.pool.pc i = .recycle c r' ∨ y.pool.pc i = .scanNext c r' := by
      rw [hpool, pluginStep, hpc]
      dsimp only
      split <;> rw [Pool.pc_setPc_self]
      · exact .inl rfl
      · exact .inr rfl
    rcases hnext with hnext | hnext
    · rw [hnext]
      exact .inl trivial
    · rw [hnext, hscan]
      exact .inr ⟨⟨r', rfl⟩, Nat.lt_succ_self _⟩
  | scanNext c r' =>
    have hscan : x.scan i = (x.scans i).move (x.pool.next r') := by rw [Recorded.scan, hpc]
    cases hn : x.pool.next r' with
    | none =>
      have hnext : y.pool.pc i = .alloc c := by
        rw [Pool.next] at hn
        rw [hpool, pluginStep, hpc]
        dsimp only
        rw [Pool.pc_setPc_self, hn]
      rw [hnext]
      exact .inl trivial
    | some r'' =>
      have hnext : y.pool.pc i = .scanCas c r'' := by
        rw [Pool.next] at hn
        rw [hpool, pluginStep, hpc]
        dsimp only
        rw [Pool.pc_setPc_self, hn]
      refine .inr ⟨⟨r'', by rw [hnext]; rfl⟩, ?_⟩
      rw [hn] at hscan
      rw [hscan] at hseen ⊢
      rw [hnext]
      simp only [Traversal.move, Option.toList_some, List.length_append, List.length_singleton]
        at hseen ⊢
      omega
  | _ =>
    rw [hpc] at hr
    cases hr

theorem scan_begins {c : GatherCall} (hpc : x.pool.pc i = .scanHead c) :
    let y := recordedStep license tid x (.plugin i)
    (y.pool.pc i).Scanned ∨ y.Scanning i := by
  simp only [Recorded.Scanning, recordedStep, poolStep, pluginStep, hpc]
  rw [Pool.pc_setPc_self]
  cases x.pool.head with
  | none => exact .inl trivial
  | some r => exact .inr ⟨r, rfl⟩

end scan

theorem scanning_leadsTo (hoften : Often sched (· = .plugin i)) :
    LeadsTo (recordedRun license tid sched) (Recorded.Scanning i)
      (fun x => (x.pool.pc i).Scanned) := by
  refine leadsTo_measure (Recorded.scanLeft · i) fun w => ?_
  let x := recordedRun license tid sched
  refine leadsTo_of_stays hoften (fun m hm hact => ?_) fun m hm hact => ?_
  · obtain ⟨hpc, hscans⟩ := scan_other license tid (x := x m) hact hm.1.inScan
    refine ⟨?_, ?_⟩
    · change ∃ r, ((recordedStep license tid (x m) (sched m)).pool.pc i).scans = some r
      rw [hpc]
      exact hm.1
    · rw [← hm.2]
      change (recordedStep license tid (x m) (sched m)).scanLeft i = (x m).scanLeft i
      rw [Recorded.scanLeft, Recorded.scanLeft, hpc, hscans]
  · have hnext := scan_step license tid (recordInv_run license tid sched m) hm.1
    rwa [← hact, hm.2] at hnext

/-- Every scan ends. -/
theorem scan_leadsTo (hoften : Often sched (· = .plugin i)) :
    LeadsTo (recordedRun license tid sched) (fun x => (x.pool.pc i).InScan)
      (fun x => (x.pool.pc i).Scanned) := by
  let x := recordedRun license tid sched
  have hbegin (c : GatherCall) : LeadsTo x (fun y => y.pool.pc i = .scanHead c)
      (fun y => (y.pool.pc i).Scanned ∨ y.Scanning i) := by
    refine leadsTo_of_stays hoften (fun m hm hact => ?_) fun m hm hact => ?_
    · obtain ⟨hpc, -⟩ := scan_other license tid (x := x m) hact (by rw [hm]; trivial)
      exact hpc.trans hm
    · have hnext := scan_begins license tid hm
      rwa [← hact] at hnext
  intro n hn
  cases hpc : (x n).pool.pc i with
  | scanHead c => exact (hbegin c).cancel (scanning_leadsTo license tid hoften) n hpc
  | scanCas c r | scanNext c r =>
    exact scanning_leadsTo license tid hoften n ⟨r, by rw [hpc]; rfl⟩
  | _ =>
    rw [hpc] at hn
    exact hn.elim

/-- In every interleaving, racing pushes included: a published packet keeps its `next`, which
leads to packets published earlier, so the list from any value of `packets` is acyclic; the
loops of `get_packet` and `storage_main` come to no packet twice, and they end. -/
theorem traversals_end (license : Text) (tid : ι → UInt64) (sched : Nat → PoolAct ι) :
    let x := recordedRun license tid sched
    (∀ n, (x n).pool = stateAt (poolStep license tid) Pool.start sched n ∧ OrderSafe (x n)) ∧
    (∀ m n, m ≤ n → (x m).Keeps (x n)) ∧
    (∀ i, Often sched (· = .plugin i) →
      LeadsTo x (fun y => (y.pool.pc i).InScan) fun y => (y.pool.pc i).Scanned) ∧
    (Finite ι → Fair sched → LeadsTo x (fun _ => True) fun y => y.pool.storage = .idle) := by
  refine ⟨fun n => ⟨pool_run license tid sched n, (recordInv_run license tid sched n).safe⟩,
    fun m n hmn => keeps_run license tid hmn, fun i => scan_leadsTo license tid, ?_⟩
  intro hfinite
  cases nonempty_fintype ι
  exact pass_leadsTo license tid

/-- The pushes that race, the start of a pass, and then every thread in turn. -/
def racingPushes (n : Nat) : PoolAct (Fin 4) :=
  match (lostPush ++ [PoolAct.pass])[n]? with
  | some act => act
  | none => if h : n % 5 < 4 then .plugin ⟨n % 5, h⟩ else .storage ⟨[], true, 200⟩

theorem racingPushes_of_le {n : Nat} (h : 39 ≤ n) : racingPushes n =
    if h : n % 5 < 4 then .plugin ⟨n % 5, h⟩ else .storage ⟨[], true, 200⟩ := by
  have hlen : (lostPush ++ [PoolAct.pass]).length = 39 := by decide
  rw [racingPushes, List.getElem?_eq_none (hlen ▸ h)]

theorem fair_racingPushes : Fair racingPushes where
  plugin := by
    intro i n
    refine ⟨5 * (n + 39) + i, by omega, ?_⟩
    have hi : (5 * (n + 39) + i.val) % 5 = i.val := by omega
    rw [racingPushes_of_le (by omega)]
    simp [hi]
  storage := by
    intro n
    refine ⟨5 * (n + 39) + 4, by omega, ⟨[], true, 200⟩, ?_⟩
    rw [racingPushes_of_le (by omega), dif_neg (by omega)]

theorem traversals_end_racing :
    let x := recordedRun (str "L") (fun _ => 0) racingPushes
    (x 38).order = [3, 2, 1, 0] ∧ (x 38).pool.next 3 = some 1 ∧ (x 38).pool.next 2 = some 1 ∧
      OrderSafe (x 38) ∧ (x 18).Keeps (x 38) ∧
      (∃ m, 2 ≤ m ∧ ((x m).pool.pc 0).Scanned) ∧
      (x 39).pool.storage = .loadHead ∧ ∃ m, 39 ≤ m ∧ (x m).pool.storage = .idle := by
  intro x
  obtain ⟨hsafe, hkeeps, hscan, hpass⟩ :=
    traversals_end (str "L") (fun _ => 0) racingPushes
  have hbegins : ((x 2).pool.pc 0).InScan := by
    change PluginPc.InScan (.scanHead _)
    trivial
  refine ⟨by decide, by decide, by decide, (hsafe 38).2, hkeeps 18 38 (by omega), ?_,
    by decide, ?_⟩
  · exact hscan 0 (fair_racingPushes.plugin 0) 2 hbegins
  · exact hpass (Finite.of_fintype _) fair_racingPushes 39 trivial

end MonitoringAgent
