import MonitoringAgent.Lib.Fairness
import MonitoringAgent.Sender.Interleaving
import Mathlib.Data.Fin.Basic

/-!
# Handles are given back

The lock of a handle is a spin lock, so a thread may wait for it for ever; but whoever has
it returns, and as long as a thread waits some post by the same handle returns.
-/
namespace MonitoringAgent

open Buffer Transition

variable {ι : Type}

/-- The steps of a thread up to `sender[pkt->type].spin = 0`. -/
def PostPc.left : PostPc → Nat
  | setFields _ => 6
  | setData _ => 5
  | transmit _ => 4
  | receive _ => 3
  | getInfo _ _ => 2
  | unlock _ _ => 1
  | _ => 0

/-- Thread `j` sends a packet by the handle of type `t`. -/
def Called.Sends (x : Called ι) (t : PacketType) (j : ι) (r : Nat) : Prop :=
  (x.senders.pc j).sending = some r ∧ (x.senders.pkt r).type = t

/-- Thread `j` has sent a packet by the handle of type `t` and is about to return. -/
def Called.Returns (x : Called ι) (t : PacketType) (j : ι) (r : Nat) : Prop :=
  (∃ ok, x.senders.pc j = .ret r ok) ∧ (x.senders.pkt r).type = t

/-- The step is one of thread `i`. -/
def SenderAct.By (i : ι) : SenderAct ι → Prop
  | .thread j _ => j = i
  | .post _ _ | .other _ _ | .otherSpin _ _ => False

variable [DecidableEq ι] {x : Called ι} {s : Senders ι} {act : SenderAct ι} {i j : ι} {r : Nat}
  {t : PacketType}

/-! ## One step -/

theorem type_postStep (s : Senders ι) (i : ι) (reply : Reply) (r : Nat) :
    ((postStep s i reply).pkt r).type = (s.pkt r).type := by
  have hset {k : Nat} {pkt : Packet} (ht : pkt.type = (s.pkt k).type) :
      (Function.update s.pkt k pkt r).type = (s.pkt r).type := by
    refine update_holds (P := fun pkt' : Packet => pkt'.type = (s.pkt r).type) (fun hr => ?_)
      fun _ => rfl
    rw [hr, ht]
  simp only [postStep]
  cases s.pc i with
  | attempt k => exact hset rfl
  | fetchLock k | lock k =>
    dsimp only
    split <;> rfl
  | receive k =>
    dsimp only
    split
    · exact hset rfl
    · rfl
  | _ => rfl

theorem type_step (hact : Apart x act) (hr : (x.senders.pc i).addr = some r) :
    ((calledStep x act).senders.pkt r).type = (x.senders.pkt r).type := by
  cases act with
  | thread j reply => exact type_postStep x.senders j reply r
  | post j k =>
    simp only [calledStep, senderStep]
    split <;> rfl
  | other k pkt =>
    have hne : r ≠ k := by
      rintro rfl
      exact hact i hr
    exact congrArg Packet.type (Function.update_of_ne hne _ _)
  | otherSpin k spin => rfl

theorem pc_postStep_of_ne {reply : Reply} (hji : j ≠ i) : (postStep s i reply).pc j = s.pc j := by
  have hset (pc : PostPc) : Function.update s.pc i pc j = s.pc j := Function.update_of_ne hji _ _
  simp only [postStep]
  cases s.pc i with
  | idle => rfl
  | fetchLock r | lock r =>
    dsimp only
    split
    · rfl
    · exact hset _
  | receive r =>
    dsimp only
    split <;> exact hset _
  | _ => exact hset _

/-- A thread in `post` is moved by its own steps only. -/
theorem pc_step_of_not_by (hact : Apart x act) (hi : x.senders.pc i ≠ .idle) (hby : ¬ act.By i) :
    (calledStep x act).senders.pc i = x.senders.pc i := by
  cases act with
  | thread j reply => exact pc_postStep_of_ne fun hij => hby hij.symm
  | post j k =>
    obtain ⟨hidle, -⟩ := hact
    have hij : i ≠ j := by
      rintro rfl
      exact hi hidle
    simp only [calledStep, senderStep, hidle]
    exact Function.update_of_ne hij _ _
  | other k pkt | otherSpin k spin => rfl

/-- The thread that has the lock comes one step closer to its return. -/
theorem sending_postStep (h : (s.pc i).sending = some r) (reply : Reply) :
    (∃ ok, (postStep s i reply).pc i = .ret r ok) ∨
      ((postStep s i reply).pc i).sending = some r ∧
        ((postStep s i reply).pc i).left < (s.pc i).left := by
  have hself (pc : PostPc) : Function.update s.pc i pc i = pc := Function.update_self _ _ _
  have hgoes (pc : PostPc) (hpc : (postStep s i reply).pc i = pc) (hsend : pc.sending = some r)
      (hleft : pc.left < (s.pc i).left) :
      ((postStep s i reply).pc i).sending = some r ∧
        ((postStep s i reply).pc i).left < (s.pc i).left := by
    rw [hpc]
    exact ⟨hsend, hleft⟩
  cases hpc : s.pc i with
  | idle | attempt | fetchLock | fetchState | fetchUnlock | lock | ret =>
    rw [hpc] at h
    cases h
  | unlock k ok =>
    rw [hpc] at h
    obtain rfl : k = r := Option.some.inj h
    refine .inl ⟨ok, ?_⟩
    simp only [postStep, hpc]
    exact hself _
  | setFields k =>
    rw [hpc] at h hgoes
    refine .inr (hgoes (.setData k) ?_ h (Nat.lt_succ_self 5))
    simp only [postStep, hpc]
    exact hself _
  | setData k =>
    rw [hpc] at h hgoes
    refine .inr (hgoes (.transmit k) ?_ h (Nat.lt_succ_self 4))
    simp only [postStep, hpc]
    exact hself _
  | transmit k =>
    rw [hpc] at h hgoes
    refine .inr (hgoes (.receive k) ?_ h (Nat.lt_succ_self 3))
    simp only [postStep, hpc]
    exact hself _
  | receive k =>
    rw [hpc] at h hgoes
    obtain ⟨ok, hok⟩ : ∃ ok, (postStep s i reply).pc i = .getInfo k ok := by
      simp only [postStep, hpc]
      split
      · exact ⟨_, hself _⟩
      · exact ⟨_, hself _⟩
    exact .inr (hgoes (.getInfo k ok) hok h (Nat.lt_succ_self 2))
  | getInfo k curlOk =>
    rw [hpc] at h hgoes
    obtain ⟨ok, hok⟩ : ∃ ok, (postStep s i reply).pc i = .unlock k ok := by
      simp only [postStep, hpc]
      exact ⟨_, hself _⟩
    exact .inr (hgoes (.unlock k ok) hok h (Nat.lt_succ_self 1))

theorem PostPc.ne_idle {pc : PostPc} (h : pc.addr = some r) : pc ≠ .idle := by
  rintro rfl
  cases h

theorem sends_of_not_by (hact : Apart x act) (hby : ¬ act.By j) (h : x.Sends t j r) :
    (calledStep x act).Sends t j r ∧ (calledStep x act).senders.pc j = x.senders.pc j := by
  obtain ⟨hsend, htype⟩ := h
  have haddr := PostPc.addr_of_sending hsend
  have hpc := pc_step_of_not_by hact (PostPc.ne_idle haddr) hby
  exact ⟨⟨by rwa [hpc], (type_step hact haddr).trans htype⟩, hpc⟩

theorem sends_of_by (hact : Apart x act) (hby : act.By j) (h : x.Sends t j r) :
    (calledStep x act).Returns t j r ∨ (calledStep x act).Sends t j r ∧
      ((calledStep x act).senders.pc j).left < (x.senders.pc j).left := by
  obtain ⟨hsend, htype⟩ := h
  have htype' : ((calledStep x act).senders.pkt r).type = t :=
    (type_step hact (PostPc.addr_of_sending hsend)).trans htype
  cases act with
  | post | other | otherSpin => exact hby.elim
  | thread i reply =>
    obtain rfl : i = j := hby
    rcases sending_postStep hsend reply with ⟨ok, hret⟩ | ⟨hsend', hleft⟩
    · exact .inl ⟨⟨ok, hret⟩, htype'⟩
    · exact .inr ⟨⟨hsend', htype'⟩, hleft⟩

/-- A thread that finds the lock taken meets whoever has it; else it takes the lock. -/
theorem lock_step (hinv : CalledInv x) (hact : Apart x act) (hby : act.By i)
    (hpc : x.senders.pc i = .lock r) (htype : (x.senders.pkt r).type = t) :
    ∃ j r', (calledStep x act).Sends t j r' := by
  cases act with
  | post | other | otherSpin => exact hby.elim
  | thread k reply =>
    obtain rfl : k = i := hby
    cases hspin : (x.senders.handle r).spin with
    | true =>
      obtain ⟨j, r', hsend, htype'⟩ := hinv.held _ hspin
      have hjk : j ≠ k := by
        rintro rfl
        rw [hpc] at hsend
        cases hsend
      refine ⟨j, r', (sends_of_not_by hact (fun hk => hjk hk.symm) ⟨hsend, ?_⟩).1⟩
      rw [htype', htype]
    | false =>
      refine ⟨k, r, ?_, (type_step hact (by rw [hpc]; rfl)).trans htype⟩
      have htaken : (postStep x.senders k reply).pc k = .setFields r := by
        simp only [postStep, hpc, hspin]
        exact Function.update_self _ _ _
      exact congrArg PostPc.sending htaken

/-! ## Runs -/

/-- The run of the threads under a schedule. -/
def postRun (pkt : Nat → Packet) (sched : Nat → SenderAct ι) : Nat → Called ι :=
  stateAt calledStep (Called.start pkt) sched

variable {pkt : Nat → Packet} {sched : Nat → SenderAct ι}

theorem inv_postRun (hapart : ∀ n, Apart (postRun pkt sched n) (sched n)) (n : Nat) :
    CalledInv (postRun pkt sched n) := by
  induction n with
  | zero => exact inv_start pkt
  | succ n ih => exact inv_call ih (hapart n)

theorem sends_leadsTo (hapart : ∀ n, Apart (postRun pkt sched n) (sched n))
    (hfair : Often sched (SenderAct.By j)) (t : PacketType) (r : Nat) :
    LeadsTo (postRun pkt sched) (fun x => x.Sends t j r) fun x => x.Returns t j r := by
  refine leadsTo_measure (fun x => (x.senders.pc j).left) fun k => ?_
  refine leadsTo_of_stays hfair (fun n ⟨hsends, hleft⟩ hby => ?_) fun n ⟨hsends, hleft⟩ hby => ?_
  · obtain ⟨hstays, hpc⟩ := sends_of_not_by (hapart n) hby hsends
    exact ⟨hstays, (congrArg PostPc.left hpc).trans hleft⟩
  · rcases sends_of_by (hapart n) hby hsends with hret | ⟨hstays, hlt⟩
    · exact .inl hret
    · exact .inr ⟨hstays, hlt.trans_eq hleft⟩

theorem lock_leadsTo (hapart : ∀ n, Apart (postRun pkt sched n) (sched n))
    (hfair : Often sched (SenderAct.By i)) (t : PacketType) (r : Nat) :
    LeadsTo (postRun pkt sched)
      (fun x => x.senders.pc i = .lock r ∧ (x.senders.pkt r).type = t)
      fun x => ∃ j r', x.Sends t j r' := by
  refine leadsTo_of_stays hfair (fun n ⟨hpc, htype⟩ hby => ?_) fun n ⟨hpc, htype⟩ hby => ?_
  · have haddr : ((postRun pkt sched n).senders.pc i).addr = some r := by rw [hpc]; rfl
    have hstays := pc_step_of_not_by (hapart n) (PostPc.ne_idle haddr) hby
    exact ⟨hstays.trans hpc, (type_step (hapart n) haddr).trans htype⟩
  · exact lock_step (inv_postRun hapart n) (hapart n) hby hpc htype

/-- Under a schedule that keeps running the threads, whoever has the lock of a handle
returns, and while a thread waits for the lock, some post by the same handle returns. -/
theorem posts_return (pkt : Nat → Packet) (sched : Nat → SenderAct ι)
    (hfair : ∀ i, Often sched (SenderAct.By i))
    (hapart : ∀ n, Apart (postRun pkt sched n) (sched n)) (t : PacketType) :
    (∀ j r, LeadsTo (postRun pkt sched) (fun x => x.Sends t j r) fun x => x.Returns t j r) ∧
      ∀ i r, LeadsTo (postRun pkt sched)
        (fun x => x.senders.pc i = .lock r ∧ (x.senders.pkt r).type = t)
        fun x => ∃ j r', x.Returns t j r' := by
  refine ⟨fun j r => sends_leadsTo hapart (hfair j) t r, fun i r n hwaits => ?_⟩
  obtain ⟨m, hnm, j, r', hsends⟩ := lock_leadsTo hapart (hfair i) t r n hwaits
  obtain ⟨k, hmk, hret⟩ := sends_leadsTo hapart (hfair j) t r' m hsends
  exact ⟨k, hnm.trans hmk, j, r', hret⟩

/-- Both plugins register at the same time and then run in turns. -/
def inTurns (n : Nat) : SenderAct Bool :=
  if n = 0 then .post false 0
  else if n = 1 then .post true 1
  else .thread (n % 2 = 1) ⟨[], true, 202⟩

theorem posts_return_in_turns :
    let pkt := fun _ => { packetAlloc .register with state := .ready }
    ((postRun pkt inTurns 12).senders.pc true = .lock 1 ∧
      ((postRun pkt inTurns 12).senders.handle 1).spin = true) ∧
      ∃ m, 12 ≤ m ∧ ∃ j r, (postRun pkt inTurns m).Returns .register j r := by
  intro pkt
  have hthread (n : Nat) (hn : 2 ≤ n) : inTurns n = .thread (n % 2 = 1) ⟨[], true, 202⟩ := by
    rw [inTurns, if_neg (by omega), if_neg (by omega)]
  have hfair (i : Bool) : Often inTurns (SenderAct.By i) := by
    intro n
    refine ⟨2 * n + i.toNat + 2, by omega, ?_⟩
    rw [hthread _ (by omega)]
    cases i
    · exact decide_eq_false (by simp only [Bool.toNat_false]; omega)
    · exact decide_eq_true (by simp only [Bool.toNat_true]; omega)
  have hapart (n : Nat) : Apart (postRun pkt inTurns n) (inTurns n) := by
    rcases Nat.lt_or_ge n 2 with hn | hn
    · interval_cases n <;> decide
    · rw [hthread n hn]
      trivial
  refine ⟨by decide, ?_⟩
  exact (posts_return pkt inTurns hfair hapart .register).2 true 1 12 (by decide)

end MonitoringAgent
