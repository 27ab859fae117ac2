import MonitoringAgent.Pool.Accounts
import MonitoringAgent.Pool.Arrival
import MonitoringAgent.Pool.Ledger

/-!
# A late call gives its packet up

A plugin that has a working packet takes no lock in `plugin_gather`. Its call comes to its
end whatever the other threads do, and if it reads a time late enough for what the packet
holds, the packet is READY or DONE then.
-/
namespace MonitoringAgent

open Buffer Command Transition Packet

variable {ι : Type} {m : Meta} {tid : ι → UInt64} {t t' : Traced ι} {i : ι} {r : Nat}
  {c : GatherCall} {zs : List (ι × GatherCall)}

/-- Plugin `i` is at `pc` of a call, `p->working` is `r`, and `zs` are the calls on it. -/
structure Traced.At (t : Traced ι) (i : ι) (pc : PluginPc) (r : Nat)
    (zs : List (ι × GatherCall)) : Prop where
  pc : t.pool.pc i = pc
  working : t.pool.working i = some r
  calls : (t.use r).calls = zs

/-- Plugin `i` has `prog` left of a call that settles its packet. -/
structure Traced.Settling (m : Meta) (tid : ι → UInt64) (t : Traced ι) (i : ι) (r : Nat)
    (prog : PacketM (GatherError × Bool)) : Prop where
  pc : t.pool.pc i = .body r prog
  state : ((t.use r).packet m.license tid).state.Settled

/-! ## What the others leave alone -/

theorem Traced.actor_of_begun {act : PoolAct ι} {z : ι × GatherCall} (h : t.begun act = some z) :
    act = .plugin z.1 := by
  cases act with
  | plugin j =>
    cases hpc : t.pool.pc j with
    | loadWorking c' =>
      rw [Traced.begun, hpc] at h
      obtain ⟨r', -, rfl⟩ := Option.map_eq_some_iff.mp h
      rfl
    | _ =>
      rw [Traced.begun, hpc] at h
      cases h
  | call j c' | pass | storage reply => cases h

theorem Use.packet_congr {u u' : Use ι} (hbase : u'.base = u.base) (hcalls : u'.calls = u.calls) :
    u'.packet m.license tid = u.packet m.license tid := by
  rw [Use.packet, Use.packet, hbase, hcalls]

theorem Use.base_noted (u : Use ι) (pkt : Packet) (o : PacketOp) :
    (u.noted pkt o).base = u.base := by
  unfold Use.noted
  split <;> rfl

/-- The calls on a packet that plugin `i` holds come from plugin `i` only. -/
theorem Histories.kept {e : Option (Use ι)} {b : Option (ι × GatherCall)}
    {d : Option (Packet × Use ι)} (hstep : Histories t t' e b d) (h : PoolInv m tid t)
    (hi : t.pool.Fills i r) (hb : ∀ c, b ≠ some (i, c)) :
    (t'.use r).calls = (t.use r).calls ∧ (t'.use r).base = (t.use r).base := by
  have hheld : Held m tid i (t.pool.pkt r) (t.use r) (t.pool.hold i) := h.view.held i r hi
  have hupdate (r' : Nat) (u : Use ι) (hu : r = r' → u.calls = (t.use r).calls ∧
      u.base = (t.use r).base) :
      (Function.update t.use r' u r).calls = (t.use r).calls ∧
        (Function.update t.use r' u r).base = (t.use r).base :=
    update_holds (P := fun u : Use ι => u.calls = (t.use r).calls ∧ u.base = (t.use r).base) hu
      fun _ => ⟨rfl, rfl⟩
  cases hstep with
  | same hcount huse => rw [huse]; exact ⟨rfl, rfl⟩
  | taken j r' hdone hcount huse =>
    rw [huse]
    refine hupdate r' _ fun he => ?_
    subst he
    have hopen := hheld.isOpen
    rw [hdone] at hopen
    exact hopen.elim
  | fresh j hcount huse =>
    rw [huse]
    refine hupdate _ _ fun he => ?_
    have hlt : r < t.pool.count := h.view.alloc r (by
      rw [Traced.view, hheld.owner]
      exact Option.some_ne_none i)
    omega
  | called j r' c' hrest hcount huse =>
    rw [huse]
    refine hupdate r' _ fun he => ?_
    subst he
    obtain rfl : i = j := h.view.exclusive hi (congrArg Hold.cell hrest)
    exact absurd rfl (hb c')
  | noted j r' o hfills hcount huse =>
    rw [huse]
    refine hupdate r' _ fun he => ?_
    subst he
    exact ⟨Use.calls_noted _ _ _, Use.base_noted _ _ _⟩
  | posted r' hsend hcount huse =>
    rw [huse]
    refine hupdate r' _ fun he => ?_
    subst he
    exact ⟨rfl, rfl⟩

variable [DecidableEq ι]

theorem pluginStep_working_of_ne (license : Text) (tid : ι → UInt64) (s : Pool ι) {i j : ι}
    (hji : j ≠ i) : (pluginStep license tid s i).working j = s.working j := by
  have hset (w : Option Nat) : (s.setWorking i w).working j = s.working j :=
    Function.update_of_ne hji _ _
  simp only [pluginStep]
  cases s.pc i with
  | scanCas c r | casHead c r | loadLock c r | acquire c r k | loadWorking c =>
    dsimp only
    split <;> rfl
  | body r prog => cases prog <;> rfl
  | setWorking c r | clearWorking => exact hset _
  | _ => rfl

omit [DecidableEq ι] in
theorem storageStep_working (s : Pool ι) (reply : Reply) :
    (storageStep s reply).working = s.working := by
  simp only [storageStep]
  cases s.storage with
  | fetchLock r =>
    dsimp only
    split <;> rfl
  | _ => rfl

theorem poolStep_other (license : Text) (tid : ι → UInt64) {s : Pool ι} {act : PoolAct ι}
    (hact : act ≠ .plugin i) (hpc : s.pc i ≠ .idle) :
    (poolStep license tid s act).pc i = s.pc i ∧
      (poolStep license tid s act).working i = s.working i := by
  cases act with
  | call j c =>
    simp only [poolStep]
    cases hj : s.pc j with
    | idle =>
      have hij : i ≠ j := by
        rintro rfl
        exact hpc hj
      exact ⟨Function.update_of_ne hij _ _, rfl⟩
    | _ => exact ⟨rfl, rfl⟩
  | plugin j =>
    have hij : i ≠ j := by
      rintro rfl
      exact hact rfl
    exact ⟨pluginStep_pc_of_ne hij, pluginStep_working_of_ne license tid s hij⟩
  | pass =>
    simp only [poolStep]
    cases s.storage <;> exact ⟨rfl, rfl⟩
  | storage reply =>
    exact ⟨congrFun (sameList_storage s reply).pc i, congrFun (storageStep_working s reply) i⟩

/-- The others leave the call and its packet as they are. -/
theorem tracedStep_other (h : PoolInv m tid t) {act : PoolAct ι} (hact : act ≠ .plugin i)
    (hpc : t.pool.pc i ≠ .idle) (hi : t.pool.Fills i r) :
    let t' := tracedStep m.license tid t act
    t'.pool.pc i = t.pool.pc i ∧ t'.pool.working i = t.pool.working i ∧
      (t'.use r).calls = (t.use r).calls ∧ (t'.use r).base = (t.use r).base := by
  intro t'
  obtain ⟨hpc', hworking⟩ := poolStep_other m.license tid hact hpc
  refine ⟨hpc', hworking, ?_⟩
  refine (histories_step m.license tid t act).kept h hi fun c hc => ?_
  exact hact (Traced.actor_of_begun hc)

/-! ## The call comes to its end -/

section run

variable {sched : Nat → PoolAct ι} {prog : PacketM (GatherError × Bool)}

omit [DecidableEq ι] in
theorem Traced.At.rest {pc : PluginPc} (h : t.At i pc r zs) (hpc : pc.hold (some r) = .rest r) :
    t.pool.hold i = .rest r := by
  rw [Pool.hold, h.pc, h.working, hpc]

theorem Traced.At.other {pc : PluginPc} (h : t.At i pc r zs) (hinv : PoolInv m tid t)
    {act : PoolAct ι} (hact : act ≠ .plugin i) (hpc : pc ≠ .idle)
    (hrest : pc.hold (some r) = .rest r) : (tracedStep m.license tid t act).At i pc r zs := by
  have hi : t.pool.Fills i r := congrArg Hold.cell (h.rest hrest)
  obtain ⟨hpc', hworking, hcalls, -⟩ := tracedStep_other hinv hact (h.pc ▸ hpc) hi
  exact ⟨hpc'.trans h.pc, hworking.trans h.working, hcalls.trans h.calls⟩

omit [DecidableEq ι] in
theorem hold_of_idle (hidle : t.pool.pc i = .idle) (hfills : t.pool.Fills i r) :
    t.pool.working i = some r ∧ t.pool.hold i = .rest r := by
  have hhold : t.pool.hold i = PluginPc.idle.hold (t.pool.working i) := by rw [Pool.hold, hidle]
  rw [Pool.Fills, hhold] at hfills
  cases hw : t.pool.working i with
  | none =>
    rw [hw] at hfills
    cases hfills
  | some r' =>
    rw [hw] at hfills
    obtain rfl : r' = r := Option.some.inj hfills
    exact ⟨rfl, hhold.trans (by rw [hw]; rfl)⟩

theorem Traced.at_of_call (license : Text) (tid : ι → UInt64) (c : GatherCall)
    (hidle : t.pool.pc i = .idle) (hworking : t.pool.working i = some r) :
    (tracedStep license tid t (.call i c)).At i (.readWorking c) r (t.use r).calls where
  pc := by simp [tracedStep, poolStep, hidle, Pool.setPc]
  working := by simp [tracedStep, poolStep, hidle, Pool.setPc, hworking]
  calls := rfl

/-- `if(!p->working)` finds the packet. -/
theorem Traced.At.loads (license : Text) (tid : ι → UInt64)
    (h : t.At i (.readWorking c) r zs) :
    (tracedStep license tid t (.plugin i)).At i (.loadWorking c) r zs where
  pc := by simp [tracedStep, poolStep, pluginStep, h.pc, h.working, Pool.setPc]
  working := by simp [tracedStep, poolStep, pluginStep, h.pc, h.working, Pool.setPc]
  calls := by simp [tracedStep, Traced.note, h.pc, h.calls]

/-- `pkt = p->working` begins the call on the packet. -/
theorem Traced.At.begins (license : Text) (tid : ι → UInt64)
    (h : t.At i (.loadWorking c) r zs) :
    let t' := tracedStep license tid t (.plugin i)
    t'.pool.pc i = .body r (gatherBody license (tid i) c) ∧
      t'.use r = (t.use r).called i c := by
  refine ⟨?_, ?_⟩
  · simp [tracedStep, poolStep, pluginStep, h.pc, h.working, Pool.setPc]
  · simp [tracedStep, Traced.note, h.pc, h.working]

/-- A late call will have settled its packet. -/
theorem Traced.At.settles (h : t.At i (.loadWorking c) r zs) (hinv : PoolInv m tid t)
    (hfit : FitsAll m.license (tid i) none (zs.map Prod.snd ++ [c]))
    (hlate : expired (startOf (inUseAfter (zs.map Prod.snd)) c) c.now = true) :
    (tracedStep m.license tid t (.plugin i)).Settling m tid i r
      (gatherBody m.license (tid i) c) := by
  obtain ⟨hpkt, hatrest⟩ := (hinv.held_rest (h.rest rfl)).content
  rw [hpkt, h.calls] at hatrest
  obtain ⟨hpc, huse⟩ := h.begins m.license tid
  refine ⟨hpc, ?_⟩
  obtain ⟨hflag, -⟩ := gatherBody_left hatrest hfit
  obtain ⟨-, hstate⟩ := gatherBody_states hatrest c
  rw [huse, Use.packet_called, hstate, hflag, hlate, if_pos rfl]
  split
  · exact .inr rfl
  · exact .inl rfl

omit [DecidableEq ι] in
theorem Traced.Settling.held (h : t.Settling m tid i r prog) (hinv : PoolInv m tid t) :
    t.pool.hold i = .busy r prog ∧
      (prog.exec Packet.effects (t.pool.pkt r)).2 = (t.use r).packet m.license tid := by
  have hbusy : t.pool.hold i = .busy r prog := by rw [Pool.hold, h.pc]; rfl
  have hheld := hinv.held (congrArg Hold.cell hbusy)
  rw [hbusy] at hheld
  exact ⟨hbusy, hheld.content.2.1⟩

theorem Traced.Settling.other (h : t.Settling m tid i r prog) (hinv : PoolInv m tid t)
    {act : PoolAct ι} (hact : act ≠ .plugin i) :
    (tracedStep m.license tid t act).Settling m tid i r prog := by
  obtain ⟨hbusy, -⟩ := h.held hinv
  have hpc : t.pool.pc i ≠ .idle := by simp [h.pc]
  obtain ⟨hpc', -, hcalls, hbase⟩ := tracedStep_other hinv hact hpc (congrArg Hold.cell hbusy)
  exact ⟨hpc'.trans h.pc, by rw [Use.packet_congr hbase hcalls]; exact h.state⟩

/-- Each statement leaves less of the call, until the packet is as the call leaves it. -/
theorem Traced.Settling.op {o : PacketOp} {k : o.Answer → PacketM (GatherError × Bool)}
    (h : t.Settling m tid i r (.op o k)) (hinv : PoolInv m tid t) :
    let t' := tracedStep m.license tid t (.plugin i)
    (t'.pool.pkt r).state.Settled ∨ ∃ a, t'.Settling m tid i r (k a) := by
  intro t'
  obtain ⟨-, hexec⟩ := h.held hinv
  have hpc : t'.pool.pc i = .resume r (k ((t.pool.pkt r).answer o)) := by
    simp [t', tracedStep, poolStep, pluginStep, h.pc, Pool.setPc, Pool.pkt]
  have hpkt : t'.pool.pkt r = (t.pool.pkt r).next o := by
    simp [t', tracedStep, poolStep, pluginStep, h.pc, Pool.setPc, Pool.pkt, Pool.setPkt,
      Pool.setCell]
  have huse : t'.use r = (t.use r).noted ((t.pool.pkt r).next o) o := by
    simp [t', tracedStep, Traced.note, h.pc]
  have hstate : ((t'.use r).packet m.license tid).state.Settled := by
    rw [huse, Use.packet_congr (Use.base_noted _ _ _) (Use.calls_noted _ _ _)]
    exact h.state
  rw [exec_op] at hexec
  change ((k ((t.pool.pkt r).answer o)).exec Packet.effects ((t.pool.pkt r).next o)).2 = _ at hexec
  cases hk : k ((t.pool.pkt r).answer o) with
  | ret a =>
    rw [hk, exec_ret] at hexec
    left
    rw [hpkt]
    change (t.pool.pkt r).next o = _ at hexec
    rw [hexec]
    exact h.state
  | op o' k' =>
    right
    refine ⟨(t.pool.pkt r).answer o, ?_, hstate⟩
    rw [hpc, hk]
    rfl

/-! ## Runs -/

theorem settling_leadsTo (hoften : Often sched (· = .plugin i))
    (prog : PacketM (GatherError × Bool)) :
    LeadsTo (tracedRun m tid sched) (fun t => t.Settling m tid i r prog)
      (fun t => (t.pool.pkt r).state.Settled) := by
  induction prog with
  | ret a =>
    intro n h
    obtain ⟨-, hexec⟩ := h.held (poolInv_run n)
    refine ⟨n, le_rfl, ?_⟩
    rw [exec_ret] at hexec
    change (tracedRun m tid sched n).pool.pkt r = _ at hexec
    rw [hexec]
    exact h.state
  | op o k ih =>
    have hnext : LeadsTo (tracedRun m tid sched) (fun t => t.Settling m tid i r (.op o k))
        fun t => (t.pool.pkt r).state.Settled ∨ ∃ a, t.Settling m tid i r (k a) := by
      refine leadsTo_of_stays hoften (fun n h hact => h.other (poolInv_run n) hact)
        fun n h hact => ?_
      have hop := h.op (poolInv_run n)
      rwa [← hact] at hop
    refine hnext.cancel fun n h => ?_
    obtain ⟨a, ha⟩ := h
    exact ih a n ha

/-- A call on a working packet that reads a time late enough settles the packet. -/
theorem late_call_leadsTo (hoften : Often sched (· = .plugin i))
    (hfit : ∀ n r, ((tracedRun m tid sched n).use r).owner = some i →
      FitsAll m.license (tid i) none (((tracedRun m tid sched n).use r).calls.map Prod.snd))
    (hlate : expired (startOf (inUseAfter (zs.map Prod.snd)) c) c.now = true) :
    LeadsTo (tracedRun m tid sched) (fun t => t.At i (.readWorking c) r zs)
      (fun t => (t.pool.pkt r).state.Settled) := by
  let t := tracedRun m tid sched
  have hread : LeadsTo t (fun t => t.At i (.readWorking c) r zs)
      (fun t => t.At i (.loadWorking c) r zs) := by
    refine leadsTo_of_stays hoften (fun n h hact => ?_) fun n h hact => ?_
    · exact h.other (poolInv_run n) hact (by simp) rfl
    · have hloads := h.loads m.license tid
      rwa [← hact] at hloads
  have hload : LeadsTo t (fun t => t.At i (.loadWorking c) r zs)
      (fun t => t.Settling m tid i r (gatherBody m.license (tid i) c)) := by
    refine leadsTo_of_stays hoften (fun n h hact => ?_) fun n h hact => ?_
    · exact h.other (poolInv_run n) hact (by simp) rfl
    · have hinv : PoolInv m tid (t n) := poolInv_run n
      obtain ⟨-, huse⟩ := h.begins m.license tid
      have howner := (hinv.held_rest (h.rest rfl)).owner
      have hfits := hfit (n + 1) r
      change ((tracedStep m.license tid (t n) (sched n)).use r).owner = some i → FitsAll _ _ _
        (((tracedStep m.license tid (t n) (sched n)).use r).calls.map Prod.snd) at hfits
      rw [hact, huse, Use.called, h.calls, List.map_append] at hfits
      have hsettles := h.settles hinv (hfits howner) hlate
      rwa [← hact] at hsettles
  exact (hread.trans hload).trans (settling_leadsTo hoften _)

end run

end MonitoringAgent
