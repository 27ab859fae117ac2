import MonitoringAgent.Gather.Use

/-!
# When a packet expires

`packet_expired` divides the elapsed milliseconds by `MSPS` as integers before it compares
them with 6.033, so that 6033 up to 6999 ms count as 6 seconds.
-/
namespace MonitoringAgent

open Buffer Command Transition Packet

variable {m : Meta} {p : Plugin} {pkt : Packet} {license : Text} {tid : UInt64}
  {cs : List GatherCall} {c : GatherCall} {started now : Epoch}

/-- The comparison, for a clock that does not go back. -/
theorem expired_iff (h : started ≤ now) :
    expired started now = true ↔ started.toNat + 7000 ≤ now.toNat := by
  have hle : started.toNat ≤ now.toNat := h
  rw [expired, decide_eq_true_iff, UInt64.toNat_div, UInt64.toNat_sub_of_le _ _ h]
  have hmsps : msps.toNat = 1000 := rfl
  rw [hmsps, packetExp]
  omega

/-! ## One call -/

/-- The packet of the calls `cs` between two calls: what the expiry looks at. -/
structure Packet.Timed (cs : List GatherCall) (pkt : Packet) : Prop where
  state : pkt.state = if cs = [] then .empty else if recordsOf cs = [] then .begin else .wrote
  started : ∀ r, (recordsOf cs).head? = some r → pkt.started = r.start

/-- The packet of a call after the switch. -/
def settled (license : Text) (tid : UInt64) (c : GatherCall) (pkt : Packet) : Packet :=
  ((settle c.emitted.2).exec Packet.effects
    ((gatherRecord license tid c).exec Packet.effects pkt).2).2

theorem Packet.Timed.opened (h : pkt.Timed cs) (license : Text) (tid : UInt64) (c : GatherCall) :
    (opened license tid c pkt).state = (if recordsOf cs = [] then .begin else .wrote) ∧
      (MonitoringAgent.opened license tid c pkt).started =
        if recordsOf cs = [] then c.start else pkt.started := by
  have hstate := h.state
  by_cases hcs : cs = []
  · subst hcs
    have hnone : recordsOf [] = [] := rfl
    have hempty : pkt.state = .empty := hstate
    rw [MonitoringAgent.opened, exec_stampStart, exec_writeHeader, if_pos hempty, if_pos rfl,
      if_pos hnone, if_pos hnone]
    exact ⟨rfl, rfl⟩
  · rw [if_neg hcs] at hstate
    have hempty : pkt.state ≠ .empty := by
      rw [hstate]
      split <;> simp
    rw [MonitoringAgent.opened, exec_stampStart, exec_writeHeader, if_neg hempty]
    by_cases hrs : recordsOf cs = []
    · rw [if_pos hrs] at hstate ⊢
      rw [if_pos hstate, if_pos hrs]
      exact ⟨hstate, rfl⟩
    · rw [if_neg hrs] at hstate ⊢
      have hbegin : pkt.state ≠ .begin := by
        rw [hstate]
        simp
      rw [if_neg hbegin, if_neg hrs]
      exact ⟨hstate, rfl⟩

/-- The start time belongs to the first record as soon as there is one. -/
theorem Packet.Timed.settled (h : pkt.Timed cs) (license : Text) (tid : UInt64) (c : GatherCall) :
    (settled license tid c pkt).Timed (cs ++ [c]) := by
  obtain ⟨hstate, hstarted⟩ := h.opened license tid c
  have hext := gatherRecord_extends_opened license tid c pkt
  have hcs : cs ++ [c] ≠ [] := by simp
  unfold MonitoringAgent.settled
  by_cases he : c.emitted.2 = .enone
  · rw [he, exec_settle_enone]
    have hrs : recordsOf (cs ++ [c]) ≠ [] := by simp [recordsOf_concat_eq_nil, he]
    refine ⟨?_, ?_⟩
    · dsimp only
      rw [if_neg hcs, if_neg hrs, hext.state, hstate]
      split
      · exact if_pos rfl
      · exact if_neg (by simp)
    · intro r hr
      change ((gatherRecord license tid c).exec Packet.effects pkt).2.started = _
      rw [hext.started, hstarted]
      rw [recordsOf_concat, GatherCall.record?, if_pos he] at hr
      by_cases hnone : recordsOf cs = []
      · rw [hnone] at hr
        rw [if_pos hnone, ← Option.some.inj hr]
      · rw [List.head?_append_of_ne_nil _ hnone] at hr
        rw [if_neg hnone]
        exact h.started r hr
  · have hsame : recordsOf (cs ++ [c]) = recordsOf cs := by
      rw [recordsOf_concat, GatherCall.record?, if_neg he, Option.toList_none, List.append_nil]
    rw [exec_settle_of_ne he]
    refine ⟨?_, ?_⟩
    · rw [if_neg hcs, hsame, ← hstate, ← hext.state]
      rfl
    · intro r hr
      rw [hsame] at hr
      have hrs : recordsOf cs ≠ [] := by
        intro hnone
        rw [hnone] at hr
        cases hr
      have hkept := hext.started.trans hstarted
      rw [if_neg hrs] at hkept
      exact hkept.trans (h.started r hr)

/-- The packet of a call at its end. -/
def closed (license : Text) (tid : UInt64) (c : GatherCall) (pkt : Packet) : Packet :=
  ((gatherBody license tid c).exec Packet.effects pkt).2

theorem exec_gatherBody_settled (license : Text) (tid : UInt64) (c : GatherCall) (pkt : Packet) :
    let s := settled license tid c pkt
    (gatherBody license tid c).exec Packet.effects pkt =
      ((c.emitted.2, expired s.started c.now),
        if expired s.started c.now then (retire.exec Packet.effects s).2 else s) := by
  simp only [gatherBody, exec_bind, exec_gatherRecord, pure_eq, exec_ret]
  rw [exec_expire]
  rfl

theorem started_closed (license : Text) (tid : UInt64) (c : GatherCall) (pkt : Packet) :
    (closed license tid c pkt).started = (settled license tid c pkt).started := by
  rw [closed, exec_gatherBody_settled]
  dsimp only
  split
  · rw [exec_retire]
    split <;> rfl
  · rfl

/-- The packet is READY at the end of a call if it has expired and has a record. -/
theorem closed_ready_iff (h : pkt.Timed cs) (license : Text) (tid : UInt64) (c : GatherCall) :
    (closed license tid c pkt).state = .ready ↔
      expired (settled license tid c pkt).started c.now = true ∧ recordsOf (cs ++ [c]) ≠ [] := by
  have hstate := (h.settled license tid c).state
  rw [if_neg (by simp)] at hstate
  rw [closed, exec_gatherBody_settled]
  dsimp only
  by_cases hexp : expired (settled license tid c pkt).started c.now = true
  · rw [if_pos hexp, exec_retire]
    by_cases hrs : recordsOf (cs ++ [c]) = []
    · rw [if_pos hrs] at hstate
      simp [hstate, hrs]
    · rw [if_neg hrs] at hstate
      simp [hstate, hrs, hexp]
  · rw [if_neg hexp, hstate]
    split <;> simp [hexp]

/-! ## Runs -/

/-- A turn of a plugin together with the calls on its working packet so far. -/
def gatherTurn (m : Meta) (x : Plugin × List GatherCall) : Turn → Plugin × List GatherCall
  | .gather c =>
    let p := (pluginGather m x.1 c).1
    (p, if p.working.isNone then [] else x.2 ++ [c])
  | .alert stat i => ((pluginAlert m x.1 stat i).1, x.2)

/-- What is meant of a call on a packet with records: the start time is the timestamp of
the first one, and the packet becomes READY if that is `packetExp` or more ago. -/
def ExpiresOnTime (m : Meta) (x : Plugin × List GatherCall) : Turn → Prop
  | .gather c =>
    let pkt := closed m.license x.1.tid c (x.1.packet c)
    (∀ r, (recordsOf (x.2 ++ [c])).head? = some r →
      pkt.started = r.start ∧ (pkt.state = .ready ↔ r.start.toNat + packetExp ≤ c.now.toNat)) ∧
    (recordsOf (x.2 ++ [c]) = [] → pkt.state ≠ .ready)
  | .alert _ _ => True

/-- The check of a call does not read a time in the last part of the seventh second after
the first record. -/
def Punctual (x : Plugin × List GatherCall) : Turn → Prop
  | .gather c => ∀ r, (recordsOf (x.2 ++ [c])).head? = some r →
    c.now.toNat < r.start.toNat + packetExp ∨ r.start.toNat + 7000 ≤ c.now.toNat
  | .alert _ _ => True

/-- The clock does not go back. -/
def Clock (turns : List Turn) : Prop :=
  ((calls turns).flatMap fun c => [c.start, c.now]).Pairwise (· ≤ ·)

instance (turns : List Turn) : Decidable (Clock turns) :=
  inferInstanceAs (Decidable (List.Pairwise _ _))

/-- The working packet is that of the calls. -/
def Timed (x : Plugin × List GatherCall) : Prop :=
  match x.1.working with
  | none => x.2 = []
  | some pkt => pkt.Timed x.2

theorem Timed.packet {x : Plugin × List GatherCall} (h : Timed x) (c : GatherCall) :
    (x.1.packet c).Timed x.2 := by
  unfold Timed at h
  unfold Plugin.packet
  cases hw : x.1.working with
  | none =>
    rw [hw] at h
    rw [h]
    exact ⟨(fresh_getPacket _ _).1, fun r hr => by cases hr⟩
  | some pkt =>
    rw [hw] at h
    exact h

theorem timed_gatherTurn {x : Plugin × List GatherCall} (h : Timed x) (turn : Turn) :
    Timed (gatherTurn m x turn) := by
  cases turn with
  | alert stat i =>
    have hwork := (pluginAlert_frame m x.1 stat i).1
    unfold Timed at h ⊢
    rw [gatherTurn]
    dsimp only
    rw [hwork]
    exact h
  | gather c =>
    have hbody := exec_gatherBody_settled m.license x.1.tid c (x.1.packet c)
    dsimp only at hbody
    obtain ⟨hwork, -⟩ := pluginGather_of_body hbody
    unfold Timed
    rw [gatherTurn]
    dsimp only
    rw [hwork]
    cases hexp : expired (settled m.license x.1.tid c (x.1.packet c)).started c.now with
    | true => rfl
    | false => exact (h.packet c).settled m.license x.1.tid c

/-- One call expires the packet on time exactly where the check is timely. -/
theorem expiresOnTime_iff {x : Plugin × List GatherCall} (h : Timed x) (c : GatherCall)
    (hpast : ∀ r, (recordsOf (x.2 ++ [c])).head? = some r → r.start ≤ c.now) :
    ExpiresOnTime m x (.gather c) ↔ Punctual x (.gather c) := by
  have htimed := (h.packet c).settled m.license x.1.tid c
  have hready := closed_ready_iff (h.packet c) m.license x.1.tid c
  have hstarted := started_closed m.license x.1.tid c (x.1.packet c)
  unfold ExpiresOnTime Punctual
  dsimp only
  have hnone : recordsOf (x.2 ++ [c]) = [] →
      (closed m.license x.1.tid c (x.1.packet c)).state ≠ .ready := by
    intro hrs hst
    exact (hready.mp hst).2 hrs
  rw [and_iff_left hnone]
  refine forall_congr' fun r => forall_congr' fun hr => ?_
  have hne : recordsOf (x.2 ++ [c]) ≠ [] := by
    intro hrs
    rw [hrs] at hr
    cases hr
  have hfirst := htimed.started r hr
  rw [hstarted, hready, hfirst, expired_iff (hpast r hr), and_iff_left hne, and_iff_right rfl,
    packetExp]
  omega

theorem clock_gather {turns : List Turn} (h : Clock (.gather c :: turns)) :
    c.start ≤ c.now ∧ (∀ c' ∈ calls turns, c.start ≤ c'.start) ∧ Clock turns := by
  have hcalls : calls (.gather c :: turns) = c :: calls turns := rfl
  rw [Clock, hcalls, List.flatMap_cons, List.cons_append, List.pairwise_cons, List.cons_append,
    List.pairwise_cons] at h
  obtain ⟨hstart, -, hrest⟩ := h
  refine ⟨hstart _ List.mem_cons_self, ?_, hrest⟩
  intro c' hc'
  refine hstart _ (List.mem_cons_of_mem _ ?_)
  exact List.mem_flatMap.mpr ⟨c', hc', List.mem_cons_self⟩

/-- The first record of a packet is one from before, or that of this call. -/
theorem head?_recordsOf_concat {r : Record} (hr : (recordsOf (cs ++ [c])).head? = some r) :
    (recordsOf cs).head? = some r ∨ r.start = c.start := by
  rw [recordsOf_concat] at hr
  by_cases hnone : recordsOf cs = []
  · right
    rw [hnone, GatherCall.record?] at hr
    split at hr
    · rw [← Option.some.inj hr]
    · cases hr
  · left
    rwa [List.head?_append_of_ne_nil _ hnone] at hr

theorem expires_from_iff {turns : List Turn} {x : Plugin × List GatherCall} (h : Timed x)
    (hpast : ∀ r, (recordsOf x.2).head? = some r → ∀ c ∈ calls turns, r.start ≤ c.start)
    (hclock : Clock turns) :
    Along (gatherTurn m) (ExpiresOnTime m) x turns ↔ Along (gatherTurn m) Punctual x turns := by
  induction turns generalizing x with
  | nil => exact Iff.rfl
  | cons turn turns ih =>
    rw [along_cons, along_cons]
    have hnext := timed_gatherTurn (m := m) h turn
    cases turn with
    | alert stat i => exact and_congr Iff.rfl (ih hnext hpast hclock)
    | gather c =>
      obtain ⟨hcall, hlater, hrest⟩ := clock_gather hclock
      have hstart : ∀ r, (recordsOf (x.2 ++ [c])).head? = some r → r.start ≤ c.start := by
        intro r hr
        rcases head?_recordsOf_concat hr with hr | hr
        · exact hpast r hr c List.mem_cons_self
        · rw [hr]
          exact UInt64.le_refl _
      refine and_congr (expiresOnTime_iff h c fun r hr => UInt64.le_trans (hstart r hr) hcall)
        (ih hnext ?_ hrest)
      intro r hr c' hc'
      rw [gatherTurn] at hr
      dsimp only at hr
      split at hr
      · cases hr
      · exact UInt64.le_trans (hstart r hr) (hlater c' hc')

/-- In a run on a clock that does not go back, every packet starts with its first record and
becomes READY at the first check that finds this `packetExp` or more ago, exactly if no
check reads a time from then to the end of the seventh second. -/
theorem expires_on_time_iff (m : Meta) (p : Plugin) (turns : List Turn) (hw : p.working = none)
    (hclock : Clock turns) :
    Along (gatherTurn m) (ExpiresOnTime m) (p, []) turns ↔
      Along (gatherTurn m) Punctual (p, []) turns := by
  refine expires_from_iff ?_ ?_ hclock
  · unfold Timed
    dsimp only
    rw [hw]
  · intro r hr
    cases hr

/-- One record at 1000 ms, and a second call whose check comes after 7000 ms. -/
theorem expires_on_time_second :
    let turns : List Turn := [.gather ⟨1000, 1001, .fresh, .ofTexts [str "\"a\":1"] .enone⟩,
      .gather ⟨5000, 8000, .fresh, .ofTexts [str "\"a\":2"] .enone⟩]
    Along (gatherTurn Meta.sample) (ExpiresOnTime Meta.sample) (Plugin.sample, []) turns := by
  intro turns
  refine (expires_on_time_iff _ _ _ rfl (by decide)).mpr ⟨?_, ?_, trivial⟩
  · intro r hr
    obtain rfl := Option.some.inj hr
    left
    decide
  · intro r hr
    obtain rfl := Option.some.inj hr
    right
    decide

/-- A call that takes 6033 ms to gather its record leaves the packet in use. -/
theorem expires_late :
    let turns : List Turn := [.gather ⟨1000, 7033, .fresh, .ofTexts [str "\"a\":1"] .enone⟩]
    Clock turns ∧
      ¬ Along (gatherTurn Meta.sample) (ExpiresOnTime Meta.sample) (Plugin.sample, []) turns := by
  intro turns
  refine ⟨by decide, ?_⟩
  rintro ⟨⟨hready, -⟩, -⟩
  obtain ⟨-, hready⟩ := hready _ rfl
  revert hready
  decide

end MonitoringAgent
