import MonitoringAgent.Gather.Run

/-!
# The bounds of the payload

`size` grows by the length of each text, whether or not `snprintf` had room for it, so
nothing keeps it below PKTSZ. A run stays inside the payload exactly when the lengths of
its texts say so.
-/
namespace MonitoringAgent

open Buffer Command Transition Packet

variable {m : Meta} {p : Plugin} {license : Text} {tid : UInt64} {w : Option InUse}
  {c : GatherCall}

/-- One call of the plugin, together with the records its packet ought to hold. -/
def gatherStep (m : Meta) (s : Plugin × Option InUse) (c : GatherCall) :
    Plugin × Option InUse :=
  ((pluginGather m s.1 c).1, (advance s.2 c).1)

/-- What the call has to respect: every append, peek and rollback stays inside the
payload, and the committed records stand there, uncut, when it is over. -/
structure CallSafe (m : Meta) (s : Plugin × Option InUse) (c : GatherCall) : Prop where
  bounds : Along Packet.next InBounds (s.1.packet c)
    ((gatherBody m.license s.1.tid c).trace Packet.effects (s.1.packet c))
  inside : (metricText m.license s.1.tid (c.records s.2)).length < pktsz
  intact : slice ((gatherBody m.license s.1.tid c).exec Packet.effects (s.1.packet c)).2.payload
      (metricText m.license s.1.tid (c.records s.2)).length =
    metricText m.license s.1.tid (c.records s.2)

/-- The lengths of the texts: each append of the call begins below PKTSZ, and a record
that is kept ends below it. -/
def StaysInside (license : Text) (tid : UInt64) (w : Option InUse) (c : GatherCall) : Prop :=
  c.Room Begins license tid w ∧ (metricText license tid (c.records w)).length < pktsz

theorem callSafe_iff (hw : Working m.license p.tid w p.working) :
    CallSafe m (p, w) c ↔ StaysInside m.license p.tid w c := by
  have hbody := gatherBody_writes (c := c) (hw.serves c) hw.fits
  constructor
  · rintro ⟨hbounds, hinside, -⟩
    exact ⟨hbody.guard.mp hbounds, hinside⟩
  · rintro ⟨hroom, hinside⟩
    exact ⟨hbody.guard.mpr hroom, hinside, (hbody.post hroom).2.intact hinside⟩

/-- A call that stays inside leaves a packet the next call can rely on. -/
theorem working_gatherStep (hw : Working m.license p.tid w p.working)
    (hc : StaysInside m.license p.tid w c) :
    (pluginGather m p c).1.tid = p.tid ∧
      Working m.license p.tid (advance w c).1 (pluginGather m p c).1.working := by
  obtain ⟨hroom, hinside⟩ := hc
  obtain ⟨hres, hleft⟩ := (gatherBody_writes (c := c) (hw.serves c) hw.fits).post hroom
  obtain ⟨hwork, htid, -, -⟩ := pluginGather_of_body (Prod.ext hres rfl)
  refine ⟨htid, ?_⟩
  rw [hwork]
  exact hleft.working hinside

theorem run_safe_iff (cs : List GatherCall) (hw : Working m.license p.tid w p.working) :
    Along (gatherStep m) (CallSafe m) (p, w) cs ↔
      Along (fun w c => (advance w c).1) (StaysInside m.license p.tid) w cs := by
  induction cs generalizing p w with
  | nil => exact Iff.rfl
  | cons c cs ih =>
    rw [along_cons, along_cons, callSafe_iff hw]
    refine and_congr_right ?_
    intro hc
    obtain ⟨htid, hwork⟩ := working_gatherStep hw hc
    rw [← htid] at hwork ⊢
    exact ih hwork

/-- A run of a plugin that starts without a packet stays inside the payload, with its
committed records uncut, if and only if the lengths of its texts do. -/
theorem gather_run_safe_iff (m : Meta) (p : Plugin) (cs : List GatherCall)
    (hw : p.working = none) :
    Along (gatherStep m) (CallSafe m) (p, none) cs ↔
      Along (fun w c => (advance w c).1) (StaysInside m.license p.tid) none cs := by
  apply run_safe_iff
  rw [hw]
  trivial

theorem gather_run_safe_one_call :
    Along (gatherStep Meta.sample) (CallSafe Meta.sample) (Plugin.sample, none)
      [⟨1000, 1500, .fresh, .ofTexts [str "\"a\":", str "1"] .enone⟩] := by
  rw [gather_run_safe_iff Meta.sample Plugin.sample _ rfl]
  refine ⟨⟨by decide, by decide⟩, trivial⟩

/-- The appends of a plain gather function, one after the other. -/
theorem Gatherer.begins_ofTexts {ts : List Text} {res : GatherError} {last : Byte} {n : Nat}
    (h : (Gatherer.ofTexts ts res).Room Begins last n) {pre post : List Text} {t : Text}
    (hts : ts = pre ++ t :: post) : n + pre.flatten.length < pktsz := by
  induction pre generalizing ts last n with
  | nil =>
    subst hts
    simpa [Begins] using h.1
  | cons a pre ih =>
    subst hts
    have := ih h.2 rfl
    simp only [List.flatten_cons, List.length_append]
    omega

/-- The process list of a busy server: 300 texts of 120 bytes in one section. -/
def busyCall : GatherCall :=
  ⟨1000, 1500, .fresh, .ofTexts (List.replicate 300 (List.replicate 120 (ch 'x'))) .enone⟩

/-- A later append of the section is executed with `size` past the payload. -/
theorem busyCall_overflows :
    ¬ Along (gatherStep Meta.sample) (CallSafe Meta.sample) (Plugin.sample, none) [busyCall] := by
  have hw : Working Meta.sample.license Plugin.sample.tid none Plugin.sample.working := trivial
  rw [run_safe_iff [busyCall] hw]
  rintro ⟨⟨hroom, -⟩, -⟩
  have hgather := hroom.2.2.2.1
  have hsplit : List.replicate 300 (List.replicate 120 (ch 'x')) =
      List.replicate 299 (List.replicate 120 (ch 'x')) ++ List.replicate 120 (ch 'x') :: [] := by
    rw [← List.replicate_succ']
  have hlast := Gatherer.begins_ofTexts hgather hsplit
  rw [List.flatten_replicate_replicate, List.length_replicate] at hlast
  unfold pktsz at hlast
  omega

end MonitoringAgent
