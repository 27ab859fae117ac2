import MonitoringAgent.Gather.Refinement

/-!
# Runs of `plugin_gather`

Any sequence of gather calls of one plugin, with alert tasks between them, makes READY
exactly the records of the calls that returned ENONE, in order.
-/
namespace MonitoringAgent

open Buffer Command Transition Packet

variable {m : Meta} {p : Plugin} {pkt : Packet} {license : Text} {tid : UInt64}
  {rs : List Record} {w : Option InUse} {c : GatherCall}

/-- The working packet holds the records of `w`, all of them inside the payload. -/
def Working (license : Text) (tid : UInt64) : Option InUse → Option Packet → Prop
  | none, none => True
  | some u, some pkt => pkt.Filled license tid u.records ∧ pkt.started = u.started ∧
      (metricText license tid u.records).length < pktsz
  | _, _ => False

/-- A READY packet made of the records `rs`. -/
structure Packet.Finished (license : Text) (tid : UInt64) (rs : List Record) (pkt : Packet) :
    Prop where
  state : pkt.state = .ready
  records : rs ≠ []
  text : pkt.text = readyText license tid rs
  nul : pkt.payload pkt.size = 0

def published (log : List Event) : List Packet :=
  log.filterMap fun
    | .published pkt => some pkt
    | _ => none

def results (log : List Event) : List GatherError :=
  log.filterMap fun
    | .gathered res => some res
    | _ => none

/-- The text of every packet of a run stays shorter than PKTSZ. -/
def FitsAll (license : Text) (tid : UInt64) : Option InUse → List GatherCall → Prop :=
  Along (fun w c => (advance w c).1) fun w c => c.Room Fits license tid w

instance (license : Text) (tid : UInt64) (w : Option InUse) (cs : List GatherCall) :
    Decidable (FitsAll license tid w cs) := decidableAlong w cs

theorem published_append (l l' : List Event) :
    published (l ++ l') = published l ++ published l' := List.filterMap_append

theorem results_append (l l' : List Event) :
    results (l ++ l') = results l ++ results l' := List.filterMap_append

theorem Working.serves (h : Working license tid w p.working) (c : GatherCall) :
    (p.packet c).Serves license tid w := by
  unfold Plugin.packet
  cases w with
  | none =>
    cases hp : p.working with
    | none => exact Or.inl ⟨fresh_getPacket _ _, rfl⟩
    | some pkt => rw [hp] at h; exact h.elim
  | some u =>
    cases hp : p.working with
    | none => rw [hp] at h; exact h.elim
    | some pkt =>
      rw [hp] at h
      refine Or.inr ⟨h.1, ?_⟩
      rintro _ ⟨rfl⟩ -
      exact h.2.1

theorem Working.fits (h : Working m.license tid w p.working) :
    (metricText m.license tid (held w)).length < pktsz := by
  cases w with
  | none => exact metricText_nil_lt m tid
  | some u =>
    cases hp : p.working with
    | none => rw [hp] at h; exact h.elim
    | some pkt =>
      rw [hp] at h
      exact h.2.2

/-- A call whose texts fit leaves committed records that fit. -/
theorem GatherCall.room_fits (h : c.Room Fits license tid w)
    (hw : (metricText license tid (held w)).length < pktsz) :
    (metricText license tid (c.records w)).length < pktsz := by
  by_cases he : c.emitted.2 = .enone
  · have hlast := (h.2.2.2.2.1 he).2
    rw [GatherCall.records_of_enone he, metricText_concat, Record.text_eq]
    simp only [Fits, List.length_append] at hlast ⊢
    have hbrace : (str "\x7d").length = 1 := by decide
    omega
  · rwa [GatherCall.records_of_ne he]

/-- The same for a packet the call finishes. -/
theorem GatherCall.room_ready (h : c.Room Fits license tid w)
    (hexp : expired (startOf w c) c.now) (hrs : c.records w ≠ []) :
    (readyText license tid (c.records w)).length < pktsz := by
  have hend := h.2.2.2.2.2 hexp hrs
  have htwo : (str "]\x7d").length = 2 := by decide
  simp only [Fits, GatherCall.records, readyText, List.length_append] at hend ⊢
  omega

theorem Fits.begins {n len : Nat} (h : Fits n len) : Begins n len := by
  unfold Fits at h
  unfold Begins
  omega

/-! ## One call -/

/-- The effect of one call, from what its body does to the packet. -/
theorem pluginGather_of_body {res : GatherError} {retired : Bool}
    (h : (gatherBody m.license p.tid c).exec Packet.effects (p.packet c) = ((res, retired), pkt)) :
    (pluginGather m p c).1.working = (if retired then none else some pkt) ∧
      (pluginGather m p c).1.tid = p.tid ∧
      results (pluginGather m p c).2 = [res] ∧
      published (pluginGather m p c).2 = if pkt.state = .ready then [pkt] else [] := by
  simp only [pluginGather, h, true_and]
  constructor
  · cases res <;> simp [results, Task.afterGather]
  · cases res <;> simp [published, Task.afterGather] <;> split <;> simp

/-- What `Left` says about the packet a call hands on. -/
theorem Packet.Left.working (h : pkt.Left license tid w c)
    (hfit : (metricText license tid (c.records w)).length < pktsz) :
    Working license tid (advance w c).1
      (if expired (startOf w c) c.now then none else some pkt) := by
  cases hexp : expired (startOf w c) c.now with
  | true =>
    rw [advance_of_expired hexp]
    trivial
  | false =>
    rw [advance_of_not_expired hexp]
    exact ⟨h.inUse hexp, h.started, hfit⟩

theorem Packet.Left.published (h : pkt.Left license tid w c)
    (hfits : expired (startOf w c) c.now → c.records w ≠ [] →
      (readyText license tid (c.records w)).length < pktsz) :
    List.Forall₂ (Finished license tid) (advance w c).2
      (if pkt.state = .ready then [pkt] else []) := by
  cases hexp : expired (startOf w c) c.now with
  | false =>
    have hst : pkt.state ≠ .ready := by
      rw [(h.inUse hexp).state]
      split <;> simp
    rw [if_neg hst, advance_of_not_expired hexp]
    exact List.Forall₂.nil
  | true =>
    rw [advance_of_expired hexp]
    by_cases hrs : c.records w = []
    · have hst : pkt.state ≠ .ready := by simp [(h.thrown hexp hrs).1]
      rw [if_neg hst, if_pos hrs]
      exact List.Forall₂.nil
    · obtain ⟨hstate, htracks⟩ := h.finished hexp hrs
      have hlen := hfits hexp hrs
      rw [if_pos hstate, if_neg hrs]
      refine List.Forall₂.cons ⟨hstate, hrs, htracks.text_eq hlen, ?_⟩ List.Forall₂.nil
      rw [htracks.1]
      exact (htracks.holds hlen).nul

/-- One call of a plugin whose packet is on track follows `advance`. -/
theorem pluginGather_step (hw : Working m.license p.tid w p.working)
    (hroom : c.Room Fits m.license p.tid w) :
    Working m.license p.tid (advance w c).1 (pluginGather m p c).1.working ∧
      (pluginGather m p c).1.tid = p.tid ∧
      results (pluginGather m p c).2 = [c.emitted.2] ∧
      List.Forall₂ (Finished m.license p.tid) (advance w c).2
        (published (pluginGather m p c).2) := by
  have hbody := gatherBody_writes (c := c) (hw.serves c) hw.fits
  obtain ⟨hres, hleft⟩ := hbody.post (c.room_mono (fun _ _ => Fits.begins) hroom)
  obtain ⟨hwork, htid, hresults, hpub⟩ := pluginGather_of_body (Prod.ext hres rfl)
  refine ⟨?_, htid, hresults, ?_⟩
  · rw [hwork]
    exact hleft.working (c.room_fits hroom hw.fits)
  · rw [hpub]
    exact hleft.published (c.room_ready hroom)

/-! ## Runs -/

/-- What a plugin in its gather phase may be asked to do. -/
inductive Turn where
  | gather (c : GatherCall)
  | alert (stat : Status) (i : TaskInput)

def takeTurn (m : Meta) (h : Plugin × List Event) : Turn → Plugin × List Event
  | .gather c => ((pluginGather m h.1 c).1, h.2 ++ (pluginGather m h.1 c).2)
  | .alert stat i => ((pluginAlert m h.1 stat i).1, h.2 ++ (pluginAlert m h.1 stat i).2)

def calls (turns : List Turn) : List GatherCall :=
  turns.filterMap fun
    | .gather c => some c
    | .alert _ _ => none

theorem pluginAlert_frame (m : Meta) (p : Plugin) (stat : Status) (i : TaskInput) :
    (pluginAlert m p stat i).1.working = p.working ∧ (pluginAlert m p stat i).1.tid = p.tid ∧
      results (pluginAlert m p stat i).2 = [] ∧ published (pluginAlert m p stat i).2 = [] := by
  unfold pluginAlert
  dsimp only
  split <;> exact ⟨rfl, rfl, rfl, rfl⟩

/-- The whole run from any point: what has been logged so far plus what `advanceAll`
adds to it. -/
theorem run_takeTurn (turns : List Turn) (log : List Event)
    (hw : Working m.license p.tid w p.working)
    (hroom : FitsAll m.license p.tid w (calls turns)) :
    let h := run (takeTurn m) (p, log) turns
    Working m.license p.tid (advanceAll w (calls turns)).1 h.1.working ∧
      results h.2 = results log ++ (calls turns).map (·.emitted.2) ∧
      ∃ ready, published h.2 = published log ++ ready ∧
        List.Forall₂ (Finished m.license p.tid) (advanceAll w (calls turns)).2 ready := by
  induction turns generalizing p w log with
  | nil => exact ⟨hw, by simp [calls], [], by simp, List.Forall₂.nil⟩
  | cons turn turns ih =>
    cases turn with
    | alert stat i =>
      obtain ⟨hwork, htid, hresults, hpub⟩ := pluginAlert_frame m p stat i
      rw [← htid, ← hwork] at hw
      rw [← htid] at hroom
      have := ih (log ++ (pluginAlert m p stat i).2) hw hroom
      rw [results_append, published_append, hresults, hpub, List.append_nil, List.append_nil,
        htid] at this
      exact this
    | gather c =>
      obtain ⟨hwork, htid, hresults, hpub⟩ := pluginGather_step hw hroom.1
      have htail := hroom.2
      rw [← htid] at hwork htail
      have := ih (log ++ (pluginGather m p c).2) hwork htail
      rw [results_append, published_append, hresults, htid] at this
      obtain ⟨hwork', hresults', ready, hready, hall⟩ := this
      refine ⟨hwork', ?_, published (pluginGather m p c).2 ++ ready, ?_, ?_⟩
      · rw [run_cons, takeTurn, hresults']
        simp [calls]
      · rw [run_cons, takeTurn, hready, List.append_assoc]
      · exact List.rel_append hpub hall

/-- The text of the working packet between two calls. -/
def workingText (license : Text) (tid : UInt64) (rs : List Record) : Option Packet → Prop
  | none => rs = []
  | some pkt => pkt.text = metricText license tid rs ∧ pkt.payload pkt.size = 0

theorem Working.text (h : Working license tid w p.working) :
    workingText license tid (held w) p.working := by
  cases w with
  | none =>
    cases hp : p.working with
    | none => rfl
    | some pkt => rw [hp] at h; exact h.elim
  | some u =>
    cases hp : p.working with
    | none => rw [hp] at h; exact h.elim
    | some pkt =>
      rw [hp] at h
      obtain ⟨hfilled, -, hlen⟩ := h
      refine ⟨hfilled.tracks.text_eq hlen, ?_⟩
      rw [hfilled.tracks.1]
      exact (hfilled.tracks.holds hlen).nul

/-- Every packet that becomes READY is exactly the header, one or more records joined by
commas and the closing brackets; the records of the READY packets in order, followed by
those of the working packet, are the calls that returned ENONE. -/
theorem gather_run_exact (m : Meta) (p : Plugin) (turns : List Turn) (hw : p.working = none)
    (hfit : FitsAll m.license p.tid none (calls turns)) :
    let h := run (takeTurn m) (p, []) turns
    results h.2 = (calls turns).map (·.emitted.2) ∧
      ∃ rss rs, List.Forall₂ (Finished m.license p.tid) rss (published h.2) ∧
        workingText m.license p.tid rs h.1.working ∧
        rss.flatten ++ rs = recordsOf (calls turns) := by
  have hstart : Working m.license p.tid none p.working := by
    rw [hw]
    trivial
  obtain ⟨hwork, hresults, ready, hready, hall⟩ := run_takeTurn turns [] hstart hfit
  refine ⟨hresults, _, _, ?_, hwork.text, advanceAll_conserves none (calls turns)⟩
  rw [hready]
  exact hall

/-- Two calls, the first with a record and the second without data but past the expiry:
one READY packet with one record. -/
theorem gather_run_exact_two_calls :
    let turns := [Turn.gather ⟨1000, 1500, .fresh, .ofTexts [str "\"a\":", str "1"] .enone⟩,
      .alert .up ⟨true, ⟨1, 1, 1⟩, ⟨1, 1, 1⟩, ⟨[], true, 200⟩, ⟨0, 0, .fresh, .ret .enone⟩⟩,
      .gather ⟨8000, 8001, .fresh, .ofTexts [str "junk"] .enodata⟩]
    ∃ rss rs, List.Forall₂ (Finished Meta.sample.license Plugin.sample.tid) rss
        (published (run (takeTurn Meta.sample) (Plugin.sample, []) turns).2) ∧
      rss.flatten ++ rs = [⟨1000, str "\"a\":1"⟩] := by
  intro turns
  have hfit : FitsAll Meta.sample.license Plugin.sample.tid none (calls turns) := by decide
  obtain ⟨-, rss, rs, hready, -, hrecords⟩ :=
    gather_run_exact Meta.sample Plugin.sample turns rfl hfit
  exact ⟨rss, rs, hready, hrecords⟩

end MonitoringAgent
