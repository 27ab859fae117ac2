import MonitoringAgent.Gather.Run

/-!
# One use of a packet

The calls of `plugin_gather` on one packet, from `get_packet` to READY or DONE. What they
do to the state and to the header holds of any texts; the whole text is known when it fits.
-/
namespace MonitoringAgent

open Buffer Command Transition Packet

variable {m : Meta} {pkt pkt' : Packet} {license : Text} {tid : UInt64} {cs : List GatherCall}
  {c : GatherCall} {res : GatherError}

/-- The payload starts with the header and the size lies behind it. -/
structure Packet.Headed (license : Text) (tid : UInt64) (pkt : Packet) : Prop where
  size : (metricHeader license tid).length ≤ pkt.size
  slice_eq : slice pkt.payload (metricHeader license tid).length = metricHeader license tid

/-- The working packet in the terms of `advance` after the calls `cs`. -/
def inUseAfter (cs : List GatherCall) : Option InUse := run (fun w c => (advance w c).1) none cs

/-- A packet in use between two calls, after the calls `cs` on it. -/
structure Packet.AtRest (license : Text) (tid : UInt64) (cs : List GatherCall) (pkt : Packet) :
    Prop where
  state : pkt.state = if cs = [] then .empty else if recordsOf cs = [] then .begin else .wrote
  size : cs = [] → pkt.size = 0
  header : cs ≠ [] → pkt.Headed license tid
  serves : FitsAll license tid none cs → pkt.Serves license tid (inUseAfter cs)
  records : FitsAll license tid none cs → held (inUseAfter cs) = recordsOf cs
  fits : FitsAll license tid none cs →
    (metricText license tid (held (inUseAfter cs))).length < pktsz

/-- A packet the last of the calls `cs` has given up: READY with records, DONE without. -/
structure Packet.Retired (license : Text) (tid : UInt64) (cs : List GatherCall) (pkt : Packet) :
    Prop where
  state : pkt.state = if recordsOf cs = [] then .done else .ready
  header : pkt.Headed license tid
  text : FitsAll license tid none cs → recordsOf cs ≠ [] →
    pkt.text = readyText license tid (recordsOf cs)

theorem Packet.Headed.starts (h : pkt.Headed license tid) :
    metricHeader license tid <+: pkt.text := by
  obtain ⟨k, hk⟩ := Nat.exists_eq_add_of_le h.size
  rw [Packet.text, hk, slice_add, h.slice_eq]
  exact List.prefix_append _ _

theorem recordsOf_concat (cs : List GatherCall) (c : GatherCall) :
    recordsOf (cs ++ [c]) = recordsOf cs ++ c.record?.toList := by
  rw [recordsOf, List.filterMap_append, ← recordsOf]
  cases h : c.record? <;> simp [h]

theorem recordsOf_concat_eq_nil :
    recordsOf (cs ++ [c]) = [] ↔ recordsOf cs = [] ∧ c.emitted.2 ≠ .enone := by
  rw [recordsOf_concat, List.append_eq_nil_iff, GatherCall.record?]
  split <;> simp_all

/-! ## What a gather function cannot touch -/

theorem packetGather_extends {func : PacketM GatherError} (tag : Text)
    (h : ∀ pkt : Packet, pkt.Extends (func.exec Packet.effects pkt).2) (pkt : Packet) :
    pkt.Extends ((packetGather tag func).exec Packet.effects pkt).2 := by
  have hopen : pkt.Extends (pkt.next (.appendAfter (openTag tag))) := extends_append _ _
  have hfunc := hopen.trans (h _)
  simp only [packetGather, stmt, perform_bind, exec_op, exec_bind]
  split
  · exact hfunc.truncate
  · exact hfunc.trans (extends_append _ _)

theorem Gatherer.code_extends (g : Gatherer) (pkt : Packet) :
    pkt.Extends (g.code.exec Packet.effects pkt).2 := by
  induction g generalizing pkt with
  | ret res => exact Extends.refl pkt
  | append t k ih => exact (extends_append pkt t).trans (ih _)
  | appendAfter f k ih => exact (extends_append pkt _).trans (ih _)
  | gather tag func k ihf ihk =>
    rw [code, exec_bind]
    exact (packetGather_extends tag ihf pkt).trans (ihk _ _)

/-- `packet_gather` returns what its function returns. -/
theorem exec_packetGather (tag : Text) (func : PacketM GatherError) (pkt : Packet) :
    ((packetGather tag func).exec Packet.effects pkt).1 =
      (func.exec Packet.effects (pkt.next (.appendAfter (openTag tag)))).1 := by
  simp only [packetGather, stmt, perform_bind, exec_op, exec_bind]
  split
  · rfl
  · next h => exact (not_not.mp h).symm

/-- The result of a gather function does not depend on the packet. -/
theorem Gatherer.exec_code (g : Gatherer) (pkt : Packet) (last : Byte) :
    (g.code.exec Packet.effects pkt).1 = (g.emit last).2 := by
  induction g generalizing pkt last with
  | ret res => rfl
  | append t k ih => exact ih _ _
  | appendAfter f k ih => exact ih _ _
  | gather tag func k ihf ihk =>
    rw [code, exec_bind, exec_packetGather, ihf _ (ch '{'), emit]
    split
    · next he => rw [he]; exact ihk _ _ _
    · exact ihk _ _ _

/-! ## The pieces of a call, run to their ends -/

theorem exec_writeHeader (license : Text) (tid : UInt64) (pkt : Packet) :
    ((writeHeader license tid).exec Packet.effects pkt).2 =
      if pkt.state = .empty then { pkt.append (metricHeader license tid) with state := .begin }
      else pkt := by
  change ((if pkt.state = .empty then _ else _ : PacketM Unit).exec _ _).2 = _
  split <;> rfl

theorem exec_stampStart (t : Epoch) (pkt : Packet) :
    ((stampStart t).exec Packet.effects pkt).2 =
      if pkt.state = .begin then { pkt with started := t } else pkt := by
  change ((if pkt.state = .begin then _ else _ : PacketM Unit).exec _ _).2 = _
  split <;> rfl

theorem exec_writeComma (pkt : Packet) :
    (writeComma.exec Packet.effects pkt).2 =
      if pkt.state = .wrote then pkt.append (str ",") else pkt := by
  change ((if pkt.state = .wrote then _ else _ : PacketM Unit).exec _ _).2 = _
  split <;> rfl

theorem exec_settle_enone (pkt : Packet) :
    let closed := pkt.append (str "\x7d")
    ((settle .enone).exec Packet.effects pkt).2 =
      { closed with
        state := if pkt.state = .begin then .wrote else pkt.state
        rollbackPoint := closed.size } := by
  change ((if pkt.state = .begin then _ else _ : PacketM Unit).exec _ _).2 = _
  split <;> rfl

theorem exec_settle_of_ne (h : res ≠ .enone) (pkt : Packet) :
    ((settle res).exec Packet.effects pkt).2 = pkt.truncate pkt.rollbackPoint := by
  cases res with
  | enone => exact absurd rfl h
  | enodata | eplugup | eplugdown => rfl

theorem exec_retire (pkt : Packet) :
    (retire.exec Packet.effects pkt).2 =
      if pkt.state = .wrote then { pkt.append (str "]\x7d") with state := .ready }
      else { pkt with state := .done } := by
  change ((if pkt.state = .wrote then _ else _ : PacketM Unit).exec _ _).2 = _
  split <;> rfl

theorem exec_expire (now : Epoch) (pkt : Packet) :
    (expire now).exec Packet.effects pkt =
      (expired pkt.started now,
        if expired pkt.started now then (retire.exec Packet.effects pkt).2 else pkt) := by
  change (if expired pkt.started now = true then _ else _ : PacketM Bool).exec _ _ = _
  split
  · next h => rw [exec_bind, h]; rfl
  · next h => rw [Bool.not_eq_true] at h; rw [h]; rfl

/-! ## The states and the header over one call -/

theorem Packet.Headed.extends (h : pkt.Headed license tid) (hext : pkt.Extends pkt') :
    pkt'.Headed license tid where
  size := h.size.trans hext.size
  slice_eq := (slice_congr fun i hi => hext.below i (lt_of_lt_of_le hi h.size)).trans h.slice_eq

theorem metricHeader_lt (m : Meta) (tid : UInt64) :
    (metricHeader m.license tid).length < pktsz := by
  simpa [metricText, recordsText] using metricText_nil_lt m tid

/-- A packet with its header that is in state WROTE exactly if it has records. -/
structure Packet.Started (license : Text) (tid : UInt64) (cs : List GatherCall) (pkt : Packet) :
    Prop where
  state : pkt.state = if recordsOf cs = [] then .begin else .wrote
  header : pkt.Headed license tid

theorem started_writeHeader (h : pkt.AtRest m.license tid cs) :
    ((writeHeader m.license tid).exec Packet.effects pkt).2.Started m.license tid cs := by
  rw [exec_writeHeader]
  have hst := h.state
  by_cases hcs : cs = []
  · subst hcs
    rw [if_pos rfl] at hst
    rw [if_pos hst]
    have ht := tracks_append_fresh (h.size rfl) (metricHeader m.license tid)
    exact ⟨rfl, ht.1.ge, (ht.holds (metricHeader_lt m tid)).slice_eq⟩
  · rw [if_neg hcs] at hst
    have hne : pkt.state ≠ .empty := by
      rw [hst]
      split <;> simp
    rw [if_neg hne]
    exact ⟨hst, h.header hcs⟩

theorem started_stampStart (h : pkt.Started license tid cs) (t : Epoch) :
    ((stampStart t).exec Packet.effects pkt).2.Started license tid cs := by
  rw [exec_stampStart]
  split
  · exact ⟨h.state, h.header.size, h.header.slice_eq⟩
  · exact h

theorem started_mark (h : pkt.Started license tid cs) :
    (pkt.next .mark).Started license tid cs ∧
      (pkt.next .mark).rollbackPoint = (pkt.next .mark).size :=
  ⟨⟨h.state, h.header.size, h.header.slice_eq⟩, rfl⟩

/-- The packet of a call at its rollback point, in front of the record. -/
def opened (license : Text) (tid : UInt64) (c : GatherCall) (pkt : Packet) : Packet :=
  ((stampStart c.start).exec Packet.effects
    ((writeHeader license tid).exec Packet.effects pkt).2).2.next .mark

/-- From there to the switch the call only adds to the packet. -/
theorem gatherRecord_extends_opened (license : Text) (tid : UInt64) (c : GatherCall)
    (pkt : Packet) :
    (opened license tid c pkt).Extends
      ((gatherRecord license tid c).exec Packet.effects pkt).2 := by
  unfold opened
  simp only [gatherRecord, exec_bind]
  generalize ((stampStart c.start).exec Packet.effects
    ((writeHeader license tid).exec Packet.effects pkt).2).2 = pkt₁
  have hmark : (packetTransaction.exec Packet.effects pkt₁).2 = pkt₁.next .mark := rfl
  have hstamp : ∀ p : Packet, ((packetAppend (timestamp c.start)).exec Packet.effects p).2 =
      p.append (timestamp c.start) := fun _ => rfl
  rw [hmark, hstamp]
  have hcomma : (pkt₁.next .mark).Extends
      (writeComma.exec Packet.effects (pkt₁.next .mark)).2 := by
    rw [exec_writeComma]
    split
    · exact extends_append _ _
    · exact Extends.refl _
  refine (hcomma.trans (extends_append _ (timestamp c.start))).trans ?_
  exact packetGather_extends _ c.gather.code_extends _

/-- Up to the switch the call sets its rollback point behind what it found and only adds
to that. -/
theorem gatherRecord_extends (h : pkt.AtRest m.license tid cs) (c : GatherCall) :
    ∃ pkt' : Packet, pkt'.Started m.license tid cs ∧ pkt'.rollbackPoint = pkt'.size ∧
      pkt'.Extends ((gatherRecord m.license tid c).exec Packet.effects pkt).2 := by
  obtain ⟨hstart, hpoint⟩ :=
    started_mark (started_stampStart (started_writeHeader h) c.start)
  exact ⟨opened m.license tid c pkt, hstart, hpoint,
    gatherRecord_extends_opened m.license tid c pkt⟩

theorem exec_gatherRecord (license : Text) (tid : UInt64) (c : GatherCall) (pkt : Packet) :
    ((gatherRecord license tid c).exec Packet.effects pkt).1 = c.emitted.2 := by
  simp only [gatherRecord, exec_bind]
  rw [exec_packetGather]
  exact c.gather.exec_code _ _

/-- The call returns what its gather function returns. -/
theorem exec_gatherBody (license : Text) (tid : UInt64) (c : GatherCall) (pkt : Packet) :
    ((gatherBody license tid c).exec Packet.effects pkt).1.1 = c.emitted.2 := by
  simp only [gatherBody, exec_bind, exec_gatherRecord, pure_eq, exec_ret]

theorem started_settle (h : pkt.AtRest m.license tid cs) (c : GatherCall) :
    ((settle c.emitted.2).exec Packet.effects
      ((gatherRecord m.license tid c).exec Packet.effects pkt).2).2.Started m.license tid
        (cs ++ [c]) := by
  obtain ⟨pkt₁, hstart, hpoint, hext⟩ := gatherRecord_extends h c
  generalize ((gatherRecord m.license tid c).exec Packet.effects pkt).2 = pkt₂ at hext ⊢
  by_cases he : c.emitted.2 = .enone
  · rw [he, exec_settle_enone]
    have hclosed := hstart.header.extends (hext.trans (extends_append pkt₂ (str "\x7d")))
    have hrs : recordsOf (cs ++ [c]) ≠ [] := by simp [recordsOf_concat_eq_nil, he]
    refine ⟨?_, hclosed.size, hclosed.slice_eq⟩
    dsimp only
    rw [if_neg hrs, hext.state, hstart.state]
    split
    · exact if_pos rfl
    · exact if_neg (by simp)
  · rw [exec_settle_of_ne he, hext.rollbackPoint, hpoint]
    refine ⟨?_, hstart.header.extends hext.truncate⟩
    rw [hext.truncate.state, hstart.state]
    simp [recordsOf_concat_eq_nil, he]

/-- The packet after one more call, whatever its texts. -/
theorem gatherBody_states (h : pkt.AtRest m.license tid cs) (c : GatherCall) :
    let last := (gatherBody m.license tid c).exec Packet.effects pkt
    last.2.Headed m.license tid ∧
      last.2.state = if last.1.2 then (if recordsOf (cs ++ [c]) = [] then .done else .ready)
        else if recordsOf (cs ++ [c]) = [] then .begin else .wrote := by
  have hsettle := started_settle h c
  simp only [gatherBody, exec_bind, exec_gatherRecord, pure_eq, exec_ret]
  generalize ((settle c.emitted.2).exec Packet.effects
    ((gatherRecord m.license tid c).exec Packet.effects pkt).2).2 = pkt₁ at hsettle ⊢
  rw [exec_expire]
  cases hexp : expired pkt₁.started c.now with
  | false => exact ⟨hsettle.header, hsettle.state⟩
  | true =>
    simp only [if_true, exec_retire, hsettle.state]
    by_cases hrs : recordsOf (cs ++ [c]) = []
    · simp only [hrs, if_true, reduceCtorEq, if_false]
      exact ⟨⟨hsettle.header.size, hsettle.header.slice_eq⟩, trivial⟩
    · simp only [hrs, if_false, if_true]
      have hext := hsettle.header.extends (extends_append pkt₁ (str "]\x7d"))
      exact ⟨⟨hext.size, hext.slice_eq⟩, trivial⟩

/-! ## The text over one call -/

theorem inUseAfter_concat (cs : List GatherCall) (c : GatherCall) :
    inUseAfter (cs ++ [c]) = (advance (inUseAfter cs) c).1 := run_concat

theorem fitsAll_concat : FitsAll license tid none (cs ++ [c]) ↔
    FitsAll license tid none cs ∧ c.Room Fits license tid (inUseAfter cs) := by
  rw [FitsAll, along_append, along_cons]
  exact and_congr_right fun _ => and_iff_left trivial

/-- What the refinement of one call says about a packet in use. -/
theorem gatherBody_left (h : pkt.AtRest license tid cs)
    (hfit : FitsAll license tid none (cs ++ [c])) :
    let last := (gatherBody license tid c).exec Packet.effects pkt
    last.1.2 = expired (startOf (inUseAfter cs) c) c.now ∧
      last.2.Left license tid (inUseAfter cs) c := by
  obtain ⟨hall, hroom⟩ := fitsAll_concat.mp hfit
  have hbody := gatherBody_writes (c := c) (h.serves hall) (h.fits hall)
  obtain ⟨hres, hleft⟩ := hbody.post (c.room_mono (fun _ _ => Fits.begins) hroom)
  exact ⟨congrArg Prod.snd hres, hleft⟩

theorem Packet.AtRest.call_records (h : pkt.AtRest license tid cs)
    (hall : FitsAll license tid none cs) (c : GatherCall) :
    c.records (inUseAfter cs) = recordsOf (cs ++ [c]) := by
  rw [GatherCall.records, h.records hall, recordsOf_concat]

/-- Between two calls the packet has the text of its records so far. -/
theorem Packet.AtRest.text_eq (h : pkt.AtRest license tid cs) (hfit : FitsAll license tid none cs)
    (hne : recordsOf cs ≠ []) : pkt.text = metricText license tid (recordsOf cs) := by
  have hrecords := h.records hfit
  rcases h.serves hfit with ⟨-, hheld⟩ | ⟨hfilled, -⟩
  · exact absurd (hrecords.symm.trans hheld) hne
  · rw [← hrecords]
    exact hfilled.tracks.text_eq (h.fits hfit)

/-- A call that does not give the packet up leaves it at rest again. -/
theorem Packet.AtRest.call (h : pkt.AtRest m.license tid cs) (c : GatherCall)
    (hret : ((gatherBody m.license tid c).exec Packet.effects pkt).1.2 = false) :
    ((gatherBody m.license tid c).exec Packet.effects pkt).2.AtRest m.license tid (cs ++ [c]) := by
  obtain ⟨hhead, hstate⟩ := gatherBody_states h c
  have hne : cs ++ [c] ≠ [] := by simp
  have hleft (hfit : FitsAll m.license tid none (cs ++ [c])) :
      inUseAfter (cs ++ [c]) =
          some ⟨startOf (inUseAfter cs) c, c.records (inUseAfter cs)⟩ ∧
        Left m.license tid (inUseAfter cs) c
          ((gatherBody m.license tid c).exec Packet.effects pkt).2 ∧
        expired (startOf (inUseAfter cs) c) c.now = false := by
    obtain ⟨hexp, hleft⟩ := gatherBody_left h hfit
    have hexp' := hexp.symm.trans hret
    refine ⟨?_, hleft, hexp'⟩
    rw [inUseAfter_concat, advance_of_not_expired hexp']
  refine ⟨?_, fun hnil => absurd hnil hne, fun _ => hhead, ?_, ?_, ?_⟩
  · rw [hstate, hret, if_neg hne]
    rfl
  · intro hfit
    obtain ⟨hw, hleft, hexp⟩ := hleft hfit
    rw [hw]
    refine Or.inr ⟨hleft.inUse hexp, ?_⟩
    rintro _ ⟨rfl⟩ -
    exact hleft.started
  · intro hfit
    rw [(hleft hfit).1]
    exact h.call_records (fitsAll_concat.mp hfit).1 c
  · intro hfit
    obtain ⟨hall, hroom⟩ := fitsAll_concat.mp hfit
    rw [(hleft hfit).1]
    exact c.room_fits hroom (h.fits hall)

/-- A call that gives the packet up leaves it READY with the text of its records, or DONE
if there are none. -/
theorem Packet.AtRest.retired (h : pkt.AtRest m.license tid cs) (c : GatherCall)
    (hret : ((gatherBody m.license tid c).exec Packet.effects pkt).1.2 = true) :
    ((gatherBody m.license tid c).exec Packet.effects pkt).2.Retired m.license tid (cs ++ [c]) := by
  obtain ⟨hhead, hstate⟩ := gatherBody_states h c
  refine ⟨?_, hhead, ?_⟩
  · rw [hstate, hret]
    rfl
  · intro hfit hrs
    obtain ⟨hall, hroom⟩ := fitsAll_concat.mp hfit
    obtain ⟨hexp, hleft⟩ := gatherBody_left h hfit
    have hexp' := hexp.symm.trans hret
    have hrecords := h.call_records hall c
    rw [← hrecords] at hrs ⊢
    exact (hleft.finished hexp' hrs).2.text_eq (c.room_ready hroom hexp' hrs)

/-- A packet as `get_packet` hands it out. -/
theorem Packet.Fresh.atRest (h : pkt.Fresh) (m : Meta) (tid : UInt64) :
    pkt.AtRest m.license tid [] where
  state := h.1
  size := fun _ => h.2
  header := fun hne => absurd rfl hne
  serves := fun _ => Or.inl ⟨h, rfl⟩
  records := fun _ => rfl
  fits := fun _ => metricText_nil_lt m tid

end MonitoringAgent
