import MonitoringAgent.Gather.Run

/-!
# Calls cut off by a restart

`routine_restart` cancels the thread of a plugin in the middle of `plugin_gather` and
the next thread goes on with the same `plugin_t`. The packet keeps whatever the cut call
had done to it.
-/
namespace MonitoringAgent

open Buffer Command Transition Packet

/-- A call that runs to its end, one cut off inside `get_packet`, before `p->working` is
set, or one cut off after `n` of its statements on the packet. -/
inductive Attempt where
  | whole (c : GatherCall)
  | early (c : GatherCall)
  | cut (c : GatherCall) (n : Nat)

/-- The statements a cut call got to execute. -/
def executed (m : Meta) (p : Plugin) (c : GatherCall) (n : Nat) : List PacketOp :=
  ((gatherBody m.license p.tid c).trace Packet.effects (p.packet c)).take n

/-- What the cut call leaves; a packet it has made READY can be posted from then on. -/
def cutGather (m : Meta) (p : Plugin) (c : GatherCall) (n : Nat) : Plugin × List Event :=
  let pkt := run Packet.next (p.packet c) (executed m p c n)
  ({ p with working := some pkt }, if pkt.state = .ready then [.published pkt] else [])

/-- The plugin, its log, and the records of completed calls its working packet ought to
hold. -/
structure CutRun where
  p : Plugin
  log : List Event
  rs : List Record

def CutRun.inUse (s : CutRun) : Option InUse := s.p.working.map fun pkt => ⟨pkt.started, s.rs⟩

def attemptStep (m : Meta) (s : CutRun) : Attempt → CutRun
  | .whole c => ⟨(pluginGather m s.p c).1, s.log ++ (pluginGather m s.p c).2,
      held (advance s.inUse c).1⟩
  | .early _ => s
  | .cut c n => ⟨(cutGather m s.p c n).1, s.log ++ (cutGather m s.p c n).2, s.rs⟩

/-- The calls that ran to completion. -/
def wholeCalls (as : List Attempt) : List GatherCall :=
  as.filterMap fun
    | .whole c => some c
    | .early _ | .cut _ _ => none

/-- Statements that leave state, size and payload alone. -/
def PacketOp.Quiet : PacketOp → Prop
  | .loadState | .loadStarted | .loadSize | .storeStarted _ | .mark => True
  | .storeState _ | .append _ | .appendAfter _ | .rollback | .restore _ => False

/-- Where a cut does no harm: nothing was appended yet, or only the header together with
the change to BEGIN, or the call had failed and was already rolled back. -/
inductive Harmless : List PacketOp → Prop where
  | untouched {ops : List PacketOp} (h : ∀ o ∈ ops, o.Quiet) : Harmless ops
  | headed (t : Text) {ops : List PacketOp} (h : ∀ o ∈ ops, o.Quiet) :
      Harmless (.loadState :: .append t :: .storeState .begin :: ops)
  | rolledBack (before : List PacketOp) {ops : List PacketOp} (h : ∀ o ∈ ops, o.Quiet) :
      Harmless (before ++ .rollback :: ops)

/-- The condition on one attempt: the texts of completed calls fit, and cut calls are cut
at a harmless place (where a rollback took back only what had begun inside the payload). -/
def CleanAttempt (m : Meta) (s : CutRun) : Attempt → Prop
  | .whole c => c.Room Fits m.license s.p.tid s.inUse
  | .early _ => True
  | .cut c n => Harmless (executed m s.p c n) ∧
      (.rollback ∈ executed m s.p c n → c.Room Begins m.license s.p.tid s.inUse)

/-- A packet without a header, or one that holds `rs`. -/
def Packet.Keeps (license : Text) (tid : UInt64) (rs : List Record) (pkt : Packet) : Prop :=
  (pkt.Fresh ∧ rs = []) ∨ pkt.Filled license tid rs

/-- The working packet and the records of completed calls in it. -/
def Kept (license : Text) (tid : UInt64) (rs : List Record) : Option Packet → Prop
  | none => rs = []
  | some pkt => pkt.Keeps license tid rs

variable {m : Meta} {p : Plugin} {pkt : Packet} {license : Text} {tid : UInt64}
  {rs : List Record} {w : Option InUse} {c : GatherCall} {n : Nat} {ops : List PacketOp}

/-! ## Quiet statements -/

theorem run_quiet (pkt : Packet) (h : ∀ o ∈ ops, o.Quiet) :
    (run Packet.next pkt ops).state = pkt.state ∧ (run Packet.next pkt ops).size = pkt.size ∧
      (run Packet.next pkt ops).payload = pkt.payload := by
  induction ops generalizing pkt with
  | nil => exact ⟨rfl, rfl, rfl⟩
  | cons o ops ih =>
    have hrest := ih (pkt.next o) fun o' ho' => h o' (List.mem_cons_of_mem _ ho')
    have ho := h o List.mem_cons_self
    cases o <;> first | exact hrest | exact ho.elim

theorem Packet.Filled.quiet (h : pkt.Filled license tid rs) (hq : ∀ o ∈ ops, o.Quiet) :
    (run Packet.next pkt ops).Filled license tid rs := by
  obtain ⟨hstate, hsize, hpayload⟩ := run_quiet pkt hq
  refine ⟨hstate.trans h.state, hsize.trans h.tracks.1, ?_⟩
  rw [hpayload]
  exact h.tracks.2

theorem Packet.Keeps.quiet (h : pkt.Keeps license tid rs) (hq : ∀ o ∈ ops, o.Quiet) :
    (run Packet.next pkt ops).Keeps license tid rs := by
  rcases h with ⟨hfresh, hrs⟩ | hfilled
  · obtain ⟨hstate, hsize, -⟩ := run_quiet pkt hq
    exact Or.inl ⟨⟨hstate.trans hfresh.1, hsize.trans hfresh.2⟩, hrs⟩
  · exact Or.inr (hfilled.quiet hq)

theorem Packet.Keeps.state_ne (h : pkt.Keeps license tid rs) : pkt.state ≠ .ready := by
  rcases h with ⟨hfresh, -⟩ | hfilled
  · simp [hfresh.1]
  · rw [hfilled.state]
    split <;> simp

/-! ## The trace of a call -/

theorem trace_writeHeader :
    (writeHeader license tid).trace Packet.effects pkt =
      if pkt.state = .empty then
        [.loadState, .append (metricHeader license tid), .storeState .begin]
      else [.loadState] := by
  change PacketOp.loadState :: (if pkt.state = .empty then _ else _ : PacketM Unit).trace _ _ = _
  split <;> rfl

/-- A packet without a header gets one before anything else happens. -/
theorem trace_of_empty (license : Text) (tid : UInt64) (c : GatherCall) (h : pkt.state = .empty) :
    ∃ rest, (gatherBody license tid c).trace Packet.effects pkt =
      .loadState :: .append (metricHeader license tid) :: .storeState .begin :: rest := by
  rw [gatherBody, trace_bind, gatherRecord, trace_bind, trace_writeHeader, if_pos h]
  exact ⟨_, rfl⟩

/-- Otherwise the first two statements look at the state. -/
theorem trace_of_not_empty (license : Text) (tid : UInt64) (c : GatherCall)
    (h : pkt.state ≠ .empty) :
    ∃ rest, (gatherBody license tid c).trace Packet.effects pkt =
      .loadState :: .loadState :: rest := by
  rw [gatherBody, trace_bind, gatherRecord, trace_bind, trace_writeHeader, if_neg h]
  exact ⟨_, rfl⟩

theorem rollback_notMem_packetGather {func : PacketM GatherError} (tag : Text)
    (h : ∀ pkt, .rollback ∉ func.trace Packet.effects pkt) (pkt : Packet) :
    .rollback ∉ (packetGather tag func).trace Packet.effects pkt := by
  simp only [packetGather, stmt, perform_bind, trace_op, trace_bind, List.mem_cons,
    List.mem_append, not_or, reduceCtorEq, not_false_eq_true, true_and]
  refine ⟨h _, ?_⟩
  split <;> simp [packetAppend, perform]

theorem Gatherer.rollback_notMem_code (g : Gatherer) (pkt : Packet) :
    .rollback ∉ g.code.trace Packet.effects pkt := by
  induction g generalizing pkt with
  | ret res => exact List.not_mem_nil
  | append t k ih => simp [code, packetAppend, ih]
  | appendAfter f k ih => simp [code, ih]
  | gather tag func k ihf ihk =>
    rw [code, trace_bind, List.mem_append, not_or]
    exact ⟨rollback_notMem_packetGather tag ihf pkt, ihk _ _⟩

theorem rollback_notMem_gatherRecord (license : Text) (tid : UInt64) (c : GatherCall)
    (pkt : Packet) :
    .rollback ∉ (gatherRecord license tid c).trace Packet.effects pkt := by
  simp only [gatherRecord, trace_bind, List.mem_append, not_or]
  refine ⟨?_, ?_, ?_, ?_, ?_, rollback_notMem_packetGather _ c.gather.rollback_notMem_code _⟩
  · rw [trace_writeHeader]
    split <;> simp
  · simp only [stampStart, stmt, perform_bind, trace_op]
    split <;> simp [perform]
  · simp [packetTransaction, perform]
  · simp only [writeComma, stmt, perform_bind, trace_op]
    split <;> simp [packetAppend, perform]
  · simp [packetAppend, perform]

theorem rollback_notMem_expire (now : Epoch) (pkt : Packet) :
    .rollback ∉ (expire now).trace Packet.effects pkt := by
  simp only [expire, packetExpired, retire, stmt, perform_bind, op_bind, ret_bind, pure_eq,
    trace_op]
  split
  · simp only [trace_op]
    split <;> simp [packetAppend, perform]
  · simp

theorem rollback_notMem_settle (pkt : Packet) :
    .rollback ∉ (settle .enone).trace Packet.effects pkt := by
  simp only [settle, packetAppend, packetCommit, stmt, perform_bind, trace_op]
  split <;> simp [perform]

theorem trace_gatherBody (license : Text) (tid : UInt64) (c : GatherCall) (pkt : Packet) :
    ∃ res pkt', (gatherRecord license tid c).exec Packet.effects pkt = (res, pkt') ∧
      (gatherBody license tid c).trace Packet.effects pkt =
        (gatherRecord license tid c).trace Packet.effects pkt ++
          ((settle res).trace Packet.effects pkt' ++
            (expire c.now).trace Packet.effects ((settle res).exec Packet.effects pkt').2) := by
  refine ⟨_, _, Prod.mk.eta.symm, ?_⟩
  simp only [gatherBody, trace_bind, pure_eq, trace_ret, List.append_nil]

/-- There is at most one rollback in a call: right after `packet_gather` has failed. -/
theorem split_at_rollback {before rest : List PacketOp}
    (h : (gatherBody license tid c).trace Packet.effects pkt = before ++ .rollback :: rest) :
    before = (gatherRecord license tid c).trace Packet.effects pkt ∧
      ((gatherRecord license tid c).exec Packet.effects pkt).1 ≠ .enone := by
  obtain ⟨res, pkt', hexec, htrace⟩ := trace_gatherBody license tid c pkt
  have hrecord := rollback_notMem_gatherRecord license tid c pkt
  have hexpire := rollback_notMem_expire c.now ((settle res).exec Packet.effects pkt').2
  rw [htrace] at h
  rw [hexec]
  by_cases hres : res = .enone
  · subst hres
    have hsettle := rollback_notMem_settle pkt'
    have hmem : PacketOp.rollback ∈ before ++ .rollback :: rest := by simp
    rw [← h] at hmem
    simp [hrecord, hsettle, hexpire] at hmem
  · have hroll : (settle res).trace Packet.effects pkt' = [.rollback] := by
      cases res <;> first | exact absurd rfl hres | rfl
    rw [hroll, List.singleton_append, List.append_cons_inj_of_notMem hrecord hexpire] at h
    exact ⟨h.1.symm, hres⟩

/-! ## One attempt -/

theorem Kept.serves {s : CutRun} (h : Kept license tid s.rs s.p.working) (c : GatherCall) :
    (s.p.packet c).Serves license tid s.inUse ∧ held s.inUse = s.rs := by
  unfold Plugin.packet CutRun.inUse
  cases hp : s.p.working with
  | none =>
    rw [hp] at h
    exact ⟨Or.inl ⟨fresh_getPacket _ _, rfl⟩, h.symm⟩
  | some pkt =>
    rw [hp] at h
    refine ⟨?_, rfl⟩
    rcases h with ⟨hfresh, hrs⟩ | hfilled
    · exact Or.inl ⟨hfresh, hrs⟩
    · refine Or.inr ⟨hfilled, ?_⟩
      rintro _ ⟨rfl⟩ -
      rfl

/-- After a harmless cut the packet still holds the records of completed calls. -/
theorem keeps_of_cut {ops : List PacketOp} (hk : pkt.Serves license tid w)
    (hfit : (metricText license tid (held w)).length < pktsz)
    (hpre : ops <+: (gatherBody license tid c).trace Packet.effects pkt)
    (hroom : .rollback ∈ ops → c.Room Begins license tid w) (hops : Harmless ops) :
    (run Packet.next pkt ops).Keeps license tid (held w) := by
  cases hops with
  | untouched hq =>
    refine Keeps.quiet ?_ hq
    rcases hk with hfresh | hfilled
    · exact Or.inl hfresh
    · exact Or.inr hfilled.1
  | headed t hq =>
    obtain ⟨rest, hrest⟩ := hpre
    by_cases hempty : pkt.state = .empty
    · obtain ⟨rest', htrace⟩ := trace_of_empty license tid c hempty
      rw [htrace] at hrest
      simp only [List.cons_append, List.cons.injEq, PacketOp.append.injEq, true_and] at hrest
      rcases hk with ⟨hfresh, hrs⟩ | ⟨hfilled, -⟩
      · rw [hrest.1, hrs]
        exact Or.inr ((filled_header hfresh).quiet hq)
      · exact absurd hempty hfilled.state_ne
    · obtain ⟨rest', htrace⟩ := trace_of_not_empty license tid c hempty
      rw [htrace] at hrest
      simp at hrest
  | rolledBack before hq =>
    obtain ⟨rest, hrest⟩ := hpre
    rw [List.append_assoc, List.cons_append] at hrest
    obtain ⟨rfl, hres⟩ := split_at_rollback hrest.symm
    obtain ⟨hcomma, hstamp, hopen, hgather, hclose, -⟩ := hroom (by simp)
    obtain ⟨hret, hgathered⟩ := (gatherRecord_writes hk hfit).post
      ⟨hcomma, hstamp, hopen, hgather, fun he => (hclose he).1⟩
    have hne : c.emitted.2 ≠ .enone := by
      rw [← hret]
      exact hres
    have hfilled := ((settle_rollback hgathered hne hfit).post trivial).2.1
    rw [GatherCall.records_of_ne hne] at hfilled
    have hrun : run Packet.next pkt ((gatherRecord license tid c).trace Packet.effects pkt) =
        ((gatherRecord license tid c).exec Packet.effects pkt).2 := run_trace (E := Packet.effects)
    rw [run_append, hrun, run_cons]
    exact Or.inr (hfilled.quiet hq)

/-- The invariant of a run with cuts: the READY packets and the working one hold the
records of the calls `cs` completed so far. -/
structure CutInv (m : Meta) (tid : UInt64) (cs : List GatherCall) (s : CutRun) : Prop where
  sameTid : s.p.tid = tid
  kept : Kept m.license tid s.rs s.p.working
  fits : (metricText m.license tid s.rs).length < pktsz
  ready : ∃ rss, List.Forall₂ (Finished m.license tid) rss (published s.log) ∧
    rss.flatten ++ s.rs = recordsOf cs

theorem Working.kept {work : Option Packet} (h : Working license tid w work) :
    Kept license tid (held w) work := by
  cases w with
  | none =>
    cases work with
    | none => rfl
    | some pkt => exact h.elim
  | some u =>
    cases work with
    | none => exact h.elim
    | some pkt => exact Or.inr h.1

theorem cutInv_whole {s : CutRun} {cs : List GatherCall} (h : CutInv m tid cs s)
    (hc : CleanAttempt m s (.whole c)) :
    CutInv m tid (cs ++ [c]) (attemptStep m s (.whole c)) := by
  obtain ⟨rfl, hkept, hfits, rss, hall, hrecords⟩ := h
  obtain ⟨hserves, hheld⟩ := hkept.serves c
  rw [← hheld] at hfits hrecords
  obtain ⟨hres, hleft⟩ := (gatherBody_writes (c := c) hserves hfits).post
    (c.room_mono (fun _ _ => Fits.begins) hc)
  obtain ⟨hwork, htid, -, hpub⟩ := pluginGather_of_body (Prod.ext hres rfl)
  have hworking := hleft.working (c.room_fits hc hfits)
  rw [← hwork] at hworking
  have hready := hleft.published (c.room_ready hc)
  rw [← hpub] at hready
  refine ⟨htid, hworking.kept, ?_, rss ++ (advance s.inUse c).2, ?_, ?_⟩
  · exact hworking.fits
  · rw [attemptStep, published_append]
    exact List.rel_append hall hready
  · have hconserve := advance_conserves s.inUse c
    rw [attemptStep, List.flatten_append, List.append_assoc, hconserve, ← List.append_assoc,
      hrecords]
    cases hr : c.record? <;> simp [recordsOf, hr]

theorem cutInv_cut {s : CutRun} {cs : List GatherCall} (h : CutInv m tid cs s)
    (hc : CleanAttempt m s (.cut c n)) : CutInv m tid cs (attemptStep m s (.cut c n)) := by
  obtain ⟨rfl, hkept, hfits, hready⟩ := h
  obtain ⟨hserves, hheld⟩ := hkept.serves c
  rw [← hheld] at hfits
  have hkeeps : (run Packet.next (s.p.packet c) (executed m s.p c n)).Keeps m.license s.p.tid
      (held s.inUse) := keeps_of_cut hserves hfits (List.take_prefix n _) hc.2 hc.1
  rw [hheld] at hkeeps hfits
  have hlog : (attemptStep m s (.cut c n)).log = s.log := by
    have hstate := hkeeps.state_ne
    simp only [attemptStep, cutGather]
    rw [if_neg hstate, List.append_nil]
  refine ⟨rfl, hkeeps, hfits, ?_⟩
  rw [hlog]
  exact hready

/-- One attempt at a harmless place. -/
theorem cutInv_step {s : CutRun} {cs : List GatherCall} {a : Attempt} (h : CutInv m tid cs s)
    (hc : CleanAttempt m s a) : CutInv m tid (cs ++ wholeCalls [a]) (attemptStep m s a) := by
  cases a with
  | whole c => exact cutInv_whole h hc
  | early c =>
    have hcs : cs ++ wholeCalls [.early c] = cs := List.append_nil cs
    rw [hcs]
    exact h
  | cut c n =>
    have hcs : cs ++ wholeCalls [.cut c n] = cs := List.append_nil cs
    rw [hcs]
    exact cutInv_cut h hc

theorem cutInv_run {s : CutRun} {cs : List GatherCall} (as : List Attempt) (h : CutInv m tid cs s)
    (hc : Along (attemptStep m) (CleanAttempt m) s as) :
    CutInv m tid (cs ++ wholeCalls as) (run (attemptStep m) s as) := by
  induction as generalizing s cs with
  | nil => simpa [wholeCalls] using h
  | cons a as ih =>
    have hsplit : cs ++ wholeCalls (a :: as) = cs ++ wholeCalls [a] ++ wholeCalls as := by
      rw [List.append_assoc, wholeCalls, wholeCalls, wholeCalls, ← List.filterMap_append]
      rfl
    rw [hsplit, run_cons]
    exact ih (cutInv_step h hc.1) hc.2

/-- The packet between two attempts: one without a header, or the header and the records. -/
def keptText (license : Text) (tid : UInt64) (rs : List Record) : Option Packet → Prop
  | none => rs = []
  | some pkt => (pkt.Fresh ∧ rs = []) ∨
      pkt.text = metricText license tid rs ∧ pkt.payload pkt.size = 0

/-- Calls that are only ever cut at harmless places leave nothing behind: the READY
packets and the working one hold the records of the completed ENONE calls, in order and
in the right format. -/
theorem cut_run_exact (m : Meta) (p : Plugin) (as : List Attempt) (hw : p.working = none)
    (hc : Along (attemptStep m) (CleanAttempt m) ⟨p, [], []⟩ as) :
    let s := run (attemptStep m) ⟨p, [], []⟩ as
    ∃ rss, List.Forall₂ (Finished m.license p.tid) rss (published s.log) ∧
      keptText m.license p.tid s.rs s.p.working ∧
      rss.flatten ++ s.rs = recordsOf (wholeCalls as) := by
  have hstart : CutInv m p.tid [] ⟨p, [], []⟩ := by
    refine ⟨rfl, ?_, metricText_nil_lt m p.tid, [], List.Forall₂.nil, rfl⟩
    rw [hw]
    rfl
  obtain ⟨-, hkept, hfits, rss, hall, hrecords⟩ := cutInv_run as hstart hc
  refine ⟨rss, hall, ?_, hrecords⟩
  revert hkept
  cases (run (attemptStep m) ⟨p, [], []⟩ as).p.working with
  | none => exact id
  | some pkt =>
    rintro (hfresh | hfilled)
    · exact Or.inl hfresh
    · refine Or.inr ⟨hfilled.tracks.text_eq hfits, ?_⟩
      rw [hfilled.tracks.1]
      exact (hfilled.tracks.holds hfits).nul

/-- A call with one text, begun at `t`. -/
def oneText (t : Epoch) : GatherCall := ⟨t, t + 1, .fresh, .ofTexts [str "\"a\":1"] .enone⟩

/-- Cut right after the header, then two calls, the second past the expiry. -/
theorem cut_run_exact_headed :
    let as := [Attempt.cut (oneText 1000) 3, .whole (oneText 2000), .whole (oneText 9000)]
    let s := run (attemptStep Meta.sample) ⟨Plugin.sample, [], []⟩ as
    ∃ rss, List.Forall₂ (Finished Meta.sample.license Plugin.sample.tid) rss (published s.log) ∧
      rss.flatten ++ s.rs = [⟨2000, str "\"a\":1"⟩, ⟨9000, str "\"a\":1"⟩] := by
  intro as s
  have hclean : Along (attemptStep Meta.sample) (CleanAttempt Meta.sample)
      ⟨Plugin.sample, [], []⟩ as := by
    refine ⟨⟨@Harmless.headed _ [] (by simp), ?_⟩, ?_, ?_, trivial⟩
    · intro hmem
      change PacketOp.rollback ∈ [.loadState, .append _, .storeState .begin] at hmem
      simp at hmem
    · change GatherCall.Room _ _ _ _ _
      decide
    · change GatherCall.Room _ _ _ _ _
      decide
  obtain ⟨rss, hall, -, hrecords⟩ := cut_run_exact Meta.sample Plugin.sample as rfl hclean
  exact ⟨rss, hall, hrecords⟩

/-- Cut after the timestamp of its first record, then a call past the expiry. -/
def cutAfterStamp : List Attempt :=
  [.cut (oneText 1000) 8, .whole ⟨2000, 9000, .fresh, .ofTexts [] .enone⟩]

/-- What the second call finishes is longer than its one record. -/
theorem cut_leaves_bytes :
    let s := run (attemptStep Meta.sample) ⟨Plugin.sample, [], []⟩ cutAfterStamp
    ¬ ∃ rss rs, List.Forall₂ (Finished Meta.sample.license Plugin.sample.tid) rss
        (published s.log) ∧ rss.flatten ++ rs = recordsOf (wholeCalls cutAfterStamp) := by
  rintro s ⟨rss, rs, hall, hrecords⟩
  have hcall : recordsOf (wholeCalls cutAfterStamp) = [⟨2000, []⟩] := by decide
  have hsizes : ∃ pkt, published s.log = [pkt] ∧ pkt.size = 84 := ⟨_, rfl, by decide +kernel⟩
  obtain ⟨pkt, hpub, hsize⟩ := hsizes
  rw [hpub] at hall
  obtain ⟨l, rss', hfin, hnil, rfl⟩ := List.forall₂_cons_right_iff.mp hall
  rw [List.forall₂_nil_right_iff.mp hnil, hcall] at hrecords
  have hl : l = [⟨2000, []⟩] := by
    cases l with
    | nil => exact absurd rfl hfin.records
    | cons r l => simp_all
  have hlen : pkt.text.length = pkt.size := length_slice
  rw [hfin.text, hl, hsize] at hlen
  revert hlen
  decide

end MonitoringAgent
