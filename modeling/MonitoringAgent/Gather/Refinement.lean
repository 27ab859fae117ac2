import MonitoringAgent.Gather.Section

/-!
# One call of `plugin_gather`

The call follows the record lists of `advance`, and stays inside the payload exactly
when its appends begin there.
-/
namespace MonitoringAgent

open Buffer Command Transition Packet

variable {pkt pkt' : Packet} {license : Text} {tid : UInt64} {rs : List Record}
  {w : Option InUse} {c : GatherCall} {t : Epoch} {res : GatherError}

/-- A packet that holds the records `rs` and is between two calls. -/
structure Packet.Filled (license : Text) (tid : UInt64) (rs : List Record) (pkt : Packet) :
    Prop where
  state : pkt.state = if rs = [] then .begin else .wrote
  tracks : pkt.Tracks (metricText license tid rs)

/-- As `get_packet` hands it out. -/
def Packet.Fresh (pkt : Packet) : Prop := pkt.state = .empty ∧ pkt.size = 0

theorem fresh_getPacket (type : PacketType) (src : Source) : (getPacket type src).Fresh := by
  cases src <;> exact ⟨rfl, rfl⟩

/-- The packet a call finds: one without a record, or the working packet with its
records. Only with records does the call look at the start time. -/
def Packet.Serves (license : Text) (tid : UInt64) (w : Option InUse) (pkt : Packet) : Prop :=
  (pkt.Fresh ∧ held w = []) ∨
    (pkt.Filled license tid (held w) ∧ ∀ u, w = some u → u.records ≠ [] → pkt.started = u.started)

/-- Every append of the call meets `R`: comma, timestamp, section, the closing braces
of a record that stays, and the end of a packet that expires with records. -/
def GatherCall.Room (R : Nat → Nat → Prop) (license : Text) (tid : UInt64) (w : Option InUse)
    (c : GatherCall) : Prop :=
  let text := metricText license tid (held w)
  let before := text ++ comma (held w)
  let stamped := before ++ timestamp c.start
  let opened := stamped ++ openTag (str "values") (ch ',')
  let rs := c.records w
  (held w ≠ [] → R text.length 1) ∧ R before.length (timestamp c.start).length ∧
    R stamped.length (openTag (str "values") (ch ',')).length ∧
    c.gather.Room R (ch '{') opened.length ∧
    (c.emitted.2 = .enone →
      R (opened ++ c.emitted.1).length 1 ∧ R (opened ++ c.emitted.1 ++ str "\x7d").length 1) ∧
    (expired (startOf w c) c.now → rs ≠ [] → R (metricText license tid rs).length 2)

instance {R : Nat → Nat → Prop} [DecidableRel R] : Decidable (c.Room R license tid w) :=
  inferInstanceAs (Decidable ((_ → _) ∧ _ ∧ _ ∧ _ ∧ (_ → _ ∧ _) ∧ (_ → _ → _)))

theorem GatherCall.room_mono {R R' : Nat → Nat → Prop} (h : ∀ n len, R n len → R' n len)
    (hr : c.Room R license tid w) : c.Room R' license tid w := by
  obtain ⟨hcomma, hstamp, hopen, hgather, hclose, hend⟩ := hr
  exact ⟨fun hne => h _ _ (hcomma hne), h _ _ hstamp, h _ _ hopen,
    c.gather.room_mono h _ _ hgather,
    fun he => ⟨h _ _ (hclose he).1, h _ _ (hclose he).2⟩,
    fun he hne => h _ _ (hend he hne)⟩

/-- The record text as the call writes it. -/
theorem Record.text_eq (t : Epoch) (v : Text) :
    Record.text ⟨t, v⟩ =
      timestamp t ++ openTag (str "values") (ch ',') ++ v ++ str "\x7d" ++ str "\x7d" := by
  have htag : openTag (str "values") (ch ',') = str "\"values\":\x7b" := by decide
  have hclose : str "\x7d\x7d" = str "\x7d" ++ str "\x7d" := by decide
  simp only [Record.text, htag, hclose, List.append_assoc]

theorem getLast?_timestamp (s : Text) (t : Epoch) :
    (s ++ timestamp t).getLast? = some (ch ',') := by
  have h : (str ",").getLast? = some (ch ',') := by decide
  rw [timestamp, ← List.append_assoc, List.getLast?_append, h]
  rfl

theorem length_decimal_lt (n : UInt64) : (Decimal.decimal n.toNat).length ≤ 20 := by
  have hn := n.toNat_lt
  rw [Decimal.decimal, List.length_map, Nat.length_toDigits_le_iff (by decide) (by decide)]
  omega

/-- The header alone always fits: the license sits in an array of 99 bytes. -/
theorem metricText_nil_lt (m : Meta) (tid : UInt64) :
    (metricText m.license tid []).length < pktsz := by
  have hl := m.license_lt
  have ht := length_decimal_lt tid
  simp only [metricText, metricHeader, recordsText, List.append_nil, List.length_append]
  have h₁ : (str "\x7b\"license\":\"").length = 12 := by decide
  have h₂ : (str "\",\"tid\":").length = 8 := by decide
  have h₃ : (str ",\"metrics\":[").length = 12 := by decide
  unfold pktsz
  omega

/-! ## The statements before the gather function -/

theorem tracks_append_fresh (h : pkt.size = 0) (s : Text) : (pkt.append s).Tracks s := by
  refine ⟨by simp [Packet.append, h], fun hs => ?_⟩
  have hroom : s.length < room 0 := by
    rw [room_of_lt (by decide)]
    omega
  have hslice : slice pkt.payload ([] : Text).length = [] := rfl
  have hsp := holds_sprintf (t := s) hslice
  simpa only [Packet.append, h, snprintf_of_fits hroom, List.length_nil, List.nil_append] using hsp

/-- The header and the change to BEGIN. -/
theorem filled_header (h : pkt.Fresh) :
    Filled license tid []
      { pkt.append (metricHeader license tid) with state := .begin } := by
  have htracks := tracks_append_fresh h.2 (metricHeader license tid)
  have htext : metricText license tid [] = metricHeader license tid := by
    simp [metricText, recordsText]
  refine ⟨rfl, ?_⟩
  rw [htext]
  exact htracks

theorem Packet.Filled.state_ne (h : pkt.Filled license tid rs) : pkt.state ≠ .empty := by
  rw [h.state]
  split <;> simp

theorem writeHeader_writes (h : pkt.Serves license tid w) :
    Writes (writeHeader license tid) pkt True () fun pkt' =>
      pkt'.Filled license tid (held w) ∧
        ∀ u, w = some u → u.records ≠ [] → pkt'.started = u.started := by
  refine Exact.step trivial ?_
  change Writes (if pkt.state = .empty then _ else _) pkt True () _
  rcases h with ⟨hfresh, hrs⟩ | ⟨hfilled, hstarted⟩
  · rw [if_pos hfresh.1, hrs]
    refine Exact.step (by rw [InBounds, hfresh.2]; decide) (Exact.step trivial (Exact.ret ?_))
    refine ⟨filled_header hfresh, ?_⟩
    rintro u rfl hne
    exact absurd hrs hne
  · rw [if_neg hfilled.state_ne]
    exact Exact.ret ⟨hfilled, hstarted⟩

theorem stampStart_writes (h : pkt.Filled license tid (held w))
    (hs : ∀ u, w = some u → u.records ≠ [] → pkt.started = u.started) :
    Writes (stampStart c.start) pkt True () fun pkt' =>
      pkt'.Filled license tid (held w) ∧ pkt'.started = startOf w c := by
  refine Exact.step trivial ?_
  change Writes (if pkt.state = .begin then _ else _) pkt True () _
  by_cases hrs : held w = []
  · rw [if_pos (by rw [h.state, if_pos hrs])]
    refine Exact.step trivial (Exact.ret ⟨⟨h.state, h.tracks⟩, ?_⟩)
    cases w with
    | none => rfl
    | some u => simp_all [startOf, held, Packet.effects, Packet.next]
  · rw [if_neg (by rw [h.state, if_neg hrs]; simp)]
    refine Exact.ret ⟨h, ?_⟩
    cases w with
    | none => simp [held] at hrs
    | some u => simp_all [startOf, held]

/-- The comma after earlier records and the timestamp of the new one. -/
theorem writeComma_writes (h : pkt.Filled license tid rs) :
    Writes writeComma pkt (rs ≠ [] → (metricText license tid rs).length < pktsz) () fun pkt' =>
      pkt'.Tracks (metricText license tid rs ++ comma rs) ∧ pkt.Extends pkt' := by
  refine Exact.step trivial ?_
  change Writes (if pkt.state = .wrote then _ else _) pkt _ () _
  by_cases hrs : rs = []
  · rw [if_neg (by rw [h.state, if_pos hrs]; simp)]
    refine (Exact.ret ⟨?_, Extends.refl pkt⟩).congr (by simp [hrs])
    simpa [comma, hrs] using h.tracks
  · rw [if_pos (by rw [h.state, if_neg hrs])]
    have happ := append_writes h.tracks (str ",")
    refine (happ.congr (by simp [hrs])).mono ?_
    rintro - pkt' ⟨ht, hext⟩
    exact ⟨by simpa [comma, hrs] using ht, hext⟩

/-! ## The call -/

/-- The packet as `packet_gather` leaves it: the transaction point `n` is set and a
record that stays lacks only its last brace. -/
structure Packet.Gathered (license : Text) (tid : UInt64) (w : Option InUse) (c : GatherCall)
    (pkt : Packet) : Prop where
  state : pkt.state = if held w = [] then .begin else .wrote
  started : pkt.started = startOf w c
  rollbackPoint : pkt.rollbackPoint = (metricText license tid (held w)).length
  tracks : pkt.Tracks (metricText license tid (held w) ++ comma (held w) ++ timestamp c.start ++
    sectionText (str "values") (ch ',') c.emitted.1 c.emitted.2)
  below : slice pkt.payload (metricText license tid (held w)).length =
    metricText license tid (held w)

theorem gatherRecord_writes (h : pkt.Serves license tid w)
    (hfit : (metricText license tid (held w)).length < pktsz) :
    let text := metricText license tid (held w)
    let before := text ++ comma (held w)
    let stamped := before ++ timestamp c.start
    let opened := stamped ++ openTag (str "values") (ch ',')
    Writes (gatherRecord license tid c) pkt
      ((held w ≠ [] → text.length < pktsz) ∧ before.length < pktsz ∧ stamped.length < pktsz ∧
        c.gather.Room Begins (ch '{') opened.length ∧
        (c.emitted.2 = .enone → (opened ++ c.emitted.1).length < pktsz))
      c.emitted.2 (Gathered license tid w c) := by
  intro text before stamped opened
  have hafter : ∀ pkt₂, pkt₂.Filled license tid (held w) ∧ pkt₂.started = startOf w c →
      Writes (do
        packetTransaction
        writeComma
        packetAppend (timestamp c.start)
        packetGather (str "values") c.gather.code) pkt₂
        ((held w ≠ [] → text.length < pktsz) ∧ before.length < pktsz ∧ stamped.length < pktsz ∧
          c.gather.Room Begins (ch '{') opened.length ∧
          (c.emitted.2 = .enone → (opened ++ c.emitted.1).length < pktsz))
        c.emitted.2 (Gathered license tid w c) := by
    rintro pkt₂ ⟨hfilled, hstarted⟩
    let pkt₂' := { pkt₂ with rollbackPoint := pkt₂.size }
    have hmarked : pkt₂'.Filled license tid (held w) := ⟨hfilled.state, hfilled.tracks⟩
    refine Exact.step trivial ?_
    refine (writeComma_writes hmarked).bind fun _ pkt₃ h₃ => ?_
    refine (append_writes h₃.1 (timestamp c.start)).bind fun _ pkt₄ h₄ => ?_
    refine (packetGather_writes h₄.1 (getLast?_timestamp _ _) fun pkt' ht' =>
      c.gather.code_writes ht' (getLast?_openTag _ _)).mono ?_
    rintro - pkt₅ ⟨ht₅, hext₅⟩
    have hext := (h₃.2.trans h₄.2).trans hext₅
    refine ⟨hext.state.trans hfilled.state, hext.started.trans hstarted,
      hext.rollbackPoint.trans hfilled.tracks.1, ht₅, ?_⟩
    have hslice := (hfilled.tracks.holds hfit).slice_eq
    rw [← hfilled.tracks.1] at hslice ⊢
    exact (slice_congr hext.below).trans hslice
  refine ((writeHeader_writes h).bind fun _ pkt₁ h₁ =>
    (stampStart_writes h₁.1 h₁.2).bind fun _ pkt₂ h₂ => hafter pkt₂ h₂).congr ?_
  simp only [true_and]

theorem settle_enone (h : pkt.Gathered license tid w c) (he : c.emitted.2 = .enone) :
    Writes (settle .enone) pkt
      ((metricText license tid (held w) ++ comma (held w) ++ timestamp c.start ++
        openTag (str "values") (ch ',') ++ c.emitted.1 ++ str "\x7d").length < pktsz) ()
      fun pkt' => pkt'.Filled license tid (c.records w) ∧ pkt'.started = startOf w c := by
  have htracks := h.tracks
  simp only [sectionText, he, if_true, ← List.append_assoc] at htracks
  have hrecords : metricText license tid (c.records w) =
      metricText license tid (held w) ++ comma (held w) ++ timestamp c.start ++
        openTag (str "values") (ch ',') ++ c.emitted.1 ++ str "\x7d" ++ str "\x7d" := by
    rw [GatherCall.records_of_enone he, metricText_concat, Record.text_eq]
    simp only [List.append_assoc]
  have hne : c.records w ≠ [] := by simp [GatherCall.records_of_enone he]
  refine ((append_writes htracks (str "\x7d")).bind fun _ pkt₁ h₁ => ?_).congr
    (and_true _).symm.to_iff
  rw [← hrecords] at h₁
  have hstarted := h₁.2.started.trans h.started
  refine Exact.step trivial ?_
  change Writes (if pkt₁.state = .begin then _ else _) pkt₁ True () _
  by_cases hst : pkt₁.state = .begin
  · rw [if_pos hst]
    refine Exact.step trivial (Exact.step trivial (Exact.ret ⟨⟨?_, h₁.1⟩, hstarted⟩))
    rw [if_neg hne]
    rfl
  · rw [if_neg hst]
    refine Exact.step trivial (Exact.ret ⟨⟨?_, h₁.1⟩, hstarted⟩)
    have hwrote := h₁.2.state.trans h.state
    rw [if_neg hne]
    split at hwrote
    · exact absurd hwrote hst
    · exact hwrote

theorem settle_rollback (h : pkt.Gathered license tid w c) (he : c.emitted.2 ≠ .enone)
    (hfit : (metricText license tid (held w)).length < pktsz) :
    Writes packetRollback pkt True () fun pkt' =>
      pkt'.Filled license tid (c.records w) ∧ pkt'.started = startOf w c := by
  rw [GatherCall.records_of_ne he]
  refine Exact.step (by rw [InBounds, h.rollbackPoint]; exact hfit)
    (Exact.ret ⟨⟨h.state, ?_⟩, h.started⟩)
  refine ⟨h.rollbackPoint, fun _ => ?_⟩
  have hterm := holds_terminate h.below
  rw [← h.rollbackPoint] at hterm
  exact hterm

theorem settle_writes (h : pkt.Gathered license tid w c)
    (hfit : (metricText license tid (held w)).length < pktsz) :
    Writes (settle c.emitted.2) pkt
      (c.emitted.2 = .enone → (metricText license tid (held w) ++ comma (held w) ++
        timestamp c.start ++ openTag (str "values") (ch ',') ++ c.emitted.1 ++
        str "\x7d").length < pktsz) ()
      fun pkt' => pkt'.Filled license tid (c.records w) ∧ pkt'.started = startOf w c := by
  by_cases he : c.emitted.2 = .enone
  · have := settle_enone h he
    rw [← he] at this
    exact this.congr (by simp [he])
  · have hroll : settle c.emitted.2 = packetRollback := by
      cases hres : c.emitted.2 <;> simp_all [settle]
    rw [hroll]
    exact (settle_rollback h he hfit).congr (by simp [he])

/-- What a call leaves: the packet still in use, thrown away without a record, or
finished. The committed text stands in each case. -/
structure Packet.Left (license : Text) (tid : UInt64) (w : Option InUse) (c : GatherCall)
    (pkt : Packet) : Prop where
  started : pkt.started = startOf w c
  intact : (metricText license tid (c.records w)).length < pktsz →
    slice pkt.payload (metricText license tid (c.records w)).length =
      metricText license tid (c.records w)
  inUse : expired (startOf w c) c.now = false → pkt.Filled license tid (c.records w)
  thrown : expired (startOf w c) c.now = true → c.records w = [] →
    pkt.state = .done ∧ pkt.Tracks (metricText license tid (c.records w))
  finished : expired (startOf w c) c.now = true → c.records w ≠ [] →
    pkt.state = .ready ∧ pkt.Tracks (readyText license tid (c.records w))

theorem retire_writes (h : pkt.Filled license tid (c.records w))
    (hstarted : pkt.started = startOf w c) (hexp : expired (startOf w c) c.now = true) :
    Writes retire pkt
      (c.records w ≠ [] → (metricText license tid (c.records w)).length < pktsz) ()
      (Left license tid w c) := by
  have hkeep : ∀ pkt' : Packet, pkt.Extends pkt' →
      (metricText license tid (c.records w)).length < pktsz →
      slice pkt'.payload (metricText license tid (c.records w)).length =
        metricText license tid (c.records w) := by
    intro pkt' hext hlen
    have hslice := (h.tracks.holds hlen).slice_eq
    rw [← h.tracks.1] at hslice ⊢
    exact (slice_congr hext.below).trans hslice
  refine Exact.step trivial ?_
  change Writes (if pkt.state = .wrote then _ else _) pkt _ () _
  by_cases hrs : c.records w = []
  · rw [if_neg (by rw [h.state, if_pos hrs]; simp)]
    refine Exact.step trivial ((Exact.ret ?_).congr (by simp [hrs]))
    exact ⟨hstarted, hkeep pkt (Extends.refl pkt), by simp [hexp], fun _ _ => ⟨rfl, h.tracks⟩,
      fun _ hne => absurd hrs hne⟩
  · rw [if_pos (by rw [h.state, if_neg hrs])]
    refine ((append_writes h.tracks (str "]\x7d")).bind fun _ pkt₁ h₁ =>
      Exact.step trivial (Exact.ret ?_)).congr (by simp [hrs])
    exact ⟨h₁.2.started.trans hstarted, hkeep pkt₁ h₁.2, by simp [hexp],
      fun _ he => absurd he hrs, fun _ _ => ⟨rfl, h₁.1⟩⟩

theorem expire_writes (h : pkt.Filled license tid (c.records w))
    (hstarted : pkt.started = startOf w c) :
    Writes (expire c.now) pkt
      (expired (startOf w c) c.now → c.records w ≠ [] →
        (metricText license tid (c.records w)).length < pktsz)
      (expired (startOf w c) c.now) (Left license tid w c) := by
  refine Exact.step trivial ?_
  change Writes (if expired pkt.started c.now = true then _ else _) pkt _ _ _
  rw [hstarted]
  cases hexp : expired (startOf w c) c.now with
  | true =>
    rw [if_pos rfl]
    have hretire := (retire_writes h hstarted hexp).bind (f := fun _ => pure true)
      fun _ pkt₁ h₁ => Exact.ret h₁
    exact hretire.congr (by simp)
  | false =>
    rw [if_neg (by simp)]
    refine (Exact.ret ?_).congr (by simp)
    exact ⟨hstarted, fun hlen => (h.tracks.holds hlen).slice_eq, fun _ => h, by simp [hexp],
      by simp [hexp]⟩

/-- The whole call. -/
theorem gatherBody_writes (h : pkt.Serves license tid w)
    (hfit : (metricText license tid (held w)).length < pktsz) :
    Writes (gatherBody license tid c) pkt (c.Room Begins license tid w)
      (c.emitted.2, expired (startOf w c) c.now) (Left license tid w c) := by
  have hrest : ∀ pkt₁, pkt₁.Gathered license tid w c →
      Writes (do
        settle c.emitted.2
        let retired ← expire c.now
        pure (c.emitted.2, retired)) pkt₁ _ _ (Left license tid w c) := fun pkt₁ h₁ =>
    (settle_writes h₁ hfit).bind fun _ pkt₂ h₂ =>
      (expire_writes h₂.1 h₂.2).bind fun _ pkt₃ h₃ => Exact.ret h₃
  refine ((gatherRecord_writes h hfit).bind fun _ pkt₁ h₁ => hrest pkt₁ h₁).congr ?_
  constructor
  · rintro ⟨hcomma, hstamp, hopen, hgather, hclose, hend⟩
    exact ⟨⟨hcomma, hstamp, hopen, hgather, fun he => (hclose he).1⟩, fun he => (hclose he).2,
      hend, trivial⟩
  · rintro ⟨⟨hcomma, hstamp, hopen, hgather, hclose⟩, hlast, hend, -⟩
    exact ⟨hcomma, hstamp, hopen, hgather, fun he => ⟨hclose he, hlast he⟩, hend⟩

end MonitoringAgent
