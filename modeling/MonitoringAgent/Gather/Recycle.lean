import MonitoringAgent.Gather.Run

/-!
# Recycled packets

`get_packet` clears some fields of a packet it takes from DONE and leaves the others, and
the payload, as the last use left them. Two runs of the same calls on packets that differ
in such remains.
-/
namespace MonitoringAgent

open Buffer Command Transition Packet

/-- What `plugin_gather` does before it enters the gather function. -/
def enter (license : Text) (tid : UInt64) (start : Epoch) : PacketM Unit := do
  writeHeader license tid
  stampStart start
  packetTransaction
  writeComma
  packetAppend (timestamp start)
  stmt (.appendAfter (openTag (str "values")))

/-- A call whose gather function may read all of the payload below `size`. What is there
when it is entered decides what it does: all it finds there later is this text and what it
has appended itself. The packets `get_packet` would give the two runs may differ. -/
structure TwinCall where
  start : Epoch
  now : Epoch
  source : Source
  source' : Source
  gather : Text → Gatherer

namespace TwinCall

/-- The call on a plugin, with what the gather function finds in its packet. -/
def on (c : TwinCall) (source : Source) (m : Meta) (p : Plugin) : GatherCall :=
  let pkt := p.working.getD (getPacket .metric source)
  ⟨c.start, c.now, source,
    c.gather ((enter m.license p.tid c.start).exec Packet.effects pkt).2.text⟩

/-- The same in terms of the records so far. -/
def meant (c : TwinCall) (license : Text) (tid : UInt64) (source : Source) (w : Option InUse) :
    GatherCall :=
  ⟨c.start, c.now, source, c.gather (metricText license tid (held w) ++ comma (held w) ++
    timestamp c.start ++ openTag (str "values") (ch ','))⟩

end TwinCall

/-- The packet a call leaves. -/
def packetAfter (m : Meta) (p : Plugin) (c : GatherCall) : Packet :=
  ((gatherBody m.license p.tid c).exec Packet.effects (p.packet c)).2

/-- One call in both runs. -/
def twinStep (m : Meta) (s : Plugin × Plugin) (c : TwinCall) : Plugin × Plugin :=
  ((pluginGather m s.1 (c.on c.source m s.1)).1, (pluginGather m s.2 (c.on c.source' m s.2)).1)

/-- The packets the call leaves in the two runs look the same. -/
def SameAfter (m : Meta) (s : Plugin × Plugin) (c : TwinCall) : Prop :=
  let pkt := packetAfter m s.1 (c.on c.source m s.1)
  let pkt' := packetAfter m s.2 (c.on c.source' m s.2)
  pkt.state = pkt'.state ∧ pkt.SameText pkt'

/-- The texts of all calls stay shorter than PKTSZ. -/
def FitsTwin (license : Text) (tid : UInt64) : Option InUse → List TwinCall → Prop :=
  Along (fun w c => (advance w (c.meant license tid .fresh w)).1)
    fun w c => (c.meant license tid .fresh w).Room Fits license tid w

instance (license : Text) (tid : UInt64) (w : Option InUse) (cs : List TwinCall) :
    Decidable (FitsTwin license tid w cs) := decidableAlong w cs

variable {m : Meta} {p : Plugin} {pkt pkt' : Packet} {license : Text} {tid : UInt64}
  {w : Option InUse} {c : GatherCall} {source : Source}

theorem enter_writes (h : pkt.Serves license tid w) (start : Epoch) :
    let text := metricText license tid (held w)
    let stamped := text ++ comma (held w) ++ timestamp start
    Writes (enter license tid start) pkt
      ((held w ≠ [] → text.length < pktsz) ∧ (text ++ comma (held w)).length < pktsz ∧
        stamped.length < pktsz) ()
      fun pkt' => pkt'.Tracks (stamped ++ openTag (str "values") (ch ',')) := by
  intro text stamped
  have hafter : ∀ pkt₂ : Packet, pkt₂.Filled license tid (held w) →
      Writes (do
        packetTransaction
        writeComma
        packetAppend (timestamp start)
        stmt (.appendAfter (openTag (str "values")))) pkt₂
        ((held w ≠ [] → text.length < pktsz) ∧ (text ++ comma (held w)).length < pktsz ∧
          stamped.length < pktsz) ()
        fun pkt' => pkt'.Tracks (stamped ++ openTag (str "values") (ch ',')) := by
    intro pkt₂ hfilled
    have hmarked : Filled license tid (held w) { pkt₂ with rollbackPoint := pkt₂.size } :=
      ⟨hfilled.state, hfilled.tracks⟩
    refine Exact.step trivial ?_
    refine (writeComma_writes hmarked).bind fun _ pkt₃ h₃ => ?_
    refine (append_writes h₃.1 (timestamp start)).bind fun _ pkt₄ h₄ => ?_
    refine (appendAfter_writes h₄.1 (getLast?_timestamp _ _) _).mono ?_
    exact fun _ pkt₅ h₅ => h₅.1
  let c : GatherCall := ⟨start, start, .fresh, .ret .enone⟩
  refine ((writeHeader_writes h).bind fun _ pkt₁ h₁ =>
    (stampStart_writes (c := c) h₁.1 h₁.2).bind fun _ pkt₂ h₂ => hafter pkt₂ h₂.1).congr ?_
  simp only [true_and]

/-- The gather function finds what is meant to be there. -/
theorem on_eq_meant {c : TwinCall}
    (h : (p.working.getD (getPacket .metric source)).Serves m.license p.tid w)
    (hroom : (c.meant m.license p.tid .fresh w).Room Fits m.license p.tid w) :
    c.on source m p = c.meant m.license p.tid source w := by
  obtain ⟨hcomma, hstamp, hopen, -⟩ := hroom
  have hwrites := enter_writes h c.start
  obtain ⟨-, htracks⟩ := hwrites.post
    ⟨fun hne => (hcomma hne).begins, hstamp.begins, hopen.begins⟩
  have hlen : (metricText m.license p.tid (held w) ++ comma (held w) ++ timestamp c.start ++
      openTag (str "values") (ch ',')).length < pktsz := by
    rw [List.length_append]
    exact hopen
  rw [TwinCall.on, TwinCall.meant, htracks.text_eq hlen]

/-- What a call leaves is determined by the records. -/
theorem Packet.Left.same (h : pkt.Left license tid w c) (h' : pkt'.Left license tid w c)
    (hroom : c.Room Fits license tid w)
    (hw : (metricText license tid (held w)).length < pktsz) :
    pkt.state = pkt'.state ∧ pkt.SameText pkt' := by
  have hfit := c.room_fits hroom hw
  cases hexp : expired (startOf w c) c.now with
  | false =>
    have hin := h.inUse hexp
    have hin' := h'.inUse hexp
    exact ⟨hin.state.trans hin'.state.symm, hin.tracks.sameText hin'.tracks hfit⟩
  | true =>
    by_cases hrs : c.records w = []
    · obtain ⟨hstate, htracks⟩ := h.thrown hexp hrs
      obtain ⟨hstate', htracks'⟩ := h'.thrown hexp hrs
      exact ⟨hstate.trans hstate'.symm, htracks.sameText htracks' hfit⟩
    · obtain ⟨hstate, htracks⟩ := h.finished hexp hrs
      obtain ⟨hstate', htracks'⟩ := h'.finished hexp hrs
      exact ⟨hstate.trans hstate'.symm, htracks.sameText htracks' (c.room_ready hroom hexp hrs)⟩

/-! ## Both runs -/

/-- A plugin whose next call finds the records of `w`. -/
structure Plugin.Holds (m : Meta) (w : Option InUse) (p : Plugin) : Prop where
  serves : ∀ source, (p.working.getD (getPacket .metric source)).Serves m.license p.tid w
  fits : (metricText m.license p.tid (held w)).length < pktsz

theorem Working.holds (h : Working m.license p.tid w p.working) : p.Holds m w where
  serves := fun source => h.serves ⟨0, 0, source, .ret .enone⟩
  fits := h.fits

theorem Packet.Fresh.holds (h : pkt.Fresh) (hp : p.working = some pkt) : p.Holds m none where
  serves := fun source => by
    rw [hp]
    exact Or.inl ⟨h, rfl⟩
  fits := metricText_nil_lt m p.tid

/-- One call of one of the runs. -/
theorem Plugin.Holds.call {c : TwinCall} (h : p.Holds m w)
    (hroom : (c.meant m.license p.tid .fresh w).Room Fits m.license p.tid w) (source : Source) :
    (packetAfter m p (c.on source m p)).Left m.license p.tid w (c.meant m.license p.tid .fresh w) ∧
      (pluginGather m p (c.on source m p)).1.tid = p.tid ∧
      (pluginGather m p (c.on source m p)).1.Holds m
        (advance w (c.meant m.license p.tid .fresh w)).1 := by
  have hserves := h.serves source
  rw [on_eq_meant hserves hroom]
  have hbody := gatherBody_writes (c := c.meant m.license p.tid source w) hserves h.fits
  obtain ⟨hres, hleft⟩ := hbody.post (GatherCall.room_mono (fun _ _ => Fits.begins) hroom)
  obtain ⟨hwork, htid, -, -⟩ := pluginGather_of_body (Prod.ext hres rfl)
  refine ⟨⟨hleft.started, hleft.intact, hleft.inUse, hleft.thrown, hleft.finished⟩, htid, ?_⟩
  have hworking := hleft.working (GatherCall.room_fits (c := c.meant m.license p.tid source w)
    hroom h.fits)
  refine Working.holds ?_
  rw [htid, hwork]
  exact hworking

/-- The two plugins have the same tid and the same records in their packets. -/
structure Twins (m : Meta) (tid : UInt64) (w : Option InUse) (s : Plugin × Plugin) : Prop where
  tid : s.1.tid = tid ∧ s.2.tid = tid
  left : s.1.Holds m w
  right : s.2.Holds m w

theorem Twins.step {s : Plugin × Plugin} {c : TwinCall} (h : Twins m tid w s)
    (hroom : (c.meant m.license tid .fresh w).Room Fits m.license tid w) :
    SameAfter m s c ∧
      Twins m tid (advance w (c.meant m.license tid .fresh w)).1 (twinStep m s c) := by
  obtain ⟨p, p'⟩ := s
  obtain ⟨⟨rfl, htid'⟩, hleft, hright⟩ := h
  dsimp only at hroom htid' hleft hright
  have hroom' := hroom
  rw [← htid'] at hroom'
  obtain ⟨hl, htidl, hnextl⟩ := hleft.call hroom c.source
  obtain ⟨hr, htidr, hnextr⟩ := hright.call hroom' c.source'
  rw [htid'] at hr hnextr
  exact ⟨hl.same hr hroom hleft.fits, ⟨htidl, htidr.trans htid'⟩, hnextl, hnextr⟩

theorem twins_run {s : Plugin × Plugin} (cs : List TwinCall) (h : Twins m tid w s)
    (hfit : FitsTwin m.license tid w cs) : Along (twinStep m) (SameAfter m) s cs := by
  induction cs generalizing s w with
  | nil => trivial
  | cons c cs ih =>
    obtain ⟨hsame, hnext⟩ := h.step hfit.1
    exact ⟨hsame, ih hnext hfit.2⟩

/-- Whatever an earlier use left in the payload and in the fields `get_packet` does not
clear, every call of a run leaves the same state, size and text, terminator included. -/
theorem recycled_like_fresh (m : Meta) (p p' : Plugin) (pkt pkt' : Packet) (cs : List TwinCall)
    (htid : p'.tid = p.tid) (hw : p.working = some pkt) (hw' : p'.working = some pkt')
    (hempty : pkt.state = .empty ∧ pkt.size = 0) (hempty' : pkt'.state = .empty ∧ pkt'.size = 0)
    (hfit : FitsTwin m.license p.tid none cs) :
    Along (twinStep m) (SameAfter m) (p, p') cs :=
  twins_run cs ⟨⟨rfl, htid⟩, Fresh.holds hempty hw, Fresh.holds hempty' hw'⟩ hfit

/-- A packet with the remains of another plugin's use. -/
def Packet.remains : Packet :=
  { packetAlloc .metric with
    started := 7, response := 302, rollbackPoint := 99, attempt := 3, payload := fun _ => ch '}' }

/-- A call without data, then one that copies the character it finds before its text. -/
theorem recycled_like_fresh_remains :
    let cs : List TwinCall :=
      [⟨1000, 1500, .fresh, .fresh, fun _ => .ofTexts [str "junk"] .enodata⟩,
        ⟨8000, 8001, .fresh, .fresh, fun t => .ofTexts [t.getLast?.toList, str "1"] .enone⟩]
    Along (twinStep Meta.sample) (SameAfter Meta.sample)
      ({ Plugin.sample with working := some (packetAlloc .metric) },
        { Plugin.sample with working := some Packet.remains }) cs := by
  intro cs
  have hfit : FitsTwin Meta.sample.license Plugin.sample.tid none cs := by decide
  exact recycled_like_fresh Meta.sample { Plugin.sample with working := some (packetAlloc .metric) }
    { Plugin.sample with working := some Packet.remains } (packetAlloc .metric) Packet.remains cs
    rfl rfl rfl ⟨rfl, rfl⟩ ⟨rfl, rfl⟩ hfit

end MonitoringAgent
