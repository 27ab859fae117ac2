import MonitoringAgent.Gather.Refinement

/-!
# Register packets

The text of a register packet, as the first attempt builds it and as a retry changes it
in place.
-/
namespace MonitoringAgent

open Buffer Decimal Packet

variable {m : Meta} {p p' : Plugin} {pkt : Packet} {tid tid' : UInt64}

/-- The text for a given tid. -/
def registerText (m : Meta) (p : Plugin) (tid : UInt64) : Text :=
  registerHead m ++ (padded tid ++ registerTail m p)

/-- A register packet for `tid`, with the place of the tid marked. -/
structure Packet.Registers (m : Meta) (p : Plugin) (tid : UInt64) (pkt : Packet) : Prop where
  type : pkt.type = .register
  state : pkt.state = .ready
  marked : pkt.rollbackPoint = (registerHead m).length
  tracks : pkt.Tracks (registerText m p tid)

/-- The plugin's texts fit their arrays in the agent. -/
structure Plugin.Bounded (p : Plugin) : Prop where
  type : p.type.length < bfsz
  tip : ∀ tip, p.tip = some tip → tip.length ≤ bfsz

@[simp] theorem length_padded (tid : UInt64) : (padded tid).length = 20 := by
  have hlen := length_decimal_lt tid
  rw [padded, List.length_append, List.length_replicate]
  omega

theorem length_registerHead (m : Meta) : (registerHead m).length ≤ 145 := by
  have hlicense := m.license_lt
  have haid := length_decimal_lt m.aid
  have h₁ : (str "\x7b\"license\":\"").length = 12 := by decide
  have h₂ : (str "\",\"aid\":").length = 8 := by decide
  have h₃ : (str ",\"tid\":").length = 7 := by decide
  simp only [registerHead, List.length_append]
  omega

theorem length_registerTail (m : Meta) (hp : p.Bounded) : (registerTail m p).length ≤ 516 := by
  have htype := m.type_lt
  have hos := m.os_lt
  have hhost := m.host_lt
  have haip := m.aip_lt
  have hptype := hp.type
  have h₁ : (str ",\"agent_type\":\"").length = 15 := by decide
  have h₂ : (str "\",\"target_type\":\"").length = 17 := by decide
  have h₃ : (str "\",\"os\":\"").length = 8 := by decide
  have h₄ : (str "\",\"hostname\":\"").length = 14 := by decide
  have h₅ : (str "\",\"ip\":\"").length = 8 := by decide
  have h₆ : (str "\"").length = 1 := by decide
  have h₇ : (str "\x7d").length = 1 := by decide
  have h₈ : (str ",\"target_ip\":\"").length = 14 := by decide
  unfold bfsz at hptype
  cases htip : p.tip with
  | none =>
    simp only [registerTail, htip, List.length_append, List.length_nil]
    omega
  | some tip =>
    have hlen := hp.tip tip htip
    unfold bfsz at hlen
    simp only [registerTail, htip, List.length_append]
    omega

theorem registerText_lt (m : Meta) (hp : p.Bounded) (tid : UInt64) :
    (registerText m p tid).length < pktsz := by
  have hhead := length_registerHead m
  have htail := length_registerTail m hp
  simp only [registerText, List.length_append, length_padded]
  unfold pktsz
  omega

theorem Packet.Registers.congr (h : pkt.Registers m p tid) (htype : p'.type = p.type)
    (htip : p'.tip = p.tip) : pkt.Registers m p' tid := by
  obtain ⟨hty, hstate, hmarked, htracks⟩ := h
  refine ⟨hty, hstate, hmarked, ?_⟩
  have htext : registerText m p' tid = registerText m p tid := by
    simp [registerText, registerTail, htype, htip]
  rw [htext]
  exact htracks

theorem Packet.Registers.post (h : pkt.Registers m p tid) (r : Reply) :
    (post pkt r).1.Registers m p tid := by
  obtain ⟨hty, hstate, hsize, hmark, hpayload⟩ := post_frame pkt r
  refine ⟨hty.trans h.type, hstate.trans h.state, hmark.trans h.marked, hsize.trans h.tracks.1, ?_⟩
  rw [hpayload]
  exact h.tracks.2

/-- The packet of the first attempt. -/
theorem registers_registerPacket (m : Meta) (p : Plugin) :
    (registerPacket m p).Registers m p p.tid := by
  let pkt : Packet := { packetAlloc .register with state := .ready }
  have hhead : (pkt.append (registerHead m)).Tracks (registerHead m) := tracks_append_fresh rfl _
  have hlt : (registerHead m).length < pktsz := lt_of_le_of_lt (length_registerHead m) (by decide)
  have hmarked : ((pkt.append (registerHead m)).next .mark).Tracks (registerHead m) := hhead
  exact ⟨rfl, rfl, hhead.1, hmarked.append hlt (padded p.tid ++ registerTail m p)⟩

/-- The in-place change of a retry leaves the packet a first attempt with the new tid
would have built. -/
theorem Packet.Registers.patchTid (h : pkt.Registers m p tid)
    (hfit : (registerText m p tid).length < pktsz) (tid' : UInt64) :
    (pkt.patchTid tid').Registers m p tid' := by
  have htail : ∃ tail, registerTail m p = ch ',' :: tail := ⟨_, rfl⟩
  obtain ⟨tail, htail⟩ := htail
  have hlen : (registerText m p tid').length = (registerText m p tid).length := by
    simp [registerText]
  refine ⟨h.type, h.state, h.marked, h.tracks.1.trans hlen.symm, fun _ => ?_⟩
  have hholds := h.tracks.holds hfit
  have hpatch : (pkt.patchTid tid').payload =
      write pkt.payload (registerHead m).length (padded tid' ++ [ch ',']) := by
    rw [← write_sprintf_next, length_padded]
    simp only [Packet.patchTid, h.marked]
  rw [hpatch]
  have hsplit : ∀ t, registerText m p t = registerHead m ++ ((padded t ++ [ch ',']) ++ tail) := by
    intro t
    rw [registerText, htail]
    simp
  rw [hsplit] at hholds ⊢
  exact hholds.overwrite (by simp)

/-- Whatever attempt it is, it posts the text for the tid it uses. -/
theorem registers_pluginRegrPacket (hfit : ∀ tid, (registerText m p tid).length < pktsz)
    (clock : TidClock) (hoob : ∀ pkt, p.oob = some pkt → ∃ tid, pkt.Registers m p tid) :
    (pluginRegrPacket m p clock).2.Registers m p (pluginRegrPacket m p clock).1.tid := by
  unfold pluginRegrPacket
  cases h : p.oob with
  | none =>
    by_cases htid : p.tid = 0
    · simp only [htid, if_true]
      obtain ⟨htype, hstate, hmarked, htracks⟩ :=
        registers_registerPacket m { p with tid := clock.tid }
      exact ⟨htype, hstate, hmarked, htracks⟩
    · simp only [htid, if_false]
      exact registers_registerPacket m p
  | some pkt =>
    obtain ⟨tid, hreg⟩ := hoob pkt h
    exact hreg.patchTid (hfit tid) p.tid

end MonitoringAgent
