import MonitoringAgent.Gather.Text

/-!
# Appends, sections and gather functions

A packet tracks a text when its size is the length of the text and, as long as that
fits, its payload holds it. Gather functions keep the packet on track of what they are
meant to emit, and stay inside the payload exactly when their appends begin there.
-/
namespace MonitoringAgent

open Buffer Command Transition

variable {pkt pkt' pkt'' : Packet} {s t : Text} {c : Byte} {n : Nat}

/-- The statement touches no byte outside the payload and gives `snprintf` room. -/
def InBounds (pkt : Packet) : PacketOp → Prop
  | .append _ => pkt.size < pktsz
  | .appendAfter _ => 0 < pkt.size ∧ pkt.size < pktsz
  | .rollback => pkt.rollbackPoint < pktsz
  | .restore n => n < pktsz
  | .loadState | .loadStarted | .loadSize | .storeState _ | .storeStarted _ | .mark => True

namespace Packet

def Tracks (pkt : Packet) (s : Text) : Prop :=
  pkt.size = s.length ∧ (s.length < pktsz → Holds pkt.payload s)

/-- `pkt'` is `pkt` with something written at or after its end. -/
structure Extends (pkt pkt' : Packet) : Prop where
  started : pkt'.started = pkt.started
  type : pkt'.type = pkt.type
  state : pkt'.state = pkt.state
  response : pkt'.response = pkt.response
  rollbackPoint : pkt'.rollbackPoint = pkt.rollbackPoint
  attempt : pkt'.attempt = pkt.attempt
  size : pkt.size ≤ pkt'.size
  below : ∀ i, i < pkt.size → pkt'.payload i = pkt.payload i

theorem Extends.refl (pkt : Packet) : pkt.Extends pkt :=
  ⟨rfl, rfl, rfl, rfl, rfl, rfl, le_rfl, fun _ _ => rfl⟩

theorem Extends.trans (h : pkt.Extends pkt') (h' : pkt'.Extends pkt'') : pkt.Extends pkt'' where
  started := h'.started.trans h.started
  type := h'.type.trans h.type
  state := h'.state.trans h.state
  response := h'.response.trans h.response
  rollbackPoint := h'.rollbackPoint.trans h.rollbackPoint
  attempt := h'.attempt.trans h.attempt
  size := h.size.trans h'.size
  below := fun i hi => (h'.below i (lt_of_lt_of_le hi h.size)).trans (h.below i hi)

theorem extends_append (pkt : Packet) (t : Text) : pkt.Extends (pkt.append t) :=
  ⟨rfl, rfl, rfl, rfl, rfl, rfl, Nat.le_add_right _ _, fun _ hi => snprintf_below hi⟩

/-- Cutting back to the old end leaves an extension. -/
theorem Extends.truncate (h : pkt.Extends pkt') : pkt.Extends (pkt'.truncate pkt.size) where
  started := h.started
  type := h.type
  state := h.state
  response := h.response
  rollbackPoint := h.rollbackPoint
  attempt := h.attempt
  size := le_rfl
  below := fun i hi => (write_below hi).trans (h.below i hi)

theorem Tracks.holds (h : pkt.Tracks s) (hs : s.length < pktsz) : Holds pkt.payload s := h.2 hs

theorem Tracks.text_eq (h : pkt.Tracks s) (hs : s.length < pktsz) : pkt.text = s := by
  rw [text, h.1]
  exact (h.holds hs).slice_eq

theorem room_of_lt (h : n < pktsz) : room n = pktsz - n := by
  unfold room pktsz at *
  omega

theorem Tracks.append (h : pkt.Tracks s) (hs : s.length < pktsz) (t : Text) :
    (pkt.append t).Tracks (s ++ t) := by
  constructor
  · simp [Packet.append, h.1]
  · intro hlen
    rw [List.length_append] at hlen
    have hroom : t.length < room s.length := by
      rw [room_of_lt hs]
      omega
    simpa only [Packet.append, h.1] using (h.holds hs).append hroom

/-- Cutting an extension back to the old end restores the old text. -/
theorem Extends.tracks_truncate (h : pkt.Extends pkt') (ht : pkt.Tracks s)
    (hs : s.length < pktsz) : (pkt'.truncate pkt.size).Tracks s := by
  refine ⟨ht.1, fun _ => ?_⟩
  have hslice : slice pkt'.payload s.length = s := by
    rw [← (ht.holds hs).slice_eq, length_slice]
    exact slice_congr fun i hi => h.below i (by rw [ht.1]; exact hi)
  simpa only [Packet.truncate, ht.1] using holds_terminate hslice

/-- The same size and the same bytes up to the terminator. -/
structure SameText (pkt pkt' : Packet) : Prop where
  size : pkt.size = pkt'.size
  bytes : ∀ i, i ≤ pkt.size → pkt.payload i = pkt'.payload i
  nul : pkt.payload pkt.size = 0

/-- Two packets on track of one text that fits. -/
theorem Tracks.sameText (h : pkt.Tracks s) (h' : pkt'.Tracks s) (hs : s.length < pktsz) :
    pkt.SameText pkt' := by
  obtain ⟨hslice, hnul⟩ := h.holds hs
  obtain ⟨hslice', hnul'⟩ := h'.holds hs
  rw [slice_eq_iff] at hslice hslice'
  refine ⟨h.1.trans h'.1.symm, fun i hi => ?_, by rw [h.1]; exact hnul⟩
  rw [h.1] at hi
  rcases Nat.lt_or_eq_of_le hi with hlt | rfl
  · rw [hslice i hlt, hslice' i hlt]
  · rw [hnul, hnul']

theorem Tracks.last (h : pkt.Tracks s) (hs : s.length < pktsz) (hl : s.getLast? = some c) :
    pkt.payload (pkt.size - 1) = c := by
  rw [h.1]
  exact (h.holds hs).last hl

end Packet

open Packet

theorem getLast?_append_lastAfter (hl : s.getLast? = some c) (t : Text) :
    (s ++ t).getLast? = some (lastAfter c t) := by
  cases t using List.reverseRecOn with
  | nil => simpa [lastAfter] using hl
  | append_singleton t b => simp [lastAfter, List.getLast?_append]

theorem getLast?_openTag (s tag : Text) : (s ++ openTag tag c).getLast? = some (ch '{') := by
  have h : (str "\":\x7b").getLast? = some (ch '{') := by decide
  rw [openTag, ← List.append_assoc, List.getLast?_append, h]
  rfl

theorem getLast?_close (s : Text) : (s ++ str "\x7d").getLast? = some (ch '}') := by
  have h : (str "\x7d").getLast? = some (ch '}') := by decide
  rw [List.getLast?_append, h]
  rfl

theorem pos_of_getLast? (hl : s.getLast? = some c) : 0 < s.length := by
  cases s with
  | nil => simp at hl
  | cons a s => simp

/-- An exact specification of packet code: in bounds iff `safe`, then on track. -/
abbrev Writes {α : Type} (c : PacketM α) (pkt : Packet) (safe : Prop) (a : α)
    (Q : Packet → Prop) : Prop := Exact Packet.effects InBounds c pkt safe a Q

theorem append_writes (ht : pkt.Tracks s) (t : Text) :
    Writes (packetAppend t) pkt (s.length < pktsz) ()
      fun pkt' => pkt'.Tracks (s ++ t) ∧ pkt.Extends pkt' := by
  have h := Exact.perform (E := Packet.effects) (P := InBounds) (s := pkt) (o := .append t)
  refine (h.congr (by rw [InBounds, ht.1])).mono ?_
  rintro hs _ rfl
  exact ⟨ht.append hs t, extends_append pkt t⟩

theorem appendAfter_writes (ht : pkt.Tracks s) (hl : s.getLast? = some c)
    (f : Byte → Text) :
    Writes (stmt (.appendAfter f)) pkt (s.length < pktsz) ()
      fun pkt' => pkt'.Tracks (s ++ f c) ∧ pkt.Extends pkt' := by
  have h := Exact.perform (E := Packet.effects) (P := InBounds) (s := pkt) (o := .appendAfter f)
  have hpos := pos_of_getLast? hl
  refine (h.congr ?_).mono ?_
  · rw [InBounds, ht.1]
    exact ⟨fun hs => ⟨hpos, hs⟩, fun hs => hs.2⟩
  · rintro hs _ rfl
    have hlast := ht.last hs hl
    have happ : Packet.effects.next pkt (.appendAfter f) = pkt.append (f c) := by
      rw [← hlast]
      rfl
    rw [happ]
    exact ⟨ht.append hs _, extends_append pkt _⟩

/-- What a section leaves of its text: all of it or nothing. -/
def sectionText (tag : Text) (c : Byte) (v : Text) (res : GatherError) : Text :=
  if res = .enone then openTag tag c ++ v ++ str "\x7d" else []

/-- `packet_gather` around a function that is on track. -/
theorem packetGather_writes {func : PacketM GatherError} {tag v : Text} {res : GatherError}
    {safe : Prop} (ht : pkt.Tracks s) (hl : s.getLast? = some c)
    (hfunc : ∀ pkt', pkt'.Tracks (s ++ openTag tag c) →
      Writes func pkt' safe res
        fun pkt'' => pkt''.Tracks (s ++ openTag tag c ++ v) ∧ pkt'.Extends pkt'') :
    Writes (packetGather tag func) pkt
      (s.length < pktsz ∧ safe ∧
        (res = .enone → (s ++ openTag tag c ++ v).length < pktsz)) res
      fun pkt' => pkt'.Tracks (s ++ sectionText tag c v res) ∧ pkt.Extends pkt' := by
  have hclose : ∀ pkt₂, s.length < pktsz → pkt₂.Tracks (s ++ openTag tag c ++ v) →
      pkt.Extends pkt₂ →
      Writes (if res ≠ .enone then do
          stmt (.restore pkt.size)
          pure res
        else do
          packetAppend (str "\x7d")
          pure .enone) pkt₂
        (res = .enone → (s ++ openTag tag c ++ v).length < pktsz) res
        fun pkt' => pkt'.Tracks (s ++ sectionText tag c v res) ∧ pkt.Extends pkt' := by
    intro pkt₂ hs ht₂ hext
    by_cases he : res = .enone
    · subst he
      rw [if_neg (by simp)]
      have happ := (append_writes ht₂ (str "\x7d")).bind (f := fun _ => pure GatherError.enone)
        (fun _ pkt₃ h₃ => Exact.ret
          (Q := fun pkt' => pkt'.Tracks (s ++ sectionText tag c v .enone) ∧ pkt.Extends pkt')
          ⟨by simpa [sectionText] using h₃.1, hext.trans h₃.2⟩)
      exact happ.congr (by simp)
    · rw [if_pos he]
      refine Exact.step ?_ ((Exact.ret ?_).congr (by simp [he]))
      · rw [InBounds, ht.1]
        exact hs
      · have htr := hext.tracks_truncate ht hs
        have htext : s ++ sectionText tag c v res = s := by simp [sectionText, he]
        rw [htext]
        exact ⟨htr, hext.truncate⟩
  refine Exact.step trivial ?_
  refine (appendAfter_writes ht hl (openTag tag)).bind fun hs pkt₁ h₁ => ?_
  exact (hfunc pkt₁ h₁.1).bind fun _ pkt₂ h₂ => hclose pkt₂ hs h₂.1 (h₁.2.trans h₂.2)

/-- A gather function is on track of what it emits, and in bounds exactly when each of
its appends begins inside the payload. -/
theorem Gatherer.code_writes (g : Gatherer) (ht : pkt.Tracks s) (hl : s.getLast? = some c) :
    Writes g.code pkt (g.Room Begins c s.length) (g.emit c).2
      fun pkt' => pkt'.Tracks (s ++ (g.emit c).1) ∧ pkt.Extends pkt' := by
  induction g generalizing pkt s c with
  | ret res => exact Exact.ret ⟨by simpa [emit] using ht, Extends.refl pkt⟩
  | append t k ih =>
    refine ((append_writes ht t).bind fun _ pkt₁ h₁ =>
      (ih h₁.1 (getLast?_append_lastAfter hl t)).mono ?_).congr (by simp [Room, Begins])
    rintro - pkt₂ ⟨ht₂, hext⟩
    exact ⟨by simpa [emit] using ht₂, h₁.2.trans hext⟩
  | appendAfter f k ih =>
    refine ((appendAfter_writes ht hl f).bind fun _ pkt₁ h₁ =>
      (ih h₁.1 (getLast?_append_lastAfter hl (f c))).mono ?_).congr (by simp [Room, Begins])
    rintro - pkt₂ ⟨ht₂, hext⟩
    exact ⟨by simpa [emit] using ht₂, h₁.2.trans hext⟩
  | gather tag func k ihf ihk =>
    have hsec := packetGather_writes ht hl fun pkt' ht' => ihf ht' (getLast?_openTag s tag)
    simp only [code, emit, Room]
    generalize func.emit (ch '{') = r at hsec ⊢
    obtain ⟨v, e⟩ := r
    dsimp only at hsec ⊢
    by_cases he : e = .enone
    · -- the section stays and the rest follows its closing brace
      subst he
      simp only [if_true]
      have hlast : (s ++ sectionText tag c v .enone).getLast? = some (ch '}') := by
        simp only [sectionText, if_true, ← List.append_assoc]
        exact getLast?_close _
      refine (hsec.bind fun _ pkt₁ h₁ => (ihk .enone h₁.1 hlast).mono ?_).congr ?_
      · rintro - pkt₂ ⟨ht₂, hext⟩
        refine ⟨?_, h₁.2.trans hext⟩
        simpa [sectionText] using ht₂
      · simp [Begins, sectionText, str, and_assoc, Nat.add_assoc]
    · -- nothing stays and the rest follows the old text
      simp only [he, if_false]
      have htext : s ++ sectionText tag c v e = s := by simp [sectionText, he]
      rw [htext] at hsec
      refine (hsec.bind fun _ pkt₁ h₁ => (ihk e h₁.1 hl).mono ?_).congr ?_
      · rintro - pkt₂ ⟨ht₂, hext⟩
        exact ⟨ht₂, h₁.2.trans hext⟩
      · simp [Begins, he, and_assoc]

end MonitoringAgent
