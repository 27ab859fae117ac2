import MonitoringAgent.Gather.Run
import MonitoringAgent.Lib.Format

/-!
# Nested sections

A section function either writes text of its own or calls `packet_gather` for its parts.
Whether a part gets a comma is read off the last character of the payload, which every
earlier part and every rollback has had a hand in.
-/
namespace MonitoringAgent

open Buffer Command Packet

def GatherError.code : GatherError → Nat
  | .enone => 0
  | .enodata => 1
  | .eplugup => 2
  | .eplugdown => 3

def GatherError.ofCode : Nat → GatherError
  | 0 => .enone
  | 1 => .enodata
  | 2 => .eplugup
  | _ => .eplugdown

/-- `&` on two results. -/
def GatherError.and (a b : GatherError) : GatherError := .ofCode (a.code &&& b.code)

/-- `&` over all results. The code 3 of EPLUGDOWN is neutral. -/
def GatherError.andAll (rs : List GatherError) : GatherError := rs.foldl .and .eplugdown

/-- A section function: one that appends texts and returns 0 or 1, or one that gathers its
parts, listed in the order of the calls, and returns the `&` of their results. -/
inductive SectionTree where
  | leaf (texts : List Text) (ok : Bool)
  | inner (parts : List (Text × SectionTree))

namespace SectionTree

mutual

def gatherer : SectionTree → Gatherer
  | leaf texts ok => .ofTexts texts (if ok then .enone else .enodata)
  | inner parts => partCalls parts []

/-- The calls for the listed parts when those before them have returned `rs`. -/
def partCalls : List (Text × SectionTree) → List GatherError → Gatherer
  | [], rs => .ret (.andAll rs)
  | (tag, t) :: rest, rs => .gather tag t.gatherer fun res => partCalls rest (rs ++ [res])

end

/-! ## What is meant -/

mutual

def succeeds : SectionTree → Bool
  | leaf _ ok => ok
  | inner parts => anySucceeds parts

def anySucceeds : List (Text × SectionTree) → Bool
  | [] => false
  | (_, t) :: rest => t.succeeds || anySucceeds rest

end

/-- `"tag":{body}`. -/
def sectionOf (tag body : Text) : Text := str "\"" ++ tag ++ str "\":\x7b" ++ body ++ str "\x7d"

mutual

def body : SectionTree → Text
  | leaf texts _ => texts.flatten
  | inner parts => commas (sections parts)

/-- The texts of the parts that succeed. -/
def sections : List (Text × SectionTree) → List Text
  | [] => []
  | (tag, t) :: rest => if t.succeeds then sectionOf tag t.body :: sections rest else sections rest

end

/-! ## Results -/

/-- On the results of section functions `&` is 0 exactly if one of them is. -/
theorem and_eq_enone {a b : GatherError} (ha : a ≠ .eplugup) (hb : b ≠ .eplugup) :
    a.and b ≠ .eplugup ∧ (a.and b = .enone ↔ a = .enone ∨ b = .enone) := by
  cases a <;> cases b <;> first | exact absurd rfl ha | exact absurd rfl hb | decide

theorem andAll_eq_enone {rs : List GatherError} (h : ∀ r ∈ rs, r ≠ .eplugup) :
    GatherError.andAll rs ≠ .eplugup ∧ (GatherError.andAll rs = .enone ↔ .enone ∈ rs) := by
  induction rs using List.reverseRecOn with
  | nil => exact ⟨by simp [GatherError.andAll], by simp [GatherError.andAll]⟩
  | append_singleton rs r ih =>
    obtain ⟨hne, hiff⟩ := ih fun r' hr' => h r' (List.mem_append_left _ hr')
    have hand := and_eq_enone hne (h r (by simp))
    rw [GatherError.andAll] at hiff hand ⊢
    rw [List.foldl_append]
    refine ⟨hand.1, hand.2.trans ?_⟩
    rw [hiff, List.mem_append, List.mem_singleton, eq_comm (a := r)]

/-! ## What is emitted -/

/-- The texts of further parts when the text before them ends in `last`. -/
def joinAfter (last : Byte) (ts : List Text) : Text :=
  if last = ch '}' then ts.flatMap (str "," ++ ·) else commas ts

theorem joinAfter_cons (last : Byte) (tag body : Text) (ts : List Text) :
    joinAfter last (sectionOf tag body :: ts) =
      openTag tag last ++ body ++ str "\x7d" ++ joinAfter (ch '}') ts := by
  unfold joinAfter openTag sectionOf
  split <;> simp [commas]

end SectionTree

open SectionTree

/-- Calls of `packet_gather` for any functions, when those before them have returned `rs`. -/
def gatherParts : List (Text × Gatherer) → List GatherError → Gatherer
  | [], rs => .ret (.andAll rs)
  | (tag, func) :: parts, rs => .gather tag func fun res => gatherParts parts (rs ++ [res])

/-- The text a part leaves, if it stays. -/
def partText (tag : Text) (func : Gatherer) : Option Text :=
  if (func.emit (ch '{')).2 = .enone then some (sectionOf tag (func.emit (ch '{')).1) else none

def partTexts (parts : List (Text × Gatherer)) : List Text :=
  parts.filterMap fun part => partText part.1 part.2

/-- A section function that only appends: its appends, and whether it returns ENONE. -/
structure Output where
  appends : List Format.Append
  found : Bool

namespace Output

def text (o : Output) : Text := Format.render o.appends.flatten

def gatherer (o : Output) : Gatherer :=
  .ofTexts (o.appends.map Format.render) (if o.found then .enone else .enodata)

theorem emit_gatherer (o : Output) (last : Byte) :
    o.gatherer.emit last = (o.text, if o.found then .enone else .enodata) := by
  rw [gatherer, emit_ofTexts, text, Format.render_flatten]

end Output

/-- The parts that return ENONE stay, with a comma before each but the first. -/
theorem emit_gatherParts (parts : List (Text × Gatherer)) (rs : List GatherError) (last : Byte)
    (hrs : ∀ r ∈ rs, r ≠ .eplugup) (hparts : ∀ part ∈ parts, (part.2.emit (ch '{')).2 ≠ .eplugup) :
    ((gatherParts parts rs).emit last).2 ≠ .eplugup ∧
      (((gatherParts parts rs).emit last).2 = .enone ↔ .enone ∈ rs ∨ partTexts parts ≠ []) ∧
      ((gatherParts parts rs).emit last).1 = joinAfter last (partTexts parts) := by
  induction parts generalizing rs last with
  | nil =>
    obtain ⟨hne, hiff⟩ := andAll_eq_enone hrs
    refine ⟨hne, ?_, ?_⟩
    · simpa [gatherParts, partTexts, Gatherer.emit] using hiff
    · simp [gatherParts, partTexts, joinAfter, Gatherer.emit, commas]
  | cons part parts ih =>
    obtain ⟨tag, func⟩ := part
    obtain ⟨hfunc, hparts⟩ := List.forall_mem_cons.mp hparts
    have hall : ∀ res, res ≠ .eplugup → ∀ r ∈ rs ++ [res], r ≠ .eplugup := by
      intro res hres r hr
      rcases List.mem_append.mp hr with hr | hr
      · exact hrs r hr
      · rwa [List.mem_singleton.mp hr]
    simp only [gatherParts, partTexts, List.filterMap_cons, partText, Gatherer.emit]
    by_cases hok : (func.emit (ch '{')).2 = .enone
    · -- the part stays and what follows it sees its closing brace
      obtain ⟨hne', hiff', htext'⟩ := ih _ (ch '}') (hall .enone (by simp)) hparts
      simp only [hok, if_true, htext', joinAfter_cons]
      refine ⟨hne', ?_, by rfl⟩
      rw [hiff']
      simp
    · -- nothing stays of it
      obtain ⟨hne', hiff', htext'⟩ := ih _ last (hall _ hfunc) hparts
      simp only [hok, if_false]
      refine ⟨hne', ?_, htext'⟩
      rw [hiff', List.mem_append, List.mem_singleton, eq_comm (a := GatherError.enone)]
      simp [hok, partTexts, partText]

namespace SectionTree

theorem partCalls_eq (parts : List (Text × SectionTree)) (rs : List GatherError) :
    partCalls parts rs = gatherParts (parts.map fun part => (part.1, part.2.gatherer)) rs := by
  induction parts generalizing rs with
  | nil => rw [partCalls, List.map_nil, gatherParts]
  | cons part parts ih =>
    rw [partCalls, List.map_cons, gatherParts]
    simp only [ih]

/-- What the code of a section function emits, against what is meant. -/
structure Emits (t : SectionTree) : Prop where
  ne : (t.gatherer.emit (ch '{')).2 ≠ .eplugup
  res : (t.gatherer.emit (ch '{')).2 = .enone ↔ t.succeeds = true
  text : t.succeeds = true → (t.gatherer.emit (ch '{')).1 = t.body

theorem partTexts_eq {parts : List (Text × SectionTree)} (h : ∀ part ∈ parts, part.2.Emits) :
    partTexts (parts.map fun part => (part.1, part.2.gatherer)) = sections parts := by
  induction parts with
  | nil => simp [partTexts, sections]
  | cons part parts ih =>
    obtain ⟨tag, t⟩ := part
    obtain ⟨ht, hparts⟩ := List.forall_mem_cons.mp h
    have hrest := ih hparts
    rw [sections]
    by_cases hs : t.succeeds = true
    · simp [partTexts, partText, ht.res.mpr hs, ht.text hs, hs, ← hrest]
    · have hfail : ¬ (t.gatherer.emit (ch '{')).2 = .enone := mt ht.res.mp hs
      simp [partTexts, partText, hfail, hs, ← hrest]

theorem sections_eq_nil (parts : List (Text × SectionTree)) :
    sections parts = [] ↔ anySucceeds parts = false := by
  induction parts with
  | nil => simp [sections, anySucceeds]
  | cons part rest ih =>
    obtain ⟨tag, t⟩ := part
    cases ht : t.succeeds <;> simp [sections, anySucceeds, ht, ih]

theorem emit_partCalls_of {parts : List (Text × SectionTree)} (h : ∀ part ∈ parts, part.2.Emits)
    (last : Byte) :
    ((partCalls parts []).emit last).2 ≠ .eplugup ∧
      (((partCalls parts []).emit last).2 = .enone ↔ anySucceeds parts = true) ∧
      ((partCalls parts []).emit last).1 = joinAfter last (sections parts) := by
  have hne : ∀ part ∈ parts.map fun part => (part.1, part.2.gatherer),
      (part.2.emit (ch '{')).2 ≠ .eplugup := by
    intro part hpart
    obtain ⟨part, hmem, rfl⟩ := List.mem_map.mp hpart
    exact (h part hmem).ne
  have hparts := emit_gatherParts _ [] last (by simp) hne
  rw [partTexts_eq h] at hparts
  obtain ⟨hres, hiff, htext⟩ := hparts
  rw [partCalls_eq]
  refine ⟨hres, hiff.trans ?_, htext⟩
  simp [sections_eq_nil]

mutual

theorem emits (t : SectionTree) : t.Emits := by
  cases t with
  | leaf texts ok =>
    constructor <;> rw [gatherer, emit_ofTexts] <;> cases ok <;> simp [succeeds, body]
  | inner parts =>
    obtain ⟨hne, hiff, htext⟩ := emit_partCalls_of (all_emit parts) (ch '{')
    rw [joinAfter, if_neg (by decide)] at htext
    constructor
    · rwa [gatherer]
    · rwa [gatherer, succeeds]
    · rw [gatherer, body]
      exact fun _ => htext

theorem all_emit (parts : List (Text × SectionTree)) : ∀ part ∈ parts, part.2.Emits := by
  cases parts with
  | nil => exact List.forall_mem_nil _
  | cons part parts => exact List.forall_mem_cons.mpr ⟨emits part.2, all_emit parts⟩

end

theorem emit_partCalls (parts : List (Text × SectionTree)) (last : Byte) :
    ((partCalls parts []).emit last).1 = joinAfter last (sections parts) :=
  (emit_partCalls_of (all_emit parts) last).2.2

theorem getLast?_sections {parts : List (Text × SectionTree)} :
    ∀ t ∈ sections parts, t.getLast? = some (ch '}') := by
  induction parts with
  | nil => simp [sections]
  | cons part rest ih =>
    obtain ⟨tag, t⟩ := part
    rw [sections]
    split
    · rintro _ (_ | ⟨_, h⟩)
      · exact getLast?_close _
      · exact ih _ h
    · exact ih

theorem getLast?_commas {ts : List Text} {c : Byte} (h : ∀ t ∈ ts, t.getLast? = some c)
    (hne : ts ≠ []) : (commas ts).getLast? = some c := by
  cases ts using List.reverseRecOn with
  | nil => exact absurd rfl hne
  | append_singleton ts t =>
    have ht := h t (by simp)
    cases ts with
    | nil => simpa [commas] using ht
    | cons a ts => simp [commas, List.getLast?_append, ht]

/-- The last character tells whether a part has succeeded. -/
theorem lastAfter_sections (c : Byte) (parts : List (Text × SectionTree)) :
    lastAfter c (commas (sections parts)) = if anySucceeds parts then ch '}' else c := by
  cases h : anySucceeds parts with
  | false => simp [(sections_eq_nil parts).mpr h, commas, lastAfter]
  | true =>
    have hne : sections parts ≠ [] := by
      rw [ne_eq, sections_eq_nil, h]
      simp
    have hlast := getLast?_commas getLast?_sections hne
    rw [lastAfter, List.getLastD_eq_getLast?, hlast]
    rfl

end SectionTree

open SectionTree

variable {pkt : Packet} {s : Text} {c : Byte}

/-- The sections already there, as the packet has them. -/
theorem tracks_partCalls {parts : List (Text × SectionTree)} (ht : pkt.Tracks s)
    (hl : s.getLast? = some c) (hc : c ≠ ch '}')
    (hfit : (partCalls parts []).Room Fits c s.length) :
    ((partCalls parts []).code.exec Packet.effects pkt).2.Tracks
      (s ++ commas (sections parts)) := by
  have hroom := Gatherer.room_mono (fun _ _ => Fits.begins) _ _ _ hfit
  obtain ⟨-, htracks, -⟩ := ((partCalls parts []).code_writes ht hl).post hroom
  rw [emit_partCalls, joinAfter, if_neg hc] at htracks
  exact htracks

/-- One call of `packet_gather`, whatever the payload ends in. -/
theorem tracks_part {tag : Text} {g : Gatherer} (ht : pkt.Tracks s) (hl : s.getLast? = some c)
    (hfit : (Gatherer.gather tag g .ret).Room Fits c s.length) :
    let r := (packetGather tag g.code).exec Packet.effects pkt
    let text := s ++ sectionText tag c (g.emit (ch '{')).1 (g.emit (ch '{')).2
    r.1 = (g.emit (ch '{')).2 ∧ r.2.Tracks text ∧ text.length < pktsz := by
  have hroom := Gatherer.room_mono (fun _ _ => Fits.begins) _ _ _ hfit
  obtain ⟨hres, htracks, -⟩ := ((Gatherer.gather tag g .ret).code_writes ht hl).post hroom
  simp only [Gatherer.code, exec_bind, exec_ret, Gatherer.emit] at hres htracks
  obtain ⟨hopen, -, hrest⟩ := hfit
  unfold sectionText
  by_cases hok : (g.emit (ch '{')).2 = .enone
  · simp only [hok, if_true, List.append_nil] at hres htracks hrest ⊢
    refine ⟨hres, htracks, ?_⟩
    have hend := hrest.1
    have hbrace : (str "\x7d").length = 1 := by decide
    simp only [Fits, List.length_append] at hend ⊢
    omega
  · simp only [hok, if_false, List.append_nil] at hres htracks ⊢
    refine ⟨hres, by simpa using htracks, ?_⟩
    simp only [Fits] at hopen
    omega

theorem tracks_section {tag : Text} {t : SectionTree} (ht : pkt.Tracks s)
    (hl : s.getLast? = some c)
    (hfit : (Gatherer.gather tag t.gatherer .ret).Room Fits c s.length) :
    let r := (packetGather tag t.gatherer.code).exec Packet.effects pkt
    let text := s ++ if t.succeeds then openTag tag c ++ t.body ++ str "\x7d" else []
    (r.1 = .enone ↔ t.succeeds = true) ∧ r.2.Tracks text ∧ text.length < pktsz := by
  obtain ⟨-, hiff, htext⟩ := t.emits
  obtain ⟨hres, htracks, hlt⟩ := tracks_part ht hl hfit
  have heq : sectionText tag c (t.gatherer.emit (ch '{')).1 (t.gatherer.emit (ch '{')).2 =
      if t.succeeds then openTag tag c ++ t.body ++ str "\x7d" else [] := by
    unfold sectionText
    by_cases hs : t.succeeds = true
    · rw [if_pos (hiff.mpr hs), if_pos hs, htext hs]
    · rw [if_neg (mt hiff.mp hs), if_neg hs]
  rw [heq] at htracks hlt
  exact ⟨by rw [hres]; exact hiff, htracks, hlt⟩

/-- After any siblings, called on a payload that does not end in a brace, the call for a
further section: it succeeds as it should, adds its text with a comma exactly if a sibling
has succeeded, and leaves nothing if it fails. -/
theorem nested_sections_compose (siblings : List (Text × SectionTree)) (tag : Text)
    (t : SectionTree) (pkt : Packet) (s : Text) (c : Byte) (ht : pkt.Tracks s)
    (hl : s.getLast? = some c) (hc : c ≠ ch '}')
    (hsiblings : (partCalls siblings []).Room Fits c s.length)
    (hcall : (Gatherer.gather tag t.gatherer .ret).Room Fits
      (lastAfter c (commas (sections siblings))) (s ++ commas (sections siblings)).length) :
    let before := ((partCalls siblings []).code.exec Packet.effects pkt).2
    let r := (packetGather tag t.gatherer.code).exec Packet.effects before
    before.text = s ++ commas (sections siblings) ∧
      (r.1 = .enone ↔ t.succeeds = true) ∧
      (t.succeeds = true → r.2.payload r.2.size = 0 ∧ r.2.text = before.text ++
        (if anySucceeds siblings then str "," else []) ++ sectionOf tag t.body) ∧
      (t.succeeds = false → r.2.SameText before) := by
  intro before r
  have hbefore : before.Tracks (s ++ commas (sections siblings)) :=
    tracks_partCalls ht hl hc hsiblings
  have hlast := getLast?_append_lastAfter hl (commas (sections siblings))
  obtain ⟨hres, htracks, hlt⟩ := tracks_section hbefore hlast hcall
  have hlt' : (s ++ commas (sections siblings)).length < pktsz := by
    rw [List.length_append] at hlt
    omega
  have htext := hbefore.text_eq hlt'
  refine ⟨htext, hres, fun hs => ?_, fun hs => ?_⟩
  · rw [if_pos hs, lastAfter_sections] at htracks hlt
    have hcomma : openTag tag (if anySucceeds siblings then ch '}' else c) ++ t.body ++
        str "\x7d" = (if anySucceeds siblings then str "," else []) ++ sectionOf tag t.body := by
      unfold openTag sectionOf
      cases anySucceeds siblings <;> simp [hc]
    rw [hcomma] at htracks hlt
    refine ⟨?_, ?_⟩
    · rw [htracks.1]
      exact (htracks.holds hlt).nul
    · rw [htracks.text_eq hlt, htext, ← List.append_assoc]
  · rw [hs, if_neg (by simp), List.append_nil] at htracks
    exact htracks.sameText hbefore hlt'

/-- One sibling that succeeds and one that does not, then a section of two parts. -/
theorem nested_sections_compose_sample :
    let siblings := [(str "a", leaf [str "1", str "2"] true), (str "b", leaf [str "junk"] false)]
    let t := inner [(str "d", leaf [] false), (str "e", leaf [str "3"] true)]
    let pkt := (packetAlloc .metric).append (str "\x7b")
    let before := ((partCalls siblings []).code.exec Packet.effects pkt).2
    let r := (packetGather (str "c") t.gatherer.code).exec Packet.effects before
    r.1 = .enone ∧ r.2.text = before.text ++ str ",\"c\":\x7b\"e\":\x7b3\x7d\x7d" := by
  intro siblings t pkt
  have ht : pkt.Tracks (str "\x7b") := tracks_append_fresh rfl _
  obtain ⟨-, hres, htext, -⟩ := nested_sections_compose siblings (str "c") t pkt (str "\x7b")
    (ch '{') ht (by decide) (by decide) (by decide) (by decide)
  exact ⟨hres.mpr (by decide), (htext (by decide)).2.trans (by rw [List.append_assoc]; rfl)⟩

end MonitoringAgent
