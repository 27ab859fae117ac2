import MonitoringAgent.Config.Reader

/-!
# Comments in `plugin.conf`

A comment is skipped as the piece it starts with. A long one is read on as further lines,
and what `sscanf` stored of a comment stays in `first` and `remain`. The files here are
those where neither is seen.
-/
namespace MonitoringAgent

open Buffer Scan

variable {δ σ α : Type}

/-- What is read of a line and its end. -/
def lineParts (l : Text) : List Text := confPieces (l ++ [ch '\n'])

def IsComment (l : Text) : Bool := l.head? = some (ch '#')

/-- The lines of a file that are no comments. -/
def uncommented (content : Text) : List Text := (lines content).filter (! IsComment ·)

/-- The pieces of some lines, each with the mark of a comment. -/
def tagged (ls : List Text) : List (Bool × Text) :=
  ls.flatMap fun l => (lineParts l).map (Prod.mk (IsComment l))

/-- Whether what `first` and `remain` hold has been left there by a comment. -/
structure Marks where
  first : Bool
  remain : Bool

/-- A piece that is scanned leaves its mark where `sscanf` stores. -/
def Marks.scan (k : Marks) (q : Place σ) (comment : Bool) (p : Text) : Marks :=
  match q with
  | .discarding => k
  | _ =>
    { first := if cstr p = [] then k.first else comment
      remain := if (word (cstr p).tail).isSome then comment else k.remain }

/-- A piece of a comment is not taken for a line: `skip_until` does not stop at it, or the
switch does nothing for it. -/
def Reader.Passes (r : Reader σ) (k : Marks) (p : Text) : Prop :=
  (r.place = .discarding → p.head? ≠ some (ch '>')) ∧
    (r.place ≠ .discarding →
      p.head? = some (ch '#') ∨ p.head? = some (ch '\n') ∨ cstr p = [] ∧ k.first)

/-- The switch looks at `remain`: for the type of a block, or for a status or a value
inside of one. -/
def Place.Asks (q : Place σ) (c : Byte) : Prop :=
  q = .outside ∧ c = ch '<' ∨ q ≠ .outside ∧ q ≠ .discarding ∧ c = ch '-'

/-- A line takes over nothing that a comment has left. -/
def Reader.Owns (r : Reader σ) (k : Marks) (p : Text) : Prop :=
  r.place ≠ .discarding →
    (cstr p = [] → k.first = false) ∧
      (r.place.Asks (r.scan p).first → (word (cstr p).tail).isSome ∨ k.remain = false)

/-- No piece of a comment is taken for a line, and no line takes over what a comment has
left in a local, as far as the pieces are read. -/
def Untouched (h : Host δ σ α) : Reader σ → List α → Marks → List (Bool × Text) → Prop
  | _, _, _, [] => True
  | r, ps, k, (comment, p) :: tps =>
    (if comment then r.Passes k p else r.Owns k p) ∧
      ∀ r' ∈ r.next h.loader p,
        r'.place.Fits ∧ (ps ++ h.loaded (r.block p).toList).length ≤ maxPlugins →
          Untouched h r' (ps ++ h.loaded (r.block p).toList) (k.scan r.place comment p) tps

/-- The comments of a file are never seen. -/
def CommentsUnseen (h : Host δ σ α) (junk : Sparser σ α) (content : Text) : Prop :=
  Untouched h ⟨.outside, junk.first, junk.remain⟩ [] ⟨false, false⟩ (tagged (lines content))

section Decidable

variable [DecidableEq σ]

instance (r : Reader σ) (k : Marks) (p : Text) : Decidable (r.Passes k p) :=
  inferInstanceAs (Decidable (_ ∧ _))

instance (q : Place σ) (c : Byte) : Decidable (q.Asks c) :=
  inferInstanceAs (Decidable (_ ∨ _))

instance (r : Reader σ) (k : Marks) (p : Text) : Decidable (r.Owns k p) :=
  inferInstanceAs (Decidable (_ → _ ∧ _))

instance decidableUntouched (h : Host δ σ α) : (r : Reader σ) → (ps : List α) →
    (k : Marks) → (tps : List (Bool × Text)) → Decidable (Untouched h r ps k tps)
  | _, _, _, [] => .isTrue trivial
  | r, ps, k, (comment, p) :: tps =>
    have := fun r' => decidableUntouched h r' (ps ++ h.loaded (r.block p).toList)
      (k.scan r.place comment p) tps
    inferInstanceAs (Decidable (_ ∧ ∀ r' ∈ r.next h.loader p, _ → _))

instance (h : Host δ σ α) (junk : Sparser σ α) (content : Text) :
    Decidable (CommentsUnseen h junk content) :=
  decidableUntouched h _ _ _ _

end Decidable

variable {h : Host δ σ α} {r r' : Reader σ} {l p : Text} {xs ys ls : List Text}
  {ps : List α} {cs : List (σ × List Text)} {k : Marks}

/-! ## Pieces that are ignored -/

theorem place_scan (r : Reader σ) (p : Text) : (r.scan p).place = r.place := by
  unfold Reader.scan
  split <;> rfl

theorem scan_discarding (p : Text) (hr : r.place = .discarding) : r.scan p = r := by
  rw [Reader.scan, hr]

theorem first_scan (hr : r.place ≠ .discarding) :
    (r.scan p).first = (cstr p).head?.getD r.first := by
  unfold Reader.scan
  split
  · next hplace => exact absurd hplace hr
  · rfl

theorem remain_scan (hr : r.place ≠ .discarding) :
    (r.scan p).remain = (word (cstr p).tail).getD r.remain := by
  unfold Reader.scan
  split
  · next hplace => exact absurd hplace hr
  · rfl

theorem line_scan (hr : r.place ≠ .discarding) :
    r.line p = scanned (r.scan p).first (r.scan p).remain := by
  unfold Reader.line
  split
  · next hplace => exact absurd hplace hr
  · rfl

theorem head?_cstr {c : Byte} (hc : c ≠ 0) (hp : p.head? = some c) :
    (cstr p).head? = some c := by
  cases p with
  | nil => simp at hp
  | cons d p =>
    obtain rfl : d = c := by simpa using hp
    rw [cstr, List.takeWhile_cons_of_pos (by simpa using hc)]
    rfl

theorem head?_of_cstr {c : Byte} (hp : (cstr p).head? = some c) : p.head? = some c := by
  obtain ⟨t, ht⟩ : cstr p <+: p := List.takeWhile_prefix _
  cases hcstr : cstr p with
  | nil => simp [hcstr] at hp
  | cons d u =>
    rw [← ht]
    simpa [hcstr] using hp

/-- A character for which the switch does nothing. -/
def Ignorable (c : Byte) : Prop := c = ch '\n' ∨ c = ch '#'

/-- The piece leaves an ignorable character in `first`. -/
def Ignored (first : Byte) (p : Text) : Prop :=
  p.head? = some (ch '#') ∨ p.head? = some (ch '\n') ∨ cstr p = [] ∧ Ignorable first

theorem Ignored.not_close {c : Byte} (hp : Ignored c p) : p.head? ≠ some (ch '>') := by
  intro hgt
  have hcstr := head?_cstr (by decide) hgt
  rcases hp with hp | hp | ⟨hp, -⟩
  · rw [hgt] at hp
    exact absurd hp (by decide)
  · rw [hgt] at hp
    exact absurd hp (by decide)
  · rw [hp] at hcstr
    cases hcstr

theorem first_of_ignored (hr : r.place ≠ .discarding) (hp : Ignored r.first p) :
    Ignorable (r.scan p).first := by
  rw [first_scan hr]
  rcases hp with hp | hp | ⟨hp, hfirst⟩
  · rw [head?_cstr (by decide) hp]
    exact Or.inr rfl
  · rw [head?_cstr (by decide) hp]
    exact Or.inl rfl
  · rw [hp]
    exact hfirst

theorem line_ignored (hp : r.place ≠ .discarding → Ignored r.first p)
    (hclose : p.head? ≠ some (ch '>')) : r.line p = .ignored := by
  by_cases hr : r.place = .discarding
  · rw [Reader.line, hr]
    exact if_neg hclose
  · rw [line_scan hr]
    exact if_pos (first_of_ignored hr (hp hr))

theorem next_ignored (hline : r.line p = .ignored) :
    r.next h.loader p = some (r.scan p) ∧ r.block p = none := by
  constructor
  · rw [Reader.next, hline]
    have hstay : r.place.next h.loader .ignored = some r.place := by
      cases r.place <;> rfl
    rw [hstay, ← place_scan r p]
    rfl
  · rw [Reader.block, hline]
    cases r.place <;> rfl

theorem read_ignored (hline : r.line p = .ignored) (hfits : r.place.Fits)
    (hps : ps.length ≤ maxPlugins) :
    r.read h ps cs (p :: ls) = (r.scan p).read h ps cs ls := by
  obtain ⟨hnext, hblock⟩ := next_ignored (h := h) hline
  rw [Reader.read, hnext, hblock]
  dsimp only
  have hroom : (ps ++ h.loaded (none : Option (σ × List Text)).toList).length ≤ maxPlugins := by
    simpa [Host.loaded] using hps
  rw [if_pos ⟨by rw [place_scan]; exact hfits, hroom⟩]
  simp [Host.loaded]

/-! ## The end of a file -/

/-- The reader goes on in the same way after some pieces. -/
theorem read_append (hfits : r.place.Fits) (hps : ps.length ≤ maxPlugins)
    (hxy : ∀ (r : Reader σ) (ps : List α) cs, r.place.Fits → ps.length ≤ maxPlugins →
      r.read h ps cs xs = r.read h ps cs ys) :
    r.read h ps cs (ls ++ xs) = r.read h ps cs (ls ++ ys) := by
  induction ls generalizing r ps cs with
  | nil => exact hxy r ps cs hfits hps
  | cons l ls ih =>
    rw [List.cons_append, List.cons_append, Reader.read, Reader.read]
    cases r.next h.loader l with
    | none => rfl
    | some r' =>
      dsimp only
      split
      · next hroom => exact ih hroom.1 hroom.2
      · rfl

theorem cstr_append_newline (t : Text) :
    cstr (t ++ [ch '\n']) = if 0 ∈ t then cstr t else t ++ [ch '\n'] := by
  induction t with
  | nil => rfl
  | cons c t ih =>
    unfold cstr at ih ⊢
    by_cases hc : c = 0
    · simp [hc]
    · rw [List.cons_append, List.takeWhile_cons_of_pos (by simpa using hc), ih,
        List.takeWhile_cons_of_pos (by simpa using hc)]
      simp only [List.mem_cons, Ne.symm hc, false_or]
      split <;> rfl

/-- The end of its line changes nothing for the scan of a piece. -/
theorem scan_newline (r : Reader σ) (hp : p ≠ []) : r.scan (p ++ [ch '\n']) = r.scan p := by
  have hcstr : (cstr (p ++ [ch '\n'])).head? = (cstr p).head? ∧
      word (cstr (p ++ [ch '\n'])).tail = word (cstr p).tail := by
    rw [cstr_append_newline]
    split
    · exact ⟨rfl, rfl⟩
    · next hnul =>
      rw [cstr_of_nul hnul]
      cases p with
      | nil => exact absurd rfl hp
      | cons c p =>
        refine ⟨rfl, word_append ?_⟩
        intro d hd
        rw [List.mem_singleton.mp hd]
        decide
  unfold Reader.scan
  rw [hcstr.1, hcstr.2]

theorem line_newline (r : Reader σ) (hp : p ≠ []) : r.line (p ++ [ch '\n']) = r.line p := by
  unfold Reader.line
  rw [scan_newline r hp, List.head?_append_of_ne_nil _ hp]

/-- A last line without its end is read as one with it. -/
theorem read_lineParts (l : Text) (hfits : r.place.Fits) (hps : ps.length ≤ maxPlugins) :
    r.read h ps cs (confPieces l) = r.read h ps cs (lineParts l) := by
  rcases pieces_concat_newline (n := bfsz - 1) (bfsz - 1) l with hl | ⟨xs, p, hp, hl, hnl⟩
  · have happ : lineParts l = confPieces l ++ [[ch '\n']] := hl
    rw [happ, ← List.append_nil (confPieces l), List.append_assoc]
    refine read_append hfits hps ?_
    intro r ps cs hfits hps
    have hline : r.line [ch '\n'] = .ignored :=
      line_ignored (fun _ => Or.inr (Or.inl rfl)) (by decide)
    rw [List.nil_append, read_ignored hline hfits hps]
    rfl
  · have hparts : lineParts l = xs ++ [p ++ [ch '\n']] := hnl
    have hpieces : confPieces l = xs ++ [p] := hl
    rw [hparts, hpieces]
    refine read_append hfits hps ?_
    intro r ps cs hfits hps
    rw [Reader.read, Reader.read, Reader.next, Reader.next, Reader.block, Reader.block,
      line_newline r hp, scan_newline r hp]

/-- A file is read line by line. -/
theorem read_lines (content : Text) (hfits : r.place.Fits) (hps : ps.length ≤ maxPlugins) :
    r.read h ps cs (confPieces content) =
      r.read h ps cs ((lines content).flatMap lineParts) := by
  induction hls : lines content generalizing content r ps cs with
  | nil =>
    rw [lines_eq_nil hls]
    rfl
  | cons l ls ih =>
    rw [List.flatMap_cons]
    rcases lines_eq_cons hls with ⟨s, rfl, hs⟩ | ⟨rfl, rfl⟩
    · have happ : confPieces (l ++ ch '\n' :: s) = lineParts l ++ confPieces s :=
        pieces_append_newline l s
      rw [happ]
      refine read_append hfits hps ?_
      intro r ps cs hfits hps
      exact ih s hfits hps hs
    · rw [List.flatMap_nil, List.append_nil]
      exact read_lineParts content hfits hps

/-! ## Two runs side by side -/

theorem Marks.scan_discarding (k : Marks) (comment : Bool) (p : Text) :
    k.scan (Place.discarding : Place σ) comment p = k := rfl

theorem Marks.scan_of_ne {q : Place σ} (hq : q ≠ .discarding) (k : Marks) (comment : Bool)
    (p : Text) :
    k.scan q comment p =
      ⟨if cstr p = [] then k.first else comment,
        if (word (cstr p).tail).isSome then comment else k.remain⟩ := by
  cases q <;> first | rfl | exact absurd rfl hq

/-- The readers of a file with its comments and without them. -/
structure Alike (k : Marks) (r r' : Reader σ) : Prop where
  place : r.place = r'.place
  discarding : r.place = .discarding → r = r'
  first : k.first = false → r.first = r'.first
  remain : k.remain = false → r.remain = r'.remain
  comment : k.first = true → Ignorable r.first

theorem Alike.refl {m : Bool} (r : Reader σ) : Alike ⟨false, m⟩ r r :=
  ⟨rfl, fun _ => rfl, fun _ => rfl, fun _ => rfl, by simp⟩

theorem Alike.passes (ha : Alike k r r') (hp : r.Passes k p) :
    r.line p = .ignored ∧ Alike (k.scan r.place true p) (r.scan p) r' := by
  obtain ⟨hclose, hswitch⟩ := hp
  by_cases hr : r.place = .discarding
  · have hline : r.line p = .ignored :=
      line_ignored (fun hr' => absurd hr hr') (hclose hr)
    refine ⟨hline, ?_⟩
    rw [scan_discarding p hr, hr, Marks.scan_discarding]
    exact ha
  have hignored : Ignored r.first p := by
    rcases hswitch hr with hp | hp | ⟨hp, hk⟩
    · exact Or.inl hp
    · exact Or.inr (Or.inl hp)
    · exact Or.inr (Or.inr ⟨hp, ha.comment hk⟩)
  refine ⟨line_ignored (fun _ => hignored) hignored.not_close, ?_⟩
  rw [Marks.scan_of_ne hr]
  refine ⟨(place_scan r p).trans ha.place, ?_, ?_, ?_, fun _ => first_of_ignored hr hignored⟩
  · intro hdiscarding
    rw [place_scan] at hdiscarding
    exact absurd hdiscarding hr
  · intro hfirst
    have hfirst : cstr p = [] ∧ k.first = false := by simpa using hfirst
    rw [first_scan hr, hfirst.1]
    exact ha.first hfirst.2
  · intro hremain
    have hremain : word (cstr p).tail = none ∧ k.remain = false := by simpa using hremain
    rw [remain_scan hr, hremain.1]
    exact ha.remain hremain.2

theorem scanned_congr {c : Byte} {t u : Text} (htu : c = ch '<' ∨ c = ch '-' → t = u) :
    scanned c t = scanned c u := by
  by_cases hc : c = ch '<' ∨ c = ch '-'
  · rw [htu hc]
  · obtain ⟨hlt, hdash⟩ := not_or.mp hc
    simp only [scanned, hlt, hdash, if_false]

/-- A block is discarded at its head or at its status. -/
theorem discarding_of_scanned {q : Place σ} {loader : Text → Option σ} {c : Byte} {t : Text}
    (hq : q ≠ .discarding) (hnext : q.next loader (scanned c t) = some .discarding) :
    c = ch '<' ∨ c = ch '-' := by
  by_contra hc
  obtain ⟨hlt, hdash⟩ := not_or.mp hc
  simp only [scanned, hlt, hdash, if_false] at hnext
  split_ifs at hnext <;> cases q <;> simp [Place.next] at hnext hq

/-- A line with an argument that the switch does not look at is refused. -/
theorem next_of_not_asks {q : Place σ} {c : Byte} (loader : Text → Option σ) (t : Text)
    (hq : q ≠ .discarding) (hc : c = ch '<' ∨ c = ch '-') (hasks : ¬ q.Asks c) :
    q.next loader (scanned c t) = none := by
  rcases hc with rfl | rfl
  · have hout : q ≠ .outside := fun hout => hasks (Or.inl ⟨hout, rfl⟩)
    have hscanned : scanned (ch '<') t = .opens (t.take (bfsz - 1)) := rfl
    rw [hscanned]
    cases q <;> simp [Place.next] at hq hout ⊢
  · have hout : q = .outside := by
      by_contra hout
      exact hasks (Or.inr ⟨hout, hq, rfl⟩)
    rw [hout]
    rfl

/-- Both readers refuse a line, or they see the same in it. -/
theorem Alike.owns (ha : Alike k r r') (ho : r.Owns k p) (loader : Text → Option σ) :
    (r.next loader p = none ∧ r'.next loader p = none) ∨
      r.line p = r'.line p ∧
        ∀ q, r.place.next loader (r.line p) = some q →
          Alike (k.scan r.place false p) { r.scan p with place := q }
            { r'.scan p with place := q } := by
  by_cases hr : r.place = .discarding
  · obtain rfl := ha.discarding hr
    rw [scan_discarding p hr, hr, Marks.scan_discarding]
    exact Or.inr ⟨rfl, fun _ _ => ⟨rfl, fun _ => rfl, fun _ => rfl, fun _ => rfl, ha.comment⟩⟩
  obtain ⟨hfirst, hremain⟩ := ho hr
  have hr' : r'.place ≠ .discarding := ha.place ▸ hr
  have hc : (r.scan p).first = (r'.scan p).first := by
    rw [first_scan hr, first_scan hr']
    cases hp : cstr p with
    | nil => exact ha.first (hfirst hp)
    | cons c t => rfl
  have hw : (word (cstr p).tail).isSome ∨ k.remain = false →
      (r.scan p).remain = (r'.scan p).remain := by
    rw [remain_scan hr, remain_scan hr']
    intro hw
    cases hword : word (cstr p).tail with
    | none => exact ha.remain (by simpa [hword] using hw)
    | some w => rfl
  -- an argument that is not looked at may be a different one
  by_cases hasks : ((r.scan p).first = ch '<' ∨ (r.scan p).first = ch '-') ∧
      ¬ r.place.Asks (r.scan p).first
  · left
    have hnone : ∀ t, r.place.next loader (scanned (r.scan p).first t) = none :=
      fun t => next_of_not_asks loader t hr hasks.1 hasks.2
    rw [Reader.next, Reader.next, line_scan hr, line_scan hr', ← hc, ← ha.place, hnone, hnone]
    exact ⟨rfl, rfl⟩
  have harg : (r.scan p).first = ch '<' ∨ (r.scan p).first = ch '-' →
      (r.scan p).remain = (r'.scan p).remain := by
    intro hchar
    refine hw (hremain ?_)
    by_contra hnot
    exact hasks ⟨hchar, hnot⟩
  have hscan : k.scan r.place false p =
      ⟨false, if (word (cstr p).tail).isSome then false else k.remain⟩ := by
    rw [Marks.scan_of_ne hr]
    by_cases hp : cstr p = []
    · rw [if_pos hp, hfirst hp]
    · rw [if_neg hp]
  right
  refine ⟨?_, ?_⟩
  · rw [line_scan hr, line_scan hr', ← hc]
    exact scanned_congr harg
  · intro q hnext
    rw [hscan]
    refine ⟨rfl, ?_, fun _ => hc, ?_, by simp⟩
    · intro hq
      obtain rfl : q = .discarding := hq
      rw [line_scan hr] at hnext
      have := harg (discarding_of_scanned hr hnext)
      simp only [hc, this]
    · intro hm
      refine hw ?_
      cases hword : (word (cstr p).tail).isSome with
      | true => exact Or.inl rfl
      | false => exact Or.inr (by simpa [hword] using hm)

theorem read_tagged {tps : List (Bool × Text)} (ha : Alike k r r')
    (hu : Untouched h r ps k tps) (hfits : r.place.Fits) (hps : ps.length ≤ maxPlugins) :
    r.read h ps cs (tps.map Prod.snd) =
      r'.read h ps cs ((tps.filter (! ·.1)).map Prod.snd) := by
  induction tps generalizing k r r' ps cs with
  | nil => rfl
  | cons tp tps ih =>
    obtain ⟨comment, p⟩ := tp
    obtain ⟨hp, hrest⟩ := hu
    cases comment with
    | true =>
      obtain ⟨hline, hscan⟩ := ha.passes hp
      obtain ⟨hnext, hblock⟩ := next_ignored (h := h) hline
      have hplace : (r.scan p).place.Fits := by rwa [place_scan]
      have hroom : ps ++ h.loaded (r.block p).toList = ps := by simp [hblock, Host.loaded]
      have hu := hrest _ hnext ⟨hplace, by rwa [hroom]⟩
      rw [hroom] at hu
      rw [List.map_cons, read_ignored hline hfits hps]
      exact ih hscan hu hplace hps
    | false =>
      rw [List.filter_cons_of_pos rfl, List.map_cons, List.map_cons, Reader.read, Reader.read]
      rcases ha.owns hp h.loader with ⟨hnone, hnone'⟩ | ⟨hline, hstep⟩
      · rw [hnone, hnone']
      · have hblock : r.block p = r'.block p := by
          rw [Reader.block, Reader.block, ha.place, hline]
        have hnext' : r'.next h.loader p =
            (r.place.next h.loader (r.line p)).map fun q => { r'.scan p with place := q } := by
          rw [Reader.next, ← ha.place, ← hline]
        cases hq : r.place.next h.loader (r.line p) with
        | none =>
          rw [hnext', Reader.next, hq]
          rfl
        | some q =>
          have hnext : r.next h.loader p = some { r.scan p with place := q } := by
            rw [Reader.next, hq]
            rfl
          rw [hnext', hq, hnext, ← hblock]
          dsimp only [Option.map_some]
          split
          · next hroom => exact ih (hstep q hq) (hrest _ hnext hroom) hroom.1 hroom.2
          · rfl

theorem map_tagged (ls : List Text) : (tagged ls).map Prod.snd = ls.flatMap lineParts := by
  simp [tagged, List.map_flatMap, Function.comp_def]

theorem filter_tagged (ls : List Text) :
    ((tagged ls).filter (! ·.1)).map Prod.snd =
      (ls.filter (! IsComment ·)).flatMap lineParts := by
  induction ls with
  | nil => rfl
  | cons l ls ih =>
    rw [tagged, List.flatMap_cons, List.filter_append, List.map_append]
    cases hl : IsComment l with
    | true => simpa [hl, tagged, List.filter_map, Function.comp_def] using ih
    | false => simpa [hl, tagged, List.filter_map, Function.comp_def] using ih

/-- A file whose comments are never seen is read as if they were not there. -/
theorem sparse_uncommented (h : Host δ σ α) (junk : Sparser σ α) {content : Text}
    (hu : CommentsUnseen h junk content) :
    sparse h junk (some content) =
      Reader.read h ⟨.outside, junk.first, junk.remain⟩ [] []
        ((uncommented content).flatMap lineParts) := by
  have hread : Reader.read h ⟨.outside, junk.first, junk.remain⟩ [] [] (confPieces content) =
      Reader.read h ⟨.outside, junk.first, junk.remain⟩ [] []
        ((lines content).flatMap lineParts) := read_lines content trivial (Nat.zero_le _)
  rw [sparse_eq_read, hread, ← map_tagged, uncommented, ← filter_tagged]
  exact read_tagged (Alike.refl _) hu trivial (Nat.zero_le _)

/-! ## Comments that are seen -/

/-- The piece is ignored where it follows a comment. -/
def Muted (p : Text) : Prop := Ignored (ch '#') p

instance (p : Text) : Decidable (Muted p) :=
  inferInstanceAs (Decidable (_ ∨ _ ∨ _ ∧ (_ ∨ _)))

theorem Muted.ignored {c : Byte} (hp : Muted p) (hc : Ignorable c) : Ignored c p := by
  rcases hp with hp | hp | ⟨hp, -⟩
  · exact Or.inl hp
  · exact Or.inr (Or.inl hp)
  · exact Or.inr (Or.inr ⟨hp, hc⟩)

theorem read_muted (h : Host δ σ α) (r : Reader σ) (ps : List α) (cs : List (σ × List Text))
    (ys : List Text) (hr : r.place ≠ .discarding) (hfirst : Ignorable r.first)
    (hfits : r.place.Fits) (hps : ps.length ≤ maxPlugins) (hxs : ∀ p ∈ xs, Muted p) :
    ∃ r' : Reader σ, r'.place = r.place ∧
      r.read h ps cs (xs ++ ys) = r'.read h ps cs ys := by
  induction xs generalizing r with
  | nil => exact ⟨r, rfl, rfl⟩
  | cons p xs ih =>
    have hp := hxs p List.mem_cons_self
    have hignored := hp.ignored hfirst
    have hline : r.line p = .ignored := line_ignored (fun _ => hignored) hignored.not_close
    have hplace := place_scan r p
    obtain ⟨r', hr', hread⟩ := ih (r.scan p) (by rwa [hplace]) (first_of_ignored hr hignored)
      (by rwa [hplace]) (fun q hq => hxs q (List.mem_cons_of_mem _ hq))
    refine ⟨r', hr'.trans hplace, ?_⟩
    rw [List.cons_append, read_ignored hline hfits hps, hread]

/-- A piece that is not ignored is refused outside of a block, or else in its body. -/
theorem read_loud (hp : ¬ Muted p) (hr : r.place = .outside ∧ p.head? ≠ some (ch '<') ∨
    ∃ load, r.place = .body load ∧ p.head? = some (ch '<')) :
    r.read h ps cs (p :: ys) = .rejected cs := by
  have hdiscarding : r.place ≠ .discarding := by
    rcases hr with ⟨hr, -⟩ | ⟨load, hr, -⟩ <;> simp [hr]
  obtain ⟨c, hcstr⟩ : ∃ c, (cstr p).head? = some c := by
    cases hp' : cstr p with
    | nil => exact absurd (Or.inr (Or.inr ⟨hp', Or.inr rfl⟩)) hp
    | cons c t => exact ⟨c, rfl⟩
  have hhead := head?_of_cstr hcstr
  have hnl : c ≠ ch '\n' := by
    rintro rfl
    exact hp (Or.inr (Or.inl hhead))
  have hhash : c ≠ ch '#' := by
    rintro rfl
    exact hp (Or.inl hhead)
  have hnext : r.next h.loader p = none := by
    rw [Reader.next, line_scan hdiscarding, first_scan hdiscarding, hcstr, Option.map_eq_none_iff]
    rcases hr with ⟨hr, hlt⟩ | ⟨load, hr, hlt⟩
    · have hlt : c ≠ ch '<' := by
        rintro rfl
        exact hlt hhead
      rw [hr]
      simp only [Option.getD_some, scanned, hnl, hhash, hlt, or_self, if_false]
      split_ifs <;> rfl
    · obtain rfl : c = ch '<' := by
        rw [hhead] at hlt
        exact Option.some.inj hlt
      rw [hr]
      rfl
  rw [Reader.read, hnext]

theorem exists_first_loud (hl : ∃ p ∈ ls, ¬ Muted p) :
    ∃ xs p ys, ls = xs ++ p :: ys ∧ (∀ q ∈ xs, Muted q) ∧ ¬ Muted p := by
  induction ls with
  | nil => simp at hl
  | cons l ls ih =>
    by_cases hq : Muted l
    · obtain ⟨p, hp, hloud⟩ := hl
      have hp : p ∈ ls := by
        rcases List.mem_cons.mp hp with rfl | hp
        · exact absurd hq hloud
        · exact hp
      obtain ⟨xs, p, ys, rfl, hxs, hloud⟩ := ih ⟨p, hp, hloud⟩
      exact ⟨l :: xs, p, ys, rfl, List.forall_mem_cons.mpr ⟨hq, hxs⟩, hloud⟩
    · exact ⟨[], l, ls, rfl, List.forall_mem_nil _, hq⟩

/-- All libraries are there and all loaders fail. -/
def idleHost : Host Unit Unit Unit := ⟨fun _ => some (), fun _ _ => some (), fun _ _ => none⟩

/-- A comment with a piece that is not ignored makes a difference at the end of a file. -/
theorem loud_comment_seen (hl : IsComment l) (hnl : ch '\n' ∉ l)
    (hloud : ∃ p ∈ lineParts l, ¬ Muted p) :
    ∃ junk pre, uncommented (pre ++ (l ++ [ch '\n'])) = uncommented pre ∧
      sparse idleHost junk (some (pre ++ (l ++ [ch '\n']))) ≠
        sparse idleHost junk (some pre) := by
  obtain ⟨xs, p, ys, hparts, hxs, hloud⟩ := exists_first_loud hloud
  have hlines := lines_append_newline (s := []) hnl
  have hignorable : Ignorable (ch '#') := Or.inr rfl
  have hpieces : confPieces (l ++ [ch '\n']) = xs ++ p :: ys := hparts
  refine ⟨⟨.none, ch '#', [], [], 0, fun _ => [], none, [], []⟩, ?_⟩
  by_cases hlt : p.head? = some (ch '<')
  · -- the head of a block is refused inside of one
    refine ⟨str "<m\n#\n", ?_, ?_⟩
    · have hstart : lines (str "<m\n#\n" ++ (l ++ [ch '\n'])) = [str "<m", str "#", l] :=
        calc lines (str "<m\n#\n" ++ (l ++ [ch '\n']))
          _ = str "<m" :: lines (str "#\n" ++ (l ++ [ch '\n'])) :=
            lines_append_newline (l := str "<m") (by decide)
          _ = [str "<m", str "#"] ++ lines (l ++ [ch '\n']) :=
            congrArg _ (lines_append_newline (l := str "#") (by decide))
          _ = [str "<m", str "#", l] := by
            rw [hlines]
            rfl
      rw [uncommented, hstart]
      simp only [List.filter_cons, hl]
      rfl
    · have hstart : confPieces (str "<m\n#\n" ++ (l ++ [ch '\n'])) =
          str "<m\n" :: str "#\n" :: (xs ++ p :: ys) := by
        rw [← hpieces]
        exact pieces_append_newline (str "<m\n#") _
      rw [sparse_eq_read, sparse_eq_read, hstart]
      obtain ⟨r, hr, hread⟩ := read_muted idleHost ⟨.body (), ch '#', str "m"⟩ [] [] (p :: ys)
        (by simp) hignorable trivial (Nat.zero_le _) hxs
      have hrejected : Reader.read idleHost ⟨.outside, ch '#', []⟩ [] []
          (str "<m\n" :: str "#\n" :: (xs ++ p :: ys)) = .rejected [] :=
        hread.trans (read_loud hloud (Or.inr ⟨(), hr, hlt⟩))
      rw [hrejected]
      intro heq
      cases heq
  · refine ⟨[], ?_, ?_⟩
    · rw [List.nil_append, uncommented, hlines]
      simp only [List.filter_cons, hl]
      rfl
    · rw [sparse_eq_read, sparse_eq_read, List.nil_append, hpieces]
      obtain ⟨r, hr, hread⟩ := read_muted idleHost ⟨.outside, ch '#', []⟩ [] [] (p :: ys)
        (by simp) hignorable trivial (Nat.zero_le _) hxs
      rw [hread, read_loud hloud (Or.inl ⟨hr, hlt⟩)]
      intro heq
      cases heq

theorem sparse_ignores_comments (h : Host δ σ α) (junk : Sparser σ α) {c c' : Text}
    (hsame : uncommented c = uncommented c')
    (hc : CommentsUnseen h junk c) (hc' : CommentsUnseen h junk c') :
    sparse h junk (some c) = sparse h junk (some c') := by
  rw [sparse_uncommented h junk hc, sparse_uncommented h junk hc', hsame]

theorem sparse_ignores_comments_sample :
    sparse sampleHost ⟨.none, 0, [], [], 0, fun _ => [], none, [], []⟩
        (some (str "# OFF\n<m\n# m\n- ON\n>\n#")) =
      sparse sampleHost ⟨.none, 0, [], [], 0, fun _ => [], none, [], []⟩
        (some (str "<m\n- ON\n>\n")) :=
  sparse_ignores_comments _ _ (by decide) (by decide) (by decide)

/-- A comment in a discarded block is not scanned, so what follows has nothing of it. -/
example : CommentsUnseen sampleHost ⟨.none, 0, [], [], 0, fun _ => [], none, [], []⟩
    (str "<m\n- OFF\n# x\n-\n>\n<m\n- ON\n>") := by
  decide

/-- A comment of 128 bytes whose last one is taken for a line, and one whose word becomes
the status of a block. -/
theorem sparse_sees_comments :
    (uncommented (ch '#' :: List.replicate 126 (ch '-') ++ str "?\n") = uncommented [] ∧
      sparse sampleHost ⟨.none, 0, [], [], 0, fun _ => [], none, [], []⟩
          (some (ch '#' :: List.replicate 126 (ch '-') ++ str "?\n")) ≠
        sparse sampleHost ⟨.none, 0, [], [], 0, fun _ => [], none, [], []⟩ (some [])) ∧
    (uncommented (str "<m\n# ON\n-\n>\n") = uncommented (str "<m\n-\n>\n") ∧
      sparse sampleHost ⟨.none, 0, [], [], 0, fun _ => [], none, [], []⟩
          (some (str "<m\n# ON\n-\n>\n")) ≠
        sparse sampleHost ⟨.none, 0, [], [], 0, fun _ => [], none, [], []⟩
          (some (str "<m\n-\n>\n"))) := by
  refine ⟨⟨by decide +kernel, ?_⟩, by decide, ?_⟩
  · rw [sparse_eq_read, sparse_eq_read]
    intro heq
    have hcode := congrArg Sparsed.code heq
    revert hcode
    decide +kernel
  · rw [sparse_eq_read, sparse_eq_read]
    intro heq
    have hcode := congrArg Sparsed.code heq
    revert hcode
    decide +kernel

end MonitoringAgent
