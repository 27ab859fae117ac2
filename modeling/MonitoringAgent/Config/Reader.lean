import MonitoringAgent.Config.Grammar

/-!
# The pieces of `plugin.conf`

`fgets` gives a line of more than 127 bytes in pieces, and `sscanf` leaves `first` and
`remain` as they were when it has nothing to store. The reader here sees the pieces, keeps
these two locals and has arrays of the size of those in the source, so that `sparse`
follows it on every file.
-/
namespace MonitoringAgent

open Buffer Scan

variable {δ σ α : Type}

/-- What `sparse` and `skip_until` read of a text, in turn. -/
def confPieces (t : Text) : List Text := pieces (bfsz - 1) (bfsz - 1) t

structure Reader (σ : Type) where
  place : Place σ
  first : Byte
  remain : Text

/-- What the switch makes of the two locals. -/
def scanned (first : Byte) (remain : Text) : ConfLine :=
  if first = ch '\n' ∨ first = ch '#' then .ignored
  else if first = ch '<' then .opens (remain.take (bfsz - 1))
  else if first = ch '-' then .dash (remain.take (bfsz - 1))
  else if first = ch '!' then .bang
  else if first = ch '>' then .close
  else .other

/-- The pieces of a discarded block are not scanned. -/
def Reader.scan (r : Reader σ) (l : Text) : Reader σ :=
  match r.place with
  | .discarding => r
  | _ =>
    { r with
      first := (cstr l).head?.getD r.first
      remain := (word (cstr l).tail).getD r.remain }

def Reader.line (r : Reader σ) (l : Text) : ConfLine :=
  match r.place with
  | .discarding => if l.head? = some (ch '>') then .close else .ignored
  | _ => scanned (r.scan l).first (r.scan l).remain

/-- Where a piece leads; `none` when it is not allowed there. -/
def Reader.next (loader : Text → Option σ) (r : Reader σ) (l : Text) : Option (Reader σ) :=
  (r.place.next loader (r.line l)).map fun q => { r.scan l with place := q }

/-- The block that a piece closes. -/
def Reader.block (r : Reader σ) (l : Text) : Option (σ × List Text) := r.place.block (r.line l)

/-- `argv` has room for the values of the block. -/
def Place.Fits : Place σ → Prop
  | .values _ vs => vs.length ≤ 10
  | _ => True

instance (p : Place σ) : Decidable p.Fits :=
  match p with
  | .values _ vs => inferInstanceAs (Decidable (vs.length ≤ 10))
  | .outside => .isTrue trivial
  | .body _ => .isTrue trivial
  | .named _ => .isTrue trivial
  | .discarding => .isTrue trivial

/-- What the reader makes of the pieces, given the plugins and calls so far. -/
def Reader.read (h : Host δ σ α) : Reader σ → List α → List (σ × List Text) → List Text →
    Sparsed σ α
  | _, ps, cs, [] => .parsed ps cs
  | r, ps, cs, l :: ls =>
    match r.next h.loader l with
    | none => .rejected cs
    | some r' =>
      if r'.place.Fits ∧ (ps ++ h.loaded (r.block l).toList).length ≤ maxPlugins then
        r'.read h (ps ++ h.loaded (r.block l).toList) (cs ++ (r.block l).toList) ls
      else .wild

variable {h : Host δ σ α} {p q : Place σ} {r r' : Reader σ} {l : Text} {ls : List Text}
  {s s' : Sparser σ α} {conf conf' : File}

/-! ## Discarded pieces -/

theorem skipUntil_pieces (conf : File) : ∃ k conf', skipUntil conf (ch '>') = (k, conf') ∧ k ≠ 1 ∧
    confPieces conf'.rest = afterClose (confPieces conf.rest) := by
  induction hls : confPieces conf.rest generalizing conf with
  | nil =>
    refine ⟨2, ⟨[], true⟩, ?_, by decide, rfl⟩
    rw [skipUntil_of_none (fgets_of_no_pieces (by decide) hls), if_pos rfl]
  | cons l ls ih =>
    obtain ⟨conf', hread, hrest⟩ := fgets_of_pieces (n := bfsz) (by decide) hls
    rw [skipUntil_of_some hread, afterClose]
    by_cases hl : l.head? = some (ch '>')
    · rw [if_neg (not_not.mpr hl), if_pos hl]
      refine ⟨_, conf', rfl, ?_, hrest⟩
      split <;> decide
    · rw [if_pos hl, if_neg hl]
      exact ih _ hrest

theorem discard_pieces (s : Sparser σ α) (conf : File) :
    ∃ conf', s.discard conf = .next { s with status := .none } conf' ∧
      confPieces conf'.rest = afterClose (confPieces conf.rest) := by
  obtain ⟨k, conf', hskip, hk, hrest⟩ := skipUntil_pieces conf
  refine ⟨conf', ?_, hrest⟩
  rw [Sparser.discard, hskip]
  split
  · next heq => exact absurd (Prod.mk.inj heq).1 hk
  · next heq => rw [(Prod.mk.inj heq).2]

theorem next_reader_discarding (hr : r.place = .discarding) :
    r.next h.loader l =
      some { r with place := if l.head? = some (ch '>') then .outside else .discarding } := by
  obtain ⟨place, first, remain⟩ := r
  obtain rfl : place = .discarding := hr
  by_cases hl : l.head? = some (ch '>')
  · simp [Reader.next, Reader.line, Reader.scan, Place.next, hl]
  · simp [Reader.next, Reader.line, Reader.scan, Place.next, hl]

theorem block_discarding (hr : r.place = .discarding) : r.block l = none := by
  rw [Reader.block, hr]
  rfl

theorem read_discarding {ps : List α} {cs : List (σ × List Text)} (hr : r.place = .discarding)
    (hps : ps.length ≤ maxPlugins) :
    r.read h ps cs ls = Reader.read h { r with place := .outside } ps cs (afterClose ls) := by
  induction ls with
  | nil => rfl
  | cons l ls ih =>
    rw [Reader.read, next_reader_discarding hr, block_discarding hr, afterClose]
    have hroom : (ps ++ h.loaded (none : Option (σ × List Text)).toList).length ≤ maxPlugins := by
      simpa [Host.loaded] using hps
    by_cases hl : l.head? = some (ch '>')
    · simp [hl, Place.Fits, Host.loaded, hps]
    · have hstay : { r with place := .discarding } = r := by rw [← hr]
      simp only [if_neg hl, hstay]
      rw [if_pos ⟨trivial, hroom⟩]
      simpa [Host.loaded] using ih

/-! ## One piece -/

/-- A turn of the loop does what the reader does at a place with a line, where `ls` are
the pieces that follow. -/
def Obeys (h : Host δ σ α) (s : Sparser σ α) (p : Place σ) (x : ConfLine) (ls : List Text)
    (turn : SparseTurn σ α) : Prop :=
  match p.next h.loader x with
  | none => turn = .reject
  | some q =>
    if q.Fits ∧ (s.plugins ++ h.loaded (p.block x).toList).length ≤ maxPlugins then
      ∃ s' conf', turn = .next s' conf' ∧ s'.At (q.skip ls).1 ∧
        s'.first = s.first ∧ s'.remain = s.remain ∧ confPieces conf'.rest = (q.skip ls).2 ∧
        s'.plugins = s.plugins ++ h.loaded (p.block x).toList ∧
        s'.calls = s.calls ++ (p.block x).toList
    else turn = .wild

theorem obeys_of_reject {x : ConfLine} (hnext : p.next h.loader x = none) :
    Obeys h s p x ls .reject := by
  rw [Obeys, hnext]

/-- A line that closes no block. -/
theorem obeys_of_next {x : ConfLine} (hps : s.plugins.length ≤ maxPlugins)
    (hnext : p.next h.loader x = some q) (hfits : q.Fits) (hblock : p.block x = none)
    (hat : s'.At (q.skip ls).1) (hfirst : s'.first = s.first) (hremain : s'.remain = s.remain)
    (hrest : confPieces conf'.rest = (q.skip ls).2) (hps' : s'.plugins = s.plugins)
    (hcs' : s'.calls = s.calls) : Obeys h s p x ls (.next s' conf') := by
  rw [Obeys, hnext, hblock]
  have hroom : (s.plugins ++ h.loaded (none : Option (σ × List Text)).toList).length ≤
      maxPlugins := by
    simpa [Host.loaded] using hps
  dsimp only
  rw [if_pos ⟨hfits, hroom⟩]
  exact ⟨s', conf', rfl, hat, hfirst, hremain, hrest, by simpa [Host.loaded] using hps',
    by simpa using hcs'⟩

theorem obeys_ignored (hat : s.At p) (hfits : p.Fits) (hps : s.plugins.length ≤ maxPlugins) :
    Obeys h s p .ignored (confPieces conf.rest) (.next s conf) := by
  cases p with
  | discarding => exact hat.elim
  | _ => exact obeys_of_next hps rfl hfits rfl hat rfl rfl rfl rfl rfl

theorem obeys_opening (hat : s.At p) (hps : s.plugins.length ≤ maxPlugins) :
    Obeys h s p (.opens (s.remain.take (bfsz - 1))) (confPieces conf.rest)
      (s.opening h conf) := by
  cases p with
  | outside =>
    have hstatus : s.status = .none := hat
    rw [Sparser.opening, if_neg (by simp [hstatus])]
    dsimp only
    cases hload : h.loader (s.remain.take (bfsz - 1)) with
    | none =>
      obtain ⟨load, hres⟩ := resolve_of_no_loader (h := h)
        (s := { s with argc := 0, status := .plug, type := s.remain.take (bfsz - 1) }) hload
      rw [hres]
      obtain ⟨conf', hdiscard, hrest⟩ := discard_pieces
        { s with argc := 0, status := .plug, type := s.remain.take (bfsz - 1), load := load } conf
      dsimp only at hdiscard ⊢
      rw [hdiscard]
      have hnext : (Place.outside : Place σ).next h.loader (.opens (s.remain.take (bfsz - 1))) =
          some .discarding := by
        rw [Place.next, hload]
      exact obeys_of_next hps hnext trivial rfl rfl rfl rfl hrest rfl rfl
    | some load =>
      have hres := resolve_of_loader (h := h)
        (s := { s with argc := 0, status := .plug, type := s.remain.take (bfsz - 1) }) hload
      rw [hres]
      have hnext : (Place.outside : Place σ).next h.loader (.opens (s.remain.take (bfsz - 1))) =
          some (.body load) := by
        rw [Place.next, hload]
      exact obeys_of_next hps hnext trivial rfl ⟨rfl, rfl, rfl⟩ rfl rfl rfl rfl rfl
  | body load =>
    rw [Sparser.opening, if_pos (by simp [hat.1])]
    exact obeys_of_reject rfl
  | named load =>
    rw [Sparser.opening, if_pos (by simp [hat.1])]
    exact obeys_of_reject rfl
  | values load vs =>
    rw [Sparser.opening, if_pos (by simp [hat.1])]
    exact obeys_of_reject rfl
  | discarding => exact hat.elim

/-- A value goes to the end of those the block has, if `argv` has room for it. -/
theorem obeys_push {load : σ} {vs : List Text} (hps : s.plugins.length ≤ maxPlugins)
    (hload : s.load = some load) (hargs : (List.range s.argc).map s.argv = vs)
    (hnext : p.next h.loader (.dash (s.remain.take (bfsz - 1))) =
      some (.values load (vs ++ [s.remain.take (bfsz - 1)])))
    (hblock : p.block (.dash (s.remain.take (bfsz - 1))) = none) :
    Obeys h s p (.dash (s.remain.take (bfsz - 1))) (confPieces conf.rest) (s.push conf) := by
  have hargc : vs.length = s.argc := by simp [← hargs]
  rw [Sparser.push]
  by_cases hroom : s.argc < 10
  · rw [if_pos hroom]
    have hfits : (Place.values load (vs ++ [s.remain.take (bfsz - 1)])).Fits := by
      rw [Place.Fits, List.length_append, List.length_singleton]
      omega
    refine obeys_of_next hps hnext hfits hblock ⟨rfl, hload, ?_⟩ rfl rfl rfl rfl rfl
    dsimp only
    rw [List.range_succ, List.map_append, List.map_singleton, Function.update_self, ← hargs]
    congr 1
    refine List.map_congr_left fun i hi => ?_
    exact Function.update_of_ne (List.mem_range.mp hi).ne _ _
  · rw [if_neg hroom, Obeys, hnext]
    have hfull : ¬ (Place.values load (vs ++ [s.remain.take (bfsz - 1)])).Fits := by
      rw [Place.Fits, List.length_append, List.length_singleton]
      omega
    simp only [hfull, false_and, if_false]

theorem isPrefixOf_take {t u : Text} {n : Nat} (hlen : t.length ≤ n) :
    t <+: u.take n ↔ t <+: u := by
  rw [List.prefix_take_iff]
  exact and_iff_left hlen

theorem obeys_dash (hat : s.At p) (hfits : p.Fits) (hps : s.plugins.length ≤ maxPlugins) :
    Obeys h s p (.dash (s.remain.take (bfsz - 1))) (confPieces conf.rest) (s.dash conf) := by
  cases p with
  | outside =>
    have hstatus : s.status = .none := hat
    rw [Sparser.dash, hstatus]
    exact obeys_of_reject rfl
  | body load =>
    obtain ⟨hstatus, hload, hargc⟩ := hat
    have hoff := isPrefixOf_take (t := str "OFF") (u := s.remain) (n := bfsz - 1) (by decide)
    have hon := isPrefixOf_take (t := str "ON") (u := s.remain) (n := bfsz - 1) (by decide)
    rw [Sparser.dash, hstatus]
    dsimp only
    by_cases hisOff : str "OFF" <+: s.remain
    · obtain ⟨conf', hdiscard, hrest⟩ := discard_pieces s conf
      rw [if_pos hisOff, hdiscard]
      have hnext : (Place.body load).next h.loader (.dash (s.remain.take (bfsz - 1))) =
          some .discarding := by
        rw [Place.next, if_pos (hoff.mpr hisOff)]
      exact obeys_of_next hps hnext trivial rfl rfl rfl rfl hrest rfl rfl
    · rw [if_neg hisOff]
      by_cases hisOn : str "ON" <+: s.remain
      · rw [if_neg (not_not.mpr hisOn)]
        have hnext : (Place.body load).next h.loader (.dash (s.remain.take (bfsz - 1))) =
            some (.body load) := by
          rw [Place.next, if_neg (mt hoff.mp hisOff), if_pos (hon.mpr hisOn)]
        exact obeys_of_next hps hnext trivial rfl ⟨hstatus, hload, hargc⟩ rfl rfl rfl rfl rfl
      · rw [if_pos hisOn]
        refine obeys_of_reject ?_
        rw [Place.next, if_neg (mt hoff.mp hisOff), if_neg (mt hon.mp hisOn)]
  | named load =>
    obtain ⟨hstatus, hload, hargc⟩ := hat
    rw [Sparser.dash, hstatus]
    have hnone : (List.range s.argc).map s.argv = [] := by simp [hargc]
    exact obeys_push hps hload hnone rfl rfl
  | values load vs =>
    obtain ⟨hstatus, hload, hargs⟩ := hat
    rw [Sparser.dash, hstatus]
    exact obeys_push hps hload hargs rfl rfl
  | discarding => exact hat.elim

theorem obeys_bang (hat : s.At p) (hps : s.plugins.length ≤ maxPlugins) :
    Obeys h s p .bang (confPieces conf.rest) (s.bang conf) := by
  cases p with
  | outside =>
    have hstatus : s.status = .none := hat
    rw [Sparser.bang, if_pos (by simp [hstatus])]
    exact obeys_of_reject rfl
  | body load =>
    obtain ⟨hstatus, hload, hargc⟩ := hat
    rw [Sparser.bang, if_neg (by simp [hstatus])]
    exact obeys_of_next hps rfl trivial rfl ⟨rfl, hload, hargc⟩ rfl rfl rfl rfl rfl
  | named load =>
    rw [Sparser.bang, if_pos (by simp [hat.1])]
    exact obeys_of_reject rfl
  | values load vs =>
    rw [Sparser.bang, if_pos (by simp [hat.1])]
    exact obeys_of_reject rfl
  | discarding => exact hat.elim

/-- The end of a block calls its loader, and `plugins` may have no room for what that
leaves. -/
theorem obeys_close {load : σ} {vs : List Text} (hps : s.plugins.length ≤ maxPlugins)
    (hstatus : s.status = .val ∨ s.status = .plug) (hload : s.load = some load)
    (hargs : (List.range s.argc).map s.argv = vs)
    (hnext : p.next h.loader .close = some .outside) (hblock : p.block .close = some (load, vs)) :
    Obeys h s p .close (confPieces conf.rest) (s.closing h conf) := by
  have hopen : ¬ (s.status ≠ .val ∧ s.status ≠ .plug) := by tauto
  rw [Obeys, hnext, hblock, Sparser.closing, if_neg hopen]
  simp only [hload, hargs, Place.Fits, true_and, Option.toList_some, Place.skip]
  cases hres : h.load load vs with
  | none =>
    have hnone : h.loaded [(load, vs)] = [] := by simp [Host.loaded, hres]
    rw [hnone, List.append_nil, if_pos hps]
    exact ⟨_, conf, rfl, rfl, rfl, rfl, rfl, rfl, rfl⟩
  | some x =>
    have hsome : h.loaded [(load, vs)] = [x] := by simp [Host.loaded, hres]
    rw [hsome, List.length_append, List.length_singleton]
    by_cases hroom : s.plugins.length < maxPlugins
    · rw [if_pos (Nat.succ_le_of_lt hroom)]
      simp only [if_pos hroom]
      exact ⟨_, conf, rfl, rfl, rfl, rfl, rfl, rfl, rfl⟩
    · rw [if_neg (by omega)]
      simp only [if_neg hroom]

theorem obeys_closing (hat : s.At p) (hps : s.plugins.length ≤ maxPlugins) :
    Obeys h s p .close (confPieces conf.rest) (s.closing h conf) := by
  cases p with
  | outside =>
    have hstatus : s.status = .none := hat
    rw [Sparser.closing, if_pos (by simp [hstatus])]
    exact obeys_of_reject rfl
  | body load =>
    obtain ⟨hstatus, hload, hargc⟩ := hat
    have hnone : (List.range s.argc).map s.argv = [] := by simp [hargc]
    exact obeys_close hps (Or.inr hstatus) hload hnone rfl rfl
  | named load =>
    rw [Sparser.closing, if_pos (by simp [hat.1])]
    exact obeys_of_reject rfl
  | values load vs =>
    obtain ⟨hstatus, hload, hargs⟩ := hat
    exact obeys_close hps (Or.inl hstatus) hload hargs rfl rfl
  | discarding => exact hat.elim

/-- The body of the loop does what the reader does with the piece. -/
theorem obeys_line (hat : s.At p) (hfits : p.Fits) (hps : s.plugins.length ≤ maxPlugins) :
    Obeys h (s.scan l) p (scanned (s.scan l).first (s.scan l).remain) (confPieces conf.rest)
      (s.line h conf l) := by
  have hat' : (s.scan l).At p := by
    cases p <;> exact hat
  have hps' : (s.scan l).plugins.length ≤ maxPlugins := hps
  unfold Sparser.line scanned
  dsimp only
  generalize s.scan l = t at hat' hps' ⊢
  by_cases hignored : t.first = ch '\n' ∨ t.first = ch '#'
  · rw [if_pos hignored, if_pos hignored]
    exact obeys_ignored hat' hfits hps'
  rw [if_neg hignored, if_neg hignored]
  by_cases hlt : t.first = ch '<'
  · rw [if_pos hlt, if_pos hlt]
    exact obeys_opening hat' hps'
  rw [if_neg hlt, if_neg hlt]
  by_cases hdash : t.first = ch '-'
  · rw [if_pos hdash, if_pos hdash]
    exact obeys_dash hat' hfits hps'
  rw [if_neg hdash, if_neg hdash]
  by_cases hbang : t.first = ch '!'
  · rw [if_pos hbang, if_pos hbang]
    exact obeys_bang hat' hps'
  rw [if_neg hbang, if_neg hbang]
  by_cases hgt : t.first = ch '>'
  · rw [if_pos hgt, if_pos hgt]
    exact obeys_closing hat' hps'
  rw [if_neg hgt, if_neg hgt]
  refine obeys_of_reject ?_
  cases p with
  | discarding => exact hat.elim
  | _ => rfl

/-! ## The whole file -/

theorem line_of_at (hat : s.At p) :
    Reader.line ⟨p, s.first, s.remain⟩ l = scanned (s.scan l).first (s.scan l).remain := by
  cases p with
  | discarding => exact hat.elim
  | _ => rfl

theorem scan_of_at (hat : s.At p) :
    Reader.scan ⟨p, s.first, s.remain⟩ l = ⟨p, (s.scan l).first, (s.scan l).remain⟩ := by
  cases p with
  | discarding => exact hat.elim
  | _ => rfl

theorem read_skip {first : Byte} {remain : Text} {ps : List α} {cs : List (σ × List Text)}
    (hps : ps.length ≤ maxPlugins) :
    Reader.read h ⟨(p.skip ls).1, first, remain⟩ ps cs (p.skip ls).2 =
      Reader.read h ⟨p, first, remain⟩ ps cs ls := by
  cases p with
  | discarding => exact (read_discarding (r := ⟨.discarding, first, remain⟩) rfl hps).symm
  | _ => rfl

theorem fits_skip (hfits : p.Fits) : (p.skip ls).1.Fits := by
  cases p with
  | discarding => trivial
  | _ => exact hfits

/-- `sparse` reads a file as the reader does. -/
theorem sparseLoop_pieces (hat : s.At p) (hfits : p.Fits) (hps : s.plugins.length ≤ maxPlugins) :
    sparseLoop h s conf =
      Reader.read h ⟨p, s.first, s.remain⟩ s.plugins s.calls (confPieces conf.rest) := by
  -- the skips take several pieces off the file at once
  induction hn : (confPieces conf.rest).length using Nat.strong_induction_on
    generalizing s p conf with
  | _ n ih =>
    cases hls : confPieces conf.rest with
    | nil => exact sparseLoop_of_none (fgets_of_no_pieces (by decide) hls)
    | cons l ls =>
      obtain ⟨conf', hread, hrest⟩ := fgets_of_pieces (n := bfsz) (by decide) hls
      obtain rfl : confPieces conf'.rest = ls := hrest
      have hobeys : Obeys h (s.scan l) p (scanned (s.scan l).first (s.scan l).remain)
          (confPieces conf'.rest) (s.line h conf' l) := obeys_line hat hfits hps
      rw [← line_of_at hat] at hobeys
      rw [Reader.read, Reader.next, Reader.block, scan_of_at hat]
      generalize Reader.line ⟨p, s.first, s.remain⟩ l = x at hobeys ⊢
      dsimp only
      unfold Obeys at hobeys
      cases hnext : p.next h.loader x with
      | none =>
        rw [hnext] at hobeys
        exact sparseLoop_of_reject hread hobeys
      | some q =>
        rw [hnext] at hobeys
        dsimp only [Option.map_some] at hobeys ⊢
        have hplugins : (s.scan l).plugins = s.plugins := rfl
        have hcalls : (s.scan l).calls = s.calls := rfl
        rw [hplugins, hcalls] at hobeys
        split at hobeys
        · next hroom =>
          obtain ⟨s', conf'', hturn, hat', hfirst, hremain, hrest, hps', hcs'⟩ := hobeys
          have hshorter : (confPieces conf''.rest).length < n := by
            have := length_skip q (confPieces conf'.rest)
            rw [hls, List.length_cons] at hn
            rw [hrest]
            omega
          rw [sparseLoop_of_next hread hturn, if_pos hroom,
            ih _ hshorter hat' (fits_skip hroom.1) (by rw [hps']; exact hroom.2) rfl, hrest,
            hfirst, hremain, hps', hcs', read_skip hroom.2]
        · next hroom =>
          rw [if_neg hroom]
          exact sparseLoop_of_wild hread hobeys

theorem sparse_eq_read (junk : Sparser σ α) (content : Text) :
    sparse h junk (some content) =
      Reader.read h ⟨.outside, junk.first, junk.remain⟩ [] [] (confPieces content) :=
  sparseLoop_pieces rfl trivial (Nat.zero_le _)

end MonitoringAgent
