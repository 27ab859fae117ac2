import MonitoringAgent.Config.Sparser

/-!
# The grammar of `plugin.conf`

The grammar is a reader of its own that sees one whole line after the other. `sparse`
follows it: its locals say where the reader stands, and the lines that `skip_until` takes
off the file are those the reader discards.
-/
namespace MonitoringAgent

open Buffer Scan

/-- A line by its first character. An empty line counts as a comment does; the argument
is the first word. -/
inductive ConfLine where
  | ignored
  | opens (type : Text)
  | dash (arg : Text)
  | bang
  | close
  | other
  deriving DecidableEq

def confLine : Text → ConfLine
  | [] => .ignored
  | c :: l =>
    if c = ch '#' then .ignored
    else if c = ch '<' then .opens ((word l).getD [])
    else if c = ch '-' then .dash ((word l).getD [])
    else if c = ch '!' then .bang
    else if c = ch '>' then .close
    else .other

/-- Where the reader stands. A block that is read has the loader of its type. -/
inductive Place (σ : Type) where
  | outside
  | body (load : σ)
  | named (load : σ)
  | values (load : σ) (vs : List Text)
  | discarding
  deriving DecidableEq

variable {δ σ α : Type}

/-- Where a line leads; `none` when the line is not allowed there. -/
def Place.next (loader : Text → Option σ) : Place σ → ConfLine → Option (Place σ)
  | .discarding, .close => some .outside
  | .discarding, _ => some .discarding
  | p, .ignored => some p
  | .outside, .opens type =>
    match loader type with
    | some load => some (.body load)
    | none => some .discarding
  | .body load, .dash arg =>
    if str "OFF" <+: arg then some .discarding
    else if str "ON" <+: arg then some (.body load)
    else none
  | .body load, .bang => some (.named load)
  | .body _, .close => some .outside
  | .named load, .dash arg => some (.values load [arg])
  | .values load vs, .dash arg => some (.values load (vs ++ [arg]))
  | .values _ _, .close => some .outside
  | _, _ => none

/-- The block that a line closes: its loader and its values. -/
def Place.block : Place σ → ConfLine → Option (σ × List Text)
  | .body load, .close => some (load, [])
  | .values load vs, .close => some (load, vs)
  | _, _ => none

/-- Where the reader stands after some lines, all allowed. -/
def reach (loader : Text → Option σ) : Place σ → List Text → Option (Place σ)
  | p, [] => some p
  | p, l :: ls => (p.next loader (confLine l)).bind fun q => reach loader q ls

/-- Some line that the reader reaches is not allowed there. -/
def Rejects (loader : Text → Option σ) (p : Place σ) (ls : List Text) : Prop :=
  ∃ pre l post q, ls = pre ++ l :: post ∧ reach loader p pre = some q ∧
    q.next loader (confLine l) = none

/-- The blocks that are closed, in the order of the file. -/
def blocks (loader : Text → Option σ) : Place σ → List Text → List (σ × List Text)
  | _, [] => []
  | p, l :: ls =>
    match p.next loader (confLine l) with
    | none => []
    | some q => (p.block (confLine l)).toList ++ blocks loader q ls

/-- The loader that the library of a type has, if all its symbols are there. -/
def Host.loader (h : Host δ σ α) (type : Text) : Option σ := do
  let dl ← h.dlopen (dlname type)
  let load ← h.dlsym dl (smname type)
  let _ ← h.dlsym dl (cmpname type)
  return load

/-- The plugins of the blocks whose loader succeeds. -/
def Host.loaded (h : Host δ σ α) (bs : List (σ × List Text)) : List α :=
  bs.filterMap fun b => h.load b.1 b.2

/-- The limits on a configuration file. -/
structure Regular (h : Host δ σ α) (content : Text) : Prop where
  nul : 0 ∉ content
  short : ∀ l ∈ lines content, l.length ≤ 126
  arg : ∀ l ∈ lines content, l.head? = some (ch '<') ∨ l.head? = some (ch '-') →
    (word l.tail).isSome
  values : ∀ pre load vs, pre <+: lines content →
    reach h.loader .outside pre = some (.values load vs) → vs.length ≤ 10
  plugins : (h.loaded (blocks h.loader .outside (lines content))).length ≤ maxPlugins

variable {h : Host δ σ α} {loader : Text → Option σ} {p q : Place σ} {l : Text}
  {ls : List Text} {s s' : Sparser σ α} {conf conf' : File}

/-! ## The reader -/

@[simp] theorem not_rejects_nil : ¬ Rejects loader p [] := by
  rintro ⟨pre, l, post, q, hls, -⟩
  simp at hls

theorem rejects_cons : Rejects loader p (l :: ls) ↔
    ∀ q, p.next loader (confLine l) = some q → Rejects loader q ls := by
  constructor
  · rintro ⟨pre, l', post, r, hls, hreach, hnext⟩ q hq
    cases pre with
    | nil =>
      obtain ⟨rfl, rfl⟩ := List.cons.inj hls
      obtain rfl : p = r := by simpa [reach] using hreach
      rw [hq] at hnext
      cases hnext
    | cons l'' pre =>
      obtain ⟨rfl, rfl⟩ := List.cons.inj hls
      exact ⟨pre, l', post, r, rfl, by simpa [reach, hq] using hreach, hnext⟩
  · intro hq
    cases hnext : p.next loader (confLine l) with
    | none => exact ⟨[], l, ls, p, rfl, rfl, hnext⟩
    | some q =>
      obtain ⟨pre, l', post, r, rfl, hreach, hnone⟩ := hq q hnext
      exact ⟨l :: pre, l', post, r, rfl, by simpa [reach, hnext] using hreach, hnone⟩

/-- The reader comes to the end of the lines unless it is stopped. -/
theorem rejects_iff : Rejects loader p ls ↔ reach loader p ls = none := by
  induction ls generalizing p with
  | nil => simp [reach]
  | cons l ls ih =>
    rw [rejects_cons, reach]
    cases hnext : p.next loader (confLine l) with
    | none => simp
    | some q => simpa using ih

instance [DecidableEq σ] : Decidable (Rejects loader p ls) :=
  decidable_of_iff _ rejects_iff.symm

/-- What the reader makes of the lines, given the plugins and calls so far. -/
def reading (h : Host δ σ α) : Place σ → List α → List (σ × List Text) → List Text →
    Sparsed σ α
  | _, ps, cs, [] => .parsed ps cs
  | p, ps, cs, l :: ls =>
    match p.next h.loader (confLine l) with
    | none => .rejected cs
    | some q =>
      reading h q (ps ++ h.loaded (p.block (confLine l)).toList)
        (cs ++ (p.block (confLine l)).toList) ls

theorem reading_of_rejects {ps : List α} {cs : List (σ × List Text)}
    (hrej : Rejects h.loader p ls) :
    reading h p ps cs ls = .rejected (cs ++ blocks h.loader p ls) := by
  induction ls generalizing p ps cs with
  | nil => exact absurd hrej not_rejects_nil
  | cons l ls ih =>
    rw [rejects_cons] at hrej
    rw [reading, blocks]
    cases hnext : p.next h.loader (confLine l) with
    | none => simp
    | some q => simp [ih (hrej q hnext)]

theorem reading_of_not_rejects {ps : List α} {cs : List (σ × List Text)}
    (hrej : ¬ Rejects h.loader p ls) :
    reading h p ps cs ls =
      .parsed (ps ++ h.loaded (blocks h.loader p ls)) (cs ++ blocks h.loader p ls) := by
  induction ls generalizing p ps cs with
  | nil => simp [reading, blocks, Host.loaded]
  | cons l ls ih =>
    rw [rejects_cons] at hrej
    obtain ⟨q, hrej⟩ := not_forall.mp hrej
    obtain ⟨hnext, hrej⟩ := Classical.not_imp.mp hrej
    rw [reading, blocks, hnext]
    dsimp only
    rw [ih hrej]
    simp [Host.loaded]

/-! ## Discarded lines -/

/-- The lines after the next one that starts with `>`. -/
def afterClose : List Text → List Text
  | [] => []
  | l :: ls => if l.head? = some (ch '>') then ls else afterClose ls

/-- The reader and its lines when what it discards has been taken off the file. -/
def Place.skip : Place σ → List Text → Place σ × List Text
  | .discarding, ls => (.outside, afterClose ls)
  | p, ls => (p, ls)

theorem confLine_eq_close : confLine l = .close ↔ l.head? = some (ch '>') := by
  cases l with
  | nil => simp [confLine]
  | cons c l =>
    by_cases hc : c = ch '>'
    · subst hc
      exact iff_of_true rfl rfl
    · simp only [confLine, List.head?_cons, Option.some.injEq, hc, if_false, iff_false]
      split_ifs <;> simp

theorem next_discarding : (Place.discarding : Place σ).next loader (confLine l) =
    some (if l.head? = some (ch '>') then .outside else .discarding) := by
  split
  · next hl =>
    rw [confLine_eq_close.mpr hl]
    rfl
  · next hl =>
    have hclose := mt confLine_eq_close.mp hl
    cases hkind : confLine l with
    | close => exact absurd hkind hclose
    | _ => rfl

theorem length_afterClose (ls : List Text) : (afterClose ls).length ≤ ls.length := by
  induction ls with
  | nil => exact le_rfl
  | cons l ls ih =>
    rw [afterClose, List.length_cons]
    split
    · omega
    · omega

theorem length_skip (p : Place σ) (ls : List Text) : (p.skip ls).2.length ≤ ls.length := by
  cases p with
  | discarding => exact length_afterClose ls
  | _ => exact le_rfl

theorem reading_skip {ps : List α} {cs : List (σ × List Text)} :
    reading h (p.skip ls).1 ps cs (p.skip ls).2 = reading h p ps cs ls := by
  cases p with
  | discarding =>
    rw [Place.skip]
    induction ls with
    | nil => rfl
    | cons l ls ih =>
      rw [reading, next_discarding, afterClose]
      split
      · simp [Place.block, Host.loaded]
      · simpa [Place.block, Host.loaded] using ih
  | _ => rfl

/-! ## The limits along the file -/

/-- The limits seen from a place in the file, with room for `n` more plugins. -/
structure Clear (h : Host δ σ α) (p : Place σ) (n : Nat) (ls : List Text) : Prop where
  nul : ∀ l ∈ ls, 0 ∉ l
  newline : ∀ l ∈ ls, ch '\n' ∉ l
  short : ∀ l ∈ ls, l.length ≤ 126
  arg : ∀ l ∈ ls, l.head? = some (ch '<') ∨ l.head? = some (ch '-') → (word l.tail).isSome
  values : ∀ pre load vs, pre <+: ls → reach h.loader p pre = some (.values load vs) →
    vs.length ≤ 10
  plugins : (h.loaded (blocks h.loader p ls)).length ≤ n

variable {n : Nat}

theorem Clear.next (hc : Clear h p n (l :: ls)) (hq : p.next h.loader (confLine l) = some q) :
    Clear h q (n - (h.loaded (p.block (confLine l)).toList).length) ls where
  nul l' hl' := hc.nul l' (List.mem_cons_of_mem _ hl')
  newline l' hl' := hc.newline l' (List.mem_cons_of_mem _ hl')
  short l' hl' := hc.short l' (List.mem_cons_of_mem _ hl')
  arg l' hl' := hc.arg l' (List.mem_cons_of_mem _ hl')
  values pre load vs hpre hreach := by
    refine hc.values (l :: pre) load vs (List.cons_prefix_cons.mpr ⟨rfl, hpre⟩) ?_
    rwa [reach, hq]
  plugins := by
    have hroom := hc.plugins
    rw [blocks, hq] at hroom
    simp only [Host.loaded, List.filterMap_append, List.length_append] at hroom ⊢
    omega

theorem next_of_block {x : ConfLine} {b : σ × List Text} (hb : p.block x = some b) :
    p.next loader x = some .outside := by
  cases p <;> cases x <;> first | rfl | simp [Place.block] at hb

theorem Clear.block (hc : Clear h p n (l :: ls)) :
    (h.loaded (p.block (confLine l)).toList).length ≤ n := by
  cases hb : p.block (confLine l) with
  | none => exact Nat.zero_le n
  | some b =>
    have hroom := hc.plugins
    rw [blocks, next_of_block hb, hb] at hroom
    simp only [Host.loaded, List.filterMap_append, List.length_append] at hroom ⊢
    omega

theorem Clear.skip (hc : Clear h p n ls) : Clear h (p.skip ls).1 n (p.skip ls).2 := by
  cases p with
  | discarding =>
    rw [Place.skip]
    induction ls with
    | nil =>
      rw [afterClose]
      refine ⟨hc.nul, hc.newline, hc.short, hc.arg, ?_, by simp [blocks, Host.loaded]⟩
      intro pre load vs hpre hreach
      simp [List.prefix_nil.mp hpre, reach] at hreach
    | cons l ls ih =>
      have hnext := hc.next next_discarding
      rw [afterClose]
      split
      · next hl => simpa [hl, Place.block, Host.loaded] using hnext
      · next hl =>
        rw [if_neg hl] at hnext
        exact ih (by simpa [Place.block, Host.loaded] using hnext)
  | _ => exact hc

theorem Regular.clear {content : Text} (hr : Regular h content) :
    Clear h .outside maxPlugins (lines content) where
  nul _ hl hmem := hr.nul (mem_of_mem_lines hl hmem)
  newline _ hl := not_mem_of_mem_lines hl
  short := hr.short
  arg := hr.arg
  values := hr.values
  plugins := hr.plugins

/-! ## One line -/

/-- What the locals say about the reader between two turns of the loop. -/
def Sparser.At (s : Sparser σ α) : Place σ → Prop
  | .outside => s.status = .none
  | .body load => s.status = .plug ∧ s.load = some load ∧ s.argc = 0
  | .named load => s.status = .name ∧ s.load = some load ∧ s.argc = 0
  | .values load vs =>
    s.status = .val ∧ s.load = some load ∧ (List.range s.argc).map s.argv = vs
  | .discarding => False

/-- A turn of the loop does what the reader does with the line, where `ls` are the lines
that follow. -/
def Follows (h : Host δ σ α) (s : Sparser σ α) (p : Place σ) (x : ConfLine) (ls : List Text)
    (turn : SparseTurn σ α) : Prop :=
  match p.next h.loader x with
  | none => turn = .reject
  | some q => ∃ s' conf', turn = .next s' conf' ∧ s'.At (q.skip ls).1 ∧
      lines conf'.rest = (q.skip ls).2 ∧
      s'.plugins = s.plugins ++ h.loaded (p.block x).toList ∧
      s'.calls = s.calls ++ (p.block x).toList

theorem skipUntil_eq (hshort : ∀ l ∈ lines conf.rest, l.length ≤ 126) :
    ∃ k conf', skipUntil conf (ch '>') = (k, conf') ∧ k ≠ 1 ∧
      lines conf'.rest = afterClose (lines conf.rest) := by
  induction hls : lines conf.rest generalizing conf with
  | nil =>
    refine ⟨2, ⟨[], true⟩, ?_, by decide, rfl⟩
    rw [skipUntil_of_none (fgets_of_nil hls (by decide)), if_pos rfl]
  | cons l ls ih =>
    rw [hls] at hshort
    have hlen := hshort l List.mem_cons_self
    obtain ⟨tail, conf', hread, hrest, hends⟩ :=
      fgets_of_lines (n := bfsz) hls (Nat.lt_succ_of_le (Nat.succ_le_succ hlen))
    have hhead : (l ++ tail).head? = some (ch '>') ↔ l.head? = some (ch '>') := by
      cases l with
      | nil =>
        rcases hends with rfl | ⟨-, hl⟩
        · exact iff_of_false (by decide) (by simp)
        · exact absurd rfl hl
      | cons c l => exact Iff.rfl
    rw [skipUntil_of_some hread, afterClose]
    by_cases hl : l.head? = some (ch '>')
    · rw [if_neg (not_not.mpr (hhead.mpr hl)), if_pos hl]
      refine ⟨_, conf', rfl, ?_, hrest⟩
      split <;> decide
    · rw [if_pos (mt hhead.mp hl), if_neg hl]
      have hrest' : ∀ l' ∈ lines conf'.rest, l'.length ≤ 126 := by
        rw [hrest]
        exact fun l' hl' => hshort l' (List.mem_cons_of_mem _ hl')
      exact ih hrest' hrest

/-- A discarded block is taken off the file whole. -/
theorem discard_eq (hshort : ∀ l ∈ lines conf.rest, l.length ≤ 126) :
    ∃ conf', s.discard conf = .next { s with status := .none } conf' ∧
      lines conf'.rest = afterClose (lines conf.rest) := by
  obtain ⟨k, conf', hskip, hk, hrest⟩ := skipUntil_eq hshort
  refine ⟨conf', ?_, hrest⟩
  rw [Sparser.discard, hskip]
  split
  · next heq => exact absurd (Prod.mk.inj heq).1 hk
  · next heq => rw [(Prod.mk.inj heq).2]

theorem resolve_of_loader {load : σ} (hl : h.loader s.type = some load) :
    h.resolve s = (true, some load) := by
  unfold Host.loader at hl
  unfold Host.resolve
  cases hdl : h.dlopen (dlname s.type) with
  | none => simp [hdl] at hl
  | some dl =>
    cases hsm : h.dlsym dl (smname s.type) with
    | none => simp [hdl, hsm] at hl
    | some f =>
      cases hcmp : h.dlsym dl (cmpname s.type) with
      | none => simp [hdl, hsm, hcmp] at hl
      | some g =>
        obtain rfl : f = load := by simpa [hdl, hsm, hcmp] using hl
        simp [hsm, hcmp]

theorem resolve_of_no_loader (hl : h.loader s.type = none) :
    ∃ load, h.resolve s = (false, load) := by
  unfold Host.loader at hl
  unfold Host.resolve
  cases hdl : h.dlopen (dlname s.type) with
  | none => exact ⟨_, rfl⟩
  | some dl =>
    cases hsm : h.dlsym dl (smname s.type) with
    | none => exact ⟨none, by simp [hsm]⟩
    | some f =>
      cases hcmp : h.dlsym dl (cmpname s.type) with
      | none => exact ⟨some f, by simp [hsm, hcmp]⟩
      | some g => simp [hdl, hsm, hcmp] at hl

theorem follows_opening (hat : s.At p) (hshort : ∀ l ∈ lines conf.rest, l.length ≤ 126)
    (hremain : s.remain.length ≤ 126) :
    Follows h s p (.opens s.remain) (lines conf.rest) (s.opening h conf) := by
  cases p with
  | outside =>
    have hstatus : s.status = .none := hat
    have hremain : s.remain.take (bfsz - 1) = s.remain :=
      List.take_of_length_le (Nat.le_succ_of_le hremain)
    simp only [Follows, Place.next, Sparser.opening, hstatus, hremain]
    cases hload : h.loader s.remain with
    | none =>
      obtain ⟨load, hres⟩ := resolve_of_no_loader (h := h)
        (s := { s with argc := 0, status := .plug, type := s.remain }) hload
      obtain ⟨conf', hdiscard, hrest⟩ := discard_eq
        (s := { s with argc := 0, status := .plug, type := s.remain, load := load }) hshort
      simp only [hres, ne_eq, not_true_eq_false, if_false]
      exact ⟨_, conf', hdiscard, rfl, hrest, by simp [Place.block, Host.loaded],
        by simp [Place.block]⟩
    | some load =>
      have hres := resolve_of_loader (h := h)
        (s := { s with argc := 0, status := .plug, type := s.remain }) hload
      simp only [hres, ne_eq, not_true_eq_false, if_false]
      exact ⟨_, conf, rfl, ⟨rfl, rfl, rfl⟩, rfl, by simp [Place.block, Host.loaded],
        by simp [Place.block]⟩
  | body load => simp [Follows, Place.next, Sparser.opening, hat.1]
  | named load => simp [Follows, Place.next, Sparser.opening, hat.1]
  | values load vs => simp [Follows, Place.next, Sparser.opening, hat.1]
  | discarding => exact hat.elim

/-- A value goes to the end of those the block has. -/
theorem push_eq (conf : File) (hargc : s.argc < 10) (hremain : s.remain.length ≤ 126) :
    ∃ s', s.push conf = .next s' conf ∧ s'.status = .val ∧ s'.load = s.load ∧
      (List.range s'.argc).map s'.argv = (List.range s.argc).map s.argv ++ [s.remain] ∧
      s'.plugins = s.plugins ∧ s'.calls = s.calls := by
  have hremain : s.remain.take (bfsz - 1) = s.remain :=
    List.take_of_length_le (Nat.le_succ_of_le hremain)
  rw [Sparser.push, if_pos hargc, hremain]
  refine ⟨_, rfl, rfl, rfl, ?_, rfl, rfl⟩
  dsimp only
  rw [List.range_succ, List.map_append, List.map_singleton, Function.update_self]
  congr 1
  refine List.map_congr_left fun i hi => ?_
  exact Function.update_of_ne (List.mem_range.mp hi).ne _ _

theorem follows_dash (hat : s.At p) (hshort : ∀ l ∈ lines conf.rest, l.length ≤ 126)
    (hremain : s.remain.length ≤ 126)
    (hroom : ∀ load vs, p.next h.loader (.dash s.remain) = some (.values load vs) →
      vs.length ≤ 10) :
    Follows h s p (.dash s.remain) (lines conf.rest) (s.dash conf) := by
  cases p with
  | outside =>
    have hstatus : s.status = .none := hat
    simp [Follows, Place.next, Sparser.dash, hstatus]
  | body load =>
    simp only [Follows, Place.next, Sparser.dash, hat.1]
    by_cases hoff : str "OFF" <+: s.remain
    · obtain ⟨conf', hdiscard, hrest⟩ := discard_eq (s := s) hshort
      simp only [if_pos hoff]
      exact ⟨_, conf', hdiscard, rfl, hrest, by simp [Place.block, Host.loaded],
        by simp [Place.block]⟩
    · by_cases hon : str "ON" <+: s.remain
      · simp only [if_neg hoff, hon, not_true_eq_false, if_false, if_true]
        exact ⟨s, conf, rfl, hat, rfl, by simp [Place.block, Host.loaded], by simp [Place.block]⟩
      · simp [hoff, hon]
  | named load =>
    obtain ⟨hstatus, hload, hargc⟩ := hat
    obtain ⟨s', hpush, hval, hload', hargs, hps, hcs⟩ :=
      push_eq (s := s) conf (by omega) hremain
    simp only [Follows, Place.next, Sparser.dash, hstatus]
    refine ⟨s', conf, hpush, ⟨hval, hload'.trans hload, ?_⟩, rfl, ?_, ?_⟩
    · rw [hargs, hargc]
      rfl
    · simpa [Place.block, Host.loaded] using hps
    · simpa [Place.block] using hcs
  | values load vs =>
    obtain ⟨hstatus, hload, hargs⟩ := hat
    have hargc : s.argc < 10 := by
      have hlen := hroom load _ rfl
      have : s.argc = vs.length := by simp [← hargs]
      simp only [List.length_append, List.length_singleton] at hlen
      omega
    obtain ⟨s', hpush, hval, hload', hargs', hps, hcs⟩ :=
      push_eq (s := s) conf hargc hremain
    simp only [Follows, Place.next, Sparser.dash, hstatus]
    refine ⟨s', conf, hpush, ⟨hval, hload'.trans hload, ?_⟩, rfl, ?_, ?_⟩
    · rw [hargs', hargs]
    · simpa [Place.block, Host.loaded] using hps
    · simpa [Place.block] using hcs
  | discarding => exact hat.elim

theorem follows_bang (hat : s.At p) :
    Follows h s p .bang (lines conf.rest) (s.bang conf) := by
  cases p with
  | outside =>
    have hstatus : s.status = .none := hat
    simp [Follows, Place.next, Sparser.bang, hstatus]
  | body load =>
    obtain ⟨hstatus, hload, hargc⟩ := hat
    simp only [Follows, Place.next, Sparser.bang, hstatus, ne_eq, not_true_eq_false, if_false]
    exact ⟨_, conf, rfl, ⟨rfl, hload, hargc⟩, rfl, by simp [Place.block, Host.loaded],
      by simp [Place.block]⟩
  | named load => simp [Follows, Place.next, Sparser.bang, hat.1]
  | values load vs => simp [Follows, Place.next, Sparser.bang, hat.1]
  | discarding => exact hat.elim

/-- The end of a block calls the loader once, with the values of the block. -/
theorem closing_eq (conf : File) {load : σ} (vs : List Text)
    (hstatus : s.status = .val ∨ s.status = .plug) (hload : s.load = some load)
    (hargs : (List.range s.argc).map s.argv = vs)
    (hroom : (h.loaded [(load, vs)]).length + s.plugins.length ≤ maxPlugins) :
    ∃ s', s.closing h conf = .next s' conf ∧ s'.status = .none ∧
      s'.plugins = s.plugins ++ h.loaded [(load, vs)] ∧ s'.calls = s.calls ++ [(load, vs)] := by
  have hopen : ¬ (s.status ≠ .val ∧ s.status ≠ .plug) := by tauto
  rw [Sparser.closing, if_neg hopen]
  simp only [hload, hargs]
  cases hres : h.load load vs with
  | none => exact ⟨_, rfl, rfl, by simp [Host.loaded, hres], rfl⟩
  | some p =>
    have hlt : s.plugins.length < maxPlugins := by
      simp only [Host.loaded, List.filterMap_cons, hres, List.filterMap_nil,
        List.length_singleton] at hroom
      omega
    simp only [if_pos hlt]
    exact ⟨_, rfl, rfl, by simp [Host.loaded, hres], rfl⟩

theorem follows_closing (hat : s.At p)
    (hroom : (h.loaded (p.block .close).toList).length + s.plugins.length ≤ maxPlugins) :
    Follows h s p .close (lines conf.rest) (s.closing h conf) := by
  cases p with
  | outside =>
    have hstatus : s.status = .none := hat
    simp [Follows, Place.next, Sparser.closing, hstatus]
  | body load =>
    obtain ⟨hstatus, hload, hargc⟩ := hat
    obtain ⟨s', hclose, hnone, hps, hcs⟩ := closing_eq (s := s) conf []
      (Or.inr hstatus) hload (by simp [hargc]) hroom
    exact ⟨s', conf, hclose, hnone, rfl, hps, hcs⟩
  | named load => simp [Follows, Place.next, Sparser.closing, hat.1]
  | values load vs =>
    obtain ⟨hstatus, hload, hargs⟩ := hat
    obtain ⟨s', hclose, hnone, hps, hcs⟩ := closing_eq (s := s) conf vs
      (Or.inl hstatus) hload hargs hroom
    exact ⟨s', conf, hclose, hnone, rfl, hps, hcs⟩
  | discarding => exact hat.elim

theorem Ends.isSpace {tail : Text} (hends : Ends l tail) : ∀ c ∈ tail, isSpace c := by
  rcases hends with rfl | ⟨rfl, -⟩
  · intro c hc
    rw [List.mem_singleton.mp hc]
    decide
  · simp

theorem Ends.nul {tail : Text} (hends : Ends l tail) : 0 ∉ tail := by
  rcases hends with rfl | ⟨rfl, -⟩
  · decide
  · simp

/-- The last field keeps its text when the line has no word. -/
theorem scan_eq {c : Byte} {tail : Text} (hnul : 0 ∉ c :: l) (hends : Ends (c :: l) tail) :
    s.scan (c :: l ++ tail) = { s with first := c, remain := (word l).getD s.remain } := by
  have hcstr : cstr (c :: l ++ tail) = c :: (l ++ tail) :=
    cstr_of_nul (List.not_mem_append hnul (Ends.nul hends))
  rw [Sparser.scan, hcstr]
  simp [word_append (Ends.isSpace hends)]

theorem follows_ignored (hat : s.At p) (x : Byte) (y : Text) :
    Follows h s p .ignored (lines conf.rest)
      (.next { s with first := x, remain := y } conf) := by
  cases p with
  | discarding => exact hat.elim
  | _ => exact ⟨_, conf, rfl, hat, rfl, by simp [Place.block, Host.loaded], by simp [Place.block]⟩

/-- The argument of the lines that must carry one. -/
theorem Clear.word {c : Byte} {n : Nat} {ls : List Text} (hc : Clear h p n ((c :: l) :: ls))
    (hhead : c = ch '<' ∨ c = ch '-') : ∃ w, Scan.word l = some w ∧ w.length ≤ 126 := by
  obtain ⟨w, hw⟩ := Option.isSome_iff_exists.mp
    (hc.arg _ List.mem_cons_self (by simpa using hhead))
  have hline := hc.short _ List.mem_cons_self
  have hlen : w.length ≤ l.length := length_word hw
  rw [List.length_cons] at hline
  exact ⟨w, hw, by omega⟩

theorem follows_line {tail : Text} (hat : s.At p) (hends : Ends l tail)
    (hps : s.plugins.length ≤ maxPlugins)
    (hc : Clear h p (maxPlugins - s.plugins.length) (l :: lines conf.rest)) :
    Follows h s p (confLine l) (lines conf.rest) (s.line h conf (l ++ tail)) := by
  have hshort : ∀ l' ∈ lines conf.rest, l'.length ≤ 126 :=
    fun l' hl' => hc.short l' (List.mem_cons_of_mem _ hl')
  cases l with
  | nil =>
    rcases hends with rfl | ⟨-, hl⟩
    · exact follows_ignored hat _ _
    · exact absurd rfl hl
  | cons c l =>
    have hscan := scan_eq (s := s) (hc.nul _ List.mem_cons_self) hends
    unfold Sparser.line
    rw [hscan]
    have hnl : c ≠ ch '\n' := by
      rintro rfl
      exact hc.newline _ List.mem_cons_self List.mem_cons_self
    by_cases hhash : c = ch '#'
    · subst hhash
      exact follows_ignored hat _ _
    by_cases hlt : c = ch '<'
    · subst hlt
      obtain ⟨w, hw, hwlen⟩ := hc.word (Or.inl rfl)
      have hline : confLine (ch '<' :: l) = .opens w := by
        simp [confLine, hw, hhash]
      rw [hw, hline]
      exact follows_opening (s := { s with first := ch '<', remain := w }) hat hshort hwlen
    by_cases hdash : c = ch '-'
    · subst hdash
      obtain ⟨w, hw, hwlen⟩ := hc.word (Or.inr rfl)
      have hline : confLine (ch '-' :: l) = .dash w := by
        simp [confLine, hw, hhash, hlt]
      rw [hw, hline]
      refine follows_dash (s := { s with first := ch '-', remain := w }) hat hshort hwlen ?_
      intro load vs hnext
      refine hc.values [ch '-' :: l] load vs (by simp) ?_
      simpa [reach, hline] using hnext
    by_cases hbang : c = ch '!'
    · subst hbang
      exact follows_bang (s := { s with first := ch '!', remain := (word l).getD s.remain }) hat
    by_cases hgt : c = ch '>'
    · subst hgt
      have hroom := hc.block
      exact follows_closing
        (s := { s with first := ch '>', remain := (word l).getD s.remain }) hat
        (Nat.add_le_of_le_sub hps hroom)
    have hother : confLine (c :: l) = .other := by
      simp [confLine, hhash, hlt, hdash, hbang, hgt]
    have hreject : p.next h.loader .other = none := by
      cases p with
      | discarding => exact hat.elim
      | _ => rfl
    rw [hother, Follows, hreject]
    simp [hnl, hhash, hlt, hdash, hbang, hgt]

/-! ## The whole file -/

/-- `sparse` reads a file as the reader does. -/
theorem sparseLoop_eq (hat : s.At p) (hps : s.plugins.length ≤ maxPlugins)
    (hc : Clear h p (maxPlugins - s.plugins.length) (lines conf.rest)) :
    sparseLoop h s conf = reading h p s.plugins s.calls (lines conf.rest) := by
  -- the skips take several lines off the file at once
  induction hn : (lines conf.rest).length using Nat.strong_induction_on
    generalizing s p conf with
  | _ n ih =>
    cases hls : lines conf.rest with
    | nil => exact sparseLoop_of_none (fgets_of_nil hls (by decide))
    | cons l ls =>
      rw [hls] at hc hn
      have hlen := hc.short l List.mem_cons_self
      obtain ⟨tail, conf', hread, hrest, hends⟩ :=
        fgets_of_lines (n := bfsz) hls (Nat.lt_succ_of_le (Nat.succ_le_succ hlen))
      subst hrest
      have hfollows := follows_line hat hends hps hc
      unfold Follows at hfollows
      rw [reading]
      cases hnext : p.next h.loader (confLine l) with
      | none =>
        rw [hnext] at hfollows
        exact sparseLoop_of_reject hread hfollows
      | some q =>
        rw [hnext] at hfollows
        obtain ⟨s', conf'', hturn, hat', hrest, hps', hcs'⟩ := hfollows
        have hblock := hc.block
        have hlen' : s'.plugins.length ≤ maxPlugins := by
          rw [hps', List.length_append]
          omega
        have hc' : Clear h (q.skip (lines conf'.rest)).1 (maxPlugins - s'.plugins.length)
            (lines conf''.rest) := by
          rw [hrest, hps', List.length_append, ← Nat.sub_sub]
          exact (hc.next hnext).skip
        have hshorter : (lines conf''.rest).length < n := by
          have := length_skip q (lines conf'.rest)
          rw [hrest]
          simp only [List.length_cons] at hn
          omega
        rw [sparseLoop_of_next hread hturn, ih _ hshorter hat' hlen' hc' rfl, hrest,
          reading_skip, hps', hcs']

/-- The parser accepts its grammar: it returns -1 exactly when a line it reaches is not
allowed there, and otherwise has called the loader of each closed block once, with the
values of the block, and returns the plugins of those that succeeded. Comments and empty
lines are ignored. -/
theorem sparse_accepts_grammar {content : Text} (junk : Sparser σ α) (hr : Regular h content) :
    ((sparse h junk (some content)).code = some (-1) ↔
      Rejects h.loader .outside (lines content)) ∧
    (¬ Rejects h.loader .outside (lines content) →
      sparse h junk (some content) =
        .parsed (h.loaded (blocks h.loader .outside (lines content)))
          (blocks h.loader .outside (lines content))) := by
  have hloop : sparse h junk (some content) =
      reading h .outside [] [] (lines content) :=
    sparseLoop_eq rfl (Nat.zero_le _) hr.clear
  have hparsed : ¬ Rejects h.loader .outside (lines content) →
      sparse h junk (some content) =
        .parsed (h.loaded (blocks h.loader .outside (lines content)))
          (blocks h.loader .outside (lines content)) := by
    intro hrej
    rw [hloop, reading_of_not_rejects hrej]
    simp
  refine ⟨⟨fun hcode => ?_, fun hrej => ?_⟩, hparsed⟩
  · by_contra hrej
    rw [hparsed hrej] at hcode
    have := Option.some.inj hcode
    omega
  · rw [hloop, reading_of_rejects hrej]
    rfl

/-- A host without the library `x`, where the loader of `os` fails. -/
def sampleHost : Host Unit Text (Text × List Text) where
  dlopen name := if name = dlname (str "x") then none else some ()
  dlsym _ name := some name
  load f vs := if f = smname (str "os") then none else some (f, vs)

def sampleConf : Text := str "# targets\n\n<os\n- ON\n>\n<x\n?\n>\n<m\n- ON\n!v\n- a\n- b\n>\n"

theorem sparse_accepts_grammar_sample :
    sparse sampleHost ⟨.none, 0, [], [], 0, fun _ => [], none, [], []⟩ (some sampleConf) =
      .parsed [(str "load_m_module", [str "a", str "b"])]
        [(str "load_os_module", []), (str "load_m_module", [str "a", str "b"])] := by
  have hr : Regular sampleHost sampleConf := by
    refine ⟨by decide, by decide, by decide, ?_, by decide⟩
    have htakes : ∀ k ≤ (lines sampleConf).length,
        (match reach sampleHost.loader .outside ((lines sampleConf).take k) with
        | some (.values _ vs) => decide (vs.length ≤ 10)
        | _ => true) = true := by decide
    intro pre load vs hpre hreach
    have hle := htakes pre.length hpre.length_le
    rw [← List.prefix_iff_eq_take.mp hpre, hreach] at hle
    exact of_decide_eq_true hle
  exact (sparse_accepts_grammar _ hr).2 (by decide)

/-- A line of blanks is not empty. -/
example : Rejects sampleHost.loader .outside (lines (str "# targets\n\n  \n")) := by
  decide

end MonitoringAgent
