import MonitoringAgent.Lib.Directive
import MonitoringAgent.Lib.Json

/-!
# Reading JSON

A reader of trees, for any space between the tokens and for strings without escapes, and
rules for what it makes of a text.
-/
namespace Json

open Buffer Decimal Scan

/-- The byte may stand between two tokens. -/
def Blank (c : Byte) : Prop := c = 32 ∨ c = 9 ∨ c = 10 ∨ c = 13

instance : DecidablePred Blank := fun _ => inferInstanceAs (Decidable (_ ∨ _ ∨ _ ∨ _))

/-- The byte may be part of a number. -/
def Numeric (c : Byte) : Prop :=
  IsDigit c ∨ c = ch '-' ∨ c = ch '+' ∨ c = ch '.' ∨ c = ch 'e' ∨ c = ch 'E'

instance : DecidablePred Numeric := fun _ => inferInstanceAs (Decidable (_ ∨ _ ∨ _ ∨ _ ∨ _ ∨ _))

/-- The first byte behind space. -/
def token (t : Text) : Option (Byte × Text) :=
  match t.dropWhile (decide <| Blank ·) with
  | [] => none
  | c :: t => some (c, t)

/-- What comes before the closing quote. -/
def readString (t : Text) : Option (Text × Text) :=
  let w := t.takeWhile (decide <| Plain ·)
  match t.drop w.length with
  | [] => none
  | c :: t => if c = ch '"' then some (w, t) else none

def readNumber (t : Text) : Option (Text × Text) := scanset t.length (decide <| Numeric ·) t

section items

variable {α : Type} (close : Byte) (item : Text → Option (α × Text))

/-- Items with commas between them, up to the closing byte; at most `n` of them. -/
def readItems : Nat → Text → Option (List α × Text)
  | 0, _ => none
  | n + 1, t => do
    let first ← item t
    let next ← token first.2
    if next.1 = close then some ([first.1], next.2)
    else if next.1 = ch ',' then
      (readItems n next.2).map fun others => (first.1 :: others.1, others.2)
    else none

/-- The same behind the opening byte. -/
def readList (n : Nat) (t : Text) : Option (List α × Text) := do
  let next ← token t
  if next.1 = close then some ([], next.2) else readItems close item n t

end items

/-- A name, a colon and a value. -/
def readMember (value : Text → Option (Tree × Text)) (t : Text) :
    Option ((Text × Tree) × Text) := do
  let opening ← token t
  if opening.1 = ch '"' then do
    let name ← readString opening.2
    let colon ← token name.2
    if colon.1 = ch ':' then (value colon.2).map fun r => ((name.1, r.1), r.2) else none
  else none

/-- The tree at the front of a text, for nesting and lists of at most `n`. -/
def readTree : Nat → Text → Option (Tree × Text)
  | 0, _ => none
  | n + 1, t => do
    let first ← token t
    if first.1 = ch '"' then (readString first.2).map fun r => (.str r.1, r.2)
    else if first.1 = ch '[' then
      (readList (ch ']') (readTree n) n first.2).map fun r => (.arr r.1, r.2)
    else if first.1 = ch '{' then
      (readList (ch '}') (readMember (readTree n)) n first.2).map fun r => (.obj r.1, r.2)
    else (readNumber (first.1 :: first.2)).map fun r => (.num r.1, r.2)

/-- The tree that a text stands for. -/
def read (t : Text) : Option Tree := do
  let r ← readTree t.length t
  if r.2.all (decide <| Blank ·) then some r.1 else none

namespace Tree

/-- The first member of the name. -/
def field (k : Text) : Tree → Option Tree
  | obj ms => (ms.find? fun m => m.1 = k).map Prod.snd
  | num _ => none
  | str _ => none
  | arr _ => none

def members : Tree → Option (List (Text × Tree))
  | obj ms => some ms
  | num _ => none
  | str _ => none
  | arr _ => none

def elements : Tree → Option (List Tree)
  | arr xs => some xs
  | num _ => none
  | str _ => none
  | obj _ => none

def string : Tree → Option Text
  | str t => some t
  | num _ => none
  | arr _ => none
  | obj _ => none

/-- A number that is nothing but digits, in 64 bits. -/
def unsigned : Tree → Option UInt64
  | num t => if ∀ c ∈ t, IsDigit c then (Scan.unsigned t).map Prod.fst else none
  | str _ => none
  | arr _ => none
  | obj _ => none

end Tree

/-- The text is read as the tree, whatever comes behind it, so that no number goes on. -/
def Reads (v : Text) (x : Tree) : Prop :=
  ∀ n rest, v.length ≤ n → Stops (decide <| Numeric ·) rest →
    readTree n (v ++ rest) = some (x, rest)

variable {c : Byte} {t u v w rest : Text} {x : Tree} {n : Nat}

/-! ## Tokens -/

theorem token_cons (hc : ¬ Blank c) : token (c :: t) = some (c, t) := by
  rw [token, List.dropWhile_cons_of_neg (by simpa using hc)]

theorem token_space (h : Space u) : token (u ++ t) = token t := by
  have hblank : ∀ c ∈ u, decide (Blank c) = true := fun c hc => decide_eq_true (h c hc)
  rw [token, token, List.dropWhile_append_of_pos hblank]

theorem readString_append (h : Clean t) : readString (t ++ ch '"' :: rest) = some (t, rest) := by
  have hplain : ∀ c ∈ t, decide (Plain c) = true := fun c hc => decide_eq_true (h c hc)
  have hquote : Stops (decide <| Plain ·) (ch '"' :: rest) := stops_cons (by decide)
  rw [readString, takeWhile_append_stops hplain hquote]
  simp

theorem Number.numeric (h : Number t) : t ≠ [] ∧ ∀ c ∈ t, Numeric c := by
  obtain ⟨sign, int, frac, exp, rfl, hsign, ⟨hint, -⟩, hfrac, hexp⟩ := h
  have hdigits {ds : Text} (hds : Digits ds) : ∀ c ∈ ds, Numeric c := fun c hc => .inl (hds.2 c hc)
  refine ⟨?_, ?_⟩
  · simp [hint.1]
  simp only [List.forall_mem_append]
  refine ⟨⟨⟨?_, hdigits hint⟩, ?_⟩, ?_⟩
  · rcases hsign with rfl | rfl
    · exact List.forall_mem_nil _
    · decide
  · rcases hfrac with rfl | ⟨ds, hds, rfl⟩
    · exact List.forall_mem_nil _
    · rw [List.forall_mem_append]
      exact ⟨by decide, hdigits hds⟩
  · rcases hexp with rfl | ⟨e, sign', ds, hds, rfl, he, hsign'⟩
    · exact List.forall_mem_nil _
    · simp only [List.forall_mem_append]
      refine ⟨⟨?_, ?_⟩, hdigits hds⟩
      · rcases he with rfl | rfl <;> decide
      · rcases hsign' with rfl | rfl | rfl <;> decide

theorem Numeric.first (h : Numeric c) : ¬ Blank c ∧ c ≠ ch '"' ∧ c ≠ ch '[' ∧ c ≠ ch '{' := by
  refine ⟨?_, ?_, ?_, ?_⟩
  · rintro (rfl | rfl | rfl | rfl) <;> exact absurd h (by decide)
  all_goals
    rintro rfl
    exact absurd h (by decide)

theorem readNumber_append (h : Number t) (hrest : Stops (decide <| Numeric ·) rest) :
    readNumber (t ++ rest) = some (t, rest) := by
  obtain ⟨hne, hnumeric⟩ := h.numeric
  refine scanset_append hne (fun c hc => decide_eq_true (hnumeric c hc)) ?_ hrest
  rw [List.length_append]
  exact Nat.le_add_right _ _

/-! ## Lists -/

section lists

variable {ι α : Type} {close : Byte} {item : Text → Option (α × Text)} {xs : List ι}
  {text : ι → Text} {val : ι → α}

/-- Items that are read one by one are read as a list. -/
theorem readItems_commas (hclose : ¬ Blank close) (hcomma : close ≠ ch ',')
    (hstop : ¬ Numeric close) (hne : xs ≠ []) (hlen : xs.length ≤ n)
    (h : ∀ x ∈ xs, ∀ rest, Stops (decide <| Numeric ·) rest →
      item (text x ++ rest) = some (val x, rest)) :
    readItems close item n (commas (xs.map text) ++ close :: rest) = some (xs.map val, rest) := by
  induction xs generalizing n with
  | nil => exact absurd rfl hne
  | cons x xs ih =>
    obtain ⟨n, rfl⟩ : ∃ k, n = k + 1 := ⟨n - 1, by simp only [List.length_cons] at hlen; omega⟩
    obtain ⟨hx, hxs⟩ := List.forall_mem_cons.mp h
    cases xs with
    | nil =>
      have hend : Stops (decide <| Numeric ·) (close :: rest) := stops_cons (by simpa using hstop)
      have hfirst := hx (close :: rest) hend
      simp only [readItems, List.map_cons, List.map_nil, commas, List.flatMap_nil, List.append_nil,
        hfirst, Option.bind_eq_bind, Option.bind_some, token_cons hclose, if_true]
    | cons y ys =>
      have hlist := ih (List.cons_ne_nil y ys) (by simpa using hlen) hxs
      have hsplit : commas ((x :: y :: ys).map text) ++ close :: rest =
          text x ++ (ch ',' :: (commas ((y :: ys).map text) ++ close :: rest)) := by
        simp [commas, show str "," = [ch ','] from rfl]
      have hend : Stops (decide <| Numeric ·)
          (ch ',' :: (commas ((y :: ys).map text) ++ close :: rest)) := stops_cons (by decide)
      rw [hsplit, readItems, hx _ hend, Option.bind_eq_bind, Option.bind_some,
        token_cons (by decide), Option.bind_eq_bind, Option.bind_some, if_neg hcomma.symm,
        if_pos rfl, hlist]
      rfl

/-- None of the items looks like the closing byte. -/
theorem readList_commas (hclose : ¬ Blank close) (hcomma : close ≠ ch ',')
    (hstop : ¬ Numeric close) (hlen : xs.length ≤ n)
    (h : ∀ x ∈ xs, ∀ rest, Stops (decide <| Numeric ·) rest →
      item (text x ++ rest) = some (val x, rest))
    (hfirst : ∀ x ∈ xs, ∀ rest, Stops (decide <| Numeric ·) rest →
      ∃ c u, token (text x ++ rest) = some (c, u) ∧ c ≠ close) :
    readList close item n (commas (xs.map text) ++ close :: rest) = some (xs.map val, rest) := by
  cases xs with
  | nil => simp [readList, commas, token_cons hclose]
  | cons x xs =>
    have hlist : readItems close item n (commas ((x :: xs).map text) ++ close :: rest) =
        some ((x :: xs).map val, rest) :=
      readItems_commas hclose hcomma hstop (List.cons_ne_nil x xs) hlen h
    obtain ⟨c, u, htoken, hc⟩ : ∃ c u,
        token (commas ((x :: xs).map text) ++ close :: rest) = some (c, u) ∧ c ≠ close := by
      rw [List.map_cons, commas, List.append_assoc]
      refine hfirst x List.mem_cons_self _ ?_
      cases xs with
      | nil => exact stops_cons (by simpa using hstop)
      | cons y ys => exact stops_cons (by decide)
    rw [readList, htoken, Option.bind_eq_bind, Option.bind_some, if_neg hc, hlist]

end lists

theorem readMember_append {value : Text → Option (Tree × Text)} (hu : Clean u)
    (hv : value (v ++ rest) = some (x, rest)) :
    readMember value (quote u ++ str ":" ++ v ++ rest) = some ((u, x), rest) := by
  have hsplit : quote u ++ str ":" ++ v ++ rest =
      ch '"' :: (u ++ ch '"' :: (ch ':' :: (v ++ rest))) := by
    simp [quote, show str ":" = [ch ':'] from rfl]
  rw [hsplit, readMember, token_cons (by decide)]
  simp only [Option.bind_eq_bind, Option.bind_some, if_true, readString_append hu,
    token_cons (show ¬ Blank (ch ':') by decide), hv, Option.map_some]

theorem length_le_commas (ts : List Text) : ts.length ≤ (commas ts).length + 1 := by
  cases ts with
  | nil => exact Nat.zero_le _
  | cons t ts =>
    have hrest : ts.length ≤ (ts.flatMap (str "," ++ ·)).length := by
      induction ts with
      | nil => exact le_rfl
      | cons u us ih =>
        simp only [List.flatMap_cons, List.length_append, List.length_cons]
        have hcomma : (str ",").length = 1 := rfl
        omega
    rw [commas, List.length_cons, List.length_append]
    omega

theorem length_le_of_mem_commas {ts : List Text} (h : t ∈ ts) : t.length ≤ (commas ts).length := by
  cases ts with
  | nil => cases h
  | cons u us =>
    rw [commas, List.length_append]
    rcases List.mem_cons.mp h with rfl | h
    · exact Nat.le_add_right _ _
    · have hsub := List.sublist_flatten_of_mem (List.mem_map_of_mem (f := (str "," ++ ·)) h)
      have hle := hsub.length_le
      rw [List.length_append, ← List.flatMap_def] at hle
      omega

/-! ## Values -/

theorem Reads.succ (h : Reads v x) (hn : v.length ≤ n) : ∃ k, n = k + 1 := by
  cases n with
  | zero =>
    have hread := h 0 [] hn stops_nil
    rw [readTree] at hread
    cases hread
  | succ k => exact ⟨k, rfl⟩

/-- What is read as a tree is not the end of an array. -/
theorem Reads.token (h : Reads v x) (hrest : Stops (decide <| Numeric ·) rest) :
    ∃ c u, Json.token (v ++ rest) = some (c, u) ∧ c ≠ ch ']' := by
  have hread := h v.length rest le_rfl hrest
  obtain ⟨k, hk⟩ := h.succ le_rfl
  rw [hk, readTree] at hread
  cases htoken : Json.token (v ++ rest) with
  | none => simp [htoken] at hread
  | some r =>
    refine ⟨r.1, r.2, rfl, fun hr => ?_⟩
    have hnone : readNumber (ch ']' :: r.2) = none := by
      rw [readNumber, scanset, List.length_cons, List.take_succ_cons,
        List.takeWhile_cons_of_neg (by decide)]
      rfl
    simp [htoken, hr, hnone, show ch ']' ≠ ch '"' by decide, show ch ']' ≠ ch '[' by decide,
      show ch ']' ≠ ch '{' by decide] at hread

theorem reads_num (h : Number t) : Reads t (.num t) := by
  intro n rest hn hrest
  obtain ⟨hne, hnumeric⟩ := h.numeric
  obtain ⟨c, u, rfl⟩ := List.exists_cons_of_ne_nil hne
  obtain ⟨n, rfl⟩ : ∃ k, n = k + 1 := ⟨n - 1, by simp only [List.length_cons] at hn; omega⟩
  obtain ⟨hblank, hquote, harr, hobj⟩ := (hnumeric c List.mem_cons_self).first
  have hread := readNumber_append h hrest
  rw [List.cons_append] at hread
  rw [readTree, List.cons_append, token_cons hblank, Option.bind_eq_bind, Option.bind_some,
    if_neg hquote, if_neg harr, if_neg hobj, hread]
  rfl

theorem reads_str (h : Clean t) : Reads (quote t) (.str t) := by
  intro n rest hn _
  obtain ⟨n, rfl⟩ : ∃ k, n = k + 1 := ⟨n - 1, by simp [quote] at hn; omega⟩
  have hsplit : quote t ++ rest = ch '"' :: (t ++ ch '"' :: rest) := by simp [quote]
  rw [hsplit, readTree, token_cons (by decide)]
  simp [readString_append h]

/-- Space in front of a value. -/
theorem Reads.space (h : Reads v x) (hu : Space u) : Reads (u ++ v) x := by
  intro n rest hn hrest
  have hlen : v.length ≤ n := by
    rw [List.length_append] at hn
    omega
  have hread := h n rest hlen hrest
  obtain ⟨k, rfl⟩ := h.succ hlen
  rw [List.append_assoc, readTree, token_space hu]
  rwa [readTree] at hread

section composed

variable {ι : Type} {xs : List ι} {name text : ι → Text} {tree : ι → Tree}

theorem reads_arr (h : ∀ i ∈ xs, Reads (text i) (tree i)) :
    Reads (str "[" ++ commas (xs.map text) ++ str "]") (.arr (xs.map tree)) := by
  intro n rest hn _
  have hsplit : str "[" ++ commas (xs.map text) ++ str "]" ++ rest =
      ch '[' :: (commas (xs.map text) ++ ch ']' :: rest) := by
    simp [show str "[" = [ch '['] from rfl, show str "]" = [ch ']'] from rfl]
  simp only [List.length_append, show (str "[").length = 1 from rfl,
    show (str "]").length = 1 from rfl] at hn
  obtain ⟨n, rfl⟩ : ∃ k, n = k + 1 := ⟨n - 1, by omega⟩
  have hcount := length_le_commas (xs.map text)
  rw [List.length_map] at hcount
  have hlist : readList (ch ']') (readTree n) n (commas (xs.map text) ++ ch ']' :: rest) =
      some (xs.map tree, rest) := by
    refine readList_commas (by decide) (by decide) (by decide) (by omega) (fun i hi rest => ?_)
      fun i hi rest hrest => (h i hi).token hrest
    have hlen := length_le_of_mem_commas (List.mem_map_of_mem (f := text) hi)
    exact h i hi n rest (by omega)
  have hquote : ch '[' ≠ ch '"' := by decide
  rw [hsplit, readTree, token_cons (by decide), Option.bind_eq_bind, Option.bind_some,
    if_neg hquote, if_pos rfl, hlist]
  rfl

theorem reads_obj (hname : ∀ i ∈ xs, Clean (name i)) (h : ∀ i ∈ xs, Reads (text i) (tree i)) :
    Reads (str "\x7b" ++ commas (xs.map fun i => quote (name i) ++ str ":" ++ text i) ++ str "\x7d")
      (.obj (xs.map fun i => (name i, tree i))) := by
  intro n rest hn _
  set member : ι → Text := fun i => quote (name i) ++ str ":" ++ text i with hmember
  have hsplit : str "\x7b" ++ commas (xs.map member) ++ str "\x7d" ++ rest =
      ch '{' :: (commas (xs.map member) ++ ch '}' :: rest) := by
    simp [show str "\x7b" = [ch '{'] from rfl, show str "\x7d" = [ch '}'] from rfl]
  simp only [List.length_append, show (str "\x7b").length = 1 from rfl,
    show (str "\x7d").length = 1 from rfl] at hn
  obtain ⟨n, rfl⟩ : ∃ k, n = k + 1 := ⟨n - 1, by omega⟩
  have hcount := length_le_commas (xs.map member)
  rw [List.length_map] at hcount
  have hlist : readList (ch '}') (readMember (readTree n)) n
      (commas (xs.map member) ++ ch '}' :: rest) =
      some (xs.map fun i => (name i, tree i), rest) := by
    refine readList_commas (by decide) (by decide) (by decide) (by omega)
      (fun i hi rest hrest => ?_) fun i hi rest hrest => ?_
    · have hlen := length_le_of_mem_commas (List.mem_map_of_mem (f := member) hi)
      have htext : (text i).length ≤ (member i).length := by
        rw [hmember, List.length_append]
        exact Nat.le_add_left _ _
      exact readMember_append (hname i hi) (h i hi n rest (by omega) hrest)
    · exact ⟨ch '"', _, token_cons (by decide), by decide⟩
  have hquote : ch '{' ≠ ch '"' := by decide
  have hbracket : ch '{' ≠ ch '[' := by decide
  rw [hsplit, readTree, token_cons (by decide), Option.bind_eq_bind, Option.bind_some,
    if_neg hquote, if_neg hbracket, if_pos rfl, hlist]
  rfl

end composed

mutual

/-- A good tree is read from what it prints. -/
theorem reads_print (x : Tree) (h : x.Good) : Reads x.print x := by
  cases x with
  | num t =>
    rw [Tree.Good] at h
    rw [Tree.print]
    exact reads_num h
  | str t =>
    rw [Tree.Good] at h
    rw [Tree.print]
    exact reads_str h
  | arr xs =>
    rw [Tree.Good] at h
    have hread : Reads (str "[" ++ commas (xs.map Tree.print) ++ str "]") (.arr (xs.map id)) :=
      reads_arr (all_reads_print xs h)
    rwa [List.map_id, ← Tree.prints_eq, ← Tree.print] at hread
  | obj ms =>
    rw [Tree.Good] at h
    have hread := reads_obj (fun m hm => (Tree.membersGood_iff.mp h m hm).1)
      (all_members_reads_print ms h)
    rw [← Tree.printMembers_eq, ← Tree.print] at hread
    simpa using hread

theorem all_reads_print (xs : List Tree) (h : Tree.AllGood xs) :
    ∀ x ∈ xs, Reads x.print (id x) := by
  cases xs with
  | nil => exact List.forall_mem_nil _
  | cons x xs =>
    rw [Tree.AllGood] at h
    exact List.forall_mem_cons.mpr ⟨reads_print x h.1, all_reads_print xs h.2⟩

theorem all_members_reads_print (ms : List (Text × Tree)) (h : Tree.MembersGood ms) :
    ∀ m ∈ ms, Reads m.2.print m.2 := by
  cases ms with
  | nil => exact List.forall_mem_nil _
  | cons m ms =>
    rw [Tree.MembersGood] at h
    exact List.forall_mem_cons.mpr ⟨reads_print m.2 h.2.1, all_members_reads_print ms h.2.2⟩

end

theorem Tree.unsigned_decimal (v : UInt64) : (Tree.num (decimal v.toNat)).unsigned = some v := by
  have hread : Scan.unsigned ([] ++ (decimal v.toNat ++ [])) = some (v, []) :=
    Scan.unsigned_decimal v (List.forall_mem_nil _) stops_nil
  rw [List.nil_append, List.append_nil] at hread
  rw [Tree.unsigned, if_pos (isDigit_decimal v.toNat), hread]
  rfl

theorem Reads.read (h : Reads v x) : Json.read v = some x := by
  have hread := h v.length [] le_rfl stops_nil
  rw [List.append_nil] at hread
  rw [Json.read, hread]
  rfl

/-! ## No NUL -/

theorem forall_mem_commas {p : Byte → Prop} {ts : List Text} (hcomma : p (ch ','))
    (h : ∀ t ∈ ts, ∀ c ∈ t, p c) : ∀ c ∈ commas ts, p c := by
  cases ts with
  | nil => exact List.forall_mem_nil _
  | cons t ts =>
    obtain ⟨ht, hts⟩ := List.forall_mem_cons.mp h
    rw [commas, List.forall_mem_append]
    refine ⟨ht, fun c hc => ?_⟩
    obtain ⟨u, hu, hc⟩ := List.mem_flatMap.mp hc
    rcases List.mem_cons.mp hc with rfl | hc
    · exact hcomma
    · exact hts u hu c hc

theorem nul_notMem_codeUnit (h : codeUnit t = some n) : ∀ c ∈ t, c ≠ 0 := by
  rintro c hc rfl
  exact hexDigit_of_codeUnit h 0 hc (by decide)

theorem Character.nul_notMem (h : Character raw d) : ∀ c ∈ raw, c ≠ 0 := by
  have hback : ch '\\' ≠ 0 := by decide
  have hu : ch 'u' ≠ 0 := by decide
  cases h with
  | @plain c h =>
    refine List.forall_mem_singleton.mpr ?_
    rintro rfl
    exact absurd h.1 (by decide)
  | @escape e d h =>
    have hall : (escapes.all fun x => x.1 ≠ 0) = true := by decide
    have he := List.all_eq_true.mp hall _ h
    exact List.forall_mem_cons.mpr ⟨hback, List.forall_mem_singleton.mpr (of_decide_eq_true he)⟩
  | unit h =>
    exact List.forall_mem_cons.mpr ⟨hback, List.forall_mem_cons.mpr ⟨hu, nul_notMem_codeUnit h⟩⟩
  | pair h h' =>
    rw [List.cons_append, List.cons_append, List.forall_mem_cons, List.forall_mem_cons,
      List.forall_mem_append, List.forall_mem_cons, List.forall_mem_cons]
    exact ⟨hback, hu, nul_notMem_codeUnit h, hback, hu, nul_notMem_codeUnit h'⟩

theorem Characters.nul_notMem (h : Characters raw d) : ∀ c ∈ raw, c ≠ 0 := by
  induction h with
  | nil => exact List.forall_mem_nil _
  | cons h _ ih => exact List.forall_mem_append.mpr ⟨h.nul_notMem, ih⟩

theorem Space.nul_notMem (h : Space t) : ∀ c ∈ t, c ≠ 0 := by
  rintro c hc rfl
  exact absurd (h 0 hc) (by decide)

theorem quote_nul_notMem (h : Characters raw d) : ∀ c ∈ quote raw, c ≠ 0 := by
  have hquote : ch '"' ≠ 0 := by decide
  rw [quote, List.cons_append, List.forall_mem_cons, List.forall_mem_append]
  exact ⟨hquote, h.nul_notMem, List.forall_mem_singleton.mpr hquote⟩

theorem Key.nul_notMem (h : Key t) : ∀ c ∈ t, c ≠ 0 := by
  obtain ⟨a, raw, d, b, ha, hraw, hb, rfl⟩ := h
  rw [List.forall_mem_append, List.forall_mem_append]
  exact ⟨⟨ha.nul_notMem, quote_nul_notMem hraw⟩, hb.nul_notMem⟩

/-- JSON is a C string. -/
theorem Value.nul_notMem (h : Value t) : ∀ c ∈ t, c ≠ 0 := by
  have hopen : ∀ c ∈ str "[", c ≠ 0 := by decide
  have hclose : ∀ c ∈ str "]", c ≠ 0 := by decide
  have hopen' : ∀ c ∈ str "\x7b", c ≠ 0 := by decide
  have hclose' : ∀ c ∈ str "\x7d", c ≠ 0 := by decide
  have hcolon : ∀ c ∈ str ":", c ≠ 0 := by decide
  have hcomma : ch ',' ≠ 0 := by decide
  induction h with
  | literal h =>
    simp only [List.mem_cons, List.not_mem_nil, or_false] at h
    rcases h with rfl | rfl | rfl <;> decide
  | number h =>
    rintro c hc rfl
    exact absurd (h.numeric.2 0 hc) (by decide)
  | string h => exact quote_nul_notMem h
  | array _ ih =>
    simp only [List.forall_mem_append]
    exact ⟨⟨hopen, forall_mem_commas hcomma ih⟩, hclose⟩
  | @object ms hk _ ih =>
    simp only [List.forall_mem_append]
    refine ⟨⟨hopen', forall_mem_commas hcomma ?_⟩, hclose'⟩
    rw [List.forall_mem_map]
    intro m hm
    simp only [List.forall_mem_append]
    exact ⟨⟨(hk m hm).nul_notMem, hcolon⟩, ih m hm⟩
  | hollowArray h =>
    simp only [List.forall_mem_append]
    exact ⟨⟨hopen, h.nul_notMem⟩, hclose⟩
  | hollowObject h =>
    simp only [List.forall_mem_append]
    exact ⟨⟨hopen', h.nul_notMem⟩, hclose'⟩
  | padded ha _ hb ih =>
    simp only [List.forall_mem_append]
    exact ⟨⟨ha.nul_notMem, ih⟩, hb.nul_notMem⟩

end Json
