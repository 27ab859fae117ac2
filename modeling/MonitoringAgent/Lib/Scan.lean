import MonitoringAgent.Lib.Decimal

/-! Reading text as C does: words and lines. -/
namespace Scan

open Buffer Decimal

/-- `isspace` in the C locale. -/
def isSpace (c : Byte) : Bool := c = 32 || 9 ≤ c && c ≤ 13

/-- `%s`: the first word, if there is one. -/
def word (t : Text) : Option Text :=
  match (t.dropWhile isSpace).takeWhile (! isSpace ·) with
  | [] => none
  | w => some w

/-- `%lu` and `%llu`: a decimal number with an optional sign, and what follows it. A
number that does not fit becomes the largest one. -/
def unsigned (t : Text) : Option (UInt64 × Text) :=
  let t := t.dropWhile isSpace
  let signed := t.head? = some (ch '-') ∨ t.head? = some (ch '+')
  let rest := if signed then t.tail else t
  let ds := rest.takeWhile fun c => IsDigit c
  let n := value ds
  if ds = [] then none
  else if 2 ^ 64 ≤ n then some (UInt64.ofNat (2 ^ 64 - 1), rest.drop ds.length)
  else
    some (if t.head? = some (ch '-') then - UInt64.ofNat n else UInt64.ofNat n,
      rest.drop ds.length)

/-- The text of a format between two conversions: space stands for any space. -/
def literal : Text → Text → Option Text
  | [], s => some s
  | c :: fmt, s =>
    if isSpace c then literal fmt (s.dropWhile isSpace)
    else
      match s with
      | [] => none
      | d :: s => if d = c then literal fmt s else none

/-! ## Streams -/

/-- A stream: what has not been read yet, and `feof`. -/
structure File where
  rest : Text
  eof : Bool

/-- At most `n` bytes up to the end of the line; the flag says that the end of the stream
was met. -/
def takeLine : Nat → Text → Text × Text × Bool
  | 0, s => ([], s, false)
  | _ + 1, [] => ([], [], true)
  | n + 1, c :: s =>
    if c = ch '\n' then ([c], s, false)
    else (c :: (takeLine n s).1, (takeLine n s).2)

/-- `fgets` with room for `n` bytes. -/
def fgets (n : Nat) (f : File) : Option Text × File :=
  match takeLine (n - 1) f.rest with
  | ([], rest, eof) => (none, ⟨rest, f.eof || eof⟩)
  | (line, rest, eof) => (some line, ⟨rest, f.eof || eof⟩)

/-- The lines of a text, without their ends. -/
def lines : Text → List Text
  | [] => []
  | c :: s =>
    if c = ch '\n' then [] :: lines s
    else match lines s with
      | [] => [[c]]
      | l :: ls => (c :: l) :: ls

/-- What successive reads of at most `n` bytes return, the first one of at most `k`. -/
def pieces (n : Nat) : Nat → Text → List Text
  | _, [] => []
  | k, c :: s =>
    if c = ch '\n' ∨ k ≤ 1 then [c] :: pieces n n s
    else match pieces n (k - 1) s with
      | [] => [[c]]
      | p :: ps => (c :: p) :: ps

variable {n : Nat} {s l line : Text} {ls : List Text} {c : Byte} {f f' : File}

theorem length_takeLine (n : Nat) (s : Text) :
    (takeLine n s).1.length + (takeLine n s).2.1.length = s.length := by
  induction n generalizing s with
  | zero => simp [takeLine]
  | succ n ih =>
    cases s with
    | nil => rfl
    | cons c s =>
      rw [takeLine]
      split
      · simp [Nat.add_comm]
      · have := ih s
        simp only [List.length_cons]
        omega

/-- A line that is read is taken off the stream. -/
theorem length_fgets (h : fgets n f = (some line, f')) : f'.rest.length < f.rest.length := by
  have hlen := length_takeLine (n - 1) f.rest
  unfold fgets at h
  generalize takeLine (n - 1) f.rest = r at h hlen
  obtain ⟨line', rest, eof⟩ := r
  cases line' with
  | nil => simp at h
  | cons c line' =>
    obtain ⟨-, rfl⟩ := Prod.mk.inj h
    simp only [List.length_cons] at hlen ⊢
    omega

theorem length_fgets_le (n : Nat) (f : File) : (fgets n f).2.rest.length ≤ f.rest.length := by
  have hlen := length_takeLine (n - 1) f.rest
  unfold fgets
  generalize takeLine (n - 1) f.rest = r at hlen
  obtain ⟨line, rest, eof⟩ := r
  cases line with
  | nil => exact Nat.le_of_eq (by simpa using hlen)
  | cons c line => exact Nat.le_trans (Nat.le_add_left _ _) hlen.le

/-- What a read leaves in the buffer after the line itself. -/
def Ends (l tail : Text) : Prop := tail = [ch '\n'] ∨ tail = [] ∧ l ≠ []

theorem lines_eq_nil (h : lines s = []) : s = [] := by
  cases s with
  | nil => rfl
  | cons c s =>
    rw [lines] at h
    split at h
    · cases h
    · split at h <;> cases h

/-- A line with room to spare is read whole. -/
theorem takeLine_of_lines (h : lines s = l :: ls) (hl : l.length < n) :
    ∃ tail rest eof, takeLine n s = (l ++ tail, rest, eof) ∧ lines rest = ls ∧ Ends l tail := by
  induction s generalizing l n with
  | nil => simp [lines] at h
  | cons c s ih =>
    obtain ⟨n, rfl⟩ : ∃ k, n = k + 1 := ⟨n - 1, by omega⟩
    rw [lines] at h
    rw [takeLine]
    split at h
    · next hc =>
      obtain ⟨rfl, rfl⟩ := List.cons.inj h
      rw [if_pos hc, hc]
      exact ⟨[ch '\n'], s, false, rfl, rfl, Or.inl rfl⟩
    · next hc =>
      rw [if_neg hc]
      cases hs : lines s with
      | nil =>
        rw [hs] at h
        obtain ⟨rfl, rfl⟩ := List.cons.inj h
        obtain rfl := lines_eq_nil hs
        obtain ⟨k, rfl⟩ : ∃ k, n = k + 1 := ⟨n - 1, by simp at hl; omega⟩
        exact ⟨[], [], true, rfl, rfl, Or.inr ⟨rfl, by simp⟩⟩
      | cons l' ls' =>
        rw [hs] at h
        obtain ⟨rfl, rfl⟩ := List.cons.inj h
        obtain ⟨tail, rest, eof, htake, hrest, hends⟩ := ih hs (by simpa using hl)
        rw [htake]
        refine ⟨tail, rest, eof, rfl, hrest, ?_⟩
        rcases hends with htail | ⟨htail, -⟩
        · exact Or.inl htail
        · exact Or.inr ⟨htail, by simp⟩

theorem Ends.ne_nil {tail : Text} (h : Ends l tail) : l ++ tail ≠ [] := by
  rcases h with rfl | ⟨rfl, hl⟩
  · simp
  · simpa using hl

theorem fgets_of_lines (h : lines f.rest = l :: ls) (hl : l.length + 1 < n) :
    ∃ tail f', fgets n f = (some (l ++ tail), f') ∧ lines f'.rest = ls ∧ Ends l tail := by
  obtain ⟨tail, rest, eof, htake, hrest, hends⟩ :=
    takeLine_of_lines (n := n - 1) h (by omega)
  refine ⟨tail, ⟨rest, f.eof || eof⟩, ?_, hrest, hends⟩
  rw [fgets, htake]
  cases hline : l ++ tail with
  | nil => exact absurd hline hends.ne_nil
  | cons c line => rfl

theorem fgets_of_nil (h : lines f.rest = []) (hn : 1 < n) : fgets n f = (none, ⟨[], true⟩) := by
  obtain ⟨k, hk⟩ : ∃ k, n - 1 = k + 1 := ⟨n - 2, by omega⟩
  rw [fgets, lines_eq_nil h, hk, takeLine]
  simp

/-! ## Pieces -/

theorem pieces_eq_nil {k : Nat} (h : pieces n k s = []) : s = [] := by
  cases s with
  | nil => rfl
  | cons c s =>
    rw [pieces] at h
    split at h
    · cases h
    · split at h <;> cases h

theorem pieces_of_takeLine {k : Nat} (hs : s ≠ []) (hk : 0 < k) :
    pieces n k s = (takeLine k s).1 :: pieces n n (takeLine k s).2.1 := by
  induction s generalizing k with
  | nil => exact absurd rfl hs
  | cons c s ih =>
    obtain ⟨k, rfl⟩ : ∃ j, k = j + 1 := ⟨k - 1, by omega⟩
    rw [pieces, takeLine]
    by_cases hc : c = ch '\n'
    · rw [if_pos (Or.inl hc), if_pos hc]
    · rw [if_neg hc]
      cases k with
      | zero =>
        rw [if_pos (Or.inr le_rfl)]
        rfl
      | succ k =>
        rw [if_neg (by simp [hc])]
        cases s with
        | nil => rfl
        | cons d s => rw [Nat.add_sub_cancel, ih (by simp) (by omega)]

theorem fgets_of_pieces {p : Text} {ps : List Text} (hn : 1 < n)
    (h : pieces (n - 1) (n - 1) f.rest = p :: ps) :
    ∃ f', fgets n f = (some p, f') ∧ pieces (n - 1) (n - 1) f'.rest = ps := by
  have hs : f.rest ≠ [] := by
    intro hnil
    rw [hnil, pieces] at h
    cases h
  rw [pieces_of_takeLine hs (by omega)] at h
  obtain ⟨hp, hps⟩ := List.cons.inj h
  refine ⟨⟨(takeLine (n - 1) f.rest).2.1, f.eof || (takeLine (n - 1) f.rest).2.2⟩, ?_, hps⟩
  have hne : p ≠ [] := by
    rw [← hp]
    obtain ⟨k, hk⟩ : ∃ k, n - 1 = k + 1 := ⟨n - 2, by omega⟩
    cases hrest : f.rest with
    | nil => exact absurd hrest hs
    | cons c s =>
      rw [hk, takeLine]
      split <;> simp
  rw [fgets]
  generalize takeLine (n - 1) f.rest = r at hp ⊢
  obtain ⟨line, rest, eof⟩ := r
  obtain rfl : line = p := hp
  cases line with
  | nil => exact absurd rfl hne
  | cons c line => rfl

theorem fgets_of_no_pieces (hn : 1 < n) (h : pieces (n - 1) (n - 1) f.rest = []) :
    fgets n f = (none, ⟨[], true⟩) := by
  refine fgets_of_nil ?_ hn
  rw [pieces_eq_nil h]
  rfl

/-- The reads after the end of a line start afresh. -/
theorem pieces_append_newline {k : Nat} (l s : Text) :
    pieces n k (l ++ ch '\n' :: s) = pieces n k (l ++ [ch '\n']) ++ pieces n n s := by
  induction l generalizing k with
  | nil => simp [pieces]
  | cons c l ih =>
    rw [List.cons_append, List.cons_append, pieces, pieces]
    split
    · rw [ih, List.cons_append]
    · rw [ih]
      cases hp : pieces n (k - 1) (l ++ [ch '\n']) with
      | nil =>
        have hnil := pieces_eq_nil hp
        simp at hnil
      | cons p ps => rfl

/-- The end of a line is a piece of its own when the last piece of the line is full. -/
theorem pieces_concat_newline (k : Nat) (l : Text) :
    pieces n k (l ++ [ch '\n']) = pieces n k l ++ [[ch '\n']] ∨
      ∃ ps p, p ≠ [] ∧ pieces n k l = ps ++ [p] ∧
        pieces n k (l ++ [ch '\n']) = ps ++ [p ++ [ch '\n']] := by
  induction l generalizing k with
  | nil =>
    left
    simp [pieces]
  | cons c l ih =>
    rw [List.cons_append, pieces, pieces]
    split
    · rcases ih n with hsame | ⟨ps, p, hp, hl, hnl⟩
      · left
        rw [hsame, List.cons_append]
      · right
        exact ⟨[c] :: ps, p, hp, by rw [hl]; rfl, by rw [hnl]; rfl⟩
    · rcases ih (k - 1) with hsame | ⟨ps, p, hp, hl, hnl⟩
      · rw [hsame]
        cases hl : pieces n (k - 1) l with
        | nil =>
          right
          exact ⟨[], [c], by simp, rfl, rfl⟩
        | cons q qs =>
          left
          rfl
      · right
        rw [hl, hnl]
        cases ps with
        | nil => exact ⟨[], c :: p, by simp, rfl, rfl⟩
        | cons q qs => exact ⟨(c :: q) :: qs, p, hp, rfl, rfl⟩

/-- The first line of a text, and what follows it. -/
theorem lines_eq_cons (h : lines s = l :: ls) :
    (∃ s', s = l ++ ch '\n' :: s' ∧ lines s' = ls) ∨ s = l ∧ ls = [] := by
  induction s generalizing l with
  | nil => simp [lines] at h
  | cons c s ih =>
    rw [lines] at h
    split at h
    · next hc =>
      obtain ⟨rfl, rfl⟩ := List.cons.inj h
      left
      exact ⟨s, by rw [hc]; rfl, rfl⟩
    · cases hs : lines s with
      | nil =>
        rw [hs] at h
        obtain ⟨rfl, rfl⟩ := List.cons.inj h
        right
        exact ⟨by rw [lines_eq_nil hs], rfl⟩
      | cons l' ls' =>
        rw [hs] at h
        obtain ⟨rfl, rfl⟩ := List.cons.inj h
        rcases ih hs with ⟨s', rfl, hs'⟩ | ⟨rfl, hls⟩
        · left
          exact ⟨s', rfl, hs'⟩
        · right
          exact ⟨rfl, hls⟩

theorem lines_append_newline (hl : ch '\n' ∉ l) : lines (l ++ ch '\n' :: s) = l :: lines s := by
  induction l with
  | nil => simp [lines]
  | cons c l ih =>
    obtain ⟨hc, hl⟩ := not_or.mp (mt List.mem_cons.mpr hl)
    rw [List.cons_append, lines, if_neg (Ne.symm hc), ih hl]

theorem mem_of_mem_lines (hl : l ∈ lines s) (hc : c ∈ l) : c ∈ s := by
  induction s generalizing l with
  | nil => simp [lines] at hl
  | cons d s ih =>
    rw [lines] at hl
    split at hl
    · rcases List.mem_cons.mp hl with rfl | hl
      · simp at hc
      · exact List.mem_cons_of_mem _ (ih hl hc)
    · cases hs : lines s with
      | nil =>
        rw [hs] at hl
        obtain rfl := List.mem_singleton.mp hl
        obtain rfl := List.mem_singleton.mp hc
        exact List.mem_cons_self
      | cons l' ls' =>
        rw [hs] at hl
        rcases List.mem_cons.mp hl with rfl | hl
        · rcases List.mem_cons.mp hc with rfl | hc
          · exact List.mem_cons_self
          · exact List.mem_cons_of_mem _ (ih (by rw [hs]; exact List.mem_cons_self) hc)
        · exact List.mem_cons_of_mem _ (ih (by rw [hs]; exact List.mem_cons_of_mem _ hl) hc)

theorem not_mem_of_mem_lines (hl : l ∈ lines s) : ch '\n' ∉ l := by
  induction s generalizing l with
  | nil => simp [lines] at hl
  | cons d s ih =>
    rw [lines] at hl
    split at hl
    · rcases List.mem_cons.mp hl with rfl | hl
      · simp
      · exact ih hl
    · next hd =>
      cases hs : lines s with
      | nil =>
        rw [hs] at hl
        obtain rfl := List.mem_singleton.mp hl
        simpa using Ne.symm hd
      | cons l' ls' =>
        rw [hs] at hl ih
        rcases List.mem_cons.mp hl with rfl | hl
        · simpa [Ne.symm hd] using ih List.mem_cons_self
        · exact ih (List.mem_cons_of_mem _ hl)

/-! ## Words -/

theorem word_append (hs : ∀ c ∈ s, isSpace c) : word (l ++ s) = word l := by
  unfold word
  suffices h : ((l ++ s).dropWhile isSpace).takeWhile (! isSpace ·) =
      (l.dropWhile isSpace).takeWhile (! isSpace ·) by rw [h]
  induction l with
  | nil =>
    rw [List.nil_append, List.dropWhile_eq_nil_iff.mpr hs]
    rfl
  | cons c l ih =>
    by_cases hc : isSpace c
    · simpa [hc] using ih
    · rw [List.cons_append, List.dropWhile_cons_of_neg hc, List.dropWhile_cons_of_neg hc]
      rw [← List.cons_append]
      generalize c :: l = t
      induction t with
      | nil =>
        cases s with
        | nil => rfl
        | cons d s => simp [hs d List.mem_cons_self]
      | cons d t ih' =>
        rw [List.cons_append, List.takeWhile_cons, List.takeWhile_cons, ih']

theorem length_word (h : word s = some l) : l.length ≤ s.length := by
  have hle : ((s.dropWhile isSpace).takeWhile (! isSpace ·)).length ≤ s.length :=
    (List.takeWhile_prefix _).length_le.trans (List.dropWhile_suffix _).length_le
  unfold word at h
  split at h
  · cases h
  · rwa [Option.some.inj h] at hle

end Scan
