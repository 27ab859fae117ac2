import Mathlib.Data.List.Basic
import Mathlib.Data.List.Range
import Mathlib.Data.List.TakeWhile

/-! C strings in memory: formatted writes, the text they leave and what they spare. -/
namespace Buffer

abbrev Byte := UInt8

abbrev Text := List Byte

/-- The bytes of a literal. -/
def str (s : String) : Text := s.toList.map Char.toUInt8

/-- The byte of a character constant. -/
def ch (c : Char) : Byte := c.toUInt8

/-- What holds of all bytes of a text is decided along the text. -/
instance (priority := 2000) decidableForallByte {p : Byte → Prop} [DecidablePred p] (t : Text) :
    Decidable (∀ c ∈ t, p c) := List.decidableBAll p t

/-- Texts joined by single commas. -/
def commas : List Text → Text
  | [] => []
  | t :: ts => t ++ ts.flatMap (str "," ++ ·)

/-- Texts joined by single commas, with one before the first if something precedes it. -/
def commasAfter (before : Bool) (ts : List Text) : Text :=
  if before then ts.flatMap (str "," ++ ·) else commas ts

theorem commasAfter_cons (before : Bool) (t : Text) (ts : List Text) :
    commasAfter before (t :: ts) =
      (if before then str "," else []) ++ t ++ commasAfter true ts := by
  cases before <;> simp [commasAfter, commas]

theorem commasAfter_true {ts : List Text} (hne : ts ≠ []) :
    commasAfter true ts = str "," ++ commas ts := by
  cases ts with
  | nil => exact absurd rfl hne
  | cons t ts => simp [commasAfter, commas]

theorem commasAfter_append (before : Bool) (ts us : List Text) :
    commasAfter before (ts ++ us) =
      commasAfter before ts ++ commasAfter (before || ! ts.isEmpty) us := by
  induction ts generalizing before with
  | nil => cases before <;> simp [commasAfter, commas]
  | cons t ts ih =>
    rw [List.cons_append, commasAfter_cons, commasAfter_cons, ih]
    simp

/-- The string at the start of a buffer. -/
def cstr (t : Text) : Text := t.takeWhile (· ≠ 0)

theorem cstr_of_nul {t : Text} (h : 0 ∉ t) : cstr t = t := by
  refine List.takeWhile_eq_self_iff.mpr fun c hc => ?_
  simpa using fun he : c = 0 => h (he ▸ hc)

/-- Memory counted from the start of a buffer, past its end as well. -/
abbrev Memory := Nat → Byte

/-- The bytes `[0, n)`. -/
def slice (m : Memory) (n : Nat) : Text := (List.range n).map m

def write (m : Memory) (off : Nat) (t : Text) : Memory := fun i =>
  if i < off then m i else t[i - off]?.getD (m i)

/-- `sprintf` at an offset: the text and its terminator. -/
def sprintf (m : Memory) (off : Nat) (t : Text) : Memory := write m off (t ++ [0])

/-- `snprintf` at an offset with room for `cap` bytes; no room writes nothing. -/
def snprintf (m : Memory) (off cap : Nat) (t : Text) : Memory :=
  if cap = 0 then m else write m off (t.take (cap - 1) ++ [0])

/-- The buffer starts with the C string `t`. -/
def Holds (m : Memory) (t : Text) : Prop := slice m t.length = t ∧ m t.length = 0

variable {m : Memory} {off cap i n : Nat} {s t : Text} {c : Byte}

@[simp] theorem length_slice : (slice m n).length = n := by simp [slice]

@[simp] theorem getElem_slice (h : i < (slice m n).length) : (slice m n)[i] = m i := by
  simp [slice]

theorem slice_congr {m' : Memory} (h : ∀ i, i < n → m' i = m i) : slice m' n = slice m n := by
  simp only [slice, List.map_inj_left, List.mem_range]
  exact h

theorem slice_add (k : Nat) : slice m (n + k) = slice m n ++ slice (fun i => m (n + i)) k := by
  simp [slice, List.range_add]

@[simp] theorem write_below (h : i < off) : write m off t i = m i := by simp [write, h]

theorem write_at (h : i < t.length) : write m off t (off + i) = t[i] := by
  simp [write, h]

theorem write_above (h : off + t.length ≤ i) : write m off t i = m i := by
  rw [write, if_neg (by omega), List.getElem?_eq_none (by omega), Option.getD_none]

theorem slice_write (h : n ≤ off) : slice (write m off t) n = slice m n :=
  slice_congr fun i hi => write_below (by omega)

/-- Writing at the end of a slice extends it by the written text. -/
theorem slice_write_append : slice (write m n t) (n + t.length) = slice m n ++ t := by
  rw [slice_add, slice_write le_rfl]
  congr 1
  apply List.ext_getElem (by simp)
  intro i _ hi
  rw [getElem_slice, write_at hi]

theorem snprintf_below (h : i < off) : snprintf m off cap t i = m i := by
  unfold snprintf
  split
  · rfl
  · exact write_below h

theorem snprintf_of_fits (h : t.length < cap) :
    snprintf m off cap t = sprintf m off t := by
  rw [snprintf, if_neg (by omega), List.take_of_length_le (by omega), sprintf]

theorem Holds.slice_eq (h : Holds m t) : slice m t.length = t := h.1

theorem Holds.nul (h : Holds m t) : m t.length = 0 := h.2

theorem holds_sprintf (h : slice m s.length = s) : Holds (sprintf m s.length t) (s ++ t) := by
  constructor
  · have hw := slice_write_append (m := m) (n := s.length) (t := t ++ [0])
    rw [List.length_append, List.length_singleton, ← Nat.add_assoc, slice_add, h,
      ← List.append_assoc] at hw
    rw [List.length_append]
    exact (List.append_inj' hw (by simp)).1
  · rw [List.length_append, sprintf, write_at (by simp)]
    simp

/-- An append that fits leaves the old text, the new one and a terminator. -/
theorem Holds.append (h : Holds m s) (hcap : t.length < cap) :
    Holds (snprintf m s.length cap t) (s ++ t) := by
  rw [snprintf_of_fits hcap]
  exact holds_sprintf h.slice_eq

/-- A terminator put back at an earlier end restores the earlier text. -/
theorem holds_terminate (h : slice m s.length = s) : Holds (write m s.length [0]) s := by
  have := holds_sprintf (t := []) h
  rwa [List.append_nil] at this

theorem Holds.last (h : Holds m s) (hs : s.getLast? = some c) : m (s.length - 1) = c := by
  obtain ⟨r, rfl⟩ := List.getLast?_eq_some_iff.mp hs
  have hlen : (r ++ [c]).length = r.length + 1 := by simp
  have hslice := h.slice_eq
  rw [hlen, slice_add] at hslice
  have hlast := (List.append_inj' hslice (by simp)).2
  simpa [slice, hlen] using hlast

/-- A text without NUL is what a reader of C strings finds. -/
theorem Holds.cstr_slice (h : Holds m t) (hnul : 0 ∉ t) (hlen : t.length < n) :
    cstr (slice m n) = t := by
  obtain ⟨k, rfl⟩ := Nat.exists_eq_add_of_lt hlen
  have hrest : slice (fun i => m (t.length + i)) (k + 1) =
      0 :: (List.range k).map (fun i => m (t.length + (i + 1))) := by
    rw [slice, List.range_succ_eq_map, List.map_cons, Nat.add_zero, h.nul, List.map_map]
    rfl
  rw [Nat.add_assoc, slice_add, h.slice_eq, hrest, cstr, List.takeWhile_append_of_pos]
  · simp
  · intro c hc
    simpa using fun he : c = 0 => hnul (he ▸ hc)

/-! ## Overwriting in place -/

theorem slice_eq_iff : slice m t.length = t ↔ ∀ i (h : i < t.length), m i = t[i] := by
  constructor
  · intro h i hi
    have hget := List.getElem_of_eq h (by simpa using hi)
    rwa [getElem_slice] at hget
  · intro h
    refine List.ext_getElem (by simp) fun i _ hi => ?_
    rw [getElem_slice]
    exact h i hi

/-- A text of the same length in the middle. -/
theorem Holds.overwrite {a b b' : Text} (h : Holds m (a ++ (b ++ t))) (hb : b'.length = b.length) :
    Holds (write m a.length b') (a ++ (b' ++ t)) := by
  obtain ⟨hslice, hnul⟩ := h
  have hlen : (a ++ (b' ++ t)).length = (a ++ (b ++ t)).length := by simp [hb]
  rw [slice_eq_iff] at hslice
  constructor
  · rw [slice_eq_iff]
    intro i hi
    have hold := hslice i (hlen ▸ hi)
    rcases Nat.lt_or_ge i a.length with hia | hia
    · rw [write_below hia, hold, List.getElem_append_left hia, List.getElem_append_left hia]
    · obtain ⟨k, rfl⟩ := Nat.exists_eq_add_of_le hia
      rw [List.getElem_append_right hia]
      rcases Nat.lt_or_ge k b'.length with hkb | hkb
      · rw [write_at hkb]
        simp [List.getElem_append_left hkb]
      · rw [write_above (by omega), hold, List.getElem_append_right hia]
        simp [List.getElem_append_right, hb, hb ▸ hkb]
  · rw [hlen, write_above (by simp; omega)]
    exact hnul

/-- The byte after a formatted text put back over its terminator. -/
theorem write_sprintf_next :
    write (sprintf m off t) (off + t.length) [c] = write m off (t ++ [c]) := by
  funext i
  rcases Nat.lt_or_ge i off with hi | hi
  · rw [write_below (by omega), sprintf, write_below hi, write_below hi]
  · obtain ⟨k, rfl⟩ := Nat.exists_eq_add_of_le hi
    rcases Nat.lt_trichotomy k t.length with hk | hk | hk
    · rw [write_below (by omega), sprintf, write_at (by simp; omega), write_at (by simp; omega),
        List.getElem_append_left hk, List.getElem_append_left hk]
    · subst hk
      have hat : write (sprintf m off t) (off + t.length) [c] (off + t.length + 0) = c :=
        write_at (by simp)
      rw [Nat.add_zero] at hat
      rw [hat, write_at (by simp)]
      simp
    · rw [write_above (by simp; omega), sprintf, write_above (by simp; omega),
        write_above (by simp; omega)]

end Buffer
