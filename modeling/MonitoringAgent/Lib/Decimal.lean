import MonitoringAgent.Lib.Buffer
import Mathlib.Tactic.IntervalCases

/-! Decimal numerals as C prints and reads them. -/
namespace Decimal

open Buffer

/-- `%llu`. -/
def decimal (n : Nat) : Text := (Nat.toDigits 10 n).map Char.toUInt8

/-- One turn of `acc = acc * 10 + c - '0'` in unsigned 64-bit arithmetic; `char` is signed. -/
def digitStep (acc : Nat) (c : Byte) : Nat :=
  (((acc : Int) * 10 + c.toInt8.toInt - 48) % 2 ^ 64).toNat

/-- The loop over a whole name. -/
def readDecimal (t : Text) : Nat := t.foldl digitStep 0

/-- The byte is a decimal digit. -/
def IsDigit (c : Byte) : Prop := 48 ≤ c ∧ c ≤ 57

instance : DecidablePred IsDigit := fun c => inferInstanceAs (Decidable (48 ≤ c ∧ c ≤ 57))

/-- The number a row of digits stands for. -/
def value (t : Text) : Nat := t.foldl (fun n c => n * 10 + (c.toNat - 48)) 0

/-- The text is a decimal numeral of `n`. -/
def Spells (t : Text) (n : Nat) : Prop := t ≠ [] ∧ (∀ c ∈ t, IsDigit c) ∧ value t = n

instance (t : Text) (n : Nat) : Decidable (Spells t n) :=
  inferInstanceAs (Decidable (_ ∧ _ ∧ _))

theorem digit_toInt8 {d : Nat} (h : d < 10) : d.digitChar.toUInt8.toInt8.toInt = d + 48 := by
  interval_cases d <;> rfl

theorem digitStep_digit {acc d : Nat} (hd : d < 10) :
    digitStep acc d.digitChar.toUInt8 = (acc * 10 + d) % 2 ^ 64 := by
  rw [digitStep, digit_toInt8 hd]
  omega

/-- The reader keeps the printed number modulo the word size. -/
theorem readDecimal_decimal_mod (n : Nat) : readDecimal (decimal n) = n % 2 ^ 64 := by
  induction n using Nat.strongRecOn with
  | _ n ih =>
    by_cases hn : n < 10
    · rw [decimal, Nat.toDigits_of_lt_base hn]
      simp only [readDecimal, List.map_cons, List.map_nil, List.foldl_cons, List.foldl_nil]
      rw [digitStep_digit hn]
      omega
    · have hprev := ih (n / 10) (by omega)
      rw [decimal, Nat.toDigits_of_base_le (by decide) (by omega), readDecimal,
        List.map_append, List.foldl_append]
      simp only [List.map_cons, List.map_nil, List.foldl_cons, List.foldl_nil]
      rw [readDecimal, decimal] at hprev
      rw [hprev, digitStep_digit (Nat.mod_lt _ (by decide))]
      omega

/-- A 64-bit number survives printing and reading. -/
theorem readDecimal_decimal {n : Nat} (h : n < 2 ^ 64) : readDecimal (decimal n) = n := by
  rw [readDecimal_decimal_mod, Nat.mod_eq_of_lt h]

theorem decimal_of_lt {n : Nat} (h : n < 10) : decimal n = [n.digitChar.toUInt8] := by
  rw [decimal, Nat.toDigits_of_lt_base h]
  rfl

theorem decimal_of_le {n : Nat} (h : 10 ≤ n) :
    decimal n = decimal (n / 10) ++ [(n % 10).digitChar.toUInt8] := by
  rw [decimal, Nat.toDigits_of_base_le (by decide) h, List.map_append]
  rfl

theorem isDigit_digitChar {d : Nat} (h : d < 10) : IsDigit d.digitChar.toUInt8 := by
  interval_cases d <;> decide

theorem isDigit_decimal (n : Nat) : ∀ c ∈ decimal n, IsDigit c := by
  induction n using Nat.strongRecOn with
  | _ n ih =>
    rcases Nat.lt_or_ge n 10 with hn | hn
    · rw [decimal_of_lt hn]
      simpa using isDigit_digitChar hn
    · rw [decimal_of_le hn]
      refine List.forall_mem_append.mpr ⟨ih (n / 10) (by omega), ?_⟩
      simpa using isDigit_digitChar (Nat.mod_lt n (by decide : 0 < 10))

theorem decimal_ne_nil (n : Nat) : decimal n ≠ [] := by
  rw [decimal, ne_eq, List.map_eq_nil_iff]
  exact Nat.toDigits_ne_nil

/-- A numeral has no leading zero. -/
theorem head?_decimal {n : Nat} (h : 0 < n) : (decimal n).head? ≠ some (ch '0') := by
  induction n using Nat.strongRecOn with
  | _ n ih =>
    rcases Nat.lt_or_ge n 10 with hn | hn
    · rw [decimal_of_lt hn]
      interval_cases n <;> decide
    · rw [decimal_of_le hn, List.head?_append_of_ne_nil _ (decimal_ne_nil _)]
      exact ih (n / 10) (by omega) (by omega)

theorem value_concat (t : Text) (c : Byte) : value (t ++ [c]) = value t * 10 + (c.toNat - 48) := by
  simp [value, List.foldl_append]

theorem digit_toNat {d : Nat} (h : d < 10) : d.digitChar.toUInt8.toNat - 48 = d := by
  interval_cases d <;> rfl

/-- A numeral stands for the number it was printed from. -/
theorem value_decimal (n : Nat) : value (decimal n) = n := by
  induction n using Nat.strongRecOn with
  | _ n ih =>
    rcases Nat.lt_or_ge n 10 with hn | hn
    · rw [decimal_of_lt hn, ← List.nil_append [_], value_concat, digit_toNat hn]
      simp [value]
    · rw [decimal_of_le hn, value_concat, ih (n / 10) (by omega),
        digit_toNat (Nat.mod_lt n (by decide))]
      omega

theorem decimal_injective {a b : Nat} (ha : a < 2 ^ 64) (hb : b < 2 ^ 64)
    (h : decimal a = decimal b) : a = b := by
  rw [← readDecimal_decimal ha, h, readDecimal_decimal hb]

end Decimal
