import MonitoringAgent.Lib.Buffer
import Mathlib.Tactic.NormNum

/-! 32-bit integers stored in little-endian order. -/
namespace Word

open Buffer

/-- The four bytes of an `int`. -/
def le32 (n : Nat) : Text :=
  [UInt8.ofNat n, UInt8.ofNat (n / 2 ^ 8), UInt8.ofNat (n / 2 ^ 16), UInt8.ofNat (n / 2 ^ 24)]

/-- The `int` four bytes stand for. -/
def toInt32 (a b c d : Byte) : Int :=
  (a.toNat + b.toNat * 2 ^ 8 + c.toNat * 2 ^ 16 + d.toNat * 2 ^ 24 : Int).bmod (2 ^ 32)

/-- Read an `int` from the front of a stream. -/
def readInt32 : Text → Option (Int × Text)
  | a :: b :: c :: d :: rest => some (toInt32 a b c d, rest)
  | _ => none

@[simp] theorem length_le32 (n : Nat) : (le32 n).length = 4 := rfl

theorem toInt32_bytes {n : Nat} (h : n < 2 ^ 31) :
    toInt32 (UInt8.ofNat n) (UInt8.ofNat (n / 2 ^ 8)) (UInt8.ofNat (n / 2 ^ 16))
      (UInt8.ofNat (n / 2 ^ 24)) = n := by
  have hsum : n % 2 ^ 8 + n / 2 ^ 8 % 2 ^ 8 * 2 ^ 8 + n / 2 ^ 16 % 2 ^ 8 * 2 ^ 16
      + n / 2 ^ 24 % 2 ^ 8 * 2 ^ 24 = n := by omega
  have hint : ((n % 2 ^ 8 : Nat) : Int) + (n / 2 ^ 8 % 2 ^ 8 : Nat) * 2 ^ 8
      + (n / 2 ^ 16 % 2 ^ 8 : Nat) * 2 ^ 16 + (n / 2 ^ 24 % 2 ^ 8 : Nat) * 2 ^ 24 = n := by
    exact_mod_cast hsum
  unfold toInt32
  rw [UInt8.toNat_ofNat', UInt8.toNat_ofNat', UInt8.toNat_ofNat', UInt8.toNat_ofNat', hint]
  exact Int.bmod_eq_of_le (by omega) (by omega)

/-- A non-negative `int` survives storing and reading. -/
theorem readInt32_le32 {n : Nat} (h : n < 2 ^ 31) (rest : Text) :
    readInt32 (le32 n ++ rest) = some ((n : Int), rest) := by
  simp only [le32, List.cons_append, List.nil_append, readInt32, toInt32_bytes h]

/-- The bytes of a non-negative `int` that is read. -/
theorem le32_of_toInt32 {a b c d : Byte} (h : 0 ≤ toInt32 a b c d) :
    le32 (toInt32 a b c d).toNat = [a, b, c, d] := by
  have ha := a.toNat_lt
  have hb := b.toNat_lt
  have hc := c.toNat_lt
  have hd := d.toNat_lt
  have hn : (toInt32 a b c d).toNat =
      a.toNat + b.toNat * 2 ^ 8 + c.toNat * 2 ^ 16 + d.toNat * 2 ^ 24 := by
    unfold toInt32 at h ⊢
    rw [Int.bmod_def] at h ⊢
    split at h
    · next hlt =>
      rw [if_pos hlt]
      omega
    · omega
  generalize (toInt32 a b c d).toNat = n at hn
  have h₁ : UInt8.ofNat n = a := by
    rw [← UInt8.toNat_inj, UInt8.toNat_ofNat']
    omega
  have h₂ : UInt8.ofNat (n / 2 ^ 8) = b := by
    rw [← UInt8.toNat_inj, UInt8.toNat_ofNat']
    omega
  have h₃ : UInt8.ofNat (n / 2 ^ 16) = c := by
    rw [← UInt8.toNat_inj, UInt8.toNat_ofNat']
    omega
  have h₄ : UInt8.ofNat (n / 2 ^ 24) = d := by
    rw [← UInt8.toNat_inj, UInt8.toNat_ofNat']
    omega
  rw [le32, h₁, h₂, h₃, h₄]

theorem readInt32_eq_some {t rest : Text} {n : Int} (h : readInt32 t = some (n, rest))
    (hn : 0 ≤ n) : t = le32 n.toNat ++ rest ∧ n.toNat < 2 ^ 31 := by
  unfold readInt32 at h
  split at h
  · next a b c d u =>
    obtain ⟨rfl, rfl⟩ := Prod.mk.inj (Option.some.inj h)
    refine ⟨by rw [le32_of_toInt32 hn]; rfl, ?_⟩
    have hlt : toInt32 a b c d < 2 ^ 31 := by
      have := Int.bmod_lt (x := (a.toNat + b.toNat * 2 ^ 8 + c.toNat * 2 ^ 16 +
        d.toNat * 2 ^ 24 : Int)) (m := 2 ^ 32) (by decide)
      exact this
    omega
  · cases h

end Word
