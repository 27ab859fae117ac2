import Mathlib.Data.Nat.ModEq
import Mathlib.Data.Nat.Prime.Int
import Mathlib.RingTheory.Int.Basic
import Mathlib.Tactic.Ring
import Mathlib.Data.Nat.Factorization.Basic

/-! Cubes modulo a power of two. On odd numbers cubing loses nothing; of a number with `a`
factors of two the top `2 * a` bits are lost. -/
namespace Cube

variable {k a m t u : Nat} {x y : ℤ}

theorem two_pow_dvd_mul_odd (hy : Odd y) : 2 ^ k ∣ x * y ↔ 2 ^ k ∣ x := by
  constructor
  · exact (Int.isCoprime_two_left.mpr hy).pow_left.dvd_of_dvd_mul_right
  · exact fun h => h.mul_right y

theorem two_pow_dvd_two_pow_mul_odd {n : Nat} (hn : Odd n) : 2 ^ m ∣ 2 ^ a * n ↔ m ≤ a := by
  constructor
  · intro h
    have hcoprime : Nat.Coprime (2 ^ m) n := (Nat.coprime_two_left.mpr hn).pow_left m
    exact (Nat.pow_dvd_pow_iff_le_right (by omega)).mp (hcoprime.dvd_of_dvd_mul_right h)
  · intro h
    exact (pow_dvd_pow 2 h).mul_right n

theorem cube_eq {n : Nat} (ht : t = 2 ^ a * n) : t ^ 3 = 2 ^ (3 * a) * n ^ 3 := by
  rw [ht, mul_pow, ← pow_mul, mul_comm a 3]

/-- When a cube vanishes. -/
theorem two_pow_dvd_cube_iff : 2 ^ k ∣ t ^ 3 ↔ 2 ^ ((k + 2) / 3) ∣ t := by
  rcases Nat.eq_zero_or_pos t with rfl | ht
  · simp
  · obtain ⟨a, n, hn, rfl⟩ := Nat.exists_eq_two_pow_mul_odd ht.ne'
    rw [cube_eq rfl, two_pow_dvd_two_pow_mul_odd hn.pow, two_pow_dvd_two_pow_mul_odd hn]
    omega

theorem cube_sub (x y : ℤ) (a : Nat) : (2 ^ a * x) ^ 3 - (2 ^ a * y) ^ 3 =
    2 ^ (2 * a) * (2 ^ a * x - 2 ^ a * y) * (x ^ 2 + x * y + y ^ 2) := by
  rw [mul_comm 2 a, pow_mul]
  ring

theorem odd_cofactor (hx : Odd x) (hy : Odd y) : Odd (x ^ 2 + x * y + y ^ 2) :=
  (hx.pow.add_odd (hx.mul hy)).add_odd hy.pow

/-- A difference that the factors of two make up for is lost in the cubes. -/
theorem cube_modEq (ha : 3 * a ≤ k) (ht : 2 ^ a ∣ t) (h : t ≡ u [MOD 2 ^ (k - 2 * a)]) :
    t ^ 3 ≡ u ^ 3 [MOD 2 ^ k] := by
  have hu : 2 ^ a ∣ u := ((h.of_dvd (pow_dvd_pow 2 (by omega))).dvd_iff dvd_rfl).mp ht
  obtain ⟨x, rfl⟩ := ht
  obtain ⟨y, rfl⟩ := hu
  rw [Nat.modEq_iff_dvd] at h ⊢
  push_cast at h ⊢
  rw [cube_sub]
  refine Dvd.dvd.mul_right ?_ _
  have hsplit : (2 : ℤ) ^ k = 2 ^ (2 * a) * 2 ^ (k - 2 * a) := by
    rw [← pow_add, show 2 * a + (k - 2 * a) = k by omega]
  rw [hsplit]
  exact mul_dvd_mul_left _ h

/-- Cubes that do not vanish agree exactly where the numbers differ by that much. -/
theorem cube_modEq_iff (hpos : ¬ 2 ^ k ∣ t ^ 3) :
    t ^ 3 ≡ u ^ 3 [MOD 2 ^ k] ↔ ∃ a, 3 * a < k ∧ 2 ^ a ∣ t ∧ t ≡ u [MOD 2 ^ (k - 2 * a)] := by
  constructor
  · intro h
    have ht : t ≠ 0 := by
      rintro rfl
      exact hpos (by simp)
    have hu : u ≠ 0 := by
      rintro rfl
      exact hpos ((h.dvd_iff dvd_rfl).mpr (by simp))
    obtain ⟨a, x, hx, rfl⟩ := Nat.exists_eq_two_pow_mul_odd ht
    obtain ⟨b, y, hy, rfl⟩ := Nat.exists_eq_two_pow_mul_odd hu
    have hdvd (m : Nat) (hm : m ≤ k) : m ≤ 3 * a ↔ m ≤ 3 * b := by
      have hiff := (h.of_dvd (pow_dvd_pow 2 hm)).dvd_iff dvd_rfl
      rwa [cube_eq rfl, cube_eq rfl, two_pow_dvd_two_pow_mul_odd hx.pow,
        two_pow_dvd_two_pow_mul_odd hy.pow] at hiff
    have ha : 3 * a < k := by
      rw [cube_eq rfl, two_pow_dvd_two_pow_mul_odd hx.pow] at hpos
      omega
    -- the power of two in `u` is the one in `t`
    obtain rfl : a = b := by
      have h₁ := hdvd (3 * a) ha.le
      have h₂ := hdvd (3 * a + 1) ha
      omega
    refine ⟨a, ha, dvd_mul_right _ _, ?_⟩
    rw [Nat.modEq_iff_dvd] at h ⊢
    push_cast at h ⊢
    rw [cube_sub, two_pow_dvd_mul_odd (odd_cofactor (by exact_mod_cast hy) (by exact_mod_cast hx)),
      show (2 : ℤ) ^ k = 2 ^ (2 * a) * 2 ^ (k - 2 * a) by
        rw [← pow_add, show 2 * a + (k - 2 * a) = k by omega]] at h
    exact (mul_dvd_mul_iff_left (by positivity)).mp h
  · rintro ⟨a, ha, ht, h⟩
    exact cube_modEq ha.le ht h

end Cube
