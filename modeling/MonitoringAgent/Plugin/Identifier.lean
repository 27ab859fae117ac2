import MonitoringAgent.Lib.Cube
import MonitoringAgent.Plugin

/-!
# Generated identifiers

`plugin_regr` and `get_aid` make up an identifier as the product of three readings of the
clock, in 64 bits. With all three in one millisecond it is a cube, and of a reading with
factors of two some bits are lost.
-/
namespace MonitoringAgent

open Buffer Decimal Packet Cube

/-- `epoch_time` on the fields of the `timespec`. -/
def epochTime (tvSec tvNsec : UInt64) : Epoch := tvSec * 1000 + tvNsec / 1000000

/-- `get_aid`, given what `fscanf` finds in `.aid` and whether the file can be written: the
aid, what is written, and success. -/
def getAid (found : Option UInt64) (writable : Bool) (clock : TidClock) :
    UInt64 × Option Text × Bool :=
  match found with
  | some aid => (aid, none, true)
  | none =>
    let aid := clock.tid
    if writable then (aid, some (decimal aid.toNat ++ str "\n"), true) else (aid, none, false)

/-- All three calls of `epoch_time` read the millisecond `t`. -/
def TidClock.still (t : Epoch) : TidClock := ⟨t, t, t⟩

/-- The identifier made up at the millisecond `t`. -/
def generated (t : Epoch) : UInt64 := (TidClock.still t).tid

variable {t u : Epoch} {m : Meta} {p : Plugin} {clock : TidClock}

theorem pluginRegrPacket_generated (hoob : p.oob = none) (htid : p.tid = 0) (t : Epoch) :
    (pluginRegrPacket m p (.still t)).1.tid = generated t := by
  rw [pluginRegrPacket, hoob]
  simp only [htid, if_true]
  rfl

theorem getAid_generated (writable : Bool) (t : Epoch) :
    (getAid none writable (.still t)).1 = generated t := by
  cases writable <;> rfl

theorem toNat_generated (t : Epoch) : (generated t).toNat = t.toNat ^ 3 % 2 ^ 64 := by
  have hcube : t.toNat ^ 3 = t.toNat * t.toNat * t.toNat := by rw [pow_succ, pow_two]
  rw [hcube, generated, TidClock.tid, UInt64.toNat_mul, UInt64.toNat_mul]
  exact (Nat.mod_modEq _ _).mul_right _

theorem generated_eq_zero_iff : generated t = 0 ↔ 2 ^ 22 ∣ t.toNat := by
  have hiff : 2 ^ 64 ∣ t.toNat ^ 3 ↔ 2 ^ 22 ∣ t.toNat := two_pow_dvd_cube_iff
  rw [← hiff, ← UInt64.toNat_inj, toNat_generated, Nat.dvd_iff_mod_eq_zero]
  rfl

/-- Made up at a multiple of 2^22 ms, a tid is taken for none and replaced. -/
theorem generated_replaced (h : 2 ^ 22 ∣ t.toNat) (hoob : p.oob = none)
    (htid : p.tid = generated t) : (pluginRegrPacket m p clock).1.tid = clock.tid := by
  rw [pluginRegrPacket, hoob]
  simp only [htid, generated_eq_zero_iff.mpr h, if_true]

theorem generated_eq_iff (ht : ¬ 2 ^ 22 ∣ t.toNat) : generated t = generated u ↔
    ∃ a < 22, 2 ^ a ∣ t.toNat ∧ t.toNat ≡ u.toNat [MOD 2 ^ (64 - 2 * a)] := by
  have hpos : ¬ 2 ^ 64 ∣ t.toNat ^ 3 := by
    rw [two_pow_dvd_cube_iff]
    exact ht
  rw [← UInt64.toNat_inj, toNat_generated, toNat_generated]
  refine (cube_modEq_iff hpos).trans (exists_congr fun a => ?_)
  rw [show 3 * a < 64 ↔ a < 22 by omega]

/-- Two readings whose identifiers do not get in each other's way: neither is a multiple of
2^22, and they do not differ by less than the factors of two in them make up for. -/
def Separate (t u : Epoch) : Prop :=
  ¬ 2 ^ 22 ∣ t.toNat ∧ ¬ 2 ^ 22 ∣ u.toNat ∧
    ∀ a < 22, 2 ^ a ∣ t.toNat → ¬ t.toNat ≡ u.toNat [MOD 2 ^ (64 - 2 * a)]

instance decidableSeparate (t u : Epoch) : Decidable (Separate t u) :=
  inferInstanceAs (Decidable (_ ∧ _ ∧ _))

/-- The identifiers of two readings differ from each other and from 0 exactly if the
readings are separate. -/
theorem identifiers_distinct_iff (t u : Epoch) :
    (generated t ≠ generated u ∧ generated t ≠ 0 ∧ generated u ≠ 0) ↔ Separate t u := by
  rw [Ne, Ne, Ne, generated_eq_zero_iff, generated_eq_zero_iff]
  constructor
  · rintro ⟨hne, ht, hu⟩
    refine ⟨ht, hu, fun a ha hdvd hmod => hne ?_⟩
    exact (generated_eq_iff ht).mpr ⟨a, ha, hdvd, hmod⟩
  · rintro ⟨ht, hu, hmod⟩
    refine ⟨fun he => ?_, ht, hu⟩
    obtain ⟨a, ha, hdvd, hmod'⟩ := (generated_eq_iff ht).mp he
    exact hmod a ha hdvd hmod'

example : Separate 1702887424001 1702887424002 := by decide

/-- 18 December 2023 has a millisecond whose identifier is 0, and two more, over an hour
apart, with the same identifier. -/
theorem identifiers_clash :
    generated (epochTime 1702887424 0) = 0 ∧
      generated (epochTime 1702889521 152000000) = generated (epochTime 1702893715 456000000) ∧
      ¬ ∀ t u : Epoch, 1 ≤ t.toNat → t.toNat ≤ 2 ^ 42 → 1 ≤ u.toNat → u.toNat ≤ 2 ^ 42 → t ≠ u →
        generated t ≠ generated u ∧ generated t ≠ 0 ∧ generated u ≠ 0 := by
  have hzero : generated (epochTime 1702887424 0) = 0 := by decide
  refine ⟨hzero, by decide, fun h => ?_⟩
  obtain ⟨-, hne, -⟩ := h (epochTime 1702887424 0) 1 (by decide) (by decide) (by decide)
    (by decide) (by decide)
  exact hne hzero

/-- Up to 2^42 ms, only multiples of 4096 can have the same identifier. -/
theorem separate_of_not_dvd (ht : t.toNat ≤ 2 ^ 42) (hu : u.toNat ≤ 2 ^ 42) (hne : t ≠ u)
    (htdvd : ¬ 2 ^ 12 ∣ t.toNat) (hudvd : ¬ 2 ^ 22 ∣ u.toNat) : Separate t u := by
  refine ⟨fun h => htdvd (dvd_trans (by decide) h), hudvd, fun a _ hdvd hmod => hne ?_⟩
  have ha : a < 12 := by
    by_contra hle
    exact htdvd ((pow_dvd_pow 2 (by omega)).trans hdvd)
  have hmod' : t.toNat ≡ u.toNat [MOD 2 ^ 42] := hmod.of_dvd (pow_dvd_pow 2 (by omega))
  rw [Nat.ModEq] at hmod'
  rw [← UInt64.toNat_inj]
  omega

end MonitoringAgent
