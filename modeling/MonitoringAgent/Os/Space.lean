import MonitoringAgent.Os.WellFormed

/-!
# Sizes and totals of the devices

Whether the rows of `_os_gather_disk` agree with each other and with `io_tot`, for any mix of
lookups that fail.
-/
namespace MonitoringAgent

open Buffer

/-- The counts are ordered as POSIX has them, and the products fit. -/
structure Vfs.Counted (v : Vfs) : Prop where
  bavail_le : v.bavail.toNat ≤ v.bfree.toNat
  bfree_le : v.bfree.toNat ≤ v.blocks.toNat
  blocks_lt : v.blocks.toNat * v.frsize.toNat < 2 ^ 64
  bfree_lt : v.bfree.toNat * v.bsize.toNat < 2 ^ 64

/-- The free blocks, counted in `f_bsize`, are less than a kilobyte above the blocks, counted
in `f_frsize` and in whole kilobytes. -/
def Vfs.Fits (v : Vfs) : Prop :=
  v.bfree.toNat * v.bsize.toNat < (v.blocks.toNat * v.frsize.toNat / 1024 + 1) * 1024

/-- What the two counters hold of a device that takes a slot though its numbers are not
scanned. -/
def Mount.unread (m : Mount) : Option UInt64 :=
  match m.vfs, m.sectorSize, m.stat with
  | some _, some _, some (stat, false) => some (stat.r + stat.w)
  | _, _, _ => none

/-- The sum that the section prints behind the arrays. -/
def ioTot (found : List (Dev × UInt64)) : UInt64 := (found.map Prod.snd).foldl (· + ·) 0

/-- The rows that are printed agree with each other and with `io_tot`. -/
def Consistent (mounts : Mounts) : Prop :=
  let found := devs (some mounts)
  (∀ d ∈ found, d.1.avail ≤ d.1.free ∧ d.1.free ≤ d.1.tot) ∧
    (ioTot found).toNat =
      (found.map fun d => d.1.stat.r.toNat + d.1.stat.w.toNat).sum % 2 ^ 64

variable {m : Mount} {ms : List Mount} {v : Vfs} {d : Dev × UInt64}

/-- A file system with one block size for all counts. -/
theorem Vfs.Counted.fits_of_le (h : v.Counted) (hsize : v.bsize.toNat ≤ v.frsize.toNat) :
    v.Fits := by
  have hle : v.bfree.toNat * v.bsize.toNat ≤ v.blocks.toNat * v.frsize.toNat :=
    Nat.mul_le_mul h.bfree_le hsize
  unfold Vfs.Fits
  omega

/-- Bytes in whole kilobytes. -/
theorem toNat_kilobytes {n size : UInt64} (h : n.toNat * size.toNat < 2 ^ 64) :
    (n * size / bpkb).toNat = n.toNat * size.toNat / 1024 := by
  rw [UInt64.toNat_div, UInt64.toNat_mul, Nat.mod_eq_of_lt h]
  rfl

/-- A turn that takes a slot has a file system, and its share of `io_tot` is what it prints
or nothing. -/
theorem Mount.dev_eq_some (h : m.dev = some d) :
    ∃ v, m.vfs = some v ∧ d.1.tot = v.blocks * v.frsize / bpkb ∧
      d.1.free = v.bfree * v.bsize / bpkb ∧ d.1.avail = v.bavail * v.bsize / bpkb ∧
      d.2 + m.unread.getD 0 = d.1.stat.r + d.1.stat.w := by
  unfold Mount.dev at h
  simp only [Option.bind_eq_bind, Option.bind_eq_some_iff] at h
  obtain ⟨v, hv, size, hsize, ⟨stat, scanned⟩, hstat, hd⟩ := h
  cases hd
  refine ⟨v, hv, rfl, rfl, rfl, ?_⟩
  unfold Mount.unread
  rw [hv, hsize, hstat]
  cases scanned
  · simp
  · simp

theorem Mount.unread_of_dev (h : m.dev = none) : m.unread = none := by
  unfold Mount.dev at h
  unfold Mount.unread
  rcases hv : m.vfs with - | v
  · rfl
  rcases hsize : m.sectorSize with - | size
  · rfl
  rcases hstat : m.stat with - | ⟨stat, scanned⟩
  · rfl
  simp [hv, hsize, hstat] at h

/-- A row is in order exactly if its free blocks fit. -/
theorem dev_sizes_iff (h : m.dev = some d) (hv : m.vfs = some v) (hcount : v.Counted) :
    (d.1.avail ≤ d.1.free ∧ d.1.free ≤ d.1.tot) ↔ v.Fits := by
  obtain ⟨v', hv', htot, hfree, havail, -⟩ := Mount.dev_eq_some h
  obtain rfl := Option.some.inj (hv.symm.trans hv')
  have hbavail : v.bavail.toNat * v.bsize.toNat ≤ v.bfree.toNat * v.bsize.toNat :=
    Nat.mul_le_mul_right _ hcount.bavail_le
  have htot := (congrArg UInt64.toNat htot).trans (toNat_kilobytes hcount.blocks_lt)
  have hfree := (congrArg UInt64.toNat hfree).trans (toNat_kilobytes hcount.bfree_lt)
  have havail := (congrArg UInt64.toNat havail).trans
    (toNat_kilobytes (hbavail.trans_lt hcount.bfree_lt))
  rw [UInt64.le_iff_toNat_le, UInt64.le_iff_toNat_le, htot, hfree, havail, Vfs.Fits]
  omega

/-- The shares and what is left out of them make up what is printed. -/
theorem io_rows (ms : List Mount) :
    (((ms.filterMap Mount.dev).map fun d => d.2.toNat).sum +
      ((ms.filterMap Mount.unread).map UInt64.toNat).sum) % 2 ^ 64 =
    ((ms.filterMap Mount.dev).map fun d => d.1.stat.r.toNat + d.1.stat.w.toNat).sum % 2 ^ 64 := by
  induction ms with
  | nil => rfl
  | cons m ms ih =>
    rw [List.filterMap_cons, List.filterMap_cons]
    cases hdev : m.dev with
    | none =>
      rw [Mount.unread_of_dev hdev]
      exact ih
    | some d =>
      obtain ⟨-, -, -, -, -, hio⟩ := Mount.dev_eq_some hdev
      have hio := congrArg UInt64.toNat hio
      rw [UInt64.toNat_add, UInt64.toNat_add] at hio
      cases hunread : m.unread with
      | none =>
        rw [hunread] at hio
        simp only [List.map_cons, List.sum_cons, Option.getD_none, UInt64.toNat_zero] at hio ⊢
        omega
      | some u =>
        rw [hunread] at hio
        simp only [List.map_cons, List.sum_cons, Option.getD_some] at hio ⊢
        omega

theorem ioTot_iff (ms : List Mount) :
    (ioTot (ms.filterMap Mount.dev)).toNat =
        ((ms.filterMap Mount.dev).map fun d => d.1.stat.r.toNat + d.1.stat.w.toNat).sum % 2 ^ 64 ↔
      ((ms.filterMap Mount.unread).map UInt64.toNat).sum % 2 ^ 64 = 0 := by
  have hio := io_rows ms
  have hshares : (((ms.filterMap Mount.dev).map Prod.snd).map UInt64.toNat) =
      (ms.filterMap Mount.dev).map fun d => d.2.toNat := List.map_map
  rw [ioTot, toNat_foldl_add, hshares]
  omega

/-- The rows are consistent exactly if the free blocks of each device that takes a slot fit,
and the counters that stay out of `io_tot` sum up to nothing. -/
theorem disk_consistent_iff (mounts : Mounts)
    (h : ∀ m ∈ mounts.list, ∀ v, m.vfs = some v → v.Counted) :
    Consistent mounts ↔
      (∀ m ∈ mounts.list, m.dev.isSome → ∀ v, m.vfs = some v → v.Fits) ∧
        ((mounts.list.filterMap Mount.unread).map UInt64.toNat).sum % 2 ^ 64 = 0 := by
  refine and_congr ?_ (ioTot_iff mounts.list)
  constructor
  · intro hrows m hm hdev v hv
    obtain ⟨d, hd⟩ := Option.isSome_iff_exists.mp hdev
    exact (dev_sizes_iff hd hv (h m hm v hv)).mp (hrows d (List.mem_filterMap.mpr ⟨m, hm, hd⟩))
  · intro hfits d hd
    obtain ⟨m, hm, hdev⟩ := List.mem_filterMap.mp hd
    obtain ⟨v, hv, -⟩ := Mount.dev_eq_some hdev
    exact (dev_sizes_iff hdev hv (h m hm v hv)).mpr (hfits m hm (by rw [hdev]; rfl) v hv)

/-- A file system of 1000 blocks of a kilobyte, of which 900 are free. -/
def Mounts.sample (bsize : UInt64) (scanned : Bool) : Mounts where
  list := [{
    name := ⟨str "sda", by decide⟩
    num := 1
    mount := ⟨str "/", by decide⟩
    vfs := some ⟨1000, 900, 800, bsize, 1024⟩
    sectorSize := some 512
    stat := some (⟨5, 4, 3, 2, 1, 0, 0⟩, scanned) }]
  free := by
    intro before line after h
    have hlen := congrArg List.length h
    have hle := List.length_filterMap_le Mount.dev before
    simp only [List.length_append, List.length_cons, List.length_nil] at hlen
    unfold bfsz
    omega

theorem counted_sample {bsize : UInt64} {scanned : Bool} (h : bsize.toNat ≤ 4096) :
    ∀ m ∈ (Mounts.sample bsize scanned).list, ∀ v, m.vfs = some v → v.Counted := by
  intro m hm v hv
  obtain rfl := List.mem_singleton.mp hm
  obtain rfl := Option.some.inj hv
  have hbavail : (800 : UInt64).toNat ≤ (900 : UInt64).toNat := by decide
  have hbfree : (900 : UInt64).toNat ≤ (1000 : UInt64).toNat := by decide
  have hblocks : (1000 : UInt64).toNat * (1024 : UInt64).toNat < 2 ^ 64 := by decide
  have hfree : (900 : UInt64).toNat * bsize.toNat ≤ 900 * 4096 := Nat.mul_le_mul_left 900 h
  exact ⟨hbavail, hbfree, hblocks, hfree.trans_lt (by decide)⟩

theorem disk_consistent_sample : Consistent (.sample 1024 true) := by
  refine (disk_consistent_iff (.sample 1024 true) (counted_sample (by decide))).mpr ⟨?_, rfl⟩
  intro m hm _ v hv
  have hcount := counted_sample (by decide) m hm v hv
  obtain rfl := List.mem_singleton.mp hm
  obtain rfl := Option.some.inj hv
  exact hcount.fits_of_le le_rfl

/-- Free blocks of four kilobytes make more than the whole file system, and counters that are
not scanned are printed but not added up. -/
theorem disk_inconsistent :
    ((∀ m ∈ (Mounts.sample 4096 true).list, ∀ v, m.vfs = some v → v.Counted) ∧
      ¬ Consistent (.sample 4096 true)) ∧
    (∀ m ∈ (Mounts.sample 1024 false).list, ∀ v, m.vfs = some v → v.Counted) ∧
      ¬ Consistent (.sample 1024 false) := by
  refine ⟨⟨counted_sample (by decide), ?_⟩, counted_sample (by decide), ?_⟩
  · rintro ⟨hrows, -⟩
    have hrow := (hrows _ List.mem_cons_self).2
    revert hrow
    decide
  · rintro ⟨-, hio⟩
    revert hio
    decide

end MonitoringAgent
