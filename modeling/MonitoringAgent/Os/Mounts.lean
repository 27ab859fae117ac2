import MonitoringAgent.Os.Disk

/-!
# Listings that are gathered right

A line that the scan does not expect spoils the lines after it: its name runs on into the
next line, or the loop ends there.
-/
namespace MonitoringAgent

open Buffer Decimal Format Json Scan

variable {L : DiskLookups} {k : Nat} {t rest : Text} {l : MountLine}

/-! ## What is asked of the section -/

/-- A line `/dev/<dev> <mount>`. -/
structure MountEntry where
  dev : Text
  mount : Text
  dev_plain : ∀ c ∈ dev, isSpace c = false
  mount_plain : ∀ c ∈ mount, isSpace c = false

namespace MountEntry

def text (e : MountEntry) : Text :=
  str "/dev/" ++ (e.dev ++ (str " " ++ (e.mount ++ str "\n")))

/-- The device name up to its first digit. -/
def name (e : MountEntry) : Text := e.dev.takeWhile fun c => ¬ IsDigit c

def digits (e : MountEntry) : Text := e.dev.dropWhile fun c => ¬ IsDigit c

/-- A name without digits and a decimal number below 65536. -/
def Numbered (e : MountEntry) : Prop :=
  e.name ≠ [] ∧ e.digits ≠ [] ∧ (∀ c ∈ e.digits, IsDigit c) ∧ value e.digits < 65536

instance (e : MountEntry) : Decidable e.Numbered :=
  inferInstanceAs (Decidable (_ ∧ _ ∧ _ ∧ _))

/-- The row that a numbered line yields when its three lookups succeed. -/
def row (L : DiskLookups) (start : Text) (e : MountEntry) : Option DiskRow :=
  if e.Numbered then do
    let vfs ← L.statvfs e.mount
    let size ← L.sectorSize (blockSizePath e.name)
    let stat ← (L.diskstats (diskstatsCommand e.name (value e.digits))).join
    return {
      start := start
      name := e.name
      num := value e.digits
      mount := e.mount
      tot := vfs.blocks * vfs.frsize / bpkb
      free := vfs.bfree * vfs.bsize / bpkb
      avail := vfs.bavail * vfs.bsize / bpkb
      stat := { stat with rkb := stat.rkb * size / bpkb, wkb := stat.wkb * size / bpkb } }
  else none

/-- What the pipe delivers. -/
def listing (es : List MountEntry) : Text := es.flatMap text

/-- One row for each numbered line whose lookups succeed, scanned from that line. -/
def rows (L : DiskLookups) : List MountEntry → List DiskRow
  | [] => []
  | e :: es => (e.row L (listing (e :: es))).toList ++ rows L es

/-- The section stores inside of its arrays, fills these rows and no other ones, each at its
line, and prints them. -/
def Gathered (L : DiskLookups) (es : List MountEntry) : Prop :=
  diskRows L 0 (listing es) = some (rows L es) ∧
    ∃ o ioTot, osGatherDiskPipe L (some (listing es)) = some o ∧
      ∀ last, o.gatherer.emit last =
        (commas (Tree.printMembers (DiskRow.members (rows L es) ioTot)),
          if rows L es = [] then .enodata else .enone)

/-! ## When it does so -/

/-- A numbered line whose name and mount point fit, and the mount point is not empty. -/
def Sound (e : MountEntry) : Prop :=
  e.Numbered ∧ e.name.length < bfsz ∧ e.mount ≠ [] ∧ e.mount.length < bfsz

instance (e : MountEntry) : Decidable e.Sound :=
  inferInstanceAs (Decidable (_ ∧ _ ∧ _ ∧ _))

/-- The lookups go so far that the line takes a slot. -/
def Takes (L : DiskLookups) (e : MountEntry) : Prop :=
  (L.statvfs e.mount).isSome ∧ (L.sectorSize (blockSizePath e.name)).isSome ∧
    (L.diskstats (diskstatsCommand e.name (value e.digits))).isSome

instance (L : DiskLookups) (e : MountEntry) : Decidable (e.Takes L) :=
  inferInstanceAs (Decidable (_ ∧ _ ∧ _))

/-- The command does not come back without the seven numbers. -/
def Reads (L : DiskLookups) (e : MountEntry) : Prop :=
  L.diskstats (diskstatsCommand e.name (value e.digits)) ≠ some none

/-- A numbered line whose lookups succeed. -/
def Wanted (L : DiskLookups) (e : MountEntry) : Prop := e.Numbered ∧ e.Takes L ∧ e.Reads L

/-- From slot `k` on, with `t` in the pipe, in which the lines `es` begin: what is scanned is
a sound line that finds its slot and is read if it takes it, or the lookups give it up, and
no line that is wanted is passed over or left when the scan fails. -/
inductive Kept (L : DiskLookups) : Nat → Text → List MountEntry → Prop
  | stop {k : Nat} {t : Text} {es : List MountEntry} (hscan : scanMount k t = .stop)
      (hleft : ∀ e ∈ es, ¬ e.Wanted L) : Kept L k t es
  | sound {k : Nat} {e : MountEntry} {es : List MountEntry} (hsound : e.Sound) (hk : k < bfsz)
      (hread : e.Takes L → e.Reads L)
      (hrest : Kept L (if e.Takes L then k + 1 else k) (listing es) es) :
      Kept L k (listing (e :: es)) (e :: es)
  | givenUp {k : Nat} {t rest : Text} {l : MountLine} {passed es : List MountEntry}
      (hscan : scanMount k t = .line l rest) (hdev : (l.lookUp L k).dev = none)
      (hpassed : ∀ e ∈ passed, ¬ e.Wanted L) (hrest : Kept L k rest es) :
      Kept L k t (passed ++ es)

/-- Sound lines that each find a slot free after the `k` that are taken, and are read if they
take it, up to a line where the scan fails and after which none is wanted. -/
def Orderly (L : DiskLookups) : Nat → List MountEntry → Prop
  | _, [] => True
  | k, e :: es =>
    if e.Sound then
      k < bfsz ∧ (e.Takes L → e.Reads L) ∧ Orderly L (if e.Takes L then k + 1 else k) es
    else scanMount k (listing (e :: es)) = .stop ∧ ∀ e' ∈ e :: es, ¬ e'.Wanted L

variable {e : MountEntry} {es : List MountEntry}

/-- The row of a line is made of the line. -/
theorem of_row_eq_some {r : DiskRow} (h : e.row L t = some r) :
    e.Numbered ∧ r.start = t ∧ r.name = e.name ∧ r.mount = e.mount := by
  unfold row at h
  split at h
  · next hnum =>
    simp only [Option.bind_eq_bind, Option.bind_eq_some_iff] at h
    obtain ⟨vfs, -, size, -, stat, -, hr⟩ := h
    cases hr
    exact ⟨hnum, rfl, rfl, rfl⟩
  · cases h

theorem start_row {r : DiskRow} (h : e.row L t = some r) : r.start = t := (of_row_eq_some h).2.1

theorem length_text (e : MountEntry) : 0 < e.text.length := by
  simp [text, str]

theorem length_listing (e : MountEntry) (es : List MountEntry) :
    (listing es).length < (listing (e :: es)).length := by
  have hpos := e.length_text
  rw [listing, listing, List.flatMap_cons, List.length_append]
  omega

/-- The place of a row is in what is left of the listing. -/
theorem start_rows : ∀ r ∈ rows L es, r.start.length ≤ (listing es).length := by
  induction es with
  | nil => exact List.forall_mem_nil _
  | cons e es ih =>
    intro r hr
    rcases List.mem_append.mp hr with hr | hr
    · rw [start_row (Option.mem_toList.mp hr)]
    · exact (ih r hr).trans (length_listing e es).le

theorem stops_listing (es : List MountEntry) : Stops isSpace (listing es) := by
  cases es with
  | nil => exact stops_nil
  | cons e es => exact stops_cons (by decide)

/-! ## The scan of a sound line -/

/-- What is scanned of a sound line. -/
def Sound.line (h : e.Sound) : MountLine :=
  ⟨⟨e.name, h.2.1⟩, UInt16.ofNat (value e.digits), ⟨e.mount, h.2.2.2⟩⟩

theorem name_append_digits (e : MountEntry) : e.name ++ e.digits = e.dev :=
  List.takeWhile_append_dropWhile

theorem notDigit_name (e : MountEntry) : ∀ c ∈ e.name, decide (¬ IsDigit c) := by
  intro c hc
  exact List.mem_takeWhile_imp (p := fun c => decide (¬ IsDigit c)) hc

/-- The number of a numbered line as it is stored. -/
theorem Numbered.num (h : e.Numbered) :
    (signed [] e.digits).toUInt16 = UInt16.ofNat (value e.digits) := by
  obtain ⟨-, -, -, hlt⟩ := h
  rw [signed, if_neg (by omega), if_neg (by simp), ← UInt16.toNat_inj, UInt64.toNat_toUInt16,
    UInt64.toNat_ofNat', UInt16.toNat_ofNat']
  omega

/-- What follows the number. -/
def tail (e : MountEntry) (rest : Text) : Text := str " " ++ (e.mount ++ (str "\n" ++ rest))

theorem literal_text (e : MountEntry) (rest : Text) :
    literal (str "/dev/") (e.text ++ rest) = some (e.name ++ (e.digits ++ e.tail rest)) := by
  have htext : e.text ++ rest = str "/dev/" ++ (e.name ++ (e.digits ++ e.tail rest)) := by
    rw [text, ← name_append_digits e, tail]
    simp only [List.append_assoc]
  rw [htext]
  exact literal_append (by decide) _

theorem scanset_name (h : e.Sound) :
    scanset 128 (fun c => ¬ IsDigit c) (e.name ++ (e.digits ++ e.tail rest)) =
      some (e.name, e.digits ++ e.tail rest) := by
  obtain ⟨⟨hname, hdigits, hdigit, -⟩, hshort, -⟩ := h
  refine scanset_append hname (notDigit_name e) hshort.le ?_
  obtain ⟨c, ds, hds⟩ := List.exists_cons_of_ne_nil hdigits
  have hc := hdigit c (by rw [hds]; exact List.mem_cons_self)
  rw [hds]
  exact stops_cons (by simpa using hc)

/-- The mount point is the next word. -/
theorem scanset_mount (h : e.Sound) (rest : Text) :
    scanset 128 (fun c => ! isSpace c) ((e.tail rest).dropWhile isSpace) =
      some (e.mount, str "\n" ++ rest) := by
  obtain ⟨-, -, hmount, hshort⟩ := h
  obtain ⟨c, m, hm⟩ := List.exists_cons_of_ne_nil hmount
  have hblank : (e.tail rest).dropWhile isSpace = e.mount ++ (str "\n" ++ rest) := by
    refine dropWhile_append_stops (by decide) ?_
    rw [hm]
    exact stops_cons (e.mount_plain c (by rw [hm]; exact List.mem_cons_self))
  rw [hblank]
  refine scanset_append hmount ?_ hshort.le (stops_cons (by decide))
  intro c hc
  simp [e.mount_plain c hc]

/-- The name, the number and the mount point of a sound line are read off it. -/
theorem scanMount_sound (h : e.Sound) (hk : k < bfsz) (hrest : Stops isSpace rest) :
    scanMount k (e.text ++ rest) = .line h.line rest := by
  have hnum : unsigned (e.digits ++ e.tail rest) = some (signed [] e.digits, e.tail rest) :=
    unsigned_append (List.forall_mem_nil _) (Or.inl rfl) h.1.2.1 h.1.2.2.1
      (stops_cons (by decide))
  have hend : (str "\n" ++ rest).dropWhile isSpace = rest :=
    dropWhile_append_stops (by decide) hrest
  unfold scanMount
  rw [literal_text]
  dsimp only
  rw [scanset_name h]
  dsimp only
  rw [dif_pos ⟨hk, h.2.1⟩, hnum]
  dsimp only
  rw [scanset_mount h]
  dsimp only
  rw [dif_pos h.2.2.2, hend, h.1.num]
  rfl

/-! ## The row of a sound line -/

theorem Numbered.toNat_num (h : e.Numbered) :
    (UInt16.ofNat (value e.digits)).toNat = value e.digits := by
  rw [UInt16.toNat_ofNat']
  exact Nat.mod_eq_of_lt h.2.2.2

theorem isSome_dev_lookUp (h : e.Sound) :
    (h.line.lookUp L k).dev.isSome = true ↔ e.Takes L := by
  rw [Mount.isSome_dev]
  unfold MountLine.lookUp Sound.line Takes
  simp only [h.1.toNat_num, Option.isSome_map]

/-- The turn finds the row that the line yields, unless it takes a slot without numbers. -/
theorem row_lookUp (h : e.Sound) :
    ((h.line.lookUp L k).dev.map fun d => d.1.row t) = e.row L t ↔
      (e.Takes L → e.Reads L) := by
  have hnum := h.1.toNat_num
  unfold Mount.dev MountLine.lookUp Sound.line Takes Reads row
  rw [if_pos h.1]
  simp only [hnum]
  generalize diskstatsCommand e.name (value e.digits) = cmd
  generalize blockSizePath e.name = path
  rcases L.statvfs e.mount with - | vfs
  · exact iff_of_true rfl fun h => absurd h.1 Bool.false_ne_true
  rcases L.sectorSize path with - | size
  · exact iff_of_true rfl fun h => absurd h.2.1 Bool.false_ne_true
  rcases L.diskstats cmd with - | - | stat
  · exact iff_of_true rfl fun h => absurd h.2.2 Bool.false_ne_true
  · refine iff_of_false ?_ fun h => h ⟨rfl, rfl, rfl⟩ rfl
    rintro ⟨⟩
  · refine iff_of_true ?_ ?_
    · refine congrArg some ?_
      unfold Dev.row
      dsimp only
      rw [hnum]
      rfl
    · rintro - ⟨⟩

/-! ## Orderly listings -/

theorem row_eq_none : e.row L t = none ↔ ¬ e.Wanted L := by
  unfold row Wanted Takes Reads
  generalize diskstatsCommand e.name (value e.digits) = cmd
  generalize blockSizePath e.name = path
  by_cases hnum : e.Numbered
  · rw [if_pos hnum]
    rcases L.statvfs e.mount with - | vfs
    · exact iff_of_true rfl fun h => absurd h.2.1.1 Bool.false_ne_true
    rcases L.sectorSize path with - | size
    · exact iff_of_true rfl fun h => absurd h.2.1.2.1 Bool.false_ne_true
    rcases L.diskstats cmd with - | - | stat
    · exact iff_of_true rfl fun h => absurd h.2.1.2.2 Bool.false_ne_true
    · exact iff_of_true rfl fun h => h.2.2 rfl
    · refine iff_of_false ?_ fun h => h ⟨hnum, ⟨rfl, rfl, rfl⟩, ?_⟩
      · rintro ⟨⟩
      · rintro ⟨⟩
  · rw [if_neg hnum]
    exact iff_of_true rfl fun h => absurd h.1 hnum

theorem rows_eq_nil : rows L es = [] ↔ ∀ e ∈ es, ¬ e.Wanted L := by
  induction es with
  | nil => simp [rows]
  | cons e es ih =>
    rw [rows, List.append_eq_nil_iff, Option.toList_eq_nil_iff, row_eq_none, ih,
      List.forall_mem_cons]

/-- Lines that are not wanted have no rows. -/
theorem rows_append {passed : List MountEntry} (h : ∀ e ∈ passed, ¬ e.Wanted L) :
    rows L (passed ++ es) = rows L es := by
  induction passed with
  | nil => rfl
  | cons e passed ih =>
    obtain ⟨he, hpassed⟩ := List.forall_mem_cons.mp h
    rw [List.cons_append, rows, row_eq_none.mpr he, ih hpassed]
    rfl

/-- The lines whose rows all come from the last `n` bytes, without those that begin earlier. -/
theorem exists_passed {n : Nat} (h : ∀ r ∈ rows L es, r.start.length ≤ n) :
    ∃ passed left, es = passed ++ left ∧ (∀ e ∈ passed, ¬ e.Wanted L) ∧
      (listing left).length ≤ n := by
  induction es with
  | nil => exact ⟨[], [], rfl, List.forall_mem_nil _, Nat.zero_le n⟩
  | cons e es ih =>
    rcases Nat.lt_or_ge n (listing (e :: es)).length with hlt | hle
    · have hnone : ¬ e.Wanted L := by
        rw [← row_eq_none (t := listing (e :: es))]
        cases hrow : e.row L (listing (e :: es)) with
        | none => rfl
        | some r =>
          have hstart := h r (by rw [rows, hrow]; exact List.mem_cons_self)
          rw [start_row hrow] at hstart
          omega
      obtain ⟨passed, left, rfl, hpassed, hleft⟩ :=
        ih fun r hr => h r (List.mem_append_right _ hr)
      exact ⟨e :: passed, left, rfl, List.forall_mem_cons.mpr ⟨hnone, hpassed⟩, hleft⟩
    · exact ⟨[], e :: es, rfl, List.forall_mem_nil _, hle⟩

/-- The rows of two loops over one listing agree if the first ones do and the others do. -/
theorem toList_append_inj {o o' : Option DiskRow} {rs rs' : List DiskRow}
    (ho : ∀ r, o = some r → r.start = t) (ho' : ∀ r, o' = some r → r.start = t)
    (hrs : ∀ r ∈ rs, r.start.length < t.length) (hrs' : ∀ r ∈ rs', r.start.length < t.length) :
    o.toList ++ rs = o'.toList ++ rs' ↔ o = o' ∧ rs = rs' := by
  constructor
  · intro h
    cases o with
    | none =>
      cases o' with
      | none => exact ⟨rfl, h⟩
      | some r' =>
        -- a row of this turn cannot be one of a later turn
        have hlt := hrs r' (by rw [Option.toList_none, List.nil_append] at h; simp [h])
        rw [ho' r' rfl] at hlt
        omega
    | some r =>
      cases o' with
      | none =>
        have hlt := hrs' r (by rw [Option.toList_none, List.nil_append] at h; simp [← h])
        rw [ho r rfl] at hlt
        omega
      | some r' =>
        obtain ⟨rfl, hrest⟩ := List.cons.inj h
        exact ⟨rfl, hrest⟩
  · rintro ⟨rfl, rfl⟩
    rfl

/-- The turn of a sound line and those after it. -/
theorem diskRows_sound_iff (h : e.Sound) (hk : k < bfsz) :
    diskRows L k (listing (e :: es)) = some (rows L (e :: es)) ↔
      (e.Takes L → e.Reads L) ∧
        diskRows L (if e.Takes L then k + 1 else k) (listing es) = some (rows L es) := by
  have hscan : scanMount k (listing (e :: es)) = .line h.line (listing es) := by
    rw [listing, List.flatMap_cons]
    exact scanMount_sound h hk (stops_listing es)
  have hslot : (if (h.line.lookUp L k).dev.isSome then k + 1 else k) =
      if e.Takes L then k + 1 else k := by
    simp only [isSome_dev_lookUp h]
  have hlt := length_listing e es
  rw [diskRows_line hscan, hslot, rows, ← row_lookUp (k := k) (t := listing (e :: es)) h]
  cases hrest : diskRows L (if e.Takes L then k + 1 else k) (listing es) with
  | none => simp
  | some rs =>
    have hrs : ∀ r ∈ rs, r.start.length < (listing (e :: es)).length := by
      intro r hr
      exact (start_diskRows hrest r hr).trans_lt hlt
    have hrs' : ∀ r ∈ rows L es, r.start.length < (listing (e :: es)).length := by
      intro r hr
      exact (start_rows r hr).trans_lt hlt
    have hfound : ∀ r, ((h.line.lookUp L k).dev.map fun d => d.1.row (listing (e :: es))) = some r →
        r.start = listing (e :: es) := by
      intro r hr
      obtain ⟨d, -, rfl⟩ := Option.map_eq_some_iff.mp hr
      rfl
    rw [Option.map_some, Option.some_inj, Option.some_inj]
    exact toList_append_inj hfound (fun r hr => start_row hr) hrs hrs'

/-- A loop that keeps to the lines fills their rows. -/
theorem rows_of_kept (h : Kept L k t es) : diskRows L k t = some (rows L es) := by
  induction h with
  | stop hscan hleft => rw [diskRows_stop hscan, rows_eq_nil.mpr hleft]
  | sound hsound hk hread _ ih => exact (diskRows_sound_iff hsound hk).mpr ⟨hread, ih⟩
  | givenUp hscan hdev hpassed _ ih =>
    rw [diskRows_line hscan, hdev, Option.isSome_none, if_neg Bool.false_ne_true, ih,
      rows_append hpassed]
    rfl

theorem mount_ne_nil (h : scanMount k t = .line l rest) : l.mount.text ≠ [] := by
  obtain ⟨_, _, _, _, _, -, -, -, -, hmount, -⟩ := scanMount_eq_line h
  exact (scanset_eq_some hmount).2.1

/-- A turn that finds the row of its line has scanned a sound line. -/
theorem sound_of_row {d : Dev × UInt64} (hscan : scanMount k t = .line l rest)
    (hdev : (l.lookUp L k).dev = some d) (hrow : e.row L t = some (d.1.row t)) : e.Sound := by
  obtain ⟨-, hmount⟩ := Mount.dev_eq hdev
  obtain ⟨hnum, -, hname', hmount'⟩ := of_row_eq_some hrow
  refine ⟨hnum, ?_, ?_, ?_⟩
  · rw [← hname']
    exact d.1.name.length_lt
  · rw [← hmount']
    have hword : d.1.mount.text = l.mount.text := congrArg Name.text hmount
    exact fun hnil => mount_ne_nil hscan (hword.symm.trans hnil)
  · rw [← hmount']
    exact d.1.mount.length_lt

/-- A row that is filled at `t` is that of the first line, which begins there. -/
theorem first_of_row {rs : List DiskRow} {d : Dev} (hlen : (listing es).length ≤ t.length)
    (h : d.row t :: rs = rows L es) :
    ∃ e es', es = e :: es' ∧ t = listing (e :: es') ∧ e.row L t = some (d.row t) := by
  cases es with
  | nil => cases h
  | cons e es =>
    rw [rows] at h
    cases hrow : e.row L (listing (e :: es)) with
    | none =>
      have hmem : d.row t ∈ rows L es := by
        rw [hrow, Option.toList_none, List.nil_append] at h
        rw [← h]
        exact List.mem_cons_self
      have hle : t.length ≤ (listing es).length := start_rows _ hmem
      have hlt := length_listing e es
      omega
    | some r =>
      rw [hrow] at h
      obtain ⟨rfl, -⟩ := List.cons.inj h
      have hstart : t = listing (e :: es) := start_row hrow
      exact ⟨e, es, rfl, hstart, by rw [hstart] at hrow ⊢; exact hrow⟩

/-- A loop that fills the rows of the lines keeps to them. -/
theorem kept_of_rows (hlen : (listing es).length ≤ t.length)
    (h : diskRows L k t = some (rows L es)) : Kept L k t es := by
  induction hn : t.length using Nat.strongRecOn generalizing k t es with
  | _ n ih =>
    subst hn
    cases hscan : scanMount k t with
    | outside =>
      rw [diskRows_outside hscan] at h
      cases h
    | stop =>
      rw [diskRows_stop hscan] at h
      exact .stop hscan (rows_eq_nil.mp (Option.some.inj h).symm)
    | line l rest =>
      have hlt := length_scanMount hscan
      cases hdev : (l.lookUp L k).dev with
      | none =>
        rw [diskRows_line hscan, hdev, Option.isSome_none, if_neg Bool.false_ne_true] at h
        obtain ⟨rs, hrest, hrs⟩ := Option.map_eq_some_iff.mp h
        obtain rfl : rs = rows L es := hrs
        obtain ⟨passed, left, rfl, hpassed, hleft⟩ := exists_passed (start_diskRows hrest)
        rw [rows_append hpassed] at hrest
        exact .givenUp hscan hdev hpassed (ih rest.length hlt hleft hrest rfl)
      | some d =>
        have hrows := h
        rw [diskRows_line hscan, hdev] at hrows
        obtain ⟨rs, -, hrs⟩ := Option.map_eq_some_iff.mp hrows
        obtain ⟨e, es', rfl, rfl, hrow⟩ := first_of_row hlen hrs
        have hsound := sound_of_row hscan hdev hrow
        obtain ⟨_, _, _, _, _, -, -, hk, -⟩ := scanMount_eq_line hscan
        obtain ⟨hread, hrest⟩ := (diskRows_sound_iff hsound hk).mp h
        exact .sound hsound hk hread (ih _ (length_listing e es') le_rfl hrest rfl)

theorem kept_of_orderly (h : Orderly L k es) : Kept L k (listing es) es := by
  induction es generalizing k with
  | nil => exact .stop rfl (List.forall_mem_nil _)
  | cons e es ih =>
    rw [Orderly] at h
    split at h
    · next hsound =>
      obtain ⟨hk, hread, hrest⟩ := h
      exact .sound hsound hk hread (ih hrest)
    · obtain ⟨hstop, hleft⟩ := h
      exact .stop hstop hleft

/-- A listing is gathered right exactly if the loop keeps to its lines. -/
theorem disk_gathers_iff (L : DiskLookups) (es : List MountEntry) :
    Gathered L es ↔ Kept L 0 (listing es) es := by
  constructor
  · rintro ⟨hrows, -⟩
    exact kept_of_rows le_rfl hrows
  · intro h
    have hrows := rows_of_kept h
    exact ⟨hrows, osGatherDiskPipe_rows hrows⟩

/-- Without a line that makes the scan run on or fail early, nothing is lost. -/
theorem gathered_of_orderly (h : Orderly L 0 es) : Gathered L es := by
  have hrows := rows_of_kept (kept_of_orderly h)
  exact ⟨hrows, osGatherDiskPipe_rows hrows⟩

/-- The root file system on a device of the device mapper. -/
def mapper : MountEntry where
  dev := str "mapper/vg-root"
  mount := str "/"
  dev_plain := by decide
  mount_plain := by decide

def boot : MountEntry where
  dev := str "sda1"
  mount := str "/boot"
  dev_plain := by decide
  mount_plain := by decide

end MountEntry

/-- There is one disk, `sda`. -/
def DiskLookups.sample : DiskLookups where
  statvfs := fun _ => some ⟨1000, 900, 800, 4096, 4096⟩
  sectorSize := fun path => if path = blockSizePath (str "sda") then some 512 else none
  diskstats := fun _ => some (some ⟨1, 2, 3, 4, 5, 6, 7⟩)
  left := fun _ _ => default

namespace MountEntry

theorem scanMount_mapper : scanMount 0 (listing [mapper, boot]) =
    .line ⟨⟨str "mapper/vg-root /\n/dev/sda", by decide⟩, 1, ⟨str "/boot", by decide⟩⟩ [] := by
  rfl

/-- The name of the first line runs on up to the digit of the second, whose device is lost. -/
theorem mapper_hides_boot :
    Gathered .sample [boot] ∧ ¬ Gathered .sample [mapper, boot] := by
  have hwanted : boot.Wanted .sample := ⟨by decide, by decide, by rintro ⟨⟩⟩
  constructor
  · refine gathered_of_orderly ?_
    rw [Orderly, if_pos (by decide)]
    exact ⟨by decide, fun _ => hwanted.2.2, trivial⟩
  · rintro ⟨h, -⟩
    have hdev : (MountLine.lookUp .sample 0 ⟨⟨str "mapper/vg-root /\n/dev/sda", by decide⟩, 1,
        ⟨str "/boot", by decide⟩⟩).dev = none := by decide
    have hend : diskRows .sample 0 [] = some [] := diskRows_stop rfl
    rw [diskRows_line scanMount_mapper, hdev, Option.isSome_none,
      if_neg Bool.false_ne_true, hend] at h
    have hnone := rows_eq_nil.mp (Option.some.inj h).symm
    exact hnone boot (by simp) hwanted

end MountEntry

end MonitoringAgent
