import MonitoringAgent.Os.WellFormed
import MonitoringAgent.Lib.Directive

/-!
# The listing of mounted devices

The loop of `_os_gather_disk` over what its pipe delivers, with what `statvfs`, the block
size file and the search in `/proc/diskstats` give as functions of their arguments. No text
holds a NUL.
-/
namespace MonitoringAgent

open Buffer Decimal Format Json Scan

/-- What the three lookups give, by mount point, path and command. -/
structure DiskLookups where
  statvfs : Text → Option Vfs
  sectorSize : Text → Option UInt64
  /-- `none` when the command cannot be started, `some none` when fewer than seven numbers
  can be scanned. -/
  diskstats : Text → Option (Option DiskStat)
  /-- What the fields of a slot hold when fewer than seven numbers can be scanned. -/
  left : Nat → Text → DiskStat

/-- `snprintf(cmd, BFSZ, "/sys/block/%s/queue/logical_block_size", ...)`. -/
def blockSizePath (name : Text) : Text :=
  (str "/sys/block/" ++ name ++ str "/queue/logical_block_size").take (bfsz - 1)

/-- The command that searches `/proc/diskstats`, cut off like the path. -/
def diskstatsCommand (name : Text) (num : Nat) : Text :=
  (str "awk '$3~\"" ++ name ++ decimal num ++
    str "\"\x7bprint $4,$6,$7,$8,$10,$11,$14\x7d' /proc/diskstats").take (bfsz - 1)

/-- What a turn scans. -/
structure MountLine where
  name : Name
  num : UInt16
  mount : Name

/-- One call of `fscanf`: it stores outside of the array, fails, or finds a line. -/
inductive MountScan where
  | outside
  | stop
  | line (l : MountLine) (rest : Text)

/-- `"/dev/%128[^0-9]%hu%128s\n"` into `dev[k]`. -/
def scanMount (k : Nat) (t : Text) : MountScan :=
  match literal (str "/dev/") t with
  | none => .stop
  | some t =>
    match scanset 128 (fun c => ¬ IsDigit c) t with
    | none => .stop
    | some (name, t) =>
      if hname : k < bfsz ∧ name.length < bfsz then
        match unsigned t with
        | none => .stop
        | some (num, t) =>
          match scanset 128 (fun c => ! isSpace c) (t.dropWhile isSpace) with
          | none => .stop
          | some (mount, t) =>
            if hmount : mount.length < bfsz then
              .line ⟨⟨name, hname.2⟩, num.toUInt16, ⟨mount, hmount⟩⟩ (t.dropWhile isSpace)
            else .outside
      else .outside

/-- The line with what is found out about its device, in `dev[k]`. -/
def MountLine.lookUp (L : DiskLookups) (k : Nat) (l : MountLine) : Mount where
  name := l.name
  num := l.num
  mount := l.mount
  vfs := L.statvfs l.mount.text
  sectorSize := L.sectorSize (blockSizePath l.name.text)
  stat :=
    let cmd := diskstatsCommand l.name.text l.num.toNat
    (L.diskstats cmd).map fun
      | none => (L.left k cmd, false)
      | some stat => (stat, true)

variable {L : DiskLookups} {k : Nat} {t rest : Text} {l : MountLine}

/-- The five directives of a line that is found. -/
theorem scanMount_eq_line (h : scanMount k t = .line l rest) :
    ∃ t₁ t₂ num t₃ t₄, literal (str "/dev/") t = some t₁ ∧
      scanset 128 (fun c => ¬ IsDigit c) t₁ = some (l.name.text, t₂) ∧ k < bfsz ∧
      unsigned t₂ = some (num, t₃) ∧
      scanset 128 (fun c => ! isSpace c) (t₃.dropWhile isSpace) = some (l.mount.text, t₄) ∧
      rest = t₄.dropWhile isSpace := by
  unfold scanMount at h
  split at h
  · cases h
  · next t₁ hdev =>
    split at h
    · cases h
    · next name t₂ hname =>
      split at h
      · next hroom =>
        split at h
        · cases h
        · next num t₃ hnum =>
          split at h
          · cases h
          · next mount t₄ hmount =>
            split at h
            · cases h
              exact ⟨t₁, t₂, num, t₃, t₄, hdev, hname, hroom.1, hnum, hmount, rfl⟩
            · cases h
      · cases h

theorem length_scanMount (h : scanMount k t = .line l rest) : rest.length < t.length := by
  obtain ⟨t₁, t₂, num, t₃, t₄, hdev, hname, -, hnum, hmount, rfl⟩ := scanMount_eq_line h
  have h₁ := length_literal hdev
  have h₂ := length_scanset hname
  have h₃ := length_unsigned hnum
  have h₄ := length_scanset hmount
  have hskip₃ := (List.dropWhile_suffix isSpace (l := t₃)).length_le
  have hskip₄ := (List.dropWhile_suffix isSpace (l := t₄)).length_le
  omega

/-- The loop with `k` slots taken, each turn with what the pipe held when it began; `none`
when a store leaves the array. A turn that is given up leaves its slot to the next one. -/
def diskLoop (L : DiskLookups) (k : Nat) (t : Text) : Option (List (Text × Mount)) :=
  match _h : scanMount k t with
  | .outside => none
  | .stop => some []
  | .line l rest =>
    (diskLoop L (if (l.lookUp L k).dev.isSome then k + 1 else k) rest).map
      ((t, l.lookUp L k) :: ·)
termination_by t.length
decreasing_by exact length_scanMount _h

theorem diskLoop_outside (h : scanMount k t = .outside) : diskLoop L k t = none := by
  rw [diskLoop.eq_def]
  split
  · rfl
  · next h' => cases h.symm.trans h'
  · next h' => cases h.symm.trans h'

theorem diskLoop_stop (h : scanMount k t = .stop) : diskLoop L k t = some [] := by
  rw [diskLoop.eq_def]
  split
  · next h' => cases h.symm.trans h'
  · rfl
  · next h' => cases h.symm.trans h'

theorem diskLoop_line (h : scanMount k t = .line l rest) :
    diskLoop L k t =
      (diskLoop L (if (l.lookUp L k).dev.isSome then k + 1 else k) rest).map
        ((t, l.lookUp L k) :: ·) := by
  rw [diskLoop.eq_def]
  split
  · next h' => cases h.symm.trans h'
  · next h' => cases h.symm.trans h'
  · next h' =>
    cases h.symm.trans h'
    rfl

/-- Each turn finds a slot free. -/
theorem free_diskLoop {turns : List (Text × Mount)} (h : diskLoop L k t = some turns) :
    ∀ before line after, turns.map Prod.snd = before ++ line :: after →
      k + (before.filterMap Mount.dev).length < bfsz := by
  induction turns generalizing k t with
  | nil =>
    intro before line after hsplit
    simp at hsplit
  | cons turn turns ih =>
    intro before line after hsplit
    cases hscan : scanMount k t with
    | outside => cases h.symm.trans (diskLoop_outside hscan)
    | stop =>
      rw [diskLoop_stop hscan] at h
      cases h
    | line l rest =>
      rw [diskLoop_line hscan] at h
      obtain ⟨turns', hrest, heq⟩ := Option.map_eq_some_iff.mp h
      obtain ⟨rfl, rfl⟩ := List.cons.inj heq
      obtain ⟨_, _, _, _, _, -, -, hk, -⟩ := scanMount_eq_line hscan
      cases before with
      | nil => simpa using hk
      | cons m before =>
        obtain ⟨rfl, htail⟩ := List.cons.inj hsplit
        have hlater := ih hrest before line after htail
        dsimp only at hlater ⊢
        cases hdev : (l.lookUp L k).dev with
        | none => simpa [hdev] using hlater
        | some d =>
          rw [hdev, Option.isSome_some, if_pos rfl] at hlater
          rw [List.filterMap_cons_some hdev, List.length_cons]
          omega

/-- The turns of the loop as the section takes them. -/
def diskMounts (L : DiskLookups) (t : Text) : Option Mounts :=
  match h : diskLoop L 0 t with
  | none => none
  | some turns => some ⟨turns.map Prod.snd, by simpa using free_diskLoop h⟩

/-- `_os_gather_disk` on the text of its pipe. -/
def osGatherDiskPipe (L : DiskLookups) (pipe : Option Text) : Option Output :=
  match pipe with
  | none => some (osGatherDisk none)
  | some t => (diskMounts L t).map fun mounts => osGatherDisk (some mounts)

/-- A row of the arrays, with what the pipe held when its line was scanned. -/
structure DiskRow where
  start : Text
  name : Text
  num : Nat
  mount : Text
  tot : UInt64
  free : UInt64
  avail : UInt64
  stat : DiskStat

def Dev.row (start : Text) (d : Dev) : DiskRow :=
  ⟨start, d.name.text, d.num.toNat, d.mount.text, d.tot, d.free, d.avail, d.stat⟩

/-- The rows of the turns that take a slot. -/
def turnRows (turns : List (Text × Mount)) : List DiskRow :=
  turns.filterMap fun turn => turn.2.dev.map fun d => d.1.row turn.1

/-- The rows the loop fills from the `k`-th on. -/
def diskRows (L : DiskLookups) (k : Nat) (t : Text) : Option (List DiskRow) :=
  (diskLoop L k t).map turnRows

namespace DiskRow

/-- `<name><num>(<mount>)`. -/
def label (r : DiskRow) : Text := r.name ++ decimal r.num ++ str "(" ++ r.mount ++ str ")"

/-- An array with one number of each row. -/
def column (field : DiskRow → UInt64) (rs : List DiskRow) : Tree :=
  .arr (rs.map fun r => .num (number (field r)))

/-- The arrays of the section. -/
def members (rs : List DiskRow) (ioTot : UInt64) : List (Text × Tree) :=
  if rs = [] then []
  else
    [(str "name", .arr (rs.map fun r => .str r.label)), (str "tot", column tot rs),
      (str "free", column free rs), (str "avail", column avail rs),
      (str "r", column (·.stat.r) rs), (str "rsec", column (·.stat.rkb) rs),
      (str "rt", column (·.stat.rt) rs), (str "w", column (·.stat.w) rs),
      (str "wsec", column (·.stat.wkb) rs), (str "wt", column (·.stat.wt) rs),
      (str "weight", column (·.stat.weight) rs), (str "io_tot", .num (number ioTot))]

end DiskRow

/-! ## Rows and their places -/

theorem Mount.isSome_dev (m : Mount) :
    m.dev.isSome = true ↔ m.vfs.isSome ∧ m.sectorSize.isSome ∧ m.stat.isSome := by
  unfold Mount.dev
  cases m.vfs <;> cases m.sectorSize <;> cases m.stat <;> simp

theorem diskRows_stop (h : scanMount k t = .stop) : diskRows L k t = some [] := by
  rw [diskRows, diskLoop_stop h]
  rfl

theorem diskRows_outside (h : scanMount k t = .outside) : diskRows L k t = none := by
  rw [diskRows, diskLoop_outside h]
  rfl

theorem turnRows_cons (m : Mount) (turns : List (Text × Mount)) :
    turnRows ((t, m) :: turns) = (m.dev.map fun d => d.1.row t).toList ++ turnRows turns := by
  rw [turnRows, List.filterMap_cons]
  dsimp only
  cases m.dev <;> rfl

theorem diskRows_line (h : scanMount k t = .line l rest) :
    diskRows L k t = (diskRows L (if (l.lookUp L k).dev.isSome then k + 1 else k) rest).map
      (((l.lookUp L k).dev.map fun d => d.1.row t).toList ++ ·) := by
  rw [diskRows, diskRows, diskLoop_line h, Option.map_map, Option.map_map]
  congr 1
  funext turns
  exact turnRows_cons _ turns

/-- The place of a row is in what the loop has before it. -/
theorem start_diskRows {rs : List DiskRow} (h : diskRows L k t = some rs) :
    ∀ r ∈ rs, r.start.length ≤ t.length := by
  induction hn : t.length using Nat.strongRecOn generalizing k t rs with
  | _ n ih =>
    subst hn
    cases hscan : scanMount k t with
    | outside =>
      rw [diskRows_outside hscan] at h
      cases h
    | stop =>
      rw [diskRows_stop hscan] at h
      obtain rfl := Option.some.inj h
      exact List.forall_mem_nil _
    | line l rest =>
      rw [diskRows_line hscan] at h
      obtain ⟨rs', hrest, rfl⟩ := Option.map_eq_some_iff.mp h
      have hlt := length_scanMount hscan
      intro r hr
      rcases List.mem_append.mp hr with hr | hr
      · obtain ⟨d, -, rfl⟩ := Option.map_eq_some_iff.mp (Option.mem_toList.mp hr)
        exact le_rfl
      · exact (ih rest.length hlt hrest rfl r hr).trans hlt.le

/-! ## Rows as they are printed -/

theorem diskMounts_of_loop {turns : List (Text × Mount)} (h : diskLoop L 0 t = some turns) :
    ∃ mounts, diskMounts L t = some mounts ∧ mounts.list = turns.map Prod.snd := by
  unfold diskMounts
  split
  · next hnone => cases h.symm.trans hnone
  · next turns' hturns =>
    obtain rfl := Option.some.inj (h.symm.trans hturns)
    exact ⟨_, rfl, rfl⟩

theorem found_osGatherDisk (pipe : Option Mounts) :
    (osGatherDisk pipe).found = true ↔ devs pipe ≠ [] := by
  cases pipe with
  | none => simp [osGatherDisk, devs]
  | some mounts =>
    simp only [osGatherDisk, devs, List.length_map, List.length_eq_zero_iff]
    split
    · next hnil => simp [hnil]
    · next hne => simp [hne]

/-- The section and its result, by the slots that are taken. -/
theorem emit_osGatherDisk (pipe : Option Mounts) (last : Byte) :
    (osGatherDisk pipe).gatherer.emit last =
      (commas (Tree.printMembers (diskTrees (devs pipe))),
        if devs pipe = [] then .enodata else .enone) :=
  (emits_disk pipe).emit_output (found_osGatherDisk pipe) last

/-- What is printed of a row is printed of its slot. -/
theorem map_rows {β : Type} {f : DiskRow → β} {g : Dev → β}
    (h : ∀ start d, f (d.row start) = g d) (turns : List (Text × Mount)) :
    (turnRows turns).map f =
      (((turns.map Prod.snd).filterMap Mount.dev).map Prod.fst).map g := by
  induction turns with
  | nil => rfl
  | cons turn turns ih =>
    obtain ⟨start, m⟩ := turn
    rw [turnRows_cons, List.map_append, ih, List.map_cons, List.filterMap_cons]
    dsimp only
    cases m.dev with
    | none => rfl
    | some d => exact congrArg (· :: _) (h start d.1)

theorem members_rows (turns : List (Text × Mount)) :
    DiskRow.members (turnRows turns)
      ((((turns.map Prod.snd).filterMap Mount.dev).map Prod.snd).foldl (· + ·) 0) =
      diskTrees ((turns.map Prod.snd).filterMap Mount.dev) := by
  have hnil := map_rows (f := fun _ => ()) (g := fun _ => ()) (fun _ _ => rfl) turns
  have hlabel := map_rows (f := fun r => Tree.str r.label) (g := fun d => .str d.label)
    (fun _ _ => rfl) turns
  have hcol : ∀ (f : DiskRow → UInt64) (g : Dev → UInt64), (∀ start d, f (d.row start) = g d) →
      DiskRow.column f (turnRows turns) =
        .arr ((((turns.map Prod.snd).filterMap Mount.dev).map Prod.fst).map
          fun d => .num (number (g d))) := by
    intro f g hfg
    exact congrArg Tree.arr (map_rows (fun start d => by rw [hfg]) turns)
  have htot := hcol DiskRow.tot Dev.tot fun _ _ => rfl
  have hfree := hcol DiskRow.free Dev.free fun _ _ => rfl
  have havail := hcol DiskRow.avail Dev.avail fun _ _ => rfl
  have hr := hcol (·.stat.r) (·.stat.r) fun _ _ => rfl
  have hrkb := hcol (·.stat.rkb) (·.stat.rkb) fun _ _ => rfl
  have hrt := hcol (·.stat.rt) (·.stat.rt) fun _ _ => rfl
  have hw := hcol (·.stat.w) (·.stat.w) fun _ _ => rfl
  have hwkb := hcol (·.stat.wkb) (·.stat.wkb) fun _ _ => rfl
  have hwt := hcol (·.stat.wt) (·.stat.wt) fun _ _ => rfl
  have hweight := hcol (·.stat.weight) (·.stat.weight) fun _ _ => rfl
  generalize turnRows turns = rs at *
  generalize (turns.map Prod.snd).filterMap Mount.dev = found at *
  unfold DiskRow.members diskTrees
  by_cases hfound : found = []
  · rw [if_pos hfound, if_pos (by simpa [hfound] using hnil)]
  · have hrs : rs ≠ [] := by
      rintro rfl
      exact hfound (by simpa using hnil.symm)
    rw [if_neg hfound, if_neg hrs, ← List.length_map Prod.fst, columnTrees_slot, hlabel, htot,
      hfree, havail, hr, hrkb, hrt, hw, hwkb, hwt, hweight]
    rfl

/-- The rows that the loop fills are those that the section prints. -/
theorem osGatherDiskPipe_rows {rs : List DiskRow} (h : diskRows L 0 t = some rs) :
    ∃ o ioTot, osGatherDiskPipe L (some t) = some o ∧
      ∀ last, o.gatherer.emit last = (commas (Tree.printMembers (DiskRow.members rs ioTot)),
        if rs = [] then .enodata else .enone) := by
  obtain ⟨turns, hturns, rfl⟩ := Option.map_eq_some_iff.mp h
  obtain ⟨mounts, hmounts, hlist⟩ := diskMounts_of_loop hturns
  have hdevs : devs (some mounts) = (turns.map Prod.snd).filterMap Mount.dev := by
    rw [devs, hlist]
  have hnil := map_rows (f := fun _ => ()) (g := fun _ => ()) (fun _ _ => rfl) turns
  have hempty : turnRows turns = [] ↔ (turns.map Prod.snd).filterMap Mount.dev = [] := by
    rw [← List.map_eq_nil_iff (f := fun _ => ()), hnil, List.map_eq_nil_iff, List.map_eq_nil_iff]
  refine ⟨osGatherDisk (some mounts),
    (((turns.map Prod.snd).filterMap Mount.dev).map Prod.snd).foldl (· + ·) 0,
    by rw [osGatherDiskPipe, hmounts]; rfl, ?_⟩
  intro last
  rw [emit_osGatherDisk, hdevs, ← members_rows]
  simp only [hempty]

end MonitoringAgent
