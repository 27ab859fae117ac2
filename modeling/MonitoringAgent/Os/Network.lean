import MonitoringAgent.Os.WellFormed
import MonitoringAgent.Lib.Directive

/-!
# The listing of network interfaces

The loop of `_os_gather_network` over what its pipe delivers. No text holds a NUL.
-/
namespace MonitoringAgent

open Buffer Decimal Format Json Scan

/-- `"%llu%llu%llu%llu%llu%llu\n"`. -/
def NetIf.scan (name : Name) (t : Text) : Option (NetIf × Text) := do
  let (iByte, t) ← unsigned t
  let (iPckt, t) ← unsigned t
  let (iErr, t) ← unsigned t
  let (oByte, t) ← unsigned t
  let (oPckt, t) ← unsigned t
  let (oErr, t) ← unsigned t
  return (⟨name, iByte, iPckt, iErr, oByte, oPckt, oErr⟩, t.dropWhile isSpace)

/-- The loop, with the number of structures that are left in `net_if`. It takes a name from
`"%128[^:]:"` also when no colon follows. `none` when it stores outside of the array or of the
name. -/
def networkLoop (room : Nat) (t : Text) : Option (List (Option NetIf)) :=
  match scanset 128 (fun c => c ≠ ch ':') t, room with
  | none, _ => some []
  | some _, 0 => none
  | some (name, rest), room + 1 =>
    if h : name.length < bfsz then
      match NetIf.scan ⟨name, h⟩ ((literal [ch ':'] rest).getD rest) with
      | none => some [none]
      | some (netIf, rest) => (networkLoop room rest).map (some netIf :: ·)
    else none

/-- A line of the listing. -/
structure IfLine where
  name : Text
  a : UInt64
  b : UInt64
  c : UInt64
  d : UInt64
  e : UInt64
  f : UInt64
  nonempty : name ≠ []
  short : name.length < bfsz
  plain : ∀ x ∈ name, isSpace x = false ∧ x ≠ ch ':'

namespace IfLine

/-- `name: a b c d e f`. -/
def text (l : IfLine) : Text :=
  l.name ++ (str ":" ++ ([l.a, l.b, l.c, l.d, l.e, l.f].flatMap (fun n => str " " ++ number n) ++
    str "\n"))

/-- The structure that the line is meant to fill. -/
def netIf (l : IfLine) : NetIf := ⟨⟨l.name, l.short⟩, l.a, l.b, l.c, l.d, l.e, l.f⟩

/-- An array with one counter of each interface. -/
def column (counter : IfLine → UInt64) (ifs : List IfLine) : Tree :=
  .arr (ifs.map fun l => .num (number (counter l)))

/-- The sum of one counter modulo `2 ^ 64`. -/
def total (counter : IfLine → UInt64) (ifs : List IfLine) : Tree :=
  .num (decimal ((ifs.map fun l => (counter l).toNat).sum % 2 ^ 64))

/-- What the section is meant to hold. -/
def members (ifs : List IfLine) : List (Text × Tree) :=
  if ifs = [] then []
  else
    [(str "name", .arr (ifs.map fun l => .str l.name)), (str "i_byte", column a ifs),
      (str "o_byte", column d ifs), (str "i_pckt", column b ifs), (str "o_pckt", column e ifs),
      (str "i_err", column c ifs), (str "o_err", column f ifs), (str "i_tot", total a ifs),
      (str "o_tot", total d ifs)]

end IfLine

variable {l : IfLine} {t rest : Text} {room : Nat}

theorem length_networkLoop {rows : List (Option NetIf)} (h : networkLoop room t = some rows) :
    rows.length ≤ room := by
  induction room generalizing t rows with
  | zero =>
    unfold networkLoop at h
    split at h
    · obtain rfl := Option.some.inj h
      exact le_rfl
    · cases h
    · next h' => cases h'
  | succ room ih =>
    unfold networkLoop at h
    split at h
    · obtain rfl := Option.some.inj h
      exact Nat.zero_le _
    · cases h
    · next heq =>
      cases heq
      split at h
      · split at h
        · obtain rfl := Option.some.inj h
          exact Nat.succ_le_succ (Nat.zero_le _)
        · obtain ⟨rows', hrows, rfl⟩ := Option.map_eq_some_iff.mp h
          exact Nat.succ_le_succ (ih hrows)
      · cases h

/-- What the loop leaves in the arrays. -/
def networkRows (t : Text) : Option (Rows (Option NetIf) bfsz) :=
  match h : networkLoop bfsz t with
  | none => none
  | some rows => some ⟨rows, length_networkLoop h⟩

/-- `_os_gather_network` on the text of its pipe. -/
def osGatherNetworkPipe (pipe : Option Text) : Option Output :=
  match pipe with
  | none => some (osGatherNetwork none)
  | some t => (networkRows t).map fun rows => osGatherNetwork (some rows)

/-! ## The lines -/

theorem stops_blank (t : Text) : Stops (fun c => decide (IsDigit c)) (str " " ++ t) :=
  stops_cons (by decide)

/-- What follows a conversion sees the counter that was printed. -/
theorem unsigned_blank_bind {β : Type} (v : UInt64)
    (hrest : Stops (fun c => decide (IsDigit c)) rest) (k : UInt64 × Text → Option β) :
    (unsigned (str " " ++ (number v ++ rest)) >>= k) = k (v, rest) := by
  have hread : unsigned (str " " ++ (number v ++ rest)) = some (v, rest) :=
    unsigned_decimal v (by decide) hrest
  rw [hread]
  rfl

/-- Each counter is read in its turn, and the end of the line with the last. -/
theorem NetIf.scan_line (l : IfLine) (hrest : Stops isSpace rest) :
    NetIf.scan ⟨l.name, l.short⟩
      ([l.a, l.b, l.c, l.d, l.e, l.f].flatMap (fun n => str " " ++ number n) ++
        (str "\n" ++ rest)) = some (l.netIf, rest) := by
  have hend : Stops (fun c => decide (IsDigit c)) (str "\n" ++ rest) := stops_cons (by decide)
  have hskip : (str "\n" ++ rest).dropWhile isSpace = rest :=
    dropWhile_append_stops (by decide) hrest
  simp only [List.flatMap_cons, List.flatMap_nil, List.append_nil, List.append_assoc]
  unfold NetIf.scan
  refine (unsigned_blank_bind l.a (stops_blank _) _).trans ?_
  refine (unsigned_blank_bind l.b (stops_blank _) _).trans ?_
  refine (unsigned_blank_bind l.c (stops_blank _) _).trans ?_
  refine (unsigned_blank_bind l.d (stops_blank _) _).trans ?_
  refine (unsigned_blank_bind l.e (stops_blank _) _).trans ?_
  refine (unsigned_blank_bind l.f hend _).trans ?_
  dsimp only
  rw [hskip]
  rfl

theorem stops_lines (ifs : List IfLine) : Stops isSpace (ifs.flatMap IfLine.text) := by
  cases ifs with
  | nil => exact stops_nil
  | cons l ifs =>
    obtain ⟨x, name, hname⟩ := List.exists_cons_of_ne_nil l.nonempty
    rw [List.flatMap_cons, IfLine.text, hname]
    refine stops_cons (l.plain x ?_).1
    rw [hname]
    exact List.mem_cons_self

theorem networkLoop_line (l : IfLine) (hrest : Stops isSpace rest) :
    networkLoop (room + 1) (l.text ++ rest) = (networkLoop room rest).map (some l.netIf :: ·) := by
  have hname : scanset 128 (fun c => c ≠ ch ':') (l.text ++ rest) =
      some (l.name, str ":" ++ ([l.a, l.b, l.c, l.d, l.e, l.f].flatMap
        (fun n => str " " ++ number n) ++ (str "\n" ++ rest))) := by
    rw [IfLine.text, List.append_assoc, List.append_assoc, List.append_assoc]
    refine scanset_append l.nonempty ?_ (Nat.le_of_lt l.short) (stops_cons (by decide))
    intro x hx
    simpa using (l.plain x hx).2
  have hcolon : ∀ u, literal [ch ':'] (str ":" ++ u) = some u := by
    intro u
    exact (literal_singleton (by decide)).mpr rfl
  rw [networkLoop.eq_def, hname]
  dsimp only
  rw [dif_pos l.short, hcolon, Option.getD_some, NetIf.scan_line l hrest]

/-- The loop recovers the lines. -/
theorem networkLoop_lines {ifs : List IfLine} (h : ifs.length ≤ room) :
    networkLoop room (ifs.flatMap IfLine.text) = some (ifs.map fun l => some l.netIf) := by
  induction ifs generalizing room with
  | nil =>
    unfold networkLoop
    rfl
  | cons l ifs ih =>
    obtain ⟨room, rfl⟩ : ∃ k, room = k + 1 := ⟨room - 1, by simp at h; omega⟩
    rw [List.flatMap_cons, networkLoop_line l (stops_lines ifs), ih (Nat.le_of_succ_le_succ h)]
    rfl

theorem networkRows_of_loop {rows : List (Option NetIf)} (h : networkLoop bfsz t = some rows) :
    networkRows t = some ⟨rows, length_networkLoop h⟩ := by
  unfold networkRows
  split
  · next hnone => cases h.symm.trans hnone
  · next rows' hrows =>
    obtain rfl := Option.some.inj (h.symm.trans hrows)
    rfl

/-! ## The section -/

theorem netIfs_map_some (netIf : List NetIf) : netIfs (netIf.map some) = netIf := by
  induction netIf with
  | nil => rfl
  | cons n netIf ih => rw [List.map_cons, netIfs, ih]

/-- The sum of the counters as it is printed. -/
theorem number_total (counter : IfLine → UInt64) (field : NetIf → UInt64)
    (h : ∀ l, field l.netIf = counter l) (ifs : List IfLine) :
    Tree.num (number (((ifs.map IfLine.netIf).map field).foldl (· + ·) 0)) =
      IfLine.total counter ifs := by
  rw [number, toNat_foldl_add, List.map_map, List.map_map, IfLine.total]
  have hfield : (UInt64.toNat ∘ field) ∘ IfLine.netIf = fun l => (counter l).toNat := by
    funext l
    exact congrArg UInt64.toNat (h l)
  rw [hfield]

/-- The seven arrays and the two sums are those of the interfaces. -/
theorem networkTrees_netIf (ifs : List IfLine) :
    networkTrees (ifs.map IfLine.netIf) = IfLine.members ifs := by
  unfold networkTrees IfLine.members
  by_cases hnil : ifs = []
  · rw [if_pos hnil, if_pos (by rw [hnil]; rfl)]
  · rw [if_neg hnil, if_neg (by simpa using hnil), columnTrees_slot, Tree.nums, List.map_cons,
      List.map_cons, List.map_nil,
      number_total IfLine.a NetIf.iByte (fun _ => rfl),
      number_total IfLine.d NetIf.oByte (fun _ => rfl)]
    simp [NetIf.names, IfLine.column, IfLine.netIf, Piece.tree, Function.comp_def]

theorem found_osGatherNetwork (pipe : Option (Rows (Option NetIf) bfsz)) :
    (osGatherNetwork pipe).found = true ↔ netIfsOf pipe ≠ [] := by
  cases pipe with
  | none => simp [osGatherNetwork, netIfsOf]
  | some rows =>
    simp only [osGatherNetwork, netIfsOf, List.length_eq_zero_iff]
    split
    · next hnil => simp [hnil]
    · next hne => simp [hne]

/-- The section and its result, by the structures that are filled. -/
theorem emit_osGatherNetwork (pipe : Option (Rows (Option NetIf) bfsz)) (last : Byte) :
    (osGatherNetwork pipe).gatherer.emit last =
      (commas (Tree.printMembers (networkTrees (netIfsOf pipe))),
        if netIfsOf pipe = [] then .enodata else .enone) :=
  (emits_network pipe).emit_output (found_osGatherNetwork pipe) last

/-- For every listing that the arrays can hold, the loop recovers the interfaces and the
section holds their names, their counters and the two sums. -/
theorem network_gathers_lines (ifs : Rows IfLine bfsz) :
    networkLoop bfsz (ifs.list.flatMap IfLine.text) = some (ifs.list.map fun l => some l.netIf) ∧
      ∃ o, osGatherNetworkPipe (some (ifs.list.flatMap IfLine.text)) = some o ∧
        (ifs.list = [] → o.appends = []) ∧
        ∀ last, o.gatherer.emit last = (commas (Tree.printMembers (IfLine.members ifs.list)),
          if ifs.list = [] then .enodata else .enone) := by
  have hloop := networkLoop_lines ifs.length_le
  have hnetIf : netIfs (ifs.list.map fun l => some l.netIf) = ifs.list.map IfLine.netIf := by
    rw [← netIfs_map_some (ifs.list.map IfLine.netIf), List.map_map]
    rfl
  let rows : Rows (Option NetIf) bfsz := ⟨_, length_networkLoop hloop⟩
  have hpipe : osGatherNetworkPipe (some (ifs.list.flatMap IfLine.text)) =
      some (osGatherNetwork (some rows)) := by
    rw [osGatherNetworkPipe, networkRows_of_loop hloop]
    rfl
  have hfilled : netIfsOf (some rows) = ifs.list.map IfLine.netIf := hnetIf
  refine ⟨hloop, osGatherNetwork (some rows), hpipe, ?_, ?_⟩
  · intro hnil
    simp [osGatherNetwork, rows, hnil, netIfs]
  · intro last
    rw [emit_osGatherNetwork, hfilled, networkTrees_netIf]
    simp

end MonitoringAgent
