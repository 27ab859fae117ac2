import MonitoringAgent.Lib.Json

/-! Formatted output with its texts and numbers kept apart. -/
namespace Format

open Buffer Decimal Json

/-- A piece of formatted output: text of the format itself, a number, or a text that the
format puts between quotes. -/
inductive Piece where
  | lit (t : Text)
  | bare (t : Text)
  | quoted (t : Text)
  deriving DecidableEq

def Piece.text : Piece → Text
  | lit t => t
  | bare t => t
  | quoted t => quote t

def render (ps : List Piece) : Text := ps.flatMap Piece.text

/-- The texts between quotes. -/
def copied (ps : List Piece) : List Text :=
  ps.filterMap fun
    | .quoted t => some t
    | .lit _ => none
    | .bare _ => none

/-- The numbers. -/
def numerals (ps : List Piece) : List Text :=
  ps.filterMap fun
    | .bare t => some t
    | .lit _ => none
    | .quoted _ => none

/-- As `%f` prints a floating-point number. -/
def Printed (t : Text) : Prop := Number t ∨ t ∈ [str "nan", str "-nan", str "inf", str "-inf"]

/-- A text that can stand between quotes, or a number that `N` holds of. -/
def Piece.Sound (N : Text → Prop) : Piece → Prop
  | lit _ => True
  | bare t => N t
  | quoted t => Clean t

def Sound (N : Text → Prop) (ps : List Piece) : Prop := ∀ p ∈ ps, p.Sound N

/-- Behind each opening quote a reader takes the text that was put there. -/
def ReadBack : List Piece → Prop
  | [] => True
  | .quoted t :: ps => Takes (t ++ ch '"' :: render ps) t ∧ ReadBack ps
  | .lit _ :: ps => ReadBack ps
  | .bare _ :: ps => ReadBack ps

/-- `%lu` and `%llu`. -/
def number (n : UInt64) : Text := decimal n.toNat

/-! ## Arrays, one column after the other -/

/-- The pieces of one formatted append. -/
abbrev Append := List Piece

/-- A loop that appends `k` cells with commas between them. -/
def cells (cell : Nat → Piece) (k : Nat) : List Append :=
  (List.range k).map fun i => [.lit (if i = 0 then [] else str ","), cell i]

/-- Such a loop after the text before it. -/
def column (head : Text) (cell : Nat → Piece) (k : Nat) : List Append :=
  [.lit head] :: cells cell k

/-- One such loop for each listed column of a table. -/
def columns {σ : Type} (cols : List (Text × (σ → Piece))) (slot : Nat → σ) (k : Nat) :
    List Append :=
  cols.flatMap fun c => column c.1 (fun i => c.2 (slot i)) k

variable {ps qs : List Piece} {t : Text}

@[simp] theorem render_nil : render [] = [] := rfl

@[simp] theorem render_cons (p : Piece) (ps : List Piece) :
    render (p :: ps) = p.text ++ render ps := rfl

@[simp] theorem render_append : render (ps ++ qs) = render ps ++ render qs :=
  List.flatMap_append

theorem render_flatten (as : List Append) : render as.flatten = (as.map render).flatten := by
  induction as with
  | nil => rfl
  | cons a as ih => simp [ih]

/-- Exactly the plain texts can be read back. -/
theorem readBack_iff : ReadBack ps ↔ ∀ t ∈ copied ps, Clean t := by
  induction ps with
  | nil => simp [ReadBack, copied]
  | cons p ps ih =>
    cases p with
    | lit t => simpa [ReadBack, copied] using ih
    | bare t => simpa [ReadBack, copied] using ih
    | quoted t =>
      have htakes := takes_iff (t := t) (s := render ps)
      simpa [ReadBack, copied, htakes] using fun _ => ih

/-! ## Sound pieces -/

variable {N : Text → Prop}

@[simp] theorem sound_nil : Sound N [] := List.forall_mem_nil _

@[simp] theorem sound_cons {p : Piece} : Sound N (p :: ps) ↔ p.Sound N ∧ Sound N ps :=
  List.forall_mem_cons

@[simp] theorem sound_append : Sound N (ps ++ qs) ↔ Sound N ps ∧ Sound N qs :=
  List.forall_mem_append

theorem sound_flatten {as : List Append} : Sound N as.flatten ↔ ∀ a ∈ as, Sound N a :=
  List.forall_mem_flatten

theorem sound_iff : Sound N ps ↔ (∀ t ∈ copied ps, Clean t) ∧ ∀ t ∈ numerals ps, N t := by
  induction ps with
  | nil => simp [copied, numerals]
  | cons p ps ih =>
    rw [sound_cons, ih]
    cases p with
    | lit t => simp [Piece.Sound, copied, numerals]
    | bare t => simp [Piece.Sound, copied, numerals, and_left_comm]
    | quoted t => simp [Piece.Sound, copied, numerals, and_assoc]

theorem number_or_clash (h : Printed t) : Number t ∨ scan .other t = .clash := by
  refine h.imp_right fun h => ?_
  simp only [List.mem_cons, List.not_mem_nil, or_false] at h
  rcases h with rfl | rfl | rfl | rfl <;> decide

/-- Lists of pieces with commas between them. -/
def joined : List Append → List Piece
  | [] => []
  | a :: as => a ++ as.flatMap (.lit (str ",") :: ·)

theorem render_joined (as : List Append) : render (joined as) = commas (as.map render) := by
  cases as with
  | nil => rfl
  | cons a as =>
    rw [joined, render_append, List.map_cons, commas]
    congr 1
    induction as with
    | nil => rfl
    | cons a as ih => simp [Piece.text, ih]

theorem sound_joined {as : List Append} : Sound N (joined as) ↔ ∀ a ∈ as, Sound N a := by
  cases as with
  | nil => simp [joined]
  | cons a as =>
    have hrest : Sound N (as.flatMap (.lit (str ",") :: ·)) ↔ ∀ b ∈ as, Sound N b := by
      induction as with
      | nil => simp
      | cons b as ih => simp [Piece.Sound, ih]
    rw [joined, sound_append, hrest, List.forall_mem_cons]

/-! ## Trees as pieces -/

mutual

def treePieces : Tree → List Piece
  | .num t => [.bare t]
  | .str t => [.quoted t]
  | .arr xs => .lit (str "[") :: joined (treesPieces xs) ++ [.lit (str "]")]
  | .obj ms => .lit (str "\x7b") :: joined (memberPieces ms) ++ [.lit (str "\x7d")]

def treesPieces : List Tree → List Append
  | [] => []
  | x :: xs => treePieces x :: treesPieces xs

def memberPieces : List (Text × Tree) → List Append
  | [] => []
  | (k, x) :: ms => (.quoted k :: .lit (str ":") :: treePieces x) :: memberPieces ms

end

mutual

theorem render_treePieces (x : Tree) : render (treePieces x) = x.print := by
  cases x with
  | num t => simp [treePieces, Tree.print, Piece.text]
  | str t => simp [treePieces, Tree.print, Piece.text]
  | arr xs =>
    simp [treePieces, Tree.print, Piece.text, render_joined, map_render_treesPieces xs]
  | obj ms =>
    simp [treePieces, Tree.print, Piece.text, render_joined, map_render_memberPieces ms]

theorem map_render_treesPieces (xs : List Tree) : (treesPieces xs).map render = Tree.prints xs := by
  cases xs with
  | nil => simp [treesPieces, Tree.prints]
  | cons x xs =>
    rw [treesPieces, List.map_cons, render_treePieces x, map_render_treesPieces xs, Tree.prints]

theorem map_render_memberPieces (ms : List (Text × Tree)) :
    (memberPieces ms).map render = Tree.printMembers ms := by
  cases ms with
  | nil => simp [memberPieces, Tree.printMembers]
  | cons m ms =>
    obtain ⟨k, x⟩ := m
    rw [memberPieces, List.map_cons, map_render_memberPieces ms, Tree.printMembers]
    simp [Piece.text, render_treePieces x]

end

theorem treesPieces_eq (xs : List Tree) : treesPieces xs = xs.map treePieces := by
  induction xs with
  | nil => rfl
  | cons x xs ih => rw [treesPieces, ih, List.map_cons]

theorem memberPieces_eq (ms : List (Text × Tree)) :
    memberPieces ms = ms.map fun m => .quoted m.1 :: .lit (str ":") :: treePieces m.2 := by
  induction ms with
  | nil => rfl
  | cons m ms ih => rw [memberPieces, ih, List.map_cons]

theorem sound_arr {xs : List Tree} :
    Sound N (treePieces (.arr xs)) ↔ ∀ x ∈ xs, Sound N (treePieces x) := by
  simp [treePieces, Piece.Sound, sound_joined, treesPieces_eq]

theorem sound_memberPieces {ms : List (Text × Tree)} :
    Sound N (joined (memberPieces ms)) ↔ ∀ m ∈ ms, Clean m.1 ∧ Sound N (treePieces m.2) := by
  rw [sound_joined, memberPieces_eq, List.forall_mem_map]
  simp [Piece.Sound]

theorem sound_memberPieces_append {ms ms' : List (Text × Tree)} :
    Sound N (joined (memberPieces (ms ++ ms'))) ↔
      Sound N (joined (memberPieces ms)) ∧ Sound N (joined (memberPieces ms')) := by
  simp only [sound_memberPieces, List.forall_mem_append]

theorem sound_obj {ms : List (Text × Tree)} :
    Sound N (treePieces (.obj ms)) ↔ ∀ m ∈ ms, Clean m.1 ∧ Sound N (treePieces m.2) := by
  rw [← sound_memberPieces]
  simp [treePieces, Piece.Sound]

mutual

theorem good_iff (x : Tree) : x.Good ↔ Sound Number (treePieces x) := by
  cases x with
  | num t => simp [Tree.Good, treePieces, Piece.Sound]
  | str t => simp [Tree.Good, treePieces, Piece.Sound]
  | arr xs =>
    rw [Tree.Good, sound_arr, Tree.allGood_iff]
    exact forall₂_congr (all_good_iff xs)
  | obj ms =>
    rw [Tree.Good, sound_obj, Tree.membersGood_iff]
    exact forall₂_congr fun m hm => and_congr_right fun _ => members_good_iff ms m hm

theorem all_good_iff (xs : List Tree) : ∀ x ∈ xs, x.Good ↔ Sound Number (treePieces x) := by
  cases xs with
  | nil => exact List.forall_mem_nil _
  | cons x xs => exact List.forall_mem_cons.mpr ⟨good_iff x, all_good_iff xs⟩

theorem members_good_iff (ms : List (Text × Tree)) :
    ∀ m ∈ ms, m.2.Good ↔ Sound Number (treePieces m.2) := by
  cases ms with
  | nil => exact List.forall_mem_nil _
  | cons m ms => exact List.forall_mem_cons.mpr ⟨good_iff m.2, members_good_iff ms⟩

end

theorem membersGood_iff_sound {ms : List (Text × Tree)} :
    Tree.MembersGood ms ↔ Sound Number (joined (memberPieces ms)) := by
  rw [Tree.membersGood_iff, sound_memberPieces]
  exact forall₂_congr fun m hm => and_congr_right fun _ => good_iff m.2

theorem membersGood_or_of {ms : List (Text × Tree)} (hname : ∀ m ∈ ms, Clean m.1)
    (h : ∀ m ∈ ms, m.2.Good ∨ scan .other m.2.print = .clash) :
    Tree.MembersGood ms ∨ scan .brace (commas (Tree.printMembers ms)) = .clash := by
  rw [Tree.membersGood_iff, Tree.printMembers_eq]
  have hor := scan_members_or hname (fun m _ hgood => scan_value (m.2.value_print hgood)) h
  exact hor.imp_left fun hgood m hm => ⟨hname m hm, hgood m hm⟩

mutual

/-- A tree of plain strings whose numbers `%f` may have printed. -/
theorem good_or_clash (x : Tree) (h : Sound Printed (treePieces x)) :
    x.Good ∨ scan .other x.print = .clash := by
  cases x with
  | num t =>
    rw [Tree.Good, Tree.print]
    exact number_or_clash (by simpa [treePieces, Piece.Sound] using h)
  | str t => exact Or.inl (by simpa [Tree.Good, treePieces, Piece.Sound] using h)
  | arr xs =>
    rw [Tree.Good, Tree.allGood_iff, Tree.print, Tree.prints_eq]
    exact scan_array_or (fun x _ hgood => scan_value (x.value_print hgood))
      (all_good_or_clash xs (sound_arr.mp h))
  | obj ms =>
    have hms := sound_obj.mp h
    rw [Tree.Good, Tree.print]
    exact (membersGood_or_of (fun m hm => (hms m hm).1)
      (members_good_or_clash ms fun m hm => (hms m hm).2)).imp_right scan_object_clash

theorem all_good_or_clash (xs : List Tree) (h : ∀ x ∈ xs, Sound Printed (treePieces x)) :
    ∀ x ∈ xs, x.Good ∨ scan .other x.print = .clash := by
  cases xs with
  | nil => exact List.forall_mem_nil _
  | cons x xs =>
    obtain ⟨hx, hxs⟩ := List.forall_mem_cons.mp h
    exact List.forall_mem_cons.mpr ⟨good_or_clash x hx, all_good_or_clash xs hxs⟩

theorem members_good_or_clash (ms : List (Text × Tree))
    (h : ∀ m ∈ ms, Sound Printed (treePieces m.2)) :
    ∀ m ∈ ms, m.2.Good ∨ scan .other m.2.print = .clash := by
  cases ms with
  | nil => exact List.forall_mem_nil _
  | cons m ms =>
    obtain ⟨hm, hms⟩ := List.forall_mem_cons.mp h
    exact List.forall_mem_cons.mpr ⟨good_or_clash m.2 hm, members_good_or_clash ms hms⟩

end

/-- Members of plain strings whose numbers `%f` may have printed. -/
theorem membersGood_or_clash {ms : List (Text × Tree)}
    (h : Sound Printed (joined (memberPieces ms))) :
    Tree.MembersGood ms ∨ scan .brace (commas (Tree.printMembers ms)) = .clash := by
  rw [sound_memberPieces] at h
  exact membersGood_or_of (fun m hm => (h m hm).1) fun m hm => good_or_clash m.2 (h m hm).2

/-- The pieces print the members, and hold the same texts and numbers. -/
structure Prints (ps : List Piece) (ms : List (Text × Tree)) : Prop where
  text : render ps = commas (Tree.printMembers ms)
  sound : ∀ N, Sound N ps ↔ Sound N (joined (memberPieces ms))

theorem Prints.members {ms : List (Text × Tree)} (h : Prints ps ms) (hs : Sound Number ps) :
    Members (render ps) := by
  rw [h.text]
  exact Tree.members_print (membersGood_iff_sound.mpr ((h.sound Number).mp hs))

theorem Prints.or_clash {ms : List (Text × Tree)} (h : Prints ps ms) (hs : Sound Printed ps) :
    Sound Number ps ∨ scan .brace (render ps) = .clash := by
  rw [h.text, h.sound Number, ← membersGood_iff_sound]
  exact membersGood_or_clash ((h.sound Printed).mp hs)

theorem prints_memberPieces (ms : List (Text × Tree)) : Prints (joined (memberPieces ms)) ms where
  text := by rw [render_joined, map_render_memberPieces]
  sound := fun _ => Iff.rfl

/-! ## Columns -/

variable {σ : Type} {cols : List (Text × (σ → Piece))} {f g : Nat → σ} {k : Nat}

theorem length_column (head : Text) (cell : Nat → Piece) (k : Nat) :
    (column head cell k).length = k + 1 := by
  simp [column, cells]

/-- The appends of a table give back every cell. -/
theorem cell_of_columns (h : columns cols f k = columns cols g k) :
    ∀ c ∈ cols, ∀ i < k, c.2 (f i) = c.2 (g i) := by
  induction cols with
  | nil => exact List.forall_mem_nil _
  | cons c cols ih =>
    have happend : column c.1 (fun i => c.2 (f i)) k ++ columns cols f k =
        column c.1 (fun i => c.2 (g i)) k ++ columns cols g k := h
    obtain ⟨hhead, htail⟩ := List.append_inj happend (by rw [length_column, length_column])
    refine List.forall_mem_cons.mpr ⟨fun i hi => ?_, ih htail⟩
    have hcell := (List.map_inj_left.mp (List.cons.inj hhead).2) i (List.mem_range.mpr hi)
    simpa using hcell

/-! ## Columns as members -/

/-- The value a piece prints. -/
def Piece.tree : Piece → Tree
  | lit t => .num t
  | bare t => .num t
  | quoted t => .str t

@[simp] theorem print_tree (p : Piece) : p.tree.print = p.text := by
  cases p <;> simp [Piece.tree, Piece.text, Tree.print]

/-- Named columns with the texts that a table prints before each: the first after
`before`, the others after the end of the array before them. -/
def titled (before : Text) : List (Text × (σ → Piece)) → List (Text × (σ → Piece))
  | [] => []
  | (name, cell) :: cols => (before ++ quote name ++ str ":[", cell) :: titled (str "],") cols

/-- The members that a table prints. -/
def columnTrees (cols : List (Text × (σ → Piece))) (slot : Nat → σ) (k : Nat) :
    List (Text × Tree) :=
  cols.map fun c => (c.1, .arr ((List.range k).map fun i => (c.2 (slot i)).tree))

theorem render_column (head : Text) (cell : Nat → Piece) (k : Nat) :
    render (column head cell k).flatten =
      head ++ commas ((List.range k).map fun i => (cell i).text) := by
  rw [column, cells, List.flatten_cons, render_append]
  congr 1
  · simp [Piece.text]
  cases k with
  | zero => rfl
  | succ k =>
    rw [List.range_succ_eq_map, List.map_cons, List.map_cons, List.map_map, List.map_map,
      List.flatten_cons, render_append, commas]
    congr 1
    · simp [Piece.text]
    induction List.range k with
    | nil => rfl
    | cons i is ih =>
      simp only [List.map_cons, List.flatten_cons, List.flatMap_cons, render_append, ih]
      simp [Piece.text]

/-- A table with the end of its last array. -/
theorem render_columns (before : Text) (hne : cols ≠ []) :
    render (columns (titled before cols) f k).flatten ++ str "]" =
      before ++ commas (Tree.printMembers (columnTrees cols f k)) := by
  induction cols generalizing before with
  | nil => exact absurd rfl hne
  | cons c cols ih =>
    obtain ⟨name, cell⟩ := c
    have hcells : Tree.prints ((List.range k).map fun i => (cell (f i)).tree) =
        (List.range k).map fun i => (cell (f i)).text := by
      simp [Tree.prints_eq, Function.comp_def]
    have hhead : render (columns (titled before ((name, cell) :: cols)) f k).flatten =
        before ++ quote name ++ str ":[" ++
          commas ((List.range k).map fun i => (cell (f i)).text) ++
          render (columns (titled (str "],") cols) f k).flatten := by
      rw [titled, columns, List.flatMap_cons, List.flatten_append, render_append, render_column]
      rfl
    have htree : commas (Tree.printMembers (columnTrees ((name, cell) :: cols) f k)) =
        quote name ++ str ":[" ++ commas ((List.range k).map fun i => (cell (f i)).text) ++
          str "]" ++ commasAfter true (Tree.printMembers (columnTrees cols f k)) := by
      have hopen : str ":[" = str ":" ++ str "[" := by decide
      rw [columnTrees, List.map_cons, Tree.printMembers, commas, Tree.print, hcells, hopen]
      simp [commasAfter, columnTrees]
    rw [hhead, htree]
    cases cols with
    | nil => simp [titled, columns, commasAfter, columnTrees, Tree.printMembers]
    | cons c cols =>
      have hrest := ih (str "],") (by simp)
      have hend : str "]," = str "]" ++ str "," := by decide
      rw [List.append_assoc, hrest, commasAfter_true (by simp [columnTrees, Tree.printMembers]),
        hend]
      simp only [List.append_assoc]

/-- A table whose first title is part of an earlier append. -/
theorem render_cells (name : Text) (cell : σ → Piece) (cols : List (Text × (σ → Piece))) :
    quote name ++ str ":[" ++
        render (cells (fun i => cell (f i)) k ++ columns (titled (str "],") cols) f k).flatten ++
        str "]" =
      commas (Tree.printMembers (columnTrees ((name, cell) :: cols) f k)) := by
  have htable := render_columns (f := f) (k := k) [] (List.cons_ne_nil (name, cell) cols)
  rw [List.nil_append] at htable
  rw [← htable]
  simp [titled, columns, column, Piece.text]

/-! ## Sound columns -/

theorem sound_cells {cell : Nat → Piece} :
    Sound N (cells cell k).flatten ↔ ∀ i < k, (cell i).Sound N := by
  rw [sound_flatten, cells, List.forall_mem_map]
  simp [Piece.Sound]

theorem sound_columns (before : Text) :
    Sound N (columns (titled before cols) f k).flatten ↔
      ∀ c ∈ cols, ∀ i < k, (c.2 (f i)).Sound N := by
  induction cols generalizing before with
  | nil => simp [titled, columns]
  | cons c cols ih =>
    obtain ⟨name, cell⟩ := c
    have hrest := ih (str "],")
    rw [columns] at hrest
    rw [titled, columns, List.flatMap_cons, List.flatten_append, sound_append, hrest, column,
      List.flatten_cons, sound_append, sound_cells, List.forall_mem_cons]
    simp [Piece.Sound]

/-- The value a cell prints is as sound as the cell. -/
theorem sound_tree {p : Piece} (h : ∀ t, p ≠ .lit t) : Sound N (treePieces p.tree) ↔ p.Sound N := by
  cases p with
  | lit t => exact absurd rfl (h t)
  | bare t => simp [Piece.tree, treePieces]
  | quoted t => simp [Piece.tree, treePieces]

theorem sound_columnTrees (hnames : ∀ c ∈ cols, Clean c.1)
    (hlit : ∀ c ∈ cols, ∀ s t, c.2 s ≠ .lit t) :
    Sound N (joined (memberPieces (columnTrees cols f k))) ↔
      ∀ c ∈ cols, ∀ i < k, (c.2 (f i)).Sound N := by
  rw [sound_memberPieces, columnTrees, List.forall_mem_map]
  refine forall₂_congr fun c hc => ?_
  rw [and_iff_right (hnames c hc), sound_arr, List.forall_mem_map]
  simp only [List.mem_range]
  exact forall₂_congr fun i _ => sound_tree (hlit c hc (f i))

theorem columnTrees_good (hnames : ∀ c ∈ cols, Clean c.1)
    (hcells : ∀ c ∈ cols, ∀ i < k, (c.2 (f i)).tree.Good) :
    Tree.MembersGood (columnTrees cols f k) := by
  rw [Tree.membersGood_iff]
  intro m hm
  obtain ⟨c, hc, rfl⟩ := List.mem_map.mp hm
  refine ⟨hnames c hc, ?_⟩
  rw [Tree.Good, Tree.allGood_iff]
  intro x hx
  obtain ⟨i, hi, rfl⟩ := List.mem_map.mp hx
  exact hcells c hc i (List.mem_range.mp hi)

/-- The arrays of a table have one length, also with numbers behind them. -/
theorem columnTrees_even (cols : List (Text × (σ → Piece))) (f : Nat → σ) (k : Nat)
    (totals : List (Text × Text)) :
    (Tree.obj (columnTrees cols f k ++ Tree.nums totals)).Even := by
  rw [Tree.Even, Tree.membersEven_iff]
  refine ⟨⟨k, fun m hm xs hxs => ?_⟩, fun m hm => ?_⟩
  · rcases List.mem_append.mp hm with hm | hm
    · obtain ⟨c, -, rfl⟩ := List.mem_map.mp hm
      obtain rfl := Tree.arr.inj hxs
      simp
    · obtain ⟨c, -, rfl⟩ := List.mem_map.mp hm
      cases hxs
  · rcases List.mem_append.mp hm with hm | hm
    · obtain ⟨c, -, rfl⟩ := List.mem_map.mp hm
      rw [Tree.Even, Tree.allEven_iff]
      intro x hx
      obtain ⟨i, -, rfl⟩ := List.mem_map.mp hx
      cases c.2 (f i) <;> simp [Piece.tree, Tree.Even]
    · obtain ⟨c, -, rfl⟩ := List.mem_map.mp hm
      simp [Tree.Even]

end Format
