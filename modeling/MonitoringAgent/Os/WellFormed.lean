import MonitoringAgent.Os.Sections

/-!
# Messages of the operating system

Each section is the printing of an object, and so is what `os_gather` leaves of them
inside `"values"`, whatever is missing and in whatever order the sections are taken.
-/
namespace MonitoringAgent

open Buffer Decimal Format Json Command Packet SectionTree

/-! ## The objects -/

def cpuTrees : Option (Option Cpu) → List (Text × Tree)
  | some (some c) => Tree.nums [(str "user", c.user), (str "sys", c.sys), (str "idle", c.idle)]
  | some none => []
  | none => []

def Dev.names : List (Text × (Dev → Piece)) :=
  [(str "name", fun d => .quoted d.label),
    (str "tot", fun d => .bare (number d.tot)),
    (str "free", fun d => .bare (number d.free)),
    (str "avail", fun d => .bare (number d.avail)),
    (str "r", fun d => .bare (number d.stat.r)),
    (str "rsec", fun d => .bare (number d.stat.rkb)),
    (str "rt", fun d => .bare (number d.stat.rt)),
    (str "w", fun d => .bare (number d.stat.w)),
    (str "wsec", fun d => .bare (number d.stat.wkb)),
    (str "wt", fun d => .bare (number d.stat.wt)),
    (str "weight", fun d => .bare (number d.stat.weight))]

/-- The devices that stay, each with its share of `io_tot`. -/
def devs (pipe : Option Mounts) : List (Dev × UInt64) :=
  match pipe with
  | none => []
  | some lines => lines.list.filterMap Mount.dev

def diskTrees (found : List (Dev × UInt64)) : List (Text × Tree) :=
  if found = [] then []
  else
    columnTrees Dev.names (slot (found.map Prod.fst)) found.length ++
      Tree.nums [(str "io_tot", number ((found.map Prod.snd).foldl (· + ·) 0))]

def memoryTrees : Option (Option MemInfo) → List (Text × Tree)
  | some (some m) =>
    Tree.nums [(str "total", number m.total), (str "free", number m.free),
      (str "cached", number m.cached), (str "user", number (m.active + m.inactive)),
      (str "sys", number (m.total - m.free - m.active - m.inactive)), (str "virtual", m.used)]
  | some none => []
  | none => []

def NetIf.names : List (Text × (NetIf → Piece)) :=
  [(str "name", fun n => .quoted n.name.text),
    (str "i_byte", fun n => .bare (number n.iByte)),
    (str "o_byte", fun n => .bare (number n.oByte)),
    (str "i_pckt", fun n => .bare (number n.iPckt)),
    (str "o_pckt", fun n => .bare (number n.oPckt)),
    (str "i_err", fun n => .bare (number n.iErr)),
    (str "o_err", fun n => .bare (number n.oErr))]

def netIfsOf (pipe : Option (Rows (Option NetIf) bfsz)) : List NetIf :=
  match pipe with
  | none => []
  | some lines => netIfs lines.list

def networkTrees (netIf : List NetIf) : List (Text × Tree) :=
  if netIf = [] then []
  else
    columnTrees NetIf.names (slot netIf) netIf.length ++
      Tree.nums [(str "i_tot", number ((netIf.map NetIf.iByte).foldl (· + ·) 0)),
        (str "o_tot", number ((netIf.map NetIf.oByte).foldl (· + ·) 0))]

def Top.names (share : Text) : List (Text × (Top → Piece)) :=
  [(str "name", fun t => .quoted t.name.text), (share, fun t => .bare t.share)]

def Proc.names : List (Text × (Proc → Piece)) :=
  [(str "name", fun p => .quoted p.name.text),
    (str "user", fun p => .quoted p.user.text),
    (str "count", fun p => .bare (number p.count)),
    (str "cpu", fun p => .bare p.cpu),
    (str "mem", fun p => .bare p.mem)]

/-- One block of the process section, if there are rows for it. -/
def blockTree {α : Type} [Inhabited α] (name : Text) (names : List (Text × (α → Piece)))
    (rows : List α) : List (Text × Tree) :=
  if rows = [] then [] else [(name, .obj (columnTrees names (slot rows) rows.length))]

def procListTrees : Option (Rows Proc 10) → List (Text × Tree)
  | none => []
  | some list => blockTree (str "list") Proc.names list.list

def procMemoryTrees (memory : Option (Rows Top 10)) (list : Option (Rows Proc 10)) :
    List (Text × Tree) :=
  match memory with
  | none => []
  | some memory =>
    blockTree (str "mem_top10") (Top.names (str "mem")) memory.list ++ procListTrees list

/-- The blocks up to the first command that cannot be started. -/
def procTrees (cpu memory : Option (Rows Top 10)) (list : Option (Rows Proc 10)) :
    List (Text × Tree) :=
  match cpu with
  | none => []
  | some cpu =>
    blockTree (str "cpu_top10") (Top.names (str "cpu")) cpu.list ++ procMemoryTrees memory list

/-- The members of a section. -/
def OsSection.trees (a : OsAnswers) : OsSection → List (Text × Tree)
  | cpu => cpuTrees a.cpu
  | disk => diskTrees (devs a.mounts)
  | proc => procTrees a.topCpu a.topMemory a.procs
  | mem => memoryTrees a.memory
  | net => networkTrees (netIfsOf a.network)

/-- The section function returns ENONE. -/
def OsSection.found (a : OsAnswers) (sec : OsSection) : Bool :=
  ((sec.gatherer a).emit (ch '{')).2 = .enone

/-! ## What the functions emit -/

/-- The function emits the members, and does not change to another result than ENODATA. -/
structure EmitsMembers (g : Gatherer) (ms : List (Text × Tree)) : Prop where
  text : (g.emit (ch '{')).1 = commas (Tree.printMembers ms)
  res : (g.emit (ch '{')).2 = .enone ∨ (g.emit (ch '{')).2 = .enodata

theorem emitsMembers_output {o : Output} {ms : List (Text × Tree)}
    (h : o.text = commas (Tree.printMembers ms)) : EmitsMembers o.gatherer ms := by
  constructor
  · rw [o.emit_gatherer]
    exact h
  · rw [o.emit_gatherer]
    cases o.found
    · exact Or.inr rfl
    · exact Or.inl rfl

/-- A function that only appends, by the rows it has found. -/
theorem EmitsMembers.emit_output {o : Output} {ms : List (Text × Tree)} {α : Type} {rows : List α}
    (h : EmitsMembers o.gatherer ms) (hfound : o.found = true ↔ rows ≠ []) (last : Byte) :
    o.gatherer.emit last =
      (commas (Tree.printMembers ms), if rows = [] then .enodata else .enone) := by
  have htext := h.text
  rw [Output.emit_gatherer] at htext ⊢
  refine Prod.ext htext ?_
  by_cases hnil : rows = []
  · rw [if_pos hnil, if_neg (by simpa [hnil] using hfound)]
  · rw [if_neg hnil, if_pos (hfound.mpr hnil)]

theorem emits_cpu (pipe : Option (Option Cpu)) :
    EmitsMembers (osGatherCpu pipe).gatherer (cpuTrees pipe) := by
  refine emitsMembers_output ?_
  rcases pipe with - | - | c <;> rfl

theorem emits_memory (pipe : Option (Option MemInfo)) :
    EmitsMembers (osGatherMemory pipe).gatherer (memoryTrees pipe) := by
  refine emitsMembers_output ?_
  rcases pipe with - | - | m <;> rfl

theorem Dev.cols_eq : Dev.cols = titled [] Dev.names := rfl

theorem NetIf.cols_eq : NetIf.cols = titled [] NetIf.names := rfl

/-- A table and the totals behind it. -/
theorem render_totals {σ : Type} {names : List (Text × (σ → Piece))} (hne : names ≠ [])
    {slots : Nat → σ} {k : Nat} {totals : List Append} {ms : List (Text × Tree)}
    (h : render totals.flatten = str "]" ++ commasAfter true (Tree.printMembers ms)) :
    render (columns (titled [] names) slots k ++ totals).flatten =
      commas (Tree.printMembers (columnTrees names slots k ++ ms)) := by
  have htable := render_columns (f := slots) (k := k) [] hne
  have hsplit := commasAfter_append false (Tree.printMembers (columnTrees names slots k))
    (Tree.printMembers ms)
  have hempty : (Tree.printMembers (columnTrees names slots k)).isEmpty = false := by
    cases names with
    | nil => exact absurd rfl hne
    | cons c cols => rfl
  rw [hempty, Bool.not_false, Bool.or_true, ← Tree.printMembers_append] at hsplit
  rw [List.flatten_append, render_append, h, ← List.append_assoc, htable, List.nil_append]
  exact hsplit.symm

theorem emits_disk (pipe : Option Mounts) :
    EmitsMembers (osGatherDisk pipe).gatherer (diskTrees (devs pipe)) := by
  refine emitsMembers_output ?_
  cases pipe with
  | none => rfl
  | some lines =>
    simp only [osGatherDisk, devs, List.length_map, List.length_eq_zero_iff]
    generalize lines.list.filterMap Mount.dev = found
    unfold diskTrees
    by_cases hnil : found = []
    · rw [if_pos hnil, if_pos hnil]
      rfl
    · rw [if_neg hnil, if_neg hnil, Output.text, Dev.cols_eq]
      refine render_totals (List.cons_ne_nil _ _) ?_
      rfl

theorem emits_network (pipe : Option (Rows (Option NetIf) bfsz)) :
    EmitsMembers (osGatherNetwork pipe).gatherer (networkTrees (netIfsOf pipe)) := by
  refine emitsMembers_output ?_
  cases pipe with
  | none => rfl
  | some lines =>
    simp only [osGatherNetwork, netIfsOf, List.length_eq_zero_iff]
    generalize netIfs lines.list = netIf
    unfold networkTrees
    by_cases hnil : netIf = []
    · rw [if_pos hnil, if_pos hnil]
      rfl
    · rw [if_neg hnil, if_neg hnil, Output.text, NetIf.cols_eq]
      refine render_totals (List.cons_ne_nil _ _) ?_
      rfl

/-- The columns of a table hold its rows in order. -/
theorem columnTrees_slot {σ : Type} [Inhabited σ] (cols : List (Text × (σ → Piece)))
    (rows : List σ) : columnTrees cols (slot rows) rows.length =
      cols.map fun c => (c.1, .arr (rows.map fun row => (c.2 row).tree)) := by
  have hrows : (List.range rows.length).map (slot rows) = rows := by
    refine List.ext_getElem (by simp) ?_
    intro i h₁ h₂
    simp [slot, h₂]
  refine List.map_congr_left fun c _ => ?_
  conv_rhs => rw [← hrows, List.map_map]
  rfl

/-- A sum in unsigned 64-bit arithmetic. -/
theorem toNat_foldl_add (vs : List UInt64) :
    (vs.foldl (· + ·) 0).toNat = (vs.map UInt64.toNat).sum % 2 ^ 64 := by
  induction vs using List.reverseRecOn with
  | nil => rfl
  | append_singleton vs v ih =>
    rw [List.foldl_append, List.foldl_cons, List.foldl_nil, UInt64.toNat_add, ih, List.map_append,
      List.sum_append]
    simp

/-! ## The process section -/

theorem lastAfter_append (last : Byte) (s t : Text) :
    lastAfter last (s ++ t) = lastAfter (lastAfter last s) t := by
  cases t using List.reverseRecOn with
  | nil => simp [lastAfter]
  | append_singleton t c => simp [lastAfter, ← List.append_assoc]

theorem emit_appendAll (appends : List Append) (k : Gatherer) (last : Byte) :
    (appendAll appends k).emit last =
      (render appends.flatten ++ (k.emit (lastAfter last (render appends.flatten))).1,
        (k.emit (lastAfter last (render appends.flatten))).2) := by
  induction appends generalizing last with
  | nil => rfl
  | cons a as ih =>
    have hstep : (appendAll (a :: as) k).emit last =
        (render a ++ ((appendAll as k).emit (lastAfter last (render a))).1,
          ((appendAll as k).emit (lastAfter last (render a))).2) := rfl
    rw [hstep, ih, List.flatten_cons, render_append, lastAfter_append, List.append_assoc]

/-- A function that appends members behind those before it, and returns `error` if it has
none. -/
def EmitsAfter (g : Gatherer) (error : GatherError) (ms : List (Text × Tree)) : Prop :=
  ∀ last, g.emit last =
    (commasAfter (decide (last ≠ ch '{')) (Tree.printMembers ms), if ms = [] then error else .enone)

theorem emitsAfter_ret (error : GatherError) : EmitsAfter (.ret error) error [] := by
  intro last
  cases h : decide (last ≠ ch '{') <;> rfl

/-- A block and what follows it. -/
theorem emitsAfter_block {σ : Type} {name first open_ : Text} {cell : σ → Piece}
    {cols : List (Text × (σ → Piece))} {slots : Nat → σ} {n : Nat} {appends : List Append}
    {k : Gatherer} {ms : List (Text × Tree)} (error : GatherError)
    (hopen : open_ = quote name ++ str ":\x7b" ++ (quote first ++ str ":["))
    (happends : appends = cells (fun i => cell (slots i)) n ++
      columns (titled (str "],") cols) slots n ++ [[.lit (str "]\x7d")]])
    (hk : EmitsAfter k .enone ms) :
    EmitsAfter (.appendAfter (fun last => unlessFirst last ++ open_) (appendAll appends k)) error
      ((name, .obj (columnTrees ((first, cell) :: cols) slots n)) :: ms) := by
  intro last
  -- the object, from its opening brace to its closing one
  have hobj : str "\x7b" ++ (quote first ++ str ":[") ++ render appends.flatten =
      (Tree.obj (columnTrees ((first, cell) :: cols) slots n)).print := by
    have hcells := render_cells (f := slots) (k := n) first cell cols
    have hend : str "]\x7d" = str "]" ++ str "\x7d" := by decide
    rw [Tree.print, ← hcells, happends, List.flatten_append, render_append]
    simp [Piece.text, hend]
  have hlast : ∀ b, lastAfter b (render appends.flatten) = ch '}' := by
    intro b
    have hbrace : (str "]\x7d").getLast? = some (ch '}') := by decide
    rw [happends, List.flatten_append, render_append, lastAfter_append]
    simp [Piece.text, lastAfter, List.getLastD_eq_getLast?, hbrace]
  have hcolon : str ":\x7b" = str ":" ++ str "\x7b" := by decide
  rw [Gatherer.emit, emit_appendAll, hlast, hk (ch '}'), Tree.printMembers, commasAfter_cons,
    ← hobj, hopen, hcolon]
  have hbrace : decide (ch '}' ≠ ch '{') = true := by decide
  by_cases hfirst : last = ch '{' <;> simp [unlessFirst, hfirst, hbrace]

theorem emitsAfter_list (list : Option (Rows Proc 10)) (error : GatherError) :
    EmitsAfter (procList list error) error (procListTrees list) := by
  cases list with
  | none => exact emitsAfter_ret error
  | some rows =>
    simp only [procList, procListTrees, blockTree, List.length_eq_zero_iff]
    split
    · exact emitsAfter_ret error
    · exact emitsAfter_block error (by decide) rfl (emitsAfter_ret .enone)

/-- One of the first two blocks and what follows it. -/
theorem emitsAfter_top {name share title open_ : Text} (rows : List Top) {k : Gatherer}
    {ms : List (Text × Tree)} (error : GatherError)
    (hopen : open_ = quote name ++ str ":\x7b" ++ (quote (str "name") ++ str ":["))
    (htitle : title = str "]," ++ quote share ++ str ":[") (hk : EmitsAfter k .enone ms) :
    EmitsAfter (.appendAfter (fun last => unlessFirst last ++ open_)
      (appendAll (Top.block title rows) k)) error
      ((name, .obj (columnTrees (Top.names share) (slot rows) rows.length)) :: ms) := by
  refine emitsAfter_block error hopen ?_ hk
  simp [Top.block, columns, titled, htitle]

theorem emitsAfter_memory (memory : Option (Rows Top 10)) (list : Option (Rows Proc 10))
    (error : GatherError) :
    EmitsAfter (procMemory memory list error) error (procMemoryTrees memory list) := by
  cases memory with
  | none => exact emitsAfter_ret error
  | some rows =>
    simp only [procMemory, procMemoryTrees, blockTree, List.length_eq_zero_iff]
    split
    · exact emitsAfter_list list error
    · exact emitsAfter_top rows.list error (by decide) (by decide) (emitsAfter_list list .enone)

theorem emits_proc (cpu memory : Option (Rows Top 10)) (list : Option (Rows Proc 10)) :
    EmitsMembers (osGatherProc cpu memory list) (procTrees cpu memory list) := by
  have hmembers : ∀ {g : Gatherer} {ms : List (Text × Tree)}, EmitsAfter g .enodata ms →
      EmitsMembers g ms := by
    intro g ms h
    have hemit := h (ch '{')
    refine ⟨congrArg Prod.fst hemit, ?_⟩
    rw [hemit]
    split
    · exact Or.inr rfl
    · exact Or.inl rfl
  cases cpu with
  | none => exact ⟨rfl, Or.inr rfl⟩
  | some rows =>
    simp only [osGatherProc, procTrees, blockTree, List.length_eq_zero_iff]
    split
    · exact hmembers (emitsAfter_memory memory list .enodata)
    · -- the first block looks at nothing, and finds the brace of the section before it
      have hopen : str "\"cpu_top10\":\x7b\"name\":[" =
          quote (str "cpu_top10") ++ str ":\x7b" ++ (quote (str "name") ++ str ":[") := by decide
      have htitle : str "],\"cpu\":[" = str "]," ++ quote (str "cpu") ++ str ":[" := by decide
      have hblock := hmembers (emitsAfter_top rows.list .enodata hopen htitle
        (emitsAfter_memory memory list .enone))
      exact ⟨hblock.text, hblock.res⟩

theorem OsSection.emits (a : OsAnswers) (sec : OsSection) :
    EmitsMembers (sec.gatherer a) (sec.trees a) := by
  cases sec with
  | cpu => exact emits_cpu a.cpu
  | disk => exact emits_disk a.mounts
  | proc => exact emits_proc a.topCpu a.topMemory a.procs
  | mem => exact emits_memory a.memory
  | net => exact emits_network a.network

/-! ## Names and numbers -/

/-- The names are free of quotes, backslashes and control characters, and the numbers in
floating point are printed as numbers. -/
structure OsAnswers.Valid (a : OsAnswers) : Prop where
  cpu : ∀ c, a.cpu = some (some c) → Number c.user ∧ Number c.sys ∧ Number c.idle
  mounts : ∀ rows, a.mounts = some rows → ∀ l ∈ rows.list,
    Clean l.name.text ∧ Clean l.mount.text
  topCpu : ∀ rows, a.topCpu = some rows → ∀ t ∈ rows.list, Clean t.name.text ∧ Number t.share
  topMemory : ∀ rows, a.topMemory = some rows → ∀ t ∈ rows.list,
    Clean t.name.text ∧ Number t.share
  procs : ∀ rows, a.procs = some rows → ∀ p ∈ rows.list,
    Clean p.name.text ∧ Clean p.user.text ∧ Number p.cpu ∧ Number p.mem
  memory : ∀ m, a.memory = some (some m) → Number m.used
  network : ∀ rows, a.network = some rows → ∀ n, some n ∈ rows.list → Clean n.name.text

variable {a : OsAnswers}

theorem slot_mem {α : Type} [Inhabited α] {rows : List α} {i : Nat} (h : i < rows.length) :
    slot rows i ∈ rows := by
  rw [slot, List.getD_eq_getElem?_getD, List.getElem?_eq_getElem h]
  exact List.getElem_mem h

theorem number_good (n : UInt64) : Number (number n) := number_decimal n.toNat

theorem Mount.dev_eq {l : Mount} {d : Dev} {io : UInt64} (h : l.dev = some (d, io)) :
    d.name = l.name ∧ d.mount = l.mount := by
  obtain ⟨vfs, -, h⟩ := Option.bind_eq_some_iff.mp h
  obtain ⟨size, -, h⟩ := Option.bind_eq_some_iff.mp h
  obtain ⟨stat, -, h⟩ := Option.bind_eq_some_iff.mp h
  obtain ⟨rfl, -⟩ := Prod.mk.inj (Option.some.inj h)
  exact ⟨rfl, rfl⟩

theorem Dev.clean_label {d : Dev} (hname : Clean d.name.text) (hmount : Clean d.mount.text) :
    Clean d.label := by
  simp only [Dev.label, clean_append]
  exact ⟨⟨⟨⟨hname, clean_decimal _⟩, by decide⟩, hmount⟩, by decide⟩

theorem membersGood_nil : Tree.MembersGood [] := by
  rw [Tree.MembersGood]
  trivial

theorem cpuTrees_good (h : a.Valid) : Tree.MembersGood (cpuTrees a.cpu) := by
  unfold cpuTrees
  split
  · next c hc =>
    obtain ⟨huser, hsys, hidle⟩ := h.cpu c hc
    simp only [Tree.membersGood_nums, List.forall_mem_cons]
    exact ⟨⟨by decide, huser⟩, ⟨by decide, hsys⟩, ⟨by decide, hidle⟩, List.forall_mem_nil _⟩
  · exact membersGood_nil
  · exact membersGood_nil

theorem diskTrees_good (h : a.Valid) : Tree.MembersGood (diskTrees (devs a.mounts)) := by
  have hdevs : ∀ d ∈ (devs a.mounts).map Prod.fst, Clean d.label := by
    intro d hd
    obtain ⟨⟨d, io⟩, hmem, rfl⟩ := List.mem_map.mp hd
    cases hmounts : a.mounts with
    | none =>
      rw [hmounts] at hmem
      cases hmem
    | some lines =>
      rw [hmounts] at hmem
      obtain ⟨l, hl, hdev⟩ := List.mem_filterMap.mp hmem
      obtain ⟨hname, hmount⟩ := h.mounts lines hmounts l hl
      obtain ⟨hname', hmount'⟩ := Mount.dev_eq hdev
      exact Dev.clean_label (by rwa [hname']) (by rwa [hmount'])
  unfold diskTrees
  split
  · exact membersGood_nil
  · refine Tree.membersGood_append.mpr ⟨columnTrees_good (by decide) ?_, ?_⟩
    · have hlabel : ∀ i < (devs a.mounts).length,
          Clean (slot ((devs a.mounts).map Prod.fst) i).label :=
        fun i hi => hdevs _ (slot_mem (by simpa using hi))
      simpa [Dev.names, Piece.tree, Tree.Good, number_good] using hlabel
    · simp only [Tree.membersGood_nums, List.forall_mem_cons]
      exact ⟨⟨by decide, number_good _⟩, List.forall_mem_nil _⟩

theorem memoryTrees_good (h : a.Valid) : Tree.MembersGood (memoryTrees a.memory) := by
  unfold memoryTrees
  split
  · next m hm =>
    simp only [Tree.membersGood_nums, List.forall_mem_cons]
    exact ⟨⟨by decide, number_good _⟩, ⟨by decide, number_good _⟩, ⟨by decide, number_good _⟩,
      ⟨by decide, number_good _⟩, ⟨by decide, number_good _⟩, ⟨by decide, h.memory m hm⟩,
      List.forall_mem_nil _⟩
  · exact membersGood_nil
  · exact membersGood_nil

theorem some_mem_of_netIfs {lines : List (Option NetIf)} {n : NetIf} (h : n ∈ netIfs lines) :
    some n ∈ lines := by
  induction lines with
  | nil => cases h
  | cons line lines ih =>
    cases line with
    | none => cases h
    | some n' =>
      rcases List.mem_cons.mp h with rfl | h
      · exact List.mem_cons_self
      · exact List.mem_cons_of_mem _ (ih h)

theorem networkTrees_good (h : a.Valid) : Tree.MembersGood (networkTrees (netIfsOf a.network)) := by
  have hnames : ∀ n ∈ netIfsOf a.network, Clean n.name.text := by
    intro n hn
    cases hnet : a.network with
    | none =>
      rw [hnet] at hn
      cases hn
    | some lines =>
      rw [hnet] at hn
      exact h.network lines hnet n (some_mem_of_netIfs hn)
  unfold networkTrees
  split
  · exact membersGood_nil
  · refine Tree.membersGood_append.mpr ⟨columnTrees_good (by decide) ?_, ?_⟩
    · have hname : ∀ i < (netIfsOf a.network).length,
          Clean (slot (netIfsOf a.network) i).name.text := fun i hi => hnames _ (slot_mem hi)
      simpa [NetIf.names, Piece.tree, Tree.Good, number_good] using hname
    · simp only [Tree.membersGood_nums, List.forall_mem_cons]
      exact ⟨⟨by decide, number_good _⟩, ⟨by decide, number_good _⟩, List.forall_mem_nil _⟩

theorem blockTree_good {α : Type} [Inhabited α] {name : Text} {names : List (Text × (α → Piece))}
    {rows : List α} (hname : Clean name) (hnames : ∀ c ∈ names, Clean c.1)
    (hcells : ∀ c ∈ names, ∀ x ∈ rows, (c.2 x).tree.Good) :
    Tree.MembersGood (blockTree name names rows) := by
  unfold blockTree
  split
  · exact membersGood_nil
  · rw [Tree.MembersGood, Tree.Good]
    exact ⟨hname, columnTrees_good hnames fun c hc i hi => hcells c hc _ (slot_mem hi),
      membersGood_nil⟩

theorem topTree_good {name share : Text} {rows : List Top} (hname : Clean name)
    (hshare : Clean share) (hrows : ∀ t ∈ rows, Clean t.name.text ∧ Number t.share) :
    Tree.MembersGood (blockTree name (Top.names share) rows) := by
  refine blockTree_good hname ?_ ?_
  · simp only [Top.names, List.forall_mem_cons]
    exact ⟨by decide, hshare, List.forall_mem_nil _⟩
  · simp only [Top.names, List.forall_mem_cons, Piece.tree, Tree.Good]
    exact ⟨fun t ht => (hrows t ht).1, fun t ht => (hrows t ht).2, List.forall_mem_nil _⟩

theorem procTrees_good (h : a.Valid) :
    Tree.MembersGood (procTrees a.topCpu a.topMemory a.procs) := by
  have hlist : Tree.MembersGood (procListTrees a.procs) := by
    unfold procListTrees
    split
    · exact membersGood_nil
    · next rows hrows =>
      have hprocs := h.procs rows hrows
      refine blockTree_good (by decide) (by decide) ?_
      simp only [Proc.names, List.forall_mem_cons, Piece.tree, Tree.Good]
      exact ⟨fun p hp => (hprocs p hp).1, fun p hp => (hprocs p hp).2.1, fun _ _ => number_good _,
        fun p hp => (hprocs p hp).2.2.1, fun p hp => (hprocs p hp).2.2.2, List.forall_mem_nil _⟩
  have hmemory : Tree.MembersGood (procMemoryTrees a.topMemory a.procs) := by
    unfold procMemoryTrees
    split
    · exact membersGood_nil
    · next rows hrows =>
      exact Tree.membersGood_append.mpr
        ⟨topTree_good (by decide) (by decide) (h.topMemory rows hrows), hlist⟩
  unfold procTrees
  split
  · exact membersGood_nil
  · next rows hrows =>
    exact Tree.membersGood_append.mpr
      ⟨topTree_good (by decide) (by decide) (h.topCpu rows hrows), hmemory⟩

theorem OsSection.trees_good (h : a.Valid) (sec : OsSection) :
    (Tree.obj (sec.trees a)).Good := by
  rw [Tree.Good]
  cases sec with
  | cpu => exact cpuTrees_good h
  | disk => exact diskTrees_good h
  | proc => exact procTrees_good h
  | mem => exact memoryTrees_good h
  | net => exact networkTrees_good h

/-! ## Lengths of arrays -/

theorem nums_even (ms : List (Text × Text)) : (Tree.obj (Tree.nums ms)).Even :=
  columnTrees_even (σ := Unit) [] (fun _ => ()) 0 ms

theorem blocks_even {ms : List (Text × Tree)}
    (h : ∀ m ∈ ms, ∃ ms', m.2 = .obj ms' ∧ m.2.Even) : (Tree.obj ms).Even := by
  rw [Tree.Even, Tree.membersEven_iff]
  refine ⟨⟨0, fun m hm xs hxs => ?_⟩, fun m hm => ?_⟩
  · obtain ⟨ms', hobj, -⟩ := h m hm
    rw [hobj] at hxs
    cases hxs
  · obtain ⟨-, -, heven⟩ := h m hm
    exact heven

theorem blockTree_even {α : Type} [Inhabited α] (name : Text) (names : List (Text × (α → Piece)))
    (rows : List α) : ∀ m ∈ blockTree name names rows, ∃ ms', m.2 = .obj ms' ∧ m.2.Even := by
  unfold blockTree
  split
  · exact List.forall_mem_nil _
  · intro m hm
    obtain rfl := List.mem_singleton.mp hm
    have heven := columnTrees_even names (slot rows) rows.length []
    rw [Tree.nums, List.map_nil, List.append_nil] at heven
    exact ⟨_, rfl, heven⟩

theorem procTrees_even (cpu memory : Option (Rows Top 10)) (list : Option (Rows Proc 10)) :
    (Tree.obj (procTrees cpu memory list)).Even := by
  have hlist : ∀ m ∈ procListTrees list, ∃ ms', m.2 = .obj ms' ∧ m.2.Even := by
    unfold procListTrees
    split
    · exact List.forall_mem_nil _
    · exact blockTree_even _ _ _
  have hmemory : ∀ m ∈ procMemoryTrees memory list, ∃ ms', m.2 = .obj ms' ∧ m.2.Even := by
    unfold procMemoryTrees
    split
    · exact List.forall_mem_nil _
    · exact List.forall_mem_append.mpr ⟨blockTree_even _ _ _, hlist⟩
  refine blocks_even ?_
  unfold procTrees
  split
  · exact List.forall_mem_nil _
  · exact List.forall_mem_append.mpr ⟨blockTree_even _ _ _, hmemory⟩

theorem OsSection.trees_even (a : OsAnswers) (sec : OsSection) :
    (Tree.obj (sec.trees a)).Even := by
  cases sec with
  | cpu =>
    rw [trees, cpuTrees.eq_def]
    split
    · exact nums_even _
    · exact nums_even []
    · exact nums_even []
  | disk =>
    rw [trees, diskTrees]
    split
    · exact nums_even []
    · exact columnTrees_even _ _ _ _
  | proc => exact procTrees_even a.topCpu a.topMemory a.procs
  | mem =>
    rw [trees, memoryTrees.eq_def]
    split
    · exact nums_even _
    · exact nums_even []
    · exact nums_even []
  | net =>
    rw [trees, networkTrees]
    split
    · exact nums_even []
    · exact columnTrees_even _ _ _ _

/-! ## All sections -/

/-- The members of `"values"`: the sections that stay, as they come. -/
def osTrees (order : OsOrder) (a : OsAnswers) : List (Text × Tree) :=
  (order.list.filter (·.found a)).map fun sec => (sec.tag, .obj (sec.trees a))

theorem sectionOf_eq (tag : Text) (ms : List (Text × Tree)) :
    sectionOf tag (commas (Tree.printMembers ms)) =
      quote tag ++ str ":" ++ (Tree.obj ms).print := by
  have hcolon : str "\":\x7b" = str "\"" ++ str ":" ++ str "\x7b" := by decide
  rw [sectionOf, Tree.print, hcolon]
  simp [quote, str, ch]

theorem partTexts_os (a : OsAnswers) (secs : List OsSection) :
    partTexts (secs.map fun sec => (sec.tag, sec.gatherer a)) =
      Tree.printMembers
        ((secs.filter (·.found a)).map fun sec => (sec.tag, .obj (sec.trees a))) := by
  induction secs with
  | nil => rfl
  | cons sec secs ih =>
    have htext := (sec.emits a).text
    rw [List.map_cons, partTexts, List.filterMap_cons, ← partTexts, ih, partText, List.filter_cons]
    by_cases hok : ((sec.gatherer a).emit (ch '{')).2 = .enone
    · simp [OsSection.found, hok, htext, sectionOf_eq, Tree.printMembers]
    · simp [OsSection.found, hok]

theorem emit_osGather (order : OsOrder) (a : OsAnswers) :
    ((osGather order a).emit (ch '{')).1 = commas (Tree.printMembers (osTrees order a)) := by
  have hne : ∀ part ∈ order.list.map fun sec => (sec.tag, sec.gatherer a),
      (part.2.emit (ch '{')).2 ≠ .eplugup := by
    intro part hpart
    obtain ⟨sec, -, rfl⟩ := List.mem_map.mp hpart
    rcases (sec.emits a).res with hres | hres
    · simp [hres]
    · simp [hres]
  obtain ⟨-, -, htext⟩ := emit_gatherParts _ [] (ch '{') (by simp) hne
  rw [osGather, htext, partTexts_os, joinAfter, if_neg (by decide)]
  rfl

theorem OsSection.clean_tag (sec : OsSection) : Clean sec.tag := by cases sec <;> decide

theorem osTrees_good (order : OsOrder) (h : a.Valid) : (Tree.obj (osTrees order a)).Good := by
  rw [Tree.Good, Tree.membersGood_iff]
  intro m hm
  obtain ⟨sec, -, rfl⟩ := List.mem_map.mp hm
  exact ⟨sec.clean_tag, sec.trees_good h⟩

theorem osTrees_even (order : OsOrder) (a : OsAnswers) : (Tree.obj (osTrees order a)).Even := by
  refine blocks_even fun m hm => ?_
  obtain ⟨sec, -, rfl⟩ := List.mem_map.mp hm
  exact ⟨_, rfl, sec.trees_even a⟩

/-- The comma for an earlier object, and the member. -/
theorem openTag_members (tag : Text) (last : Byte) (ms : List (Text × Tree)) :
    openTag tag last ++ commas (Tree.printMembers ms) ++ str "\x7d" =
      (if last = ch '}' then str "," else []) ++ (quote tag ++ str ":" ++ (Tree.obj ms).print) := by
  rw [← sectionOf_eq, openTag, sectionOf]
  simp

/-- The call for `"values"`: when it returns ENONE it has added one member, which holds the
sections that returned ENONE and in each object arrays of one length, and otherwise nothing. -/
theorem os_gather_member (order : OsOrder) (a : OsAnswers) (hv : a.Valid) (pkt : Packet)
    (s : Text) (c : Byte) (ht : pkt.Tracks s) (hl : s.getLast? = some c)
    (hfit : (Gatherer.gather (str "values") (osGather order a) .ret).Room Fits c s.length) :
    let r := (packetGather (str "values") (osGather order a).code).exec Packet.effects pkt
    (r.1 = .enone → ∃ ms : List (Text × Tree),
      r.2.text = pkt.text ++ (if c = ch '}' then str "," else []) ++
        (quote (str "values") ++ str ":" ++ (Tree.obj ms).print) ∧
      Member (quote (str "values") ++ str ":" ++ (Tree.obj ms).print) ∧
      ms.Perm ((OsSection.all.filter (·.found a)).map fun sec => (sec.tag, .obj (sec.trees a))) ∧
      (Tree.obj ms).Even ∧ r.2.payload r.2.size = 0) ∧
    (r.1 ≠ .enone → r.2.SameText pkt) := by
  intro r
  obtain ⟨hres, htracks, hlt⟩ := tracks_part ht hl hfit
  have hs : s.length < pktsz := by
    rw [List.length_append] at hlt
    omega
  unfold sectionText at htracks hlt
  constructor
  · intro hok
    rw [if_pos (hres.symm.trans hok), emit_osGather, openTag_members] at htracks hlt
    refine ⟨osTrees order a, ?_, ?_, ?_, osTrees_even order a, ?_⟩
    · rw [htracks.text_eq hlt, ht.text_eq hs, List.append_assoc s]
    · exact ⟨_, _, Clean.key (by decide), Tree.value_print _ (osTrees_good order hv), rfl⟩
    · exact (order.perm.filter _).map _
    · rw [htracks.1]
      exact (htracks.holds hlt).nul
  · intro hfail
    have hne := hres ▸ hfail
    rw [if_neg hne, List.append_nil] at htracks
    exact htracks.sameText ht hs

def Name.bash : Name := ⟨str "bash", by decide⟩

/-- The processor cannot be scanned, nothing uses it, one process uses memory, and the other
commands cannot be started. -/
def OsAnswers.sample : OsAnswers where
  cpu := some none
  mounts := none
  topCpu := some ⟨[], by decide⟩
  topMemory := some ⟨[⟨.bash, str "0.5"⟩], by decide⟩
  procs := none
  memory := none
  network := none

theorem number_half : Number (str "0.5") := by
  have hdigits : Digits (str "0") ∧ Digits (str "5") := by
    unfold Digits
    decide
  exact ⟨[], str "0", str ".5", [], by decide, Or.inl rfl, ⟨hdigits.1, Or.inl rfl⟩,
    Or.inr ⟨str "5", hdigits.2, by decide⟩, Or.inl rfl⟩

theorem OsAnswers.sample_valid : sample.Valid where
  cpu := by rintro _ ⟨⟩
  mounts := by rintro _ ⟨⟩
  topCpu := by
    rintro rows ⟨⟩
    exact List.forall_mem_nil _
  topMemory := by
    rintro rows ⟨⟩ t ht
    obtain rfl := List.mem_singleton.mp ht
    exact ⟨(by decide : Clean (str "bash")), number_half⟩
  procs := by rintro _ ⟨⟩
  memory := by rintro _ ⟨⟩
  network := by rintro _ ⟨⟩

/-- The empty section and the one block, on a packet that a record has just been begun in. -/
theorem os_gather_member_sample :
    let pkt := (packetAlloc .metric).append (str "\x7b\"timestamp\":1,")
    let order : OsOrder := ⟨OsSection.all, List.Perm.refl _⟩
    let r := (packetGather (str "values") (osGather order OsAnswers.sample).code).exec
      Packet.effects pkt
    r.1 = .enone ∧ ∃ ms : List (Text × Tree),
      ms.Perm [(str "cpu", .obj []), (str "proc", .obj [(str "mem_top10",
        .obj [(str "name", .arr [.str (str "bash")]), (str "mem", .arr [.num (str "0.5")])])])] ∧
      r.2.text = pkt.text ++ (quote (str "values") ++ str ":" ++ (Tree.obj ms).print) := by
  intro pkt order r
  have ht : pkt.Tracks (str "\x7b\"timestamp\":1,") := tracks_append_fresh rfl _
  have hsample := os_gather_member order OsAnswers.sample OsAnswers.sample_valid pkt _ (ch ',') ht
    (by decide) (by decide)
  have hres : r.1 = .enone := by decide
  obtain ⟨ms, htext, -, hperm, -⟩ := hsample.1 hres
  refine ⟨hres, ms, hperm, ?_⟩
  rw [htext, if_neg (by decide), List.append_nil]

end MonitoringAgent
