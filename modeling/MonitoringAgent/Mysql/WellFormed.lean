import MonitoringAgent.Mysql.Columns

/-!
# Separators in the sections of a MySQL target

Two of the section functions keep a comma flag. The other two rely on a first query that
gives one row: without it the text begins with a comma, with a second row a comma is
missing. The arrays of a table show whatever stands in the slot behind its last row.
-/
namespace MonitoringAgent

open Buffer Decimal Scan Format Json

/-- The name, past its first `skip` characters, and the value of a row can be printed. -/
def ValidRow (skip : Nat) (row : Row) : Prop := Clean ((row 0).drop skip) ∧ Number (row 1)

def SlowQuery.Valid (s : SlowQuery) : Prop := Clean s.user ∧ Clean s.sqlText

def Thread.Valid (s : Thread) : Prop :=
  Clean s.info ∧ Clean s.user ∧ Clean s.host ∧ Clean s.db ∧ Clean s.eventName ∧
    Clean s.command ∧ Clean s.state

/-- The rows and their words have room in the arrays, one slot behind them included. -/
def RowsFit (Fits : Row → Prop) (rows : List Row) : Prop :=
  rows = [] ∨ rows.length < bfsz ∧ ∀ row ∈ rows, Fits row

/-- Rows as members. -/
def rowTrees (skip : Nat) (rows : List Row) : List (Text × Tree) :=
  rows.map fun row => ((row 0).drop skip, .num (row 1))

def SlowQuery.names : List (Text × (SlowQuery → Piece)) :=
  [(str "user", fun s => .quoted s.user),
    (str "sql", fun s => .quoted s.sqlText),
    (str "query_time", fun s => .bare (number s.queryTime)),
    (str "start_time", fun s => .bare (number s.startTime)),
    (str "rows_sent", fun s => .bare (number s.rowsSent)),
    (str "rows_examined", fun s => .bare (number s.rowsExamined))]

def Thread.names : List (Text × (Thread → Piece)) :=
  [(str "id", fun s => .quoted (number s.id)),
    (str "thread_id", fun s => .quoted (number s.threadId)),
    (str "info", fun s => .quoted s.info),
    (str "user", fun s => .quoted s.user),
    (str "host", fun s => .quoted s.host),
    (str "db", fun s => .quoted s.db),
    (str "time", fun s => .quoted (number s.time)),
    (str "timer_wait", fun s => .quoted (number s.timerWait)),
    (str "event_id", fun s => .quoted (number s.eventId)),
    (str "event_name", fun s => .quoted s.eventName),
    (str "command", fun s => .quoted s.command),
    (str "state", fun s => .quoted s.state)]

/-- The members of the last query of `_mysql_gather_innodb`. -/
def ibufTrees : UInt64 × UInt64 × UInt64 → List (Text × Tree)
  | (used, free, total) =>
    [(str "cell_count", .num (number total)), (str "free_cells", .num (number free)),
      (str "used_cells", .num (number used))]

variable {rows rows' : List Row} {row : Row} {skip : Nat} {out : Output} {k : Nat}
  {a : MysqlAnswers}

/-! ## What the functions return -/

theorem mysqlGatherThread_eq_some {junk : Nat → Thread} {status list : QueryResult} :
    mysqlGatherThread junk status list = some out ↔
      RowsFit Thread.Fits (rowsOf list) ∧
        out = ⟨flagged 0 false (rowsOf status) ++
          table (Thread.cols (! (rowsOf status).isEmpty)) (rowsOf list).length
            (fun _ => junk (rowsOf list).length), status.isSome⟩ := by
  unfold mysqlGatherThread
  simp only [Option.bind_eq_bind, Option.bind_eq_some_iff, tabulate_eq_some Thread.scan_isSome]
  constructor
  · rintro ⟨_, ⟨hfit, rfl⟩, hout⟩
    exact ⟨hfit, (Option.some.inj hout).symm⟩
  · rintro ⟨hfit, rfl⟩
    exact ⟨_, ⟨hfit, rfl⟩, rfl⟩

theorem queryOutput_eq_some :
    a.queryOutput = some out ↔
      RowsFit SlowQuery.Fits (rowsOf a.log) ∧
        out = ⟨slowQueries (rowsOf a.slow) ++
          table SlowQuery.cols (rowsOf a.log).length
            (fun _ => a.slowSlots (rowsOf a.log).length), a.slow.isSome⟩ := by
  unfold MysqlAnswers.queryOutput mysqlGatherQuery
  simp only [Option.bind_eq_bind, Option.bind_eq_some_iff, tabulate_eq_some SlowQuery.scan_isSome]
  constructor
  · rintro ⟨_, ⟨hfit, rfl⟩, hout⟩
    exact ⟨hfit, (Option.some.inj hout).symm⟩
  · rintro ⟨hfit, rfl⟩
    exact ⟨_, ⟨hfit, rfl⟩, rfl⟩

theorem SlowQuery.cols_eq : SlowQuery.cols = titled (str ",") SlowQuery.names := rfl

theorem Thread.cols_eq (comma : Bool) :
    Thread.cols comma = titled (if comma then str "," else []) Thread.names := by
  cases comma <;> rfl

/-! ## What is printed -/

theorem printMembers_rowTrees_cons (row : Row) (rows : List Row) :
    Tree.printMembers (rowTrees skip (row :: rows)) =
      (quote ((row 0).drop skip) ++ str ":" ++ row 1) ::
        Tree.printMembers (rowTrees skip rows) := by
  simp [rowTrees, Tree.printMembers, Tree.print]

theorem render_flagged (comma : Bool) (rows : List Row) :
    render (flagged skip comma rows).flatten =
      commasAfter comma (Tree.printMembers (rowTrees skip rows)) := by
  induction rows generalizing comma with
  | nil => cases comma <;> rfl
  | cons row rows ih =>
    rw [flagged, List.flatten_cons, render_append, ih, printMembers_rowTrees_cons,
      commasAfter_cons]
    cases comma <;> simp [Piece.text]

theorem sound_rowTrees {N : Text → Prop} :
    Sound N (joined (memberPieces (rowTrees skip rows))) ↔
      ∀ row ∈ rows, Clean ((row 0).drop skip) ∧ N (row 1) := by
  rw [sound_memberPieces, rowTrees, List.forall_mem_map]
  simp [treePieces, Piece.Sound]

theorem rowTrees_good (h : ∀ row ∈ rows, ValidRow skip row) :
    Tree.MembersGood (rowTrees skip rows) :=
  membersGood_iff_sound.mpr (sound_rowTrees.mpr h)

theorem isEmpty_printMembers_rowTrees :
    (Tree.printMembers (rowTrees skip rows)).isEmpty = rows.isEmpty := by
  cases rows <;> rfl

/-- The arrays of a table, after the members before them. -/
theorem render_table {σ : Type} (names : List (Text × (σ → Piece))) (hne : names ≠ [])
    (before : Text) (vs : Nat → σ) :
    render (table (titled before names) k vs).flatten =
      if k = 0 then []
      else before ++ commas (Tree.printMembers (columnTrees names vs k)) := by
  rw [table]
  split
  · rfl
  · rw [List.flatten_append, render_append, ← render_columns before hne]
    simp [Piece.text]

theorem SlowQuery.columnTrees_good {s : SlowQuery} (h : s.Valid) :
    Tree.MembersGood (columnTrees SlowQuery.names (fun _ => s) k) := by
  refine Format.columnTrees_good (by decide) ?_
  obtain ⟨huser, hsql⟩ := h
  have hnum : ∀ n : UInt64, Number (number n) := fun n => number_decimal n.toNat
  simp [SlowQuery.names, Piece.tree, Tree.Good, huser, hsql, hnum]

theorem Thread.columnTrees_good {s : Thread} (h : s.Valid) :
    Tree.MembersGood (columnTrees Thread.names (fun _ => s) k) := by
  refine Format.columnTrees_good (by decide) ?_
  obtain ⟨hinfo, huser, hhost, hdb, hname, hcommand, hstate⟩ := h
  have hnum : ∀ n : UInt64, Clean (number n) := fun n => clean_decimal n.toNat
  simp [Thread.names, Piece.tree, Tree.Good, hinfo, huser, hhost, hdb, hname, hcommand, hstate,
    hnum]

/-! ## The functions with a comma flag -/

theorem crud_text (status ddl : QueryResult) :
    (mysqlGatherCrud status ddl).text =
      commas (Tree.printMembers (rowTrees 4 (rowsOf status) ++ rowTrees 0 (rowsOf ddl))) := by
  have hsplit := commasAfter_append false (Tree.printMembers (rowTrees 4 (rowsOf status)))
    (Tree.printMembers (rowTrees 0 (rowsOf ddl)))
  rw [isEmpty_printMembers_rowTrees] at hsplit
  simp only [Output.text, mysqlGatherCrud, List.flatten_append, render_append, render_flagged]
  rw [Tree.printMembers_append]
  exact hsplit.symm

theorem crud_members {status ddl : QueryResult} (hstatus : ∀ row ∈ rowsOf status, ValidRow 4 row)
    (hddl : ∀ row ∈ rowsOf ddl, ValidRow 0 row) : Members (mysqlGatherCrud status ddl).text := by
  rw [crud_text]
  exact Tree.members_print
    (Tree.membersGood_append.mpr ⟨rowTrees_good hstatus, rowTrees_good hddl⟩)

/-- The members of the arrays, if there are rows. -/
def tableTrees {σ : Type} (names : List (Text × (σ → Piece))) (slots : Nat → σ) (k : Nat) :
    List (Text × Tree) :=
  if k = 0 then [] else columnTrees names slots k

/-- The arrays behind a comma are further members. -/
theorem render_table_comma {σ : Type} (names : List (Text × (σ → Piece))) (hne : names ≠ [])
    (vs : Nat → σ) :
    render (table (titled (str ",") names) k vs).flatten =
      commasAfter true (Tree.printMembers (tableTrees names vs k)) := by
  rw [render_table names hne, tableTrees]
  split
  · rfl
  · refine (commasAfter_true ?_).symm
    cases names with
    | nil => exact absurd rfl hne
    | cons c cols => simp [columnTrees, Tree.printMembers]

theorem render_table_first {σ : Type} (names : List (Text × (σ → Piece))) (hne : names ≠ [])
    (vs : Nat → σ) :
    render (table (titled [] names) k vs).flatten =
      commas (Tree.printMembers (tableTrees names vs k)) := by
  rw [render_table names hne, tableTrees]
  split <;> rfl

theorem tableTrees_good {σ : Type} {names : List (Text × (σ → Piece))} {vs : Nat → σ}
    (h : k = 0 ∨ Tree.MembersGood (columnTrees names vs k)) :
    Tree.MembersGood (tableTrees names vs k) := by
  unfold tableTrees
  split
  · rw [Tree.MembersGood]
    trivial
  · next hk => exact h.resolve_left hk

def threadTrees (junk : Nat → Thread) (status list : QueryResult) : List (Text × Tree) :=
  rowTrees 0 (rowsOf status) ++
    tableTrees Thread.names (fun _ => junk (rowsOf list).length) (rowsOf list).length

theorem thread_text {junk : Nat → Thread} {status list : QueryResult}
    (hout : mysqlGatherThread junk status list = some out) :
    out.text = commas (Tree.printMembers (threadTrees junk status list)) := by
  obtain ⟨-, rfl⟩ := mysqlGatherThread_eq_some.mp hout
  have hne : Thread.names ≠ [] := List.cons_ne_nil _ _
  have hsplit := commasAfter_append false (Tree.printMembers (rowTrees 0 (rowsOf status)))
    (Tree.printMembers (tableTrees Thread.names (fun _ => junk (rowsOf list).length)
      (rowsOf list).length))
  rw [isEmpty_printMembers_rowTrees, Bool.false_or, ← Tree.printMembers_append] at hsplit
  simp only [Output.text, List.flatten_append, render_append, render_flagged, Thread.cols_eq]
  refine Eq.trans ?_ hsplit.symm
  congr 1
  cases (rowsOf status).isEmpty with
  | true => exact render_table_first Thread.names hne _
  | false => exact render_table_comma Thread.names hne _

theorem thread_members {junk : Nat → Thread} {status list : QueryResult}
    (hstatus : ∀ row ∈ rowsOf status, ValidRow 0 row)
    (hslot : rowsOf list = [] ∨ (junk (rowsOf list).length).Valid)
    (hout : mysqlGatherThread junk status list = some out) : Members out.text := by
  rw [thread_text hout]
  exact Tree.members_print (Tree.membersGood_append.mpr ⟨rowTrees_good hstatus,
    tableTrees_good (hslot.imp List.length_eq_zero_iff.mpr Thread.columnTrees_good)⟩)

/-! ## The functions without one -/

/-- A list that begins with a comma. -/
theorem scan_comma (t : Text) : scan .brace (str "," ++ t) = .clash := by
  rw [scan_append, show scan .brace (str ",") = .clash by decide, scan_clash]

/-- A member that a name follows without a comma. -/
theorem scan_adjacent {name v : Text} (hname : Clean name) (hv : Printed v) (t : Text) :
    scan .brace (quote name ++ str ":" ++ v ++ str "\"" ++ t) = .clash := by
  simp only [scan_append]
  rw [scan_quote hname.characters (Or.inl rfl), show scan .other (str ":") = .other by decide]
  rcases number_or_clash hv with hv | hv
  · rw [scan_number hv (Or.inr rfl), show scan .digit (str "\"") = .clash by decide, scan_clash]
  · rw [hv, scan_clash, scan_clash]

/-- The status query gave one row, or nothing is printed at all. -/
def MysqlAnswers.QueryJoined (a : MysqlAnswers) : Prop :=
  (rowsOf a.slow).length = 1 ∨ rowsOf a.slow = [] ∧ rowsOf a.log = []

def MysqlAnswers.queryTrees (a : MysqlAnswers) : List (Text × Tree) :=
  Tree.nums ((rowsOf a.slow).map fun row => (str "slow_queries", row 1)) ++
    tableTrees SlowQuery.names (fun _ => a.slowSlots (rowsOf a.log).length) (rowsOf a.log).length

theorem query_appends (hout : a.queryOutput = some out) :
    out.appends = slowQueries (rowsOf a.slow) ++
      table (titled (str ",") SlowQuery.names) (rowsOf a.log).length
        (fun _ => a.slowSlots (rowsOf a.log).length) := by
  obtain ⟨-, rfl⟩ := queryOutput_eq_some.mp hout
  rfl

theorem query_text (hout : a.queryOutput = some out) :
    out.text = render (slowQueries (rowsOf a.slow)).flatten ++
      commasAfter true (Tree.printMembers (tableTrees SlowQuery.names
        (fun _ => a.slowSlots (rowsOf a.log).length) (rowsOf a.log).length)) := by
  rw [Output.text, query_appends hout, List.flatten_append, render_append,
    render_table_comma SlowQuery.names (List.cons_ne_nil _ _)]

theorem slowQueries_title : str "\"slow_queries\":" = quote (str "slow_queries") ++ str ":" := by
  decide

theorem query_printed (hjoined : a.QueryJoined) (hout : a.queryOutput = some out) :
    out.text = commas (Tree.printMembers (a.queryTrees)) := by
  rw [query_text hout, MysqlAnswers.queryTrees]
  rcases hjoined with hone | ⟨hnone, hlog⟩
  · obtain ⟨row, hrow⟩ := List.length_eq_one_iff.mp hone
    rw [hrow, List.map_singleton, Tree.nums, List.map_singleton, List.singleton_append,
      Tree.commas_printMembers_num, ← slowQueries_title]
    simp [slowQueries, Piece.text]
  · rw [hnone, hlog]
    rfl

/-- Otherwise the text begins with a comma, or the second row has none before it. -/
theorem query_clash (hnot : ¬ a.QueryJoined) (hstatus : ∀ row ∈ rowsOf a.slow, Printed (row 1))
    (hout : a.queryOutput = some out) : scan .brace out.text = .clash := by
  obtain ⟨hone, hnone⟩ := not_or.mp hnot
  rw [query_text hout]
  cases hrows : rowsOf a.slow with
  | nil =>
    have hlog : (rowsOf a.log).length ≠ 0 := fun hlog =>
      hnone ⟨hrows, List.length_eq_zero_iff.mp hlog⟩
    rw [tableTrees, if_neg hlog, commasAfter_true (by simp [columnTrees, SlowQuery.names,
      Tree.printMembers])]
    exact scan_comma _
  | cons row rows =>
    rw [hrows] at hstatus hone
    obtain ⟨hrow, -⟩ := List.forall_mem_cons.mp hstatus
    cases rows with
    | nil => exact absurd rfl hone
    | cons row' rows =>
      have hname : Clean (str "slow_queries") := by decide
      have htitle : str "\"slow_queries\":" = str "\"" ++ str "slow_queries\":" := by decide
      simp only [slowQueries, List.map_cons, List.flatten_cons, render_append, render_cons,
        render_nil, Piece.text, List.append_nil, List.append_assoc]
      nth_rewrite 1 [slowQueries_title]
      rw [htitle]
      simpa only [List.append_assoc] using scan_adjacent hname hrow _

theorem queryJoined_of_members (hstatus : ∀ row ∈ rowsOf a.slow, Number (row 1))
    (hout : a.queryOutput = some out) (h : Members out.text) : a.QueryJoined := by
  by_contra hnot
  exact scan_members h (query_clash hnot (fun row hrow => Or.inl (hstatus row hrow)) hout)

theorem slowQueries_good (hstatus : ∀ row ∈ rowsOf a.slow, Number (row 1)) :
    Tree.MembersGood (Tree.nums ((rowsOf a.slow).map fun row => (str "slow_queries", row 1))) := by
  rw [Tree.membersGood_nums, List.forall_mem_map]
  exact fun row hrow => ⟨(by decide : Clean (str "slow_queries")), hstatus row hrow⟩

theorem query_members (hstatus : ∀ row ∈ rowsOf a.slow, Number (row 1))
    (hslot : rowsOf a.log = [] ∨ (a.slowSlots (rowsOf a.log).length).Valid)
    (hjoined : a.QueryJoined) (hout : a.queryOutput = some out) : Members out.text := by
  rw [query_printed hjoined hout]
  exact Tree.members_print (Tree.membersGood_append.mpr ⟨slowQueries_good hstatus,
    tableTrees_good (hslot.imp List.length_eq_zero_iff.mpr SlowQuery.columnTrees_good)⟩)

/-! ## InnoDB -/

/-- The matches that the function prints. -/
def ibufsOf (engine : QueryResult) : List (UInt64 × UInt64 × UInt64) :=
  match engine with
  | some (row :: _) => ibufs (row 2)
  | _ => []

theorem innodb_appends (hout : a.innodbOutput = some out) :
    out.appends = (rowsOf a.size).flatMap (variableAppends [] 14) ++
      ((rowsOf a.pages).flatMap (variableAppends (str ",") 7) ++
        (ibufsOf a.engine).flatMap ibufAppends) := by
  unfold MysqlAnswers.innodbOutput mysqlGatherInnodb at hout
  cases hengine : a.engine with
  | none =>
    rw [hengine] at hout
    obtain rfl := Option.some.inj hout
    simp [ibufsOf]
  | some rows =>
    rw [hengine] at hout
    cases rows with
    | nil => cases hout
    | cons row rows =>
      obtain rfl := Option.some.inj hout
      simp [ibufsOf]

theorem render_variable (before : Text) (row : Row) :
    render (variableAppends before skip row).flatten =
      before ++ (quote ((row 0).drop skip) ++ str ":" ++ row 1) := by
  simp [variableAppends, Piece.text]

/-- The first query gave one row, or nothing is printed at all. -/
def MysqlAnswers.InnodbJoined (a : MysqlAnswers) : Prop :=
  (rowsOf a.size).length = 1 ∨
    rowsOf a.size = [] ∧ rowsOf a.pages = [] ∧ ibufsOf a.engine = []

/-- The members behind the first query, each with a comma before it. -/
def MysqlAnswers.innodbRest (a : MysqlAnswers) : List (Text × Tree) :=
  rowTrees 7 (rowsOf a.pages) ++ (ibufsOf a.engine).flatMap ibufTrees

def MysqlAnswers.innodbTrees (a : MysqlAnswers) : List (Text × Tree) :=
  rowTrees 14 (rowsOf a.size) ++ a.innodbRest

theorem render_pages (rows : List Row) :
    render (rows.flatMap (variableAppends (str ",") skip)).flatten =
      commasAfter true (Tree.printMembers (rowTrees skip rows)) := by
  induction rows with
  | nil => rfl
  | cons row rows ih =>
    rw [List.flatMap_cons, List.flatten_append, render_append, render_variable, ih,
      printMembers_rowTrees_cons, commasAfter_cons, if_pos rfl]

theorem render_ibufs (xs : List (UInt64 × UInt64 × UInt64)) :
    render (xs.flatMap ibufAppends).flatten =
      commasAfter true (Tree.printMembers (xs.flatMap ibufTrees)) := by
  induction xs with
  | nil => rfl
  | cons x xs ih =>
    obtain ⟨used, free, total⟩ := x
    have hone : render (ibufAppends (used, free, total)).flatten =
        commasAfter true (Tree.printMembers (ibufTrees (used, free, total))) := rfl
    rw [List.flatMap_cons, List.flatten_append, render_append, hone, ih, List.flatMap_cons,
      Tree.printMembers_append, commasAfter_append, Bool.true_or]

theorem innodb_text (hout : a.innodbOutput = some out) :
    out.text = render ((rowsOf a.size).flatMap (variableAppends [] 14)).flatten ++
      commasAfter true (Tree.printMembers a.innodbRest) := by
  rw [Output.text, innodb_appends hout, List.flatten_append, render_append, List.flatten_append,
    render_append, render_pages, render_ibufs, MysqlAnswers.innodbRest, Tree.printMembers_append,
    commasAfter_append, Bool.true_or]

theorem innodbRest_good (hpages : ∀ row ∈ rowsOf a.pages, ValidRow 7 row) :
    Tree.MembersGood a.innodbRest := by
  refine Tree.membersGood_append.mpr ⟨rowTrees_good hpages, ?_⟩
  rw [Tree.membersGood_iff]
  intro m hm
  obtain ⟨⟨used, free, total⟩, -, hm⟩ := List.mem_flatMap.mp hm
  have hnum : ∀ n : UInt64, (Tree.num (number n)).Good := by
    intro n
    rw [Tree.Good]
    exact number_decimal n.toNat
  simp only [ibufTrees, List.mem_cons, List.not_mem_nil, or_false] at hm
  rcases hm with rfl | rfl | rfl
  · exact ⟨(by decide : Clean (str "cell_count")), hnum total⟩
  · exact ⟨(by decide : Clean (str "free_cells")), hnum free⟩
  · exact ⟨(by decide : Clean (str "used_cells")), hnum used⟩

theorem innodbRest_eq_nil : a.innodbRest = [] ↔ rowsOf a.pages = [] ∧ ibufsOf a.engine = [] := by
  rw [MysqlAnswers.innodbRest, List.append_eq_nil_iff, rowTrees, List.map_eq_nil_iff]
  refine and_congr_right fun _ => ?_
  cases ibufsOf a.engine with
  | nil => simp
  | cons x xs => simp [ibufTrees]

theorem innodb_printed (hjoined : a.InnodbJoined) (hout : a.innodbOutput = some out) :
    out.text = commas (Tree.printMembers a.innodbTrees) := by
  rw [innodb_text hout, MysqlAnswers.innodbTrees]
  rcases hjoined with hone | ⟨hnone, hrest⟩
  · obtain ⟨row, hrow⟩ := List.length_eq_one_iff.mp hone
    rw [hrow, rowTrees, List.map_singleton, List.singleton_append, Tree.commas_printMembers_num,
      List.flatMap_singleton, render_variable, List.nil_append]
  · rw [hnone, innodbRest_eq_nil.mpr hrest]
    rfl

theorem innodb_clash (hnot : ¬ a.InnodbJoined)
    (hsize : ∀ row ∈ rowsOf a.size, Clean ((row 0).drop 14) ∧ Printed (row 1))
    (hout : a.innodbOutput = some out) : scan .brace out.text = .clash := by
  obtain ⟨hone, hnone⟩ := not_or.mp hnot
  rw [innodb_text hout]
  cases hrows : rowsOf a.size with
  | nil =>
    have hrest : a.innodbRest ≠ [] := fun hrest => hnone ⟨hrows, innodbRest_eq_nil.mp hrest⟩
    have hne : Tree.printMembers a.innodbRest ≠ [] := by
      rw [Tree.printMembers_eq]
      exact mt List.map_eq_nil_iff.mp hrest
    rw [commasAfter_true hne]
    exact scan_comma _
  | cons row rows =>
    rw [hrows] at hsize hone
    obtain ⟨⟨hname, hrow⟩, -⟩ := List.forall_mem_cons.mp hsize
    cases rows with
    | nil => exact absurd rfl hone
    | cons row' rows =>
      have hquote : quote ((row' 0).drop 14) = str "\"" ++ ((row' 0).drop 14 ++ str "\"") := by
        rfl
      rw [List.flatMap_cons, List.flatMap_cons, List.flatten_append, List.flatten_append,
        render_append, render_append, render_variable, render_variable, hquote]
      simpa only [List.nil_append, List.append_assoc] using scan_adjacent hname hrow _

/-- The function returns ENONE when anything is printed. -/
theorem innodb_found (hout : a.innodbOutput = some out) (hfound : out.found = false) :
    a.InnodbJoined := by
  unfold MysqlAnswers.innodbOutput mysqlGatherInnodb at hout
  have hnone : ∀ {res : QueryResult}, res.isSome = false → rowsOf res = [] := by
    intro res hres
    rw [Option.isSome_eq_false_iff, Option.isNone_iff_eq_none] at hres
    rw [hres]
    rfl
  cases hengine : a.engine with
  | none =>
    rw [hengine] at hout
    obtain rfl := Option.some.inj hout
    obtain ⟨hsize, hpages⟩ := Bool.or_eq_false_iff.mp hfound
    exact Or.inr ⟨hnone hsize, hnone hpages, by rw [hengine]; rfl⟩
  | some rows =>
    rw [hengine] at hout
    cases rows with
    | nil => cases hout
    | cons row rows =>
      obtain rfl := Option.some.inj hout
      obtain ⟨hqueries, hibufs⟩ := Bool.or_eq_false_iff.mp hfound
      obtain ⟨hsize, hpages⟩ := Bool.or_eq_false_iff.mp hqueries
      refine Or.inr ⟨hnone hsize, hnone hpages, ?_⟩
      rw [hengine]
      simpa [ibufsOf] using hibufs

theorem innodb_returns : (∃ out, a.innodbOutput = some out) ↔ a.engine ≠ some [] := by
  unfold MysqlAnswers.innodbOutput mysqlGatherInnodb
  cases a.engine with
  | none => simp
  | some rows => cases rows <;> simp

theorem innodb_members_iff (hsize : ∀ row ∈ rowsOf a.size, ValidRow 14 row)
    (hpages : ∀ row ∈ rowsOf a.pages, ValidRow 7 row) (hout : a.innodbOutput = some out) :
    Members out.text ↔ a.InnodbJoined := by
  constructor
  · intro h
    by_contra hnot
    exact scan_members h
      (innodb_clash hnot (fun row hrow => (hsize row hrow).imp_right Or.inl) hout)
  · intro hjoined
    rw [innodb_printed hjoined hout]
    exact Tree.members_print
      (Tree.membersGood_append.mpr ⟨rowTrees_good hsize, innodbRest_good hpages⟩)

/-! ## Texts and numbers -/

section pieces

variable {N : Text → Prop}

theorem sound_flagged {comma : Bool} :
    Sound N (flagged skip comma rows).flatten ↔
      ∀ row ∈ rows, Clean ((row 0).drop skip) ∧ N (row 1) := by
  induction rows generalizing comma with
  | nil => simp [flagged]
  | cons row rows ih =>
    rw [flagged, List.flatten_cons, sound_append, ih, List.forall_mem_cons]
    simp [Piece.Sound]

theorem sound_table {σ : Type} {names : List (Text × (σ → Piece))} {vs : Nat → σ} (before : Text)
    (hnames : ∀ c ∈ names, Clean c.1) (hlit : ∀ c ∈ names, ∀ s t, c.2 s ≠ .lit t) :
    Sound N (table (titled before names) k vs).flatten ↔
      Sound N (joined (memberPieces (tableTrees names vs k))) := by
  unfold table tableTrees
  split
  · exact Iff.rfl
  · rw [List.flatten_append, sound_append, sound_columns, sound_columnTrees hnames hlit]
    simp [Piece.Sound]

theorem sound_variables {before : Text} :
    Sound N (rows.flatMap (variableAppends before skip)).flatten ↔
      ∀ row ∈ rows, Clean ((row 0).drop skip) ∧ N (row 1) := by
  induction rows with
  | nil => simp
  | cons row rows ih =>
    rw [List.flatMap_cons, List.flatten_append, sound_append, ih, List.forall_mem_cons]
    simp [variableAppends, Piece.Sound]

theorem crud_prints (status ddl : QueryResult) :
    Prints (mysqlGatherCrud status ddl).appends.flatten
      (rowTrees 4 (rowsOf status) ++ rowTrees 0 (rowsOf ddl)) where
  text := crud_text status ddl
  sound := fun N => by
    rw [sound_memberPieces_append, sound_rowTrees, sound_rowTrees, mysqlGatherCrud,
      List.flatten_append, sound_append, sound_flagged, sound_flagged]

theorem thread_prints {junk : Nat → Thread} {status list : QueryResult}
    (hout : mysqlGatherThread junk status list = some out) :
    Prints out.appends.flatten (threadTrees junk status list) where
  text := thread_text hout
  sound := fun N => by
    obtain ⟨-, rfl⟩ := mysqlGatherThread_eq_some.mp hout
    simp only [List.flatten_append, sound_append, sound_flagged, Thread.cols_eq]
    rw [sound_table _ (by decide) (by simp [Thread.names]), threadTrees,
      sound_memberPieces_append, sound_rowTrees]

theorem query_prints (hjoined : a.QueryJoined) (hout : a.queryOutput = some out) :
    Prints out.appends.flatten a.queryTrees where
  text := query_printed hjoined hout
  sound := fun N => by
    rw [query_appends hout, List.flatten_append, sound_append,
      sound_table _ (by decide) (by simp [SlowQuery.names]), MysqlAnswers.queryTrees,
      sound_memberPieces_append]
    refine and_congr_left fun _ => ?_
    have hname : Clean (str "slow_queries") := by decide
    rw [sound_flatten, slowQueries, List.forall_mem_map, sound_memberPieces, Tree.nums,
      List.forall_mem_map, List.forall_mem_map]
    simp [treePieces, Piece.Sound, hname]

theorem query_numbers (hout : a.queryOutput = some out) (hs : Sound N out.appends.flatten) :
    ∀ row ∈ rowsOf a.slow, N (row 1) := by
  rw [query_appends hout, List.flatten_append, sound_append, sound_flatten, slowQueries,
    List.forall_mem_map] at hs
  intro row hrow
  simpa [Piece.Sound] using hs.1 row hrow

theorem sound_ibufs (xs : List (UInt64 × UInt64 × UInt64)) :
    Sound N (xs.flatMap ibufAppends).flatten ↔
      Sound N (joined (memberPieces (xs.flatMap ibufTrees))) := by
  induction xs with
  | nil => exact Iff.rfl
  | cons x xs ih =>
    obtain ⟨used, free, total⟩ := x
    have hcell : Clean (str "cell_count") := by decide
    have hfree : Clean (str "free_cells") := by decide
    have hused : Clean (str "used_cells") := by decide
    rw [List.flatMap_cons, List.flatten_append, sound_append, ih, List.flatMap_cons,
      sound_memberPieces_append]
    refine and_congr_left fun _ => ?_
    rw [sound_memberPieces]
    simp [ibufAppends, ibufTrees, treePieces, Piece.Sound, hcell, hfree, hused]

theorem innodb_prints (hjoined : a.InnodbJoined) (hout : a.innodbOutput = some out) :
    Prints out.appends.flatten a.innodbTrees where
  text := innodb_printed hjoined hout
  sound := fun N => by
    rw [innodb_appends hout, List.flatten_append, sound_append, List.flatten_append, sound_append,
      sound_variables, sound_variables, sound_ibufs, MysqlAnswers.innodbTrees,
      MysqlAnswers.innodbRest, sound_memberPieces_append, sound_memberPieces_append,
      sound_rowTrees, sound_rowTrees]

theorem innodb_sizes (hout : a.innodbOutput = some out) (hs : Sound N out.appends.flatten) :
    ∀ row ∈ rowsOf a.size, Clean ((row 0).drop 14) ∧ N (row 1) := by
  rw [innodb_appends hout, List.flatten_append, sound_append, sound_variables] at hs
  exact hs.1

end pieces

/-! ## Slots that hold anything -/

/-- What stands in a slot may close its string. -/
def SlowQuery.wild : SlowQuery := ⟨str "\"i", [], 0, 0, 0, 0⟩

def Thread.wild : Thread := ⟨0, 0, str "\"i", [], [], [], 0, 0, 0, [], [], []⟩

/-- The arrays of a slot of which a cell does not belong into a string. -/
theorem columnTrees_wild {σ : Type} {names : List (Text × (σ → Piece))} {s : σ}
    (hcells : ∀ c ∈ names,
      (c.2 s).tree.Good ∨ Json.scan .other (c.2 s).tree.print = .clash) :
    ∀ m ∈ columnTrees names (fun _ => s) k,
      m.2.Good ∨ Json.scan .other m.2.print = .clash := by
  rw [columnTrees, List.forall_mem_map]
  intro c hc
  rw [Tree.Good, Tree.allGood_iff, Tree.print, Tree.prints_eq]
  refine scan_array_or (fun x _ hgood => scan_value (x.value_print hgood)) ?_
  rw [List.forall_mem_map]
  exact fun _ _ => hcells c hc

theorem not_members_wild {σ : Type} {names : List (Text × (σ → Piece))} {s : σ}
    {ms : List (Text × Tree)} (hms : Tree.MembersGood ms) (hnames : ∀ c ∈ names, Clean c.1)
    (hcells : ∀ c ∈ names,
      (c.2 s).tree.Good ∨ Json.scan .other (c.2 s).tree.print = .clash)
    (hwild : ∃ c ∈ names, ¬ (c.2 s).tree.Good) (hk : k ≠ 0) :
    ¬ Members (commas (Tree.printMembers (ms ++ tableTrees names (fun _ => s) k))) := by
  rw [tableTrees, if_neg hk]
  have hgood := Tree.membersGood_iff.mp hms
  have htitles : ∀ m ∈ columnTrees names (fun _ => s) k, Clean m.1 := by
    rw [columnTrees, List.forall_mem_map]
    exact hnames
  have hor := membersGood_or_of
    (List.forall_mem_append.mpr ⟨fun m hm => (hgood m hm).1, htitles⟩)
    (List.forall_mem_append.mpr ⟨fun m hm => Or.inl (hgood m hm).2, columnTrees_wild hcells⟩)
  rcases hor with hall | hclash
  · obtain ⟨c, hc, hbad⟩ := hwild
    obtain ⟨-, hcolumns⟩ := Tree.membersGood_append.mp hall
    have hcolumn := (Tree.membersGood_iff.mp hcolumns _ (List.mem_map_of_mem hc)).2
    rw [Tree.Good, Tree.allGood_iff, List.forall_mem_map] at hcolumn
    exact absurd (hcolumn 0 (List.mem_range.mpr (Nat.pos_of_ne_zero hk))) hbad
  · exact fun h => scan_members h hclash

theorem Thread.wild_cells : ∀ c ∈ Thread.names,
    (c.2 .wild).tree.Good ∨ Json.scan .other (c.2 .wild).tree.print = .clash := by
  have hnil : Clean [] := List.forall_mem_nil _
  have hnum : ∀ n : UInt64, Clean (number n) := fun n => clean_decimal n.toNat
  have hinfo : Json.scan .other (quote (str "\"i")) = .clash := by decide
  simp [Thread.names, Thread.wild, Piece.tree, Tree.Good, Tree.print, hnil, hnum, hinfo]

theorem SlowQuery.wild_cells : ∀ c ∈ SlowQuery.names,
    (c.2 .wild).tree.Good ∨ Json.scan .other (c.2 .wild).tree.print = .clash := by
  have hnil : Clean [] := List.forall_mem_nil _
  have hnum : ∀ n : UInt64, Number (number n) := fun n => number_decimal n.toNat
  have huser : Json.scan .other (quote (str "\"i")) = .clash := by decide
  simp [SlowQuery.names, SlowQuery.wild, Piece.tree, Tree.Good, Tree.print, hnil, hnum, huser]

theorem Thread.wild_bad : ∃ c ∈ Thread.names, ¬ (c.2 .wild).tree.Good := by
  refine ⟨(str "info", fun s => .quoted s.info), by simp [Thread.names], ?_⟩
  exact (by decide : ¬ Clean (str "\"i"))

theorem SlowQuery.wild_bad : ∃ c ∈ SlowQuery.names, ¬ (c.2 .wild).tree.Good := by
  refine ⟨(str "user", fun s => .quoted s.user), by simp [SlowQuery.names], ?_⟩
  exact (by decide : ¬ Clean (str "\"i"))

/-! ## All four -/

/-- What the queries give for printing is text that can stand in a string, or a number. -/
structure MysqlAnswers.Valid (a : MysqlAnswers) : Prop where
  crud : ∀ row ∈ rowsOf a.crud, ValidRow 4 row
  ddl : ∀ row ∈ rowsOf a.ddl, ValidRow 0 row
  slow : ∀ row ∈ rowsOf a.slow, Number (row 1)
  size : ∀ row ∈ rowsOf a.size, ValidRow 14 row
  pages : ∀ row ∈ rowsOf a.pages, ValidRow 7 row
  threads : ∀ row ∈ rowsOf a.threads, ValidRow 0 row

/-- The function stays inside its arrays, and if it returns ENONE it has appended a list
of members. -/
def Formed (o : Option Output) : Prop :=
  ∃ out, o = some out ∧ (out.found = true → Members out.text)

/-- The rows fit, and if the status query does not fail there are none or the slot behind
the last one holds texts that can stand in a string. -/
def MysqlAnswers.ThreadWorks (a : MysqlAnswers) : Prop :=
  RowsFit Thread.Fits (rowsOf a.processes) ∧
    (a.threads.isSome = true →
      rowsOf a.processes = [] ∨ (a.threadSlots (rowsOf a.processes).length).Valid)

/-- In addition the status query gives one row, where it does not fail and anything is
printed. -/
def MysqlAnswers.QueryWorks (a : MysqlAnswers) : Prop :=
  RowsFit SlowQuery.Fits (rowsOf a.log) ∧
    (a.slow.isSome = true → a.QueryJoined ∧
      (rowsOf a.log = [] ∨ (a.slowSlots (rowsOf a.log).length).Valid))

/-- The status of the engine has its row, and the first query gives one. -/
def MysqlAnswers.InnodbWorks (a : MysqlAnswers) : Prop :=
  a.engine ≠ some [] ∧ a.InnodbJoined

theorem formed_thread (hv : a.Valid) (h : a.ThreadWorks) : Formed a.threadOutput := by
  obtain ⟨hfit, hslot⟩ := h
  refine ⟨_, mysqlGatherThread_eq_some.mpr ⟨hfit, rfl⟩, fun hfound => ?_⟩
  exact thread_members hv.threads (hslot hfound) (mysqlGatherThread_eq_some.mpr ⟨hfit, rfl⟩)

theorem formed_query (hv : a.Valid) (h : a.QueryWorks) : Formed a.queryOutput := by
  obtain ⟨hfit, hprinted⟩ := h
  refine ⟨_, queryOutput_eq_some.mpr ⟨hfit, rfl⟩, fun hfound => ?_⟩
  obtain ⟨hjoined, hslot⟩ := hprinted hfound
  exact query_members hv.slow hslot hjoined (queryOutput_eq_some.mpr ⟨hfit, rfl⟩)

theorem rowsFit_of_thread (h : Formed a.threadOutput) :
    RowsFit Thread.Fits (rowsOf a.processes) := by
  obtain ⟨out, hout, -⟩ := h
  exact (mysqlGatherThread_eq_some.mp hout).1

theorem rowsFit_of_query (hv : a.Valid) (h : Formed a.queryOutput) :
    RowsFit SlowQuery.Fits (rowsOf a.log) ∧ (a.slow.isSome = true → a.QueryJoined) := by
  obtain ⟨out, hout, hmembers⟩ := h
  obtain ⟨hfit, hreturns⟩ := queryOutput_eq_some.mp hout
  refine ⟨hfit, fun hfound => queryJoined_of_members hv.slow hout (hmembers ?_)⟩
  rw [hreturns]
  exact hfound

/-- A slot that holds anything is printed only where it can break the list. -/
theorem thread_silent (hv : a.Valid)
    (h : ∀ slots, Formed { a with threadSlots := slots }.threadOutput)
    (hfound : a.threads.isSome = true) : rowsOf a.processes = [] := by
  by_contra hne
  obtain ⟨out, hout, hmembers⟩ := h fun _ => .wild
  have htext := thread_text hout
  obtain ⟨-, hreturns⟩ := mysqlGatherThread_eq_some.mp hout
  have hlist := hmembers (by rw [hreturns]; exact hfound)
  rw [htext] at hlist
  exact not_members_wild (rowTrees_good hv.threads) (by decide) Thread.wild_cells Thread.wild_bad
    (mt List.length_eq_zero_iff.mp hne) hlist

theorem query_silent (hv : a.Valid)
    (h : ∀ slots, Formed { a with slowSlots := slots }.queryOutput)
    (hfound : a.slow.isSome = true) : rowsOf a.log = [] := by
  by_contra hne
  obtain ⟨out, hout, hmembers⟩ := h fun _ => .wild
  obtain ⟨-, hreturns⟩ := queryOutput_eq_some.mp hout
  have hlist := hmembers (by rw [hreturns]; exact hfound)
  have hjoined := queryJoined_of_members (a := { a with slowSlots := fun _ => .wild }) hv.slow
    hout hlist
  rw [query_printed hjoined hout] at hlist
  exact not_members_wild (slowQueries_good hv.slow) (by decide) SlowQuery.wild_cells
    SlowQuery.wild_bad (mt List.length_eq_zero_iff.mp hne) hlist

theorem formed_innodb_iff (hv : a.Valid) : Formed a.innodbOutput ↔ a.InnodbWorks := by
  constructor
  · rintro ⟨out, hout, hmembers⟩
    refine ⟨innodb_returns.mp ⟨out, hout⟩, ?_⟩
    cases hfound : out.found with
    | true => exact (innodb_members_iff hv.size hv.pages hout).mp (hmembers hfound)
    | false => exact innodb_found hout hfound
  · rintro ⟨hengine, hjoined⟩
    obtain ⟨out, hout⟩ := innodb_returns.mpr hengine
    exact ⟨out, hout, fun _ => (innodb_members_iff hv.size hv.pages hout).mpr hjoined⟩

/-- Where the section functions that return ENONE have appended a list of members. The
arrays of slots are not initialised: what they hold can make a list whole by chance, and
over everything they may hold the conditions are exact. -/
theorem sections_members_iff (a : MysqlAnswers) (hv : a.Valid) :
    (a.crudOutput.found = true → Members a.crudOutput.text) ∧
    ((a.ThreadWorks → Formed a.threadOutput) ∧
      (Formed a.threadOutput → RowsFit Thread.Fits (rowsOf a.processes)) ∧
      ((∀ slots, Formed { a with threadSlots := slots }.threadOutput) ↔
        ∀ slots, { a with threadSlots := slots }.ThreadWorks)) ∧
    ((a.QueryWorks → Formed a.queryOutput) ∧
      (Formed a.queryOutput → RowsFit SlowQuery.Fits (rowsOf a.log) ∧
        (a.slow.isSome = true → a.QueryJoined)) ∧
      ((∀ slots, Formed { a with slowSlots := slots }.queryOutput) ↔
        ∀ slots, { a with slowSlots := slots }.QueryWorks)) ∧
    (Formed a.innodbOutput ↔ a.InnodbWorks) := by
  have hslow : ∀ slots, ({ a with slowSlots := slots } : MysqlAnswers).Valid := fun _ =>
    ⟨hv.crud, hv.ddl, hv.slow, hv.size, hv.pages, hv.threads⟩
  have hthreads : ∀ slots, ({ a with threadSlots := slots } : MysqlAnswers).Valid := fun _ =>
    ⟨hv.crud, hv.ddl, hv.slow, hv.size, hv.pages, hv.threads⟩
  refine ⟨fun _ => crud_members hv.crud hv.ddl,
    ⟨formed_thread hv, rowsFit_of_thread, fun h slots => ?_, fun h slots => ?_⟩,
    ⟨formed_query hv, rowsFit_of_query hv, fun h slots => ?_, fun h slots => ?_⟩,
    formed_innodb_iff hv⟩
  · have hsilent := thread_silent hv h
    exact ⟨rowsFit_of_thread (h slots), fun hfound => Or.inl (hsilent hfound)⟩
  · exact formed_thread (hthreads slots) (h slots)
  · have hsilent := query_silent hv h
    obtain ⟨hfit, hjoined⟩ := rowsFit_of_query (hslow slots) (h slots)
    exact ⟨hfit, fun hfound => ⟨hjoined hfound, Or.inl (hsilent hfound)⟩⟩
  · exact formed_query (hslow slots) (h slots)

/-- Slots that hold zeros. -/
def SlowQuery.zero : SlowQuery := ⟨[], [], 0, 0, 0, 0⟩

def Thread.zero : Thread := ⟨0, 0, [], [], [], [], 0, 0, 0, [], [], []⟩

/-- A server with one slow query, where `slow` is the answer to the status query. -/
def MysqlAnswers.sample (slow : QueryResult) : MysqlAnswers where
  crud := some [fun i => [str "Com_select", str "5"].getD i []]
  ddl := some []
  slow := slow
  log := some [fun i => [str "root", str "select", str "3", str "1000", str "1", str "1"].getD i []]
  size := some [fun i => [str "innodb_buffer_pool_size", str "8"].getD i []]
  pages := none
  engine := none
  threads := none
  processes := some []
  slowSlots := fun _ => .zero
  threadSlots := fun _ => .zero

theorem MysqlAnswers.sample_valid {slow : QueryResult} (h : ∀ row ∈ rowsOf slow, Number (row 1)) :
    (MysqlAnswers.sample slow).Valid where
  crud := by
    intro row hrow
    obtain rfl := List.mem_singleton.mp hrow
    exact ⟨(by decide : Clean (str "select")), number_decimal 5⟩
  ddl := List.forall_mem_nil _
  slow := h
  size := by
    intro row hrow
    obtain rfl := List.mem_singleton.mp hrow
    exact ⟨(by decide : Clean (str "pool_size")), number_decimal 8⟩
  pages := List.forall_mem_nil _
  threads := List.forall_mem_nil _

theorem MysqlAnswers.sample_fits (slow : QueryResult) :
    RowsFit SlowQuery.Fits (rowsOf (MysqlAnswers.sample slow).log) := by
  refine Or.inr ⟨(by decide : 1 < bfsz), ?_⟩
  intro row hrow
  obtain rfl := List.mem_singleton.mp hrow
  constructor
  · intro w hw
    obtain rfl : str "root" = w := Option.some.inj hw
    decide
  · intro w hw
    obtain rfl : str "select" = w := Option.some.inj hw
    decide

theorem sections_members_one_row :
    let a := MysqlAnswers.sample (some [fun _ => str "2"])
    a.QueryWorks ∧ Formed a.queryOutput := by
  intro a
  have hv : a.Valid := MysqlAnswers.sample_valid fun row hrow => by
    obtain rfl := List.mem_singleton.mp hrow
    exact number_decimal 2
  have hworks : a.QueryWorks := by
    refine ⟨MysqlAnswers.sample_fits _, fun _ => ⟨Or.inl rfl, Or.inr ?_⟩⟩
    exact ⟨List.forall_mem_nil _, List.forall_mem_nil _⟩
  exact ⟨hworks, (sections_members_iff a hv).2.2.1.1 hworks⟩

/-- The status query gives no row, the slow log one. -/
theorem query_begins_with_comma :
    ∃ out, (MysqlAnswers.sample (some [])).queryOutput = some out ∧ out.found = true ∧
      ¬ Members out.text := by
  have hv : (MysqlAnswers.sample (some [])).Valid :=
    MysqlAnswers.sample_valid (List.forall_mem_nil _)
  refine ⟨_, rfl, rfl, fun h => ?_⟩
  have hjoined : (MysqlAnswers.sample (some [])).QueryJoined :=
    queryJoined_of_members hv.slow rfl h
  rcases hjoined with h | ⟨-, h⟩
  · cases h
  · cases h

end MonitoringAgent
