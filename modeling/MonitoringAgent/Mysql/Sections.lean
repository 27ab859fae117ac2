import MonitoringAgent.Lib.Scan
import MonitoringAgent.Mysql.Alerts

/-!
# The sections of a MySQL target

What `_mysql_gather_crud`, `_mysql_gather_query`, `_mysql_gather_innodb` and
`_mysql_gather_thread` append, for any answers of the server. A query that fails is
`none`; the rows of one that does not are texts, no column being NULL.
-/
namespace MonitoringAgent

open Buffer Decimal Scan Format

/-- The columns of a row. -/
abbrev Row := Nat → Text

abbrev QueryResult := Option (List Row)

/-- As the model of `mysql_gather` takes it. -/
def Output.toSection (o : Output) : MysqlSection := ⟨o.appends.map render, o.found⟩

/-- The rows of a query, if it did not fail. -/
def rowsOf (res : QueryResult) : List Row := res.getD []

/-! ## Counters -/

/-- The loops with a comma flag: a name past its first `skip` characters, and a value. -/
def flagged (skip : Nat) : Bool → List Row → List Append
  | _, [] => []
  | comma, row :: rows =>
    [.lit (if comma then str "," else []), .quoted ((row 0).drop skip), .lit (str ":"),
      .bare (row 1)] :: flagged skip true rows

def mysqlGatherCrud (status ddl : QueryResult) : Output where
  appends := flagged 4 false (rowsOf status) ++ flagged 0 (! (rowsOf status).isEmpty) (rowsOf ddl)
  found := status.isSome || ddl.isSome

/-! ## Tables -/

/-- `sscanf(t, "%s", field)` for an array of BFSZ characters. A longer word is written
past its end, and without a word the array keeps what it held. -/
def scanText (t field : Text) : Option Text :=
  match word t with
  | none => some field
  | some w => if w.length < bfsz then some w else none

/-- `sscanf(t, "%lu", &field)`. -/
def scanNumber (t : Text) (field : UInt64) : UInt64 :=
  match unsigned t with
  | none => field
  | some (n, _) => n

/-- The loop that fills an array of BFSZ structures with the rows, from slot `k` on. -/
def fill {σ : Type} (scan : Row → σ → Option σ) :
    List Row → Nat → (Nat → σ) → Option (Nat × (Nat → σ))
  | [], k, slots => some (k, slots)
  | row :: rows, k, slots =>
    if k < bfsz then do
      let slot ← scan row (slots k)
      fill scan rows (k + 1) (Function.update slots k slot)
    else none

/-- The rows of a query as one array for each column. Behind the loop every cell is taken
from slot `k`, which must lie inside the array. -/
def tabulate {σ : Type} (scan : Row → σ → Option σ) (cols : List (Text × (σ → Piece)))
    (junk : Nat → σ) (rows : List Row) : Option (List Append) := do
  let (k, slots) ← fill scan rows 0 junk
  if k = 0 then return []
  else if k < bfsz then return columns cols (fun _ => slots k) k ++ [[.lit (str "]")]]
  else none

structure SlowQuery where
  user : Text
  sqlText : Text
  queryTime : UInt64
  startTime : Epoch
  rowsSent : UInt64
  rowsExamined : UInt64

def SlowQuery.scan (row : Row) (s : SlowQuery) : Option SlowQuery := do
  let user ← scanText (row 0) s.user
  let sqlText ← scanText (row 1) s.sqlText
  return {
    user := user
    sqlText := sqlText
    queryTime := scanNumber (row 2) s.queryTime
    startTime := scanNumber (row 3) s.startTime
    rowsSent := scanNumber (row 4) s.rowsSent
    rowsExamined := scanNumber (row 5) s.rowsExamined }

def SlowQuery.cols : List (Text × (SlowQuery → Piece)) :=
  [(str ",\"user\":[", fun s => .quoted s.user),
    (str "],\"sql\":[", fun s => .quoted s.sqlText),
    (str "],\"query_time\":[", fun s => .bare (number s.queryTime)),
    (str "],\"start_time\":[", fun s => .bare (number s.startTime)),
    (str "],\"rows_sent\":[", fun s => .bare (number s.rowsSent)),
    (str "],\"rows_examined\":[", fun s => .bare (number s.rowsExamined))]

/-- The first query of `_mysql_gather_query`. -/
def slowQueries (rows : List Row) : List Append :=
  rows.map fun row => [.lit (str "\"slow_queries\":"), .bare (row 1)]

/-- The array starts with anything. -/
def mysqlGatherQuery (junk : Nat → SlowQuery) (status log : QueryResult) : Option Output := do
  let table ← tabulate SlowQuery.scan SlowQuery.cols junk (rowsOf log)
  return ⟨slowQueries (rowsOf status) ++ table, status.isSome⟩

structure Thread where
  id : UInt64
  threadId : UInt64
  info : Text
  user : Text
  host : Text
  db : Text
  time : UInt64
  timerWait : UInt64
  eventId : UInt64
  eventName : Text
  command : Text
  state : Text

def Thread.scan (row : Row) (s : Thread) : Option Thread := do
  let info ← scanText (row 2) s.info
  let user ← scanText (row 3) s.user
  let host ← scanText (row 4) s.host
  let db ← scanText (row 5) s.db
  let eventName ← scanText (row 9) s.eventName
  let command ← scanText (row 10) s.command
  let state ← scanText (row 11) s.state
  return {
    id := scanNumber (row 0) s.id
    threadId := scanNumber (row 1) s.threadId
    info := info
    user := user
    host := host
    db := db
    time := scanNumber (row 6) s.time
    timerWait := scanNumber (row 7) s.timerWait
    eventId := scanNumber (row 8) s.eventId
    eventName := eventName
    command := command
    state := state }

def Thread.cols (comma : Bool) : List (Text × (Thread → Piece)) :=
  [((if comma then str "," else []) ++ str "\"id\":[", fun s => .quoted (number s.id)),
    (str "],\"thread_id\":[", fun s => .quoted (number s.threadId)),
    (str "],\"info\":[", fun s => .quoted s.info),
    (str "],\"user\":[", fun s => .quoted s.user),
    (str "],\"host\":[", fun s => .quoted s.host),
    (str "],\"db\":[", fun s => .quoted s.db),
    (str "],\"time\":[", fun s => .quoted (number s.time)),
    (str "],\"timer_wait\":[", fun s => .quoted (number s.timerWait)),
    (str "],\"event_id\":[", fun s => .quoted (number s.eventId)),
    (str "],\"event_name\":[", fun s => .quoted s.eventName),
    (str "],\"command\":[", fun s => .quoted s.command),
    (str "],\"state\":[", fun s => .quoted s.state)]

def mysqlGatherThread (junk : Nat → Thread) (status list : QueryResult) : Option Output := do
  let table ← tabulate Thread.scan (Thread.cols (! (rowsOf status).isEmpty)) junk (rowsOf list)
  return ⟨flagged 0 false (rowsOf status) ++ table, status.isSome⟩

/-! ## InnoDB -/

/-- `sscanf(t, "Ibuf: size %llu, free list len %llu, seg size %llu", ...) == 3`. -/
def scanIbuf (t : Text) : Option (UInt64 × UInt64 × UInt64) := do
  let t ← literal (str "Ibuf: size ") t
  let (used, t) ← unsigned t
  let t ← literal (str ", free list len ") t
  let (free, t) ← unsigned t
  let t ← literal (str ", seg size ") t
  let (total, _) ← unsigned t
  return (used, free, total)

/-- The matches in the text of the engine, in order. -/
def ibufs (t : Text) : List (UInt64 × UInt64 × UInt64) :=
  (List.range t.length).filterMap fun i =>
    if str "Ibuf" <+: t.drop i then scanIbuf (t.drop i) else none

def ibufAppends : UInt64 × UInt64 × UInt64 → List Append
  | (used, free, total) =>
    [[.lit (str ",\"cell_count\":"), .bare (number total)],
      [.lit (str ",\"free_cells\":"), .bare (number free)],
      [.lit (str ",\"used_cells\":"), .bare (number used)]]

/-- One variable of the first two queries, in two appends. -/
def variableAppends (before : Text) (skip : Nat) (row : Row) : List Append :=
  [[.lit before, .quoted ((row 0).drop skip), .lit (str ":")], [.bare (row 1)]]

/-- The status of the engine has one row; without it the function reads through NULL. -/
def mysqlGatherInnodb (size pages engine : QueryResult) : Option Output := do
  let before := (rowsOf size).flatMap (variableAppends [] 14) ++
    (rowsOf pages).flatMap (variableAppends (str ",") 7)
  match engine with
  | none => return ⟨before, size.isSome || pages.isSome⟩
  | some rows =>
    let row ← rows.head?
    let found := ibufs (row 2)
    return ⟨before ++ found.flatMap ibufAppends, size.isSome || pages.isSome || ! found.isEmpty⟩

/-- What the queries of one call of `mysql_gather` are answered with, and what the two
arrays of slots start with. -/
structure MysqlAnswers where
  crud : QueryResult
  ddl : QueryResult
  slow : QueryResult
  log : QueryResult
  size : QueryResult
  pages : QueryResult
  engine : QueryResult
  threads : QueryResult
  processes : QueryResult
  slowSlots : Nat → SlowQuery
  threadSlots : Nat → Thread

namespace MysqlAnswers

variable (a : MysqlAnswers)

def crudOutput : Output := mysqlGatherCrud a.crud a.ddl

def queryOutput : Option Output := mysqlGatherQuery a.slowSlots a.slow a.log

def innodbOutput : Option Output := mysqlGatherInnodb a.size a.pages a.engine

def threadOutput : Option Output := mysqlGatherThread a.threadSlots a.threads a.processes

end MysqlAnswers

end MonitoringAgent
