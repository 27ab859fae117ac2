import MonitoringAgent.Mysql.Sections

/-!
# The arrays of the slow log and of the process list

A section is aligned when its arrays have one element for each row, in order, and each
element is what the row has in that column. The loops that print the arrays take every
element from the slot behind the last row.
-/
namespace MonitoringAgent

open Buffer Decimal Scan Format

/-- The field holds the first word of the column, if there is one. -/
def HoldsText (t field : Text) : Prop := ∀ w, word t = some w → field = w

/-- The field holds the number in the column, if there is one. -/
def HoldsNumber (t : Text) (field : UInt64) : Prop :=
  ∀ n rest, unsigned t = some (n, rest) → field = n

/-- The word of the column fits an array of BFSZ characters. -/
def TextFits (t : Text) : Prop := ∀ w, word t = some w → w.length < bfsz

structure SlowQuery.Of (row : Row) (s : SlowQuery) : Prop where
  user : HoldsText (row 0) s.user
  sqlText : HoldsText (row 1) s.sqlText
  queryTime : HoldsNumber (row 2) s.queryTime
  startTime : HoldsNumber (row 3) s.startTime
  rowsSent : HoldsNumber (row 4) s.rowsSent
  rowsExamined : HoldsNumber (row 5) s.rowsExamined

def SlowQuery.Fits (row : Row) : Prop := TextFits (row 0) ∧ TextFits (row 1)

structure Thread.Of (row : Row) (s : Thread) : Prop where
  id : HoldsNumber (row 0) s.id
  threadId : HoldsNumber (row 1) s.threadId
  info : HoldsText (row 2) s.info
  user : HoldsText (row 3) s.user
  host : HoldsText (row 4) s.host
  db : HoldsText (row 5) s.db
  time : HoldsNumber (row 6) s.time
  timerWait : HoldsNumber (row 7) s.timerWait
  eventId : HoldsNumber (row 8) s.eventId
  eventName : HoldsText (row 9) s.eventName
  command : HoldsText (row 10) s.command
  state : HoldsText (row 11) s.state

def Thread.Fits (row : Row) : Prop :=
  TextFits (row 2) ∧ TextFits (row 3) ∧ TextFits (row 4) ∧ TextFits (row 5) ∧
    TextFits (row 9) ∧ TextFits (row 10) ∧ TextFits (row 11)

variable {σ : Type} {scan : Row → σ → Option σ} {cols : List (Text × (σ → Piece))}
  {Of : Row → σ → Prop} {Fits : Row → Prop} {rows : List Row} {k : Nat}
  {slots slots' junk : Nat → σ}

/-- The arrays of a table whose `i`-th row is `vs i`; without rows there are none. -/
def table (cols : List (Text × (σ → Piece))) (k : Nat) (vs : Nat → σ) : List Append :=
  if k = 0 then [] else columns cols vs k ++ [[.lit (str "]")]]

/-- The appends are the arrays of the rows, and nothing was written outside the slots. -/
def Aligned (Of : Row → σ → Prop) (cols : List (Text × (σ → Piece))) (rows : List Row)
    (appends : List Append) : Prop :=
  ∃ vs : Nat → σ, (∀ i (h : i < rows.length), Of rows[i] (vs i)) ∧
    appends = table cols rows.length vs

/-- What the loops need to print the right arrays: no row at all, or a slot behind the
rows that agrees with every one of them. -/
def Agreeing (Of : Row → σ → Prop) (Fits : Row → Prop) (junk : Nat → σ) (rows : List Row) :
    Prop :=
  rows = [] ∨ rows.length < bfsz ∧ (∀ row ∈ rows, Fits row) ∧
    ∀ row ∈ rows, Of row (junk rows.length)

/-! ## Filling the slots -/

theorem fill_eq {k' : Nat} (h : fill scan rows k slots = some (k', slots')) :
    k' = k + rows.length ∧ ∀ j, k' ≤ j → slots' j = slots j := by
  induction rows generalizing k slots with
  | nil =>
    obtain ⟨rfl, rfl⟩ := Prod.mk.inj (Option.some.inj h)
    exact ⟨rfl, fun _ _ => rfl⟩
  | cons row rows ih =>
    rw [fill] at h
    split at h
    · obtain ⟨slot, -, h⟩ := Option.bind_eq_some_iff.mp h
      obtain ⟨rfl, hkeep⟩ := ih h
      refine ⟨by rw [List.length_cons]; omega, fun j hj => ?_⟩
      rw [hkeep j hj, Function.update_of_ne (by omega)]
    · cases h

/-- The writes stay inside the array exactly if the rows and their words fit. -/
theorem fill_isSome (hscan : ∀ row s, (scan row s).isSome ↔ Fits row) (rows : List Row)
    (slots : Nat → σ) (hk : k ≤ bfsz) :
    (fill scan rows k slots).isSome ↔
      k + rows.length ≤ bfsz ∧ ∀ row ∈ rows, Fits row := by
  induction rows generalizing k slots with
  | nil => simpa [fill] using hk
  | cons row rows ih =>
    rw [fill, List.forall_mem_cons, List.length_cons]
    split
    · next hlt =>
      cases hrow : scan row (slots k) with
      | none =>
        have hfits : ¬ Fits row := by
          rw [← hscan row (slots k), hrow]
          exact Bool.false_ne_true
        simp [hfits]
      | some slot =>
        have hfits : Fits row := by
          rw [← hscan row (slots k), hrow]
          rfl
        have hnext := ih (Function.update slots k slot) (Nat.succ_le_of_lt hlt)
        simp only [Option.bind_eq_bind, Option.bind_some, hnext, hfits, true_and]
        refine and_congr_left fun _ => ?_
        omega
    · next hge =>
      simp only [Option.isSome_none, Bool.false_eq_true, false_iff]
      omega

/-- The table that is printed has the same row everywhere. -/
theorem tabulate_eq_some (hscan : ∀ row s, (scan row s).isSome ↔ Fits row)
    {appends : List Append} :
    tabulate scan cols junk rows = some appends ↔
      (rows = [] ∨ rows.length < bfsz ∧ ∀ row ∈ rows, Fits row) ∧
        appends = table cols rows.length fun _ => junk rows.length := by
  have hsome := fill_isSome hscan rows junk (Nat.zero_le bfsz)
  unfold tabulate
  cases hfill : fill scan rows 0 junk with
  | none =>
    rw [hfill] at hsome
    have hbig : ¬ (0 + rows.length ≤ bfsz ∧ ∀ row ∈ rows, Fits row) := fun hfit => by
      simpa using hsome.mpr hfit
    refine iff_of_false (by simp) ?_
    rintro ⟨rfl | ⟨hlen, hfits⟩, -⟩
    · exact hbig (by simp)
    · exact hbig ⟨by omega, hfits⟩
  | some filled =>
    obtain ⟨k, slots⟩ := filled
    rw [hfill] at hsome
    obtain ⟨-, hfits⟩ := hsome.mp rfl
    obtain ⟨hk, hkeep⟩ := fill_eq hfill
    rw [Nat.zero_add] at hk
    subst hk
    have hslot := hkeep rows.length le_rfl
    simp only [Option.bind_eq_bind, Option.bind_some, hslot, List.length_eq_zero_iff]
    unfold table
    by_cases hnil : rows = []
    · simp [hnil, eq_comm]
    have hne : rows.length ≠ 0 := by simpa using hnil
    by_cases hlt : rows.length < bfsz
    · rw [if_neg hnil, if_pos hlt, if_neg hne]
      constructor
      · intro h
        exact ⟨Or.inr ⟨hlt, hfits⟩, (Option.some.inj h).symm⟩
      · rintro ⟨-, rfl⟩
        rfl
    · simp [hnil, hlt]

/-- The printed arrays are those of the rows exactly when the slot behind them agrees with
every row. -/
theorem aligned_iff (hscan : ∀ row s, (scan row s).isSome ↔ Fits row)
    (hcols : ∀ s s', (∀ c ∈ cols, c.2 s = c.2 s') → s = s') :
    (∃ appends, tabulate scan cols junk rows = some appends ∧ Aligned Of cols rows appends) ↔
      Agreeing Of Fits junk rows := by
  simp only [tabulate_eq_some hscan, Agreeing]
  constructor
  · rintro ⟨appends, ⟨hfit, rfl⟩, vs, hof, heq⟩
    rcases hfit with hnil | ⟨hlen, hfits⟩
    · exact Or.inl hnil
    by_cases hnil : rows = []
    · exact Or.inl hnil
    refine Or.inr ⟨hlen, hfits, fun row hrow => ?_⟩
    have hne : rows.length ≠ 0 := by simpa using hnil
    rw [table, table, if_neg hne, if_neg hne] at heq
    have hcells := cell_of_columns (List.append_cancel_right heq)
    obtain ⟨i, hi, rfl⟩ := List.getElem_of_mem hrow
    have hsame : junk rows.length = vs i := hcols _ _ fun c hc => hcells c hc i hi
    rw [hsame]
    exact hof i hi
  · rintro (rfl | ⟨hlen, hfits, hof⟩)
    · exact ⟨_, ⟨Or.inl rfl, rfl⟩, fun _ => junk 0, by simp, rfl⟩
    · exact ⟨_, ⟨Or.inr ⟨hlen, hfits⟩, rfl⟩, fun _ => junk rows.length,
        fun i hi => hof _ (List.getElem_mem hi), rfl⟩

/-! ## The two tables -/

theorem scanText_isSome (t field : Text) : (scanText t field).isSome ↔ TextFits t := by
  unfold scanText TextFits
  cases word t with
  | none => simp
  | some w => by_cases hw : w.length < bfsz <;> simp [hw]

theorem isSome_bind_iff {α β : Type} {x : Option α} {f : α → Option β} {P : Prop}
    (h : ∀ a, (f a).isSome ↔ P) : (x.bind f).isSome ↔ x.isSome ∧ P := by
  cases x with
  | none => simp
  | some a => simpa using h a

theorem SlowQuery.scan_isSome (row : Row) (s : SlowQuery) :
    (SlowQuery.scan row s).isSome ↔ SlowQuery.Fits row := by
  unfold SlowQuery.scan SlowQuery.Fits
  refine (isSome_bind_iff fun _ => (isSome_bind_iff fun _ => iff_of_true rfl trivial)).trans ?_
  simp only [scanText_isSome, and_true]

theorem Thread.scan_isSome (row : Row) (s : Thread) :
    (Thread.scan row s).isSome ↔ Thread.Fits row := by
  unfold Thread.scan Thread.Fits
  refine (isSome_bind_iff fun _ => isSome_bind_iff fun _ => isSome_bind_iff fun _ =>
    isSome_bind_iff fun _ => isSome_bind_iff fun _ => isSome_bind_iff fun _ =>
    isSome_bind_iff fun _ => iff_of_true rfl trivial).trans ?_
  simp only [scanText_isSome, and_true]

theorem number_injective {a b : UInt64} (h : number a = number b) : a = b :=
  UInt64.toNat_inj.mp (decimal_injective a.toNat_lt b.toNat_lt h)

/-- The printed cells tell one slot from another. -/
theorem SlowQuery.eq_of_cols (s s' : SlowQuery)
    (h : ∀ c ∈ SlowQuery.cols, c.2 s = c.2 s') : s = s' := by
  cases s
  cases s'
  simp only [SlowQuery.cols, List.forall_mem_cons, Piece.quoted.injEq, Piece.bare.injEq] at h
  obtain ⟨huser, hsql, htime, hstart, hsent, hexamined, -⟩ := h
  rw [huser, hsql, number_injective htime, number_injective hstart, number_injective hsent,
    number_injective hexamined]

theorem Thread.eq_of_cols (comma : Bool) (s s' : Thread)
    (h : ∀ c ∈ Thread.cols comma, c.2 s = c.2 s') : s = s' := by
  cases s
  cases s'
  simp only [Thread.cols, List.forall_mem_cons, Piece.quoted.injEq] at h
  obtain ⟨hid, hthread, hinfo, huser, hhost, hdb, htime, hwait, hevent, hname, hcommand,
    hstate, -⟩ := h
  rw [number_injective hid, number_injective hthread, hinfo, huser, hhost, hdb,
    number_injective htime, number_injective hwait, number_injective hevent, hname, hcommand,
    hstate]

/-- `_mysql_gather_query` returns and its arrays are those of the rows of the slow log. -/
def QueryAligned (junk : Nat → SlowQuery) (status : QueryResult) (rows : List Row) : Prop :=
  ∃ out arrays, mysqlGatherQuery junk status (some rows) = some out ∧
    out.appends = slowQueries (rowsOf status) ++ arrays ∧
    Aligned SlowQuery.Of SlowQuery.cols rows arrays

/-- `_mysql_gather_thread` returns and its arrays are those of the rows of the process
list. -/
def ThreadAligned (junk : Nat → Thread) (status : QueryResult) (rows : List Row) : Prop :=
  ∃ out arrays, mysqlGatherThread junk status (some rows) = some out ∧
    out.appends = flagged 0 false (rowsOf status) ++ arrays ∧
    Aligned Thread.Of (Thread.cols (! (rowsOf status).isEmpty)) rows arrays

theorem appended_iff {x : Option (List Append)} {before : List Append} {found : Bool}
    {P : List Append → Prop} :
    (∃ out arrays, (x.bind fun t => some (⟨before ++ t, found⟩ : Output)) = some out ∧
      out.appends = before ++ arrays ∧ P arrays) ↔ ∃ arrays, x = some arrays ∧ P arrays := by
  constructor
  · rintro ⟨out, arrays, hout, happends, hp⟩
    obtain ⟨t, ht, hout⟩ := Option.bind_eq_some_iff.mp hout
    obtain rfl := Option.some.inj hout
    obtain rfl := List.append_cancel_left happends
    exact ⟨t, ht, hp⟩
  · rintro ⟨arrays, rfl, hp⟩
    exact ⟨_, arrays, rfl, rfl, hp⟩

theorem queryAligned_iff {junk : Nat → SlowQuery} (status : QueryResult) :
    QueryAligned junk status rows ↔ Agreeing SlowQuery.Of SlowQuery.Fits junk rows :=
  appended_iff.trans (aligned_iff SlowQuery.scan_isSome SlowQuery.eq_of_cols)

theorem threadAligned_iff {junk : Nat → Thread} (status : QueryResult) :
    ThreadAligned junk status rows ↔ Agreeing Thread.Of Thread.Fits junk rows :=
  appended_iff.trans (aligned_iff Thread.scan_isSome (Thread.eq_of_cols _))

/-- The arrays of the two sections are those of the rows exactly when there are no rows or
the slot behind the last one, which no row has been written to, holds every row. -/
theorem columns_match_iff (slowJunk : Nat → SlowQuery) (threadJunk : Nat → Thread)
    (slowStatus threadStatus : QueryResult) (slow threads : List Row) :
    (QueryAligned slowJunk slowStatus slow ↔
      Agreeing SlowQuery.Of SlowQuery.Fits slowJunk slow) ∧
    (ThreadAligned threadJunk threadStatus threads ↔
      Agreeing Thread.Of Thread.Fits threadJunk threads) :=
  ⟨queryAligned_iff slowStatus, threadAligned_iff threadStatus⟩

/-- One slow query of `root`, and slots that hold zeros. -/
theorem slow_query_lost :
    ¬ QueryAligned (fun _ => ⟨[], [], 0, 0, 0, 0⟩) none
      [fun i => [str "root", str "select", str "3", str "1000", str "1", str "1"].getD i []] := by
  rw [queryAligned_iff]
  rintro (hnil | ⟨-, -, hof⟩)
  · cases hnil
  · have huser := (hof _ (List.mem_singleton.mpr rfl)).user (str "root") (by decide)
    exact absurd huser (by decide)

end MonitoringAgent
