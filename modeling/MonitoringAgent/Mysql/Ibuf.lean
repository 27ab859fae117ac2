import MonitoringAgent.Lib.Directive
import MonitoringAgent.Mysql.Sections
import Mathlib.Tactic.IntervalCases

/-!
# The insert buffer

`_mysql_gather_innodb` looks for `Ibuf` at every byte of the status of the engine. It finds
each line that InnoDB prints about the insert buffer once, whatever the text around it.
-/
namespace MonitoringAgent

open Buffer Decimal Format Scan

/-- The line of the status, up to the last of the three numbers. -/
def ibufLine : UInt64 × UInt64 × UInt64 → Text
  | (used, free, total) =>
    str "Ibuf: size " ++ (number used ++ (str ", free list len " ++ (number free ++
      (str ", seg size " ++ number total))))

/-- What the loop does at one byte. -/
def ibufAt (t : Text) : Option (UInt64 × UInt64 × UInt64) :=
  if str "Ibuf" <+: t then scanIbuf t else none

variable {t u : Text} {c : Byte} {x : UInt64 × UInt64 × UInt64}

theorem ibufs_cons (c : Byte) (t : Text) :
    ibufs (c :: t) = (ibufAt (c :: t)).toList ++ ibufs t := by
  have hdef (t : Text) : ibufs t = (List.range t.length).filterMap fun i => ibufAt (t.drop i) := rfl
  rw [hdef, hdef, List.length_cons, List.range_succ_eq_map, List.filterMap_cons,
    List.filterMap_map, List.drop_zero]
  cases ibufAt (c :: t) <;> rfl

theorem ibufAt_of_head (h : t.head? ≠ some (ch 'I')) : ibufAt t = none := by
  refine if_neg fun hpre => h ?_
  obtain ⟨u, rfl⟩ := hpre
  rfl

/-- Bytes other than `I` are passed over. -/
theorem ibufs_skip (h : ch 'I' ∉ u) (t : Text) : ibufs (u ++ t) = ibufs t := by
  induction u with
  | nil => rfl
  | cons c u ih =>
    have hc : c ≠ ch 'I' := fun he => h (he ▸ List.mem_cons_self)
    have hhead : (c :: (u ++ t)).head? ≠ some (ch 'I') := fun he => hc (Option.some.inj he)
    have hu : ch 'I' ∉ u := fun hmem => h (List.mem_cons_of_mem c hmem)
    rw [List.cons_append, ibufs_cons, ibufAt_of_head hhead, ih hu]
    rfl

/-- A text without `Ibuf` that an `I` or nothing follows does not begin with it. -/
theorem ibufAt_noise (hne : u ≠ []) (h : ¬ str "Ibuf" <:+: u)
    (ht : ∀ c, t.head? = some c → c = ch 'I') : ibufAt (u ++ t) = none := by
  refine if_neg fun hpre => ?_
  have hlen : (str "Ibuf").length = 4 := by decide
  rcases Nat.lt_or_ge u.length 4 with hshort | hlong
  · -- the rest of the word would begin where the `I` stands
    obtain ⟨w, hw⟩ := hpre
    have hpos := List.length_pos_iff.mpr hne
    have hdrop : (str "Ibuf").drop u.length ++ w = t := by
      have hcut := congrArg (List.drop u.length) hw
      rwa [List.drop_left, List.drop_append_of_le_length (by omega)] at hcut
    have hhead : ∀ k, 0 < k → k < 4 → ∃ c, ((str "Ibuf").drop k ++ w).head? = some c ∧
        c ≠ ch 'I' := by
      intro k hk hk'
      interval_cases k
      · exact ⟨ch 'b', rfl, by decide⟩
      · exact ⟨ch 'u', rfl, by decide⟩
      · exact ⟨ch 'f', rfl, by decide⟩
    obtain ⟨c, hc, hI⟩ := hhead u.length hpos hshort
    rw [hdrop] at hc
    exact hI (ht c hc)
  · have hin := List.prefix_of_prefix_length_le hpre (List.prefix_append u t) (by omega)
    exact h hin.isInfix

/-- A text without `Ibuf` is passed over, up to an `I`. -/
theorem ibufs_noise (h : ¬ str "Ibuf" <:+: u) (ht : ∀ c, t.head? = some c → c = ch 'I') :
    ibufs (u ++ t) = ibufs t := by
  induction u with
  | nil => rfl
  | cons c u ih =>
    have hu : ¬ str "Ibuf" <:+: u := fun hin => h (hin.trans (List.suffix_cons c u).isInfix)
    have hnone := ibufAt_noise (List.cons_ne_nil c u) h ht
    rw [List.cons_append] at hnone ⊢
    rw [ibufs_cons, hnone, ih hu]
    rfl

/-! ## The line -/

theorem stops_number {p : Byte → Bool} (hp : ∀ c, IsDigit c → p c = false) (n : UInt64) (t : Text) :
    Stops p (number n ++ t) := by
  obtain ⟨d, ds, hds⟩ := List.exists_cons_of_ne_nil (decimal_ne_nil n.toNat)
  rw [number, hds]
  exact stops_cons (hp d (isDigit_decimal n.toNat d (hds ▸ List.mem_cons_self)))

/-- The format finds its three numbers in the line. -/
theorem scanIbuf_line (x : UInt64 × UInt64 × UInt64)
    (ht : Stops (fun c => decide (IsDigit c)) t) : scanIbuf (ibufLine x ++ t) = some x := by
  obtain ⟨used, free, total⟩ := x
  have hdigit : ∀ c, IsDigit c → isSpace c = false := fun c => isDigit_not_space
  have hread (n : UInt64) {u : Text} (hu : Stops (fun c => decide (IsDigit c)) u) :
      unsigned ([] ++ (number n ++ u)) = some (n, u) :=
    unsigned_decimal n (List.forall_mem_nil _) hu
  simp only [List.nil_append] at hread
  let t₂ := str ", seg size " ++ (number total ++ t)
  let t₁ := str ", free list len " ++ (number free ++ t₂)
  have hline : ibufLine (used, free, total) ++ t = str "Ibuf: size " ++ (number used ++ t₁) := by
    simp [ibufLine, t₁, t₂]
  have hsize := literal_self (str "Ibuf: size ") (stops_number hdigit used t₁)
  have hused := hread used (u := t₁) (stops_cons (by decide))
  have hlist := literal_self (str ", free list len ") (stops_number hdigit free t₂)
  have hfree := hread free (u := t₂) (stops_cons (by decide))
  have hseg := literal_self (str ", seg size ") (stops_number hdigit total t)
  have htotal := hread total ht
  rw [hline, scanIbuf]
  simp only [hsize, hused, t₁, hlist, hfree, t₂, hseg, htotal, Option.bind_eq_bind,
    Option.bind_some]
  rfl

theorem not_mem_line (x : UInt64 × UInt64 × UInt64) :
    ∃ u, ibufLine x = ch 'I' :: u ∧ ch 'I' ∉ u := by
  obtain ⟨used, free, total⟩ := x
  have hnumber (n : UInt64) : ch 'I' ∉ number n := fun hmem =>
    absurd (isDigit_decimal n.toNat _ hmem) (by decide)
  have hsize : ch 'I' ∉ str "buf: size " := by decide
  have hlist : ch 'I' ∉ str ", free list len " := by decide
  have hseg : ch 'I' ∉ str ", seg size " := by decide
  have hstr : str "Ibuf: size " = ch 'I' :: str "buf: size " := by decide
  refine ⟨str "buf: size " ++ (number used ++ (str ", free list len " ++ (number free ++
    (str ", seg size " ++ number total)))), ?_, ?_⟩
  · rw [ibufLine, hstr, List.cons_append]
  · simp only [List.mem_append, hsize, hlist, hseg, hnumber, or_self, not_false_eq_true]

/-- The loop takes the line and goes on behind it. -/
theorem ibufs_line (x : UInt64 × UInt64 × UInt64) (ht : Stops (fun c => decide (IsDigit c)) t) :
    ibufs (ibufLine x ++ t) = x :: ibufs t := by
  have hscan := scanIbuf_line x ht
  obtain ⟨u, hline, hu⟩ := not_mem_line x
  have hpre : str "Ibuf" <+: ibufLine x ++ t := by
    have hword : str "Ibuf: size " = str "Ibuf" ++ str ": size " := by decide
    rw [ibufLine, hword, List.append_assoc, List.append_assoc]
    exact List.prefix_append _ _
  have hat : ibufAt (ibufLine x ++ t) = some x := by rw [ibufAt, if_pos hpre, hscan]
  rw [hline, List.cons_append] at hat ⊢
  rw [ibufs_cons, hat, ibufs_skip hu]
  rfl

/-- The numbers of every such line in the status are found, in order and each once, and no
others, if the text before, between and after the lines does not contain `Ibuf`. -/
theorem ibufs_printed (before : Text) (xs : List ((UInt64 × UInt64 × UInt64) × Text))
    (hbefore : ¬ str "Ibuf" <:+: before)
    (hafter : ∀ x ∈ xs, ¬ str "Ibuf" <:+: x.2 ∧ Stops (fun c => decide (IsDigit c)) x.2) :
    ibufs (before ++ xs.flatMap fun x => ibufLine x.1 ++ x.2) = xs.map Prod.fst := by
  have hhead (xs : List ((UInt64 × UInt64 × UInt64) × Text)) (c : Byte)
      (hc : (xs.flatMap fun x => ibufLine x.1 ++ x.2).head? = some c) : c = ch 'I' := by
    cases xs with
    | nil => cases hc
    | cons x xs =>
      obtain ⟨u, hline, -⟩ := not_mem_line x.1
      rw [List.flatMap_cons, hline] at hc
      exact (Option.some.inj hc).symm
  rw [ibufs_noise hbefore (hhead xs)]
  induction xs with
  | nil => rfl
  | cons x xs ih =>
    obtain ⟨⟨hx, hdigit⟩, hxs⟩ := List.forall_mem_cons.mp hafter
    have hstop : Stops (fun c => decide (IsDigit c))
        (x.2 ++ xs.flatMap fun x => ibufLine x.1 ++ x.2) := by
      intro c hc
      cases hx2 : x.2 with
      | nil =>
        rw [hx2] at hc
        rw [hhead xs c hc]
        decide
      | cons d u =>
        rw [hx2] at hc hdigit
        exact hdigit c hc
    rw [List.flatMap_cons, List.append_assoc, ibufs_line x.1 hstop, ibufs_noise hx (hhead xs),
      ih hxs, List.map_cons]

theorem ibufs_printed_merges :
    ibufs (str "INSERT BUFFER\nIbuf: size 1, free list len 0, seg size 2, 0 merges\n") =
      [(1, 0, 2)] := by
  have htext : str "INSERT BUFFER\nIbuf: size 1, free list len 0, seg size 2, 0 merges\n" =
      str "INSERT BUFFER\n" ++ [((1, 0, 2), str ", 0 merges\n")].flatMap fun x =>
        ibufLine x.1 ++ x.2 := by
    decide +kernel
  have hbefore : ¬ str "Ibuf" <:+: str "INSERT BUFFER\n" := by decide +kernel
  have hafter : ¬ str "Ibuf" <:+: str ", 0 merges\n" ∧
      Stops (fun c => decide (IsDigit c)) (str ", 0 merges\n") :=
    ⟨by decide +kernel, stops_cons (by decide)⟩
  rw [htext]
  exact ibufs_printed _ [((1, 0, 2), str ", 0 merges\n")] hbefore
    (List.forall_mem_singleton.mpr hafter)

end MonitoringAgent
