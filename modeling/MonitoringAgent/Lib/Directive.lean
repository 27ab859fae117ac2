import MonitoringAgent.Lib.Scan

/-! The directives of a `scanf` format: what each takes off its input. -/
namespace Scan

open Buffer Decimal

/-- `%n[...]`: at least one and at most `n` bytes of a set, and what follows them. -/
def scanset (n : Nat) (p : Byte → Bool) (t : Text) : Option (Text × Text) :=
  let w := (t.take n).takeWhile p
  if w = [] then none else some (w, t.drop w.length)

/-- The first byte, if there is one, is not in the set. -/
def Stops (p : Byte → Bool) (t : Text) : Prop := ∀ c, t.head? = some c → p c = false

def Sign (t : Text) : Prop := t = [] ∨ t = [ch '-'] ∨ t = [ch '+']

instance (t : Text) : Decidable (Sign t) := inferInstanceAs (Decidable (_ ∨ _ ∨ _))

/-- The number that a sign and a row of digits stand for. -/
def signed (sign ds : Text) : UInt64 :=
  if 2 ^ 64 ≤ value ds then UInt64.ofNat (2 ^ 64 - 1)
  else if sign = [ch '-'] then - UInt64.ofNat (value ds)
  else UInt64.ofNat (value ds)

variable {n : Nat} {p : Byte → Bool} {t u w rest sp sign ds : Text} {c : Byte}

/-! ## Sets -/

theorem stops_nil : Stops p [] := by
  intro c hc
  cases hc

theorem stops_cons (hc : p c = false) : Stops p (c :: t) := by
  intro d hd
  obtain rfl : c = d := by simpa using hd
  exact hc

theorem takeWhile_append_stops (hw : ∀ c ∈ w, p c) (hrest : Stops p rest) :
    (w ++ rest).takeWhile p = w := by
  rw [List.takeWhile_append_of_pos hw]
  cases rest with
  | nil => simp
  | cons c rest =>
    have hc := hrest c rfl
    rw [List.takeWhile_cons_of_neg (by simp [hc]), List.append_nil]

theorem dropWhile_append_stops (hw : ∀ c ∈ w, p c) (hrest : Stops p rest) :
    (w ++ rest).dropWhile p = rest := by
  rw [List.dropWhile_append_of_pos hw]
  cases rest with
  | nil => rfl
  | cons c rest =>
    have hc := hrest c rfl
    rw [List.dropWhile_cons_of_neg (by simp [hc])]

theorem stops_dropWhile (t : Text) : Stops p (t.dropWhile p) := by
  intro c hc
  cases ht : t.dropWhile p with
  | nil => simp [ht] at hc
  | cons d u =>
    have hd := List.dropWhile_get_zero_not p t (by simp [ht])
    rw [ht] at hc
    obtain rfl : d = c := by simpa using hc
    simpa [ht] using hd

theorem scanset_append (hw : w ≠ []) (hmem : ∀ c ∈ w, p c) (hlen : w.length ≤ n)
    (hrest : Stops p rest) : scanset n p (w ++ rest) = some (w, rest) := by
  have htake : ((w ++ rest).take n).takeWhile p = w := by
    rw [List.take_append, List.take_of_length_le hlen]
    refine takeWhile_append_stops hmem ?_
    intro c hc
    refine hrest c ?_
    rw [List.head?_take] at hc
    split at hc
    · cases hc
    · exact hc
  rw [scanset, htake]
  simp [hw]

theorem scanset_eq_some (h : scanset n p t = some (w, rest)) :
    t = w ++ rest ∧ w ≠ [] ∧ (∀ c ∈ w, p c) ∧ w.length ≤ n := by
  unfold scanset at h
  dsimp only at h
  split at h
  · cases h
  · next hne =>
    obtain ⟨hw, hrest⟩ := Prod.mk.inj (Option.some.inj h)
    have hpre : (t.take n).takeWhile p <+: t :=
      (List.takeWhile_prefix _).trans (List.take_prefix n t)
    rw [hw] at hne hrest hpre
    obtain ⟨u, rfl⟩ := hpre
    rw [List.drop_left] at hrest
    subst hrest
    refine ⟨rfl, hne, ?_, ?_⟩
    · intro c hc
      rw [← hw] at hc
      exact List.mem_takeWhile_imp hc
    · rw [← hw]
      exact (List.takeWhile_prefix _).length_le.trans (List.length_take_le n _)

/-- A set that is not cut off by the width goes on to a byte outside of it. -/
theorem stops_of_scanset (h : scanset n p t = some (w, rest)) (hlen : w.length < n) :
    Stops p rest := by
  unfold scanset at h
  dsimp only at h
  split at h
  · cases h
  · obtain ⟨hw, hrest⟩ := Prod.mk.inj (Option.some.inj h)
    have ht : t.take n = w ++ (t.take n).dropWhile p := by
      rw [← hw, List.takeWhile_append_dropWhile]
    have hdrop : (t.take n).dropWhile p = rest.take (n - w.length) := by
      rw [hw] at hrest
      have hcut := congrArg (List.drop w.length) ht
      rw [List.drop_left, List.drop_take, hrest] at hcut
      exact hcut.symm
    intro c hc
    refine stops_dropWhile (p := p) (t.take n) c ?_
    rw [hdrop, List.head?_take, if_neg (by omega)]
    exact hc

/-! ## Literals -/

theorem literal_singleton (hc : isSpace c = false) : literal [c] t = some rest ↔ t = c :: rest := by
  cases t with
  | nil => simp [literal, hc]
  | cons d t =>
    by_cases hd : d = c
    · simp [hd, literal, hc]
    · simp [hd, literal, hc]

/-- A literal without space is read off a text that begins with it. -/
theorem literal_append (hfmt : ∀ c ∈ u, isSpace c = false) (t : Text) :
    literal u (u ++ t) = some t := by
  induction u with
  | nil => rfl
  | cons c u ih =>
    obtain ⟨hc, hu⟩ := List.forall_mem_cons.mp hfmt
    simp [literal, hc, ih hu]

/-- A format with spaces in it is read off its own text. -/
theorem literal_self (fmt : Text) (ht : Stops isSpace t) : literal fmt (fmt ++ t) = some t := by
  have hboth : literal fmt (fmt ++ t) = some t ∧
      literal fmt ((fmt ++ t).dropWhile isSpace) = some t := by
    induction fmt with
    | nil =>
      have hdrop : t.dropWhile isSpace = t := dropWhile_append_stops (List.forall_mem_nil _) ht
      exact ⟨rfl, congrArg some hdrop⟩
    | cons c fmt ih =>
      obtain ⟨hread, hdropped⟩ := ih
      rw [List.cons_append]
      cases hc : isSpace c with
      | true =>
        have hspace (s : Text) : literal (c :: fmt) s = literal fmt (s.dropWhile isSpace) := by
          simp [literal, hc]
        have hdrop : (c :: (fmt ++ t)).dropWhile isSpace = (fmt ++ t).dropWhile isSpace :=
          List.dropWhile_cons_of_pos hc
        have hidem : ((fmt ++ t).dropWhile isSpace).dropWhile isSpace =
            (fmt ++ t).dropWhile isSpace :=
          dropWhile_append_stops (List.forall_mem_nil _) (stops_dropWhile (fmt ++ t))
        rw [hspace, hspace, hdrop, hidem]
        exact ⟨hdropped, hdropped⟩
      | false =>
        have hdrop : (c :: (fmt ++ t)).dropWhile isSpace = c :: (fmt ++ t) :=
          List.dropWhile_cons_of_neg (by simp [hc])
        rw [hdrop, and_self, literal]
        simpa [hc] using hread
  exact hboth.1

theorem length_literal (h : literal u t = some rest) : rest.length ≤ t.length := by
  induction u generalizing t with
  | nil =>
    obtain rfl := Option.some.inj h
    exact le_rfl
  | cons c u ih =>
    unfold literal at h
    split at h
    · exact (ih h).trans (List.dropWhile_suffix _).length_le
    · split at h
      · cases h
      · split at h
        · exact (ih h).trans (Nat.le_succ _)
        · cases h

theorem length_scanset (h : scanset n p t = some (w, rest)) : rest.length < t.length := by
  obtain ⟨rfl, hw, -, -⟩ := scanset_eq_some h
  have hpos := List.length_pos_iff.mpr hw
  rw [List.length_append]
  omega

/-! ## Numbers -/

theorem isDigit_not_sign (hc : IsDigit c) : c ≠ ch '-' ∧ c ≠ ch '+' := by
  constructor
  · rintro rfl
    exact absurd hc (by decide)
  · rintro rfl
    exact absurd hc (by decide)

theorem isDigit_not_space (hc : IsDigit c) : isSpace c = false := by
  have hlt : (13 : Byte) < c := UInt8.lt_of_lt_of_le (by decide : (13 : Byte) < 48) hc.1
  have hne : c ≠ 32 := by
    rintro rfl
    exact absurd hc (by decide)
  simp [isSpace, hne, hlt]

/-- Space, a sign and digits are read as a number. -/
theorem unsigned_append (hsp : ∀ c ∈ sp, isSpace c) (hsign : Sign sign) (hds : ds ≠ [])
    (hdigit : ∀ c ∈ ds, IsDigit c) (hrest : Stops (fun c => decide (IsDigit c)) rest) :
    unsigned (sp ++ (sign ++ (ds ++ rest))) = some (signed sign ds, rest) := by
  obtain ⟨d, ds', rfl⟩ := List.exists_cons_of_ne_nil hds
  have hd := hdigit d List.mem_cons_self
  have hstop : Stops isSpace (sign ++ (d :: ds' ++ rest)) := by
    rcases hsign with rfl | rfl | rfl
    · exact stops_cons (isDigit_not_space hd)
    · exact stops_cons (by decide)
    · exact stops_cons (by decide)
  have htake : (d :: ds' ++ rest).takeWhile (fun c => decide (IsDigit c)) = d :: ds' :=
    takeWhile_append_stops (by simpa using hdigit) hrest
  have hdrop : (d :: ds' ++ rest).drop (d :: ds').length = rest := List.drop_left
  unfold unsigned
  rw [dropWhile_append_stops hsp hstop]
  dsimp only
  rcases hsign with rfl | rfl | rfl
  · obtain ⟨hminus, hplus⟩ := isDigit_not_sign hd
    have hhead : ([] ++ (d :: ds' ++ rest)).head? = some d := rfl
    rw [hhead, List.nil_append]
    simp only [Option.some.injEq, hminus, hplus, or_self, if_false, htake, hdrop, signed,
      reduceCtorEq]
    split <;> rfl
  · have hhead : ([ch '-'] ++ (d :: ds' ++ rest)).head? = some (ch '-') := rfl
    have htail : ([ch '-'] ++ (d :: ds' ++ rest)).tail = d :: ds' ++ rest := rfl
    rw [hhead, htail]
    simp only [true_or, if_true, htake, hdrop, signed, reduceCtorEq, if_false]
    split <;> rfl
  · have hhead : ([ch '+'] ++ (d :: ds' ++ rest)).head? = some (ch '+') := rfl
    have htail : ([ch '+'] ++ (d :: ds' ++ rest)).tail = d :: ds' ++ rest := rfl
    have hne : ch '+' ≠ ch '-' := by decide
    rw [hhead, htail]
    simp only [Option.some.injEq, or_true, if_true, htake, hdrop, signed, reduceCtorEq, hne,
      if_false, List.cons.injEq, and_true]
    split <;> rfl

/-- A number is read as it was printed. -/
theorem unsigned_decimal (v : UInt64) (hsp : ∀ c ∈ sp, isSpace c)
    (hrest : Stops (fun c => decide (IsDigit c)) rest) :
    unsigned (sp ++ (decimal v.toNat ++ rest)) = some (v, rest) := by
  have hread := unsigned_append hsp (Or.inl rfl : Sign []) (decimal_ne_nil v.toNat)
    (isDigit_decimal v.toNat) hrest
  have hlt := v.toNat_lt
  rw [List.nil_append, signed, value_decimal, if_neg (by omega), if_neg (by simp),
    UInt64.ofNat_toNat] at hread
  exact hread

/-- Without a digit after space and sign nothing is read. -/
theorem unsigned_of_no_digit (hsp : ∀ c ∈ sp, isSpace c) (hspace : Stops isSpace (sign ++ u))
    (hsign : Sign sign) (hminus : sign = [] → u.head? ≠ some (ch '-') ∧ u.head? ≠ some (ch '+'))
    (hu : u.takeWhile (fun c => decide (IsDigit c)) = []) :
    unsigned (sp ++ (sign ++ u)) = none := by
  unfold unsigned
  rw [dropWhile_append_stops hsp hspace]
  dsimp only
  rcases hsign with rfl | rfl | rfl
  · obtain ⟨hm, hp⟩ := hminus rfl
    rw [List.nil_append]
    simp only [hm, hp, or_self, if_false, hu, if_true]
  · have hhead : ([ch '-'] ++ u).head? = some (ch '-') := rfl
    have htail : ([ch '-'] ++ u).tail = u := rfl
    rw [hhead, htail]
    simp only [true_or, if_true, hu]
  · have hhead : ([ch '+'] ++ u).head? = some (ch '+') := rfl
    have htail : ([ch '+'] ++ u).tail = u := rfl
    rw [hhead, htail]
    simp only [or_true, if_true, hu]

theorem exists_sign (t : Text) : ∃ sign u, t = sign ++ u ∧ Sign sign ∧
    (sign = [] → u.head? ≠ some (ch '-') ∧ u.head? ≠ some (ch '+')) := by
  by_cases hminus : t.head? = some (ch '-')
  · exact ⟨[ch '-'], _, List.eq_cons_of_mem_head? hminus, Or.inr (Or.inl rfl), by simp⟩
  · by_cases hplus : t.head? = some (ch '+')
    · exact ⟨[ch '+'], _, List.eq_cons_of_mem_head? hplus, Or.inr (Or.inr rfl), by simp⟩
    · exact ⟨[], t, rfl, Or.inl rfl, fun _ => ⟨hminus, hplus⟩⟩

/-- A number that is read is made of space, a sign and digits. -/
theorem unsigned_eq_some {v : UInt64} (h : unsigned t = some (v, rest)) :
    ∃ sp sign ds, t = sp ++ (sign ++ (ds ++ rest)) ∧ (∀ c ∈ sp, isSpace c) ∧ Sign sign ∧
      ds ≠ [] ∧ (∀ c ∈ ds, IsDigit c) ∧ Stops (fun c => decide (IsDigit c)) rest ∧
      v = signed sign ds := by
  -- the space, the sign and the digits are cut off one after the other
  have hsp : ∀ c ∈ t.takeWhile isSpace, isSpace c := fun c hc => List.mem_takeWhile_imp hc
  have hstop : Stops isSpace (t.dropWhile isSpace) := stops_dropWhile t
  have ht : t = t.takeWhile isSpace ++ t.dropWhile isSpace :=
    List.takeWhile_append_dropWhile.symm
  generalize t.takeWhile isSpace = sp at hsp ht
  generalize t.dropWhile isSpace = t' at hstop ht
  obtain ⟨sign, u, rfl, hsign, hnone⟩ := exists_sign t'
  have hu : u = u.takeWhile (fun c => decide (IsDigit c)) ++
      u.dropWhile (fun c => decide (IsDigit c)) := List.takeWhile_append_dropWhile.symm
  by_cases hds : u.takeWhile (fun c => decide (IsDigit c)) = []
  · rw [ht, unsigned_of_no_digit hsp hstop hsign hnone hds] at h
    cases h
  · have hdigit : ∀ c ∈ u.takeWhile (fun c => decide (IsDigit c)), IsDigit c := by
      intro c hc
      simpa using List.mem_takeWhile_imp hc
    have hread := unsigned_append hsp hsign hds hdigit
      (stops_dropWhile (p := fun c => decide (IsDigit c)) u)
    rw [← hu, ← ht, h] at hread
    obtain ⟨rfl, rfl⟩ := Prod.mk.inj (Option.some.inj hread)
    exact ⟨sp, sign, _, by rw [← hu]; exact ht, hsp, hsign, hds, hdigit, stops_dropWhile u, rfl⟩

theorem length_unsigned {v : UInt64} (h : unsigned t = some (v, rest)) :
    rest.length < t.length := by
  obtain ⟨sp, sign, ds, rfl, -, -, hds, -, -, -⟩ := unsigned_eq_some h
  have hpos := List.length_pos_iff.mpr hds
  simp only [List.length_append]
  omega

end Scan
