import MonitoringAgent.Lib.Directive

/-!
# Loading a MySQL target

`load_mysql_module` takes its one value apart with a single `sscanf`. The value comes from
`sparse`: it is a word of at most 126 characters.
-/
namespace MonitoringAgent

open Buffer Decimal Scan

/-- The fields of `mysql_module_t` that the loader sets. -/
structure MysqlTarget where
  on : Bool
  host : Text
  port : UInt32
  user : Text
  pass : Text
  deriving DecidableEq

/-- The fields of the plugin. `tip` stays NULL for a target on this host. -/
structure MysqlPlugin where
  tip : Option Text
  type : Text
  module : MysqlTarget
  deriving DecidableEq

/-- `sscanf(..., "%128[^/]/%u/%128[^/]/%128[^/]\n", ...)` with all four items stored. A
number is read as an `unsigned long` and cut to an `unsigned int`. -/
def scanTarget (t : Text) : Option MysqlTarget := do
  let (host, t) ← scanset 128 (· ≠ ch '/') t
  let t ← literal [ch '/'] t
  let (port, t) ← unsigned t
  let t ← literal [ch '/'] t
  let (user, t) ← scanset 128 (· ≠ ch '/') t
  let t ← literal [ch '/'] t
  let (pass, _) ← scanset 128 (· ≠ ch '/') t
  return ⟨true, host, port.toUInt32, user, pass⟩

/-- The loader returns 0 with a plugin, or -1. Memory does not run out. -/
def loadMysqlModule : List Text → Option MysqlPlugin
  | [arg] => do
    let m ← scanTarget arg
    return {
      tip := if m.host = str "localhost" ∨ m.host = str "127.0.0.1" then none else some m.host
      type := str "mysql_ubuntu_1.0"
      module := m }
  | _ => none

/-- A field of a target. -/
def Field (t : Text) : Prop := t ≠ [] ∧ ch '/' ∉ t

instance (t : Text) : Decidable (Field t) := inferInstanceAs (Decidable (_ ∧ _))

/-- The argument is `host/port/user/pass`. -/
structure Target (a host : Text) (port : Nat) (user pass : Text) : Prop where
  form : ∃ ds, Spells ds port ∧
    a = host ++ ch '/' :: (ds ++ ch '/' :: (user ++ ch '/' :: pass))
  port : port < 2 ^ 32
  host : Field host
  user : Field user
  pass : Field pass

/-- What the scan takes: the port may have a sign, and anything may follow after one more
slash. -/
structure Scans (a host sign ds user pass rest : Text) : Prop where
  form : a = host ++ ch '/' :: (sign ++ (ds ++ ch '/' :: (user ++ ch '/' :: (pass ++ rest))))
  host : Field host
  sign : Sign sign
  digits : ds ≠ [] ∧ ∀ c ∈ ds, IsDigit c
  user : Field user
  pass : Field pass
  rest : rest = [] ∨ rest.head? = some (ch '/')

/-- The argument is taken although it is no target: it has a fifth field, the port has a
sign, or the port has no room in an `unsigned int`. -/
def Lax (a : Text) : Prop :=
  ∃ host sign ds user pass rest, Scans a host sign ds user pass rest ∧
    (rest ≠ [] ∨ sign ≠ [] ∨ 2 ^ 32 ≤ value ds)

variable {a host sign ds user pass rest t : Text} {port : Nat}

theorem ne_slash (ht : ch '/' ∉ t) : ∀ c ∈ t, decide (c ≠ ch '/') = true := by
  intro c hc
  refine decide_eq_true ?_
  rintro rfl
  exact ht hc

theorem stops_slash : Stops (fun c => decide (c ≠ ch '/')) (ch '/' :: t) :=
  stops_cons (by simp)

theorem not_isDigit_slash : ¬ IsDigit (ch '/') := by decide

/-- What the scan takes, it stores. -/
theorem Scans.scanTarget_eq (hs : Scans a host sign ds user pass rest) (hlen : a.length ≤ 128) :
    scanTarget a = some ⟨true, host, (signed sign ds).toUInt32, user, pass⟩ := by
  obtain ⟨rfl, hhost, hsign, ⟨hds, hdigit⟩, huser, hpass, hrest⟩ := hs
  simp only [List.length_append, List.length_cons] at hlen
  have hstop : Stops (fun c => decide (c ≠ ch '/')) rest := by
    rcases hrest with rfl | hrest
    · exact stops_nil
    · intro c hc
      rw [hrest] at hc
      simp [Option.some.inj hc]
  have hhost' := scanset_append hhost.1 (ne_slash hhost.2) (n := 128) (by omega)
    (stops_slash (t := sign ++ (ds ++ ch '/' :: (user ++ ch '/' :: (pass ++ rest)))))
  have hport' : unsigned ([] ++ (sign ++ (ds ++ ch '/' :: (user ++ ch '/' :: (pass ++ rest))))) =
      some (signed sign ds, ch '/' :: (user ++ ch '/' :: (pass ++ rest))) :=
    unsigned_append (List.forall_mem_nil _) hsign hds hdigit
      (stops_cons (decide_eq_false not_isDigit_slash))
  have huser' := scanset_append huser.1 (ne_slash huser.2) (n := 128) (by omega)
    (stops_slash (t := pass ++ rest))
  have hpass' := scanset_append hpass.1 (ne_slash hpass.2) (n := 128) (by omega) hstop
  have hslash : ∀ t, literal [ch '/'] (ch '/' :: t) = some t :=
    fun t => (literal_singleton (by decide)).mpr rfl
  rw [List.nil_append] at hport'
  simp only [scanTarget, hhost', hport', huser', hpass', hslash, Option.bind_eq_bind,
    Option.bind_some]
  rfl

/-- What the scan stores, it has taken. -/
theorem scans_of_scanTarget {m : MysqlTarget} (hspace : ∀ c ∈ a, isSpace c = false)
    (hlen : a.length < 128) (hm : scanTarget a = some m) :
    ∃ sign ds rest, Scans a m.host sign ds m.user m.pass rest := by
  unfold scanTarget at hm
  simp only [Option.bind_eq_bind, Option.bind_eq_some_iff] at hm
  obtain ⟨⟨host, t₁⟩, hhost, t₂, hslash₁, ⟨port, t₃⟩, hport, t₄, hslash₂, ⟨user, t₅⟩, huser,
    t₆, hslash₃, ⟨pass, t₇⟩, hpass, hm⟩ := hm
  obtain rfl := Option.some.inj hm
  have hfield : ∀ {t w rest}, scanset 128 (fun c => decide (c ≠ ch '/')) t = some (w, rest) →
      t = w ++ rest ∧ Field w := by
    intro t w rest hw
    obtain ⟨ht, hne, hmem, -⟩ := scanset_eq_some hw
    refine ⟨ht, hne, ?_⟩
    intro hc
    simpa using hmem _ hc
  obtain ⟨rfl, hhost'⟩ := hfield hhost
  obtain rfl := (literal_singleton (by decide)).mp hslash₁
  obtain ⟨sp, sign, ds, rfl, hsp, hsign, hds, hdigit, -, -⟩ := unsigned_eq_some hport
  obtain rfl := (literal_singleton (by decide)).mp hslash₂
  obtain ⟨rfl, huser'⟩ := hfield huser
  obtain rfl := (literal_singleton (by decide)).mp hslash₃
  obtain ⟨rfl, hpass'⟩ := hfield hpass
  have hnone : sp = [] := by
    cases sp with
    | nil => rfl
    | cons c sp =>
      have hyes := hsp c List.mem_cons_self
      have hno := hspace c (by simp)
      rw [hyes] at hno
      cases hno
  subst hnone
  refine ⟨sign, ds, t₇, rfl, hhost', hsign, ⟨hds, hdigit⟩, huser', hpass', ?_⟩
  have hstop := stops_of_scanset hpass (by
    simp only [List.length_append, List.length_cons] at hlen
    omega)
  cases t₇ with
  | nil => exact Or.inl rfl
  | cons c t =>
    right
    have hc := hstop c rfl
    simpa using hc

theorem isDigit_ne_slash (hdigit : ∀ c ∈ ds, IsDigit c) : ch '/' ∉ ds := by
  intro hmem
  exact not_isDigit_slash (hdigit _ hmem)

theorem slash_notMem_sign (hsign : Sign sign) : ch '/' ∉ sign := by
  rcases hsign with rfl | rfl | rfl <;> decide

theorem Target.scans (ht : Target a host port user pass) :
    ∃ ds, Spells ds port ∧ Scans a host [] ds user pass [] := by
  obtain ⟨ds, hds, hform⟩ := ht.form
  exact ⟨ds, hds, by simpa using hform, ht.host, Or.inl rfl, ⟨hds.1, hds.2.1⟩, ht.user, ht.pass,
    Or.inl rfl⟩

/-- An argument is taken apart in one way. -/
theorem Scans.strict (hs : Scans a host sign ds user pass rest) (hlen : a.length ≤ 128)
    {host' user' pass' : Text} (ht : Target a host' port user' pass') :
    rest = [] ∧ sign = [] ∧ value ds < 2 ^ 32 := by
  obtain ⟨ds', hspells, hs'⟩ := ht.scans
  have hsame := (hs.scanTarget_eq hlen).symm.trans (hs'.scanTarget_eq hlen)
  obtain ⟨-, rfl, -, rfl, rfl⟩ := MysqlTarget.mk.inj (Option.some.inj hsame)
  have hform := hs.form.symm.trans hs'.form
  have htail := (List.cons.inj (List.append_cancel_left hform)).2
  rw [List.nil_append, ← List.append_assoc] at htail
  have hslash : ch '/' ∉ sign ++ ds :=
    List.not_mem_append (slash_notMem_sign hs.sign) (isDigit_ne_slash hs.digits.2)
  have hds : sign ++ ds = ds' := by
    have hcut := congrArg (List.takeWhile fun c => decide (c ≠ ch '/')) htail
    rwa [takeWhile_append_stops (ne_slash hslash) stops_slash,
      takeWhile_append_stops (ne_slash (isDigit_ne_slash hs'.digits.2)) stops_slash] at hcut
  rw [hds] at htail
  have hrest := (List.cons.inj (List.append_cancel_left htail)).2
  have hend := List.append_cancel_left (List.cons.inj (List.append_cancel_left hrest)).2
  have hnosign : sign = [] := by
    rcases hs.sign with rfl | rfl | rfl
    · rfl
    · exact absurd (hs'.digits.2 (ch '-') (by rw [← hds]; simp)) (by decide)
    · exact absurd (hs'.digits.2 (ch '+') (by rw [← hds]; simp)) (by decide)
  subst hnosign
  obtain rfl : ds = ds' := hds
  refine ⟨hend, rfl, ?_⟩
  rw [hspells.2.2]
  exact ht.port

theorem Scans.target (hs : Scans a host [] ds user pass []) (hport : value ds < 2 ^ 32) :
    Target a host (signed [] ds).toUInt32.toNat user pass := by
  have hvalue : (signed [] ds).toUInt32.toNat = value ds := by
    rw [signed, if_neg (by omega), if_neg (by simp)]
    simp only [UInt64.toNat_toUInt32, UInt64.toNat_ofNat']
    omega
  rw [hvalue]
  exact ⟨⟨ds, ⟨hs.digits.1, hs.digits.2, rfl⟩, by simpa using hs.form⟩, hport, hs.host, hs.user,
    hs.pass⟩

/-- A target is loaded as it is written, and nothing else is, exactly where the scan takes
no argument with a sign, with a port too large or with a fifth field. -/
theorem loadMysqlModule_exact (a : Text) (hspace : ∀ c ∈ a, isSpace c = false)
    (hlen : a.length ≤ 126) :
    (((loadMysqlModule [a]).isSome ↔ ∃ host port user pass, Target a host port user pass) ∧
      ∀ p, loadMysqlModule [a] = some p →
        Target a p.module.host p.module.port.toNat p.module.user p.module.pass) ↔ ¬ Lax a := by
  have hlen : a.length < 128 := by omega
  constructor
  · rintro ⟨-, hload⟩ ⟨host, sign, ds, user, pass, rest, hs, hlax⟩
    have hload := hload _ (by rw [loadMysqlModule, hs.scanTarget_eq hlen.le]; rfl)
    obtain ⟨hrest, hsign, hport⟩ := hs.strict hlen.le hload
    rcases hlax with hlax | hlax | hlax
    · exact hlax hrest
    · exact hlax hsign
    · omega
  · intro hlax
    have hload : ∀ p, loadMysqlModule [a] = some p →
        Target a p.module.host p.module.port.toNat p.module.user p.module.pass := by
      intro p hp
      obtain ⟨m, hm, hp⟩ := Option.bind_eq_some_iff.mp hp
      obtain rfl := Option.some.inj hp
      obtain ⟨sign, ds, rest, hs⟩ := scans_of_scanTarget hspace hlen hm
      have hstrict : rest = [] ∧ sign = [] ∧ value ds < 2 ^ 32 := by
        by_contra hno
        refine hlax ⟨_, sign, ds, _, _, rest, hs, ?_⟩
        by_cases hrest : rest = []
        · by_cases hsign : sign = []
          · exact Or.inr (Or.inr (not_lt.mp fun hport => hno ⟨hrest, hsign, hport⟩))
          · exact Or.inr (Or.inl hsign)
        · exact Or.inl hrest
      obtain ⟨rfl, rfl, hport⟩ := hstrict
      have hstored := hs.scanTarget_eq hlen.le
      rw [hm] at hstored
      have hm := Option.some.inj hstored
      dsimp only
      rw [hm]
      exact hs.target hport
    refine ⟨⟨?_, ?_⟩, hload⟩
    · intro hsome
      obtain ⟨p, hp⟩ := Option.isSome_iff_exists.mp hsome
      exact ⟨_, _, _, _, hload p hp⟩
    · rintro ⟨host, port, user, pass, ht⟩
      obtain ⟨ds, -, hs⟩ := ht.scans
      rw [loadMysqlModule, hs.scanTarget_eq hlen.le]
      rfl

/-- The entry of the configuration that comes with the agent. -/
theorem loadMysqlModule_exact_sample :
    (loadMysqlModule [str "localhost/3306/root/snyo"]).isSome ∧
      ∀ p, loadMysqlModule [str "localhost/3306/root/snyo"] = some p →
        Target (str "localhost/3306/root/snyo") p.module.host p.module.port.toNat p.module.user
          p.module.pass := by
  have hstrict : ¬ Lax (str "localhost/3306/root/snyo") := by
    rintro ⟨host, sign, ds, user, pass, rest, hs, hlax⟩
    have ht : Target (str "localhost/3306/root/snyo") (str "localhost") 3306 (str "root")
        (str "snyo") := ⟨⟨str "3306", by decide, by decide⟩, by decide, by decide, by decide,
          by decide⟩
    obtain ⟨hrest, hsign, hport⟩ := hs.strict (by decide) ht
    rcases hlax with hlax | hlax | hlax
    · exact hlax hrest
    · exact hlax hsign
    · omega
  exact ⟨by decide, ((loadMysqlModule_exact _ (by decide) (by decide)).mpr hstrict).2⟩

/-- A password with a slash is cut there, and a port too large is replaced by another. -/
theorem loadMysqlModule_alters :
    loadMysqlModule [str "db/3306/root/a/b"] =
        some ⟨some (str "db"), str "mysql_ubuntu_1.0", true, str "db", 3306, str "root", str "a"⟩ ∧
      loadMysqlModule [str "db/4294967297/root/a"] =
        some ⟨some (str "db"), str "mysql_ubuntu_1.0", true, str "db", 1, str "root", str "a"⟩ ∧
      ∀ host port user pass, ¬ Target (str "db/3306/root/a/b") host port user pass := by
  refine ⟨by decide, by decide, ?_⟩
  intro host port user pass ht
  have hs : Scans (str "db/3306/root/a/b") (str "db") [] (str "3306") (str "root") (str "a")
      (str "/b") := ⟨by decide, by decide, by decide, by decide, by decide, by decide, by decide⟩
  have hrest := (hs.strict (by decide) ht).1
  exact absurd hrest (by decide)

end MonitoringAgent
