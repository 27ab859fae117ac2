import MonitoringAgent.Registry.Files
import Mathlib.Data.Fin.VecNotation
import Mathlib.Data.Fintype.Basic
import Mathlib.Tactic.FinCases

/-!
# The scan of `res/`

However `readdir` orders the files, each plugin gets back the tid it registered under.
-/
namespace MonitoringAgent

open Buffer Decimal Transition

variable {n : Nat} {cfg : Config n} {ps old : Fin n → Plugin} {T : Fin n → Option UInt64}
  {store : Store} {i j : Fin n} {t : UInt64} {es : List Dirent}

/-- The store holds exactly the files of the plugins `old` that have a tid in `T`. -/
structure Written (old : Fin n → Plugin) (T : Fin n → Option UInt64) (store : Store) : Prop where
  file : ∀ i t, T i = some t → store (saveName t) = some (saveContent (old i))
  only : ∀ path content, store path = some content → ∃ i t, T i = some t ∧ path = saveName t
  distinct : ∀ i j t, T i = some t → T j = some t → i = j

theorem written_none (old : Fin n → Plugin) : Written old (fun _ => none) fun _ => none := by
  constructor
  · rintro _ _ ⟨⟩
  · rintro _ _ ⟨⟩
  · rintro _ _ _ ⟨⟩

/-- An entry the scan looks at. -/
def Dirent.Proper (e : Dirent) : Prop := ¬ (e.ino = 0 ∨ e.name = str "." ∨ e.name = str "..")

instance : DecidablePred Dirent.Proper := fun _ => inferInstanceAs (Decidable (¬ _))

/-- What `readdir` gives: every file of the store exactly once, in any order, among entries
the scan does not look at. -/
structure Listing (store : Store) (es : List Dirent) : Prop where
  nodup : es.Pairwise fun e e' => e.Proper → e'.Proper → e.name ≠ e'.name
  file : ∀ e ∈ es, e.Proper → ∃ content, store (str "res/" ++ e.name) = some content
  all : ∀ path content, store path = some content →
    ∃ e ∈ es, e.Proper ∧ path = str "res/" ++ e.name

/-- The same by the tids in `T`. -/
structure Lists (T : Fin n → Option UInt64) (es : List Dirent) : Prop where
  nodup : es.Pairwise fun e e' => e.Proper → e'.Proper → e.name ≠ e'.name
  name : ∀ e ∈ es, e.Proper → ∃ i t, T i = some t ∧ e.name = decimal t.toNat
  all : ∀ i t, T i = some t → ∃ e ∈ es, e.Proper ∧ e.name = decimal t.toNat

/-- The name of a file is not cut. -/
theorem saveName_eq (t : UInt64) : saveName t = str "res/" ++ decimal t.toNat := by
  refine List.take_of_length_le ?_
  have hlen := length_decimal_lt t
  have hres : (str "res/").length = 4 := by decide
  rw [List.length_append]
  unfold bfsz
  omega

theorem saveName_injective {t t' : UInt64} (h : saveName t = saveName t') : t = t' := by
  rw [saveName_eq, saveName_eq, List.append_cancel_left_eq] at h
  exact UInt64.toNat_inj.mp (decimal_injective t.toNat_lt t'.toNat_lt h)

theorem Listing.lists (h : Listing store es) (hw : Written old T store) : Lists T es := by
  refine ⟨h.nodup, ?_, ?_⟩
  · intro e he hproper
    obtain ⟨content, hcontent⟩ := h.file e he hproper
    obtain ⟨i, t, hi, hpath⟩ := hw.only _ content hcontent
    rw [saveName_eq, List.append_cancel_left_eq] at hpath
    exact ⟨i, t, hi, hpath⟩
  · intro i t hi
    obtain ⟨e, he, hproper, hpath⟩ := h.all _ _ (hw.file i t hi)
    rw [saveName_eq, List.append_cancel_left_eq] at hpath
    exact ⟨e, he, hproper, hpath.symm⟩

theorem scanEntry_of_read {cmp : Fin n → Text → Text → Int → Bool} {e : Dirent} {content : Text}
    {sv : Saved} (he : e.Proper) (hfile : store (entryPath e.name) = some content)
    (hread : readSaved content = some sv) :
    scanEntry cmp (ps, store) e =
      (assignTid cmp ps e.name sv, Function.update store (entryPath e.name) none) := by
  rw [scanEntry, if_neg he]
  simp only [hfile, hread]

/-- One file: its plugin gets the tid and the file goes. -/
theorem scanEntry_file {e : Dirent} (hold : ∀ i, cfg.Has i (old i)) (hps : ∀ i, cfg.Has i (ps i))
    (hw : Written old T store) (he : e.Proper) (hi : T i = some t)
    (hname : e.name = decimal t.toNat) :
    scanEntry cfg.cmp (ps, store) e =
      (Function.update ps i { ps i with tid := t }, Function.update store (saveName t) none) := by
  have hpath : entryPath e.name = saveName t := by
    rw [hname]
    rfl
  have hread : UInt64.ofNat (readDecimal e.name) = t := by
    rw [hname, readDecimal_decimal t.toNat_lt, UInt64.ofNat_toNat]
  have hfile := hw.file i t hi
  rw [← hpath] at hfile
  rw [scanEntry_of_read he hfile (hold i).readSaved, assignTid_saved (hold i) hps, hread, hpath]

/-- What is left to read after the file of `i`. -/
theorem Written.erase (hw : Written old T store) (hi : T i = some t) :
    Written old (Function.update T i none) (Function.update store (saveName t) none) := by
  have hsome : ∀ j t', Function.update T i none j = some t' → j ≠ i ∧ T j = some t' := by
    intro j t' hj
    by_cases hji : j = i
    · subst hji
      simp at hj
    · rw [Function.update_of_ne hji] at hj
      exact ⟨hji, hj⟩
  refine ⟨?_, ?_, ?_⟩
  · intro j t' hj
    obtain ⟨hji, hj⟩ := hsome j t' hj
    have hne : saveName t' ≠ saveName t := by
      intro heq
      rw [saveName_injective heq] at hj
      exact hji (hw.distinct j i t hj hi)
    rw [Function.update_of_ne hne]
    exact hw.file j t' hj
  · intro path content hpath
    by_cases hp : path = saveName t
    · subst hp
      simp at hpath
    · rw [Function.update_of_ne hp] at hpath
      obtain ⟨j, t', hj, rfl⟩ := hw.only path content hpath
      refine ⟨j, t', ?_, rfl⟩
      have hji : j ≠ i := by
        rintro rfl
        rw [hi] at hj
        cases hj
        exact hp rfl
      rw [Function.update_of_ne hji]
      exact hj
  · intro j k t' hj hk
    exact hw.distinct j k t' (hsome j t' hj).2 (hsome k t' hk).2

theorem Lists.tail_of_file {e : Dirent} (h : Lists T (e :: es)) (he : e.Proper)
    (hi : T i = some t) (hname : e.name = decimal t.toNat)
    (hdistinct : ∀ j t', T j = some t' → t' = t → j = i) : Lists (Function.update T i none) es := by
  obtain ⟨hhead, htail⟩ := List.pairwise_cons.mp h.nodup
  refine ⟨htail, ?_, ?_⟩
  · intro e' he' hproper
    obtain ⟨j, t', hj, hname'⟩ := h.name e' (List.mem_cons_of_mem _ he') hproper
    have hji : j ≠ i := by
      rintro rfl
      rw [hi] at hj
      cases hj
      exact hhead e' he' he hproper (hname.trans hname'.symm)
    exact ⟨j, t', by rw [Function.update_of_ne hji, hj], hname'⟩
  · intro j t' hj
    by_cases hji : j = i
    · subst hji
      simp at hj
    · rw [Function.update_of_ne hji] at hj
      obtain ⟨e', he', hproper, hname'⟩ := h.all j t' hj
      rcases List.mem_cons.mp he' with rfl | he'
      · have heq := decimal_injective t'.toNat_lt t.toNat_lt (hname'.symm.trans hname)
        exact absurd (hdistinct j t' hj (UInt64.toNat_inj.mp heq)) hji
      · exact ⟨e', he', hproper, hname'⟩

theorem Lists.tail_of_skipped {e : Dirent} (h : Lists T (e :: es)) (he : ¬ e.Proper) :
    Lists T es := by
  obtain ⟨-, htail⟩ := List.pairwise_cons.mp h.nodup
  refine ⟨htail, fun e' he' => h.name e' (List.mem_cons_of_mem _ he'), ?_⟩
  intro j t' hj
  obtain ⟨e', he', hproper, hname'⟩ := h.all j t' hj
  rcases List.mem_cons.mp he' with rfl | he'
  · exact absurd hproper he
  · exact ⟨e', he', hproper, hname'⟩

/-- The whole scan, in whatever order the files are listed. -/
theorem scan_written (hold : ∀ i, cfg.Has i (old i)) (hps : ∀ i, cfg.Has i (ps i))
    (hw : Written old T store) (hes : Listing store es) :
    scan cfg.cmp (ps, store) es =
      (fun i => { ps i with tid := (T i).getD (ps i).tid }, fun _ => none) := by
  replace hes := hes.lists hw
  induction es generalizing ps T store with
  | nil =>
    have hnone : ∀ i, T i = none := by
      intro i
      cases hi : T i with
      | none => rfl
      | some t =>
        obtain ⟨e, he, -⟩ := hes.all i t hi
        cases he
    refine Prod.ext (funext fun i => by simp [scan, hnone]) (funext fun path => ?_)
    cases hpath : store path with
    | none => exact hpath
    | some content =>
      obtain ⟨i, t, hi, -⟩ := hw.only path content hpath
      rw [hnone i] at hi
      cases hi
  | cons e es ih =>
    by_cases he : e.Proper
    · obtain ⟨i, t, hi, hname⟩ := hes.name e List.mem_cons_self he
      have hstep := scanEntry_file hold hps hw he hi hname
      have htail := hes.tail_of_file he hi hname
        fun j t' hj ht => hw.distinct j i t (ht ▸ hj) hi
      have hps' : ∀ j, cfg.Has j (Function.update ps i { ps i with tid := t } j) := by
        intro j
        refine update_holds (P := cfg.Has j) (fun hji => ?_) fun _ => hps j
        subst hji
        exact ⟨(hps j).type, (hps j).variant⟩
      have hrest := ih hps' (hw.erase hi) htail
      rw [scan, run_cons, hstep]
      rw [scan] at hrest
      rw [hrest]
      refine Prod.ext (funext fun j => ?_) rfl
      by_cases hji : j = i
      · subst hji
        simp [hi]
      · simp [hji]
    · have hskip : scanEntry cfg.cmp (ps, store) e = (ps, store) := if_pos (not_not.mp he)
      rw [scan, run_cons, hskip]
      exact ih hps hw (hes.tail_of_skipped he)

/-! ## The files the registrations write -/

/-- `fopen(.., "w+")` and the writes. -/
def Store.apply (store : Store) : Event → Store
  | .saved name content => Function.update store name (some content)
  | .changeTask _ _ | .posted _ _ _ | .gathered _ | .published _ => store

theorem Written.save (hw : Written old T store) (hi : T i = none ∨ T i = some t)
    (hfree : ∀ j, T j = some t → j = i) :
    Written old (Function.update T i (some t))
      (Function.update store (saveName t) (some (saveContent (old i)))) := by
  have hsome : ∀ j t', Function.update T i (some t) j = some t' →
      (j = i ∧ t' = t) ∨ (j ≠ i ∧ t' ≠ t ∧ T j = some t') := by
    intro j t' hj
    by_cases hji : j = i
    · subst hji
      rw [Function.update_self] at hj
      exact Or.inl ⟨rfl, (Option.some.inj hj).symm⟩
    · rw [Function.update_of_ne hji] at hj
      refine Or.inr ⟨hji, ?_, hj⟩
      rintro rfl
      exact hji (hfree j hj)
  refine ⟨?_, ?_, ?_⟩
  · intro j t' hj
    rcases hsome j t' hj with ⟨rfl, rfl⟩ | ⟨-, hne, hj⟩
    · rw [Function.update_self]
    · rw [Function.update_of_ne fun heq => hne (saveName_injective heq)]
      exact hw.file j t' hj
  · intro path content hpath
    by_cases hp : path = saveName t
    · exact ⟨i, t, by rw [Function.update_self], hp⟩
    · rw [Function.update_of_ne hp] at hpath
      obtain ⟨j, t', hj, rfl⟩ := hw.only path content hpath
      have hji : j ≠ i := by
        rintro rfl
        rcases hi with hi | hi
        · rw [hi] at hj
          cases hj
        · rw [hi] at hj
          cases hj
          exact hp rfl
      exact ⟨j, t', by rw [Function.update_of_ne hji, hj], rfl⟩
  · intro j k t' hj hk
    rcases hsome j t' hj with ⟨rfl, rfl⟩ | ⟨hji, hne, hj⟩ <;>
      rcases hsome k t' hk with ⟨rfl, ht⟩ | ⟨hki, hne', hk⟩
    · rfl
    · exact absurd rfl hne'
    · exact absurd ht hne
    · exact hw.distinct j k t' hj hk

/-- The tids of the plugins in `order`. -/
def tidsOf (tid : Fin n → UInt64) (order : List (Fin n)) (i : Fin n) : Option UInt64 :=
  if i ∈ order then some (tid i) else none

/-- What a list of accepted registrations does outside the plugins. -/
def registrations (m : Meta) (old : Fin n → Plugin) (inp : Fin n → TaskInput)
    (order : List (Fin n)) : List Event :=
  order.flatMap fun i => (pluginRegr m (old i) (inp i)).2

theorem written_registrations (m : Meta) (inp : Fin n → TaskInput) (order : List (Fin n))
    (hok : ∀ i ∈ order, (old i).accepted m (inp i) = true)
    (hdistinct : ∀ i ∈ order, ∀ j ∈ order,
      (old i).registerTid (inp i).clock = (old j).registerTid (inp j).clock → i = j) :
    Written old (tidsOf (fun i => (old i).registerTid (inp i).clock) order)
      (run Store.apply (fun _ => none) (registrations m old inp order)) := by
  induction order using List.reverseRecOn with
  | nil => exact ⟨by simp [tidsOf], by simp [registrations], by simp [tidsOf]⟩
  | append_singleton order i ih =>
    have hsub : ∀ j ∈ order, j ∈ order ++ [i] := fun j hj => List.mem_append_left _ hj
    have hi : i ∈ order ++ [i] := by simp
    have hprev := ih (fun j hj => hok j (hsub j hj))
      (fun j hj k hk => hdistinct j (hsub j hj) k (hsub k hk))
    have hstore : run Store.apply (fun _ => none) (registrations m old inp (order ++ [i])) =
        Function.update (run Store.apply (fun _ => none) (registrations m old inp order))
          (saveName ((old i).registerTid (inp i).clock)) (some (saveContent (old i))) := by
      simp only [registrations, List.flatMap_append, run_append, List.flatMap_cons,
        List.flatMap_nil, List.append_nil, pluginRegr_accepted (hok i hi)]
      rfl
    have htids : tidsOf (fun i => (old i).registerTid (inp i).clock) (order ++ [i]) =
        Function.update (tidsOf (fun i => (old i).registerTid (inp i).clock) order) i
          (some ((old i).registerTid (inp i).clock)) := by
      funext j
      by_cases hji : j = i
      · subst hji
        simp [tidsOf]
      · simp [tidsOf, hji]
    rw [hstore, htids]
    refine hprev.save ?_ ?_
    · by_cases hmem : i ∈ order <;> simp [tidsOf, hmem]
    · intro j hj
      by_cases hmem : j ∈ order
      · simp only [tidsOf, hmem, if_true, Option.some.injEq] at hj
        exact hdistinct j (hsub j hmem) i hi hj
      · simp [tidsOf, hmem] at hj

/-- After the plugins in `order` have registered with different tids, the scan of the next
start gives each of them its tid back, in whatever order the files are listed, leaves the
other plugins alone and consumes every file. -/
theorem scan_restores_tids (m : Meta) (cfg : Config n) (old ps : Fin n → Plugin)
    (inp : Fin n → TaskInput) (order : List (Fin n)) (es : List Dirent)
    (hold : ∀ i, cfg.Has i (old i)) (hps : ∀ i, cfg.Has i (ps i))
    (hok : ∀ i ∈ order, (old i).accepted m (inp i) = true)
    (hdistinct : ∀ i ∈ order, ∀ j ∈ order,
      (pluginRegr m (old i) (inp i)).1.tid = (pluginRegr m (old j) (inp j)).1.tid → i = j)
    (hes : Listing (run Store.apply (fun _ => none) (registrations m old inp order)) es) :
    scan cfg.cmp (ps, run Store.apply (fun _ => none) (registrations m old inp order)) es =
      (fun i => { ps i with
        tid := if i ∈ order then (pluginRegr m (old i) (inp i)).1.tid else (ps i).tid },
      fun _ => none) := by
  have htid : ∀ i ∈ order,
      (pluginRegr m (old i) (inp i)).1.tid = (old i).registerTid (inp i).clock := by
    intro i hi
    rw [pluginRegr_accepted (hok i hi)]
  have hw := written_registrations m inp order hok fun i hi j hj heq =>
    hdistinct i hi j hj ((htid i hi).trans (heq.trans (htid j hj).symm))
  rw [scan_written hold hps hw hes]
  refine Prod.ext (funext fun i => ?_) rfl
  by_cases hi : i ∈ order
  · simp [tidsOf, hi, htid i hi]
  · simp [tidsOf, hi]

/-- An os target and a MySQL target. -/
def twoKeys : Fin 2 → TargetKey := ![.os, .mysql (mysqlKey (List.replicate 408 0))]

def twoTargets : Config 2 :=
  agentConfig twoKeys (by
    intro i j h
    fin_cases i <;> fin_cases j <;> first | rfl | cases h)

/-- The two plugins, with the tids they register under. -/
def twoPlugins (a b : UInt64) : Fin 2 → Plugin :=
  ![{ Plugin.sample with tid := a },
    { Plugin.sample with tid := b, type := str "mysql_ubuntu_1.0", module := List.replicate 408 0 }]

theorem twoTargets_has (a b : UInt64) (i : Fin 2) : twoTargets.Has i (twoPlugins a b i) := by
  fin_cases i
  · exact ⟨rfl, rfl⟩
  · exact ⟨rfl, List.length_replicate, rfl⟩

def acceptedInput : TaskInput :=
  ⟨true, ⟨1, 1, 1⟩, ⟨1, 1, 1⟩, ⟨[], true, 200⟩, ⟨1000, 1500, .fresh, .ret .enone⟩⟩

theorem Lists.listing (h : Lists T es) (hw : Written old T store) : Listing store es := by
  refine ⟨h.nodup, ?_, ?_⟩
  · intro e he hproper
    obtain ⟨i, t, hi, hname⟩ := h.name e he hproper
    rw [hname, ← saveName_eq]
    exact ⟨_, hw.file i t hi⟩
  · intro path content hpath
    obtain ⟨i, t, hi, rfl⟩ := hw.only path content hpath
    obtain ⟨e, he, hproper, hname⟩ := h.all i t hi
    exact ⟨e, he, hproper, by rw [hname, saveName_eq]⟩

/-- The two files, with the entries for the directories. -/
def twoEntries : List Dirent :=
  [⟨1, str ".."⟩, ⟨2, decimal 7⟩, ⟨3, decimal 18446744073709551615⟩, ⟨4, str "."⟩]

theorem lists_twoEntries : Lists (n := 2) ![some 18446744073709551615, some 7] twoEntries := by
  refine ⟨by decide +kernel, ?_, ?_⟩
  · intro e he hproper
    simp only [twoEntries, List.mem_cons, List.not_mem_nil, or_false] at he
    rcases he with rfl | rfl | rfl | rfl
    · exact absurd (Or.inr (Or.inr rfl)) hproper
    · exact ⟨1, 7, rfl, rfl⟩
    · exact ⟨0, 18446744073709551615, rfl, rfl⟩
    · exact absurd (Or.inr (Or.inl rfl)) hproper
  · intro i t hi
    fin_cases i
    · obtain rfl : (18446744073709551615 : UInt64) = t := Option.some.inj hi
      exact ⟨⟨3, decimal 18446744073709551615⟩, by simp [twoEntries], by decide +kernel, rfl⟩
    · obtain rfl : (7 : UInt64) = t := Option.some.inj hi
      exact ⟨⟨2, decimal 7⟩, by simp [twoEntries], by decide +kernel, rfl⟩

/-- The largest tid and a short one. -/
theorem scan_restores_two :
    let old := twoPlugins 18446744073709551615 7
    (scan twoTargets.cmp
      (twoPlugins 0 0, run Store.apply (fun _ => none)
        (registrations Meta.sample old (fun _ => acceptedInput) [0, 1])) twoEntries).1 =
      twoPlugins 18446744073709551615 7 := by
  intro old
  have hok : ∀ i ∈ [0, 1], (old i).accepted Meta.sample acceptedInput = true := by decide +kernel
  have htid : ∀ i, (pluginRegr Meta.sample (old i) acceptedInput).1.tid = (old i).tid := by
    decide +kernel
  have hw := written_registrations Meta.sample (fun _ => acceptedInput) [0, 1] hok
    (by decide +kernel)
  have htids : tidsOf (fun i => (old i).registerTid acceptedInput.clock) [0, 1] =
      ![some 18446744073709551615, some 7] := by
    funext i
    fin_cases i <;> rfl
  have hes := lists_twoEntries.listing (htids ▸ hw)
  rw [scan_restores_tids Meta.sample twoTargets old (twoPlugins 0 0) (fun _ => acceptedInput)
    [0, 1] twoEntries (twoTargets_has _ _) (twoTargets_has _ _) hok (by decide +kernel) hes]
  funext i
  have hi : i ∈ ([0, 1] : List (Fin 2)) := by fin_cases i <;> decide
  simp only [hi, if_true, htid]
  fin_cases i <;> rfl

end MonitoringAgent
