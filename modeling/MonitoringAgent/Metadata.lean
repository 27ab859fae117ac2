import MonitoringAgent.Lib.Directive
import MonitoringAgent.Message.Report
import MonitoringAgent.Plugin.Identifier

/-!
# Metadata

`meta_init`: what a start of the agent takes from the machine, and the identifier that it
keeps in `.aid` from one start to the next.
-/
namespace MonitoringAgent

open Buffer Decimal Format Json Packet Scan Transition

/-- A text in an array of `n` bytes. -/
abbrev ArrayText (n : Nat) := { t : Text // t.length < n }

inductive MetaFault where
  /-- A function returns -1. -/
  | failed
  /-- A store behind the end of an array. -/
  | outside
  deriving DecidableEq

/-- What a start of the agent meets. -/
structure Machine where
  /-- The output of the command on `os-release`, if `popen` works. -/
  osRelease : Option Text
  /-- `gethostname` with room for 99 bytes. -/
  hostname : Option (ArrayText 99)
  /-- `inet_ntoa` of the address of the host. -/
  address : Option Text
  clock : TidClock
  /-- Whether `.aid` can be opened for writing. -/
  aidWritable : Bool
  /-- The content of `license`. -/
  license : Option Text
  pidWritable : Bool

def bounded (n : Nat) (t : Text) : Except MetaFault (ArrayText n) :=
  if h : t.length < n then .ok ⟨t, h⟩ else .error .outside

def orFail {α : Type} : Option α → Except MetaFault α
  | some a => .ok a
  | none => .error .failed

def getOs (pipe : Option Text) : Except MetaFault (ArrayText 50) := do
  let t ← orFail pipe
  let (os, _) ← orFail (scanset 50 (· ≠ ch '\n') t)
  bounded 50 os

def getIp (address : Option Text) : Except MetaFault (ArrayText 17) := do
  let addr ← orFail address
  bounded 17 (addr.take 16)

def getType : Except MetaFault (ArrayText 20) := bounded 20 ((str "ubuntu_1.0").take 19)

/-- The set of `%[^:]`. -/
def isLabel (c : Byte) : Bool := c ≠ ch ':'

/-- The set of `%*[:^\t^ ]`. -/
def isSeparator (c : Byte) : Bool := c = ch ':' || c = ch '^' || c = ch '\t' || c = ch ' '

/-- `fscanf(license_fd, "%[^:]:%*[:^\t^ ]%s", tmp, license)`: what goes to `tmp` and to
`license`. -/
def scanLicense (t : Text) : Option Text × Option Text :=
  match scanset t.length isLabel t with
  | none => (none, none)
  | some (tmp, t) =>
    (some tmp, do
      let t ← literal (str ":") t
      let (_, t) ← scanset t.length isSeparator t
      word t)

def getLicense (file : Option Text) : Except MetaFault (ArrayText 99) := do
  let t ← orFail file
  let (tmp, license) := scanLicense t
  let _ ← bounded 1000 (tmp.getD [])
  bounded 99 (← orFail license)

def getPid (writable : Bool) : Except MetaFault Unit := if writable then .ok () else .error .failed

/-- `fscanf(aid_fd, "%llu", &aid) == 1`. -/
def foundAid (file : Option Text) : Option UInt64 :=
  file.bind fun t => (unsigned t).map Prod.fst

/-- What is known before `get_aid`. -/
structure Names where
  os : ArrayText 50
  host : ArrayText 99
  aip : ArrayText 17
  type : ArrayText 20

def Machine.names (x : Machine) : Except MetaFault Names := do
  let os ← getOs x.osRelease
  let host ← orFail x.hostname
  let aip ← getIp x.address
  let type ← getType
  return ⟨os, host, aip, type⟩

/-- `get_license` and `get_pid`. -/
def Machine.finish (x : Machine) (names : Names) (aid : UInt64) : Except MetaFault Meta := do
  let license ← getLicense x.license
  getPid x.pidWritable
  return {
    license := license.1
    aid := aid
    type := names.type.1
    os := names.os.1
    host := names.host.1
    aip := names.aip.1
    license_lt := license.2
    type_lt := names.type.2
    os_lt := names.os.2
    host_lt := names.host.2
    aip_lt := names.aip.2 }

/-- How `meta_init` ends, and the file `.aid` behind it. -/
def metaInit (x : Machine) (file : Option Text) : Except MetaFault Meta × Option Text :=
  match x.names with
  | .error e => (.error e, file)
  | .ok names =>
    let r := getAid (foundAid file) x.aidWritable x.clock
    (if r.2.2 then x.finish names r.1 else .error .failed, r.2.1.orElse fun _ => file)

/-- The file `.aid`, and the metadata of the starts that went well, the last one first. -/
structure Starts where
  aidFile : Option Text
  metas : List Meta

def agentStart (s : Starts) (x : Machine) : Starts where
  aidFile := (metaInit x s.aidFile).2
  metas := (metaInit x s.aidFile).1.toOption.toList ++ s.metas

theorem host_lt : (str "h").length < 99 := by decide

/-- A machine that has all that is asked of it, at the millisecond `t`. -/
def Machine.sample (t : Epoch) : Machine where
  osRelease := some (str "Ubuntu\n")
  hostname := some ⟨str "h", host_lt⟩
  address := some (str "10.0.0.1")
  clock := .still t
  aidWritable := true
  license := some (str "license: L\n")
  pidWritable := true

variable {x : Machine} {file : Option Text} {m : Meta} {names : Names} {aid : UInt64}
  {t tmp w : Text} {n : Nat}

/-! ## The identifier -/

theorem finish_aid (h : x.finish names aid = .ok m) : m.aid = aid := by
  unfold Machine.finish at h
  cases hlicense : getLicense x.license with
  | error e =>
    rw [hlicense] at h
    cases h
  | ok license =>
    rw [hlicense] at h
    cases hpid : getPid x.pidWritable with
    | error e =>
      rw [hpid] at h
      cases h
    | ok u =>
      rw [hpid] at h
      obtain rfl := Except.ok.inj h
      rfl

/-- What `get_aid` writes is what it finds in the next start. -/
theorem foundAid_written (aid : UInt64) :
    foundAid (some (decimal aid.toNat ++ str "\n")) = some aid := by
  have hread : unsigned ([] ++ (decimal aid.toNat ++ str "\n")) = some (aid, str "\n") :=
    unsigned_decimal aid (List.forall_mem_nil _) (stops_cons (by decide))
  rw [List.nil_append] at hread
  rw [foundAid, Option.bind_some, hread]
  rfl

/-- A start that goes well leaves its identifier in the file. -/
theorem metaInit_aid (h : (metaInit x file).1 = .ok m) :
    foundAid (metaInit x file).2 = some m.aid := by
  unfold metaInit at h ⊢
  cases hnames : x.names with
  | error e =>
    rw [hnames] at h
    cases h
  | ok names =>
    rw [hnames] at h
    dsimp only at h ⊢
    cases hfound : foundAid file with
    | some v =>
      rw [hfound] at h
      obtain rfl := finish_aid h
      exact hfound
    | none =>
      rw [hfound] at h
      cases hw : x.aidWritable with
      | true =>
        rw [hw] at h
        obtain haid := finish_aid h
        rw [haid]
        exact foundAid_written x.clock.tid
      | false =>
        rw [hw] at h
        cases h

/-- An identifier that is found stays. -/
theorem metaInit_found (h : foundAid file = some aid) : (metaInit x file).2 = file := by
  unfold metaInit
  cases x.names with
  | error e => rfl
  | ok names => rw [h]; rfl

/-- Every start so far that went well had the identifier that the file has. -/
structure OneAid (first : Option UInt64) (s : Starts) : Prop where
  kept : ∀ v, first = some v → foundAid s.aidFile = some v
  same : ∀ m ∈ s.metas, foundAid s.aidFile = some m.aid

theorem oneAid_step {first : Option UInt64} {s : Starts} (h : OneAid first s) (x : Machine) :
    OneAid first (agentStart s x) where
  kept := by
    intro v hv
    have hfound := h.kept v hv
    change foundAid (metaInit x s.aidFile).2 = some v
    rw [metaInit_found hfound]
    exact hfound
  same := by
    intro m hm
    rcases List.mem_append.mp hm with hnew | hold
    · refine metaInit_aid ?_
      cases hres : (metaInit x s.aidFile).1 with
      | error e =>
        rw [hres] at hnew
        cases hnew
      | ok m' =>
        rw [hres] at hnew
        obtain rfl := List.mem_singleton.mp hnew
        rfl
    · have hfound := h.same m hold
      change foundAid (metaInit x s.aidFile).2 = some m.aid
      rw [metaInit_found hfound]
      exact hfound

example : (run agentStart ⟨none, []⟩ [.sample 5, .sample 9]).metas.map Meta.aid = [125, 125] := by
  decide

/-! ## The license -/

theorem word_eq_some (h : word t = some w) : ∃ sp rest, t = sp ++ (w ++ rest) ∧
    (∀ c ∈ sp, isSpace c) ∧ w ≠ [] ∧ (∀ c ∈ w, isSpace c = false) ∧
    Stops (fun c => ! isSpace c) rest := by
  unfold word at h
  split at h
  · cases h
  · rename_i hne
    have hw := Option.some.inj h
    refine ⟨t.takeWhile isSpace, (t.dropWhile isSpace).dropWhile (! isSpace ·), ?_,
      fun c hc => List.mem_takeWhile_imp hc, fun hnil => hne (hw.trans hnil), ?_,
      stops_dropWhile _⟩
    · rw [← hw, List.takeWhile_append_dropWhile, List.takeWhile_append_dropWhile]
    · intro c hc
      rw [← hw] at hc
      simpa using List.mem_takeWhile_imp hc

theorem word_of_append {sp rest : Text} (hsp : ∀ c ∈ sp, isSpace c) (hw : w ≠ [])
    (hmem : ∀ c ∈ w, isSpace c = false) (hrest : Stops (fun c => ! isSpace c) rest) :
    word (sp ++ (w ++ rest)) = some w := by
  obtain ⟨c, w', rfl⟩ := List.exists_cons_of_ne_nil hw
  have hstop : Stops isSpace (c :: w' ++ rest) := stops_cons (hmem c List.mem_cons_self)
  have htake : (c :: w' ++ rest).takeWhile (! isSpace ·) = c :: w' :=
    takeWhile_append_stops (fun d hd => by simp [hmem d hd]) hrest
  rw [word, dropWhile_append_stops hsp hstop, htake]

/-- A license file: a label, a colon, separators and, behind any space, the license. -/
def Licensed (t label w : Text) : Prop :=
  ∃ sep sp rest, t = label ++ ch ':' :: (sep ++ (sp ++ (w ++ rest))) ∧
    label ≠ [] ∧ (∀ c ∈ label, isLabel c) ∧ sep ≠ [] ∧ (∀ c ∈ sep, isSeparator c) ∧
    Stops isSeparator (sp ++ (w ++ rest)) ∧ (∀ c ∈ sp, isSpace c) ∧
    w ≠ [] ∧ (∀ c ∈ w, isSpace c = false) ∧ Stops (fun c => ! isSpace c) rest

theorem scanLicense_of_licensed (h : Licensed t tmp w) : scanLicense t = (some tmp, some w) := by
  obtain ⟨sep, sp, rest, rfl, hlabel, hlabels, hsep, hseps, hstop, hsp, hw, hspace, hrest⟩ := h
  let u := sep ++ (sp ++ (w ++ rest))
  have hlen : tmp.length ≤ (tmp ++ ch ':' :: u).length := by simp
  have hfirst : scanset (tmp ++ ch ':' :: u).length isLabel (tmp ++ ch ':' :: u) =
      some (tmp, ch ':' :: u) :=
    scanset_append hlabel hlabels hlen (stops_cons (by decide))
  have hcolon : literal (str ":") (ch ':' :: u) = some u :=
    (literal_singleton (by decide)).mpr rfl
  have hsecond : scanset u.length isSeparator u = some (sep, sp ++ (w ++ rest)) :=
    scanset_append hsep hseps (by simp [u]) hstop
  have hword := word_of_append hsp hw hspace hrest
  change scanLicense (tmp ++ ch ':' :: u) = _
  rw [scanLicense, hfirst]
  simp only [hcolon, hsecond, Option.bind_eq_bind, Option.bind_some, hword]

theorem licensed_of_scanLicense (h : scanLicense t = (some tmp, some w)) : Licensed t tmp w := by
  unfold scanLicense at h
  split at h
  · cases h
  · rename_i label t₁ hfirst
    obtain ⟨hlabel, hrest⟩ := Prod.mk.inj h
    obtain rfl := Option.some.inj hlabel
    obtain ⟨t₂, hcolon, hrest⟩ := Option.bind_eq_some_iff.mp hrest
    obtain ⟨⟨sep, t₃⟩, hsecond, hword⟩ := Option.bind_eq_some_iff.mp hrest
    obtain ⟨ht, hlabel, hlabels, -⟩ := scanset_eq_some hfirst
    obtain rfl := (literal_singleton (by decide)).mp hcolon
    obtain ⟨rfl, hsep, hseps, -⟩ := scanset_eq_some hsecond
    obtain ⟨sp, rest, rfl, hsp, hw, hspace, hstop⟩ := word_eq_some hword
    have hpos := List.length_pos_iff.mpr hw
    have hlen : sep.length < (sep ++ (sp ++ (w ++ rest))).length := by
      simp only [List.length_append]
      omega
    exact ⟨sep, sp, rest, ht, hlabel, hlabels, hsep, hseps, stops_of_scanset hsecond hlen, hsp, hw,
      hspace, hstop⟩

theorem bounded_eq_ok {u : ArrayText n} : bounded n t = .ok u ↔ t = u.1 := by
  unfold bounded
  split
  · rename_i h
    constructor
    · intro hok
      obtain rfl := Except.ok.inj hok
      rfl
    · rintro rfl
      rfl
  · rename_i h
    exact ⟨fun hok => absurd hok nofun, fun he => absurd (he ▸ u.2) h⟩

theorem bounded_eq_outside : bounded n t = .error .outside ↔ n ≤ t.length := by
  unfold bounded
  split
  · rename_i h
    exact ⟨fun he => absurd he nofun, fun hn => absurd h (by omega)⟩
  · rename_i h
    exact ⟨fun _ => by omega, fun _ => rfl⟩

theorem scanLicense_label (t : Text) : (scanLicense t).1.getD [] = t.takeWhile isLabel := by
  unfold scanLicense scanset
  rw [List.take_length]
  by_cases hnil : t.takeWhile isLabel = []
  · simp [hnil]
  · simp [hnil]

theorem scanLicense_fst (h : (scanLicense t).2 = some w) :
    scanLicense t = (some (t.takeWhile isLabel), some w) := by
  have hlabel := scanLicense_label t
  obtain ⟨tmp, hfst⟩ : ∃ tmp, (scanLicense t).1 = some tmp := by
    unfold scanLicense at h ⊢
    split at h
    · cases h
    · exact ⟨_, rfl⟩
  rw [hfst] at hlabel
  exact Prod.ext (hfst.trans (congrArg some hlabel)) h

theorem Licensed.label_eq (h : Licensed t tmp w) : t.takeWhile isLabel = tmp := by
  rw [← scanLicense_label, scanLicense_of_licensed h]
  rfl

/-- `get_license` takes a license from the files of its grammar, and from no other; only a
label or a license that is too long makes it store behind its arrays. -/
theorem getLicense_iff (t : Text) :
    (∀ w : ArrayText 99, getLicense (some t) = .ok w ↔
      ∃ label, Licensed t label w.1 ∧ label.length < 1000) ∧
    (getLicense (some t) = .error .outside ↔
      1000 ≤ (t.takeWhile isLabel).length ∨ ∃ label w, Licensed t label w ∧ 99 ≤ w.length) := by
  have hget : getLicense (some t) = (bounded 1000 (t.takeWhile isLabel)).bind fun _ =>
      (orFail (scanLicense t).2).bind (bounded 99) := by
    rw [← scanLicense_label]
    rfl
  rw [hget]
  rcases Nat.lt_or_ge (t.takeWhile isLabel).length 1000 with hlen | hlen
  · have hbounded : bounded 1000 (t.takeWhile isLabel) = .ok ⟨t.takeWhile isLabel, hlen⟩ :=
      bounded_eq_ok.mpr rfl
    rw [hbounded, Except.bind]
    cases hlicense : (scanLicense t).2 with
    | none =>
      have hnone (label w : Text) : ¬ Licensed t label w := fun h => by
        rw [scanLicense_of_licensed h] at hlicense
        cases hlicense
      refine ⟨fun w => ⟨fun h => absurd h nofun, fun h => ?_⟩, ⟨fun h => absurd h nofun, ?_⟩⟩
      · obtain ⟨label, h, -⟩ := h
        exact absurd h (hnone label w.1)
      · rintro (h | ⟨label, w, h, -⟩)
        · omega
        · exact absurd h (hnone label w)
    | some w =>
      have hlicensed := licensed_of_scanLicense (scanLicense_fst hlicense)
      have hunique {label w' : Text} (h : Licensed t label w') : w' = w := by
        rw [scanLicense_of_licensed h] at hlicense
        exact Option.some.inj hlicense
      change (∀ w', bounded 99 w = .ok w' ↔ _) ∧ (bounded 99 w = .error .outside ↔ _)
      refine ⟨fun w' => ?_, ?_⟩
      · rw [bounded_eq_ok]
        constructor
        · rintro rfl
          exact ⟨_, hlicensed, hlen⟩
        · rintro ⟨label, h, -⟩
          exact (hunique h).symm
      · rw [bounded_eq_outside]
        constructor
        · exact fun h => .inr ⟨_, w, hlicensed, h⟩
        · rintro (h | ⟨label, w', h, hw⟩)
          · omega
          · exact hunique h ▸ hw
  · have hbounded : bounded 1000 (t.takeWhile isLabel) = .error .outside :=
      bounded_eq_outside.mpr hlen
    rw [hbounded, Except.bind]
    refine ⟨fun w => ⟨fun h => absurd h nofun, ?_⟩, fun _ => .inl hlen, fun _ => rfl⟩
    rintro ⟨label, h, hlabel⟩
    rw [h.label_eq] at hlen
    omega

/-- A blank must follow the colon. -/
example : getLicense (some (str "license:ABC")) = .error .failed := by decide

example : getLicense (some (str "license: ABC\n")) = .ok ⟨str "ABC", by decide⟩ := by decide

end MonitoringAgent
