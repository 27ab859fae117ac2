import MonitoringAgent.Plugin.Phases
import Mathlib.Data.List.FinRange
import Mathlib.Data.List.TakeWhile

/-!
# The files under `res/`

`plugin_regr` writes one file for each registered plugin, named by its tid; the scan at
the start of `main` reads them back, gives each plugin its tid and removes the file.
-/
namespace MonitoringAgent

open Buffer Decimal Transition Word

/-- The files by their path. -/
abbrev Store := Text → Option Text

/-- What `readdir` says about an entry. -/
structure Dirent where
  ino : Nat
  name : Text

/-- `fread(.., 1, size, fp)`, where `size` is converted to `size_t`: all or nothing. -/
def readBytes (size : Int) (t : Text) : Option (Text × Text) :=
  let n := (size % 2 ^ 64).toNat
  if n ≤ t.length then some (t.take n, t.drop n) else none

/-- The content of a file as the scan reads it. -/
structure Saved where
  type : Text
  size : Int
  module : Text
  deriving DecidableEq

def readSaved (content : Text) : Option Saved := do
  let (size, rest) ← readInt32 content
  let (type, rest) ← readBytes size rest
  let (size, rest) ← readInt32 rest
  let (module, _) ← readBytes size rest
  return ⟨type, size, module⟩

/-- `!strcmp(p->type, type) && !p->cmp(module, p->module, size)`. -/
def Plugin.matches (p : Plugin) (cmp : Text → Text → Int → Bool) (sv : Saved) : Bool :=
  cstr p.type = cstr sv.type && cmp sv.module p.module sv.size

variable {n : Nat}

/-- The loop over the plugins: the first one that matches gets the tid of the name. -/
def assignTid (cmp : Fin n → Text → Text → Int → Bool) (ps : Fin n → Plugin) (name : Text)
    (sv : Saved) : Fin n → Plugin :=
  match (List.finRange n).find? fun i => (ps i).matches (cmp i) sv with
  | some i => Function.update ps i { ps i with tid := UInt64.ofNat (readDecimal name) }
  | none => ps

def entryPath (name : Text) : Text := (str "res/" ++ name).take (bfsz - 1)

/-- One turn of the loop over `res/`. A file that cannot be read stays. -/
def scanEntry (cmp : Fin n → Text → Text → Int → Bool) (s : (Fin n → Plugin) × Store)
    (e : Dirent) : (Fin n → Plugin) × Store :=
  if e.ino = 0 ∨ e.name = str "." ∨ e.name = str ".." then s
  else
    match s.2 (entryPath e.name) with
    | none => s
    | some content =>
      match readSaved content with
      | none => s
      | some sv => (assignTid cmp s.1 e.name sv, Function.update s.2 (entryPath e.name) none)

def scan (cmp : Fin n → Text → Text → Int → Bool) (s : (Fin n → Plugin) × Store)
    (es : List Dirent) : (Fin n → Plugin) × Store :=
  run (scanEntry cmp) s es

/-! ## Configurations -/

/-- A configuration whose plugins have different keys. The bytes of a module may change
while the agent runs, and do between two runs (the `on` flag, the connection); `Variant`
says which bytes the module of a plugin can have. -/
structure Config (n : Nat) where
  type : Fin n → Text
  cmp : Fin n → Text → Text → Int → Bool
  Variant : Fin n → Text → Prop
  type_nul : ∀ i, 0 ∉ type i
  type_lt : ∀ i, (type i).length < bfsz
  variant_lt : ∀ i a, Variant i a → a.length < 2 ^ 31
  cmp_self : ∀ i a b, Variant i a → Variant i b → cmp i a b a.length = true
  cmp_other : ∀ i j a b, i ≠ j → type i = type j → Variant i a → Variant j b →
    cmp j a b a.length = false

/-- The plugin `p` is the `i`-th of the configuration. -/
structure Config.Has (cfg : Config n) (i : Fin n) (p : Plugin) : Prop where
  type : p.type = cfg.type i
  variant : cfg.Variant i p.module

def osModuleCmp (_m₁ _m₂ : Text) (_size : Int) : Bool := true

/-- `sizeof(mysql_module_t)`. -/
def mysqlModuleSize : Nat := 408

/-- What `mysql_module_cmp` looks at. -/
structure MysqlKey where
  host : Text
  user : Text
  pass : Text
  port : Text
  deriving DecidableEq

/-- The fields in the bytes of the structure: the flag of one bit takes one byte, then
come three arrays of BFSZ characters, and the port at the next multiple of four. -/
def mysqlKey (m : Text) : MysqlKey where
  host := cstr (m.drop 1)
  user := cstr (m.drop (1 + bfsz))
  pass := cstr (m.drop (1 + 2 * bfsz))
  port := (m.drop 388).take 4

def mysqlModuleCmp (m₁ m₂ : Text) (size : Int) : Bool :=
  size = mysqlModuleSize && mysqlKey m₁ = mysqlKey m₂

/-- The targets the agent can load. -/
inductive TargetKey where
  | os
  | mysql (key : MysqlKey)
  deriving DecidableEq

def TargetKey.type : TargetKey → Text
  | os => str "linux_ubuntu_1.0"
  | mysql _ => str "mysql_ubuntu_1.0"

def TargetKey.cmp : TargetKey → Text → Text → Int → Bool
  | os => osModuleCmp
  | mysql _ => mysqlModuleCmp

def TargetKey.Variant : TargetKey → Text → Prop
  | os, a => a = []
  | mysql key, a => a.length = mysqlModuleSize ∧ mysqlKey a = key

theorem os_type_ne_mysql : str "linux_ubuntu_1.0" ≠ str "mysql_ubuntu_1.0" := by decide

/-- Every list of different targets is a configuration. -/
def agentConfig (keys : Fin n → TargetKey) (hkeys : Function.Injective keys) : Config n where
  type i := (keys i).type
  cmp i := (keys i).cmp
  Variant i := (keys i).Variant
  type_nul i := by
    cases keys i with
    | os => decide
    | mysql key => change _ ∉ str "mysql_ubuntu_1.0"; decide
  type_lt i := by
    cases keys i with
    | os => decide
    | mysql key => change (str "mysql_ubuntu_1.0").length < _; decide
  variant_lt i a h := by
    cases hk : keys i with
    | os =>
      rw [hk] at h
      obtain rfl : a = [] := h
      decide
    | mysql key =>
      rw [hk] at h
      rw [h.1]
      decide
  cmp_self i a b ha hb := by
    cases hk : keys i with
    | os => rfl
    | mysql key =>
      rw [hk] at ha hb
      simp [TargetKey.cmp, mysqlModuleCmp, ha.1, ha.2, hb.2]
  cmp_other i j a b hij htype ha hb := by
    cases hi : keys i <;> cases hj : keys j <;> rw [hi, hj] at htype
    · exact absurd (hkeys (hi.trans hj.symm)) hij
    · exact absurd htype os_type_ne_mysql
    · exact absurd htype.symm os_type_ne_mysql
    · next key key' =>
      rw [hi] at ha
      rw [hj] at hb
      have hne : key ≠ key' := by
        rintro rfl
        exact hij (hkeys (hi.trans hj.symm))
      simp [TargetKey.cmp, mysqlModuleCmp, ha.2, hb.2, hne]

/-! ## Reading a file back -/

variable {cfg : Config n} {ps old : Fin n → Plugin} {T : Fin n → Option UInt64} {store : Store}
  {i j : Fin n} {p : Plugin} {t : UInt64} {es : List Dirent}

theorem readBytes_append (a rest : Text) (h : a.length < 2 ^ 31) :
    readBytes a.length (a ++ rest) = some (a, rest) := by
  have hlen : ((a.length : Int) % 2 ^ 64).toNat = a.length := by omega
  rw [readBytes, hlen]
  simp

/-- The four reads of a file, one after the other. -/
theorem readSaved_of_reads {content rest₁ rest₂ rest₃ rest₄ type module : Text} {size size' : Int}
    (h₁ : readInt32 content = some (size, rest₁))
    (h₂ : readBytes size rest₁ = some (type, rest₂))
    (h₃ : readInt32 rest₂ = some (size', rest₃))
    (h₄ : readBytes size' rest₃ = some (module, rest₄)) :
    readSaved content = some ⟨type, size', module⟩ := by
  simp [readSaved, h₁, h₂, h₃, h₄]

/-- Decoding undoes encoding. -/
theorem readSaved_saveContent (p : Plugin) (htype : p.type.length < 2 ^ 31)
    (hmodule : p.module.length < 2 ^ 31) :
    readSaved (saveContent p) = some ⟨p.type, p.module.length, p.module⟩ := by
  have hlast := readBytes_append p.module [] hmodule
  rw [List.append_nil] at hlast
  rw [saveContent, List.append_assoc, List.append_assoc]
  exact readSaved_of_reads (readInt32_le32 htype _) (readBytes_append _ _ htype)
    (readInt32_le32 hmodule _) hlast

theorem Config.Has.readSaved (h : cfg.Has i p) :
    readSaved (saveContent p) = some ⟨p.type, p.module.length, p.module⟩ := by
  have htype := cfg.type_lt i
  rw [← h.type] at htype
  refine readSaved_saveContent p ?_ (cfg.variant_lt i p.module h.variant)
  exact lt_trans htype (by decide)

/-- Among the plugins of a configuration only the one a file was written for matches. -/
theorem matches_iff (hold : cfg.Has i p) (hps : cfg.Has j (ps j)) :
    (ps j).matches (cfg.cmp j) ⟨p.type, p.module.length, p.module⟩ = true ↔ i = j := by
  have hi := cfg.type_nul i
  have hj := cfg.type_nul j
  simp only [Plugin.matches, hold.type, hps.type, cstr_of_nul hi, cstr_of_nul hj, Bool.and_eq_true,
    decide_eq_true_eq]
  constructor
  · rintro ⟨htype, hcmp⟩
    by_contra hne
    have hother := cfg.cmp_other i j _ _ hne htype.symm hold.variant hps.variant
    rw [hother] at hcmp
    cases hcmp
  · rintro rfl
    exact ⟨rfl, cfg.cmp_self i _ _ hold.variant hps.variant⟩

theorem assignTid_saved (hold : cfg.Has i p) (hps : ∀ j, cfg.Has j (ps j)) (name : Text) :
    assignTid cfg.cmp ps name ⟨p.type, p.module.length, p.module⟩ =
      Function.update ps i { ps i with tid := UInt64.ofNat (readDecimal name) } := by
  have hfind : (List.finRange n).find? (fun j => (ps j).matches (cfg.cmp j)
      ⟨p.type, p.module.length, p.module⟩) = some i := by
    have hmatch := fun j => matches_iff hold (hps j)
    cases hfind : (List.finRange n).find? (fun j => (ps j).matches (cfg.cmp j)
        ⟨p.type, p.module.length, p.module⟩) with
    | none =>
      have hnone := List.find?_eq_none.mp hfind i (List.mem_finRange i)
      exact absurd ((hmatch i).mpr rfl) hnone
    | some j =>
      have hj := List.find?_some hfind
      rw [(hmatch j).mp hj]
  rw [assignTid, hfind]

end MonitoringAgent
