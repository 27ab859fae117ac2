import MonitoringAgent.Lib.Scan
import MonitoringAgent.Plugin

/-!
# The parser of `plugin.conf`

`sparse` reads the configuration line by line. Its locals outlive a line and a block:
`argc`, `argv` and `load` keep what an earlier block left there until a later one
overwrites it.
-/
namespace MonitoringAgent

open Buffer Scan

/-- The size of the array that `agent.c` passes. -/
def maxPlugins : Nat := 5

/-- The dynamic linker and the loaders. A loader that returns success leaves a plugin;
it sees `argv[0..argc)`. -/
structure Host (δ σ α : Type) where
  dlopen : Text → Option δ
  dlsym : δ → Text → Option σ
  load : σ → List Text → Option α

inductive SparseStatus where
  | none
  | plug
  | name
  | val
  deriving DecidableEq

/-- The locals of `sparse`. The pairs in `calls` are the calls of loaders so far. -/
structure Sparser (σ α : Type) where
  status : SparseStatus
  first : Byte
  remain : Text
  type : Text
  argc : Nat
  argv : Nat → Text
  load : Option σ
  plugins : List α
  calls : List (σ × List Text)

/-- How `sparse` ends. `wild` is a write outside an array or a call through NULL. -/
inductive Sparsed (σ α : Type) where
  | rejected (calls : List (σ × List Text))
  | parsed (plugins : List α) (calls : List (σ × List Text))
  | wild

/-- The number `sparse` returns. -/
def Sparsed.code {σ α : Type} : Sparsed σ α → Option Int
  | .rejected _ => some (-1)
  | .parsed plugins _ => some plugins.length
  | .wild => none

/-- How one turn of the loop ends. -/
inductive SparseTurn (σ α : Type) where
  | next (s : Sparser σ α) (conf : File)
  | reject
  | wild

variable {δ σ α : Type}

/-- `skip_until`: 2 at the end of the file, 1 for a failed read. -/
def skipUntil (conf : File) (c : Byte) : Nat × File :=
  match _hread : fgets bfsz conf with
  | (none, conf') => (if conf'.eof then 2 else 1, conf')
  | (some line, conf') =>
    if line.head? ≠ some c then skipUntil conf' c
    else (if conf'.eof then 2 else 0, conf')
termination_by conf.rest.length
decreasing_by exact length_fgets _hread

def dlname (type : Text) : Text :=
  (str "/usr/lib/plugins/lib" ++ type ++ str ".so").take (bfsz - 1)

def smname (type : Text) : Text := (str "load_" ++ type ++ str "_module").take (bfsz - 1)

def cmpname (type : Text) : Text := (type ++ str "_module_cmp").take (bfsz - 1)

/-- `sscanf(line, "%c%s", &first, remain)`. -/
def Sparser.scan (s : Sparser σ α) (line : Text) : Sparser σ α :=
  { s with
    first := (cstr line).head?.getD s.first
    remain := (word (cstr line).tail).getD s.remain }

/-- The three conditions on a library, with what they assign to `load`. -/
def Host.resolve (h : Host δ σ α) (s : Sparser σ α) : Bool × Option σ :=
  match h.dlopen (dlname s.type) with
  | none => (false, s.load)
  | some dl =>
    match h.dlsym dl (smname s.type) with
    | none => (false, none)
    | some load => ((h.dlsym dl (cmpname s.type)).isSome, some load)

/-- Both skips of the rest of a block. -/
def Sparser.discard (s : Sparser σ α) (conf : File) : SparseTurn σ α :=
  match skipUntil conf (ch '>') with
  | (1, _) => .reject
  | (_, conf') => .next { s with status := .none } conf'

/-- `case '<'`. -/
def Sparser.opening (h : Host δ σ α) (s : Sparser σ α) (conf : File) : SparseTurn σ α :=
  if s.status ≠ .none then .reject
  else
    let s := { s with argc := 0, status := .plug, type := s.remain.take (bfsz - 1) }
    match h.resolve s with
    | (false, load) => Sparser.discard { s with load := load } conf
    | (true, load) => .next { s with load := load } conf

/-- `snprintf(argv[argc++], ...)`. -/
def Sparser.push (s : Sparser σ α) (conf : File) : SparseTurn σ α :=
  if s.argc < 10 then
    .next { s with
      argv := Function.update s.argv s.argc (s.remain.take (bfsz - 1))
      argc := s.argc + 1
      status := .val } conf
  else .wild

/-- `case '-'`. -/
def Sparser.dash (s : Sparser σ α) (conf : File) : SparseTurn σ α :=
  match s.status with
  | .plug =>
    if str "OFF" <+: s.remain then s.discard conf
    else if ¬ str "ON" <+: s.remain then .reject
    else .next s conf
  | .name => s.push conf
  | .val => s.push conf
  | .none => .reject

/-- `case '!'`. -/
def Sparser.bang (s : Sparser σ α) (conf : File) : SparseTurn σ α :=
  if s.status ≠ .plug then .reject else .next { s with status := .name } conf

/-- `case '>'`. `plugin_init` returns 0: the initialisers it tests return no negative
number. -/
def Sparser.closing (h : Host δ σ α) (s : Sparser σ α) (conf : File) : SparseTurn σ α :=
  if s.status ≠ .val ∧ s.status ≠ .plug then .reject
  else
    match s.load with
    | none => .wild
    | some load =>
      let args := (List.range s.argc).map s.argv
      let s := { s with status := .none, calls := s.calls ++ [(load, args)] }
      match h.load load args with
      | none => .next s conf
      | some p =>
        if s.plugins.length < maxPlugins then
          .next { s with plugins := s.plugins ++ [p] } conf
        else .wild

/-- The body of the loop for a line that `fgets` has read. -/
def Sparser.line (h : Host δ σ α) (s : Sparser σ α) (conf : File) (line : Text) :
    SparseTurn σ α :=
  let s := s.scan line
  if s.first = ch '\n' ∨ s.first = ch '#' then .next s conf
  else if s.first = ch '<' then s.opening h conf
  else if s.first = ch '-' then s.dash conf
  else if s.first = ch '!' then s.bang conf
  else if s.first = ch '>' then s.closing h conf
  else .reject

variable {h : Host δ σ α} {s s' : Sparser σ α} {conf conf' : File} {line : Text}

theorem skipUntil_of_none {c : Byte} (hread : fgets bfsz conf = (none, conf')) :
    skipUntil conf c = (if conf'.eof then 2 else 1, conf') := by
  rw [skipUntil]
  split
  · next heq =>
    rw [heq] at hread
    rw [(Prod.mk.inj hread).2]
  · next heq =>
    rw [heq] at hread
    cases hread

theorem skipUntil_of_some {c : Byte} (hread : fgets bfsz conf = (some line, conf')) :
    skipUntil conf c =
      if line.head? ≠ some c then skipUntil conf' c
      else (if conf'.eof then 2 else 0, conf') := by
  rw [skipUntil]
  split
  · next heq =>
    rw [heq] at hread
    cases hread
  · next heq =>
    rw [heq] at hread
    obtain ⟨hline, rfl⟩ := Prod.mk.inj hread
    rw [Option.some.inj hline]

theorem length_skipUntil (conf : File) (c : Byte) :
    (skipUntil conf c).2.rest.length ≤ conf.rest.length := by
  fun_induction skipUntil conf c with
  | case1 conf conf' hread => simpa [hread] using length_fgets_le bfsz conf
  | case2 conf line conf' hread _ ih => exact ih.trans (length_fgets hread).le
  | case3 conf line conf' hread _ => exact (length_fgets hread).le

/-- What a turn leaves of the file is at most `n` bytes long. -/
def SparseTurn.Within (n : Nat) : SparseTurn σ α → Prop
  | .next _ conf => conf.rest.length ≤ n
  | .reject => True
  | .wild => True

theorem within_discard (s : Sparser σ α) : (s.discard conf).Within conf.rest.length := by
  have hlen := length_skipUntil conf (ch '>')
  unfold Sparser.discard
  split
  · exact trivial
  · next conf' hskip => rwa [hskip] at hlen

theorem within_opening (s : Sparser σ α) : (s.opening h conf).Within conf.rest.length := by
  unfold Sparser.opening
  split
  · exact trivial
  · dsimp only
    split
    · exact within_discard _
    · exact le_rfl

theorem within_push (s : Sparser σ α) : (s.push conf).Within conf.rest.length := by
  unfold Sparser.push
  split
  · exact le_rfl
  · exact trivial

theorem within_dash (s : Sparser σ α) : (s.dash conf).Within conf.rest.length := by
  unfold Sparser.dash
  split
  · split
    · exact within_discard s
    · split
      · exact trivial
      · exact le_rfl
  · exact within_push s
  · exact within_push s
  · exact trivial

theorem within_closing (s : Sparser σ α) : (s.closing h conf).Within conf.rest.length := by
  unfold Sparser.closing
  split
  · exact trivial
  · split
    · exact trivial
    · dsimp only
      split
      · exact le_rfl
      · split
        · exact le_rfl
        · exact trivial

/-- A turn of the loop puts nothing back. -/
theorem within_line (h : Host δ σ α) (s : Sparser σ α) (conf : File) (line : Text) :
    (s.line h conf line).Within conf.rest.length := by
  unfold Sparser.line
  dsimp only
  split
  · exact le_rfl
  split
  · exact within_opening _
  split
  · exact within_dash _
  split
  · unfold Sparser.bang
    split
    · exact trivial
    · exact le_rfl
  split
  · exact within_closing _
  · exact trivial

theorem length_line (hturn : s.line h conf line = .next s' conf') :
    conf'.rest.length ≤ conf.rest.length := by
  have hwithin := within_line h s conf line
  rwa [hturn] at hwithin

/-- The loop and what follows it. -/
def sparseLoop (h : Host δ σ α) (s : Sparser σ α) (conf : File) : Sparsed σ α :=
  match _hread : fgets bfsz conf with
  | (none, _) => .parsed s.plugins s.calls
  | (some line, conf') =>
    match _hturn : s.line h conf' line with
    | .next s' conf'' => sparseLoop h s' conf''
    | .reject => .rejected s.calls
    | .wild => .wild
termination_by conf.rest.length
decreasing_by exact (length_line _hturn).trans_lt (length_fgets _hread)

theorem sparseLoop_of_none (hread : fgets bfsz conf = (none, conf')) :
    sparseLoop h s conf = .parsed s.plugins s.calls := by
  rw [sparseLoop]
  split
  · rfl
  · next heq =>
    rw [heq] at hread
    cases hread

theorem sparseLoop_of_some (hread : fgets bfsz conf = (some line, conf')) :
    sparseLoop h s conf =
      match s.line h conf' line with
      | .next s' conf'' => sparseLoop h s' conf''
      | .reject => .rejected s.calls
      | .wild => .wild := by
  rw [sparseLoop]
  split
  · next heq =>
    rw [heq] at hread
    cases hread
  · next heq =>
    rw [heq] at hread
    obtain ⟨hline, rfl⟩ := Prod.mk.inj hread
    obtain rfl := Option.some.inj hline
    split
    · next heq' => rw [heq']
    · next heq' => rw [heq']
    · next heq' => rw [heq']

theorem sparseLoop_of_next {conf'' : File} (hread : fgets bfsz conf = (some line, conf'))
    (hturn : s.line h conf' line = .next s' conf'') :
    sparseLoop h s conf = sparseLoop h s' conf'' := by
  rw [sparseLoop_of_some hread, hturn]

theorem sparseLoop_of_reject (hread : fgets bfsz conf = (some line, conf'))
    (hturn : s.line h conf' line = .reject) : sparseLoop h s conf = .rejected s.calls := by
  rw [sparseLoop_of_some hread, hturn]

theorem sparseLoop_of_wild (hread : fgets bfsz conf = (some line, conf'))
    (hturn : s.line h conf' line = .wild) : sparseLoop h s conf = .wild := by
  rw [sparseLoop_of_some hread, hturn]

/-- The content is `none` when the file cannot be opened. The locals without an
initialiser start with anything. -/
def sparse (h : Host δ σ α) (junk : Sparser σ α) (file : Option Text) : Sparsed σ α :=
  match file with
  | none => .rejected []
  | some content =>
    sparseLoop h
      { junk with status := .none, argc := 0, load := none, plugins := [], calls := [] }
      ⟨content, false⟩

end MonitoringAgent
