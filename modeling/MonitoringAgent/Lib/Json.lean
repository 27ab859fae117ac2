import MonitoringAgent.Lib.Decimal

/-!
# JSON

The grammar over bytes, what a string stands for, and trees with their compact printing.
Nothing is said about the encoding of bytes from 128 on; they stand for themselves.
-/
namespace Json

open Buffer Decimal

/-! ## Strings -/

/-- The byte stands for itself between quotes. -/
def Plain (c : Byte) : Prop := 32 ≤ c ∧ c ≠ ch '"' ∧ c ≠ ch '\\'

/-- The text can be put between quotes as it is. -/
def Clean (t : Text) : Prop := ∀ c ∈ t, Plain c

instance : DecidablePred Plain := fun c =>
  inferInstanceAs (Decidable (32 ≤ c ∧ c ≠ ch '"' ∧ c ≠ ch '\\'))

instance : DecidablePred Clean := fun t => List.decidableBAll Plain t

theorem clean_append {s t : Text} : Clean (s ++ t) ↔ Clean s ∧ Clean t := List.forall_mem_append

/-- The letters that may follow a backslash, with what the pair stands for. -/
def escapes : List (Byte × Byte) :=
  [(ch '"', ch '"'), (ch '\\', ch '\\'), (ch '/', ch '/'), (ch 'b', 8), (ch 'f', 12),
    (ch 'n', 10), (ch 'r', 13), (ch 't', 9)]

def hexDigit (c : Byte) : Option Nat :=
  if 48 ≤ c ∧ c ≤ 57 then some (c.toNat - 48)
  else if 65 ≤ c ∧ c ≤ 70 then some (c.toNat - 55)
  else if 97 ≤ c ∧ c ≤ 102 then some (c.toNat - 87)
  else none

/-- Four hexadecimal digits. -/
def codeUnit : Text → Option Nat
  | [a, b, c, d] => do
    return (((← hexDigit a) * 16 + (← hexDigit b)) * 16 + (← hexDigit c)) * 16 + (← hexDigit d)
  | _ => none

def utf8 (n : Nat) : Text :=
  if n < 0x80 then [UInt8.ofNat n]
  else if n < 0x800 then [UInt8.ofNat (0xC0 + n / 64), UInt8.ofNat (0x80 + n % 64)]
  else if n < 0x10000 then
    [UInt8.ofNat (0xE0 + n / 4096), UInt8.ofNat (0x80 + n / 64 % 64), UInt8.ofNat (0x80 + n % 64)]
  else
    [UInt8.ofNat (0xF0 + n / 262144), UInt8.ofNat (0x80 + n / 4096 % 64),
      UInt8.ofNat (0x80 + n / 64 % 64), UInt8.ofNat (0x80 + n % 64)]

/-- One character of a string and the bytes it stands for. A surrogate may stand alone. -/
inductive Character : Text → Text → Prop where
  | plain {c : Byte} (h : Plain c) : Character [c] [c]
  | escape {e d : Byte} (h : (e, d) ∈ escapes) : Character [ch '\\', e] [d]
  | unit {t : Text} {n : Nat} (h : codeUnit t = some n) :
    Character (ch '\\' :: ch 'u' :: t) (utf8 n)
  | pair {t t' : Text} {hi lo : Nat} (h : codeUnit t = some (0xD800 + hi))
    (h' : codeUnit t' = some (0xDC00 + lo)) (hhi : hi < 1024) (hlo : lo < 1024) :
    Character (ch '\\' :: ch 'u' :: t ++ ch '\\' :: ch 'u' :: t')
      (utf8 (0x10000 + hi * 1024 + lo))

/-- What may stand between quotes, and the text it stands for. -/
inductive Characters : Text → Text → Prop where
  | nil : Characters [] []
  | cons {raw d raws ds : Text} (h : Character raw d) (hs : Characters raws ds) :
    Characters (raw ++ raws) (d ++ ds)

/-- A reader that starts behind an opening quote takes `t` from the text. -/
def Takes (text t : Text) : Prop :=
  ∃ raw rest, text = raw ++ ch '"' :: rest ∧ Characters raw t

variable {c : Byte} {s t u w raw d : Text} {n : Nat}

theorem length_codeUnit (h : codeUnit t = some n) : t.length = 4 := by
  unfold codeUnit at h
  split at h
  · rfl
  · cases h

theorem hexDigit_of_codeUnit (h : codeUnit t = some n) : ∀ c ∈ t, hexDigit c ≠ none := by
  unfold codeUnit at h
  split at h
  · next a b c d =>
    simp only [Option.bind_eq_bind, Option.bind_eq_some_iff] at h
    obtain ⟨_, ha, _, hb, _, hc, _, hd, -⟩ := h
    simp [ha, hb, hc, hd]
  · cases h

theorem quote_of_codeUnit (h : codeUnit t = some n) : ch '"' ∉ t := fun hmem =>
  hexDigit_of_codeUnit h _ hmem (by decide)

theorem length_utf8 (n : Nat) : (utf8 n).length ≤ 4 := by
  unfold utf8
  split
  · exact (by decide : 1 ≤ 4)
  split
  · exact (by decide : 2 ≤ 4)
  split
  · exact (by decide : 3 ≤ 4)
  · exact le_rfl

/-- An escape is longer than what it stands for. -/
theorem Character.cases (h : Character raw d) :
    (∃ c, Plain c ∧ raw = [c] ∧ d = [c]) ∨
      (d.length < raw.length ∧ raw.head? = some (ch '\\') ∧
        (ch '"' ∈ raw → d = [ch '"'])) := by
  cases h with
  | plain h => exact Or.inl ⟨_, h, rfl, rfl⟩
  | @escape e d h =>
    refine Or.inr ⟨by simp, rfl, fun hmem => ?_⟩
    obtain rfl : ch '"' = e := by
      simpa [show ch '"' ≠ ch '\\' by decide] using hmem
    have hall : (escapes.all fun x => x.1 ≠ ch '"' || x.2 = ch '"') = true := by decide
    have hd := List.all_eq_true.mp hall _ h
    simp only [ne_eq, not_true_eq_false, decide_false, Bool.false_or, decide_eq_true_eq] at hd
    rw [hd]
  | @unit t n h =>
    have hlen := length_codeUnit h
    have hutf := length_utf8 n
    refine Or.inr ⟨by simp only [List.length_cons]; omega, rfl, fun hmem => ?_⟩
    have hquote := quote_of_codeUnit h
    simp [hquote, show ch '"' ≠ ch '\\' by decide, show ch '"' ≠ ch 'u' by decide] at hmem
  | @pair t t' hi lo h h' _ _ =>
    have hlen := length_codeUnit h
    have hutf := length_utf8 (0x10000 + hi * 1024 + lo)
    refine Or.inr ⟨?_, rfl, fun hmem => ?_⟩
    · simp only [List.length_append, List.length_cons]
      omega
    · have hquote := quote_of_codeUnit h
      have hquote' := quote_of_codeUnit h'
      simp [hquote, hquote', show ch '"' ≠ ch '\\' by decide,
        show ch '"' ≠ ch 'u' by decide] at hmem

theorem Characters.length_le (h : Characters raw d) : d.length ≤ raw.length := by
  induction h with
  | nil => exact le_rfl
  | cons h _ ih =>
    simp only [List.length_append]
    rcases h.cases with ⟨c, -, rfl, rfl⟩ | ⟨hlt, -, -⟩
    · omega
    · omega

/-- A text that stands for one of its own length is plain. -/
theorem Characters.clean (h : Characters raw d) (hlen : raw.length = d.length) : Clean raw := by
  induction h with
  | nil => exact fun c hc => absurd hc List.not_mem_nil
  | cons h hs ih =>
    have hle := hs.length_le
    simp only [List.length_append] at hlen
    rcases h.cases with ⟨c, hc, rfl, rfl⟩ | ⟨hlt, -, -⟩
    · have hclean := ih (by omega)
      exact List.forall_mem_cons.mpr ⟨hc, hclean⟩
    · omega

theorem Clean.characters (h : Clean t) : Characters t t := by
  induction t with
  | nil => exact .nil
  | cons c t ih =>
    obtain ⟨hc, ht⟩ := List.forall_mem_cons.mp h
    exact .cons (.plain hc) (ih ht)

/-- What stands for `d` never runs past a quote put behind `d` itself. -/
theorem Characters.not_past (h : Characters raw d) (hu : ch '"' ∉ u) :
    d ++ ch '"' :: w ≠ u ++ raw := by
  induction h generalizing u with
  | nil =>
    intro heq
    refine hu ?_
    rw [List.append_nil] at heq
    simp [← heq]
  | @cons raw d raws ds h hs ih =>
    intro heq
    -- the first character is read off `u` and the front of the raw text
    have hle : d.length ≤ (u ++ raw).length := by
      rw [List.length_append]
      rcases h.cases with ⟨c, -, rfl, rfl⟩ | ⟨hlt, -, -⟩
      · simp
      · omega
    rw [List.append_assoc, ← List.append_assoc u] at heq
    have hfront : u ++ raw <+: d ++ (ds ++ ch '"' :: w) := heq ▸ List.prefix_append _ _
    obtain ⟨u', hu'⟩ := List.prefix_of_prefix_length_le (List.prefix_append d _) hfront hle
    rw [← hu', List.append_assoc] at heq
    refine ih ?_ (List.append_cancel_left heq)
    intro hmem
    have hmem' : ch '"' ∈ u ++ raw := hu' ▸ List.mem_append_right _ hmem
    rcases h.cases with ⟨c, hc, rfl, rfl⟩ | ⟨-, hhead, hquote⟩
    · rcases List.mem_append.mp hmem' with hmem' | hmem'
      · exact hu hmem'
      · exact hc.2.1 (List.mem_singleton.mp hmem').symm
    · rcases List.mem_append.mp hmem' with hmem' | hmem'
      · exact hu hmem'
      · rw [hquote hmem'] at hu'
        cases u with
        | nil =>
          rw [List.nil_append] at hu'
          rw [← hu'] at hhead
          simp [ch] at hhead
          revert hhead
          decide
        | cons x u =>
          obtain ⟨rfl, -⟩ := List.cons.inj hu'
          exact hu List.mem_cons_self

/-- A text put between quotes is read back exactly if it is plain. -/
theorem takes_iff : Takes (t ++ ch '"' :: s) t ↔ Clean t := by
  constructor
  · rintro ⟨raw, rest, heq, hchars⟩
    have hle := hchars.length_le
    have hfront : raw <+: t ++ ch '"' :: s := heq ▸ List.prefix_append _ _
    obtain ⟨r, hr⟩ := List.prefix_of_prefix_length_le (List.prefix_append t _) hfront hle
    cases r with
    | nil =>
      rw [List.append_nil] at hr
      subst hr
      exact hchars.clean rfl
    | cons x r =>
      rw [← hr, List.append_assoc] at heq
      obtain ⟨rfl, -⟩ := List.cons.inj (List.append_cancel_left heq)
      exact absurd hr (hchars.not_past (u := []) List.not_mem_nil)
  · intro h
    exact ⟨t, s, rfl, h.characters⟩

/-! ## Values -/

/-- Space between tokens. -/
def Space (t : Text) : Prop := ∀ c ∈ t, c = 32 ∨ c = 9 ∨ c = 10 ∨ c = 13

/-- One digit or more. -/
def Digits (t : Text) : Prop := t ≠ [] ∧ ∀ c ∈ t, IsDigit c

structure Number (t : Text) : Prop where
  parts : ∃ sign int frac exp, t = sign ++ int ++ frac ++ exp ∧
    (sign = [] ∨ sign = str "-") ∧
    (Digits int ∧ (int = str "0" ∨ int.head? ≠ some (ch '0'))) ∧
    (frac = [] ∨ ∃ ds, Digits ds ∧ frac = str "." ++ ds) ∧
    (exp = [] ∨ ∃ e sign' ds, Digits ds ∧ exp = e ++ sign' ++ ds ∧
      (e = str "e" ∨ e = str "E") ∧ (sign' = [] ∨ sign' = str "+" ∨ sign' = str "-"))

def quote (t : Text) : Text := ch '"' :: t ++ [ch '"']

/-- The name of a member, with the space around it. -/
def Key (k : Text) : Prop :=
  ∃ a raw d b, Space a ∧ Characters raw d ∧ Space b ∧ k = a ++ quote raw ++ b

inductive Value : Text → Prop where
  | literal {t : Text} (h : t ∈ [str "null", str "true", str "false"]) : Value t
  | number {t : Text} (h : Number t) : Value t
  | string {raw d : Text} (h : Characters raw d) : Value (quote raw)
  | array {ts : List Text} (h : ∀ t ∈ ts, Value t) : Value (str "[" ++ commas ts ++ str "]")
  | object {ms : List (Text × Text)} (hk : ∀ m ∈ ms, Key m.1) (h : ∀ m ∈ ms, Value m.2) :
    Value (str "\x7b" ++ commas (ms.map fun m => m.1 ++ str ":" ++ m.2) ++ str "\x7d")
  | hollowArray {a : Text} (h : Space a) : Value (str "[" ++ a ++ str "]")
  | hollowObject {a : Text} (h : Space a) : Value (str "\x7b" ++ a ++ str "\x7d")
  | padded {a t b : Text} (ha : Space a) (h : Value t) (hb : Space b) : Value (a ++ t ++ b)

/-- What may stand between braces. -/
def Members (t : Text) : Prop :=
  Space t ∨ ∃ ms : List (Text × Text), (∀ m ∈ ms, Key m.1) ∧ (∀ m ∈ ms, Value m.2) ∧
    t = commas (ms.map fun m => m.1 ++ str ":" ++ m.2)

/-- A name and a value. -/
def Member (t : Text) : Prop := ∃ k v, Key k ∧ Value v ∧ t = k ++ str ":" ++ v

theorem Members.object (h : Members t) : Value (str "\x7b" ++ t ++ str "\x7d") := by
  rcases h with h | ⟨ms, hk, hv, rfl⟩
  · exact .hollowObject h
  · exact .object hk hv

theorem Clean.key (h : Clean t) : Key (quote t) :=
  ⟨[], t, t, [], List.forall_mem_nil _, h.characters, List.forall_mem_nil _, by simp⟩

/-- Named values. -/
theorem members_named {ι : Type} {xs : List ι} {name value : ι → Text}
    (hname : ∀ x ∈ xs, Clean (name x)) (hvalue : ∀ x ∈ xs, Value (value x)) :
    Members (commas (xs.map fun x => quote (name x) ++ str ":" ++ value x)) := by
  refine Or.inr ⟨xs.map fun x => (quote (name x), value x), ?_, ?_, ?_⟩
  · exact List.forall_mem_map.mpr fun x hx => (hname x hx).key
  · exact List.forall_mem_map.mpr hvalue
  · rw [List.map_map]
    rfl

/-! ## Trees -/

/-- A value whose numbers and strings are texts that are printed as they are. -/
inductive Tree where
  | num (t : Text)
  | str (t : Text)
  | arr (xs : List Tree)
  | obj (ms : List (Text × Tree))

namespace Tree

mutual

def print : Tree → Text
  | num t => t
  | str t => quote t
  | arr xs => Buffer.str "[" ++ commas (prints xs) ++ Buffer.str "]"
  | obj ms => Buffer.str "\x7b" ++ commas (printMembers ms) ++ Buffer.str "\x7d"

def prints : List Tree → List Text
  | [] => []
  | x :: xs => x.print :: prints xs

def printMembers : List (Text × Tree) → List Text
  | [] => []
  | (k, x) :: ms => (quote k ++ Buffer.str ":" ++ x.print) :: printMembers ms

end

mutual

/-- The numbers are numbers and the strings plain. -/
def Good : Tree → Prop
  | num t => Number t
  | str t => Clean t
  | arr xs => AllGood xs
  | obj ms => MembersGood ms

def AllGood : List Tree → Prop
  | [] => True
  | x :: xs => x.Good ∧ AllGood xs

def MembersGood : List (Text × Tree) → Prop
  | [] => True
  | (k, x) :: ms => Clean k ∧ x.Good ∧ MembersGood ms

end

theorem prints_eq (xs : List Tree) : prints xs = xs.map print := by
  induction xs with
  | nil => rfl
  | cons x xs ih => rw [prints, ih, List.map_cons]

theorem printMembers_eq (ms : List (Text × Tree)) :
    printMembers ms = ms.map fun m => quote m.1 ++ Buffer.str ":" ++ m.2.print := by
  induction ms with
  | nil => rfl
  | cons m ms ih => rw [printMembers, ih, List.map_cons]

theorem allGood_iff {xs : List Tree} : AllGood xs ↔ ∀ x ∈ xs, x.Good := by
  induction xs with
  | nil => simp [AllGood]
  | cons x xs ih => rw [AllGood, ih, List.forall_mem_cons]

theorem membersGood_iff {ms : List (Text × Tree)} :
    MembersGood ms ↔ ∀ m ∈ ms, Clean m.1 ∧ m.2.Good := by
  induction ms with
  | nil => simp [MembersGood]
  | cons m ms ih => rw [MembersGood, ih, List.forall_mem_cons, and_assoc]

theorem printMembers_append (ms ms' : List (Text × Tree)) :
    printMembers (ms ++ ms') = printMembers ms ++ printMembers ms' := by
  simp only [printMembers_eq, List.map_append]

theorem membersGood_append {ms ms' : List (Text × Tree)} :
    MembersGood (ms ++ ms') ↔ MembersGood ms ∧ MembersGood ms' := by
  simp only [membersGood_iff, List.forall_mem_append]

/-- Members that are numbers. -/
def nums (ms : List (Text × Text)) : List (Text × Tree) := ms.map fun m => (m.1, num m.2)

theorem membersGood_nums {ms : List (Text × Text)} :
    MembersGood (nums ms) ↔ ∀ m ∈ ms, Clean m.1 ∧ Number m.2 := by
  rw [membersGood_iff, nums, List.forall_mem_map]
  simp only [Good]

theorem commas_printMembers_num (k v : Text) (ms : List (Text × Tree)) :
    commas (printMembers ((k, num v) :: ms)) =
      quote k ++ Buffer.str ":" ++ v ++ commasAfter true (printMembers ms) := by
  rw [printMembers, commas, print]
  rfl

/-- Members whose printed values are values. -/
theorem members_of_values {ms : List (Text × Tree)} (hk : ∀ m ∈ ms, Clean m.1)
    (hv : ∀ m ∈ ms, Value m.2.print) : Members (commas (printMembers ms)) := by
  rw [printMembers_eq]
  exact members_named hk hv

mutual

/-- The arrays in each object of the tree have one length. -/
def Even : Tree → Prop
  | num _ => True
  | str _ => True
  | arr xs => AllEven xs
  | obj ms => (∃ n, ∀ m ∈ ms, ∀ xs, m.2 = arr xs → xs.length = n) ∧ MembersEven ms

def AllEven : List Tree → Prop
  | [] => True
  | x :: xs => x.Even ∧ AllEven xs

def MembersEven : List (Text × Tree) → Prop
  | [] => True
  | (_, x) :: ms => x.Even ∧ MembersEven ms

end

theorem allEven_iff {xs : List Tree} : AllEven xs ↔ ∀ x ∈ xs, x.Even := by
  induction xs with
  | nil => simp [AllEven]
  | cons x xs ih => rw [AllEven, ih, List.forall_mem_cons]

theorem membersEven_iff {ms : List (Text × Tree)} : MembersEven ms ↔ ∀ m ∈ ms, m.2.Even := by
  induction ms with
  | nil => simp [MembersEven]
  | cons m ms ih => rw [MembersEven, ih, List.forall_mem_cons]

mutual

/-- A good tree prints as a value. -/
theorem value_print (x : Tree) (h : x.Good) : Value x.print := by
  cases x with
  | num t =>
    rw [Good] at h
    rw [print]
    exact .number h
  | str t =>
    rw [Good] at h
    rw [print]
    exact .string h.characters
  | arr xs =>
    rw [Good] at h
    rw [print, prints_eq]
    refine .array fun t ht => ?_
    obtain ⟨x, hx, rfl⟩ := List.mem_map.mp ht
    exact values_print xs h x hx
  | obj ms =>
    rw [Good] at h
    rw [print]
    exact (members_of_values (fun m hm => (membersGood_iff.mp h m hm).1)
      (memberValues_print ms h)).object

theorem values_print (xs : List Tree) (h : AllGood xs) : ∀ x ∈ xs, Value x.print := by
  cases xs with
  | nil => exact List.forall_mem_nil _
  | cons x xs =>
    rw [AllGood] at h
    exact List.forall_mem_cons.mpr ⟨value_print x h.1, values_print xs h.2⟩

theorem memberValues_print (ms : List (Text × Tree)) (h : MembersGood ms) :
    ∀ m ∈ ms, Value m.2.print := by
  cases ms with
  | nil => exact List.forall_mem_nil _
  | cons m ms =>
    rw [MembersGood] at h
    exact List.forall_mem_cons.mpr ⟨value_print m.2 h.2.1, memberValues_print ms h.2.2⟩

end

theorem members_print {ms : List (Text × Tree)} (h : MembersGood ms) :
    Members (commas (printMembers ms)) :=
  members_of_values (fun m hm => (membersGood_iff.mp h m hm).1) (memberValues_print ms h)

end Tree

/-! ## Adjacent tokens -/

/-- What a scan has just seen: an opening brace, a digit, the letter `n` or anything else
outside a string; a place inside a string; or what cannot stand side by side. -/
inductive Seen where
  | brace
  | digit
  | enn
  | other
  | inside
  | escaped
  | clash
  deriving DecidableEq

def scanStep : Seen → Byte → Seen
  | .clash, _ => .clash
  | .escaped, _ => .inside
  | .inside, c => if c = ch '"' then .other else if c = ch '\\' then .escaped else .inside
  | .enn, c => if c = ch 'u' then .other else .clash
  | q, c =>
    if c = ch '"' then if q = .digit then .clash else .inside
    else if c = ch ',' then if q = .brace then .clash else .other
    else if c = ch '{' then .brace
    else if c = ch 'n' then .enn
    else if c = ch 'i' then .clash
    else if IsDigit c then .digit
    else .other

def scan (q : Seen) (t : Text) : Seen := t.foldl scanStep q

/-- Outside a string, with nothing open. -/
def Seen.Outer (q : Seen) : Prop := q = .digit ∨ q = .other

instance : DecidablePred Seen.Outer := fun q =>
  inferInstanceAs (Decidable (q = .digit ∨ q = .other))

variable {q : Seen}

@[simp] theorem scan_nil : scan q [] = q := rfl

@[simp] theorem scan_cons : scan q (c :: t) = scan (scanStep q c) t := rfl

@[simp] theorem scan_append : scan q (s ++ t) = scan (scan q s) t := List.foldl_append

theorem scan_clash (t : Text) : scan .clash t = .clash := by
  induction t with
  | nil => rfl
  | cons c t ih => exact ih

theorem scan_space (h : Space t) : scan .other t = .other := by
  induction t with
  | nil => rfl
  | cons c t ih =>
    obtain ⟨hc, ht⟩ := List.forall_mem_cons.mp h
    have hstep : scanStep .other c = .other := by
      rcases hc with rfl | rfl | rfl | rfl <;> decide
    rw [scan_cons, hstep, ih ht]

/-- Space leaves what comes before it, or hides it. -/
theorem scan_space_after (h : Space t) (hq : q = .brace ∨ q.Outer) :
    scan q t = q ∨ scan q t = .other := by
  cases t with
  | nil => exact Or.inl rfl
  | cons c t =>
    obtain ⟨hc, ht⟩ := List.forall_mem_cons.mp h
    have hstep : scanStep q c = .other := by
      rcases hq with rfl | rfl | rfl <;> rcases hc with rfl | rfl | rfl | rfl <;> decide
    rw [scan_cons, hstep, scan_space ht]
    exact Or.inr rfl

theorem scan_inside (h : ∀ c ∈ t, c ≠ ch '"' ∧ c ≠ ch '\\') : scan .inside t = .inside := by
  induction t with
  | nil => rfl
  | cons c t ih =>
    obtain ⟨hc, ht⟩ := List.forall_mem_cons.mp h
    rw [scan_cons, scanStep, if_neg hc.1, if_neg hc.2, ih ht]

theorem scan_codeUnit (h : codeUnit t = some n) : scan .inside t = .inside := by
  have hhex := hexDigit_of_codeUnit h
  refine scan_inside fun c hc => ⟨?_, ?_⟩
  · rintro rfl
    exact hhex _ hc (by decide)
  · rintro rfl
    exact hhex _ hc (by decide)

theorem scan_characters (h : Characters raw d) : scan .inside raw = .inside := by
  induction h with
  | nil => rfl
  | cons h _ ih =>
    rw [scan_append]
    cases h with
    | plain h =>
      rw [scan_inside (by simpa using h.2), ih]
    | escape _ => exact ih
    | unit h =>
      have hunit := scan_codeUnit h
      rw [scan_cons, scan_cons,
        show scanStep (scanStep .inside (ch '\\')) (ch 'u') = .inside from rfl, hunit, ih]
    | pair h h' _ _ =>
      have hunit := scan_codeUnit h
      have hunit' := scan_codeUnit h'
      rw [scan_append, scan_cons, scan_cons, scan_cons, scan_cons,
        show scanStep (scanStep .inside (ch '\\')) (ch 'u') = .inside from rfl, hunit,
        show scanStep (scanStep .inside (ch '\\')) (ch 'u') = .inside from rfl, hunit', ih]

theorem scan_quote (h : Characters raw d) (hq : q = .brace ∨ q = .other) :
    scan q (quote raw) = .other := by
  have hstep : scanStep q (ch '"') = .inside := by
    rcases hq with rfl | rfl <;> decide
  rw [quote, List.cons_append, scan_cons, hstep, scan_append, scan_characters h]
  decide

theorem scan_key {k : Text} (h : Key k) (hq : q = .brace ∨ q = .other) : scan q k = .other := by
  obtain ⟨a, raw, d, b, ha, hraw, hb, rfl⟩ := h
  have hbefore : scan q a = .brace ∨ scan q a = .other := by
    rcases hq with rfl | rfl
    · exact scan_space_after ha (Or.inl rfl)
    · exact Or.inr (scan_space ha)
  rw [scan_append, scan_append, scan_quote hraw hbefore, scan_space hb]

/-- The byte begins no string or word, separates nothing and opens no object. -/
def Neutral (c : Byte) : Prop :=
  c ≠ ch '"' ∧ c ≠ ch ',' ∧ c ≠ ch '{' ∧ c ≠ ch 'n' ∧ c ≠ ch 'i'

instance : DecidablePred Neutral := fun c =>
  inferInstanceAs (Decidable (c ≠ ch '"' ∧ c ≠ ch ',' ∧ c ≠ ch '{' ∧ c ≠ ch 'n' ∧ c ≠ ch 'i'))

theorem scanStep_neutral (hc : Neutral c) (hq : q.Outer) : (scanStep q c).Outer := by
  obtain ⟨hquote, hcomma, hbrace, hn, hi⟩ := hc
  rcases hq with rfl | rfl
  all_goals
    simp only [scanStep, if_neg hquote, if_neg hcomma, if_neg hbrace, if_neg hn, if_neg hi]
    split
    · exact Or.inl rfl
    · exact Or.inr rfl

theorem scan_neutral (h : ∀ c ∈ t, Neutral c) (hq : q.Outer) : (scan q t).Outer := by
  induction t generalizing q with
  | nil => exact hq
  | cons c t ih =>
    obtain ⟨hc, ht⟩ := List.forall_mem_cons.mp h
    exact ih ht (scanStep_neutral hc hq)

theorem neutral_of_isDigit (h : IsDigit c) : Neutral c := by
  obtain ⟨hlo, hhi⟩ := h
  refine ⟨?_, ?_, ?_, ?_, ?_⟩
  · rintro rfl
    exact absurd hlo (by decide)
  · rintro rfl
    exact absurd hlo (by decide)
  all_goals
    rintro rfl
    exact absurd hhi (by decide)

theorem Digits.neutral (h : Digits t) : ∀ c ∈ t, Neutral c :=
  fun c hc => neutral_of_isDigit (h.2 c hc)

theorem Digits.concat (h : Digits t) : ∃ s c, t = s ++ [c] ∧ IsDigit c := by
  obtain ⟨hne, hdigits⟩ := h
  refine ⟨t.dropLast, t.getLast hne, (List.dropLast_append_getLast hne).symm, ?_⟩
  exact hdigits _ (List.getLast_mem hne)

/-- A number ends in a digit. -/
theorem Number.concat (h : Number t) :
    ∃ s c, t = s ++ [c] ∧ IsDigit c ∧ ∀ x ∈ s, Neutral x := by
  obtain ⟨sign, int, frac, exp, rfl, hsign, ⟨hint, -⟩, hfrac, hexp⟩ := h
  have hneutral : ∀ x ∈ sign ++ int ++ frac ++ exp, Neutral x := by
    simp only [List.forall_mem_append]
    refine ⟨⟨⟨?_, hint.neutral⟩, ?_⟩, ?_⟩
    · rcases hsign with rfl | rfl <;> decide
    · rcases hfrac with rfl | ⟨ds, hds, rfl⟩
      · exact List.forall_mem_nil _
      · exact List.forall_mem_append.mpr ⟨by decide, hds.neutral⟩
    · rcases hexp with rfl | ⟨e, sign', ds, hds, rfl, he, hsign'⟩
      · exact List.forall_mem_nil _
      · simp only [List.forall_mem_append]
        refine ⟨⟨?_, ?_⟩, hds.neutral⟩
        · rcases he with rfl | rfl <;> decide
        · rcases hsign' with rfl | rfl | rfl <;> decide
  have hlast : ∃ s c, sign ++ int ++ frac ++ exp = s ++ [c] ∧ IsDigit c := by
    rcases hexp with rfl | ⟨e, sign', ds, hds, rfl, -, -⟩
    · rcases hfrac with rfl | ⟨ds, hds, rfl⟩
      · obtain ⟨s, c, rfl, hc⟩ := hint.concat
        exact ⟨sign ++ s, c, by simp, hc⟩
      · obtain ⟨s, c, rfl, hc⟩ := hds.concat
        exact ⟨sign ++ int ++ str "." ++ s, c, by simp, hc⟩
    · obtain ⟨s, c, rfl, hc⟩ := hds.concat
      exact ⟨sign ++ int ++ frac ++ (e ++ sign') ++ s, c, by simp, hc⟩
  obtain ⟨s, c, heq, hc⟩ := hlast
  refine ⟨s, c, heq, hc, fun x hx => hneutral x ?_⟩
  rw [heq]
  exact List.mem_append_left _ hx

theorem scan_number (h : Number t) (hq : q.Outer) : scan q t = .digit := by
  obtain ⟨s, c, rfl, hc, hs⟩ := h.concat
  obtain ⟨hquote, hcomma, hbrace, hn, hi⟩ := neutral_of_isDigit hc
  rw [scan_append, scan_cons, scan_nil]
  rcases scan_neutral hs hq with hq' | hq'
  all_goals
    rw [hq']
    simp [scanStep, hquote, hcomma, hbrace, hn, hi, hc]

/-- Texts joined by commas, the first after `q`. -/
theorem scan_commas {ts : List Text} (hfirst : ∀ t ∈ ts, (scan q t).Outer)
    (h : ∀ t ∈ ts, (scan .other t).Outer) :
    scan q (commas ts) = q ∨ (scan q (commas ts)).Outer := by
  cases ts with
  | nil => exact Or.inl rfl
  | cons t ts =>
    right
    rw [commas, scan_append]
    have hq := hfirst t List.mem_cons_self
    obtain ⟨-, hts⟩ := List.forall_mem_cons.mp h
    generalize scan q t = q' at hq
    clear hfirst h
    induction ts generalizing q' with
    | nil => exact hq
    | cons t ts ih =>
      obtain ⟨ht, hts⟩ := List.forall_mem_cons.mp hts
      have hstep : scanStep q' (ch ',') = .other := by
        rcases hq with rfl | rfl <;> decide
      rw [List.flatMap_cons, scan_append, scan_append]
      refine ih hts _ ?_
      change (scan (scanStep q' (ch ',')) t).Outer
      rwa [hstep]

theorem scan_close (hq : q = .brace ∨ q.Outer) :
    scan q (str "\x7d") = .other ∧ scan q (str "]") = .other := by
  rcases hq with rfl | rfl | rfl <;> decide

theorem scan_member {k v : Text} (hk : Key k) (hv : (scan .other v).Outer)
    (hq : q = .brace ∨ q = .other) : (scan q (k ++ str ":" ++ v)).Outer := by
  have hcolon : scan .other (str ":") = .other := by decide
  rwa [scan_append, scan_append, scan_key hk hq, hcolon]

/-- Members after an opening brace. -/
theorem scan_printed {ms : List (Text × Text)} (hk : ∀ m ∈ ms, Key m.1)
    (hv : ∀ m ∈ ms, (scan .other m.2).Outer) :
    scan .brace (commas (ms.map fun m => m.1 ++ str ":" ++ m.2)) = .brace ∨
      (scan .brace (commas (ms.map fun m => m.1 ++ str ":" ++ m.2))).Outer := by
  refine scan_commas ?_ ?_
  · intro t ht
    obtain ⟨m, hm, rfl⟩ := List.mem_map.mp ht
    exact scan_member (hk m hm) (hv m hm) (Or.inl rfl)
  · intro t ht
    obtain ⟨m, hm, rfl⟩ := List.mem_map.mp ht
    exact scan_member (hk m hm) (hv m hm) (Or.inr rfl)

/-- No two tokens clash in a value. -/
theorem scan_value (h : Value t) : (scan .other t).Outer := by
  have hopen : scan .other (str "[") = .other := by decide
  have hbrace : scan .other (str "\x7b") = .brace := by decide
  induction h with
  | literal h =>
    simp only [List.mem_cons, List.not_mem_nil, or_false] at h
    rcases h with rfl | rfl | rfl <;> decide
  | number h => exact Or.inl (scan_number h (Or.inr rfl))
  | string h => exact Or.inr (scan_quote h (Or.inr rfl))
  | array h ih =>
    have hbody : (scan .other (commas _)).Outer := (scan_commas ih ih).elim (fun he => Or.inr he) id
    rw [scan_append, scan_append, hopen, (scan_close (Or.inr hbody)).2]
    exact Or.inr rfl
  | object hk h ih =>
    rw [scan_append, scan_append, hbrace, (scan_close (scan_printed hk ih)).1]
    exact Or.inr rfl
  | hollowArray h =>
    rw [scan_append, scan_append, hopen, scan_space h]
    decide
  | hollowObject h =>
    have hbody := scan_space_after h (q := .brace) (Or.inl rfl)
    rw [scan_append, scan_append, hbrace, (scan_close (hbody.imp id Or.inr)).1]
    exact Or.inr rfl
  | padded ha h hb ih =>
    rw [scan_append, scan_append, scan_space ha]
    rcases scan_space_after hb (Or.inr ih) with he | he
    · rwa [he]
    · exact Or.inr he

/-- No two tokens clash between braces. -/
theorem scan_members (h : Members t) : scan .brace t ≠ .clash := by
  have hne : ∀ q : Seen, q = .brace ∨ q.Outer → q ≠ .clash := by
    rintro q (rfl | rfl | rfl) <;> decide
  rcases h with h | ⟨ms, hk, hv, rfl⟩
  · exact hne _ ((scan_space_after h (Or.inl rfl)).imp id Or.inr)
  · exact hne _ (scan_printed hk fun m hm => scan_value (hv m hm))

/-! ## Clashes -/

section clashes

variable {ι : Type} {xs : List ι} {text : ι → Text} {C : ι → Prop}

/-- Texts behind commas that each meet a condition or clash. -/
theorem scan_flatMap_or (hout : ∀ x ∈ xs, C x → (scan .other (text x)).Outer)
    (h : ∀ x ∈ xs, C x ∨ scan .other (text x) = .clash) (hq : q.Outer) :
    (∀ x ∈ xs, C x) ∨ scan q ((xs.map text).flatMap (str "," ++ ·)) = .clash := by
  induction xs generalizing q with
  | nil => exact Or.inl (List.forall_mem_nil _)
  | cons x xs ih =>
    obtain ⟨hx, hxs⟩ := List.forall_mem_cons.mp h
    obtain ⟨hxout, hxsout⟩ := List.forall_mem_cons.mp hout
    have hcomma : scan q (str ",") = .other := by
      rcases hq with rfl | rfl <;> decide
    rw [List.map_cons, List.flatMap_cons, scan_append, scan_append, hcomma]
    rcases hx with hx | hx
    · rw [List.forall_mem_cons, and_iff_right hx]
      exact ih hxsout hxs (hxout hx)
    · rw [hx, scan_clash]
      exact Or.inr rfl

theorem scan_commas_or (hout : ∀ x ∈ xs, C x → (scan .other (text x)).Outer)
    (h : ∀ x ∈ xs, C x ∨ scan .other (text x) = .clash) :
    (∀ x ∈ xs, C x) ∨ scan .other (commas (xs.map text)) = .clash := by
  cases xs with
  | nil => exact Or.inl (List.forall_mem_nil _)
  | cons x xs =>
    obtain ⟨hx, hxs⟩ := List.forall_mem_cons.mp h
    obtain ⟨hxout, hxsout⟩ := List.forall_mem_cons.mp hout
    rw [List.map_cons, commas, scan_append]
    rcases hx with hx | hx
    · rw [List.forall_mem_cons, and_iff_right hx]
      exact scan_flatMap_or hxsout hxs (hxout hx)
    · rw [hx, scan_clash]
      exact Or.inr rfl

/-- An array whose elements do. -/
theorem scan_array_or (hout : ∀ x ∈ xs, C x → (scan .other (text x)).Outer)
    (h : ∀ x ∈ xs, C x ∨ scan .other (text x) = .clash) :
    (∀ x ∈ xs, C x) ∨ scan .other (str "[" ++ commas (xs.map text) ++ str "]") = .clash := by
  have hopen : scan .other (str "[") = .other := by decide
  refine (scan_commas_or hout h).imp_right fun hclash => ?_
  rw [scan_append, scan_append, hopen, hclash, scan_clash]

theorem scan_name (hname : Clean t) (v : Text) :
    scan .other (quote t ++ str ":" ++ v) = scan .other v := by
  have hcolon : scan .other (str ":") = .other := by decide
  rw [scan_append, scan_append, scan_quote hname.characters (Or.inr rfl), hcolon]

/-- Members whose values do. -/
theorem scan_members_or {name : ι → Text} (hname : ∀ x ∈ xs, Clean (name x))
    (hout : ∀ x ∈ xs, C x → (scan .other (text x)).Outer)
    (h : ∀ x ∈ xs, C x ∨ scan .other (text x) = .clash) :
    (∀ x ∈ xs, C x) ∨
      scan .brace (commas (xs.map fun x => quote (name x) ++ str ":" ++ text x)) = .clash := by
  have hsame : ∀ x ∈ xs, scan .other (quote (name x) ++ str ":" ++ text x) = scan .other (text x) :=
    fun x hx => scan_name (hname x hx) _
  have hmembers : (∀ x ∈ xs, C x) ∨
      scan .other (commas (xs.map fun x => quote (name x) ++ str ":" ++ text x)) = .clash := by
    refine scan_commas_or (fun x hx hC => ?_) fun x hx => ?_
    · rw [hsame x hx]
      exact hout x hx hC
    · rw [hsame x hx]
      exact h x hx
  cases xs with
  | nil => exact Or.inl (List.forall_mem_nil _)
  | cons x xs => exact hmembers

end clashes

theorem scan_object_clash (h : scan .brace t = .clash) :
    scan .other (str "\x7b" ++ t ++ str "\x7d") = .clash := by
  have hbrace : scan .other (str "\x7b") = .brace := by decide
  rw [scan_append, scan_append, hbrace, h, scan_clash]

/-! ## Numerals -/

theorem number_decimal (n : Nat) : Number (decimal n) := by
  have hdigits : Digits (decimal n) := ⟨decimal_ne_nil n, isDigit_decimal n⟩
  refine ⟨[], decimal n, [], [], by simp, Or.inl rfl, ⟨hdigits, ?_⟩, Or.inl rfl, Or.inl rfl⟩
  rcases Nat.eq_zero_or_pos n with rfl | hn
  · exact Or.inl (by decide)
  · exact Or.inr (head?_decimal hn)

theorem clean_decimal (n : Nat) : Clean (decimal n) := by
  intro c hc
  obtain ⟨hlo, hhi⟩ := isDigit_decimal n c hc
  refine ⟨UInt8.le_trans (by decide) hlo, ?_, ?_⟩
  · rintro rfl
    exact absurd hlo (by decide)
  · rintro rfl
    exact absurd hhi (by decide)

end Json
