import MonitoringAgent.Plugin

/-!
# What a gather run is meant to write

The texts and records of a run of `plugin_gather`, computed from the inputs alone:
no packet, no size and no rollback occurs here.
-/
namespace MonitoringAgent

open Buffer

/-- The last byte of a text that continues one ending in `last`. -/
def lastAfter (last : Byte) (t : Text) : Byte := t.getLastD last

/-- The text a gather function leaves behind, and its result, when the text before it
ends in `last`. A section that fails leaves nothing. -/
def Gatherer.emit : Gatherer → Byte → Text × GatherError
  | ret res, _ => ([], res)
  | append t k, last => (t ++ (k.emit (lastAfter last t)).1, (k.emit (lastAfter last t)).2)
  | appendAfter f k, last =>
    (f last ++ (k.emit (lastAfter last (f last))).1, (k.emit (lastAfter last (f last))).2)
  | gather tag func k, last =>
    if (func.emit (ch '{')).2 = .enone then
      (openTag tag last ++ (func.emit (ch '{')).1 ++ str "\x7d" ++ ((k .enone).emit (ch '}')).1,
        ((k .enone).emit (ch '}')).2)
    else (k (func.emit (ch '{')).2).emit last

/-- Every append of the gather function meets `R`, given the length of the text before
it and its own length. -/
def Gatherer.Room (R : Nat → Nat → Prop) : Gatherer → Byte → Nat → Prop
  | ret _, _, _ => True
  | append t k, last, n => R n t.length ∧ k.Room R (lastAfter last t) (n + t.length)
  | appendAfter f k, last, n =>
    R n (f last).length ∧ k.Room R (lastAfter last (f last)) (n + (f last).length)
  | gather tag func k, last, n =>
    R n (openTag tag last).length ∧
      func.Room R (ch '{') (n + (openTag tag last).length) ∧
      if (func.emit (ch '{')).2 = .enone then
        R (n + (openTag tag last).length + (func.emit (ch '{')).1.length) 1 ∧
          (k .enone).Room R (ch '}')
            (n + (openTag tag last).length + (func.emit (ch '{')).1.length + 1)
      else (k (func.emit (ch '{')).2).Room R last n

/-- An append begins inside the payload. -/
def Begins (n _len : Nat) : Prop := n < pktsz

/-- An append ends inside the payload, its terminator included. -/
def Fits (n len : Nat) : Prop := n + len < pktsz

instance : DecidableRel Begins := fun n _ => inferInstanceAs (Decidable (n < pktsz))

instance : DecidableRel Fits := fun n len => inferInstanceAs (Decidable (n + len < pktsz))

instance Gatherer.decidableRoom {R : Nat → Nat → Prop} [DecidableRel R] :
    (g : Gatherer) → (last : Byte) → (n : Nat) → Decidable (g.Room R last n)
  | ret _, _, _ => .isTrue trivial
  | append t k, last, n =>
    have := k.decidableRoom (R := R) (lastAfter last t) (n + t.length)
    inferInstanceAs (Decidable (_ ∧ _))
  | appendAfter f k, last, n =>
    have := k.decidableRoom (R := R) (lastAfter last (f last)) (n + (f last).length)
    inferInstanceAs (Decidable (_ ∧ _))
  | gather tag func k, last, n =>
    have := func.decidableRoom (R := R) (ch '{') (n + (openTag tag last).length)
    have hrest : Decidable (if (func.emit (ch '{')).2 = .enone then _ else _) :=
      if he : (func.emit (ch '{')).2 = .enone then
        have := (k .enone).decidableRoom (R := R) (ch '}')
          (n + (openTag tag last).length + (func.emit (ch '{')).1.length + 1)
        decidable_of_iff (_ ∧ _) (by rw [if_pos he])
      else
        have := (k (func.emit (ch '{')).2).decidableRoom (R := R) last n
        decidable_of_iff _ (by rw [if_neg he])
    @instDecidableAnd _ _ _ (@instDecidableAnd _ _ _ hrest)

theorem Gatherer.room_mono {R R' : Nat → Nat → Prop} (h : ∀ n len, R n len → R' n len)
    (g : Gatherer) (last : Byte) (n : Nat) (hr : g.Room R last n) : g.Room R' last n := by
  induction g generalizing last n with
  | ret _ => trivial
  | append t k ih => exact ⟨h _ _ hr.1, ih _ _ hr.2⟩
  | appendAfter f k ih => exact ⟨h _ _ hr.1, ih _ _ hr.2⟩
  | gather tag func k ihf ihk =>
    obtain ⟨hopen, hfunc, hrest⟩ := hr
    refine ⟨h _ _ hopen, ihf _ _ hfunc, ?_⟩
    by_cases he : (func.emit (ch '{')).2 = .enone
    · rw [if_pos he] at hrest ⊢
      exact ⟨h _ _ hrest.1, ihk _ _ _ hrest.2⟩
    · rw [if_neg he] at hrest ⊢
      exact ihk _ _ _ hrest

/-- A gather function that only appends: it emits the concatenation. -/
def Gatherer.ofTexts (ts : List Text) (res : GatherError) : Gatherer :=
  ts.foldr .append (.ret res)

theorem emit_ofTexts (ts : List Text) (res : GatherError) (last : Byte) :
    (Gatherer.ofTexts ts res).emit last = (ts.flatten, res) := by
  induction ts generalizing last with
  | nil => rfl
  | cons t ts ih =>
    change (t ++ _, _) = _
    rw [← Gatherer.ofTexts, ih, List.flatten_cons]

/-! ## Records -/

/-- One entry of a metrics list. -/
structure Record where
  start : Epoch
  values : Text
  deriving DecidableEq

def Record.text (r : Record) : Text :=
  timestamp r.start ++ str "\"values\":\x7b" ++ r.values ++ str "\x7d\x7d"

/-- The records joined by single commas. -/
def recordsText : List Record → Text
  | [] => []
  | [r] => r.text
  | r :: r' :: rs => r.text ++ str "," ++ recordsText (r' :: rs)

/-- The text of a packet in use. -/
def metricText (license : Text) (tid : UInt64) (rs : List Record) : Text :=
  metricHeader license tid ++ recordsText rs

/-- The text of a finished packet. -/
def readyText (license : Text) (tid : UInt64) (rs : List Record) : Text :=
  metricText license tid rs ++ str "]\x7d"

/-- The comma before a further record. -/
def comma (rs : List Record) : Text := if rs = [] then [] else str ","

theorem recordsText_concat (rs : List Record) (r : Record) :
    recordsText (rs ++ [r]) = recordsText rs ++ comma rs ++ r.text := by
  induction rs with
  | nil => simp [recordsText, comma]
  | cons a rs ih =>
    cases rs with
    | nil => simp [recordsText, comma]
    | cons b rs => simp_all [recordsText, comma]

theorem metricText_concat (license : Text) (tid : UInt64) (rs : List Record) (r : Record) :
    metricText license tid (rs ++ [r]) = metricText license tid rs ++ comma rs ++ r.text := by
  simp [metricText, recordsText_concat]

/-! ## Calls -/

/-- What the gather function of a call emits inside `"values":{`. -/
def GatherCall.emitted (c : GatherCall) : Text × GatherError := c.gather.emit (ch '{')

/-- The record of a call that returns ENONE. -/
def GatherCall.record? (c : GatherCall) : Option Record :=
  if c.emitted.2 = .enone then some ⟨c.start, c.emitted.1⟩ else none

/-- The records of a list of calls, in order. -/
def recordsOf (cs : List GatherCall) : List Record := cs.filterMap GatherCall.record?

/-- A packet in use: when its first record was begun and what it holds. -/
structure InUse where
  started : Epoch
  records : List Record

/-- The records of the working packet. -/
def held (w : Option InUse) : List Record := (w.map InUse.records).getD []

/-- The start time the expiry check of a call will see. -/
def startOf (w : Option InUse) (c : GatherCall) : Epoch :=
  match w with
  | some u => if u.records = [] then c.start else u.started
  | none => c.start

/-- The records a call leaves the packet with. -/
def GatherCall.records (w : Option InUse) (c : GatherCall) : List Record :=
  held w ++ c.record?.toList

/-- One call: the working packet afterwards and the record lists made READY. -/
def advance (w : Option InUse) (c : GatherCall) : Option InUse × List (List Record) :=
  if expired (startOf w c) c.now then
    (none, if c.records w = [] then [] else [c.records w])
  else (some ⟨startOf w c, c.records w⟩, [])

/-- A list of calls. -/
def advanceAll (w : Option InUse) : List GatherCall → Option InUse × List (List Record)
  | [] => (w, [])
  | c :: cs =>
    ((advanceAll (advance w c).1 cs).1, (advance w c).2 ++ (advanceAll (advance w c).1 cs).2)

section calls

variable {w : Option InUse} {c : GatherCall}

theorem GatherCall.records_of_enone (h : c.emitted.2 = .enone) :
    c.records w = held w ++ [⟨c.start, c.emitted.1⟩] := by
  simp [records, record?, h]

theorem GatherCall.records_of_ne (h : c.emitted.2 ≠ .enone) : c.records w = held w := by
  simp [records, record?, h]

theorem advance_of_expired (h : expired (startOf w c) c.now = true) :
    advance w c = (none, if c.records w = [] then [] else [c.records w]) := by
  simp [advance, h]

theorem advance_of_not_expired (h : expired (startOf w c) c.now = false) :
    advance w c = (some ⟨startOf w c, c.records w⟩, []) := by
  simp [advance, h]

end calls

/-- One call neither loses nor invents a record. -/
theorem advance_conserves (w : Option InUse) (c : GatherCall) :
    (advance w c).2.flatten ++ held (advance w c).1 = held w ++ c.record?.toList := by
  change _ = c.records w
  cases h : expired (startOf w c) c.now with
  | true =>
    rw [advance_of_expired h]
    by_cases hrs : c.records w = [] <;> simp [hrs, held]
  | false => simp [advance_of_not_expired h, held]

/-- Over a whole run the READY lists, followed by the working one, are the records of
the calls in order. -/
theorem advanceAll_conserves (w : Option InUse) (cs : List GatherCall) :
    (advanceAll w cs).2.flatten ++ held (advanceAll w cs).1 = held w ++ recordsOf cs := by
  induction cs generalizing w with
  | nil => simp [advanceAll, recordsOf]
  | cons c cs ih =>
    have hstep := advance_conserves w c
    have hcons : recordsOf (c :: cs) = c.record?.toList ++ recordsOf cs := by
      cases h : c.record? <;> simp [recordsOf, h]
    rw [advanceAll, List.flatten_append, List.append_assoc, ih, ← List.append_assoc, hstep, hcons,
      List.append_assoc]

end MonitoringAgent
