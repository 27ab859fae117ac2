import MonitoringAgent.Sender
import MonitoringAgent.Lib.Transition
import Mathlib.Data.List.Infix

/-!
# The passes of `storage_main`

A pass posts the READY packets of the list one after the other and stops at the first post
that fails. `delay` is a bit-field of three bits; it is doubled in `int` arithmetic, and
only the way of a post that succeeds stores `tick`.
-/
namespace MonitoringAgent

open Transition

/-- `STORAGE_TICK`. -/
def storageTick : Nat := 21

/-- `delay` and `tick` of the storage routine; the float holds small whole numbers only. -/
structure Backoff where
  delay : BitVec 3
  tick : Nat
  deriving DecidableEq

/-- As `storage_init` leaves it. -/
def Backoff.start : Backoff := ⟨1, storageTick⟩

/-- `st->delay = (st->delay << 1) | !(st->delay << 1)`. -/
def Backoff.fail (b : Backoff) : Backoff :=
  let shifted := b.delay.toNat <<< 1
  { b with delay := BitVec.ofNat 3 (shifted ||| if shifted = 0 then 1 else 0) }

/-- `st->delay = 1` and `st->tick = STORAGE_TICK * st->delay`. -/
def Backoff.succeed (b : Backoff) : Backoff :=
  let b := { b with delay := 1 }
  { b with tick := storageTick * b.delay.toNat }

/-- The loop of `storage_main` over the packets at the listed addresses. The posts meet the
replies in turn; the flag says that the function returned 0. -/
def storageLoop (replies : Nat → Reply) :
    List Nat → (Nat → Packet) → Backoff → (Nat → Packet) × Backoff × Bool
  | [], pkt, b => (pkt, b, true)
  | r :: l, pkt, b =>
    if (pkt r).state = .ready then
      match post (pkt r) (replies 0) with
      | (p, false) => (Function.update pkt r p, b.fail, false)
      | (p, true) =>
        storageLoop (fun k => replies (k + 1)) l
          (Function.update pkt r { p with state := .done }) b.succeed
    else storageLoop replies l pkt b

/-- A pass meets a list, the packets in it and the replies to its posts. -/
structure Pass where
  list : List Nat
  nodup : list.Nodup
  pkt : Nat → Packet
  replies : Nat → Reply

/-- The READY packets among those listed. -/
def readyIn (pkt : Nat → Packet) (l : List Nat) : List Nat :=
  l.filter fun r => (pkt r).state = .ready

def Pass.ready (p : Pass) : List Nat := readyIn p.pkt p.list

def Pass.AllAccepted (p : Pass) : Prop := ∀ k < p.ready.length, (p.replies k).success = true

def storageMain (b : Backoff) (p : Pass) : Backoff := (storageLoop p.replies p.list p.pkt b).2.1

/-- What is meant to hold after a pass. -/
structure Backoff.Kept (b : Backoff) (p : Pass) : Prop where
  delay : b.delay = 1 ∨ b.delay = 2 ∨ b.delay = 4
  succeeded : p.ready ≠ [] → p.AllAccepted → b.delay = 1
  tick : b.tick = storageTick * b.delay.toNat

variable {b : Backoff} {l : List Nat} {pkt : Nat → Packet} {replies : Nat → Reply} {p : Pass}
  {passes : List Pass}

/-! ## One pass -/

theorem readyIn_update {r : Nat} {q : Packet} (hr : r ∉ l) :
    readyIn (Function.update pkt r q) l = readyIn pkt l := by
  refine List.filter_congr fun r' hr' => ?_
  have hne : r' ≠ r := by
    rintro rfl
    exact hr hr'
  rw [Function.update_of_ne hne]

theorem succeed_eq_start (b : Backoff) : b.succeed = .start := rfl

/-- A pass without a failing post. -/
theorem storageLoop_accepted (hl : l.Nodup)
    (hok : ∀ k < (readyIn pkt l).length, (replies k).success = true) :
    (storageLoop replies l pkt b).2 = (if readyIn pkt l = [] then b else .start, true) := by
  induction l generalizing pkt b replies with
  | nil => rfl
  | cons r l ih =>
    obtain ⟨hr, hl⟩ := List.nodup_cons.mp hl
    rw [storageLoop]
    by_cases hready : (pkt r).state = .ready
    · have hcons : readyIn pkt (r :: l) = r :: readyIn pkt l := by
        simp [readyIn, hready]
      rw [hcons] at hok ⊢
      have hpost : (post (pkt r) (replies 0)).2 = true := by
        rw [(post_of_ready hready _).1]
        exact hok 0 (by simp)
      rw [if_pos hready, ← Prod.mk.eta (p := post (pkt r) (replies 0)), hpost]
      dsimp only
      rw [ih hl, readyIn_update hr, succeed_eq_start]
      · simp
      · rw [readyIn_update hr]
        intro k hk
        exact hok (k + 1) (by simpa using hk)
    · have hcons : readyIn pkt (r :: l) = readyIn pkt l := by
        simp [readyIn, hready]
      rw [hcons] at hok ⊢
      rw [if_neg hready, ih hl hok]

/-- A pass that a failing post ends: only `delay` is stored then. -/
theorem storageLoop_refused (hl : l.Nodup)
    (hno : ¬ ∀ k < (readyIn pkt l).length, (replies k).success = true) :
    ∃ b₀, (b₀ = b ∨ b₀ = .start) ∧ (storageLoop replies l pkt b).2 = (b₀.fail, false) := by
  induction l generalizing pkt b replies with
  | nil => exact absurd (by simp [readyIn]) hno
  | cons r l ih =>
    obtain ⟨hr, hl⟩ := List.nodup_cons.mp hl
    rw [storageLoop]
    by_cases hready : (pkt r).state = .ready
    · have hcons : readyIn pkt (r :: l) = r :: readyIn pkt l := by
        simp [readyIn, hready]
      rw [hcons] at hno
      rw [if_pos hready, ← Prod.mk.eta (p := post (pkt r) (replies 0)),
        (post_of_ready hready (replies 0)).1]
      cases hfirst : (replies 0).success with
      | false => exact ⟨b, Or.inl rfl, rfl⟩
      | true =>
        have hrest : ¬ ∀ k < (readyIn pkt l).length, (replies (k + 1)).success = true := by
          intro hrest
          refine hno fun k hk => ?_
          cases k with
          | zero => exact hfirst
          | succ k => exact hrest k (by simpa using hk)
        rw [← readyIn_update (q := { (post (pkt r) (replies 0)).1 with state := .done }) hr]
          at hrest
        obtain ⟨b₀, hb₀, hloop⟩ := ih (b := b.succeed) hl hrest
        refine ⟨b₀, Or.inr ?_, hloop⟩
        rcases hb₀ with rfl | rfl <;> rfl
    · have hcons : readyIn pkt (r :: l) = readyIn pkt l := by
        simp [readyIn, hready]
      rw [hcons] at hno
      rw [if_neg hready]
      exact ih hl hno

theorem storageMain_accepted (hok : p.AllAccepted) :
    storageMain b p = if p.ready = [] then b else .start := by
  have hloop := storageLoop_accepted (b := b) p.nodup hok
  rw [storageMain, hloop]
  rfl

/-- The delay changes at a failing post and `tick` does not. -/
theorem fail_out_of_step (h : b.tick = storageTick * b.delay.toNat) :
    b.fail.tick ≠ storageTick * b.fail.delay.toNat := by
  obtain ⟨delay, tick⟩ := b
  obtain rfl : tick = storageTick * delay.toNat := h
  revert delay
  decide

theorem Backoff.Kept.of_start (p : Pass) : Backoff.start.Kept p :=
  ⟨Or.inl rfl, fun _ _ => rfl, rfl⟩

/-! ## All passes -/

theorem run_accepted (hok : ∀ p ∈ passes, p.AllAccepted) :
    run storageMain .start passes = .start := by
  induction passes with
  | nil => rfl
  | cons p passes ih =>
    obtain ⟨hp, hrest⟩ := List.forall_mem_cons.mp hok
    rw [run_cons, storageMain_accepted hp, ite_self]
    exact ih hrest

/-- After every pass the delay is 1, 2 or 4, is 1 after a success and agrees with the tick
exactly in the runs without a failing post. -/
theorem backoff_kept_iff (passes : List Pass) :
    (∀ before p, before ++ [p] <+: passes →
      (run storageMain .start (before ++ [p])).Kept p) ↔ ∀ p ∈ passes, p.AllAccepted := by
  constructor
  · intro hkept
    induction passes using List.reverseRecOn with
    | nil => exact List.forall_mem_nil _
    | append_singleton before p ih =>
      have hbefore : ∀ q ∈ before, q.AllAccepted :=
        ih fun before' q hpre => hkept before' q (hpre.trans (List.prefix_append _ _))
      refine List.forall_mem_append.mpr ⟨hbefore, List.forall_mem_singleton.mpr ?_⟩
      by_contra hno
      have hlast := hkept before p List.prefix_rfl
      obtain ⟨b₀, hb₀, hloop⟩ := storageLoop_refused (b := .start) p.nodup hno
      have hmain : run storageMain .start (before ++ [p]) = b₀.fail := by
        rw [run_concat, run_accepted hbefore, storageMain, hloop]
      rw [hmain] at hlast
      rcases hb₀ with rfl | rfl
      · exact fail_out_of_step rfl hlast.tick
      · exact fail_out_of_step rfl hlast.tick
  · intro hok before p hpre
    have hall : ∀ q ∈ before ++ [p], q.AllAccepted := fun q hq => hok q (hpre.subset hq)
    rw [run_accepted hall]
    exact .of_start p

/-- One packet in every list, and a server that does not answer. -/
def refusedPass : Pass where
  list := [0]
  nodup := by decide
  pkt _ := { packetAlloc .metric with state := .ready }
  replies _ := ⟨[], false, 0⟩

/-- After one failing pass the routine still waits for a single tick, and after three the
delay is 0. -/
theorem backoff_lost :
    run storageMain .start [refusedPass] = ⟨2, 21⟩ ∧
      run storageMain .start [refusedPass, refusedPass, refusedPass] = ⟨0, 21⟩ := by
  decide

end MonitoringAgent
