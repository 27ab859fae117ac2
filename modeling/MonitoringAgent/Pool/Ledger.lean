import MonitoringAgent.Pool.Push
import MonitoringAgent.Pool.Safety
import Mathlib.Data.List.Perm.Basic

/-!
# No record is lost

The calls of all plugins are kept in a ledger beside the pool, with the uses of packets
that are over. Whatever the interleaving, each call is part of one use, and a use with
records is over only after its packet was accepted.
-/
namespace MonitoringAgent

open Buffer Command Transition Packet

variable {ι : Type}

/-- What `W` takes from the present uses of the packets below `count`. -/
def below {α : Type} (W : Use ι → List α) (count : Nat) (use : Nat → Use ι) : List α :=
  (List.range count).flatMap fun r => W (use r)

def Traced.calls (t : Traced ι) : List (ι × GatherCall) := below Use.calls t.pool.count t.use

/-- The use that ends with an action: `get_packet` takes a DONE packet. -/
def Traced.ended (t : Traced ι) : PoolAct ι → Option (Use ι)
  | .plugin i =>
    match t.pool.pc i with
    | .scanCas _ r => if (t.pool.pkt r).state = .done then some (t.use r) else none
    | _ => none
  | .call _ _ | .pass | .storage _ => none

/-- The call that begins on a packet with an action. -/
def Traced.begun (t : Traced ι) : PoolAct ι → Option (ι × GatherCall)
  | .plugin i =>
    match t.pool.pc i with
    | .loadWorking c => (t.pool.working i).map fun _ => (i, c)
    | _ => none
  | .call _ _ | .pass | .storage _ => none

/-- The packet and its use after a post that returns 0. -/
def Traced.delivered (t : Traced ι) : PoolAct ι → Option (Packet × Use ι)
  | .storage reply =>
    match t.pool.storage with
    | .send r =>
      if (transfer (t.pool.pkt r) reply).2 then some (t.pool.pkt r, (t.use r).posted) else none
    | _ => none
  | .call _ _ | .plugin _ | .pass => none

/-- What a step does to the histories: the use that ends with it, the call that begins, and
the post that is accepted. -/
inductive Histories (t t' : Traced ι) :
    Option (Use ι) → Option (ι × GatherCall) → Option (Packet × Use ι) → Prop where
  | same (hcount : t'.pool.count = t.pool.count) (huse : t'.use = t.use) :
      Histories t t' none none none
  | taken (i : ι) (r : Nat) (hdone : (t.pool.pkt r).state = .done)
      (hcount : t'.pool.count = t.pool.count)
      (huse : t'.use = Function.update t.use r (.begun i ((t.pool.pkt r).recycle .metric))) :
      Histories t t' (some (t.use r)) none none
  | fresh (i : ι) (hcount : t'.pool.count = t.pool.count + 1)
      (huse : t'.use = Function.update t.use t.pool.count (.begun i (packetAlloc .metric))) :
      Histories t t' none none none
  | called (i : ι) (r : Nat) (c : GatherCall) (hrest : t.pool.hold i = .rest r)
      (hcount : t'.pool.count = t.pool.count)
      (huse : t'.use = Function.update t.use r ((t.use r).called i c)) :
      Histories t t' none (some (i, c)) none
  | noted (i : ι) (r : Nat) (o : PacketOp) (hfills : t.pool.Fills i r)
      (hcount : t'.pool.count = t.pool.count)
      (huse : t'.use = Function.update t.use r ((t.use r).noted ((t.pool.pkt r).next o) o)) :
      Histories t t' none none none
  | posted (r : Nat) (hsend : t.pool.storage = .send r) (hcount : t'.pool.count = t.pool.count)
      (huse : t'.use = Function.update t.use r (t.use r).posted) :
      Histories t t' none none (some (t.pool.pkt r, (t.use r).posted))

/-- The pool with its histories, the uses that are over, and all calls in their order. -/
structure Ledger (ι : Type) where
  traced : Traced ι
  past : List (Use ι)
  made : List (ι × GatherCall)

def Ledger.start : Ledger ι := ⟨Traced.start, [], []⟩

/-- The records in packets that a post of the storage thread was accepted for. -/
def Ledger.accepted (x : Ledger ι) : List Record :=
  (x.past.filter (·.posts = 1)).flatMap Use.records ++
    ((List.range x.traced.pool.count).filter fun r => (x.traced.use r).posts = 1).flatMap
      fun r => (x.traced.use r).records

/-- The records in packets that have not been accepted yet. -/
def Ledger.pending (x : Ledger ι) : List Record :=
  ((List.range x.traced.pool.count).filter fun r => (x.traced.use r).posts = 0).flatMap
    fun r => (x.traced.use r).records

variable [DecidableEq ι]

def ledgerStep (license : Text) (tid : ι → UInt64) (x : Ledger ι) (act : PoolAct ι) : Ledger ι where
  traced := tracedStep license tid x.traced act
  past := (x.traced.ended act).toList ++ x.past
  made := x.made ++ (x.traced.begun act).toList

variable {m : Meta} {license : Text} {tid : ι → UInt64} {t : Traced ι} {i : ι} {r : Nat}

/-! ## One step -/

theorem flatMap_update {α β : Type} [DecidableEq α] {l : List α} {f : α → List β} {a : α}
    (ha : a ∈ l) (hnodup : l.Nodup) (xs : List β) :
    (f a ++ l.flatMap (Function.update f a xs)).Perm (xs ++ l.flatMap f) := by
  obtain ⟨l₁, l₂, rfl⟩ := List.append_of_mem ha
  have hsame (l' : List α) (h : a ∉ l') : l'.flatMap (Function.update f a xs) = l'.flatMap f :=
    List.flatMap_congr fun b hb => Function.update_of_ne (ne_of_mem_of_not_mem hb h) _ _
  obtain ⟨-, hnodup₂, hdisj⟩ := List.nodup_append.mp hnodup
  have h₁ : a ∉ l₁ := fun h => hdisj a h a List.mem_cons_self rfl
  have h₂ : a ∉ l₂ := (List.nodup_cons.mp hnodup₂).1
  simp only [List.flatMap_append, List.flatMap_cons, hsame l₁ h₁, hsame l₂ h₂, Function.update_self]
  classical
  refine List.perm_iff_count.mpr fun x => ?_
  simp only [List.count_append]
  omega

theorem pluginStep_count (license : Text) (tid : ι → UInt64) (s : Pool ι) (i : ι) :
    (pluginStep license tid s i).count =
      match s.pc i with
      | .alloc _ => s.count + 1
      | _ => s.count := by
  simp only [pluginStep]
  cases s.pc i with
  | scanCas c r | casHead c r | loadLock c r | acquire c r k | loadWorking c =>
    dsimp only
    split <;> rfl
  | body r prog => cases prog <;> rfl
  | _ => rfl

section below

omit [DecidableEq ι]

variable {α : Type} (W : Use ι → List α) {count : Nat} {u : Use ι}

theorem below_update (use : Nat → Use ι) (hr : r < count) (u : Use ι) :
    (W (use r) ++ below W count (Function.update use r u)).Perm (W u ++ below W count use) := by
  have hcomp : (fun r' => W (Function.update use r u r')) =
      Function.update (fun r' => W (use r')) r (W u) :=
    Function.comp_update W use r u
  rw [below, below, hcomp]
  exact flatMap_update (f := fun r' => W (use r')) (List.mem_range.mpr hr) List.nodup_range (W u)

/-- A new packet of whose use `W` takes nothing. -/
theorem below_succ (use : Nat → Use ι) (hu : W u = []) :
    below W (count + 1) (Function.update use count u) = below W count use := by
  have hsame : ∀ r ∈ List.range count, W (Function.update use count u r) = W (use r) :=
    fun r hr => by rw [Function.update_of_ne (List.mem_range.mp hr).ne]
  rw [below, List.range_succ, List.flatMap_append, List.flatMap_congr hsame]
  simp [below, hu]

theorem below_same {use : Nat → Use ι} (hu : W u = W (use r)) :
    below W count (Function.update use r u) = below W count use := by
  refine List.flatMap_congr fun r' _ => ?_
  refine update_holds (P := fun u' => W u' = W (use r')) (fun he => ?_) fun _ => rfl
  rw [he, hu]

end below

omit [DecidableEq ι] in
theorem Use.calls_noted (u : Use ι) (pkt : Packet) (o : PacketOp) :
    (u.noted pkt o).calls = u.calls := by
  unfold Use.noted
  split <;> rfl

omit [DecidableEq ι] in
theorem PoolInv.lt_of_done (h : PoolInv m tid t) (hdone : (t.pool.pkt r).state = .done) :
    r < t.pool.count :=
  h.view.alloc r ((h.view.cell r).done hdone).1

omit [DecidableEq ι] in
theorem PoolInv.lt_of_ready (h : PoolInv m tid t) (hready : (t.pool.pkt r).state = .ready) :
    r < t.pool.count := by
  obtain ⟨⟨i, hmade⟩, -⟩ := (h.view.cell r).ready hready
  refine h.view.alloc r ?_
  rw [hmade.owner]
  exact Option.some_ne_none i

omit [DecidableEq ι] in
theorem PoolInv.held (h : PoolInv m tid t) (hi : (t.pool.hold i).cell = some r) :
    Held m tid i (t.pool.pkt r) (t.use r) (t.pool.hold i) :=
  h.view.held i r hi

omit [DecidableEq ι] in
theorem PoolInv.held_rest (h : PoolInv m tid t) (hrest : t.pool.hold i = .rest r) :
    Held m tid i (t.pool.pkt r) (t.use r) (.rest r) :=
  hrest ▸ h.held (congrArg Hold.cell hrest)

omit [DecidableEq ι] in
theorem PoolInv.lt_of_hold (h : PoolInv m tid t) (hold : t.pool.hold i = .rest r) :
    r < t.pool.count := by
  have hheld := h.view.held i r (congrArg Hold.cell hold)
  refine h.view.alloc r ?_
  rw [hheld.owner]
  exact Option.some_ne_none i

theorem histories_plugin (license : Text) (tid : ι → UInt64) (t : Traced ι) (i : ι) :
    Histories t (tracedStep license tid t (.plugin i)) (t.ended (.plugin i))
      (t.begun (.plugin i)) none := by
  have hcount : (tracedStep license tid t (.plugin i)).pool.count = _ :=
    pluginStep_count license tid t.pool i
  have huse : (tracedStep license tid t (.plugin i)).use = t.note (.plugin i) := rfl
  simp only [Traced.note] at huse
  simp only [Traced.ended, Traced.begun]
  cases hpc : t.pool.pc i with
  | scanCas c r =>
    simp only [hpc] at hcount huse
    dsimp only
    split at huse
    · rename_i hdone
      rw [if_pos hdone]
      exact .taken i r hdone hcount huse
    · rename_i hdone
      rw [if_neg hdone]
      exact .same hcount huse
  | alloc c =>
    simp only [hpc] at hcount huse
    exact .fresh i hcount huse
  | loadWorking c =>
    simp only [hpc] at hcount huse
    cases hw : t.pool.working i with
    | none =>
      rw [hw] at huse
      exact .same hcount huse
    | some r =>
      rw [hw] at huse
      have hrest : t.pool.hold i = .rest r := by rw [Pool.hold, hpc, hw]; rfl
      exact .called i r c hrest hcount huse
  | body r prog =>
    cases prog with
    | ret a =>
      simp only [hpc] at hcount huse
      exact .same hcount huse
    | op o k =>
      simp only [hpc] at hcount huse
      have hfills : t.pool.Fills i r := by rw [Pool.Fills, Pool.hold, hpc]; rfl
      exact .noted i r o hfills hcount huse
  | _ =>
    simp only [hpc] at hcount huse
    exact .same hcount huse

theorem histories_storage (license : Text) (tid : ι → UInt64) (t : Traced ι) (reply : Reply) :
    Histories t (tracedStep license tid t (.storage reply)) none none
      (t.delivered (.storage reply)) := by
  have hcount : (tracedStep license tid t (.storage reply)).pool.count = t.pool.count :=
    (sameList_storage t.pool reply).count
  have huse : (tracedStep license tid t (.storage reply)).use = t.note (.storage reply) := rfl
  simp only [Traced.note] at huse
  simp only [Traced.delivered]
  cases hst : t.pool.storage with
  | send r =>
    simp only [hst] at huse
    dsimp only
    split at huse
    · rename_i hok
      rw [if_pos hok]
      exact .posted r hst hcount huse
    · rename_i hok
      rw [if_neg hok]
      exact .same hcount huse
  | _ =>
    simp only [hst] at huse
    exact .same hcount huse

theorem histories_step (license : Text) (tid : ι → UInt64) (t : Traced ι) (act : PoolAct ι) :
    Histories t (tracedStep license tid t act) (t.ended act) (t.begun act) (t.delivered act) := by
  cases act with
  | call i c =>
    refine .same ?_ rfl
    simp only [tracedStep, poolStep]
    split <;> rfl
  | pass =>
    refine .same ?_ rfl
    simp only [tracedStep, poolStep]
    split <;> rfl
  | plugin i => exact histories_plugin license tid t i
  | storage reply => exact histories_storage license tid t reply

omit [DecidableEq ι] in
/-- A step adds the call that it begins and takes away those of the use that it ends. -/
theorem Histories.calls {t' : Traced ι} {e : Option (Use ι)} {b : Option (ι × GatherCall)}
    {d : Option (Packet × Use ι)} (hstep : Histories t t' e b d) (h : PoolInv m tid t) :
    (t.calls ++ b.toList).Perm (e.toList.flatMap Use.calls ++ t'.calls) := by
  unfold Traced.calls
  cases hstep with
  | same hcount huse => simp [hcount, huse]
  | taken i r hdone hcount huse =>
    let u : Use ι := .begun i ((t.pool.pkt r).recycle .metric)
    have hcalls := below_update Use.calls t.use (h.lt_of_done hdone) u
    simpa [hcount, huse, u, Use.begun] using hcalls.symm
  | fresh i hcount huse =>
    simp [hcount, huse, below_succ Use.calls t.use (rfl : (Use.begun i _).calls = [])]
  | called i r c hrest hcount huse =>
    have hcalls := below_update Use.calls t.use (h.lt_of_hold hrest) ((t.use r).called i c)
    rw [Use.called, List.append_assoc, List.perm_append_left_iff] at hcalls
    simpa [hcount, huse, Use.called] using List.perm_append_comm.trans hcalls.symm
  | noted i r o hfills hcount huse =>
    simp [hcount, huse, below_same Use.calls (Use.calls_noted _ _ _)]
  | posted r hsend hcount huse =>
    have hcalls : (t.use r).posted.calls = (t.use r).calls := rfl
    simp [hcount, huse, below_same Use.calls hcalls]

/-! ## Runs -/

structure LedgerInv (m : Meta) (tid : ι → UInt64) (x : Ledger ι) : Prop where
  pool : PoolInv m tid x.traced
  calls : x.made.Perm (x.past.flatMap Use.calls ++ x.traced.calls)
  /-- A use is over only after its packet was accepted, or when it had no record. -/
  past : ∀ u ∈ x.past, u.posts = 1 ∨ u.records = []

omit [DecidableEq ι] in
theorem ledgerInv_start (m : Meta) (tid : ι → UInt64) :
    LedgerInv m tid (Ledger.start : Ledger ι) where
  pool := poolInv_start m tid
  calls := .refl _
  past := by simp [Ledger.start]

omit [DecidableEq ι] in
theorem PoolInv.ended_settled (h : PoolInv m tid t) {act : PoolAct ι} {u : Use ι}
    (hu : t.ended act = some u) : u.posts = 1 ∨ u.records = [] := by
  cases act with
  | plugin i =>
    simp only [Traced.ended] at hu
    split at hu
    · split at hu
      · rename_i r _ hdone
        obtain rfl := Option.some.inj hu
        exact ((h.view.cell r).done hdone).2
      · cases hu
    · cases hu
  | call i c | pass | storage reply => cases hu

theorem ledgerInv_step {x : Ledger ι} (h : LedgerInv m tid x) (act : PoolAct ι) :
    LedgerInv m tid (ledgerStep m.license tid x act) where
  pool := poolInv_step h.pool act
  calls := by
    let b := (x.traced.begun act).toList
    let e := (x.traced.ended act).toList.flatMap Use.calls
    let p := x.past.flatMap Use.calls
    let c := (tracedStep m.license tid x.traced act).calls
    have hmade : (x.made ++ b).Perm (p ++ (x.traced.calls ++ b)) := by
      rw [← List.append_assoc]
      exact h.calls.append_right b
    have hstep : (p ++ (x.traced.calls ++ b)).Perm (p ++ (e ++ c)) :=
      ((histories_step m.license tid x.traced act).calls h.pool).append_left p
    have hpast : (p ++ (e ++ c)).Perm (e ++ p ++ c) := by
      rw [← List.append_assoc]
      exact List.perm_append_comm.append_right c
    simpa [ledgerStep] using hmade.trans (hstep.trans hpast)
  past := by
    intro u hu
    rcases List.mem_append.mp hu with hended | hpast
    · exact h.pool.ended_settled (Option.mem_toList.mp hended)
    · exact h.past u hpast

omit [DecidableEq ι] in
theorem records_flatMap {α : Type} (l : List α) (calls : α → List (ι × GatherCall)) :
    recordsOf ((l.flatMap calls).map Prod.snd) =
      l.flatMap fun a => recordsOf ((calls a).map Prod.snd) := by
  induction l with
  | nil => rfl
  | cons a l ih =>
    rw [List.flatMap_cons, List.map_append, recordsOf, List.filterMap_append, ← recordsOf,
      ← recordsOf, ih, List.flatMap_cons]

omit [DecidableEq ι] in
/-- The records of what was accepted and of what was not. -/
theorem records_split {l : List Nat} {use : Nat → Use ι} (honce : ∀ r ∈ l, (use r).posts ≤ 1) :
    (l.flatMap fun r => (use r).records).Perm
      ((l.filter fun r => (use r).posts = 1).flatMap (fun r => (use r).records) ++
        (l.filter fun r => (use r).posts = 0).flatMap fun r => (use r).records) := by
  have hfilter : (l.filter fun r => !decide ((use r).posts = 1)) =
      l.filter fun r => (use r).posts = 0 := by
    refine List.filter_congr fun r hr => ?_
    have hr := honce r hr
    rw [Bool.eq_iff_iff]
    simp
    omega
  rw [← List.flatMap_append, ← hfilter]
  exact (List.filter_append_perm _ l).symm.flatMap_right _

omit [DecidableEq ι] in
/-- A use that is over and was not accepted has no record. -/
theorem records_past {past : List (Use ι)} (h : ∀ u ∈ past, u.posts = 1 ∨ u.records = []) :
    (past.filter (·.posts = 1)).flatMap Use.records = past.flatMap Use.records := by
  induction past with
  | nil => rfl
  | cons u past ih =>
    have ih := ih fun v hv => h v (List.mem_cons_of_mem u hv)
    rcases h u List.mem_cons_self with hposts | hrecords
    · simp [hposts, ih]
    · rw [List.flatMap_cons, hrecords, List.nil_append, ← ih, List.filter_cons]
      split
      · rw [List.flatMap_cons, hrecords, List.nil_append]
      · rfl

omit [DecidableEq ι] in
theorem LedgerInv.records {x : Ledger ι} (h : LedgerInv m tid x) :
    (recordsOf (x.made.map Prod.snd)).Perm (x.accepted ++ x.pending) := by
  have hmade : (recordsOf (x.made.map Prod.snd)).Perm
      (x.past.flatMap Use.records ++
        (List.range x.traced.pool.count).flatMap fun r => (x.traced.use r).records) := by
    refine ((h.calls.map Prod.snd).filterMap GatherCall.record?).trans ?_
    rw [← recordsOf, List.map_append, recordsOf, List.filterMap_append, ← recordsOf, ← recordsOf,
      records_flatMap, Traced.calls, below, records_flatMap]
    exact .refl _
  refine hmade.trans ?_
  rw [← records_past h.past, Ledger.accepted, Ledger.pending, List.append_assoc]
  exact (records_split fun r _ => (h.pool.view.cell r).once).append_left _

end MonitoringAgent
