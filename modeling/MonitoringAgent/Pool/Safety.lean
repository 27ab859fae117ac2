import MonitoringAgent.Pool.Model
import MonitoringAgent.Pool.Ownership

/-!
# Packets are never shared

Every step of the threads is a move of the packets, or none at all; so in every
interleaving a packet is filled by one plugin, frozen while READY, and used again only
after it was posted or when it had no record.
-/
namespace MonitoringAgent

open Buffer Command Transition Packet

variable {ι : Type}

/-- What a plugin thread holds, given `p->working`. At `clearWorking` the packet is given up
although `p->working` still points to it. -/
def PluginPc.hold (w : Option Nat) : PluginPc → Hold
  | idle | readWorking _ | loadWorking _ =>
    match w with
    | some r => .rest r
    | none => .none
  | scanHead _ | scanCas _ _ | scanNext _ _ | alloc _ | clearWorking => .none
  | recycle _ r => .taken r
  | storeSpin _ r | testHead _ r | casHead _ r | loadLock _ r | acquire _ r _ | linkLoad _ r _
  | linkStore _ r _ _ | storeHead _ r _ | release _ r _ | setWorking _ r => .rest r
  | body r prog => .busy r prog

def StoragePc.posting : StoragePc → Posting
  | attempt r | fetchLock r | fetchState r | fetchUnlock r true | send r => .trying r
  | markDone r => .accepted r
  | idle | loadHead | check _ | fetchUnlock _ false | next _ => .idle

namespace Pool

def hold (s : Pool ι) (i : ι) : Hold := (s.pc i).hold (s.working i)

/-- Plugin `i` is filling packet `r`. -/
def Fills (s : Pool ι) (i : ι) (r : Nat) : Prop := (s.hold i).cell = some r

end Pool

/-- The pool with the history of each packet since `get_packet` last chose it. -/
structure Traced (ι : Type) where
  pool : Pool ι
  use : Nat → Use ι

namespace Traced

def start : Traced ι := ⟨Pool.start, fun _ => Use.unused⟩

def view (t : Traced ι) : View ι where
  pkt := t.pool.pkt
  count := t.pool.count
  hold := t.pool.hold
  posting := t.pool.storage.posting
  use := t.use

/-- What a step adds to the histories. -/
def note (t : Traced ι) : PoolAct ι → Nat → Use ι
  | .plugin i =>
    match t.pool.pc i with
    | .scanCas _ r =>
      if (t.pool.pkt r).state = .done then
        Function.update t.use r (.begun i ((t.pool.pkt r).recycle .metric))
      else t.use
    | .alloc _ => Function.update t.use t.pool.count (.begun i (packetAlloc .metric))
    | .loadWorking c =>
      match t.pool.working i with
      | some r => Function.update t.use r ((t.use r).called i c)
      | none => t.use
    | .body r (.op o _) =>
      Function.update t.use r ((t.use r).noted ((t.pool.pkt r).next o) o)
    | _ => t.use
  | .storage reply =>
    match t.pool.storage with
    | .send r =>
      if (transfer (t.pool.pkt r) reply).2 then Function.update t.use r (t.use r).posted
      else t.use
    | _ => t.use
  | .call _ _ | .pass => t.use

end Traced

variable {m : Meta} {license : Text} {tid : ι → UInt64} {s s' : Pool ι} {t : Traced ι} {i : ι}
  {r : Nat} {w : Option Nat}

/-! ## The view of an updated pool -/

namespace Pool

/-- The same but for the list and its locks. -/
structure Alike (s s' : Pool ι) : Prop where
  pkt : s'.pkt = s.pkt
  count : s'.count = s.count
  pc : s'.pc = s.pc
  working : s'.working = s.working
  storage : s'.storage = s.storage

theorem Alike.refl (s : Pool ι) : s.Alike s := ⟨rfl, rfl, rfl, rfl, rfl⟩

theorem alike_setSpin (s : Pool ι) (r : Nat) (spin : Bool) : s.Alike (s.setSpin r spin) :=
  ⟨pkt_setSpin spin, rfl, rfl, rfl, rfl⟩

theorem alike_setNext (s : Pool ι) (r : Nat) (next : Option Nat) : s.Alike (s.setNext r next) :=
  ⟨pkt_setNext next, rfl, rfl, rfl, rfl⟩

theorem alike_head (s : Pool ι) (head : Option Nat) : s.Alike { s with head := head } :=
  ⟨rfl, rfl, rfl, rfl, rfl⟩

end Pool

variable [DecidableEq ι]

def tracedStep (license : Text) (tid : ι → UInt64) (t : Traced ι) (act : PoolAct ι) : Traced ι where
  pool := poolStep license tid t.pool act
  use := t.note act

/-- The histories change nothing in the pool. -/
theorem pool_run_tracedStep (acts : List (PoolAct ι)) :
    (run (tracedStep license tid) t acts).pool = run (poolStep license tid) t.pool acts := by
  induction acts generalizing t with
  | nil => rfl
  | cons act acts ih => exact ih

theorem Pool.hold_setPc (pc : PluginPc) :
    (s.setPc i pc).hold = Function.update s.hold i (pc.hold (s.working i)) := by
  funext j
  by_cases h : j = i
  · subst h
    simp [hold, setPc]
  · simp [hold, setPc, h]

theorem Pool.hold_setWorking (pc : PluginPc) :
    ((s.setWorking i w).setPc i pc).hold = Function.update s.hold i (pc.hold w) := by
  funext j
  by_cases h : j = i
  · subst h
    simp [hold, setPc, setWorking]
  · simp [hold, setPc, setWorking, h]

/-- A step of a plugin that moves nothing. -/
theorem move_quiet {s' : Pool ι} (h : t.pool.Alike s') (pc : PluginPc)
    (hhold : pc.hold (t.pool.working i) = t.pool.hold i) :
    Move license tid t.view (Traced.view ⟨s'.setPc i pc, t.use⟩) := by
  have hview : Traced.view ⟨s'.setPc i pc, t.use⟩ = t.view := by
    refine View.ext h.pkt h.count ?_ (congrArg StoragePc.posting h.storage) rfl
    change (s'.setPc i pc).hold = t.pool.hold
    rw [Pool.hold_setPc, h.working, hhold]
    have hsame : s'.hold = t.pool.hold := by
      funext j
      rw [Pool.hold, Pool.hold, h.pc, h.working]
    rw [hsame, Function.update_eq_self]
  rw [hview]
  exact .quiet _

/-- The same for a store to `p->working`. -/
theorem move_working (pc : PluginPc) (hhold : pc.hold w = t.pool.hold i) :
    Move license tid t.view (Traced.view ⟨(t.pool.setWorking i w).setPc i pc, t.use⟩) := by
  have hview : Traced.view ⟨(t.pool.setWorking i w).setPc i pc, t.use⟩ = t.view := by
    refine View.ext rfl rfl ?_ rfl rfl
    change ((t.pool.setWorking i w).setPc i pc).hold = t.pool.hold
    rw [Pool.hold_setWorking, hhold, Function.update_eq_self]
  rw [hview]
  exact .quiet _

/-- The view after a step of plugin `i` on packet `r`. -/
theorem view_set {s' : Pool ι} {use : Nat → Use ι} {pkt : Packet} {u : Use ι}
    (hpkt : s'.pkt = Function.update t.pool.pkt r pkt) (hpc : s'.pc = t.pool.pc)
    (hw : s'.working = t.pool.working) (hst : s'.storage = t.pool.storage)
    (huse : use = Function.update t.use r u) (pc : PluginPc) :
    Traced.view ⟨s'.setPc i pc, use⟩ =
      t.view.set i r pkt u (pc.hold (t.pool.working i)) s'.count := by
  refine View.ext hpkt rfl ?_ (congrArg StoragePc.posting hst) huse
  change (s'.setPc i pc).hold = Function.update t.pool.hold i _
  have hsame : s'.hold = t.pool.hold := by
    funext j
    rw [Pool.hold, Pool.hold, hpc, hw]
  rw [Pool.hold_setPc, hw, hsame]

/-! ## Steps of a plugin -/

/-- In the middle of a call the packet is the one `p->working` points to. -/
def Pool.Tied (s : Pool ι) : Prop := ∀ i r prog, s.pc i = .body r prog → s.working i = some r

theorem hold_resume (r : Nat) (prog : PacketM (GatherError × Bool)) :
    (PluginPc.resume r prog).hold (some r) = Hold.after r prog := by
  cases prog with
  | ret a =>
    obtain ⟨res, retired⟩ := a
    cases retired <;> rfl
  | op o k => rfl

theorem resume_eq_body {r r' : Nat} {prog prog' : PacketM (GatherError × Bool)}
    (h : PluginPc.resume r prog = .body r' prog') : r' = r := by
  unfold PluginPc.resume at h
  split at h
  · exact absurd h nofun
  · exact absurd h nofun
  · exact (PluginPc.body.inj h).1.symm

theorem Pool.Tied.setPc (h : s.Tied) {s' : Pool ι} {pc : PluginPc}
    (hpc : s'.pc = Function.update s.pc i pc) (hw : ∀ j, j ≠ i → s'.working j = s.working j)
    (hbody : ∀ r prog, pc = .body r prog → s'.working i = some r) : s'.Tied := by
  intro j r prog hj
  rw [hpc] at hj
  by_cases hji : j = i
  · subst hji
    rw [Function.update_self] at hj
    exact hbody r prog hj
  · rw [Function.update_of_ne hji] at hj
    rw [hw j hji]
    exact h j r prog hj

theorem tied_plugin (h : s.Tied) (i : ι) : (pluginStep license tid s i).Tied := by
  have hsame : ∀ j, j ≠ i → s.working j = s.working j := fun _ _ => rfl
  have hset (w : Option Nat) : ∀ j, j ≠ i → (s.setWorking i w).working j = s.working j :=
    fun _ hne => Function.update_of_ne hne _ _
  simp only [pluginStep]
  cases hpc : s.pc i with
  | idle => exact h
  | readWorking c | scanHead c | scanCas c r | scanNext c r | testHead c r | casHead c r =>
    dsimp only
    split <;> exact h.setPc rfl hsame nofun
  | recycle c r | storeSpin c r | alloc c | linkLoad c r l | linkStore c r l n | storeHead c r l
  | release c r l => exact h.setPc rfl hsame nofun
  | loadLock c r =>
    cases s.head with
    | none => exact h
    | some l => exact h.setPc rfl hsame nofun
  | acquire c r l =>
    dsimp only
    split
    · exact h
    · exact h.setPc rfl hsame nofun
  | setWorking c r => exact h.setPc rfl (hset _) nofun
  | clearWorking => exact h.setPc rfl (hset _) nofun
  | loadWorking c =>
    cases hw : s.working i with
    | none => exact h
    | some r =>
      refine h.setPc rfl hsame fun r' prog hbody => ?_
      obtain ⟨rfl, -⟩ := PluginPc.body.inj hbody
      exact hw
  | body r prog =>
    have hw := h i r prog hpc
    cases prog with
    | ret a =>
      refine h.setPc rfl hsame fun r' prog' hbody => ?_
      rw [resume_eq_body hbody]
      exact hw
    | op o k =>
      refine h.setPc rfl hsame fun r' prog' hbody => ?_
      rw [resume_eq_body hbody]
      exact hw

theorem move_plugin (hs : t.pool.Tied) (i : ι) :
    Move license tid t.view (tracedStep license tid t (.plugin i)).view := by
  have hhold {pc : PluginPc} (hpc : t.pool.pc i = pc) :
      t.pool.hold i = pc.hold (t.pool.working i) := by rw [Pool.hold, hpc]
  simp only [tracedStep, poolStep, pluginStep, Traced.note]
  cases hpc : t.pool.pc i with
  | idle => exact .quiet _
  | readWorking c =>
    refine move_quiet (.refl _) _ ?_
    rw [hhold hpc]
    cases t.pool.working i <;> rfl
  | scanHead c =>
    refine move_quiet (.refl _) _ ?_
    rw [hhold hpc]
    cases t.pool.head <;> rfl
  | scanCas c r =>
    by_cases hst : (t.pool.pkt r).state = .done
    · simp only [if_pos hst]
      have hst' : (t.pool.heap r).pkt.state = .done := hst
      rw [if_pos hst', view_set (Pool.pkt_setPkt _) rfl rfl rfl rfl]
      exact .take t.view i r (hhold hpc) hst
    · simp only [if_neg hst]
      have hst' : ¬ (t.pool.heap r).pkt.state = .done := hst
      rw [if_neg hst']
      exact move_quiet (.refl _) _ (hhold hpc).symm
  | scanNext c r =>
    refine move_quiet (.refl _) _ ?_
    rw [hhold hpc]
    cases (t.pool.heap r).next <;> rfl
  | recycle c r =>
    dsimp only
    rw [view_set (Pool.pkt_setPkt _) rfl rfl rfl (Function.update_eq_self r t.use).symm]
    exact .reset t.view i r (hhold hpc)
  | storeSpin c r =>
    exact move_quiet (Pool.alike_setSpin _ _ _) _ (hhold hpc).symm
  | alloc c =>
    dsimp only
    have hpkt : Pool.pkt { t.pool.setCell t.pool.count ⟨packetAlloc .metric, false, none⟩ with
        count := t.pool.count + 1 } =
      Function.update t.pool.pkt t.pool.count (packetAlloc .metric) := Pool.pkt_setCell _
    rw [view_set hpkt rfl rfl rfl rfl]
    exact .fresh t.view i (hhold hpc)
  | testHead c r =>
    refine move_quiet (.refl _) _ ?_
    rw [hhold hpc]
    cases t.pool.head <;> rfl
  | casHead c r =>
    dsimp only
    cases t.pool.head with
    | none => exact move_quiet (Pool.alike_head _ _) _ (hhold hpc).symm
    | some h => exact move_quiet (.refl _) _ (hhold hpc).symm
  | loadLock c r =>
    dsimp only
    cases t.pool.head with
    | none => exact .quiet _
    | some l => exact move_quiet (.refl _) _ (hhold hpc).symm
  | acquire c r l =>
    dsimp only
    split
    · exact .quiet _
    · exact move_quiet (Pool.alike_setSpin _ _ _) _ (hhold hpc).symm
  | linkLoad c r l =>
    exact move_quiet (.refl _) _ (hhold hpc).symm
  | linkStore c r l h =>
    exact move_quiet (Pool.alike_setNext _ _ _) _ (hhold hpc).symm
  | storeHead c r l =>
    exact move_quiet (Pool.alike_head _ _) _ (hhold hpc).symm
  | release c r l =>
    exact move_quiet (Pool.alike_setSpin _ _ _) _ (hhold hpc).symm
  | setWorking c r =>
    exact move_working _ (hhold hpc).symm
  | loadWorking c =>
    dsimp only
    cases hw : t.pool.working i with
    | none => exact .quiet _
    | some r =>
      dsimp only
      rw [view_set (Function.update_eq_self r t.pool.pkt).symm rfl rfl rfl rfl]
      have hrest := hhold hpc
      rw [hw] at hrest
      exact .call t.view i r c hrest
  | body r prog =>
    have hw := hs i r prog hpc
    cases prog with
    | ret a =>
      dsimp only
      rw [view_set (Function.update_eq_self r t.pool.pkt).symm rfl rfl rfl
        (Function.update_eq_self r t.use).symm, hw, hold_resume]
      exact .leave t.view i r a (hhold hpc)
    | op o k =>
      dsimp only
      rw [view_set (Pool.pkt_setPkt _) rfl rfl rfl rfl, hw, hold_resume]
      exact .op t.view i r o k (hhold hpc)
  | clearWorking =>
    exact move_working _ (hhold hpc).symm

/-! ## Steps of the storage thread -/

/-- A step of the storage thread that moves nothing. -/
theorem move_pass {s' : Pool ι} (h : t.pool.Alike s') (st : StoragePc)
    (hst : st.posting = t.pool.storage.posting) :
    Move license tid t.view (Traced.view ⟨{ s' with storage := st }, t.use⟩) := by
  have hview : Traced.view ⟨{ s' with storage := st }, t.use⟩ = t.view := by
    refine View.ext h.pkt h.count ?_ hst rfl
    funext j
    change (s'.pc j).hold (s'.working j) = (t.pool.pc j).hold (t.pool.working j)
    rw [h.pc, h.working]
  rw [hview]
  exact .quiet _

omit [DecidableEq ι] in
/-- The view after a step of the storage thread on packet `r`. -/
theorem view_post {use : Nat → Use ι} {pkt : Packet} {u : Use ι}
    (huse : use = Function.update t.use r u) (st : StoragePc) :
    Traced.view ⟨{ t.pool.setPkt r pkt with storage := st }, use⟩ =
      t.view.post r pkt u st.posting :=
  View.ext (Pool.pkt_setPkt pkt) rfl rfl rfl huse

theorem move_storage (t : Traced ι) (reply : Reply) :
    Move license tid t.view (tracedStep license tid t (.storage reply)).view := by
  simp only [tracedStep, poolStep, storageStep, Traced.note]
  cases hst : t.pool.storage with
  | idle => exact .quiet _
  | loadHead =>
    refine move_pass (.refl _) _ ?_
    rw [hst]
    cases t.pool.head <;> rfl
  | check r =>
    dsimp only
    by_cases hready : (t.pool.heap r).pkt.state = .ready
    · rw [if_pos hready]
      have hview : Traced.view ⟨{ t.pool with storage := .attempt r }, t.use⟩ =
          t.view.post r (t.view.pkt r) (t.view.use r) (.trying r) :=
        View.ext (Function.update_eq_self r _).symm rfl rfl rfl (Function.update_eq_self r _).symm
      rw [hview]
      refine .find t.view r ?_ hready
      change t.pool.storage.posting = .idle
      rw [hst]
      rfl
    · rw [if_neg hready]
      exact move_pass (.refl _) _ (by rw [hst]; rfl)
  | attempt r =>
    dsimp only
    rw [view_post (Function.update_eq_self r t.use).symm]
    exact .attempt t.view r (congrArg StoragePc.posting hst)
  | fetchLock r =>
    dsimp only
    split
    · exact .quiet _
    · exact move_pass (Pool.alike_setSpin _ _ _) _ (by rw [hst]; rfl)
  | fetchState r =>
    dsimp only
    by_cases hready : (t.pool.heap r).pkt.state = .ready
    · exact move_pass (.refl _) _ (by rw [hst]; simp [hready, StoragePc.posting])
    · have hview : Traced.view ⟨{ t.pool with storage := .fetchUnlock r false }, t.use⟩ =
          t.view.post r (t.view.pkt r) (t.view.use r) .idle :=
        View.ext (Function.update_eq_self r _).symm rfl rfl rfl (Function.update_eq_self r _).symm
      simp only [hready, decide_false]
      rw [hview]
      exact .abandon t.view r (congrArg StoragePc.posting hst)
  | fetchUnlock r ready =>
    refine move_pass (Pool.alike_setSpin _ _ _) _ ?_
    rw [hst]
    cases ready <;> rfl
  | send r =>
    dsimp only
    have htrying : t.view.posting = .trying r := congrArg StoragePc.posting hst
    cases hok : (transfer (t.pool.heap r).pkt reply).2 with
    | true =>
      have hok' : (transfer (t.pool.pkt r) reply).2 = true := hok
      rw [hok', if_pos rfl, if_pos rfl, view_post rfl]
      exact .accept t.view r _ htrying
    | false =>
      have hok' : (transfer (t.pool.pkt r) reply).2 = false := hok
      rw [hok', if_neg Bool.false_ne_true, if_neg Bool.false_ne_true,
        view_post (Function.update_eq_self r t.use).symm]
      exact .refuse t.view r _ htrying
  | markDone r =>
    dsimp only
    rw [view_post (Function.update_eq_self r t.use).symm]
    exact .finish t.view r (congrArg StoragePc.posting hst)
  | next r =>
    refine move_pass (.refl _) _ ?_
    rw [hst]
    cases (t.pool.heap r).next <;> rfl

/-! ## Runs -/

/-- Every step of a thread is a move. -/
theorem move_step (hs : t.pool.Tied) (act : PoolAct ι) :
    Move license tid t.view (tracedStep license tid t act).view := by
  cases act with
  | call i c =>
    simp only [tracedStep, poolStep, Traced.note]
    cases hpc : t.pool.pc i with
    | idle =>
      refine move_quiet (.refl _) _ ?_
      rw [Pool.hold, hpc]
      rfl
    | _ => exact .quiet _
  | plugin i => exact move_plugin hs i
  | pass =>
    simp only [tracedStep, poolStep, Traced.note]
    cases hst : t.pool.storage with
    | idle => exact move_pass (.refl _) _ (by rw [hst]; rfl)
    | _ => exact .quiet _
  | storage reply => exact move_storage t reply

theorem tied_step (h : s.Tied) (act : PoolAct ι) : (poolStep license tid s act).Tied := by
  cases act with
  | call i c =>
    simp only [poolStep]
    split
    · exact h.setPc rfl (fun _ _ => rfl) nofun
    · exact h
  | plugin i => exact tied_plugin h i
  | pass =>
    simp only [poolStep]
    split <;> exact h
  | storage reply =>
    simp only [poolStep, storageStep]
    cases s.storage with
    | fetchLock r =>
      dsimp only
      split <;> exact h
    | _ => exact h

structure PoolInv (m : Meta) (tid : ι → UInt64) (t : Traced ι) : Prop where
  tied : t.pool.Tied
  view : t.view.Inv m tid

omit [DecidableEq ι] in
theorem poolInv_start (m : Meta) (tid : ι → UInt64) : PoolInv m tid (Traced.start : Traced ι) where
  tied := nofun
  view := ⟨nofun, fun _ => .of_open trivial rfl, nofun, fun _ h => absurd rfl h⟩

theorem poolInv_step (h : PoolInv m tid t) (act : PoolAct ι) :
    PoolInv m tid (tracedStep m.license tid t act) :=
  ⟨tied_step h.tied act, inv_move h.view (move_step h.tied act)⟩

/-- What holds in every state. -/
structure PoolSafe (m : Meta) (tid : ι → UInt64) (t : Traced ι) : Prop where
  /-- No packet is being filled by two plugins. -/
  exclusive : ∀ i j r, t.pool.Fills i r → t.pool.Fills j r → i = j
  filling : ∀ i r, t.pool.Fills i r → (t.pool.pkt r).state.Open
  /-- A post sends the bytes the packet held when it became READY. -/
  sends : ∀ r, t.pool.storage = .send r → (t.pool.pkt r).state = .ready ∧
    ∃ p, (t.use r).ready = some p ∧ (t.pool.pkt r).SameBytes p
  /-- A packet is posted successfully at most once in a use. -/
  once : ∀ r, (t.use r).posts ≤ 1
  /-- A READY packet is the work of the plugin whose tid stands in its header. -/
  origin : ∀ r, (t.pool.pkt r).state = .ready → ∃ i, MadeBy m tid i (t.pool.pkt r) (t.use r)

/-- What holds of every step. -/
structure StepSafe (m : Meta) (tid : ι → UInt64) (t : Traced ι) (act : PoolAct ι) : Prop where
  /-- A plugin changes no packet but the one it is filling. -/
  writer : ∀ i r, act = .plugin i →
    (tracedStep m.license tid t act).pool.pkt r ≠ t.pool.pkt r →
    t.pool.Fills i r ∨ (tracedStep m.license tid t act).pool.Fills i r
  becomes : ∀ r, (t.pool.pkt r).state ≠ .ready →
    ((tracedStep m.license tid t act).pool.pkt r).state = .ready →
    ((tracedStep m.license tid t act).use r).ready =
      some ((tracedStep m.license tid t act).pool.pkt r)
  frozen : ∀ r, (t.pool.pkt r).state = .ready →
    ((tracedStep m.license tid t act).pool.pkt r).SameBytes (t.pool.pkt r)
  /-- A READY packet becomes DONE, after a post of it has returned 0. -/
  leaves : ∀ r, (t.pool.pkt r).state = .ready →
    ((tracedStep m.license tid t act).pool.pkt r).state ≠ .ready →
    ((tracedStep m.license tid t act).pool.pkt r).state = .done ∧ (t.use r).posts = 1
  /-- A packet is used again after such a post, or when it held no record. -/
  recycled : ∀ r, (t.pool.pkt r).state = .done →
    ((tracedStep m.license tid t act).pool.pkt r).state ≠ .done →
    (t.use r).posts = 1 ∨ (t.use r).records = []

omit [DecidableEq ι] in
theorem PoolInv.safe (h : PoolInv m tid t) : PoolSafe m tid t where
  exclusive := fun _ _ _ hi hj => h.view.exclusive hi hj
  filling := fun i r hi => (h.view.held i r hi).isOpen
  sends := by
    intro r hsend
    have hready := h.view.posting r (congrArg (fun st => st.posting.cell) hsend)
    exact ⟨hready, ((h.view.cell r).ready hready).2.1⟩
  once := fun r => (h.view.cell r).once
  origin := fun r hready => ((h.view.cell r).ready hready).1

theorem Pool.fills_setPc {pc : PluginPc} (h : (pc.hold (s.working i)).cell = some r) :
    (s.setPc i pc).Fills i r := by
  rw [Pool.Fills, Pool.hold_setPc, Function.update_self]
  exact h

/-- The packet a plugin's step changes. -/
theorem pluginStep_pkt (license : Text) (tid : ι → UInt64) (s : Pool ι) (i : ι) :
    (pluginStep license tid s i).pkt = s.pkt ∨
      ∃ r pkt, (pluginStep license tid s i).pkt = Function.update s.pkt r pkt ∧
        (s.Fills i r ∨ (pluginStep license tid s i).Fills i r) := by
  have hfill {r : Nat} (h : ((s.pc i).hold (s.working i)).cell = some r) : s.Fills i r := h
  simp only [pluginStep]
  cases hpc : s.pc i with
  | idle | readWorking c | scanHead c | scanNext c r | testHead c r | linkLoad c r l
  | storeHead c r l | setWorking c r | clearWorking => exact .inl rfl
  | scanCas c r =>
    dsimp only
    split
    · exact .inr ⟨r, _, Pool.pkt_setPkt _, .inr (Pool.fills_setPc rfl)⟩
    · exact .inl rfl
  | recycle c r => exact .inr ⟨r, _, Pool.pkt_setPkt _, .inl (hfill (by rw [hpc]; rfl))⟩
  | storeSpin c r | release c r l => exact .inl (Pool.pkt_setSpin false)
  | alloc c => exact .inr ⟨s.count, _, Pool.pkt_setCell _, .inr (Pool.fills_setPc rfl)⟩
  | casHead c r | loadLock c r =>
    dsimp only
    split <;> exact .inl rfl
  | acquire c r l =>
    dsimp only
    split
    · exact .inl rfl
    · exact .inl (Pool.pkt_setSpin true)
  | linkStore c r l n => exact .inl (Pool.pkt_setNext n)
  | loadWorking c =>
    dsimp only
    split <;> exact .inl rfl
  | body r prog =>
    cases prog with
    | ret a => exact .inl rfl
    | op o k => exact .inr ⟨r, _, Pool.pkt_setPkt _, .inl (hfill (by rw [hpc]; rfl))⟩

theorem PoolInv.stepSafe (h : PoolInv m tid t) (act : PoolAct ι) : StepSafe m tid t act := by
  have hmove : Move m.license tid t.view (tracedStep m.license tid t act).view :=
    move_step h.tied act
  refine ⟨?_, fun r => hmove.becomes, fun r hready => (h.view.frozen hmove hready).1, ?_, ?_⟩
  · rintro i r rfl hne
    rcases pluginStep_pkt m.license tid t.pool i with hsame | ⟨r', pkt, hpkt, hfill⟩
    · exact absurd (congrFun hsame r) hne
    · by_cases he : r = r'
      · exact he ▸ hfill
      · refine absurd ?_ hne
        change (pluginStep m.license tid t.pool i).pkt r = _
        rw [hpkt, Function.update_of_ne he]
  · intro r hready hne
    rcases (h.view.frozen hmove hready).2 with hstay | hdone
    · exact absurd hstay hne
    · exact hdone
  · exact fun r hdone _ => ((h.view.cell r).done hdone).2

/-- In every interleaving of any number of plugin threads with the storage thread, every
state and every step is safe. -/
theorem pool_packets_safe (m : Meta) (tid : ι → UInt64) (acts : List (PoolAct ι)) :
    let t := run (tracedStep m.license tid) Traced.start acts
    t.pool = run (poolStep m.license tid) Pool.start acts ∧ PoolSafe m tid t ∧
      Along (tracedStep m.license tid) (StepSafe m tid) Traced.start acts := by
  have hstep : ∀ t act, PoolInv m tid t → PoolInv m tid (tracedStep m.license tid t act) :=
    fun _ act h => poolInv_step h act
  refine ⟨pool_run_tracedStep acts, ?_, ?_⟩
  · exact (invariant_run hstep (poolInv_start m tid)).safe
  · exact along_of_invariant hstep (fun _ act h => h.stepSafe act) (poolInv_start m tid)

end MonitoringAgent
