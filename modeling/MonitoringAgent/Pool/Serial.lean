import MonitoringAgent.Pool.Alone
import MonitoringAgent.Pool.Ownership

/-!
# One operation after the other

Calls of `plugin_gather` and passes of `storage_main`, each alone from its beginning to its
end, do to the pool what the whole operations do to the store.
-/
namespace MonitoringAgent

open Buffer Chain Command Transition Packet

variable {ι : Type}

/-- An operation that runs from its beginning to its end. -/
inductive SerialOp (ι : Type) where
  | call (i : ι) (c : GatherCall)
  | pass (replies : Nat → Reply)

variable [DecidableEq ι]

/-- The listed operations, one after the other, lead to `s`. -/
inductive Serial (license : Text) (tid : ι → UInt64) : List (SerialOp ι) → Pool ι → Prop where
  | start : Serial license tid [] Pool.start
  | call {ops : List (SerialOp ι)} {s s' : Pool ι} (i : ι) (c : GatherCall)
      (h : Serial license tid ops s)
      (hrun : Reaches (pluginStep license tid · i) (poolStep license tid s (.call i c)) s')
      (hend : s'.pc i = .idle) : Serial license tid (ops ++ [.call i c]) s'
  | pass {ops : List (SerialOp ι)} {s : Pool ι} {x : Pool ι × Nat} (replies : Nat → Reply)
      (h : Serial license tid ops s)
      (hrun : Reaches (passStep replies) (poolStep license tid s .pass, 0) x)
      (hend : x.1.storage = .idle) : Serial license tid (ops ++ [.pass replies]) x.1

/-- The operations on the store that stand for one operation of the threads. -/
inductive SerialOp.Stands : SerialOp ι → List (PoolOp ι) → Prop where
  | kept (i : ι) (c : GatherCall) : Stands (.call i c) [.get i]
  | given (i : ι) (c : GatherCall) (pkt : Packet) (ready : Bool) :
      Stands (.call i c) [.get i, .finish i pkt ready]
  | pass (replies : Nat → Reply) : Stands (.pass replies) [.pass replies]

/-- Between two operations the threads and the store agree: on everything but the packets
in use, which only their plugins look at. -/
structure Corresponds (s : Pool ι) (u : Usage ι) : Prop where
  next : s.next = u.store.next
  count : s.count = u.store.count
  head : s.head = u.store.head
  working : s.working = u.working
  pkt : ∀ r, (∀ i, u.working i ≠ some r) → s.pkt r = u.store.pkt r
  inUse : ∀ i r, u.working i = some r →
    r < u.store.count ∧ (s.pkt r).state.Open ∧ (u.store.pkt r).state.Open
  apart : ∀ i j r, u.working i = some r → u.working j = some r → i = j
  idle : ∀ i, s.pc i = .idle
  storage : s.storage = .idle
  spin : ∀ r, (s.heap r).spin = false

variable {license : Text} {tid : ι → UInt64} {s s' : Pool ι} {u : Usage ι} {i : ι} {r : Nat}
  {replies : Nat → Reply}

/-! ## A call and the store -/

omit [DecidableEq ι] in
theorem Corresponds.whole (h : Corresponds s u) (hu : u.store.Whole) : s.store.Whole := by
  have hlinks : Links s.next s.head u.store.list := by
    rw [h.next, h.head]
    exact hu.links
  refine .of_links hlinks ?_
  rw [Pool.store, h.count]
  exact hu.perm

omit [DecidableEq ι] in
theorem Corresponds.not_inUse (h : Corresponds s u) (hst : ¬ (u.store.pkt r).state.Open) (j : ι) :
    u.working j ≠ some r := fun hj => hst (h.inUse j r hj).2.2

omit [DecidableEq ι] in
theorem Corresponds.done_iff (h : Corresponds s u) (r : Nat) :
    (s.pkt r).state = .done ↔ (u.store.pkt r).state = .done := by
  by_cases hr : ∃ i, u.working i = some r
  · obtain ⟨i, hi⟩ := hr
    obtain ⟨-, hs, hu⟩ := h.inUse i r hi
    constructor
    · intro hdone
      rw [hdone] at hs
      exact hs.elim
    · intro hdone
      rw [hdone] at hu
      exact hu.elim
  · rw [h.pkt r (not_exists.mp hr)]

/-- Plugin `i` is given packet `r`, which nobody uses. -/
theorem Corresponds.give (h : Corresponds s u) {u' : Usage ι} {pkt : Packet}
    (hopen : pkt.state.Open) (hfree : ∀ j, u.working j ≠ some r) (hnone : u.working i = none)
    (hs : s'.store = { u'.store with pkt := Function.update s.pkt r pkt })
    (hu : u'.store.pkt = Function.update u.store.pkt r pkt)
    (hcount : u.store.count ≤ u'.store.count) (hr : r < u'.store.count)
    (hworking : s'.working = Function.update s.working i (some r))
    (hworking' : u'.working = Function.update u.working i (some r)) (hpc : s'.pc = s.pc)
    (hstorage : s'.storage = s.storage) (hspin : ∀ k, (s'.heap k).spin = false) :
    Corresponds s' u' := by
  have hpkt : s'.pkt = Function.update s.pkt r pkt := congrArg PacketStore.pkt hs
  have hold {j : ι} {k : Nat} (hj : u'.working j = some k) :
      j = i ∧ k = r ∨ u.working j = some k ∧ k ≠ r := by
    rw [hworking'] at hj
    by_cases hji : j = i
    · subst hji
      rw [Function.update_self] at hj
      exact .inl ⟨rfl, (Option.some.inj hj).symm⟩
    · rw [Function.update_of_ne hji] at hj
      refine .inr ⟨hj, ?_⟩
      rintro rfl
      exact hfree j hj
  refine ⟨congrArg PacketStore.next hs, congrArg PacketStore.count hs, congrArg PacketStore.head hs,
    ?_, fun k hk => ?_, fun j k hj => ?_, fun j j' k hj hj' => ?_, fun j => ?_, ?_, hspin⟩
  · rw [hworking, hworking', h.working]
  · have hkr : k ≠ r := by
      rintro rfl
      exact hk i (by rw [hworking', Function.update_self])
    rw [hpkt, hu, Function.update_of_ne hkr, Function.update_of_ne hkr]
    refine h.pkt k fun j hj => hk j ?_
    have hji : j ≠ i := by
      rintro rfl
      rw [hnone] at hj
      cases hj
    rw [hworking', Function.update_of_ne hji, hj]
  · rw [hpkt, hu]
    rcases hold hj with ⟨rfl, rfl⟩ | ⟨hj, hkr⟩
    · rw [Function.update_self, Function.update_self]
      exact ⟨hr, hopen, hopen⟩
    · rw [Function.update_of_ne hkr, Function.update_of_ne hkr]
      obtain ⟨hlt, hk⟩ := h.inUse j k hj
      exact ⟨hlt.trans_le hcount, hk⟩
  · rcases hold hj with ⟨rfl, rfl⟩ | ⟨hj, hkr⟩
    · rcases hold hj' with ⟨rfl, -⟩ | ⟨-, hkr⟩
      · rfl
      · exact absurd rfl hkr
    · rcases hold hj' with ⟨-, rfl⟩ | ⟨hj', -⟩
      · exact absurd rfl hkr
      · exact h.apart j j' k hj hj'
  · rw [hpc]
    exact h.idle j
  · rw [hstorage]
    exact h.storage

omit [DecidableEq ι] in
/-- On both sides `get_packet` returns the same packet, which nobody uses. -/
theorem Corresponds.getPacket (h : Corresponds s u) (hu : u.store.Whole) :
    ∃ r pkt, (u.store.getPacket .metric).1 = r ∧ pkt.state.Open ∧ (∀ j, u.working j ≠ some r) ∧
      s.store.getPacket .metric =
        (r, { (u.store.getPacket .metric).2 with pkt := Function.update s.pkt r pkt }) ∧
      (u.store.getPacket .metric).2.pkt = Function.update u.store.pkt r pkt ∧
      u.store.count ≤ (u.store.getPacket .metric).2.count ∧
      r < (u.store.getPacket .metric).2.count := by
  have hlist : s.store.list = u.store.list := by
    rw [PacketStore.list, PacketStore.list, Pool.store, h.next, h.count, h.head]
  have hdone : (fun r => decide ((s.store.pkt r).state = .done)) =
      fun r => decide ((u.store.pkt r).state = .done) := by
    funext r
    exact decide_eq_decide.mpr (h.done_iff r)
  simp only [PacketStore.getPacket, hlist, hdone]
  cases hfound : u.store.list.find? fun r => (u.store.pkt r).state = .done with
  | some r =>
    have hst : (u.store.pkt r).state = .done := by simpa using List.find?_some hfound
    have hfree : ∀ j, u.working j ≠ some r := h.not_inUse (by rw [hst]; exact id)
    refine ⟨r, (u.store.pkt r).recycle .metric, rfl, trivial, hfree, ?_, rfl, le_rfl,
      hu.mem.mp (List.mem_of_find?_eq_some hfound)⟩
    simp only [Pool.store, h.pkt r hfree, h.next, h.count, h.head]
  | none =>
    refine ⟨u.store.count, packetAlloc .metric, rfl, trivial, fun j hj => ?_, ?_, rfl,
      Nat.le_succ _, Nat.lt_succ_self _⟩
    · exact (h.inUse j _ hj).1.false
    · simp only [Pool.store, h.next, h.count, h.head]

/-- The first part of a call: afterwards plugin `i` has a packet. -/
theorem get_corresponds (license : Text) (tid : ι → UInt64) (h : Corresponds s u)
    (hu : u.store.Whole) (i : ι) (c : GatherCall) :
    ∃ s' r, Reaches (pluginStep license tid · i) (poolStep license tid s (.call i c))
        (s'.setPc i (.loadWorking c)) ∧
      s'.working i = some r ∧ Corresponds s' (usageStep u (.get i)) := by
  have hcall : poolStep license tid s (.call i c) = s.setPc i (.readWorking c) := by
    simp only [poolStep, h.idle i]
  rw [hcall, usageStep, ← h.working]
  cases hw : s.working i with
  | some r =>
    have hread : pluginStep license tid (s.setPc i (.readWorking c)) i =
        s.setPc i (.loadWorking c) := by
      simp only [pluginStep, Pool.pc_setPc_self, Pool.setPc_setPc, Pool.working_setPc, hw]
    exact ⟨s, r, .cons hread (.refl _ _), hw, h⟩
  | none =>
    have hread : pluginStep license tid (s.setPc i (.readWorking c)) i =
        s.setPc i (.scanHead c) := by
      simp only [pluginStep, Pool.pc_setPc_self, Pool.setPc_setPc, Pool.working_setPc, hw]
    obtain ⟨s₁, hruns, hstore, hworking, hpc, hstorage, hspin⟩ :=
      get_runs license tid (h.whole hu) h.spin i c
    refine ⟨s₁.setWorking i (some (s.store.getPacket .metric).1), (s.store.getPacket .metric).1,
      .cons hread hruns, Function.update_self _ _ _, ?_⟩
    obtain ⟨r, pkt, hr, hopen, hfree, heq, hpkt, hcount, hlt⟩ := h.getPacket hu
    rw [heq] at hstore ⊢
    have hnone : u.working i = none := by rw [← h.working, hw]
    exact h.give hopen hfree hnone hstore hpkt hcount hlt (by rw [Pool.setWorking, hworking])
      (by rw [← hr, ← h.working]) hpc hstorage hspin

theorem finished_eq {pkt : Packet} (h : pkt.state = .ready ∨ pkt.state = .done) :
    { pkt with state := if pkt.state = .ready then .ready else .done } = pkt := by
  obtain ⟨started, type, state, response, size, rollbackPoint, attempt, payload⟩ := pkt
  rcases h with hst | hst
  · obtain rfl : state = .ready := hst
    rfl
  · obtain rfl : state = .done := hst
    rfl

/-- A call keeps its packet open, or gives it up as READY or DONE. -/
theorem Closing.exec {prog : PacketM (GatherError × Bool)} {pkt : Packet} (h : Closing prog)
    (hopen : pkt.state.Open) :
    if (prog.exec Packet.effects pkt).1.2 then
      (prog.exec Packet.effects pkt).2.state = .ready ∨
        (prog.exec Packet.effects pkt).2.state = .done
    else (prog.exec Packet.effects pkt).2.state.Open := by
  induction h generalizing pkt with
  | ret res => exact hopen
  | @last st k res hst hk =>
    have hexec : (Command.op (.storeState st) k).exec Packet.effects pkt =
        ((res, true), { pkt with state := st }) := by
      rw [exec_op]
      change (k ()).exec Packet.effects _ = _
      rw [hk]
      rfl
    rw [hexec]
    exact hst
  | op ho _ ih =>
    rw [exec_op]
    exact ih _ (ho.next hopen)

/-- The rest of a call: the plugin keeps its packet or gives it up. -/
theorem loaded_corresponds (license : Text) (tid : ι → UInt64) (h : Corresponds s u)
    (hw : s.working i = some r) (c : GatherCall) :
    ∃ s', Reaches (pluginStep license tid · i) (s.setPc i (.loadWorking c)) s' ∧
      (Corresponds s' u ∨ ∃ pkt ready, Corresponds s' (usageStep u (.finish i pkt ready))) := by
  refine ⟨_, loaded_runs hw c, ?_⟩
  have hw' : u.working i = some r := by rw [← h.working, hw]
  obtain ⟨hlt, hopen, hopen'⟩ := h.inUse i r hw'
  have hclosed := (closing_gatherBody license (tid i) c).exec hopen
  generalize (gatherBody license (tid i) c).exec Packet.effects (s.pkt r) = x at hclosed ⊢
  obtain ⟨⟨res, retired⟩, pkt⟩ := x
  have hpkt : (s.setPkt r pkt).pkt = Function.update s.pkt r pkt := Pool.pkt_setPkt pkt
  have hspin (k : Nat) : ((s.setPkt r pkt).heap k).spin = false := by
    by_cases hk : k = r
    · simpa [Pool.setPkt, Pool.setCell, hk] using h.spin r
    · simpa [Pool.setPkt, Pool.setCell, hk] using h.spin k
  have hidle (j : ι) : Function.update s.pc i .idle j = .idle := by
    by_cases hj : j = i
    · rw [hj, Function.update_self]
    · rw [Function.update_of_ne hj, h.idle j]
  cases retired with
  | false =>
    left
    have hkept : Function.update s.working i (some r) = u.working := by
      rw [← hw, Function.update_eq_self, h.working]
    refine ⟨(Pool.next_setPkt pkt).trans h.next, h.count, h.head, hkept, fun k hk => ?_,
      fun j k hj => ?_, h.apart, hidle, h.storage, hspin⟩
    · have hkr : k ≠ r := by
        rintro rfl
        exact hk i hw'
      exact (congrFun hpkt k).trans ((Function.update_of_ne hkr _ _).trans (h.pkt k hk))
    · obtain ⟨hk, hs, hu⟩ := h.inUse j k hj
      refine ⟨hk, ?_, hu⟩
      change ((s.setPkt r pkt).pkt k).state.Open
      rw [hpkt]
      by_cases hkr : k = r
      · rw [hkr, Function.update_self]
        exact hclosed
      · rwa [Function.update_of_ne hkr]
  | true =>
    right
    have hclosed : pkt.state = .ready ∨ pkt.state = .done := hclosed
    refine ⟨pkt, pkt.state = .ready, ?_⟩
    simp only [usageStep, hw', decide_eq_true_eq, finished_eq hclosed]
    have hother {j : ι} {k : Nat} (hj : Function.update u.working i none j = some k) :
        u.working j = some k ∧ k ≠ r := by
      have hji : j ≠ i := by
        rintro rfl
        rw [Function.update_self] at hj
        cases hj
      rw [Function.update_of_ne hji] at hj
      refine ⟨hj, ?_⟩
      rintro rfl
      exact hji (h.apart j i k hj hw')
    refine ⟨(Pool.next_setPkt pkt).trans h.next, h.count, h.head, ?_, fun k hk => ?_,
      fun j k hj => ?_, fun j j' k hj hj' => ?_, hidle, h.storage, hspin⟩
    · exact congrArg (Function.update · i none) h.working
    · change (s.setPkt r pkt).pkt k = Function.update u.store.pkt r pkt k
      rw [hpkt]
      by_cases hkr : k = r
      · rw [hkr, Function.update_self, Function.update_self]
      · rw [Function.update_of_ne hkr, Function.update_of_ne hkr]
        refine h.pkt k fun j hj => hk j ?_
        have hji : j ≠ i := by
          rintro rfl
          exact hkr (Option.some.inj (hj.symm.trans hw'))
        exact (Function.update_of_ne hji _ _).trans hj
    · obtain ⟨hj, hkr⟩ := hother hj
      obtain ⟨hk, hs, hu⟩ := h.inUse j k hj
      refine ⟨hk, ?_, ?_⟩
      · change ((s.setPkt r pkt).pkt k).state.Open
        rwa [hpkt, Function.update_of_ne hkr]
      · change (Function.update u.store.pkt r pkt k).state.Open
        rwa [Function.update_of_ne hkr]
    · exact h.apart j j' k (hother hj).1 (hother hj').1

/-! ## A pass and the store -/

omit [DecidableEq ι] in
/-- The loop looks at no packet in use. -/
theorem storageLoop_corresponds {pkt pkt' : Nat → Packet} {InUse : Nat → Prop}
    (replies : Nat → Reply) (l : List Nat) (hfree : ∀ r, ¬ InUse r → pkt r = pkt' r)
    (huse : ∀ r, InUse r → (pkt r).state ≠ .ready ∧ (pkt' r).state ≠ .ready) (b b' : Backoff) :
    (∀ r, ¬ InUse r →
      (storageLoop replies l pkt b).1 r = (storageLoop replies l pkt' b').1 r) ∧
    ∀ r, InUse r → (storageLoop replies l pkt b).1 r = pkt r ∧
      (storageLoop replies l pkt' b').1 r = pkt' r := by
  induction l generalizing replies pkt pkt' b b' with
  | nil => exact ⟨hfree, fun r _ => ⟨rfl, rfl⟩⟩
  | cons a l ih =>
    by_cases ha : InUse a
    · obtain ⟨hready, hready'⟩ := huse a ha
      rw [storageLoop, storageLoop, if_neg hready, if_neg hready']
      exact ih replies hfree huse b b'
    · have hne {r : Nat} (hr : InUse r) : r ≠ a := by
        rintro rfl
        exact ha hr
      have hfree₁ (p : Packet) (r : Nat) (hr : ¬ InUse r) :
          Function.update pkt a p r = Function.update pkt' a p r := by
        by_cases hra : r = a
        · rw [hra, Function.update_self, Function.update_self]
        · rw [Function.update_of_ne hra, Function.update_of_ne hra, hfree r hr]
      have hkept (pkt : Nat → Packet) (p : Packet) (r : Nat) (hr : InUse r) :
          Function.update pkt a p r = pkt r := Function.update_of_ne (hne hr) _ _
      rw [storageLoop, storageLoop, hfree a ha]
      split
      · obtain ⟨p, ok⟩ := post (pkt' a) (replies 0)
        cases ok with
        | false => exact ⟨hfree₁ p, fun r hr => ⟨hkept pkt p r hr, hkept pkt' p r hr⟩⟩
        | true =>
          let q := { p with state := .done }
          have huse₁ (r : Nat) (hr : InUse r) : (Function.update pkt a q r).state ≠ .ready ∧
              (Function.update pkt' a q r).state ≠ .ready := by
            rw [hkept pkt q r hr, hkept pkt' q r hr]
            exact huse r hr
          obtain ⟨hsame, hleft⟩ :=
            ih (fun k => replies (k + 1)) (hfree₁ q) huse₁ b.succeed b'.succeed
          refine ⟨hsame, fun r hr => ?_⟩
          rw [← hkept pkt q r hr, ← hkept pkt' q r hr]
          exact hleft r hr
      · exact ih replies hfree huse b b'

omit [DecidableEq ι] in
theorem Corresponds.not_ready (h : Corresponds s u) {j : ι} (hj : u.working j = some r) :
    (s.pkt r).state ≠ .ready ∧ (u.store.pkt r).state ≠ .ready := by
  obtain ⟨-, hs, hu⟩ := h.inUse j r hj
  exact ⟨fun hready => by rw [hready] at hs; exact hs, fun hready => by rw [hready] at hu; exact hu⟩

theorem pass_corresponds (h : Corresponds s u) (hu : u.store.Whole) (license : Text)
    (tid : ι → UInt64) (replies : Nat → Reply) :
    ∃ s' k, Reaches (passStep replies) (poolStep license tid s .pass, 0) (s', k) ∧
      Corresponds s' (usageStep u (.pass replies)) := by
  have hpass : poolStep license tid s .pass = { s with storage := .loadHead } := by
    simp only [poolStep, h.storage]
  have hload : passStep replies ({ s with storage := .loadHead }, 0) =
      ({ s with storage := .visitFrom s.head }, 0) := by
    simp only [passStep, storageStep]
    cases s.head <;> rfl
  have hlinks : Links s.next s.head u.store.list := by
    rw [h.next, h.head]
    exact hu.links
  obtain ⟨k, hruns⟩ := pass_runs replies hlinks h.spin 0 u.backoff
  simp only [Nat.zero_add] at hruns
  have hfree (r : Nat) (hr : ¬ ∃ j, u.working j = some r) : s.pkt r = u.store.pkt r :=
    h.pkt r (not_exists.mp hr)
  have huse (r : Nat) (hr : ∃ j, u.working j = some r) :
      (s.pkt r).state ≠ .ready ∧ (u.store.pkt r).state ≠ .ready := by
    obtain ⟨j, hj⟩ := hr
    exact h.not_ready hj
  obtain ⟨hsame, hleft⟩ :=
    storageLoop_corresponds replies u.store.list hfree huse u.backoff u.backoff
  rw [hpass]
  refine ⟨_, k, .cons hload hruns, h.next, h.count, h.head, h.working, fun r hr => ?_,
    fun j r hj => ?_, h.apart, h.idle, rfl, h.spin⟩
  · exact hsame r (not_exists.mpr hr)
  · obtain ⟨hlt, hopen, hopen'⟩ := h.inUse j r hj
    obtain ⟨hs, hs'⟩ := hleft r ⟨j, hj⟩
    refine ⟨hlt, ?_, ?_⟩
    · exact (congrArg Packet.state hs) ▸ hopen
    · exact (congrArg Packet.state hs') ▸ hopen'

/-! ## Runs -/

omit [DecidableEq ι] in
theorem corresponds_start : Corresponds (Pool.start : Pool ι) Usage.start where
  next := rfl
  count := rfl
  head := rfl
  working := rfl
  pkt _ _ := rfl
  inUse _ _ h := by cases h
  apart _ _ _ h := by cases h
  idle _ := rfl
  storage := rfl
  spin _ := rfl

/-- A call ends, and the operations on the store do the same. -/
theorem call_corresponds (license : Text) (tid : ι → UInt64) (h : Corresponds s u)
    (hu : u.store.Whole) (i : ι) (c : GatherCall) :
    ∃ s' ops, Reaches (pluginStep license tid · i) (poolStep license tid s (.call i c)) s' ∧
      (SerialOp.call i c).Stands ops ∧ Corresponds s' (run usageStep u ops) := by
  obtain ⟨s₁, r, hget, hw, hcorr⟩ := get_corresponds license tid h hu i c
  obtain ⟨s₂, hrest, hkept | ⟨pkt, ready, hgiven⟩⟩ := loaded_corresponds license tid hcorr hw c
  · exact ⟨s₂, _, hget.trans hrest, .kept i c, hkept⟩
  · exact ⟨s₂, _, hget.trans hrest, .given i c pkt ready, hgiven⟩

theorem pluginStep_idle (h : s.pc i = .idle) : pluginStep license tid s i = s := by
  simp only [pluginStep, h]

omit [DecidableEq ι] in
theorem passStep_idle {x : Pool ι × Nat} (h : x.1.storage = .idle) : passStep replies x = x := by
  simp only [passStep, storageStep, h]

theorem serial_corresponds {ops : List (SerialOp ι)} (h : Serial license tid ops s) :
    ∃ stands, List.Forall₂ SerialOp.Stands ops stands ∧
      Corresponds s (run usageStep .start stands.flatten) := by
  induction h with
  | start => exact ⟨[], .nil, corresponds_start⟩
  | @call ops s s' i c h hrun hend ih =>
    obtain ⟨stands, hstands, hcorr⟩ := ih
    obtain ⟨s₁, last, hreach, hlast, hnew⟩ := call_corresponds license tid hcorr (run_whole _) i c
    obtain rfl := hrun.unique hreach (pluginStep_idle hend) (pluginStep_idle (hnew.idle i))
    refine ⟨stands ++ [last], List.rel_append hstands (.cons hlast .nil), ?_⟩
    rw [List.flatten_append, List.flatten_singleton, run_append]
    exact hnew
  | @pass ops s x replies h hrun hend ih =>
    obtain ⟨stands, hstands, hcorr⟩ := ih
    obtain ⟨s₁, k, hreach, hnew⟩ := pass_corresponds hcorr (run_whole _) license tid replies
    obtain rfl := hrun.unique hreach (passStep_idle hend) (passStep_idle hnew.storage)
    refine ⟨stands ++ [[.pass replies]], List.rel_append hstands (.cons (.pass replies) .nil), ?_⟩
    rw [List.flatten_append, List.flatten_singleton, run_append]
    exact hnew

theorem exists_serial (license : Text) (tid : ι → UInt64) (ops : List (SerialOp ι)) :
    ∃ s, Serial license tid ops s := by
  induction ops using List.reverseRecOn with
  | nil => exact ⟨_, .start⟩
  | append_singleton ops op ih =>
    obtain ⟨s, hs⟩ := ih
    obtain ⟨stands, -, hcorr⟩ := serial_corresponds hs
    cases op with
    | call i c =>
      obtain ⟨s', _, hreach, -, hnew⟩ := call_corresponds license tid hcorr (run_whole _) i c
      exact ⟨s', .call i c hs hreach (hnew.idle i)⟩
    | pass replies =>
      obtain ⟨s', k, hreach, hnew⟩ := pass_corresponds hcorr (run_whole _) license tid replies
      exact ⟨s', .pass replies hs hreach hnew.storage⟩

/-- Calls and passes, one after the other, all come to an end, and the pool they leave is
the one that the operations on the store leave. -/
theorem serial_refines (license : Text) (tid : ι → UInt64) (ops : List (SerialOp ι)) :
    (∃ s, Serial license tid ops s) ∧ ∀ s, Serial license tid ops s →
      ∃ stands, List.Forall₂ SerialOp.Stands ops stands ∧
        Corresponds s (run usageStep .start stands.flatten) :=
  ⟨exists_serial license tid ops, fun _ h => serial_corresponds h⟩

end MonitoringAgent
