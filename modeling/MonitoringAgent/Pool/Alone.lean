import MonitoringAgent.Pool.Growth
import MonitoringAgent.Pool.Push

/-!
# A thread alone

A call of `plugin_gather` and a pass of `storage_main` with nobody else at work, step by
step to the end.
-/
namespace MonitoringAgent

open Buffer Chain Command Transition Packet

variable {ι : Type}

/-- A step of the storage thread. The transfers of a pass meet the replies in turn. -/
def passStep (replies : Nat → Reply) (x : Pool ι × Nat) : Pool ι × Nat :=
  (storageStep x.1 (replies x.2),
    match x.1.storage with
    | .send _ => x.2 + 1
    | _ => x.2)

/-- What the steps have made of the packets, the links and `packets`. -/
def Pool.store (s : Pool ι) : PacketStore := ⟨s.pkt, s.next, s.count, s.head⟩

variable [DecidableEq ι] {license : Text} {tid : ι → UInt64} {s s' : Pool ι} {i : ι} {r k : Nat}
  {l : List Nat} {head : Option Nat} {replies : Nat → Reply}

/-! ## Updates -/

namespace Pool

@[simp] theorem heap_setPc (pc : PluginPc) : (s.setPc i pc).heap = s.heap := rfl

@[simp] theorem count_setPc (pc : PluginPc) : (s.setPc i pc).count = s.count := rfl

@[simp] theorem head_setPc (pc : PluginPc) : (s.setPc i pc).head = s.head := rfl

@[simp] theorem working_setPc (pc : PluginPc) : (s.setPc i pc).working = s.working := rfl

@[simp] theorem setPc_setPc (s : Pool ι) (i : ι) (pc pc' : PluginPc) :
    (s.setPc i pc).setPc i pc' = s.setPc i pc' := by
  simp [setPc]

omit [DecidableEq ι] in
@[simp] theorem setPkt_setPkt (s : Pool ι) (r : Nat) (pkt pkt' : Packet) :
    (s.setPkt r pkt).setPkt r pkt' = s.setPkt r pkt' := by
  simp [setPkt, setCell]

omit [DecidableEq ι] in
@[simp] theorem heap_setPkt_pkt (s : Pool ι) (r : Nat) (pkt : Packet) :
    ((s.setPkt r pkt).heap r).pkt = pkt := by
  simp [setPkt, setCell]

omit [DecidableEq ι] in
theorem setPkt_self (s : Pool ι) (r : Nat) : s.setPkt r (s.heap r).pkt = s := by
  simp [setPkt, setCell]

omit [DecidableEq ι] in
/-- A lock that is taken and released. -/
theorem setSpin_release (h : (s.heap r).spin = false) :
    (s.setSpin r true).setSpin r false = s := by
  have hcell : { s.heap r with spin := false } = s.heap r := by rw [← h]
  simp [setSpin, setCell, hcell]

omit [DecidableEq ι] in
/-- The same for the lock of the first packet, around a push. -/
theorem setNext_release {n : Option Nat} (hrk : k ≠ r) (h : (s.heap k).spin = false) :
    ((s.setSpin k true).setNext r n).setSpin k false = s.setNext r n := by
  have hcell : { s.heap k with spin := false } = s.heap k := by rw [← h]
  simp [setSpin, setNext, setCell, hrk, hrk.symm, Function.update_comm hrk, hcell]

end Pool

/-! ## A call -/

/-- Where the loop of `get_packet` goes on. -/
def PluginPc.scanFrom (c : GatherCall) : Option Nat → PluginPc
  | some r => .scanCas c r
  | none => .alloc c

/-- The loop of `get_packet` stops at the first DONE packet. -/
theorem scan_runs (h : Links s.next head l) (c : GatherCall) :
    Reaches (pluginStep license tid · i) (s.setPc i (.scanFrom c head))
      (s.setPc i (.scanFrom c (l.find? fun r => (s.pkt r).state = .done))) := by
  induction h with
  | nil => exact .refl _ _
  | @cons a l h ih =>
    by_cases hdone : (s.pkt a).state = .done
    · rw [List.find?_cons_of_pos (by simpa using hdone)]
      exact .refl _ _
    · rw [List.find?_cons_of_neg (by simpa using hdone)]
      have hcas : pluginStep license tid (s.setPc i (.scanCas c a)) i =
          s.setPc i (.scanNext c a) := by
        rw [Pool.pkt] at hdone
        simp [pluginStep, Pool.pc_setPc_self, hdone]
      have hnext : pluginStep license tid (s.setPc i (.scanNext c a)) i =
          s.setPc i (.scanFrom c (s.next a)) := by
        simp only [pluginStep, Pool.pc_setPc_self, Pool.setPc_setPc, Pool.heap_setPc, Pool.next]
        cases (s.heap a).next <;> rfl
      exact .cons hcas (.cons hnext ih)

/-- A new packet, still outside of the list. -/
def Pool.allocated (s : Pool ι) (next : Option Nat) : Pool ι :=
  { s.setCell s.count ⟨packetAlloc .metric, false, next⟩ with count := s.count + 1 }

/-- A push onto an empty list. -/
theorem push_empty (hhead : s.head = none) (c : GatherCall) :
    Reaches (pluginStep license tid · i) (s.setPc i (.alloc c))
      ({ s.allocated none with head := some s.count }.setPc i (.setWorking c s.count)) := by
  have halloc : pluginStep license tid (s.setPc i (.alloc c)) i =
      (s.allocated none).setPc i (.testHead c s.count) := by
    simp only [pluginStep, Pool.pc_setPc_self]
    simp [Pool.allocated, Pool.setPc, Pool.setCell]
  have hempty : (s.allocated none).head = none := hhead
  have htest : pluginStep license tid ((s.allocated none).setPc i (.testHead c s.count)) i =
      (s.allocated none).setPc i (.casHead c s.count) := by
    simp [pluginStep, Pool.pc_setPc_self, hempty]
  have hcas : pluginStep license tid ((s.allocated none).setPc i (.casHead c s.count)) i =
      { s.allocated none with head := some s.count }.setPc i (.setWorking c s.count) := by
    simp only [pluginStep, Pool.pc_setPc_self, Pool.head_setPc, hempty]
    simp [Pool.setPc]
  exact .cons halloc (.cons htest (.cons hcas (.refl _ _)))

/-- A push in front of packet `k`, whose lock is free. -/
theorem push_locked (hhead : s.head = some k) (hk : k < s.count) (hspin : (s.heap k).spin = false)
    (c : GatherCall) :
    Reaches (pluginStep license tid · i) (s.setPc i (.alloc c))
      ({ s.allocated (some k) with head := some s.count }.setPc i (.setWorking c s.count)) := by
  let s₁ := s.allocated none
  let s₂ := s₁.setSpin k true
  let s₃ := s₂.setNext s.count (some k)
  have halloc : pluginStep license tid (s.setPc i (.alloc c)) i =
      s₁.setPc i (.testHead c s.count) := by
    simp only [pluginStep, Pool.pc_setPc_self]
    simp [s₁, Pool.allocated, Pool.setPc, Pool.setCell]
  have hsome : s₁.head = some k := hhead
  have hfree : (s₁.heap k).spin = false := by
    simpa [s₁, Pool.allocated, Pool.setCell, hk.ne] using hspin
  have htest : pluginStep license tid (s₁.setPc i (.testHead c s.count)) i =
      s₁.setPc i (.loadLock c s.count) := by
    simp [pluginStep, Pool.pc_setPc_self, hsome]
  have hload : pluginStep license tid (s₁.setPc i (.loadLock c s.count)) i =
      s₁.setPc i (.acquire c s.count k) := by
    simp [pluginStep, Pool.pc_setPc_self, hsome]
  have hacquire : pluginStep license tid (s₁.setPc i (.acquire c s.count k)) i =
      s₂.setPc i (.linkLoad c s.count k) := by
    simp [pluginStep, hfree, s₂, Pool.setSpin, Pool.setCell, Pool.setPc]
  have hlinkLoad : pluginStep license tid (s₂.setPc i (.linkLoad c s.count k)) i =
      s₂.setPc i (.linkStore c s.count k (some k)) := by
    have hsome : s₂.head = some k := hhead
    simp [pluginStep, Pool.pc_setPc_self, hsome]
  have hlinkStore : pluginStep license tid (s₂.setPc i (.linkStore c s.count k (some k))) i =
      s₃.setPc i (.storeHead c s.count k) := by
    simp [pluginStep, s₃, Pool.setNext, Pool.setCell, Pool.setPc]
  have hstore : pluginStep license tid (s₃.setPc i (.storeHead c s.count k)) i =
      { s₃ with head := some s.count }.setPc i (.release c s.count k) := by
    simp [pluginStep, Pool.setPc]
  have hrelease : pluginStep license tid
        ({ s₃ with head := some s.count }.setPc i (.release c s.count k)) i =
      { s.allocated (some k) with head := some s.count }.setPc i (.setWorking c s.count) := by
    have hs₃ : s₃.setSpin k false = s.allocated (some k) := by
      rw [Pool.setNext_release hk.ne hfree]
      simp [s₁, Pool.allocated, Pool.setNext, Pool.setCell]
    rw [← hs₃]
    simp [pluginStep, Pool.setPc, Pool.setSpin, Pool.setCell]
  exact .cons halloc (.cons htest (.cons hload (.cons hacquire (.cons hlinkLoad
    (.cons hlinkStore (.cons hstore (.cons hrelease (.refl _ _))))))))

/-- A DONE packet is taken. -/
theorem take_runs (hdone : (s.pkt r).state = .done) (hspin : (s.heap r).spin = false)
    (c : GatherCall) :
    Reaches (pluginStep license tid · i) (s.setPc i (.scanCas c r))
      ((s.setPkt r ((s.pkt r).recycle .metric)).setPc i (.setWorking c r)) := by
  let s₁ := s.setPkt r { s.pkt r with state := .empty }
  let s₂ := s.setPkt r ((s.pkt r).recycle .metric)
  have hcas : pluginStep license tid (s.setPc i (.scanCas c r)) i = s₁.setPc i (.recycle c r) := by
    have hdone' : (s.heap r).pkt.state = .done := hdone
    simp [pluginStep, hdone', s₁, Pool.pkt, Pool.setPkt, Pool.setCell, Pool.setPc]
  have hreset : pluginStep license tid (s₁.setPc i (.recycle c r)) i =
      s₂.setPc i (.storeSpin c r) := by
    simp [pluginStep, s₁, s₂, Pool.pkt, Pool.setPkt, Pool.setCell, Pool.setPc, Packet.recycle]
  have hunlock : pluginStep license tid (s₂.setPc i (.storeSpin c r)) i =
      s₂.setPc i (.setWorking c r) := by
    simp [pluginStep, s₂, Pool.setSpin, Pool.setPkt, Pool.setCell, Pool.setPc, hspin]
  exact .cons hcas (.cons hreset (.cons hunlock (.refl _ _)))

/-- `get_packet` with nobody else at work, and the store to `p->working`. -/
theorem get_runs (license : Text) (tid : ι → UInt64) (h : s.store.Whole)
    (hspin : ∀ r, (s.heap r).spin = false) (i : ι) (c : GatherCall) :
    ∃ s' : Pool ι, Reaches (pluginStep license tid · i) (s.setPc i (.scanHead c))
        ((s'.setWorking i (some (s.store.getPacket .metric).1)).setPc i (.loadWorking c)) ∧
      s'.store = (s.store.getPacket .metric).2 ∧ s'.working = s.working ∧ s'.pc = s.pc ∧
      s'.storage = s.storage ∧ ∀ r, (s'.heap r).spin = false := by
  have hhead : pluginStep license tid (s.setPc i (.scanHead c)) i =
      s.setPc i (.scanFrom c s.head) := by
    simp only [pluginStep, Pool.pc_setPc_self, Pool.setPc_setPc, Pool.head_setPc]
    cases s.head <;> rfl
  have hlast (s' : Pool ι) (r : Nat) : pluginStep license tid (s'.setPc i (.setWorking c r)) i =
      (s'.setWorking i (some r)).setPc i (.loadWorking c) := by
    simp [pluginStep, Pool.setPc, Pool.setWorking]
  have hset {s' : Pool ι} {r : Nat} {found : Option Nat}
      (hfound : s.store.list.find? (fun r => (s.store.pkt r).state = .done) = found)
      (hruns : Reaches (pluginStep license tid · i) (s.setPc i (.scanFrom c found))
        (s'.setPc i (.setWorking c r))) :
      Reaches (pluginStep license tid · i) (s.setPc i (.scanHead c))
        ((s'.setWorking i (some r)).setPc i (.loadWorking c)) := by
    subst hfound
    have hscan : Reaches (pluginStep license tid · i) (s.setPc i (.scanHead c)) _ :=
      .cons hhead (scan_runs h.links c)
    exact hscan.trans (hruns.trans (.cons (hlast s' r) (.refl _ _)))
  rw [PacketStore.getPacket]
  cases hfound : s.store.list.find? fun r => (s.store.pkt r).state = .done with
  | some r =>
    have hdone : (s.store.pkt r).state = .done := by simpa using List.find?_some hfound
    refine ⟨s.setPkt r ((s.pkt r).recycle .metric), hset hfound (take_runs hdone (hspin r) c), ?_,
      rfl, rfl, rfl, fun r' => ?_⟩
    · rw [Pool.store, Pool.pkt_setPkt, Pool.next_setPkt]
      rfl
    · by_cases hr : r' = r
      · subst hr
        simpa [Pool.setPkt, Pool.setCell] using hspin r'
      · simpa [Pool.setPkt, Pool.setCell, hr] using hspin r'
  | none =>
    have hspin' (next : Option Nat) : ∀ r', ((s.allocated next).heap r').spin = false := by
      intro r'
      by_cases hr : r' = s.count
      · simp [Pool.allocated, Pool.setCell, hr]
      · simpa [Pool.allocated, Pool.setCell, hr] using hspin r'
    have hstore (next : Option Nat) : Pool.store { s.allocated next with head := some s.count } =
        { pkt := Function.update s.pkt s.count (packetAlloc .metric)
          next := Function.update s.next s.count next
          count := s.count + 1
          head := some s.count } := by
      have hpkt : (s.allocated next).pkt = Function.update s.pkt s.count (packetAlloc .metric) :=
        Pool.pkt_setCell _
      have hnext : (s.allocated next).next = Function.update s.next s.count next :=
        Pool.next_setCell _
      rw [← hpkt, ← hnext]
      rfl
    have hhead' : s.store.head = s.head := rfl
    cases hhead : s.head with
    | none =>
      refine ⟨_, hset hfound (push_empty hhead c), ?_, rfl, rfl, rfl, hspin' none⟩
      rw [hstore, hhead', hhead]
      rfl
    | some k =>
      have hlinks := h.links
      rw [hhead', hhead] at hlinks
      have hk : k < s.count := h.mem.mp hlinks.head_mem
      refine ⟨_, hset hfound (push_locked hhead hk (hspin k) c), ?_, rfl, rfl, rfl, hspin' _⟩
      rw [hstore, hhead', hhead]
      rfl

/-- The rest of a call on its packet. -/
theorem body_runs (prog : PacketM (GatherError × Bool)) :
    Reaches (pluginStep license tid · i) (s.setPc i (.body r prog))
      ((s.setPkt r (prog.exec Packet.effects (s.pkt r)).2).setPc i
        (.resume r (.ret (prog.exec Packet.effects (s.pkt r)).1))) := by
  induction prog generalizing s with
  | ret a =>
    have hret : pluginStep license tid (s.setPc i (.body r (.ret a))) i =
        s.setPc i (.resume r (.ret a)) := by
      simp only [pluginStep, Pool.pc_setPc_self, Pool.setPc_setPc]
    rw [exec_ret, Pool.pkt, Pool.setPkt_self]
    exact .cons hret (.refl _ _)
  | op o k ih =>
    let s₁ := s.setPkt r ((s.pkt r).next o)
    have hop : pluginStep license tid (s.setPc i (.body r (.op o k))) i =
        s₁.setPc i (.resume r (k ((s.pkt r).answer o))) := by
      simp only [pluginStep, Pool.pc_setPc_self]
      simp [s₁, Pool.setPkt, Pool.setCell, Pool.setPc, Pool.pkt]
    have hpkt : s₁.pkt r = (s.pkt r).next o := Pool.heap_setPkt_pkt s r _
    have hrest := ih ((s.pkt r).answer o) (s := s₁)
    rw [hpkt, Pool.setPkt_setPkt] at hrest
    have hexec : (Command.op o k).exec Packet.effects (s.pkt r) =
        (k ((s.pkt r).answer o)).exec Packet.effects ((s.pkt r).next o) := rfl
    rw [hexec]
    refine .cons hop ?_
    generalize k ((s.pkt r).answer o) = prog at hrest
    cases prog with
    | ret a => exact .refl _ _
    | op o' k' => exact hrest

/-- The rest of a call, from the load of `p->working` on. -/
theorem loaded_runs (hw : s.working i = some r) (c : GatherCall) :
    let x := (gatherBody license (tid i) c).exec Packet.effects (s.pkt r)
    Reaches (pluginStep license tid · i) (s.setPc i (.loadWorking c))
      (((s.setPkt r x.2).setWorking i (if x.1.2 then none else some r)).setPc i .idle) := by
  intro x
  have hload : pluginStep license tid (s.setPc i (.loadWorking c)) i =
      s.setPc i (.body r (gatherBody license (tid i) c)) := by
    simp [pluginStep, Pool.pc_setPc_self, hw]
  have hbody : Reaches (pluginStep license tid · i) (s.setPc i (.loadWorking c))
      ((s.setPkt r x.2).setPc i (.resume r (.ret x.1))) := .cons hload (body_runs _)
  refine hbody.trans ?_
  obtain ⟨⟨res, retired⟩, pkt⟩ := x
  cases retired with
  | true =>
    have hclear : pluginStep license tid ((s.setPkt r pkt).setPc i .clearWorking) i =
        ((s.setPkt r pkt).setWorking i none).setPc i .idle := by
      simp [pluginStep, Pool.setPc, Pool.setWorking]
    exact .cons hclear (.refl _ _)
  | false =>
    have hkept : (s.setPkt r pkt).setWorking i (some r) = s.setPkt r pkt := by
      simp [Pool.setWorking, Pool.setPkt, Pool.setCell, ← hw]
    rw [if_neg Bool.false_ne_true, hkept]
    exact .refl _ _

/-! ## A pass -/

/-- The pool with other packets in the same list. -/
def Pool.withPkt (s : Pool ι) (pkt : Nat → Packet) : Pool ι :=
  { s with heap := fun r => { s.heap r with pkt := pkt r } }

omit [DecidableEq ι] in
theorem Pool.withPkt_self (s : Pool ι) : s.withPkt s.pkt = s := rfl

omit [DecidableEq ι] in
theorem Pool.withPkt_setPkt (s : Pool ι) (r : Nat) (pkt : Packet) (pkts : Nat → Packet) :
    (s.setPkt r pkt).withPkt pkts = s.withPkt pkts := by
  have hheap : ((s.setPkt r pkt).withPkt pkts).heap = (s.withPkt pkts).heap := by
    funext k
    by_cases hk : k = r
    · subst hk
      simp [Pool.withPkt, Pool.setPkt, Pool.setCell]
    · simp [Pool.withPkt, Pool.setPkt, Pool.setCell, hk]
  simpa [Pool.withPkt, Pool.setPkt, Pool.setCell] using hheap

/-- Where the loop of `storage_main` goes on. -/
def StoragePc.visitFrom : Option Nat → StoragePc
  | some r => .check r
  | none => .idle

omit [DecidableEq ι] in
/-- The visit to a READY packet, up to the transfer. -/
theorem visit_runs (hready : (s.pkt r).state = .ready) (hspin : (s.heap r).spin = false) :
    let pkt := { s.pkt r with attempt := (s.pkt r).attempt + 1 }
    let s' := s.setPkt r (transfer pkt (replies k)).1
    Reaches (passStep replies) ({ s with storage := .check r }, k)
      ({ s' with storage :=
        if (transfer pkt (replies k)).2 then .markDone r else .idle }, k + 1) := by
  intro pkt s'
  let s₁ := s.setPkt r pkt
  have hcheck : passStep replies ({ s with storage := .check r }, k) =
      ({ s with storage := .attempt r }, k) := by
    rw [Pool.pkt] at hready
    simp [passStep, storageStep, hready]
  have hattempt : passStep replies ({ s with storage := .attempt r }, k) =
      ({ s₁ with storage := .fetchLock r }, k) := rfl
  have hspin₁ : (s₁.heap r).spin = false := by
    simpa [s₁, Pool.setPkt, Pool.setCell] using hspin
  have hlock : passStep replies ({ s₁ with storage := .fetchLock r }, k) =
      ({ s₁.setSpin r true with storage := .fetchState r }, k) := by
    simp [passStep, storageStep, hspin₁, Pool.setSpin, Pool.setCell]
  have hstate : passStep replies ({ s₁.setSpin r true with storage := .fetchState r }, k) =
      ({ s₁.setSpin r true with storage := .fetchUnlock r true }, k) := by
    have hready₁ : ((s₁.setSpin r true).heap r).pkt.state = .ready := by
      simpa [s₁, Pool.setSpin, Pool.setPkt, Pool.setCell, pkt] using hready
    simp [passStep, storageStep, hready₁]
  have hunlock : passStep replies ({ s₁.setSpin r true with storage := .fetchUnlock r true }, k) =
      ({ s₁ with storage := .send r }, k) := by
    conv_rhs => rw [← Pool.setSpin_release hspin₁]
    rfl
  have hsend : passStep replies ({ s₁ with storage := .send r }, k) =
      ({ s' with storage :=
        if (transfer pkt (replies k)).2 then .markDone r else .idle }, k + 1) := by
    simp [passStep, storageStep, s₁, s', Pool.setPkt, Pool.setCell]
  exact .cons hcheck (.cons hattempt (.cons hlock (.cons hstate (.cons hunlock
    (.cons hsend (.refl _ _))))))

omit [DecidableEq ι] in
/-- The storage thread goes over the list as the loop does. -/
theorem pass_runs (replies : Nat → Reply) (h : Links s.next head l)
    (hspin : ∀ r, (s.heap r).spin = false) (k : Nat) (b : Backoff) :
    ∃ k', Reaches (passStep replies) ({ s with storage := .visitFrom head }, k)
      ({ s.withPkt (storageLoop (fun j => replies (k + j)) l s.pkt b).1 with storage := .idle },
        k') := by
  induction l generalizing s head k b with
  | nil =>
    obtain rfl : head = none := by
      cases h
      rfl
    exact ⟨k, .refl _ _⟩
  | cons a l ih =>
    obtain ⟨rfl, hl⟩ : head = some a ∧ Links s.next (s.next a) l := by
      cases h with
      | cons h => exact ⟨rfl, h⟩
    have hnext (s : Pool ι) (k : Nat) : passStep replies ({ s with storage := .next a }, k) =
        ({ s with storage := .visitFrom (s.next a) }, k) := by
      simp only [passStep, storageStep, Pool.next]
      cases (s.heap a).next <;> rfl
    by_cases hready : (s.pkt a).state = .ready
    · let pkt := { s.pkt a with attempt := (s.pkt a).attempt + 1 }
      have hvisit : Reaches (passStep replies) ({ s with storage := .visitFrom (some a) }, k)
          ({ s.setPkt a (transfer pkt (replies k)).1 with storage :=
            if (transfer pkt (replies k)).2 then .markDone a else .idle }, k + 1) :=
        visit_runs hready (hspin a)
      have hpost : post (s.pkt a) (replies k) = transfer pkt (replies k) :=
        post_eq_transfer (s.pkt a) (replies k) hready
      have hspin' (q : Packet) (r : Nat) : ((s.setPkt a q).heap r).spin = false := by
        by_cases hr : r = a
        · simpa [Pool.setPkt, Pool.setCell, hr] using hspin a
        · simpa [Pool.setPkt, Pool.setCell, hr] using hspin r
      rw [storageLoop, if_pos hready, Nat.add_zero, hpost]
      generalize transfer pkt (replies k) = x at hvisit
      obtain ⟨q, ok⟩ := x
      cases ok with
      | false =>
        refine ⟨k + 1, hvisit.trans ?_⟩
        rw [← Pool.withPkt_self (s.setPkt a q), Pool.withPkt_setPkt, Pool.pkt_setPkt]
        exact .refl _ _
      | true =>
        let s₁ := s.setPkt a { q with state := .done }
        have hdone : passStep replies ({ s.setPkt a q with storage := .markDone a }, k + 1) =
            ({ s₁ with storage := .next a }, k + 1) := by
          simp [passStep, storageStep, s₁, Pool.setPkt, Pool.setCell]
        have hl₁ : Links s₁.next (s₁.next a) l := by
          rw [Pool.next_setPkt]
          exact hl
        obtain ⟨k', hrest⟩ := ih hl₁ (hspin' _) (k + 1) b.succeed
        refine ⟨k', hvisit.trans (.cons hdone (.cons (hnext s₁ (k + 1)) ?_))⟩
        rw [Pool.withPkt_setPkt, Pool.pkt_setPkt] at hrest
        have hshift : (fun j => replies (k + (j + 1))) = fun j => replies (k + 1 + j) := by
          funext j
          rw [Nat.add_right_comm, Nat.add_assoc]
        rw [hshift]
        exact hrest
    · have hcheck : passStep replies ({ s with storage := .visitFrom (some a) }, k) =
          ({ s with storage := .next a }, k) := by
        rw [Pool.pkt] at hready
        simp [passStep, storageStep, StoragePc.visitFrom, hready]
      obtain ⟨k', hrest⟩ := ih hl hspin k b
      rw [storageLoop, if_neg hready]
      exact ⟨k', .cons hcheck (.cons (hnext s k) hrest)⟩

end MonitoringAgent
