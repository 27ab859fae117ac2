import MonitoringAgent.Pool.Model

/-!
# Steps on the list

What one step of a thread does to `packets` and to the links, in every interleaving: most
steps leave both alone, and a push takes a new packet, links it and stores it.
-/
namespace MonitoringAgent

open Buffer Command Transition Packet

variable {ι : Type}

/-- The new packet on its way into the list. -/
@[simp]
def PluginPc.pushes : PluginPc → Option Nat
  | testHead _ r | casHead _ r | loadLock _ r | acquire _ r _ | linkLoad _ r _
  | linkStore _ r _ _ | storeHead _ r _ => some r
  | _ => none

/-- What the step of thread `i` stores into `packets`. -/
def Pool.stored (s : Pool ι) (i : ι) : Option Nat :=
  match s.pc i with
  | .storeHead _ r _ => some r
  | .casHead _ r =>
    match s.head with
    | some _ => none
    | none => some r
  | _ => none

variable [DecidableEq ι] {license : Text} {tid : ι → UInt64} {s s' : Pool ι} {i : ι}
  {l l' : List Nat} {pc : PluginPc}

/-- What a thread in `get_packet` knows about the list `l`. -/
def PluginPc.Ok (s : Pool ι) (l : List Nat) : PluginPc → Prop
  | scanCas _ r | scanNext _ r | recycle _ r | storeSpin _ r | release _ r _
  | setWorking _ r => r ∈ l
  | testHead _ r | casHead _ r | loadLock _ r | acquire _ r _ | linkLoad _ r _
  | linkStore _ r _ _ => r ∉ l ∧ r < s.count ∧ s.next r = none
  | storeHead _ r _ => r ∉ l ∧ r < s.count
  | idle | readWorking _ | scanHead _ | alloc _ | loadWorking _ | body _ _ | clearWorking => True

/-- What a thread in a push knows about the packets published so far. -/
def PluginPc.Linked (s : Pool ι) (l : List Nat) : PluginPc → Prop
  | acquire _ _ k | linkLoad _ _ k | storeHead _ _ k => k ∈ l
  | linkStore _ _ k n => k ∈ l ∧ ∀ p, n = some p → p ∈ l
  | release _ _ k => k ∈ l ∧ s.head ≠ some k
  | _ => True

omit [DecidableEq ι] in
theorem PluginPc.Ok.mono (h : pc.Ok s l) (hl : l ⊆ l') (hcount : s.count ≤ s'.count)
    (hpush : ∀ r, pc.pushes = some r → r ∉ l' ∧ s'.next r = s.next r) : pc.Ok s' l' := by
  cases pc with
  | idle | readWorking | scanHead | alloc | loadWorking | body | clearWorking => trivial
  | scanCas | scanNext | recycle | storeSpin | release | setWorking => exact hl h
  | testHead | casHead | loadLock | acquire | linkLoad | linkStore =>
    obtain ⟨hnew, hnext⟩ := hpush _ rfl
    exact ⟨hnew, h.2.1.trans_le hcount, hnext.trans h.2.2⟩
  | storeHead => exact ⟨(hpush _ rfl).1, h.2.trans_le hcount⟩

omit [DecidableEq ι] in
theorem PluginPc.Linked.mono (h : pc.Linked s l) (hl : l ⊆ l')
    (hhead : ∀ k ∈ l, s.head ≠ some k → s'.head ≠ some k) : pc.Linked s' l' := by
  cases pc with
  | acquire | linkLoad | storeHead => exact hl h
  | linkStore =>
    obtain ⟨hk, hn⟩ := h
    exact ⟨hl hk, fun p hp => hl (hn p hp)⟩
  | release =>
    obtain ⟨hk, hne⟩ := h
    exact ⟨hl hk, hhead _ hk hne⟩
  | _ => trivial

omit [DecidableEq ι] in
theorem PluginPc.Ok.pushes (h : pc.Ok s l) {r : Nat} (hr : pc.pushes = some r) :
    r ∉ l ∧ r < s.count := by
  cases pc with
  | testHead | casHead | loadLock | acquire | linkLoad | linkStore =>
    obtain rfl := Option.some.inj hr
    exact ⟨h.1, h.2.1⟩
  | storeHead =>
    obtain rfl := Option.some.inj hr
    exact h
  | _ => exact absurd hr nofun

/-- After a step of thread `i`, every thread knows what it should. -/
theorem ok_step (h : ∀ j, (s.pc j).Ok s l) (hpc : s'.pc = Function.update s.pc i pc)
    (hl : l ⊆ l') (hcount : s.count ≤ s'.count) (hok : pc.Ok s' l')
    (hothers : ∀ j r, j ≠ i → (s.pc j).pushes = some r → r ∉ l' ∧ s'.next r = s.next r)
    (j : ι) : (s'.pc j).Ok s' l' := by
  rw [hpc]
  refine update_holds (P := fun pc : PluginPc => pc.Ok s' l') (fun _ => hok) fun hji => ?_
  exact (h j).mono hl hcount fun r hr => hothers j r hji hr

/-- After a step of thread `i`, no packet is pushed by two threads. -/
theorem apart_step (h : ∀ j k r, (s.pc j).pushes = some r → (s.pc k).pushes = some r → j = k)
    (hpc : s'.pc = Function.update s.pc i pc)
    (hothers : ∀ j r, j ≠ i → (s.pc j).pushes = some r → pc.pushes ≠ some r) (j k : ι) (r : Nat)
    (hj : (s'.pc j).pushes = some r) (hk : (s'.pc k).pushes = some r) : j = k := by
  rw [hpc] at hj hk
  by_cases hji : j = i <;> by_cases hki : k = i
  · rw [hji, hki]
  · subst hji
    rw [Function.update_self] at hj
    rw [Function.update_of_ne hki] at hk
    exact absurd hj (hothers k r hki hk)
  · subst hki
    rw [Function.update_self] at hk
    rw [Function.update_of_ne hji] at hj
    exact absurd hk (hothers j r hji hj)
  · rw [Function.update_of_ne hji] at hj
    rw [Function.update_of_ne hki] at hk
    exact h j k r hj hk

omit [DecidableEq ι] in
/-- What another thread pushes is not what thread `i` pushes. -/
theorem pushes_ne {j : ι} {r r' : Nat} (hok : ∀ j, (s.pc j).Ok s l)
    (hapart : ∀ j k r, (s.pc j).pushes = some r → (s.pc k).pushes = some r → j = k)
    (hpush : (s.pc i).pushes = some r) (hji : j ≠ i) (hr' : (s.pc j).pushes = some r') :
    r' ∉ l ∧ r' ≠ r := by
  refine ⟨((hok j).pushes hr').1, ?_⟩
  rintro rfl
  exact hji (hapart j i r' hr' hpush)

theorem Pool.pc_setPc_self (s : Pool ι) (i : ι) (pc : PluginPc) : (s.setPc i pc).pc i = pc := by
  simp only [Pool.setPc, Function.update_self]

/-! ## One step -/

/-- `l` has the first packet of the list, and with a packet the next one. -/
structure Pool.Closed (s : Pool ι) (l : List Nat) : Prop where
  head : ∀ r, s.head = some r → r ∈ l
  next : ∀ r ∈ l, ∀ p, s.next r = some p → p ∈ l

/-- A thread that goes from `pc` to `pc'` knows what it knew before or can read, and pushes
nothing new. -/
structure PluginPc.Learns (s : Pool ι) (pc pc' : PluginPc) : Prop where
  ok : ∀ l, s.Closed l → pc.Ok s l → pc'.Ok s l
  linked : ∀ l, s.Closed l → pc.Linked s l → pc'.Linked s l
  pushes : ∀ r, pc'.pushes = some r → pc.pushes = some r

omit [DecidableEq ι] in
theorem PluginPc.Learns.refl (s : Pool ι) (pc : PluginPc) : pc.Learns s pc :=
  ⟨fun _ _ h => h, fun _ _ h => h, fun _ h => h⟩

omit [DecidableEq ι] in
/-- Outside of a push. -/
theorem learns_outside {pc' : PluginPc} (hok : ∀ l, s.Closed l → pc.Ok s l → pc'.Ok s l)
    (hlinked : ∀ l, pc'.Linked s l) (hpushes : pc'.pushes = none) : pc.Learns s pc' := by
  refine ⟨hok, fun l _ _ => hlinked l, fun r hr => ?_⟩
  rw [hpushes] at hr
  cases hr

/-- What a step of thread `i` does to the list. -/
inductive ListStep (s : Pool ι) (i : ι) : Pool ι → Prop where
  /-- `packets` and the links stay. -/
  | quiet {s' : Pool ι} {pc : PluginPc} (hpc : s'.pc = Function.update s.pc i pc)
      (hnext : s'.next = s.next) (hhead : s'.head = s.head) (hcount : s'.count = s.count)
      (hstored : s.stored i = none) (hlearns : (s.pc i).Learns s pc) : ListStep s i s'
  | alloc {c : GatherCall} (hpc : s.pc i = .alloc c) :
      ListStep s i ({ s.setCell s.count ⟨packetAlloc .metric, false, none⟩ with
        count := s.count + 1 }.setPc i (.testHead c s.count))
  | link {c : GatherCall} {r k : Nat} {n : Option Nat} (hpc : s.pc i = .linkStore c r k n) :
      ListStep s i ((s.setNext r n).setPc i (.storeHead c r k))
  | cas {c : GatherCall} {r : Nat} (hpc : s.pc i = .casHead c r) (hhead : s.head = none) :
      ListStep s i ({ s with head := some r }.setPc i (.setWorking c r))
  | store {c : GatherCall} {r k : Nat} (hpc : s.pc i = .storeHead c r k) :
      ListStep s i ({ s with head := some r }.setPc i (.release c r k))

/-- Every step of a plugin is one of these. -/
theorem listStep_plugin (license : Text) (tid : ι → UInt64) (s : Pool ι) (i : ι) :
    ListStep s i (pluginStep license tid s i) := by
  have hstay (hstored : s.stored i = none) : ListStep s i s :=
    .quiet (Function.update_eq_self i s.pc).symm rfl rfl rfl hstored (.refl s _)
  have hstep {pc pc' : PluginPc} (hpc : s.pc i = pc) (hstored : s.stored i = none)
      (hlearns : pc.Learns s pc') : ListStep s i (s.setPc i pc') :=
    .quiet rfl rfl rfl rfl hstored (hpc ▸ hlearns)
  simp only [pluginStep]
  cases hpc : s.pc i with
  | idle => exact hstay (by simp only [Pool.stored, hpc])
  | readWorking c =>
    refine hstep hpc (by simp only [Pool.stored, hpc]) ?_
    cases s.working i <;> exact learns_outside (fun _ _ _ => trivial) (fun _ => trivial) rfl
  | scanHead c =>
    refine hstep hpc (by simp only [Pool.stored, hpc]) ?_
    cases hhead : s.head with
    | none => exact learns_outside (fun _ _ _ => trivial) (fun _ => trivial) rfl
    | some r => exact learns_outside (fun _ hl _ => hl.head r hhead) (fun _ => trivial) rfl
  | scanCas c r =>
    have hstored : s.stored i = none := by simp only [Pool.stored, hpc]
    dsimp only
    split
    · refine .quiet rfl (Pool.next_setPkt _) rfl rfl hstored ?_
      rw [hpc]
      exact learns_outside (fun _ _ h => h) (fun _ => trivial) rfl
    · exact hstep hpc hstored (learns_outside (fun _ _ h => h) (fun _ => trivial) rfl)
  | scanNext c r =>
    refine hstep hpc (by simp only [Pool.stored, hpc]) ?_
    cases hnext : (s.heap r).next with
    | none => exact learns_outside (fun _ _ _ => trivial) (fun _ => trivial) rfl
    | some p => exact learns_outside (fun _ hl hr => hl.next r hr p hnext) (fun _ => trivial) rfl
  | recycle c r =>
    refine .quiet rfl (Pool.next_setPkt _) rfl rfl (by simp only [Pool.stored, hpc]) ?_
    rw [hpc]
    exact learns_outside (fun _ _ h => h) (fun _ => trivial) rfl
  | storeSpin c r =>
    refine .quiet rfl (Pool.next_setSpin _) rfl rfl (by simp only [Pool.stored, hpc]) ?_
    rw [hpc]
    exact learns_outside (fun _ _ h => h) (fun _ => trivial) rfl
  | alloc c => exact .alloc hpc
  | testHead c r =>
    refine hstep hpc (by simp only [Pool.stored, hpc]) ?_
    cases s.head <;> exact ⟨fun _ _ h => h, fun _ _ _ => trivial, fun _ h => h⟩
  | casHead c r =>
    cases hhead : s.head with
    | none => exact .cas hpc hhead
    | some k =>
      refine hstep hpc (by simp only [Pool.stored, hpc, hhead]) ?_
      exact ⟨fun _ _ h => h, fun _ _ _ => trivial, fun _ h => h⟩
  | loadLock c r =>
    have hstored : s.stored i = none := by simp only [Pool.stored, hpc]
    cases hhead : s.head with
    | none => exact hstay hstored
    | some k =>
      exact hstep hpc hstored ⟨fun _ _ h => h, fun _ hl _ => hl.head k hhead, fun _ h => h⟩
  | acquire c r k =>
    have hstored : s.stored i = none := by simp only [Pool.stored, hpc]
    dsimp only
    split
    · exact hstay hstored
    · refine .quiet rfl (Pool.next_setSpin _) rfl rfl hstored ?_
      rw [hpc]
      exact ⟨fun _ _ h => h, fun _ _ h => h, fun _ h => h⟩
  | linkLoad c r k =>
    refine hstep hpc (by simp only [Pool.stored, hpc]) ?_
    exact ⟨fun _ _ h => h, fun _ hl h => ⟨h, hl.head⟩, fun _ h => h⟩
  | linkStore c r k n => exact .link hpc
  | storeHead c r k => exact .store hpc
  | release c r k =>
    refine .quiet rfl (Pool.next_setSpin _) rfl rfl (by simp only [Pool.stored, hpc]) ?_
    rw [hpc]
    exact learns_outside (fun _ _ h => h) (fun _ => trivial) rfl
  | setWorking c r =>
    refine .quiet rfl rfl rfl rfl (by simp only [Pool.stored, hpc]) ?_
    exact learns_outside (fun _ _ _ => trivial) (fun _ => trivial) rfl
  | loadWorking c =>
    have hstored : s.stored i = none := by simp only [Pool.stored, hpc]
    cases s.working i with
    | none => exact hstay hstored
    | some r =>
      exact hstep hpc hstored (learns_outside (fun _ _ _ => trivial) (fun _ => trivial) rfl)
  | body r prog =>
    have hstored : s.stored i = none := by simp only [Pool.stored, hpc]
    have hresume (prog : PacketM (GatherError × Bool)) : (s.pc i).Learns s (.resume r prog) := by
      unfold PluginPc.resume
      split <;> exact learns_outside (fun _ _ _ => trivial) (fun _ => trivial) rfl
    cases prog with
    | ret a => exact .quiet rfl rfl rfl rfl hstored (hresume _)
    | op o k => exact .quiet rfl (Pool.next_setPkt _) rfl rfl hstored (hresume _)
  | clearWorking =>
    refine .quiet rfl rfl rfl rfl (by simp only [Pool.stored, hpc]) ?_
    exact learns_outside (fun _ _ _ => trivial) (fun _ => trivial) rfl

theorem pluginStep_pc_of_ne {j : ι} (hji : j ≠ i) :
    (pluginStep license tid s i).pc j = s.pc j := by
  have hstep := listStep_plugin license tid s i
  generalize pluginStep license tid s i = s' at hstep ⊢
  cases hstep with
  | quiet hpc => rw [hpc, Function.update_of_ne hji]
  | alloc | link | cas | store => exact Function.update_of_ne hji _ _

theorem pluginStep_storage (s : Pool ι) (i : ι) :
    (pluginStep license tid s i).storage = s.storage := by
  simp only [pluginStep]
  cases s.pc i with
  | scanCas c r | casHead c r | loadLock c r | acquire c r k | loadWorking c =>
    dsimp only
    split <;> rfl
  | body r prog => cases prog <;> rfl
  | _ => rfl

/-- A step of the storage thread: it changes neither links nor threads. -/
structure SameList (s s' : Pool ι) : Prop where
  next : s'.next = s.next
  head : s'.head = s.head
  count : s'.count = s.count
  pc : s'.pc = s.pc

omit [DecidableEq ι] in
theorem sameList_storage (s : Pool ι) (reply : Reply) : SameList s (storageStep s reply) := by
  simp only [storageStep]
  cases s.storage with
  | idle | loadHead | check r | fetchState r | next r => exact ⟨rfl, rfl, rfl, rfl⟩
  | attempt r | send r | markDone r => exact ⟨Pool.next_setPkt _, rfl, rfl, rfl⟩
  | fetchLock r =>
    dsimp only
    split
    · exact ⟨rfl, rfl, rfl, rfl⟩
    · exact ⟨Pool.next_setSpin _, rfl, rfl, rfl⟩
  | fetchUnlock r ready => exact ⟨Pool.next_setSpin _, rfl, rfl, rfl⟩

end MonitoringAgent
