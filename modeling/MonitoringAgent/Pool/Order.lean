import MonitoringAgent.Lib.Chain
import MonitoringAgent.Pool.List

/-!
# The order of publication

Pushes that race can drop packets from the list, but whatever `packets` was once set to
stays linked to packets that it was set to before. The order in which packets were
published is not stored anywhere; it is recorded here beside the pool.
-/
namespace MonitoringAgent

open Buffer Command Transition Packet Chain

variable {ι : Type}

/-- A walk through `next` from `packets`: what had been published when it began, latest
first, and the packets it has come to. -/
structure Traversal where
  known : List Nat
  seen : List Nat

def Traversal.begin (order : List Nat) (head : Option Nat) : Traversal := ⟨order, head.toList⟩

def Traversal.move (t : Traversal) (next : Option Nat) : Traversal :=
  { t with seen := t.seen ++ next.toList }

/-- The pool with all values `packets` has had, latest first, and the last walk of each
thread in `get_packet` and of `storage_main`. -/
structure Recorded (ι : Type) where
  pool : Pool ι
  order : List Nat
  scans : ι → Traversal
  pass : Traversal

def Recorded.start : Recorded ι := ⟨Pool.start, [], fun _ => ⟨[], []⟩, ⟨[], []⟩⟩

/-- The walk of thread `i` after its step. -/
def Recorded.scan (x : Recorded ι) (i : ι) : Traversal :=
  match x.pool.pc i with
  | .scanHead _ => .begin x.order x.pool.head
  | .scanNext _ r => (x.scans i).move (x.pool.next r)
  | _ => x.scans i

variable [DecidableEq ι]

def recordedStep (license : Text) (tid : ι → UInt64) (x : Recorded ι) (act : PoolAct ι) :
    Recorded ι :=
  let pool := poolStep license tid x.pool act
  match act with
  | .call _ _ | .pass => { x with pool := pool }
  | .plugin i =>
    { x with
      pool := pool
      order := (x.pool.stored i).toList ++ x.order
      scans := Function.update x.scans i (x.scan i) }
  | .storage _ =>
    { x with
      pool := pool
      pass := match x.pool.storage with
        | .loadHead => .begin x.order x.pool.head
        | .next r => x.pass.move (x.pool.next r)
        | _ => x.pass }

/-! ## Links lead back in time -/

variable {license : Text} {tid : ι → UInt64} {s s' : Pool ι} {i : ι} {l l' : List Nat}
  {pc : PluginPc}

/-- The packets published so far are `l`, latest first, and each is linked to an earlier
one; a packet that is being pushed has not been published and is linked to `l` only. -/
structure OrderInv (l : List Nat) (s : Pool ι) : Prop where
  head : s.head = l.head?
  nodup : l.Nodup
  bound : ∀ r ∈ l, r < s.count
  descends : Descends s.next l
  links : ∀ r p, s.next r = some p → p ∈ l
  ok : ∀ i, (s.pc i).Ok s l
  linked : ∀ i, (s.pc i).Linked s l
  apart : ∀ i j r, (s.pc i).pushes = some r → (s.pc j).pushes = some r → i = j

/-- What a step of thread `i` has to show about itself and the others. -/
theorem OrderInv.step (h : OrderInv l s) (hpc : s'.pc = Function.update s.pc i pc)
    (hhead : s'.head = l'.head?) (hnodup : l'.Nodup) (hbound : ∀ r ∈ l', r < s'.count)
    (hdescends : Descends s'.next l') (hlinks : ∀ r p, s'.next r = some p → p ∈ l') (hl : l ⊆ l')
    (hcount : s.count ≤ s'.count)
    (hok : pc.Ok s' l') (hlinked : pc.Linked s' l')
    (hkept : ∀ k ∈ l, s.head ≠ some k → s'.head ≠ some k)
    (hothers : ∀ j r, j ≠ i → (s.pc j).pushes = some r →
      r ∉ l' ∧ s'.next r = s.next r ∧ pc.pushes ≠ some r) : OrderInv l' s' where
  head := hhead
  nodup := hnodup
  bound := hbound
  descends := hdescends
  links := hlinks
  ok := by
    refine ok_step h.ok hpc hl hcount hok fun j r hji hr => ?_
    obtain ⟨hnew, hnext, -⟩ := hothers j r hji hr
    exact ⟨hnew, hnext⟩
  linked := by
    intro j
    rw [hpc]
    exact update_holds (P := fun pc : PluginPc => pc.Linked s' l') (fun _ => hlinked) fun _ =>
      (h.linked j).mono hl hkept
  apart := apart_step h.apart hpc fun j r hji hr => (hothers j r hji hr).2.2

/-- The packets in `new` are published; the links of those before stay. -/
def Publishes (new l : List Nat) (s s' : Pool ι) : Prop :=
  (∀ r ∈ l, s'.next r = s.next r) ∧ OrderInv (new ++ l) s'

/-- A step that publishes nothing and sets no link. -/
theorem OrderInv.quiet (h : OrderInv l s) (hpc : s'.pc = Function.update s.pc i pc)
    (hnext : s'.next = s.next) (hhead : s'.head = s.head) (hcount : s'.count = s.count)
    (hok : pc.Ok s l) (hlinked : pc.Linked s l)
    (hpush : ∀ r, pc.pushes = some r → (s.pc i).pushes = some r) : Publishes [] l s s' := by
  have hkept : ∀ k ∈ l, s.head ≠ some k → s'.head ≠ some k := fun k _ hk => by rwa [hhead]
  refine ⟨fun r _ => by rw [hnext], h.step hpc ?_ h.nodup ?_ ?_ ?_ (List.Subset.refl l)
    hcount.ge ?_ (hlinked.mono (List.Subset.refl l) hkept) hkept ?_⟩
  · rw [hhead]
    exact h.head
  · rw [hcount]
    exact h.bound
  · rw [hnext]
    exact h.descends
  · rw [hnext]
    exact h.links
  · exact hok.mono (List.Subset.refl l) hcount.ge fun r hr => ⟨(hok.pushes hr).1, by rw [hnext]⟩
  · intro j r hji hr
    refine ⟨((h.ok j).pushes hr).1, by rw [hnext], fun hi => hji ?_⟩
    exact h.apart j i r hr (hpush r hi)

/-- A new packet is not published yet, and nobody else pushes it. -/
theorem OrderInv.alloc (h : OrderInv l s) (i : ι) (c : GatherCall) (cell : Cell)
    (hcell : cell.next = none) :
    Publishes [] l s ({ s.setCell s.count cell with count := s.count + 1 }.setPc i
      (.testHead c s.count)) := by
  have hlist : ∀ r ∈ l, (s.setCell s.count cell).next r = s.next r := fun r hr =>
    Pool.next_setCell_of_ne (h.bound r hr).ne
  have hnew : (s.setCell s.count cell).next s.count = none := by
    rw [Pool.next_setCell, Function.update_self, hcell]
  refine ⟨hlist, h.step rfl h.head h.nodup ?_ (h.descends.congr hlist) ?_ (List.Subset.refl l)
    (Nat.le_succ _) ⟨fun hmem => lt_irrefl _ (h.bound _ hmem), Nat.lt_succ_self _, hnew⟩ trivial
    (fun _ _ hk => hk) ?_⟩
  · intro r hr
    exact Nat.lt_succ_of_lt (h.bound r hr)
  · change ∀ r p, (s.setCell s.count cell).next r = some p → p ∈ l
    rw [Pool.next_setCell, hcell]
    intro r p hp
    rw [Function.update_apply] at hp
    split at hp
    · cases hp
    · exact h.links r p hp
  · intro j r hji hr
    obtain ⟨hnot, hlt⟩ := (h.ok j).pushes hr
    exact ⟨hnot, Pool.next_setCell_of_ne hlt.ne, fun he => hlt.ne (Option.some.inj he).symm⟩

/-- The link of a packet that has not been published, to one that has. -/
theorem OrderInv.linkStore {c : GatherCall} {r k : Nat} {n : Option Nat} (h : OrderInv l s)
    (hpc : s.pc i = .linkStore c r k n) :
    Publishes [] l s ((s.setNext r n).setPc i (.storeHead c r k)) := by
  have hpush : (s.pc i).pushes = some r := by rw [hpc]; rfl
  obtain ⟨hnot, hlt⟩ := (h.ok i).pushes hpush
  have hlinked := h.linked i
  rw [hpc] at hlinked
  obtain ⟨hk, hn⟩ := hlinked
  have hlist : ∀ r' ∈ l, (s.setNext r n).next r' = s.next r' := fun r' hr' =>
    Pool.next_setNext_of_ne (ne_of_mem_of_not_mem hr' hnot)
  refine ⟨hlist, h.step rfl h.head h.nodup h.bound (h.descends.congr hlist) ?_
    (List.Subset.refl l) le_rfl ⟨hnot, hlt⟩ hk (fun _ _ hk => hk) ?_⟩
  · change ∀ r' p, (s.setNext r n).next r' = some p → p ∈ l
    rw [Pool.next_setNext]
    intro r' p hp
    rw [Function.update_apply] at hp
    split at hp
    · exact hn p hp
    · exact h.links r' p hp
  · intro j r' hji hr'
    obtain ⟨hnew, hne⟩ := pushes_ne h.ok h.apart hpush hji hr'
    exact ⟨hnew, Pool.next_setNext_of_ne hne, fun he => hne (Option.some.inj he).symm⟩

/-- The store into `packets`, whatever its value was. -/
theorem OrderInv.publish {r : Nat} (h : OrderInv l s) (hpush : (s.pc i).pushes = some r)
    (hpc : pc.pushes = none) (hok : pc.Ok s (r :: l))
    (hlinked : pc.Linked { s with head := some r } (r :: l)) :
    Publishes [r] l s ({ s with head := some r }.setPc i pc) := by
  obtain ⟨hnot, hlt⟩ := (h.ok i).pushes hpush
  have hpush' : ∀ r', pc.pushes ≠ some r' := by
    intro r' he
    rw [hpc] at he
    cases he
  have hl : l ⊆ r :: l := List.subset_cons_self r l
  refine ⟨fun _ _ => rfl, h.step rfl rfl (List.nodup_cons.mpr ⟨hnot, h.nodup⟩) ?_
    (h.descends.cons (h.links r)) (fun r' p hp => hl (h.links r' p hp)) hl le_rfl ?_ ?_ ?_ ?_⟩
  · intro r' hr'
    rcases List.mem_cons.mp hr' with rfl | hr'
    · exact hlt
    · exact h.bound r' hr'
  · exact hok.mono (List.Subset.refl _) le_rfl fun r' he => absurd he (hpush' r')
  · exact hlinked.mono (List.Subset.refl _) fun _ _ hk => hk
  · intro k hk _ he
    exact hnot (Option.some.inj he ▸ hk)
  · intro j r' hji hr'
    obtain ⟨hnew, hne⟩ := pushes_ne h.ok h.apart hpush hji hr'
    exact ⟨List.not_mem_cons_of_ne_of_not_mem hne hnew, rfl, hpush' r'⟩

omit [DecidableEq ι] in
theorem OrderInv.closed (h : OrderInv l s) : s.Closed l where
  head := fun _ hr => List.mem_of_mem_head? (h.head.symm.trans hr)
  next := fun r _ p hp => h.links r p hp

/-- Every step of a plugin, racing or not. -/
theorem orderInv_plugin (h : OrderInv l s) (i : ι) :
    Publishes (s.stored i).toList l s (pluginStep license tid s i) := by
  have hok := h.ok i
  have hlinked := h.linked i
  have hstep := listStep_plugin license tid s i
  generalize pluginStep license tid s i = s' at hstep ⊢
  cases hstep with
  | quiet hpc hnext hhead hcount hstored hlearns =>
    rw [hstored]
    exact h.quiet hpc hnext hhead hcount (hlearns.ok l h.closed hok)
      (hlearns.linked l h.closed hlinked) hlearns.pushes
  | alloc hpc =>
    simp only [Pool.stored, hpc]
    exact h.alloc i _ _ rfl
  | link hpc =>
    simp only [Pool.stored, hpc]
    exact h.linkStore hpc
  | cas hpc hhead =>
    simp only [Pool.stored, hpc, hhead]
    exact h.publish (by rw [hpc]; rfl) rfl List.mem_cons_self trivial
  | @store c r k hpc =>
    simp only [Pool.stored, hpc]
    rw [hpc] at hok hlinked
    have hne : some r ≠ some k := fun he => hok.1 (Option.some.inj he ▸ hlinked)
    exact h.publish (by rw [hpc]; rfl) rfl List.mem_cons_self
      ⟨List.mem_cons_of_mem r hlinked, hne⟩

/-! ## Walks through the list -/

/-- The packet the loop of `get_packet` is at. -/
def PluginPc.scans : PluginPc → Option Nat
  | scanCas _ r | scanNext _ r => some r
  | _ => none

/-- The packet the loop of `storage_main` is at. -/
def StoragePc.passes : StoragePc → Option Nat
  | check r => some r
  | pc => pc.looked

/-- The walk began at some point of the history `l` and has met packets of that time only,
each later than the next; it is at `pos`. -/
structure Traversal.Walks (l : List Nat) (pos : Option Nat) (t : Traversal) : Prop where
  known : t.known <:+ l
  seen : t.seen.Sublist t.known
  met : ∀ r, pos = some r → Met t.known t.seen r

section walks

variable {t : Traversal} {pos pos' : Option Nat} {r : Nat}

omit [DecidableEq ι]

theorem Traversal.Walks.mono (h : t.Walks l pos) (hl : l <:+ l')
    (hpos : ∀ r, pos' = some r → pos = some r) : t.Walks l' pos' where
  known := h.known.trans hl
  seen := h.seen
  met := fun r hr => h.met r (hpos r hr)

theorem walks_begin (h : OrderInv l s) (hpos : ∀ r, pos = some r → s.head = some r) :
    (Traversal.begin l s.head).Walks l pos := by
  have hmet (r : Nat) (hr : s.head = some r) : Met l s.head.toList r := by
    rw [hr]
    exact met_head (h.head.symm.trans hr)
  refine ⟨List.suffix_rfl, ?_, fun r hr => hmet r (hpos r hr)⟩
  cases hhead : s.head with
  | none => exact List.nil_sublist l
  | some r => exact hhead ▸ (hmet r hhead).sublist

/-- The next packet of a walk was published before the last one. -/
theorem Traversal.Walks.move (h : t.Walks l (some r)) (hl : OrderInv l s)
    (hpos : ∀ r', pos = some r' → s.next r = some r') : (t.move (s.next r)).Walks l pos := by
  have hmet := h.met r rfl
  have hr : r ∈ l := h.known.subset hmet.mem
  have hstep (r' : Nat) (hr' : s.next r = some r') : Met t.known (t.move (s.next r)).seen r' := by
    rw [Traversal.move, hr']
    exact hmet.step h.known hl.nodup (hl.descends r hr r' hr')
  refine ⟨h.known, ?_, fun r' hr' => hstep r' (hpos r' hr')⟩
  cases hnext : s.next r with
  | none => rw [Traversal.move, Option.toList_none, List.append_nil]; exact h.seen
  | some r' => exact hnext ▸ (hstep r' hnext).sublist

end walks

/-- How a scan comes to a packet. -/
theorem scans_plugin {r : Nat} (h : ((pluginStep license tid s i).pc i).scans = some r) :
    (∃ c, s.pc i = .scanHead c ∧ s.head = some r) ∨ (∃ c, s.pc i = .scanCas c r) ∨
      ∃ c r', s.pc i = .scanNext c r' ∧ s.next r' = some r := by
  simp only [pluginStep] at h
  cases hpc : s.pc i with
  | scanHead c =>
    rw [hpc] at h
    dsimp only at h
    rw [Pool.pc_setPc_self] at h
    split at h
    · next r' hhead => exact .inl ⟨c, rfl, hhead.trans h⟩
    · cases h
  | scanCas c r' =>
    rw [hpc] at h
    dsimp only at h
    split at h <;> rw [Pool.pc_setPc_self] at h
    · cases h
    · exact .inr (.inl ⟨c, by rw [Option.some.inj h]⟩)
  | scanNext c r' =>
    rw [hpc] at h
    dsimp only at h
    rw [Pool.pc_setPc_self] at h
    split at h
    · next r'' hnext => exact .inr (.inr ⟨c, r', rfl, hnext.trans h⟩)
    · cases h
  | body k prog =>
    have hresume (prog : PacketM (GatherError × Bool)) :
        (PluginPc.resume k prog).scans = none := by
      unfold PluginPc.resume
      split <;> rfl
    rw [hpc] at h
    cases prog <;> dsimp only at h <;> rw [Pool.pc_setPc_self, hresume] at h <;> cases h
  | idle =>
    rw [hpc] at h
    dsimp only at h
    rw [hpc] at h
    cases h
  | recycle | storeSpin | alloc | linkLoad | linkStore | storeHead | release | setWorking
  | clearWorking =>
    rw [hpc] at h
    dsimp only at h
    rw [Pool.pc_setPc_self] at h
    cases h
  | readWorking | testHead | casHead | loadLock | acquire | loadWorking =>
    rw [hpc] at h
    dsimp only at h
    split at h <;> first | (rw [Pool.pc_setPc_self] at h; cases h) | (rw [hpc] at h; cases h)

omit [DecidableEq ι] in
/-- How a pass comes to a packet. -/
theorem passes_storage {r : Nat} {reply : Reply}
    (h : (storageStep s reply).storage.passes = some r) :
    (s.storage = .loadHead ∧ s.head = some r) ∨
      (s.storage.passes = some r ∧ ∀ r', s.storage ≠ .next r') ∨
      ∃ r', s.storage = .next r' ∧ s.next r' = some r := by
  simp only [storageStep] at h
  have hstays {pc : StoragePc} (hpc : pc.passes = some r) (hne : ∀ r', pc ≠ .next r') :
      (pc = .loadHead ∧ s.head = some r) ∨ (pc.passes = some r ∧ ∀ r', pc ≠ .next r') ∨
        ∃ r', pc = .next r' ∧ s.next r' = some r := .inr (.inl ⟨hpc, hne⟩)
  cases hst : s.storage with
  | idle =>
    rw [hst] at h
    dsimp only at h
    rw [hst] at h
    cases h
  | loadHead =>
    rw [hst] at h
    dsimp only at h
    split at h
    · next r' hhead => exact .inl ⟨rfl, hhead.trans h⟩
    · cases h
  | next r' =>
    rw [hst] at h
    dsimp only at h
    split at h
    · next r'' hnext => exact .inr (.inr ⟨r', rfl, hnext.trans h⟩)
    · cases h
  | attempt r' | fetchState r' | markDone r' =>
    rw [hst] at h
    exact hstays h (by simp)
  | check r' =>
    rw [hst] at h
    dsimp only at h
    split at h <;> exact hstays h (by simp)
  | fetchLock r' =>
    rw [hst] at h
    dsimp only at h
    split at h
    · rw [hst] at h
      exact hstays h (by simp)
    · exact hstays h (by simp)
  | fetchUnlock r' ok | send r' =>
    rw [hst] at h
    dsimp only at h
    split at h
    · exact hstays h (by simp)
    · cases h

omit [DecidableEq ι] in
theorem OrderInv.congr (h : OrderInv l s) (hs : SameList s s') : OrderInv l s' where
  head := hs.head.trans h.head
  nodup := h.nodup
  bound := by rw [hs.count]; exact h.bound
  descends := by rw [hs.next]; exact h.descends
  links := by rw [hs.next]; exact h.links
  ok := by
    intro i
    rw [hs.pc]
    exact (h.ok i).mono (List.Subset.refl l) hs.count.ge fun r hr =>
      ⟨((h.ok i).pushes hr).1, by rw [hs.next]⟩
  linked := by
    intro i
    rw [hs.pc]
    exact (h.linked i).mono (List.Subset.refl l) fun k _ hk => by rwa [hs.head]
  apart := by rw [hs.pc]; exact h.apart

/-! ## The invariant of all runs -/

/-- What the walks and the history have to do with each other. -/
structure RecordInv (x : Recorded ι) : Prop where
  order : OrderInv x.order x.pool
  scans : ∀ i, (x.scans i).Walks x.order (x.pool.pc i).scans
  pass : x.pass.Walks x.order x.pool.storage.passes

section invariant

variable {x : Recorded ι}

/-- The walk of a thread after its own step. -/
theorem RecordInv.scan (h : RecordInv x) (i : ι) :
    (x.scan i).Walks x.order ((pluginStep license tid x.pool i).pc i).scans := by
  have hi := h.scans i
  rw [Recorded.scan]
  cases hpc : x.pool.pc i with
  | scanHead c =>
    refine walks_begin h.order fun r hr => ?_
    rcases scans_plugin hr with ⟨c', -, hhead⟩ | ⟨c', he⟩ | ⟨c', r', he, -⟩
    · exact hhead
    · simp [hpc] at he
    · simp [hpc] at he
  | scanNext c r =>
    rw [hpc] at hi
    refine hi.move h.order fun r' hr => ?_
    rcases scans_plugin hr with ⟨c', he, -⟩ | ⟨c', he⟩ | ⟨c', r'', he, hnext⟩
    · simp [hpc] at he
    · simp [hpc] at he
    · obtain ⟨-, rfl⟩ := PluginPc.scanNext.inj (hpc.symm.trans he)
      exact hnext
  | _ =>
    refine hi.mono List.suffix_rfl fun r hr => ?_
    rcases scans_plugin hr with ⟨c', he, -⟩ | ⟨c', he⟩ | ⟨c', r'', he, -⟩
    · simp [hpc] at he
    · rw [he]
      rfl
    · simp [hpc] at he

/-- The history and the links of what is in it are kept. -/
structure Recorded.Keeps (x y : Recorded ι) : Prop where
  order : x.order <:+ y.order
  next : ∀ r ∈ x.order, y.pool.next r = x.pool.next r

omit [DecidableEq ι] in
theorem Recorded.Keeps.refl (x : Recorded ι) : x.Keeps x := ⟨List.suffix_rfl, fun _ _ => rfl⟩

omit [DecidableEq ι] in
theorem Recorded.Keeps.trans {y z : Recorded ι} (h : x.Keeps y) (h' : y.Keeps z) :
    x.Keeps z where
  order := h.order.trans h'.order
  next := fun r hr => (h'.next r (h.order.subset hr)).trans (h.next r hr)

omit [DecidableEq ι] in
theorem recordInv_start : RecordInv (Recorded.start : Recorded ι) where
  order := by
    refine ⟨rfl, List.nodup_nil, ?_, ?_, ?_, fun _ => trivial, fun _ => trivial, ?_⟩
    · intro r hr
      cases hr
    · intro r hr
      cases hr
    · intro r p hr
      cases hr
    · intro i j r hr
      cases hr
  scans := by
    refine fun i => ⟨List.nil_suffix, List.Sublist.refl _, fun r hr => ?_⟩
    cases hr
  pass := by
    refine ⟨List.nil_suffix, List.Sublist.refl _, fun r hr => ?_⟩
    cases hr

theorem recordInv_plugin (h : RecordInv x) (i : ι) :
    RecordInv (recordedStep license tid x (.plugin i)) ∧
      x.Keeps (recordedStep license tid x (.plugin i)) := by
  obtain ⟨hnext, horder⟩ : Publishes _ x.order x.pool (pluginStep license tid x.pool i) :=
    orderInv_plugin h.order i
  have hsuf : x.order <:+ (x.pool.stored i).toList ++ x.order := List.suffix_append _ _
  refine ⟨⟨horder, fun j => ?_, ?_⟩, hsuf, hnext⟩
  · change (Function.update x.scans i (x.scan i) j).Walks _ _
    by_cases hji : j = i
    · subst hji
      rw [Function.update_self]
      exact (h.scan j).mono hsuf fun r hr => hr
    · rw [Function.update_of_ne hji]
      refine (h.scans j).mono hsuf fun r hr => ?_
      exact pluginStep_pc_of_ne hji ▸ hr
  · exact h.pass.mono hsuf fun r hr => pluginStep_storage x.pool i ▸ hr

theorem recordInv_storage (h : RecordInv x) (reply : Reply) :
    RecordInv (recordedStep license tid x (.storage reply)) ∧
      x.Keeps (recordedStep license tid x (.storage reply)) := by
  have hs := sameList_storage x.pool reply
  refine ⟨⟨h.order.congr hs, fun i => ?_, ?_⟩, List.suffix_rfl, fun r _ => by rw [← hs.next]; rfl⟩
  · exact (h.scans i).mono List.suffix_rfl fun r hr => hs.pc ▸ hr
  · have hpass := h.pass
    simp only [recordedStep, poolStep]
    cases hst : x.pool.storage with
    | loadHead =>
      refine walks_begin h.order fun r hr => ?_
      rcases passes_storage hr with ⟨-, hhead⟩ | ⟨hr', -⟩ | ⟨r', he, -⟩
      · exact hhead
      · simp [hst, StoragePc.passes] at hr'
      · simp [hst] at he
    | next r =>
      rw [hst] at hpass
      refine hpass.move h.order fun r' hr => ?_
      rcases passes_storage hr with ⟨he, -⟩ | ⟨-, hne⟩ | ⟨r'', he, hnext⟩
      · simp [hst] at he
      · exact absurd hst (hne r)
      · obtain rfl := StoragePc.next.inj (hst.symm.trans he)
        exact hnext
    | _ =>
      refine hpass.mono List.suffix_rfl fun r hr => ?_
      rcases passes_storage hr with ⟨he, -⟩ | ⟨hr', -⟩ | ⟨r'', he, -⟩
      · simp [hst] at he
      · exact hr'
      · simp [hst] at he

/-- Every action keeps the invariant, the history and the links in it. -/
theorem recordInv_step (h : RecordInv x) (act : PoolAct ι) :
    RecordInv (recordedStep license tid x act) ∧ x.Keeps (recordedStep license tid x act) := by
  cases act with
  | call i c =>
    simp only [recordedStep, poolStep]
    cases hpc : x.pool.pc i with
    | idle =>
      obtain ⟨hnext, horder⟩ : Publishes [] x.order x.pool (x.pool.setPc i (.readWorking c)) :=
        h.order.quiet rfl rfl rfl rfl trivial trivial (by simp)
      refine ⟨⟨horder, fun j => ?_, h.pass⟩, List.suffix_rfl, hnext⟩
      refine (h.scans j).mono List.suffix_rfl fun r hr => ?_
      by_cases hji : j = i
      · subst hji
        change ((x.pool.setPc j (.readWorking c)).pc j).scans = some r at hr
        rw [Pool.pc_setPc_self] at hr
        cases hr
      · simpa [Pool.setPc, hji] using hr
    | _ => exact ⟨h, .refl x⟩
  | plugin i => exact recordInv_plugin h i
  | pass =>
    simp only [recordedStep, poolStep]
    cases x.pool.storage with
    | idle =>
      refine ⟨⟨h.order.congr ⟨rfl, rfl, rfl, rfl⟩, h.scans, ?_⟩, List.suffix_rfl, fun _ _ => rfl⟩
      refine h.pass.mono List.suffix_rfl fun r hr => ?_
      cases hr
    | _ => exact ⟨h, .refl x⟩
  | storage reply => exact recordInv_storage h reply

end invariant

/-! ## What every run has -/

/-- The walk has met only packets that were published when it began, none of them twice. -/
structure Traversal.Simple (l : List Nat) (t : Traversal) : Prop where
  known : t.known <:+ l
  once : t.seen.Nodup
  seen : t.seen ⊆ t.known

/-- Each packet was published once and is linked to one published before it, and one not
published yet to one that is; so the list from any value of `packets` ends, and no walk
meets a packet twice. -/
structure OrderSafe (x : Recorded ι) : Prop where
  head : x.pool.head = x.order.head?
  once : x.order.Nodup
  earlier : ∀ r ∈ x.order, ∀ p, x.pool.next r = some p → [r, p].Sublist x.order
  linked : ∀ r p, x.pool.next r = some p → p ∈ x.order
  acyclic : ∀ r ∈ x.order, ∃ l, Links x.pool.next (some r) l ∧ l.Nodup
  scans : ∀ i, (x.scans i).Simple x.order
  scanned : ∀ i r, (x.pool.pc i).scans = some r → (x.scans i).seen.getLast? = some r
  pass : x.pass.Simple x.order
  passed : ∀ r, x.pool.storage.passes = some r → x.pass.seen.getLast? = some r

omit [DecidableEq ι] in
theorem Traversal.Walks.simple {t : Traversal} {pos : Option Nat} (h : t.Walks l pos)
    (hnodup : l.Nodup) : t.Simple l where
  known := h.known
  once := (hnodup.sublist h.known.sublist).sublist h.seen
  seen := h.seen.subset

omit [DecidableEq ι] in
theorem RecordInv.safe {x : Recorded ι} (h : RecordInv x) : OrderSafe x where
  head := h.order.head
  once := h.order.nodup
  earlier := h.order.descends
  linked := h.order.links
  acyclic := by
    intro r hr
    obtain ⟨l₁, l₂, hl⟩ := List.append_of_mem hr
    obtain ⟨l, hlinks, hsub⟩ := h.order.descends.links h.order.nodup hl
    have hnodup : (r :: l₂).Nodup := by
      refine h.order.nodup.sublist ?_
      rw [hl]
      exact List.sublist_append_right l₁ (r :: l₂)
    exact ⟨l, hlinks, hnodup.sublist hsub⟩
  scans := fun i => (h.scans i).simple h.order.nodup
  scanned := fun i r hr => ((h.scans i).met r hr).last
  pass := h.pass.simple h.order.nodup
  passed := fun r hr => (h.pass.met r hr).last

/-- What is recorded changes nothing in the pool. -/
theorem pool_recordedStep (x : Recorded ι) (act : PoolAct ι) :
    (recordedStep license tid x act).pool = poolStep license tid x.pool act := by
  cases act <;> rfl

end MonitoringAgent
