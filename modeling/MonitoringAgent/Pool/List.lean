import MonitoringAgent.Lib.Chain
import MonitoringAgent.Pool.Push

/-!
# The list of packets

`get_packet` pushes a new packet under the lock of whatever packet was first when it read
`packets`. As long as `packets` still has the value that went into `pkt->next` when
`packets = pkt` is executed, no packet is lost; two threads under different locks can
break that.
-/
namespace MonitoringAgent

open Buffer Command Transition Packet Chain

variable {ι : Type}

namespace Pool

/-- Packet `r` is met on the way from `packets` through `next`. -/
def Reachable (s : Pool ι) (r : Nat) : Prop := Reach s.next s.head r

/-- The loop of `storage_main` is about to end because there is no further packet. -/
def PassOver (s : Pool ι) : Prop :=
  match s.storage with
  | .loadHead => s.head = none
  | .next r => s.next r = none
  | _ => False

end Pool

/-- The pool with what `get_packet` has returned, and what the present pass of
`storage_main` found returned when it began and has looked at since. -/
structure Watched (ι : Type) where
  pool : Pool ι
  returned : List Nat
  due : List Nat
  seen : List Nat

def Watched.start : Watched ι := ⟨Pool.start, [], [], []⟩

/-- The packet `get_packet` returns at this point. -/
def PluginPc.returns : PluginPc → Option Nat
  | setWorking _ r => some r
  | _ => none

/-- The packet about to be stored into `packets`. -/
def PluginPc.stores : PluginPc → Option Nat
  | storeHead _ r _ => some r
  | _ => none

/-- `packets` has not changed since it was read for `pkt->next`. -/
def HeadKept (x : Watched ι) : PoolAct ι → Prop
  | .plugin i => ∀ r ∈ (x.pool.pc i).stores, x.pool.head = x.pool.next r
  | _ => True

instance (x : Watched ι) (act : PoolAct ι) : Decidable (HeadKept x act) :=
  match act with
  | .plugin i => inferInstanceAs (Decidable (∀ r ∈ (x.pool.pc i).stores, _))
  | .call _ _ | .pass | .storage _ => .isTrue trivial

variable [DecidableEq ι]

def watchedStep (license : Text) (tid : ι → UInt64) (x : Watched ι) (act : PoolAct ι) :
    Watched ι :=
  let pool := poolStep license tid x.pool act
  match act with
  | .call _ _ => { x with pool := pool }
  | .plugin i => { x with pool := pool, returned := (pool.pc i).returns.toList ++ x.returned }
  | .pass =>
    match x.pool.storage with
    | .idle => { x with pool := pool, due := x.returned, seen := [] }
    | _ => { x with pool := pool }
  | .storage _ =>
    match x.pool.storage with
    | .check r => { x with pool := pool, seen := r :: x.seen }
    | _ => { x with pool := pool }

/-! ## The push -/

variable {license : Text} {tid : ι → UInt64} {s s' : Pool ι} {i : ι} {l l' : List Nat}
  {pc : PluginPc}

/-- The list from `packets` is `l`; a packet that is being pushed is not in it yet and is
pushed by one thread. -/
structure ListInv (l : List Nat) (s : Pool ι) : Prop where
  links : Links s.next s.head l
  bound : ∀ r ∈ l, r < s.count
  ok : ∀ i, (s.pc i).Ok s l
  apart : ∀ i j r, (s.pc i).pushes = some r → (s.pc j).pushes = some r → i = j

/-- The list only grows at its head, and its links stay. -/
def Grows (l : List Nat) (s s' : Pool ι) : Prop :=
  ∃ l', l <:+ l' ∧ (∀ r ∈ l, s'.next r = s.next r) ∧ ListInv l' s'

/-- What a step of thread `i` has to show about itself and the others. -/
theorem ListInv.step (h : ListInv l s) (hpc : s'.pc = Function.update s.pc i pc)
    (hlinks : Links s'.next s'.head l') (hbound : ∀ r ∈ l', r < s'.count) (hl : l ⊆ l')
    (hcount : s.count ≤ s'.count) (hok : pc.Ok s' l')
    (hothers : ∀ j r, j ≠ i → (s.pc j).pushes = some r →
      r ∉ l' ∧ s'.next r = s.next r ∧ pc.pushes ≠ some r) : ListInv l' s' where
  links := hlinks
  bound := hbound
  ok := by
    refine ok_step h.ok hpc hl hcount hok fun j r hji hr => ?_
    obtain ⟨hnew, hnext, -⟩ := hothers j r hji hr
    exact ⟨hnew, hnext⟩
  apart := apart_step h.apart hpc fun j r hji hr => (hothers j r hji hr).2.2

/-- A step that leaves the list alone. -/
theorem ListInv.quiet (h : ListInv l s) (hpc : s'.pc = Function.update s.pc i pc)
    (hnext : s'.next = s.next) (hhead : s'.head = s.head) (hcount : s'.count = s.count)
    (hok : pc.Ok s l) (hpush : ∀ r, pc.pushes = some r → (s.pc i).pushes = some r) :
    Grows l s s' := by
  refine ⟨l, List.suffix_rfl, fun r _ => by rw [hnext], h.step hpc ?_ ?_ ?_ hcount.ge ?_ ?_⟩
  · rw [hnext, hhead]
    exact h.links
  · rw [hcount]
    exact h.bound
  · exact fun _ hr => hr
  · refine hok.mono (fun _ hr => hr) hcount.ge fun r hr => ⟨(hok.pushes hr).1, by rw [hnext]⟩
  · intro j r hji hr
    refine ⟨((h.ok j).pushes hr).1, by rw [hnext], fun hi => hji ?_⟩
    exact h.apart j i r hr (hpush r hi)

/-- A new packet lies outside the list and every other push. -/
theorem ListInv.alloc (h : ListInv l s) (i : ι) (c : GatherCall) (cell : Cell)
    (hcell : cell.next = none) :
    Grows l s ({ s.setCell s.count cell with count := s.count + 1 }.setPc i
      (.testHead c s.count)) := by
  have hlist : ∀ r ∈ l, (s.setCell s.count cell).next r = s.next r := fun r hr =>
    Pool.next_setCell_of_ne (h.bound r hr).ne
  have hnew : (s.setCell s.count cell).next s.count = none := by
    rw [Pool.next_setCell, Function.update_self, hcell]
  refine ⟨l, List.suffix_rfl, hlist, h.step rfl (h.links.congr hlist) ?_ (fun _ hr => hr)
    (Nat.le_succ _) ⟨fun hmem => lt_irrefl _ (h.bound _ hmem), Nat.lt_succ_self _, hnew⟩ ?_⟩
  · exact fun r hr => Nat.lt_succ_of_lt (h.bound r hr)
  · intro j r hji hr
    obtain ⟨hnot, hlt⟩ := (h.ok j).pushes hr
    exact ⟨hnot, Pool.next_setCell_of_ne hlt.ne, fun he => hlt.ne (Option.some.inj he).symm⟩

/-- The link of a packet outside the list. -/
theorem ListInv.linkStore {c : GatherCall} {r k : Nat} {n : Option Nat} (h : ListInv l s)
    (hpc : s.pc i = .linkStore c r k n) :
    Grows l s ((s.setNext r n).setPc i (.storeHead c r k)) := by
  have hpush : (s.pc i).pushes = some r := by rw [hpc]; rfl
  obtain ⟨hnot, hlt⟩ := (h.ok i).pushes hpush
  have hlist : ∀ r' ∈ l, (s.setNext r n).next r' = s.next r' := fun r' hr' =>
    Pool.next_setNext_of_ne (ne_of_mem_of_not_mem hr' hnot)
  refine ⟨l, List.suffix_rfl, hlist, h.step rfl (h.links.congr hlist) h.bound (fun _ hr => hr)
    le_rfl ⟨hnot, hlt⟩ ?_⟩
  intro j r' hji hr'
  obtain ⟨hnew, hne⟩ := pushes_ne h.ok h.apart hpush hji hr'
  exact ⟨hnew, Pool.next_setNext_of_ne hne, fun he => hne (Option.some.inj he).symm⟩

/-- A packet that points at the head of the list is pushed. -/
theorem ListInv.pushed {r : Nat} (h : ListInv l s) (hpush : (s.pc i).pushes = some r)
    (hnext : s.next r = s.head) (hok : pc.Ok s (r :: l)) (hpc : pc.pushes = none) :
    Grows l s ({ s with head := some r }.setPc i pc) := by
  obtain ⟨hnot, hlt⟩ := (h.ok i).pushes hpush
  have hpush' : ∀ r', pc.pushes ≠ some r' := fun r' he => absurd (hpc.symm.trans he) nofun
  refine ⟨r :: l, List.suffix_cons _ _, fun _ _ => rfl, h.step rfl (h.links.push hnext) ?_
    (fun _ hr => List.mem_cons_of_mem _ hr) le_rfl ?_ ?_⟩
  · intro r' hr'
    rcases List.mem_cons.mp hr' with rfl | hr'
    · exact hlt
    · exact h.bound r' hr'
  · exact hok.mono (fun _ hr => hr) le_rfl fun r' he => absurd he (hpush' r')
  · intro j r' hji hr'
    obtain ⟨hnew, hne⟩ := pushes_ne h.ok h.apart hpush hji hr'
    exact ⟨List.not_mem_cons_of_ne_of_not_mem hne hnew, rfl, hpush' r'⟩

omit [DecidableEq ι] in
theorem ListInv.closed (h : ListInv l s) : s.Closed l where
  head := fun _ hr => (hr ▸ h.links).head_mem
  next := fun _ hr _ hp => h.links.next_mem hr hp

/-- Every step of a plugin but an unsafe `packets = pkt` keeps the list. -/
theorem grows_plugin (h : ListInv l s) (i : ι)
    (hkept : ∀ r ∈ (s.pc i).stores, s.head = s.next r) :
    Grows l s (pluginStep license tid s i) := by
  have hok := h.ok i
  have hstep := listStep_plugin license tid s i
  generalize pluginStep license tid s i = s' at hstep ⊢
  cases hstep with
  | quiet hpc hnext hhead hcount _ hlearns =>
    exact h.quiet hpc hnext hhead hcount (hlearns.ok l h.closed hok) hlearns.pushes
  | alloc hpc => exact h.alloc i _ _ rfl
  | link hpc => exact h.linkStore hpc
  | cas hpc hhead =>
    rw [hpc] at hok
    have hnext := hok.2.2.trans hhead.symm
    exact h.pushed (by rw [hpc]; rfl) hnext List.mem_cons_self rfl
  | store hpc =>
    have hnext := hkept _ (by rw [hpc]; rfl)
    exact h.pushed (by rw [hpc]; rfl) hnext.symm List.mem_cons_self rfl

/-! ## The passes of the storage thread -/

/-- The packets due are behind the pass or in the list from `pos` on. -/
def Ahead (l : List Nat) (s : Pool ι) (due seen : List Nat) (pos : Option Nat) : Prop :=
  ∃ l', l' <:+ l ∧ Links s.next pos l' ∧ ∀ r ∈ due, r ∈ seen ∨ r ∈ l'

/-- The packet the pass has looked at last. -/
@[simp]
def StoragePc.looked : StoragePc → Option Nat
  | attempt r | fetchLock r | fetchState r | fetchUnlock r _ | send r | markDone r
  | next r => some r
  | idle | loadHead | check _ => none

structure WatchInv (l : List Nat) (x : Watched ι) : Prop where
  list : ListInv l x.pool
  returned : ∀ r ∈ x.returned, r ∈ l
  begins : x.pool.storage = .loadHead → ∀ r ∈ x.due, r ∈ l
  checks : ∀ r, x.pool.storage = .check r → Ahead l x.pool x.due x.seen (some r)
  looked : ∀ r, x.pool.storage.looked = some r →
    r ∈ l ∧ Ahead l x.pool x.due x.seen (x.pool.next r)

section passes

variable {x : Watched ι} {due seen : List Nat} {pos : Option Nat} {r : Nat}

omit [DecidableEq ι]

theorem Ahead.grows (h : Ahead l s due seen pos) (hl : l <:+ l')
    (hnext : ∀ r ∈ l, s'.next r = s.next r) : Ahead l' s' due seen pos := by
  obtain ⟨rest, hsuf, hlinks, hdue⟩ := h
  exact ⟨rest, hsuf.trans hl, hlinks.congr fun r hr => hnext r (hsuf.subset hr), hdue⟩

/-- A step that does not concern the pass. -/
theorem WatchInv.grows (h : WatchInv l x) (hgrows : Grows l x.pool s')
    (hst : s'.storage = x.pool.storage) {returned : List Nat}
    (hreturned : ∀ l', ListInv l' s' → l <:+ l' → ∀ r ∈ returned, r ∈ l') :
    ∃ l', WatchInv l' { x with pool := s', returned := returned } := by
  obtain ⟨l', hl, hnext, hlist⟩ := hgrows
  refine ⟨l', hlist, hreturned l' hlist hl, ?_, ?_, ?_⟩
  · intro hload r hr
    exact hl.subset (h.begins (hst ▸ hload) r hr)
  · intro r hcheck
    exact (h.checks r (hst ▸ hcheck)).grows hl hnext
  · intro r hlooked
    obtain ⟨hr, hahead⟩ := h.looked r (hst ▸ hlooked)
    change r ∈ l' ∧ Ahead l' s' x.due x.seen (s'.next r)
    rw [hnext r hr]
    exact ⟨hl.subset hr, hahead.grows hl hnext⟩

theorem ListInv.congr (h : ListInv l s) (hnext : s'.next = s.next) (hhead : s'.head = s.head)
    (hcount : s'.count = s.count) (hpc : s'.pc = s.pc) : ListInv l s' where
  links := by rw [hnext, hhead]; exact h.links
  bound := by rw [hcount]; exact h.bound
  ok := by
    intro i
    rw [hpc]
    exact (h.ok i).mono (fun _ hr => hr) hcount.ge fun r hr =>
      ⟨((h.ok i).pushes hr).1, by rw [hnext]⟩
  apart := by rw [hpc]; exact h.apart

/-- What a look at packet `r` leaves of the pass. -/
theorem Ahead.look (h : Ahead l s due seen (some r)) :
    r ∈ l ∧ Ahead l s due (r :: seen) (s.next r) := by
  obtain ⟨rest, hsuf, hlinks, hdue⟩ := h
  cases hlinks with
  | cons hlinks =>
    refine ⟨hsuf.subset List.mem_cons_self, _, (List.suffix_cons _ _).trans hsuf, hlinks, ?_⟩
    intro d hd
    rcases hdue d hd with hseen | hrest
    · exact .inl (List.mem_cons_of_mem _ hseen)
    · rcases List.mem_cons.mp hrest with rfl | hrest
      · exact .inl List.mem_cons_self
      · exact .inr hrest

/-- A pass that ends has looked at everything that was due. -/
theorem WatchInv.found (h : WatchInv l x) (hover : x.pool.PassOver) : ∀ r ∈ x.due, r ∈ x.seen := by
  unfold Pool.PassOver at hover
  split at hover
  · next hst =>
    have hlinks := h.list.links
    rw [hover] at hlinks
    intro r hr
    have hmem := h.begins hst r hr
    rw [hlinks.eq_nil] at hmem
    exact absurd hmem List.not_mem_nil
  · next r hst =>
    obtain ⟨-, rest, -, hlinks, hdue⟩ := h.looked r (by rw [hst]; rfl)
    rw [hover] at hlinks
    intro d hd
    rcases hdue d hd with hseen | hrest
    · exact hseen
    · rw [hlinks.eq_nil] at hrest
      exact absurd hrest List.not_mem_nil
  · exact hover.elim

theorem WatchInv.storage (h : WatchInv l x) (hs : SameList x.pool s') {seen : List Nat}
    (hbegins : s'.storage ≠ .loadHead)
    (hchecks : ∀ r, s'.storage = .check r → Ahead l x.pool x.due seen (some r))
    (hlooked : ∀ r, s'.storage.looked = some r →
      r ∈ l ∧ Ahead l x.pool x.due seen (x.pool.next r)) :
    WatchInv l { x with pool := s', seen := seen } where
  list := h.list.congr hs.next hs.head hs.count hs.pc
  returned := h.returned
  begins := fun hload => absurd hload hbegins
  checks := fun r hr => (hchecks r hr).grows List.suffix_rfl fun r' _ => by rw [hs.next]
  looked := by
    intro r hr
    obtain ⟨hmem, hahead⟩ := hlooked r hr
    change r ∈ l ∧ Ahead l s' x.due seen (s'.next r)
    rw [hs.next]
    exact ⟨hmem, hahead.grows List.suffix_rfl fun r' _ => by rw [hs.next]⟩

end passes

omit [DecidableEq ι] in
/-- Where the storage thread goes after a look at packet `r`. -/
theorem storageStep_looked {r : Nat} (hr : s.storage.looked = some r) (reply : Reply) :
    (storageStep s reply).storage.looked = some r ∨ (storageStep s reply).storage = .idle ∨
      ∃ r', s.next r = some r' ∧ (storageStep s reply).storage = .check r' := by
  simp only [storageStep]
  cases hst : s.storage with
  | idle | loadHead | check r' =>
    rw [hst] at hr
    simp at hr
  | attempt r' | fetchState r' | markDone r' =>
    rw [hst] at hr
    exact .inl hr
  | fetchLock r' =>
    rw [hst] at hr
    dsimp only
    split
    · rw [hst]
      exact .inl hr
    · exact .inl hr
  | fetchUnlock r' ready =>
    rw [hst] at hr
    cases ready with
    | true => exact .inl hr
    | false => exact .inr (.inl rfl)
  | send r' =>
    rw [hst] at hr
    dsimp only
    split
    · exact .inl hr
    · exact .inr (.inl rfl)
  | next r' =>
    rw [hst] at hr
    obtain rfl := Option.some.inj hr
    dsimp only
    split
    · next r hnext => exact .inr (.inr ⟨r, hnext, rfl⟩)
    · exact .inr (.inl rfl)

theorem watchInv_storage {x : Watched ι} (h : WatchInv l x) (reply : Reply) :
    WatchInv l (watchedStep license tid x (.storage reply)) := by
  have hs := sameList_storage x.pool reply
  have hafter (r : Nat) (hr : x.pool.storage.looked = some r) :
      WatchInv l { x with pool := storageStep x.pool reply } := by
    obtain ⟨hmem, hahead⟩ := h.looked r hr
    rcases storageStep_looked hr reply with hst | hst | ⟨r', hnext, hst⟩
    · refine h.storage hs (fun he => ?_) (fun r' he => ?_) fun r' he => ?_
      · simp [he] at hst
      · simp [he] at hst
      · obtain rfl := Option.some.inj (hst.symm.trans he)
        exact ⟨hmem, hahead⟩
    · refine h.storage hs ?_ ?_ ?_ <;> simp [hst]
    · refine h.storage hs (fun he => ?_) (fun r'' he => ?_) fun r'' he => ?_
      · simp [hst] at he
      · obtain rfl := StoragePc.check.inj (hst.symm.trans he)
        exact hnext ▸ hahead
      · simp [hst] at he
  simp only [watchedStep, poolStep]
  cases hst : x.pool.storage with
  | idle =>
    have hsame : storageStep x.pool reply = x.pool := by simp only [storageStep, hst]
    rw [hsame]
    exact h
  | loadHead =>
    refine h.storage hs ?_ (fun r he => ?_) ?_
    · simp only [storageStep, hst]
      split <;> simp
    · simp only [storageStep, hst] at he
      have hhead : x.pool.head = some r := by
        split at he
        · next r' hhead => rw [hhead, StoragePc.check.inj he]
        · simp at he
      have hlinks := h.list.links
      rw [hhead] at hlinks
      exact ⟨l, List.suffix_rfl, hlinks, fun d hd => .inr (h.begins hst d hd)⟩
    · simp only [storageStep, hst]
      split <;> simp
  | check r =>
    obtain ⟨hmem, hahead⟩ := (h.checks r hst).look
    refine h.storage hs ?_ ?_ fun r' he => ?_
    · simp only [storageStep, hst]
      split <;> simp
    · simp only [storageStep, hst]
      split <;> simp
    · have hr : r' = r := by
        simp only [storageStep, hst] at he
        split at he <;> exact (Option.some.inj he).symm
      rw [hr]
      exact ⟨hmem, hahead⟩
  | attempt r | fetchLock r | fetchState r | fetchUnlock r ready | send r | markDone r | next r =>
    exact hafter r (by rw [hst]; rfl)

/-! ## Runs -/

/-- Some list is the one from `packets`, and the passes follow it. -/
def Listed (x : Watched ι) : Prop := ∃ l, WatchInv l x

omit [DecidableEq ι] in
theorem listed_start : Listed (Watched.start : Watched ι) :=
  ⟨[], ⟨.nil, nofun, fun _ => trivial, nofun⟩, nofun, nofun, nofun, nofun⟩

theorem listed_plugin {x : Watched ι} (h : Listed x) (hkept : HeadKept x (.plugin i)) :
    Listed (watchedStep license tid x (.plugin i)) := by
  obtain ⟨l, h⟩ := h
  refine h.grows (grows_plugin h.list i hkept) (pluginStep_storage x.pool i) ?_
  intro l' hlist hl r hr
  rcases List.mem_append.mp hr with hnew | hold
  · -- the packet `get_packet` has just returned
    have hok := hlist.ok i
    change r ∈ ((pluginStep license tid x.pool i).pc i).returns.toList at hnew
    generalize (pluginStep license tid x.pool i).pc i = pc at hok hnew
    cases pc with
    | setWorking c r' =>
      obtain rfl : r = r' := List.mem_singleton.mp hnew
      exact hok
    | _ => exact absurd hnew List.not_mem_nil
  · exact hl.subset (h.returned r hold)

theorem listed_step {x : Watched ι} {act : PoolAct ι} (hkept : HeadKept x act) (h : Listed x) :
    Listed (watchedStep license tid x act) := by
  cases act with
  | call i c =>
    obtain ⟨l, h⟩ := h
    simp only [watchedStep, poolStep]
    cases x.pool.pc i with
    | idle =>
      have hgrows : Grows l x.pool (x.pool.setPc i (.readWorking c)) :=
        h.list.quiet rfl rfl rfl rfl trivial (by simp)
      exact h.grows hgrows rfl fun l' _ hl r hr => hl.subset (h.returned r hr)
    | _ => exact ⟨l, h⟩
  | plugin i => exact listed_plugin h hkept
  | pass =>
    obtain ⟨l, h⟩ := h
    simp only [watchedStep, poolStep]
    cases x.pool.storage with
    | idle => exact ⟨l, ⟨h.list.links, h.list.bound, h.list.ok, h.list.apart⟩, h.returned,
        fun _ => h.returned, by simp, by simp⟩
    | _ => exact ⟨l, h⟩
  | storage reply =>
    obtain ⟨l, h⟩ := h
    exact ⟨l, watchInv_storage h reply⟩

/-! ## What becomes READY was returned -/

/-- The packet a thread has from `get_packet` or is working on. -/
def PluginPc.uses : PluginPc → Option Nat
  | setWorking _ r | body r _ => some r
  | _ => none

/-- The packet the storage thread is posting. -/
def StoragePc.posts : StoragePc → Option Nat
  | attempt r | fetchLock r | fetchState r | fetchUnlock r _ | send r | markDone r => some r
  | idle | loadHead | check _ | next _ => none

/-- Whatever is in use, and whatever has left EMPTY, was returned by `get_packet`. -/
structure Handed (x : Watched ι) : Prop where
  packets : ∀ r, (x.pool.pkt r).state ≠ .empty → r ∈ x.returned
  uses : ∀ i r, (x.pool.pc i).uses = some r → r ∈ x.returned
  working : ∀ i r, x.pool.working i = some r → r ∈ x.returned
  posts : ∀ r, x.pool.storage.posts = some r → r ∈ x.returned

section handed

variable {x : Watched ι}

/-- What a step of plugin `i` has to show. -/
theorem Handed.setPc (h : Handed x) {s' : Pool ι} {pc : PluginPc}
    (hpc : s'.pc = Function.update x.pool.pc i pc) (hst : s'.storage = x.pool.storage)
    (hpackets : ∀ r, (s'.pkt r).state ≠ .empty → r ∈ x.returned)
    (hworking : ∀ j r, s'.working j = some r → r ∈ x.returned)
    (huses : ∀ r, pc.uses = some r → pc.returns = some r ∨ r ∈ x.returned) :
    Handed { x with pool := s', returned := (s'.pc i).returns.toList ++ x.returned } where
  packets := fun r hr => List.mem_append_right _ (hpackets r hr)
  uses := by
    intro j r hr
    change (s'.pc j).uses = some r at hr
    change r ∈ (s'.pc i).returns.toList ++ x.returned
    rw [hpc] at hr ⊢
    rw [Function.update_self]
    by_cases hji : j = i
    · subst hji
      rw [Function.update_self] at hr
      rcases huses r hr with hnew | hold
      · rw [hnew]
        exact List.mem_append_left _ List.mem_cons_self
      · exact List.mem_append_right _ hold
    · rw [Function.update_of_ne hji] at hr
      exact List.mem_append_right _ (h.uses j r hr)
  working := fun j r hr => List.mem_append_right _ (hworking j r hr)
  posts := fun r hr => List.mem_append_right _ (h.posts r (hst ▸ hr))

omit [DecidableEq ι] in
theorem Handed.setCell (h : Handed x) {r r' : Nat} {cell : Cell}
    (hcell : cell.pkt.state ≠ .empty → r ∈ x.returned)
    (hr : ((x.pool.setCell r cell).pkt r').state ≠ .empty) : r' ∈ x.returned := by
  rw [Pool.pkt_setCell] at hr
  by_cases he : r' = r
  · subst he
    rw [Function.update_self] at hr
    exact hcell hr
  · rw [Function.update_of_ne he] at hr
    exact h.packets r' hr

theorem Handed.setWorking (h : Handed x) {w : Option Nat} (hw : ∀ r, w = some r → r ∈ x.returned)
    {j : ι} {r : Nat} (hr : (x.pool.setWorking i w).working j = some r) : r ∈ x.returned := by
  rw [Pool.setWorking] at hr
  by_cases hji : j = i
  · subst hji
    exact hw r (by simpa using hr)
  · exact h.working j r (by simpa [hji] using hr)

/-- A plugin sets the state of packets it was given only. -/
theorem handed_plugin (h : Handed x) (i : ι) :
    Handed (watchedStep license tid x (.plugin i)) := by
  have hstay : Handed { x with
      pool := x.pool, returned := (x.pool.pc i).returns.toList ++ x.returned } :=
    h.setPc (Function.update_eq_self i x.pool.pc).symm rfl h.packets h.working
      fun r hr => .inr (h.uses i r hr)
  simp only [watchedStep, poolStep, pluginStep]
  cases hpc : x.pool.pc i with
  | idle => exact hstay
  | readWorking c | scanHead c | scanNext c r | testHead c r | casHead c r =>
    dsimp only
    split <;> exact h.setPc rfl rfl h.packets h.working (by simp [PluginPc.uses, PluginPc.returns])
  | scanCas c r =>
    dsimp only
    split
    · exact h.setPc rfl rfl (fun _ => h.setCell (by simp)) h.working (by simp [PluginPc.uses])
    · exact h.setPc rfl rfl h.packets h.working (by simp [PluginPc.uses])
  | recycle c r | storeSpin c r | linkStore c r k n =>
    exact h.setPc rfl rfl (fun _ => h.setCell (h.packets r)) h.working
      (by simp [PluginPc.uses, PluginPc.returns])
  | release c r k =>
    exact h.setPc rfl rfl (fun _ => h.setCell (h.packets k)) h.working
      (by simp [PluginPc.uses, PluginPc.returns])
  | alloc c =>
    exact h.setPc rfl rfl (fun _ => h.setCell (by simp [packetAlloc])) h.working
      (by simp [PluginPc.uses])
  | loadLock c r =>
    dsimp only
    split
    · exact h.setPc rfl rfl h.packets h.working (by simp [PluginPc.uses])
    · exact hstay
  | acquire c r k =>
    dsimp only
    split
    · exact hstay
    · exact h.setPc rfl rfl (fun _ => h.setCell (h.packets k)) h.working (by simp [PluginPc.uses])
  | linkLoad c r k | storeHead c r k =>
    exact h.setPc rfl rfl h.packets h.working (by simp [PluginPc.uses])
  | setWorking c r =>
    refine h.setPc rfl rfl h.packets (fun _ _ => h.setWorking ?_) (by simp [PluginPc.uses])
    rintro _ ⟨rfl⟩
    exact h.uses i r (by rw [hpc]; rfl)
  | loadWorking c =>
    dsimp only
    split
    · next r hw =>
      refine h.setPc rfl rfl h.packets h.working fun r' hr => .inr ?_
      obtain rfl := Option.some.inj hr
      exact h.working i r hw
    · exact hstay
  | body r prog =>
    have hr := h.uses i r (by rw [hpc]; rfl)
    have hresume (prog : PacketM (GatherError × Bool)) (r' : Nat)
        (hr' : (PluginPc.resume r prog).uses = some r') : r' ∈ x.returned := by
      unfold PluginPc.resume at hr'
      split at hr'
      · simp [PluginPc.uses] at hr'
      · simp [PluginPc.uses] at hr'
      · exact Option.some.inj hr' ▸ hr
    cases prog with
    | ret a =>
      exact h.setPc rfl rfl h.packets h.working fun r' hr' => .inr (hresume _ r' hr')
    | op o k =>
      exact h.setPc rfl rfl (fun _ => h.setCell fun _ => hr) h.working
        fun r' hr' => .inr (hresume _ r' hr')
  | clearWorking =>
    exact h.setPc rfl rfl h.packets (fun _ _ => h.setWorking (by simp)) (by simp [PluginPc.uses])

omit [DecidableEq ι] in
/-- What a step of the storage thread has to show. -/
theorem Handed.storage (h : Handed x) {s' : Pool ι} {due seen : List Nat}
    (hpc : s'.pc = x.pool.pc) (hw : s'.working = x.pool.working)
    (hpackets : ∀ r, (s'.pkt r).state ≠ .empty → r ∈ x.returned)
    (hposts : ∀ r, s'.storage.posts = some r → r ∈ x.returned) :
    Handed ⟨s', x.returned, due, seen⟩ where
  packets := hpackets
  uses := fun i r hr => h.uses i r (hpc ▸ hr)
  working := fun i r hr => h.working i r (hw ▸ hr)
  posts := hposts

theorem handed_storage (h : Handed x) (reply : Reply) :
    Handed (watchedStep license tid x (.storage reply)) := by
  have hposts := h.posts
  simp only [watchedStep, poolStep, storageStep]
  cases hst : x.pool.storage with
  | idle => exact h
  | loadHead | next r =>
    dsimp only
    refine h.storage rfl rfl h.packets (fun r' hr => ?_)
    dsimp only at hr
    split at hr <;> simp [StoragePc.posts] at hr
  | check r =>
    dsimp only
    refine h.storage rfl rfl h.packets (fun r' hr => ?_)
    dsimp only at hr
    split at hr
    · next hready =>
      obtain rfl := Option.some.inj hr
      exact h.packets r (by rw [Pool.pkt, hready]; simp)
    · simp [StoragePc.posts] at hr
  | attempt r =>
    rw [hst] at hposts
    dsimp only
    exact h.storage rfl rfl (fun _ => h.setCell (h.packets r)) hposts
  | fetchLock r =>
    rw [hst] at hposts
    dsimp only
    split
    · exact h
    · exact h.storage rfl rfl (fun _ => h.setCell (h.packets r)) hposts
  | fetchState r =>
    rw [hst] at hposts
    dsimp only
    exact h.storage rfl rfl h.packets hposts
  | fetchUnlock r ready =>
    rw [hst] at hposts
    dsimp only
    refine h.storage rfl rfl (fun _ => h.setCell (h.packets r)) (fun r' hr => ?_)
    dsimp only at hr
    split at hr
    · exact hposts r' hr
    · simp [StoragePc.posts] at hr
  | send r =>
    rw [hst] at hposts
    dsimp only
    refine h.storage rfl rfl (fun _ => h.setCell (h.packets r)) (fun r' hr => ?_)
    dsimp only at hr
    split at hr
    · exact hposts r' hr
    · simp [StoragePc.posts] at hr
  | markDone r =>
    rw [hst] at hposts
    dsimp only
    exact h.storage rfl rfl (fun _ => h.setCell fun _ => hposts r rfl)
      (by simp [StoragePc.posts])

theorem handed_step (h : Handed x) (act : PoolAct ι) : Handed (watchedStep license tid x act) := by
  cases act with
  | call i c =>
    simp only [watchedStep, poolStep]
    cases x.pool.pc i with
    | idle =>
      have hpc : (x.pool.setPc i (.readWorking c)).pc =
          Function.update x.pool.pc i (.readWorking c) := rfl
      have hcall := h.setPc hpc rfl h.packets h.working (by simp [PluginPc.uses])
      rwa [hpc, Function.update_self] at hcall
    | _ => exact h
  | plugin i => exact handed_plugin h i
  | pass =>
    simp only [watchedStep, poolStep]
    cases x.pool.storage with
    | idle => exact h.storage rfl rfl h.packets (by simp [StoragePc.posts])
    | _ => exact h
  | storage reply => exact handed_storage h reply

omit [DecidableEq ι] in
theorem handed_start : Handed (Watched.start : Watched ι) where
  packets := fun _ hr => absurd rfl hr
  uses := nofun
  working := nofun
  posts := nofun

end handed

/-- Every packet that was returned is in the list, and so is every READY one; a pass that
comes to the end of the list has looked at all that were returned when it began. -/
structure ListSafe (x : Watched ι) : Prop where
  reachable : ∀ r ∈ x.returned, x.pool.Reachable r
  ready : ∀ r, (x.pool.pkt r).state = .ready → r ∈ x.returned
  found : x.pool.PassOver → ∀ r ∈ x.due, r ∈ x.seen

omit [DecidableEq ι] in
theorem Listed.safe {x : Watched ι} (h : Listed x) (hhanded : Handed x) : ListSafe x := by
  obtain ⟨l, h⟩ := h
  refine ⟨fun r hr => h.list.links.reach (h.returned r hr), fun r hready => ?_, h.found⟩
  exact hhanded.packets r (by rw [hready]; simp)

/-- What is watched changes nothing in the pool. -/
theorem pool_watchedStep (x : Watched ι) (act : PoolAct ι) :
    (watchedStep license tid x act).pool = poolStep license tid x.pool act := by
  simp only [watchedStep]
  cases act with
  | call i c | plugin i => rfl
  | pass | storage reply => cases x.pool.storage <;> rfl

theorem pool_run_watchedStep (x : Watched ι) (acts : List (PoolAct ι)) :
    (run (watchedStep license tid) x acts).pool = run (poolStep license tid) x.pool acts := by
  induction acts generalizing x with
  | nil => rfl
  | cons act acts ih => rw [run_cons, run_cons, ih, pool_watchedStep]

/-- In every interleaving in which `packets` keeps the value that was read for `pkt->next`
until `packets = pkt` is executed, no packet that was returned is ever lost. -/
theorem packets_never_lost (license : Text) (tid : ι → UInt64) (acts : List (PoolAct ι))
    (hkept : Along (watchedStep license tid) HeadKept Watched.start acts) :
    let x := run (watchedStep license tid) Watched.start acts
    x.pool = run (poolStep license tid) Pool.start acts ∧ ListSafe x := by
  refine ⟨pool_run_watchedStep _ acts, Listed.safe ?_ ?_⟩
  · exact invariant_along (fun _ _ hkept h => listed_step hkept h) hkept listed_start
  · exact invariant_run (I := Handed) (fun _ act h => handed_step h act) handed_start

/-- Four plugins in their first call, each with a new packet, and `packets` still 0; then
plugin 0 has stored its packet. -/
def firstCalls : List (PoolAct (Fin 4)) :=
  [0, 1, 2, 3].flatMap (fun i =>
      .call i ⟨0, 0, .fresh, .ret .enodata⟩ :: List.replicate 3 (.plugin i)) ++
    List.replicate 2 (.plugin 0)

/-- Plugin 1 pushes its packet, and a pass of the storage thread comes to the end. -/
def orderlyPush : List (PoolAct (Fin 4)) :=
  firstCalls ++ List.replicate 7 (.plugin 1) ++ .pass :: List.replicate 4 (.storage ⟨[], true, 200⟩)

theorem packets_never_lost_orderly :
    let x := run (watchedStep (str "L") fun _ => 0) Watched.start orderlyPush
    x.due = [1, 0] ∧ x.pool.storage = .next 0 ∧ ListSafe x := by
  refine ⟨by decide, by decide, ?_⟩
  exact (packets_never_lost (str "L") (fun _ => 0) orderlyPush (by decide)).2

/-- Plugins 1 and 2 read the lock of packet 0. When 1 is done with its push, 3 takes the
lock of packet 1 and 2 that of packet 0, and both push in front of packet 1. -/
def lostPush : List (PoolAct (Fin 4)) :=
  firstCalls ++ List.replicate 2 (.plugin 1) ++ List.replicate 2 (.plugin 2) ++
    List.replicate 5 (.plugin 1) ++ List.replicate 4 (.plugin 3) ++ List.replicate 5 (.plugin 2) ++
    List.replicate 2 (.plugin 3)

theorem lostPush_loses :
    let x := run (watchedStep (str "L") fun _ => 0) Watched.start lostPush
    2 ∈ x.returned ∧ ¬ x.pool.Reachable 2 := by
  intro x
  have hhead : x.pool.head = some 3 := by decide
  have h3 : x.pool.next 3 = some 1 := by decide
  have h1 : x.pool.next 1 = some 0 := by decide
  have h0 : x.pool.next 0 = none := by decide
  refine ⟨by decide, fun hreach => ?_⟩
  rw [Pool.Reachable, hhead, reach_some, h3, reach_some, h1, reach_some, h0] at hreach
  rcases hreach with he | he | he | he
  · exact absurd he (by decide)
  · exact absurd he (by decide)
  · exact absurd he (by decide)
  · exact not_reach_none he

end MonitoringAgent
