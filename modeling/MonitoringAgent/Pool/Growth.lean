import MonitoringAgent.Lib.Chain
import MonitoringAgent.Pool.Backoff
import Mathlib.Data.List.Nodup
import Mathlib.Data.List.Perm.Lattice

/-!
# How the pool grows

The pool under whole operations: a `get_packet`, a packet that its plugin has finished, a
pass of `storage_main`. Each releases the locks it takes, so they are left out here. The
loops do not change the links they follow.
-/
namespace MonitoringAgent

open Chain Transition

/-- The addresses that a loop over `next` comes to in at most `n` turns. -/
def walk (next : Nat → Option Nat) : Nat → Option Nat → List Nat
  | 0, _ => []
  | _ + 1, none => []
  | n + 1, some r => r :: walk next n (next r)

/-- The allocated packets, which have the addresses below `count`, and `packets`. -/
structure PacketStore where
  pkt : Nat → Packet
  next : Nat → Option Nat
  count : Nat
  head : Option Nat

namespace PacketStore

/-- `for(pkt=packets; pkt; pkt=pkt->next)`. -/
def list (s : PacketStore) : List Nat := walk s.next s.count s.head

/-- `get_packet`: the packet it returns. A new packet has no `next` of its own, so that the
push onto an empty list is the same as that onto another. -/
def getPacket (s : PacketStore) (type : PacketType) : Nat × PacketStore :=
  match s.list.find? fun r => (s.pkt r).state = .done with
  | some r => (r, { s with pkt := Function.update s.pkt r ((s.pkt r).recycle type) })
  | none =>
    (s.count,
      { pkt := Function.update s.pkt s.count (packetAlloc type)
        next := Function.update s.next s.count s.head
        count := s.count + 1
        head := some s.count })

def InUse (s : PacketStore) (r : Nat) : Prop := (s.pkt r).state ≠ .done

instance (s : PacketStore) : DecidablePred s.InUse := fun r =>
  inferInstanceAs (Decidable ((s.pkt r).state ≠ .done))

/-- The number of packets in use. -/
def inUse (s : PacketStore) : Nat := ((List.range s.count).filter fun r => s.InUse r).length

end PacketStore

/-- A plugin without a packet gets one; it finishes its packet, with what it has written to
it, as READY or as DONE; the storage routine makes a pass. -/
inductive PoolOp (ι : Type) where
  | get (i : ι)
  | finish (i : ι) (pkt : Packet) (ready : Bool)
  | pass (replies : Nat → Reply)

structure Usage (ι : Type) where
  store : PacketStore
  working : ι → Option Nat
  backoff : Backoff

variable {ι : Type}

def Usage.start : Usage ι where
  store := ⟨fun _ => packetAlloc .metric, fun _ => none, 0, none⟩
  working _ := none
  backoff := .start

def usageStep [DecidableEq ι] (s : Usage ι) : PoolOp ι → Usage ι
  | .get i =>
    match s.working i with
    | some _ => s
    | none =>
      let (r, store) := s.store.getPacket .metric
      { s with store := store, working := Function.update s.working i (some r) }
  | .finish i pkt ready =>
    match s.working i with
    | none => s
    | some r =>
      let pkt := { pkt with state := if ready then .ready else .done }
      { s with
        store := { s.store with pkt := Function.update s.store.pkt r pkt }
        working := Function.update s.working i none }
  | .pass replies =>
    let (pkt, backoff, _) := storageLoop replies s.store.list s.store.pkt s.backoff
    { s with store := { s.store with pkt := pkt }, backoff := backoff }

/-- The list from `packets` holds every allocated packet once. -/
structure PacketStore.Whole (s : PacketStore) : Prop where
  links : Links s.next s.head s.list
  perm : s.list.Perm (List.range s.count)

variable {next : Nat → Option Nat} {head : Option Nat} {l : List Nat} {n : Nat}
  {s : PacketStore} {type : PacketType}

/-! ## The list -/

theorem walk_of_links (h : Links next head l) (hn : l.length ≤ n) : walk next n head = l := by
  induction h generalizing n with
  | nil => cases n <;> rfl
  | cons h ih =>
    obtain ⟨n, rfl⟩ : ∃ k, n = k + 1 := ⟨n - 1, by simp at hn; omega⟩
    rw [walk, ih (by simpa using hn)]

theorem PacketStore.Whole.of_links (h : Links s.next s.head l)
    (hl : l.Perm (List.range s.count)) : s.Whole := by
  have hlist : s.list = l := walk_of_links h (by rw [hl.length_eq, List.length_range])
  exact ⟨hlist ▸ h, hlist ▸ hl⟩

theorem PacketStore.Whole.length (h : s.Whole) : s.list.length = s.count := by
  rw [h.perm.length_eq, List.length_range]

theorem PacketStore.Whole.mem (h : s.Whole) {r : Nat} : r ∈ s.list ↔ r < s.count := by
  rw [h.perm.mem_iff, List.mem_range]

theorem PacketStore.Whole.of_pkt (h : s.Whole) (pkt : Nat → Packet) :
    PacketStore.Whole { s with pkt := pkt } := .of_links h.links h.perm

/-- The two ways of `get_packet`. -/
theorem getPacket_cases (h : s.Whole) (type : PacketType) :
    (∃ r < s.count, (s.pkt r).state = .done ∧
      s.getPacket type = (r, { s with pkt := Function.update s.pkt r ((s.pkt r).recycle type) })) ∨
    (∀ r < s.count, s.InUse r) ∧
      s.getPacket type =
        (s.count,
          { pkt := Function.update s.pkt s.count (packetAlloc type)
            next := Function.update s.next s.count s.head
            count := s.count + 1
            head := some s.count }) := by
  rw [PacketStore.getPacket]
  cases hfind : s.list.find? fun r => (s.pkt r).state = .done with
  | some r =>
    left
    have hdone := List.find?_some hfind
    have hmem := List.mem_of_find?_eq_some hfind
    exact ⟨r, h.mem.mp hmem, by simpa using hdone, rfl⟩
  | none =>
    right
    refine ⟨?_, rfl⟩
    intro r hr
    have hnot := List.find?_eq_none.mp hfind r (h.mem.mpr hr)
    simpa [PacketStore.InUse] using hnot

theorem PacketStore.Whole.getPacket (h : s.Whole) (type : PacketType) :
    (s.getPacket type).2.Whole := by
  rcases getPacket_cases h type with ⟨r, -, -, heq⟩ | ⟨-, heq⟩
  · rw [heq]
    exact h.of_pkt _
  · rw [heq]
    have hnew : s.count ∉ s.list := by
      rw [h.mem]
      omega
    have hlinks : Links (Function.update s.next s.count s.head) s.head s.list :=
      h.links.congr fun a ha => Function.update_of_ne (ne_of_mem_of_not_mem ha hnew) _ _
    refine .of_links (hlinks.push (Function.update_self _ _ _)) ?_
    dsimp only
    rw [List.range_succ]
    exact (h.perm.cons _).trans (List.perm_append_singleton _ _).symm

/-- The packet that is given out stands in the list and is in use. -/
theorem PacketStore.Whole.given (h : s.Whole) (type : PacketType) :
    (s.getPacket type).1 ∈ (s.getPacket type).2.list ∧
      (s.getPacket type).2.InUse (s.getPacket type).1 := by
  rw [(h.getPacket type).mem]
  rcases getPacket_cases h type with ⟨r, hr, -, heq⟩ | ⟨-, heq⟩
  · rw [heq]
    exact ⟨hr, by simp [PacketStore.InUse, Packet.recycle]⟩
  · rw [heq]
    exact ⟨Nat.lt_succ_self _, by simp [PacketStore.InUse, packetAlloc]⟩

/-! ## The packets in use -/

theorem inUse_le (s : PacketStore) : s.inUse ≤ s.count :=
  (List.length_filter_le _ _).trans List.length_range.le

theorem inUse_eq_count (h : ∀ r < s.count, s.InUse r) : s.inUse = s.count := by
  have hall : (List.range s.count).filter (fun r => s.InUse r) = List.range s.count :=
    List.filter_eq_self.mpr fun r hr => decide_eq_true (h r (List.mem_range.mp hr))
  rw [PacketStore.inUse, hall, List.length_range]

/-- Either a packet that was not in use is given out, or all are in use from now on. -/
theorem getPacket_count (h : s.Whole) (type : PacketType) :
    (s.getPacket type).2.count = s.count ∨
      (s.getPacket type).2.inUse = (s.getPacket type).2.count := by
  rcases getPacket_cases h type with ⟨r, -, -, heq⟩ | ⟨huse, heq⟩
  · left
    rw [heq]
  · right
    rw [heq]
    refine inUse_eq_count ?_
    intro r hr
    rcases Nat.lt_succ_iff_lt_or_eq.mp hr with hr | rfl
    · have hold := huse r hr
      simpa [PacketStore.InUse, hr.ne] using hold
    · simp [PacketStore.InUse, packetAlloc]

/-! ## All operations -/

theorem whole_start : (Usage.start : Usage ι).store.Whole := ⟨.nil, .nil⟩

variable [DecidableEq ι] {u : Usage ι}

/-- What one operation does to the list and to its length. -/
theorem usageStep_whole (h : u.store.Whole) (op : PoolOp ι) :
    (usageStep u op).store.Whole ∧
      ((usageStep u op).store.count = u.store.count ∨
        u.store.count ≤ (usageStep u op).store.count ∧
          (usageStep u op).store.inUse = (usageStep u op).store.count) := by
  cases op with
  | get i =>
    rw [usageStep]
    cases u.working i with
    | some r => exact ⟨h, Or.inl rfl⟩
    | none =>
      refine ⟨h.getPacket .metric, ?_⟩
      have hle : u.store.count ≤ (u.store.getPacket .metric).2.count := by
        rcases getPacket_cases h .metric with ⟨r, -, -, heq⟩ | ⟨-, heq⟩
        · rw [heq]
        · rw [heq]
          exact Nat.le_succ _
      exact (getPacket_count h .metric).imp id fun huse => ⟨hle, huse⟩
  | finish i pkt ready =>
    rw [usageStep]
    cases u.working i with
    | none => exact ⟨h, Or.inl rfl⟩
    | some r => exact ⟨h.of_pkt _, Or.inl rfl⟩
  | pass replies => exact ⟨h.of_pkt _, Or.inl rfl⟩

theorem run_whole (ops : List (PoolOp ι)) : (run usageStep .start ops).store.Whole :=
  invariant_run (I := fun u : Usage ι => u.store.Whole)
    (fun _ op h => (usageStep_whole h op).1) whole_start

theorem count_le_run (h : u.store.Whole) (ops : List (PoolOp ι)) :
    u.store.count ≤ (run usageStep u ops).store.count := by
  induction ops generalizing u with
  | nil => exact le_rfl
  | cons op ops ih =>
    obtain ⟨hwhole, hcount⟩ := usageStep_whole h op
    have hle : u.store.count ≤ (usageStep u op).store.count := by
      rcases hcount with heq | ⟨hle, -⟩
      · exact heq.ge
      · exact hle
    exact hle.trans (ih hwhole)

/-- At some point of the run every packet there is now was in use. -/
theorem exists_all_in_use (ops : List (PoolOp ι)) : ∃ before, before <+: ops ∧
    (run usageStep .start before).store.inUse = (run usageStep .start ops).store.count := by
  induction ops using List.reverseRecOn with
  | nil => exact ⟨[], List.prefix_rfl, rfl⟩
  | append_singleton ops op ih =>
    rw [run_concat]
    rcases (usageStep_whole (run_whole ops) op).2 with heq | ⟨-, huse⟩
    · obtain ⟨before, hpre, hbefore⟩ := ih
      exact ⟨before, hpre.trans (List.prefix_append _ _), hbefore.trans heq.symm⟩
    · exact ⟨ops ++ [op], List.prefix_rfl, by rw [run_concat]; exact huse⟩

/-- After any operations the list from `packets` holds every allocated packet once, its
length is the largest number of packets that have been in use, and `get_packet` gives out a
packet that is not in use, or a new one where all are in use; afterwards it is in use and
stands in the list. -/
theorem pool_grows_with_use (ops : List (PoolOp ι)) (type : PacketType) :
    (run usageStep .start ops).store.Whole ∧
    (∀ before, before <+: ops → (run usageStep .start before).store.inUse ≤
      (run usageStep .start ops).store.list.length) ∧
    (∃ before, before <+: ops ∧ (run usageStep .start before).store.inUse =
      (run usageStep .start ops).store.list.length) ∧
    (let s := (run usageStep .start ops).store
    ((s.getPacket type).1 ∈ s.list ∧ ¬ s.InUse (s.getPacket type).1 ∨
      (s.getPacket type).1 ∉ s.list ∧ ∀ r ∈ s.list, s.InUse r) ∧
      (s.getPacket type).1 ∈ (s.getPacket type).2.list ∧
      (s.getPacket type).2.InUse (s.getPacket type).1) := by
  have hwhole := run_whole ops
  rw [hwhole.length]
  refine ⟨hwhole, ?_, exists_all_in_use ops, ?_⟩
  · rintro before ⟨after, rfl⟩
    rw [run_append]
    exact (inUse_le _).trans (count_le_run (run_whole before) after)
  · refine ⟨?_, hwhole.given type⟩
    rcases getPacket_cases hwhole type with ⟨r, hr, hdone, heq⟩ | ⟨huse, heq⟩
    · left
      rw [heq]
      exact ⟨hwhole.mem.mpr hr, not_not.mpr hdone⟩
    · right
      rw [heq, hwhole.mem]
      exact ⟨lt_irrefl _, fun r hr => huse r (hwhole.mem.mp hr)⟩

end MonitoringAgent
