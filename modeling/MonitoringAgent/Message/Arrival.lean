import MonitoringAgent.Message.Inbox
import MonitoringAgent.Pool.Retire

/-!
# Samples arrive

Under a schedule that runs every thread, with pushes that do not race and a server that
accepts from some point on, a sample leaves its plugin with the first call that is late
enough, and a server reads it from the body of some request.
-/
namespace MonitoringAgent

open Buffer Command Json Transition Packet

variable {ι : Type} {m : Meta} {tid : ι → UInt64} {t t' : Traced ι} {i : ι} {r : Nat}
  {z : ι × GatherCall} {u : Use ι} {sample : GatherCall → Sample} {P : GatherCall → Prop}
  {x : Inbox ι}

/-- Call `z` stands in packet `r`, which has not been accepted. -/
structure Traced.Waits (t : Traced ι) (r : Nat) (z : ι × GatherCall) : Prop where
  alloc : r < t.pool.count
  call : z ∈ (t.use r).calls
  posts : (t.use r).posts = 0

/-- Call `z` stands in a packet that a post returned 0 for. -/
def Inbox.Arrived (x : Inbox ι) (z : ι × GatherCall) : Prop := ∃ y ∈ x.posts, z ∈ y.2.calls

theorem Use.records_ne_nil (hz : z ∈ u.calls) (hrecord : z.2.record? ≠ none) :
    u.records ≠ [] := by
  intro hnil
  rw [Use.records, recordsOf, List.filterMap_eq_nil_iff] at hnil
  exact hrecord (hnil z.2 (List.mem_map_of_mem hz))

theorem Use.posts_noted (u : Use ι) (pkt : Packet) (o : PacketOp) :
    (u.noted pkt o).posts = u.posts := by
  unfold Use.noted
  split <;> rfl

/-! ## One step -/

/-- A call waits in its packet until the packet is accepted. -/
theorem Histories.waits {e : Option (Use ι)} {b : Option (ι × GatherCall)}
    {d : Option (Packet × Use ι)} (hstep : Histories t t' e b d) (h : PoolInv m tid t)
    (hwaits : t.Waits r z) (hrecord : z.2.record? ≠ none) :
    t'.Waits r z ∨ ∃ y ∈ d, z ∈ y.2.calls := by
  have hupdate {r' : Nat} {u : Use ι} (hcount : t'.pool.count = t.pool.count)
      (huse : t'.use = Function.update t.use r' u)
      (hu : r = r' → z ∈ u.calls ∧ u.posts = 0) : t'.Waits r z := by
    have hr : z ∈ (t'.use r).calls ∧ (t'.use r).posts = 0 := by
      rw [huse]
      exact update_holds (P := fun u : Use ι => z ∈ u.calls ∧ u.posts = 0) hu
        fun _ => ⟨hwaits.call, hwaits.posts⟩
    exact ⟨hcount ▸ hwaits.alloc, hr.1, hr.2⟩
  have hcell : (t.use r).posts = 1 ∨ (t.use r).records = [] → False := by
    rintro (hone | hnil)
    · rw [hwaits.posts] at hone
      cases hone
    · exact Use.records_ne_nil hwaits.call hrecord hnil
  cases hstep with
  | same hcount huse => exact .inl ⟨hcount ▸ hwaits.alloc, huse ▸ hwaits.call, huse ▸ hwaits.posts⟩
  | taken j r' hdone hcount huse =>
    refine .inl (hupdate hcount huse fun he => ?_)
    subst he
    exact (hcell ((h.view.cell r).done hdone).2).elim
  | fresh j hcount huse =>
    have hne : r ≠ t.pool.count := hwaits.alloc.ne
    left
    refine ⟨by rw [hcount]; exact Nat.lt_succ_of_lt hwaits.alloc, ?_, ?_⟩
    · rw [huse, Function.update_of_ne hne]
      exact hwaits.call
    · rw [huse, Function.update_of_ne hne]
      exact hwaits.posts
  | called j r' c hrest hcount huse =>
    refine .inl (hupdate hcount huse fun he => ?_)
    subst he
    exact ⟨List.mem_append_left _ hwaits.call, hwaits.posts⟩
  | noted j r' o hfills hcount huse =>
    refine .inl (hupdate hcount huse fun he => ?_)
    subst he
    exact ⟨by rw [Use.calls_noted]; exact hwaits.call, by rw [Use.posts_noted]; exact hwaits.posts⟩
  | posted r' hsend hcount huse =>
    by_cases he : r = r'
    · subst he
      exact .inr ⟨_, rfl, hwaits.call⟩
    · exact .inl (hupdate hcount huse fun he' => absurd he' he)

/-- What is delivered is the present use of a packet. -/
theorem Histories.uses {e : Option (Use ι)} {b : Option (ι × GatherCall)}
    {d : Option (Packet × Use ι)} (hstep : Histories t t' e b d) :
    ∀ y ∈ d, ∃ r, y.2 = (t.use r).posted := by
  cases hstep with
  | posted r hsend hcount huse =>
    rintro y ⟨⟩
    exact ⟨r, rfl⟩
  | _ => exact fun y hy => absurd hy (Option.not_mem_none y)

/-- A call that left a record has arrived, or it waits in a packet. -/
theorem InboxInv.placed (h : InboxInv m tid P x) (hz : z ∈ x.ledger.made)
    (hrecord : z.2.record? ≠ none) : x.Arrived z ∨ ∃ r, x.ledger.traced.Waits r z := by
  have hsettled {u : Use ι} (hu : u ∈ x.ledger.past.flatMap Use.settled ++
      below Use.settled x.pool.count x.use) (hzu : z ∈ u.calls) : x.Arrived z := by
    obtain ⟨y, hy, rfl⟩ := List.mem_map.mp (h.settled.mem_iff.mpr hu)
    exact ⟨y, hy, hzu⟩
  have hself {u : Use ι} (hposts : u.posts = 1) : u ∈ u.settled := by
    rw [Use.settled, if_pos hposts]
    exact List.mem_singleton_self u
  rcases List.mem_append.mp (h.ledger.calls.mem_iff.mp hz) with hpast | hnow
  · obtain ⟨u, hu, hzu⟩ := List.mem_flatMap.mp hpast
    have hposts := (h.ledger.past u hu).resolve_right (Use.records_ne_nil hzu hrecord)
    refine .inl (hsettled (List.mem_append_left _ ?_) hzu)
    exact List.mem_flatMap.mpr ⟨u, hu, hself hposts⟩
  · obtain ⟨r, hr, hzu⟩ := List.mem_flatMap.mp hnow
    have honce : (x.use r).posts ≤ 1 := (h.ledger.pool.view.cell r).once
    rcases Nat.le_one_iff_eq_zero_or_eq_one.mp honce with hzero | hone
    · exact .inr ⟨r, List.mem_range.mp hr, hzu, hzero⟩
    · refine .inl (hsettled (List.mem_append_right _ ?_) hzu)
      exact List.mem_flatMap.mpr ⟨r, hr, hself hone⟩

theorem PoolInv.waits_settled (h : PoolInv m tid t) (hwaits : t.Waits r z)
    (hrecord : z.2.record? ≠ none) (hst : (t.pool.pkt r).state.Settled) : t.pool.Ready r := by
  rcases hst with hready | hdone
  · exact hready
  · rcases ((h.view.cell r).done hdone).2 with hone | hnil
    · have hzero := hwaits.posts
      change (t.use r).posts = 1 at hone
      omega
    · exact absurd hnil (Use.records_ne_nil hwaits.call hrecord)

/-- Its packet is READY, or in the hands of the plugin that made the call. -/
theorem PoolInv.waits_where (h : PoolInv m tid t) (haccounted : t.view.Accounted)
    (hwaits : t.Waits r z) (hrecord : z.2.record? ≠ none) :
    t.pool.Ready r ∨ t.pool.Fills z.1 r := by
  rcases haccounted r hwaits.alloc with hst | ⟨j, hj⟩
  · exact .inl (h.waits_settled hwaits hrecord hst)
  · obtain rfl : z.1 = j := (h.held hj).calls z hwaits.call
    exact .inr hj

/-- The expiry check of a call looks at the start of an earlier call, if that left a record. -/
theorem started_inUseAfter {cs : List GatherCall} {w : InUse} (h : inUseAfter cs = some w) :
    ∃ c ∈ cs, w.started = c.start := by
  induction cs using List.reverseRecOn generalizing w with
  | nil => cases h
  | append_singleton cs c ih =>
    rw [inUseAfter_concat, advance] at h
    split at h
    · cases h
    · obtain rfl := Option.some.inj h
      have hlast : c ∈ cs ++ [c] := List.mem_append_right _ (List.mem_singleton_self c)
      cases hw : inUseAfter cs with
      | none => exact ⟨c, hlast, rfl⟩
      | some w' =>
        by_cases hnil : w'.records = []
        · exact ⟨c, hlast, if_pos hnil⟩
        · obtain ⟨c', hc', hstart⟩ := ih hw
          exact ⟨c', List.mem_append_left _ hc', (if_neg hnil).trans hstart⟩

/-- The expiry check of a call that finds records looks at the start of one of the calls
before it. -/
theorem startOf_earlier {license : Text} {tid : UInt64} {pkt : Packet} {cs : List GatherCall}
    (h : pkt.AtRest license tid cs) (hfit : FitsAll license tid none cs)
    (hrecords : recordsOf cs ≠ []) (c : GatherCall) :
    ∃ c' ∈ cs, startOf (inUseAfter cs) c = c'.start := by
  have hheld := h.records hfit
  cases hw : inUseAfter cs with
  | none =>
    rw [hw] at hheld
    exact absurd hheld.symm hrecords
  | some w =>
    obtain ⟨c', hc', hstart⟩ := started_inUseAfter hw
    rw [hw] at hheld
    have hne : w.records ≠ [] := fun hnil => hrecords (hheld.symm.trans hnil)
    exact ⟨c', hc', (if_neg hne).trans hstart⟩

/-! ## Runs -/

variable [DecidableEq ι]

section run

variable (m : Meta) (tid : ι → UInt64) (sched : Nat → PoolAct ι)

/-- The run with what has arrived. -/
def inboxRun : Nat → Inbox ι := stateAt (inboxStep m.license tid) Inbox.start sched

variable {m tid sched}

theorem traced_inboxRun (n : Nat) :
    (inboxRun m tid sched n).ledger.traced = tracedRun m tid sched n := by
  induction n with
  | zero => rfl
  | succ n ih =>
    change tracedStep m.license tid (inboxRun m tid sched n).ledger.traced (sched n) = _
    rw [ih]
    rfl

theorem posts_succ (n : Nat) :
    (inboxRun m tid sched (n + 1)).posts =
      ((tracedRun m tid sched n).delivered (sched n)).toList ++ (inboxRun m tid sched n).posts := by
  rw [← traced_inboxRun]
  rfl

theorem inboxInv_run (hsched : ∀ n i c, sched n = .call i c → P c) (n : Nat) :
    InboxInv m tid P (inboxRun m tid sched n) := by
  induction n with
  | zero => exact inboxInv_start m tid P
  | succ n ih => exact inboxInv_step ih (hsched n)

theorem accounted_run (n : Nat) : (tracedRun m tid sched n).view.Accounted := by
  induction n with
  | zero => exact accounted_start
  | succ n ih => exact accounted_step ih (poolInv_run n) (sched n)

/-- What was accepted is the present use of a packet at some point of the run. -/
theorem posts_run {y : Packet × Use ι} {n : Nat} (hy : y ∈ (inboxRun m tid sched n).posts) :
    ∃ k r, y.2 = ((tracedRun m tid sched k).use r).posted := by
  induction n with
  | zero => exact absurd hy List.not_mem_nil
  | succ n ih =>
    rw [posts_succ] at hy
    rcases List.mem_append.mp hy with hnew | hold
    · have hstep := histories_step m.license tid (tracedRun m tid sched n) (sched n)
      obtain ⟨r, hr⟩ := hstep.uses y (Option.mem_toList.mp hnew)
      exact ⟨n, r, hr⟩
    · exact ih hold

theorem arrived_run {n k : Nat} (hnk : n ≤ k) (h : (inboxRun m tid sched n).Arrived z) :
    (inboxRun m tid sched k).Arrived z := by
  induction k, hnk using Nat.le_induction with
  | base => exact h
  | succ k _ ih =>
    obtain ⟨y, hy, hz⟩ := ih
    exact ⟨y, List.mem_append_right _ hy, hz⟩

/-- A call waits where it is until it arrives. -/
theorem waits_run {n k : Nat} (hnk : n ≤ k) (hrecord : z.2.record? ≠ none)
    (h : (tracedRun m tid sched n).Waits r z) :
    (tracedRun m tid sched k).Waits r z ∨ (inboxRun m tid sched k).Arrived z := by
  induction k, hnk using Nat.le_induction with
  | base => exact .inl h
  | succ k _ ih =>
    rcases ih with hwaits | harrived
    · have hstep := histories_step m.license tid (tracedRun m tid sched k) (sched k)
      rcases hstep.waits (poolInv_run k) hwaits hrecord with hwaits' | ⟨y, hy, hz⟩
      · exact .inl hwaits'
      · refine .inr ⟨y, ?_, hz⟩
        rw [posts_succ]
        exact List.mem_append_left _ (Option.mem_toList.mpr hy)
    · exact .inr (arrived_run (Nat.le_succ k) harrived)

/-- A READY packet arrives. -/
theorem ready_arrives [Finite ι] (hfair : Fair sched) (hpass : Often sched (· = .pass))
    (hkept : ∀ n, HeadKept (watchedRun m tid sched n) (sched n)) {k : Nat}
    (haccept : ∀ n, k ≤ n → ∀ reply, sched n = .storage reply → reply.success = true) {n : Nat}
    (hrecord : z.2.record? ≠ none) (hwaits : (tracedRun m tid sched n).Waits r z)
    (hready : (tracedRun m tid sched n).pool.Ready r) :
    ∃ n', n ≤ n' ∧ (inboxRun m tid sched n').Arrived z := by
  obtain ⟨j, hnj, -, hposts, -⟩ :=
    ready_packets_delivered m tid sched hfair hpass hkept k haccept n r hready
  refine ⟨j, hnj, (waits_run hnj hrecord hwaits).resolve_left fun hj => ?_⟩
  rw [hj.posts] at hposts
  cases hposts

/-- A call that is late enough sends off the samples before it. -/
theorem late_call_sends [Finite ι] (hfair : Fair sched) (hpass : Often sched (· = .pass))
    (hkept : ∀ n, HeadKept (watchedRun m tid sched n) (sched n)) {k : Nat}
    (haccept : ∀ n, k ≤ n → ∀ reply, sched n = .storage reply → reply.success = true)
    (hsched : ∀ n i c, sched n = .call i c → P c)
    (hfit : ∀ n r, ((tracedRun m tid sched n).use r).owner = some i →
      FitsAll m.license (tid i) none (((tracedRun m tid sched n).use r).calls.map Prod.snd))
    {n : Nat} {late : GatherCall} (hidle : (tracedRun m tid sched n).pool.pc i = .idle)
    (hcall : sched n = .call i late)
    (hlate : ∀ c, (i, c) ∈ (inboxRun m tid sched n).ledger.made →
      expired c.start late.now = true)
    {c : GatherCall} (hc : (i, c) ∈ (inboxRun m tid sched n).ledger.made)
    (hrecord : c.record? ≠ none) : ∃ n', n ≤ n' ∧ (inboxRun m tid sched n').Arrived (i, c) := by
  have hinv : PoolInv m tid (tracedRun m tid sched n) := poolInv_run n
  have hinbox : InboxInv m tid P (inboxRun m tid sched n) := inboxInv_run hsched n
  rcases hinbox.placed hc hrecord with harrived | ⟨r, hwaits⟩
  · exact ⟨n, le_rfl, harrived⟩
  rw [traced_inboxRun] at hwaits
  rcases hinv.waits_where (accounted_run n) hwaits hrecord with hready | hfills
  · exact ready_arrives hfair hpass hkept haccept hrecord hwaits hready
  obtain ⟨hworking, hrest⟩ := hold_of_idle hidle hfills
  let zs := ((tracedRun m tid sched n).use r).calls
  have hheld := hinv.held_rest hrest
  obtain ⟨hpkt, hatrest⟩ := hheld.content
  have hat : (tracedRun m tid sched (n + 1)).At i (.readWorking late) r zs := by
    have hbegins := Traced.at_of_call m.license tid late hidle hworking
    rwa [← hcall] at hbegins
  have hexpired : expired (startOf (inUseAfter (zs.map Prod.snd)) late) late.now = true := by
    obtain ⟨c', hc', hstart⟩ := startOf_earlier hatrest (hfit n r hheld.owner)
      (Use.records_ne_nil hwaits.call hrecord) late
    obtain ⟨⟨j, c''⟩, hmem, rfl⟩ := List.mem_map.mp hc'
    obtain rfl : j = i := hheld.calls _ hmem
    rw [hstart]
    refine hlate c'' ((hinbox.ordered r).subset ?_)
    rw [Inbox.use, traced_inboxRun]
    exact hmem
  obtain ⟨j, hnj, hsettled⟩ := late_call_leadsTo (hfair.plugin i) hfit hexpired (n + 1) hat
  have hnj' : n ≤ j := (Nat.le_succ n).trans hnj
  rcases waits_run hnj' hrecord hwaits with hstill | harrived
  · have hready := (poolInv_run j).waits_settled hstill hrecord hsettled
    obtain ⟨k', hjk, harrived⟩ := ready_arrives hfair hpass hkept haccept hrecord hstill hready
    exact ⟨k', hnj'.trans hjk, harrived⟩
  · exact ⟨j, hnj', harrived⟩

end run

/-- Under a fair schedule with pushes that do not race, passes that begin again and again and
a server that accepts from some point on: once a call of a target reads a time that makes its
earlier calls old enough, each sample of these calls that left a record is read by a server
from the body of an accepted request, under this target. -/
theorem samples_arrive [Finite ι] (m : Meta) (tid : ι → UInt64) (sample : GatherCall → Sample)
    (sched : Nat → PoolAct ι) (hfair : Fair sched) (hpass : Often sched (· = .pass))
    (hkept : ∀ n, HeadKept (watchedRun m tid sched n) (sched n)) (k : Nat)
    (haccept : ∀ n, k ≤ n → ∀ reply, sched n = .storage reply → reply.success = true)
    (hlicense : Clean m.license)
    (hsamples : ∀ n i c, sched n = .call i c →
      c.gather = (sample c).gatherer ∧ Readable (sample c))
    (i : ι) (hfit : ∀ n r, ((tracedRun m tid sched n).use r).owner = some i →
      FitsAll m.license (tid i) none (((tracedRun m tid sched n).use r).calls.map Prod.snd))
    (n : Nat) (late : GatherCall) (hidle : (tracedRun m tid sched n).pool.pc i = .idle)
    (hcall : sched n = .call i late)
    (hlate : ∀ c, (i, c) ∈ (inboxRun m tid sched n).ledger.made →
      expired c.start late.now = true) :
    let x := inboxRun m tid sched
    (∀ n, (x n).ledger.traced = tracedRun m tid sched n) ∧
      ∀ c, (i, c) ∈ (x n).ledger.made → (sample c).kept ≠ [] →
        ∃ n', n ≤ n' ∧ ∃ y ∈ (x n').posts, ∃ b,
          Report.read y.1.type y.1.body = some (.ofSamples m.license (tid i) b) ∧
            (c.start, sample c) ∈ b := by
  intro x
  refine ⟨traced_inboxRun, fun c hc hkeptc => ?_⟩
  have hinbox : ∀ n, InboxInv m tid (fun c => c.gather = (sample c).gatherer ∧
      Readable (sample c)) (x n) := inboxInv_run hsamples
  have hrecord : c.record? ≠ none := by
    rw [GatherCall.record?_sample ((hinbox n).asked.made (i, c) hc).1, Sample.record_eq,
      if_neg hkeptc]
    exact Option.some_ne_none _
  obtain ⟨n', hn', y, hy, hcy⟩ := late_call_sends hfair hpass hkept haccept hsamples hfit hidle
    hcall hlate hc hrecord
  obtain ⟨-, -, j, hmade⟩ := (hinbox n').posts y hy
  obtain rfl : i = j := hmade.calls (i, c) hcy
  have hfity : ∀ j, y.2.owner = some j →
      FitsAll m.license (tid j) none (y.2.calls.map Prod.snd) := by
    intro j hj
    obtain rfl : i = j := Option.some.inj (hmade.owner.symm.trans hj)
    obtain ⟨l, r, hlr⟩ := posts_run hy
    rw [hlr] at hj ⊢
    exact hfit l r hj
  obtain ⟨b, hbatch⟩ := (hinbox n').batch hlicense (fun _ hc => hc) hy hfity
  have hmem : (i, c.start, sample c) ∈ b.2.map fun s => (b.1, s) := by
    rw [← hbatch.samples]
    refine List.mem_filter.mpr ⟨List.mem_map.mpr ⟨(i, c), hcy, rfl⟩, ?_⟩
    exact decide_eq_true hkeptc
  obtain ⟨s, hs, he⟩ := List.mem_map.mp hmem
  obtain ⟨rfl, rfl⟩ := Prod.mk.inj he
  exact ⟨n', hn', y, hy, b.2, hbatch.read, hs⟩

/-- A call, a late one, and then passes again and again. -/
def twoCalls (n : Nat) : PoolAct Unit :=
  if n = 0 then .call () ⟨1000, 2000, .fresh, Sample.bash.gatherer⟩
  else if n = 48 then .call () ⟨8000, 8000, .fresh, Sample.bash.gatherer⟩
  else if n < 100 then .plugin ()
  else if n % 3 = 0 then .pass
  else if n % 3 = 1 then .plugin ()
  else .storage ⟨[], true, 202⟩

theorem fair_twoCalls : Fair twoCalls where
  plugin := by
    intro i n
    refine ⟨3 * (n + 40) + 1, by omega, ?_⟩
    rw [twoCalls, if_neg (by omega), if_neg (by omega), if_neg (by omega), if_neg (by omega),
      if_pos (by omega)]
  storage := by
    intro n
    refine ⟨3 * (n + 40) + 2, by omega, ⟨[], true, 202⟩, ?_⟩
    rw [twoCalls, if_neg (by omega), if_neg (by omega), if_neg (by omega), if_neg (by omega),
      if_neg (by omega)]

theorem often_twoCalls : Often twoCalls (· = .pass) := by
  intro n
  refine ⟨3 * (n + 40), by omega, ?_⟩
  rw [twoCalls, if_neg (by omega), if_neg (by omega), if_neg (by omega), if_pos (by omega)]

theorem twoCalls_eq_call {n : Nat} {i : Unit} {c : GatherCall} (h : twoCalls n = .call i c) :
    (n = 0 ∧ c = ⟨1000, 2000, .fresh, Sample.bash.gatherer⟩) ∨
      (n = 48 ∧ c = ⟨8000, 8000, .fresh, Sample.bash.gatherer⟩) := by
  rw [twoCalls] at h
  split at h
  · next hn => exact .inl ⟨hn, (PoolAct.call.inj h).2.symm⟩
  split at h
  · next hn => exact .inr ⟨hn, (PoolAct.call.inj h).2.symm⟩
  split at h
  · cases h
  split at h
  · cases h
  split at h <;> cases h

/-- Plugins that are not asked again begin no call. -/
theorem made_run {sched : Nat → PoolAct ι} {n k : Nat} (hnk : n ≤ k)
    (hidle : ∀ i, (tracedRun m tid sched n).pool.pc i = .idle)
    (hcall : ∀ l, n ≤ l → ∀ i c, sched l ≠ .call i c) :
    (inboxRun m tid sched k).ledger.made = (inboxRun m tid sched n).ledger.made := by
  induction k, hnk using Nat.le_induction with
  | base => rfl
  | succ k hnk ih =>
    have hnone : (tracedRun m tid sched k).begun (sched k) = none := by
      by_contra hsome
      obtain ⟨z, hz⟩ := Option.ne_none_iff_exists'.mp hsome
      rw [Traced.actor_of_begun hz, Traced.begun, idle_run hnk hidle hcall z.1] at hz
      cases hz
    have hmade : (inboxRun m tid sched (k + 1)).ledger.made =
        (inboxRun m tid sched k).ledger.made ++
          ((inboxRun m tid sched k).ledger.traced.begun (sched k)).toList := rfl
    rw [hmade, traced_inboxRun, hnone, ih]
    exact List.append_nil _

theorem made_mono {sched : Nat → PoolAct ι} {n k : Nat} (hnk : n ≤ k) :
    (inboxRun m tid sched n).ledger.made <+: (inboxRun m tid sched k).ledger.made := by
  induction k, hnk using Nat.le_induction with
  | base => exact List.prefix_refl _
  | succ k _ ih => exact ih.trans (List.prefix_append _ _)

section twoCalls

set_option maxRecDepth 20000

theorem made_twoCalls : (inboxRun Meta.sample (fun _ => 0) twoCalls 100).ledger.made =
    [((), ⟨1000, 2000, .fresh, Sample.bash.gatherer⟩),
      ((), ⟨8000, 8000, .fresh, Sample.bash.gatherer⟩)] := rfl

theorem twoCalls_ne_call (n : Nat) (hn : 100 ≤ n) (i : Unit) (c : GatherCall) :
    twoCalls n ≠ .call i c := by
  intro hcall
  rcases twoCalls_eq_call hcall with ⟨rfl, -⟩ | ⟨rfl, -⟩ <;> omega

theorem headKept_twoCalls (n : Nat) :
    HeadKept (watchedRun Meta.sample (fun _ => 0) twoCalls n) (twoCalls n) := by
  rcases Nat.lt_or_ge n 100 with hn | hn
  · exact (by decide +kernel : ∀ n < 100,
      HeadKept (watchedRun Meta.sample (fun _ => 0) twoCalls n) (twoCalls n)) n hn
  · cases hact : twoCalls n with
    | plugin i =>
      intro r hr
      rw [pool_watchedRun, idle_run hn (fun _ => rfl) twoCalls_ne_call i] at hr
      cases hr
    | call i c | pass | storage reply => trivial

theorem fits_twoCalls (n r : Nat) :
    FitsAll Meta.sample.license 0 none
      (((tracedRun Meta.sample (fun _ => 0) twoCalls n).use r).calls.map Prod.snd) := by
  have hinv : InboxInv Meta.sample (fun _ => 0) (fun _ => True)
      (inboxRun Meta.sample (fun _ => 0) twoCalls n) := inboxInv_run (fun _ _ _ _ => trivial) n
  have hmade : (inboxRun Meta.sample (fun _ => 0) twoCalls n).ledger.made.Sublist
      (inboxRun Meta.sample (fun _ => 0) twoCalls 100).ledger.made := by
    rcases Nat.le_total n 100 with hn | hn
    · exact (made_mono hn).sublist
    · rw [made_run hn (fun _ => rfl) twoCalls_ne_call]
  have hcalls := ((hinv.ordered r).trans hmade).map Prod.snd
  rw [made_twoCalls, Inbox.use, traced_inboxRun] at hcalls
  exact (by decide +kernel : ∀ l ∈ List.sublists
    [GatherCall.mk 1000 2000 .fresh Sample.bash.gatherer,
      GatherCall.mk 8000 8000 .fresh Sample.bash.gatherer],
    FitsAll Meta.sample.license 0 none l) _ (List.mem_sublists.mpr hcalls)

theorem samples_arrive_bash :
    let x := inboxRun Meta.sample (fun _ => 0) twoCalls
    ∃ n', 48 ≤ n' ∧ ∃ y ∈ (x n').posts, ∃ b,
      Report.read y.1.type y.1.body = some (.ofSamples Meta.sample.license 0 b) ∧
        (1000, Sample.bash) ∈ b := by
  intro x
  have haccept (n : Nat) (_ : 0 ≤ n) (reply : Reply) (hact : twoCalls n = .storage reply) :
      reply.success = true := by
    rw [twoCalls] at hact
    split at hact
    · cases hact
    split at hact
    · cases hact
    split at hact
    · cases hact
    split at hact
    · cases hact
    split at hact
    · cases hact
    · obtain rfl := PoolAct.storage.inj hact
      rfl
  have hsamples (n : Nat) (i : Unit) (c : GatherCall) (hcall : twoCalls n = .call i c) :
      c.gather = Sample.bash.gatherer ∧ Readable Sample.bash := by
    rcases twoCalls_eq_call hcall with ⟨-, rfl⟩ | ⟨-, rfl⟩ <;> exact ⟨rfl, Sample.readable_bash⟩
  have hmade : (x 48).ledger.made = [((), ⟨1000, 2000, .fresh, Sample.bash.gatherer⟩)] := rfl
  have hlate (c : GatherCall) (hc : ((), c) ∈ (x 48).ledger.made) :
      expired c.start 8000 = true := by
    rw [hmade, List.mem_singleton] at hc
    obtain ⟨-, rfl⟩ := Prod.mk.inj hc
    decide
  obtain ⟨-, harrives⟩ := samples_arrive Meta.sample (fun _ => 0) (fun _ => Sample.bash) twoCalls
    fair_twoCalls often_twoCalls headKept_twoCalls 0 haccept (by decide) hsamples ()
    (fun n r _ => fits_twoCalls n r) 48 ⟨8000, 8000, .fresh, Sample.bash.gatherer⟩ rfl rfl hlate
  refine harrives ⟨1000, 2000, .fresh, Sample.bash.gatherer⟩ ?_ (by decide +kernel)
  rw [hmade]
  exact List.mem_singleton_self _

end twoCalls

end MonitoringAgent
