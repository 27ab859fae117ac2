import MonitoringAgent.Pool.Delivery
import MonitoringAgent.Pool.Progress
import MonitoringAgent.Pool.Safety

/-!
# READY packets arrive

A pass of `storage_main` ends before the end of the list only when a post fails. Under a
schedule that runs every thread and begins pass after pass, with a server that accepts
what is posted, each READY packet is posted, unless a racing push has cut it off.
-/
namespace MonitoringAgent

open Buffer Command Transition Packet Chain

variable {ι : Type}

/-- The packet at which the rest of the pass begins. -/
def StoragePc.onward (link : Nat → Option Nat) : StoragePc → Option Nat
  | idle | loadHead | fetchUnlock _ false => none
  | check r | attempt r | fetchLock r | fetchState r | fetchUnlock r true | send r
  | markDone r => some r
  | next r => link r

/-- The pass has yet to finish with packet `r`. -/
def Pool.Coming (s : Pool ι) (r : Nat) : Prop := Reach s.next (s.storage.onward s.next) r

def Pool.Ready (s : Pool ι) (r : Nat) : Prop := (s.pkt r).state = .ready

section step

variable {s s' : Pool ι} {r : Nat} {reply : Reply}

theorem Pool.Coming.not_idle (h : s.Coming r) : s.storage ≠ .idle := by
  intro hst
  rw [Pool.Coming, hst] at h
  exact not_reach_none h

/-- A step of the storage thread, with a reply that accepts: packet `r` has been posted, or
the pass is still on its way to it. -/
theorem coming_storage (h : s.Coming r) (hready : s.Ready r)
    (hposting : ∀ p, s.storage.posting.cell = some p → s.Ready p)
    (hok : reply.success = true) :
    (storageStep s reply).Coming r ∨ ¬ (storageStep s reply).Ready r := by
  have hnext := (sameList_storage s reply).next
  rw [Pool.Coming, hnext]
  rw [Pool.Coming] at h
  cases hst : s.storage with
  | idle | loadHead =>
    rw [hst] at h
    exact absurd h not_reach_none
  | check p =>
    rw [hst] at h
    simp only [storageStep, hst]
    by_cases hp : (s.heap p).pkt.state = .ready
    · rw [if_pos hp]
      exact .inl h
    · rw [if_neg hp]
      rcases reach_some.mp h with rfl | h
      · exact absurd hready hp
      · exact .inl h
  | attempt p =>
    rw [hst] at h
    simp only [storageStep, hst]
    exact .inl h
  | fetchLock p =>
    rw [hst] at h
    by_cases hspin : (s.heap p).spin
    · simp only [storageStep, hst, if_pos hspin]
      exact .inl h
    · simp only [storageStep, hst, if_neg hspin]
      exact .inl h
  | fetchState p =>
    have hp : (s.heap p).pkt.state = .ready := hposting p (by rw [hst]; rfl)
    rw [hst] at h
    simp only [storageStep, hst, hp, decide_true]
    exact .inl h
  | fetchUnlock p ready =>
    rw [hst] at h
    cases ready with
    | true =>
      simp only [storageStep, hst, if_true]
      exact .inl h
    | false => exact absurd h not_reach_none
  | send p =>
    rw [hst] at h
    simp only [storageStep, hst]
    rw [transfer_snd, hok, if_pos rfl]
    exact .inl h
  | markDone p =>
    rw [hst] at h
    simp only [storageStep, hst]
    rcases reach_some.mp h with rfl | h
    · right
      simp [Pool.Ready, Pool.pkt, Pool.setPkt, Pool.setCell]
    · exact .inl h
  | next p =>
    rw [hst] at h
    simp only [storageStep, hst]
    change Reach s.next (s.heap p).next r at h
    cases hp : (s.heap p).next with
    | none =>
      rw [hp] at h
      exact absurd h not_reach_none
    | some p' =>
      rw [hp] at h
      exact .inl h

/-- The first packet of a pass. -/
theorem coming_loadHead (hst : s.storage = .loadHead) (h : s.Reachable r) :
    (storageStep s reply).Coming r := by
  have hnext := (sameList_storage s reply).next
  rw [Pool.Coming, hnext]
  simp only [storageStep, hst]
  rw [Pool.Reachable] at h
  cases hhead : s.head with
  | none =>
    rw [hhead] at h
    exact absurd h not_reach_none
  | some p =>
    rw [hhead] at h
    exact h

end step

variable [DecidableEq ι]

section recorded

variable {license : Text} {tid : ι → UInt64} {x : Recorded ι} {r : Nat}

omit [DecidableEq ι] in
theorem RecordInv.passes_mem (h : RecordInv x) (hr : x.pool.storage.passes = some r) :
    r ∈ x.order :=
  h.pass.known.subset (h.pass.met r hr).mem

omit [DecidableEq ι] in
theorem RecordInv.onward_mem (h : RecordInv x)
    (hr : x.pool.storage.onward x.pool.next = some r) : r ∈ x.order := by
  cases hst : x.pool.storage with
  | idle | loadHead =>
    rw [hst] at hr
    cases hr
  | next p =>
    rw [hst] at hr
    exact h.order.links p r hr
  | fetchUnlock p ready =>
    rw [hst] at hr
    refine h.passes_mem ?_
    rw [hst]
    cases ready with
    | true => exact hr
    | false => cases hr
  | check p | attempt p | fetchLock p | fetchState p | send p | markDone p =>
    rw [hst] at hr
    refine h.passes_mem ?_
    rw [hst]
    exact hr

/-- Whatever the plugins do, the pass stays on its way. -/
theorem coming_other (h : RecordInv x) (hcoming : x.pool.Coming r) {act : PoolAct ι}
    (hact : ∀ reply, act ≠ .storage reply) :
    (recordedStep license tid x act).pool.Coming r := by
  obtain ⟨hst, -⟩ := storage_other license tid hact hcoming.not_idle
  obtain ⟨-, hkeeps⟩ : _ ∧ x.Keeps (recordedStep license tid x act) := recordInv_step h act
  have hnext := hkeeps.next
  have honward : x.pool.storage.onward (recordedStep license tid x act).pool.next =
      x.pool.storage.onward x.pool.next := by
    cases hpc : x.pool.storage with
    | next p => exact hnext p (h.passes_mem (by rw [hpc]; rfl))
    | fetchUnlock p ready => cases ready <;> rfl
    | _ => rfl
  rw [Pool.Coming, hst, honward]
  exact hcoming.congr (fun a ha => h.onward_mem ha) (fun a _ b hb => h.order.links a b hb) hnext

end recorded

/-! ## Runs -/

variable (m : Meta) (tid : ι → UInt64) (sched : Nat → PoolAct ι)

/-- The run with the histories of its packets. -/
def tracedRun : Nat → Traced ι := stateAt (tracedStep m.license tid) Traced.start sched

/-- The run with what `get_packet` has returned. -/
def watchedRun : Nat → Watched ι := stateAt (watchedStep m.license tid) Watched.start sched

variable {m tid sched}

theorem poolInv_run (n : Nat) : PoolInv m tid (tracedRun m tid sched n) :=
  invariant_stateAt (PoolInv m tid) (fun _ act h => poolInv_step h act) (poolInv_start m tid) n

theorem pool_tracedRun (n : Nat) :
    (tracedRun m tid sched n).pool = (recordedRun m.license tid sched n).pool := by
  induction n with
  | zero => rfl
  | succ n ih =>
    change poolStep m.license tid (tracedRun m tid sched n).pool (sched n) = _
    rw [ih]
    exact (pool_recordedStep _ _).symm

theorem pool_watchedRun (n : Nat) :
    (watchedRun m tid sched n).pool = (tracedRun m tid sched n).pool := by
  induction n with
  | zero => rfl
  | succ n ih =>
    change (watchedStep m.license tid (watchedRun m tid sched n) (sched n)).pool = _
    rw [pool_watchedStep, ih]
    rfl

/-- Plugins that are not asked again stay idle. -/
theorem idle_run {n k : Nat} (hnk : n ≤ k)
    (hidle : ∀ i, (tracedRun m tid sched n).pool.pc i = .idle)
    (hcall : ∀ l, n ≤ l → ∀ i c, sched l ≠ .call i c) (i : ι) :
    (tracedRun m tid sched k).pool.pc i = .idle := by
  induction k, hnk using Nat.le_induction generalizing i with
  | base => exact hidle i
  | succ k hnk ih =>
    change (poolStep m.license tid (tracedRun m tid sched k).pool (sched k)).pc i = .idle
    generalize (tracedRun m tid sched k).pool = s at ih
    cases hact : sched k with
    | call j c => exact absurd hact (hcall k hnk j c)
    | plugin j =>
      simp only [poolStep, pluginStep, ih j]
      exact ih i
    | pass =>
      simp only [poolStep]
      cases s.storage <;> exact ih i
    | storage reply => exact (congrFun (sameList_storage s reply).pc i).trans (ih i)

/-- As long as no push races, READY packets are in the list. -/
theorem reachable_run (hkept : ∀ n, HeadKept (watchedRun m tid sched n) (sched n)) (n : Nat)
    {r : Nat} (hready : (tracedRun m tid sched n).pool.Ready r) :
    (tracedRun m tid sched n).pool.Reachable r := by
  have hlisted : Listed (watchedRun m tid sched n) := by
    clear hready
    induction n with
    | zero => exact listed_start
    | succ n ih => exact listed_step (hkept n) ih
  have hhanded : Handed (watchedRun m tid sched n) :=
    invariant_stateAt Handed (fun _ act h => handed_step h act) handed_start n
  have hsafe := hlisted.safe hhanded
  rw [← pool_watchedRun] at hready ⊢
  exact hsafe.reachable r (hsafe.ready r hready)

section accepting

variable {k r : Nat}

/-- A READY packet that the pass is to come to is posted in this pass. -/
theorem coming_leadsTo [Finite ι] (hfair : Fair sched)
    (haccept : ∀ n, k ≤ n → ∀ reply, sched n = .storage reply → reply.success = true) :
    LeadsTo (fun n => recordedRun m.license tid sched (k + n))
      (fun x => x.pool.Coming r ∧ x.pool.Ready r) (fun x => ¬ x.pool.Ready r) := by
  cases nonempty_fintype ι
  let x (n : Nat) := recordedRun m.license tid sched (k + n)
  have hstays (n : Nat) (h : (x n).pool.Coming r ∧ (x n).pool.Ready r) :
      ((x (n + 1)).pool.Coming r ∧ (x (n + 1)).pool.Ready r) ∨ ¬ (x (n + 1)).pool.Ready r := by
    obtain ⟨hcoming, hready⟩ := h
    by_cases hready' : (x (n + 1)).pool.Ready r
    · refine .inl ⟨?_, hready'⟩
      have hinv : RecordInv (x n) := recordInv_run m.license tid sched (k + n)
      by_cases hact : ∃ reply, sched (k + n) = .storage reply
      · obtain ⟨reply, hreply⟩ := hact
        have hpool : (x (n + 1)).pool = storageStep (x n).pool reply := by
          change (recordedStep m.license tid (x n) (sched (k + n))).pool = _
          rw [hreply]
          rfl
        have hpool' : PoolInv m tid (tracedRun m tid sched (k + n)) := poolInv_run (k + n)
        have hposting : ∀ p, (tracedRun m tid sched (k + n)).pool.storage.posting.cell = some p →
            (tracedRun m tid sched (k + n)).pool.Ready p := hpool'.view.posting
        rw [pool_tracedRun] at hposting
        rw [hpool] at hready' ⊢
        rcases coming_storage hcoming hready hposting
          (haccept _ (Nat.le_add_right k n) reply hreply) with hcoming' | hnot
        · exact hcoming'
        · exact absurd hready' hnot
      · exact coming_other hinv hcoming fun reply he => hact ⟨reply, he⟩
    · exact .inr hready'
  have hends : LeadsTo x (fun _ => True) fun x => x.pool.storage = .idle :=
    (pass_leadsTo m.license tid hfair).later k
  intro n h
  obtain ⟨j, hnj, hnot | ⟨hidle, hcoming, -⟩⟩ :=
    hends.carry (R := fun x => x.pool.Coming r ∧ x.pool.Ready r)
      (S := fun x => ¬ x.pool.Ready r) hstays n ⟨trivial, h⟩
  · exact ⟨j, hnj, hnot⟩
  · exact absurd hidle hcoming.not_idle

/-- Between two passes the storage thread waits for the next one. -/
theorem storage_idle {s : Pool ι} {license : Text} (hst : s.storage = .idle) {act : PoolAct ι}
    (hact : act ≠ .pass) : (poolStep license tid s act).storage = .idle := by
  cases act with
  | call i c =>
    simp only [poolStep]
    cases s.pc i <;> exact hst
  | plugin i => exact (pluginStep_storage s i).trans hst
  | pass => exact absurd rfl hact
  | storage reply =>
    simp only [poolStep, storageStep, hst]

/-- A READY packet that stays in the list is posted in the end. -/
theorem ready_leadsTo [Finite ι] (hfair : Fair sched) (hpass : Often sched (· = .pass))
    (haccept : ∀ n, k ≤ n → ∀ reply, sched n = .storage reply → reply.success = true)
    (hreach : ∀ n, (recordedRun m.license tid sched n).pool.Ready r →
      (recordedRun m.license tid sched n).pool.Reachable r) :
    LeadsTo (fun n => recordedRun m.license tid sched (k + n)) (fun x => x.pool.Ready r)
      (fun x => ¬ x.pool.Ready r) := by
  cases nonempty_fintype ι
  let x (n : Nat) := recordedRun m.license tid sched (k + n)
  have hwhile {P Q : Recorded ι → Prop} (h : LeadsTo x P Q) :
      LeadsTo x (fun x => P x ∧ x.pool.Ready r) fun x => ¬ x.pool.Ready r ∨ Q x ∧ x.pool.Ready r :=
    h.carry fun n _ => em _
  have hpool (n : Nat) : (x (n + 1)).pool = poolStep m.license tid (x n).pool (sched (k + n)) :=
    pool_recordedStep _ _
  -- the present pass ends, the next one begins, and it comes to the packet
  have hidle : LeadsTo x (fun _ => True) fun x => x.pool.storage = .idle :=
    (pass_leadsTo m.license tid hfair).later k
  have hbegin : LeadsTo x (fun x => x.pool.storage = .idle)
      fun x => x.pool.storage = .loadHead := by
    refine leadsTo_of_stays (hpass.later k) (fun n hst hact => ?_) fun n hst hact => ?_
    · rw [hpool]
      exact storage_idle hst hact
    · rw [hpool, hact, poolStep, hst]
  have hload : LeadsTo x (fun x => x.pool.storage = .loadHead)
      fun x => x.pool.Ready r → x.pool.Coming r := by
    refine leadsTo_of_stays (hfair.storage.later k) (fun n hst hact => ?_)
      fun n hst hact => ?_
    · obtain ⟨hst', -⟩ := storage_other m.license tid (x := x n)
        (fun reply he => hact ⟨reply, he⟩) (by rw [hst]; simp)
      exact hst'.trans hst
    · obtain ⟨reply, hact⟩ := hact
      rw [hpool, hact]
      intro hready
      refine coming_loadHead hst (hreach (k + n) ?_)
      simp only [poolStep, storageStep, hst] at hready
      exact hready
  have hcoming : LeadsTo x (fun x => (x.pool.Ready r → x.pool.Coming r) ∧ x.pool.Ready r)
      fun x => ¬ x.pool.Ready r := by
    intro n hn
    exact coming_leadsTo hfair haccept n ⟨hn.1 hn.2, hn.2⟩
  intro n hready
  exact (hwhile hidle).cancel ((hwhile hbegin).cancel ((hwhile hload).cancel hcoming)) n
    ⟨trivial, hready⟩

end accepting

/-- With pushes that do not race and a server that accepts whatever is posted from some point
on, each packet that is READY is accepted, once and as it is, and then DONE. -/
theorem ready_packets_delivered [Finite ι] (m : Meta) (tid : ι → UInt64)
    (sched : Nat → PoolAct ι) (hfair : Fair sched) (hpass : Often sched (· = .pass))
    (hkept : ∀ n, HeadKept (watchedRun m tid sched n) (sched n)) (k : Nat)
    (haccept : ∀ n, k ≤ n → ∀ reply, sched n = .storage reply → reply.success = true)
    (n r : Nat) (hready : (tracedRun m tid sched n).pool.Ready r) :
    let t := tracedRun m tid sched
    ∃ j, n ≤ j ∧
      (∀ i, n ≤ i → i ≤ j →
        (t i).pool.Ready r ∧ ((t i).pool.pkt r).SameBytes ((t n).pool.pkt r)) ∧
      ((t j).use r).posts = 1 ∧ ((t (j + 1)).pool.pkt r).state = .done := by
  intro t
  have hsafe (j : Nat) : StepSafe m tid (t j) (sched j) := (poolInv_run j).stepSafe (sched j)
  obtain ⟨l, hnl, hl⟩ : ∃ l, n ≤ l ∧ ¬ (t l).pool.Ready r := by
    by_cases hk : (t (k + n)).pool.Ready r
    · have hreach (j : Nat) (hj : (recordedRun m.license tid sched j).pool.Ready r) :
          (recordedRun m.license tid sched j).pool.Reachable r := by
        rw [← pool_tracedRun] at hj ⊢
        exact reachable_run hkept j hj
      have hleads := ready_leadsTo hfair hpass haccept hreach n
      dsimp only at hleads
      rw [← pool_tracedRun] at hleads
      obtain ⟨l, hnl, hl⟩ := hleads hk
      rw [← pool_tracedRun] at hl
      exact ⟨k + l, by omega, hl⟩
    · exact ⟨k + n, by omega, hk⟩
  obtain ⟨j, hnj, hall, hlost⟩ := exists_lost (p := fun j => (t j).pool.Ready r) hnl hready hl
  obtain ⟨hdone, hposts⟩ := (hsafe j).leaves r (hall j hnj le_rfl) hlost
  refine ⟨j, hnj, fun i hni hij => ⟨hall i hni hij, ?_⟩, hposts, hdone⟩
  induction i, hni using Nat.le_induction with
  | base => exact ⟨rfl, rfl⟩
  | succ i hni ih =>
    have hsame := (hsafe i).frozen r (hall i hni (by omega))
    have hold := ih (by omega)
    exact ⟨hsame.1.trans hold.1, hsame.2.trans hold.2⟩

/-- One plugin fills one packet; from then on passes begin again and again, and up to turn 60
the server is out of order. -/
def oneBatch (n : Nat) : PoolAct Unit :=
  if n = 0 then .call () ⟨0, 7000, .fresh, .ret .enone⟩
  else if n < 28 then .plugin ()
  else if n % 3 = 0 then .pass
  else if n % 3 = 1 then .plugin ()
  else .storage ⟨[], true, if n < 60 then 500 else 200⟩

theorem fair_oneBatch : Fair oneBatch where
  plugin := by
    intro i n
    refine ⟨3 * (n + 10) + 1, by omega, ?_⟩
    rw [oneBatch, if_neg (by omega), if_neg (by omega), if_neg (by omega), if_pos (by omega)]
  storage := by
    intro n
    refine ⟨3 * (n + 10) + 2, by omega, ?_⟩
    rw [oneBatch, if_neg (by omega), if_neg (by omega), if_neg (by omega), if_neg (by omega)]
    exact ⟨_, rfl⟩

theorem pc_oneBatch {n : Nat} (hn : 28 ≤ n) :
    (watchedRun Meta.sample (fun _ => 0) oneBatch n).pool.pc () = .idle := by
  rw [pool_watchedRun]
  refine idle_run hn (fun _ => rfl) (fun l hl i c hcall => ?_) ()
  rw [oneBatch, if_neg (by omega), if_neg (by omega)] at hcall
  split at hcall
  · cases hcall
  · split at hcall <;> cases hcall

theorem headKept_oneBatch (n : Nat) :
    HeadKept (watchedRun Meta.sample (fun _ => 0) oneBatch n) (oneBatch n) := by
  rcases Nat.lt_or_ge n 28 with hn | hn
  · exact (by decide : ∀ n < 28, HeadKept (watchedRun Meta.sample (fun _ => 0) oneBatch n)
      (oneBatch n)) n hn
  · cases hact : oneBatch n with
    | plugin i =>
      intro r hr
      rw [pc_oneBatch hn] at hr
      cases hr
    | call i c | pass | storage reply => trivial

theorem ready_packets_delivered_late :
    let t := tracedRun Meta.sample (fun _ => 0) oneBatch
    (t 28).pool.Ready 0 ∧ ∃ j, 28 ≤ j ∧ ((t j).use 0).posts = 1 ∧
      ((t (j + 1)).pool.pkt 0).state = .done := by
  intro t
  have hpass : Often oneBatch (· = .pass) := by
    intro n
    refine ⟨3 * (n + 10), by omega, ?_⟩
    rw [oneBatch, if_neg (by omega), if_neg (by omega), if_pos (by omega)]
  have haccept (n : Nat) (hn : 60 ≤ n) (reply : Reply) (hact : oneBatch n = .storage reply) :
      reply.success = true := by
    rw [oneBatch, if_neg (by omega), if_neg (by omega)] at hact
    split at hact
    · cases hact
    split at hact
    · cases hact
    · obtain rfl := PoolAct.storage.inj hact
      rw [if_neg (by omega)]
      rfl
  have hready : (t 28).pool.Ready 0 := rfl
  obtain ⟨j, hj, -, hposts, hdone⟩ := ready_packets_delivered Meta.sample (fun _ => 0) oneBatch
    fair_oneBatch hpass headKept_oneBatch 60 haccept 28 0 hready
  exact ⟨hready, j, hj, hposts, hdone⟩

end MonitoringAgent
