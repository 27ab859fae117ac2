import MonitoringAgent.Pool.Arrival

/-!
# Posts go in list order

`storage_main` posts the first READY packet of the list and goes on only when that post has
returned 0. So no packet is posted before a READY packet in front of it, and one whose posts
keep failing holds up all behind it.
-/
namespace MonitoringAgent

open Buffer Command Transition Packet Chain

variable {ι : Type} {s : Pool ι} {r p : Nat} {reply : Reply}

/-- The pass has yet to begin or to come to packet `r`. -/
def Pool.Ahead (s : Pool ι) (r : Nat) : Prop :=
  s.storage = .idle ∨ s.storage = .loadHead ∨ s.Coming r

/-! ## One step -/

theorem StoragePc.onward_of_posting {st : StoragePc} {link : Nat → Option Nat}
    (h : st.posting.cell = some p) : st.onward link = some p := by
  cases st with
  | idle | loadHead | check | next => cases h
  | fetchUnlock p' ready =>
    cases ready with
    | false => cases h
    | true => exact h
  | attempt | fetchLock | fetchState | send | markDone => exact h

/-- While a packet is being posted, the pass is not past those ahead. -/
theorem Pool.Ahead.reach (h : s.Ahead r) (hp : s.storage.posting.cell = some p) :
    Reach s.next (some p) r := by
  rcases h with hidle | hload | hcoming
  · rw [hidle] at hp
    cases hp
  · rw [hload] at hp
    cases hp
  · rw [Pool.Coming, StoragePc.onward_of_posting hp] at hcoming
    exact hcoming

/-- Only the transfer looks at the reply. -/
theorem storageStep_reply (h : ∀ r, s.storage ≠ .send r) (reply reply' : Reply) :
    storageStep s reply = storageStep s reply' := by
  simp only [storageStep]
  cases hst : s.storage with
  | send r => exact absurd hst (h r)
  | _ => rfl

theorem coming_or_idle (h : s.Coming r) (hready : s.Ready r)
    (hposting : ∀ p, s.storage.posting.cell = some p → s.Ready p)
    (hready' : (storageStep s reply).Ready r) : (storageStep s reply).Ahead r := by
  have hon (hok : reply.success = true) : (storageStep s reply).Ahead r :=
    .inr (.inr ((coming_storage h hready hposting hok).resolve_right (not_not.mpr hready')))
  cases hok : reply.success with
  | true => exact hon hok
  | false =>
    by_cases hsend : ∃ p, s.storage = .send p
    · obtain ⟨p, hst⟩ := hsend
      left
      simp only [storageStep, hst]
      rw [transfer_snd, hok]
      rfl
    · let accepted : Reply := ⟨[], true, 200⟩
      have hsame := storageStep_reply (fun p hp => hsend ⟨p, hp⟩) reply accepted
      rw [hsame] at hready' ⊢
      exact .inr (.inr ((coming_storage h hready hposting rfl).resolve_right
        (not_not.mpr hready')))

theorem ahead_storage (h : s.Ahead r) (hready : s.Ready r) (hreach : s.Reachable r)
    (hposting : ∀ p, s.storage.posting.cell = some p → s.Ready p)
    (hready' : (storageStep s reply).Ready r) : (storageStep s reply).Ahead r := by
  rcases h with hidle | hload | hcoming
  · left
    simp only [storageStep, hidle]
  · exact .inr (.inr (coming_loadHead hload hreach))
  · exact coming_or_idle hcoming hready hposting hready'

variable [DecidableEq ι] {license : Text} {tid : ι → UInt64} {x : Recorded ι} {m : Meta}
  {sched : Nat → PoolAct ι}

theorem ahead_other (h : RecordInv x) (hahead : x.pool.Ahead r) {act : PoolAct ι}
    (hact : ∀ reply, act ≠ .storage reply) :
    (recordedStep license tid x act).pool.Ahead r := by
  rcases hahead with hidle | hload | hcoming
  · by_cases hpass : act = .pass
    · right
      left
      rw [pool_recordedStep, hpass, poolStep, hidle]
    · left
      rw [pool_recordedStep]
      exact storage_idle hidle hpass
  · right
    left
    rw [(storage_other license tid hact (by simp [hload])).1]
    exact hload
  · exact .inr (.inr (coming_other h hcoming hact))

/-! ## Runs -/

theorem ahead_run (hkept : ∀ n, HeadKept (watchedRun m tid sched n) (sched n)) {n k : Nat}
    (hnk : n ≤ k) (hidle : (tracedRun m tid sched n).pool.storage = .idle)
    (hready : ∀ j, n ≤ j → j ≤ k → (tracedRun m tid sched j).pool.Ready r) :
    (tracedRun m tid sched k).pool.Ahead r := by
  induction k, hnk using Nat.le_induction with
  | base => exact .inl hidle
  | succ k hnk ih =>
    have hahead := ih fun j hnj hjk => hready j hnj (by omega)
    have hnow := hready k hnk (Nat.le_succ k)
    have hnext := hready (k + 1) (by omega) le_rfl
    have hposting : ∀ p, (tracedRun m tid sched k).pool.storage.posting.cell = some p →
        (tracedRun m tid sched k).pool.Ready p := (poolInv_run k).view.posting
    have hreach := reachable_run hkept k hnow
    by_cases hact : ∃ reply, sched k = .storage reply
    · obtain ⟨reply, hreply⟩ := hact
      change (poolStep m.license tid (tracedRun m tid sched k).pool (sched k)).Ready r at hnext
      change (poolStep m.license tid (tracedRun m tid sched k).pool (sched k)).Ahead r
      rw [hreply] at hnext ⊢
      exact ahead_storage hahead hnow hreach hposting hnext
    · rw [pool_tracedRun] at hahead ⊢
      exact ahead_other (recordInv_run m.license tid sched k) hahead
        fun reply he => hact ⟨reply, he⟩

/-- With pushes that do not race: while a packet is READY, whatever a pass that begins
meanwhile posts is the packet itself or stands in front of it; what is behind it waits. -/
theorem posts_in_list_order (m : Meta) (tid : ι → UInt64) (sched : Nat → PoolAct ι)
    (hkept : ∀ n, HeadKept (watchedRun m tid sched n) (sched n)) (n k r p : Nat) (hnk : n ≤ k)
    (hidle : (tracedRun m tid sched n).pool.storage = .idle)
    (hready : ∀ j, n ≤ j → j ≤ k → (tracedRun m tid sched j).pool.Ready r)
    (hpost : (tracedRun m tid sched k).pool.storage.posting.cell = some p) :
    let s := (tracedRun m tid sched k).pool
    Reach s.next (some p) r ∧ ¬ Reach s.next (s.next r) p := by
  intro s
  have hreach : Reach s.next (some p) r := (ahead_run hkept hnk hidle hready).reach hpost
  refine ⟨hreach, ?_⟩
  have hrun : (recordedRun m.license tid sched k).pool = s := (pool_tracedRun k).symm
  have hinv := recordInv_run m.license tid sched k
  have hp : p ∈ (recordedRun m.license tid sched k).order := by
    refine hinv.onward_mem ?_
    rw [hrun]
    exact StoragePc.onward_of_posting hpost
  obtain ⟨l, hlinks, hnodup⟩ := hinv.safe.acyclic p hp
  rw [hrun] at hlinks
  exact hlinks.not_reach_back hnodup hreach

/-- Two plugins fill one packet after the other; then passes begin again and again, and the
server is out of order. -/
def twoBatches (n : Nat) : PoolAct (Fin 2) :=
  if n = 0 then .call 0 ⟨0, 7000, .fresh, .ret .enone⟩
  else if n < 28 then .plugin 0
  else if n = 28 then .call 1 ⟨0, 7000, .fresh, .ret .enone⟩
  else if n < 72 then .plugin 1
  else if n % 3 = 0 then .pass
  else .storage ⟨[], true, 500⟩

theorem headKept_twoBatches (n : Nat) :
    HeadKept (watchedRun Meta.sample (fun _ => 0) twoBatches n) (twoBatches n) := by
  rcases Nat.lt_or_ge n 72 with hn | hn
  · exact (by decide +kernel : ∀ n < 72,
      HeadKept (watchedRun Meta.sample (fun _ => 0) twoBatches n) (twoBatches n)) n hn
  · rw [twoBatches, if_neg (by omega), if_neg (by omega), if_neg (by omega), if_neg (by omega)]
    split <;> trivial

/-- The packet of the first plugin waits behind that of the second. -/
theorem posts_in_list_order_behind :
    let s := (tracedRun Meta.sample (fun _ => 0) twoBatches 75).pool
    s.storage.posting.cell = some 1 ∧ Reach s.next (some 1) 0 ∧ ¬ Reach s.next (s.next 0) 1 := by
  intro s
  have hready (j : Nat) (hj : 72 ≤ j) (hj' : j ≤ 75) :
      (tracedRun Meta.sample (fun _ => 0) twoBatches j).pool.Ready 0 :=
    (by decide +kernel : ∀ j < 76, 72 ≤ j →
      ((tracedRun Meta.sample (fun _ => 0) twoBatches j).pool.pkt 0).state = .ready) j
      (by omega) hj
  have hpost : s.storage.posting.cell = some 1 := by decide +kernel
  exact ⟨hpost, posts_in_list_order Meta.sample (fun _ => 0) twoBatches headKept_twoBatches
    72 75 0 1 (by omega) (by decide +kernel) hready hpost⟩

end MonitoringAgent
