import MonitoringAgent.Pool.Retire

/-!
# A call returns

Every call of `plugin_gather` returns under a schedule that runs every thread, unless it
starves in `get_packet` at the lock of the first packet. No plugin can make it starve, as
each takes that lock once; only the storage thread can, by fetching that packet for ever.
-/
namespace MonitoringAgent

open Buffer Command Transition Packet

variable {ι : Type} [DecidableEq ι] (license : Text) (tid : ι → UInt64) {s s' : Pool ι} {i : ι}
  {sched : Nat → PoolAct ι}

/-- The steps from the lock of the first packet, or from a DONE packet, to `p->working`. -/
def PluginPc.homeward : PluginPc → Nat
  | linkLoad _ _ _ => 5
  | linkStore _ _ _ _ => 4
  | storeHead _ _ _ | recycle _ _ => 3
  | release _ _ _ | storeSpin _ _ => 2
  | setWorking _ _ => 1
  | _ => 0

/-- The steps to the lock of the first packet, at most. -/
def Pool.pushLeft (s : Pool ι) (i : ι) : Nat :=
  match s.pc i with
  | .alloc _ => 5
  | .testHead _ _ => if s.head = none then 4 else 2
  | .casHead _ _ => 3
  | .loadLock _ _ => if s.head = none then 0 else 1
  | _ => 0

/-- `p->working` has been stored and is about to be read. -/
def Pool.Loaded (s : Pool ι) (i : ι) : Prop :=
  ∃ c r, s.pc i = .loadWorking c ∧ s.working i = some r

/-- `get_packet` waits for the lock of the packet it has found first. -/
def Pool.Acquires (s : Pool ι) (i : ι) : Prop := ∃ c r l, s.pc i = .acquire c r l

/-- The packet has been given up, or the call is over. -/
def PluginPc.Leaves (pc : PluginPc) : Prop := pc = .clearWorking ∨ pc = .idle

/-! ## One step -/

theorem leaves_resume (r : Nat) (a : GatherError × Bool) :
    (PluginPc.resume r (.ret a)).Leaves := by
  obtain ⟨res, retired⟩ := a
  cases retired with
  | true => exact .inl rfl
  | false => exact .inr rfl

theorem pluginStep_head (h : s.head ≠ none) : (pluginStep license tid s i).head ≠ none := by
  simp only [pluginStep]
  cases s.pc i with
  | storeHead c r l => exact Option.some_ne_none r
  | casHead c r =>
    dsimp only
    split
    · exact h
    · exact Option.some_ne_none r
  | scanCas c r | loadLock c r | acquire c r k | loadWorking c =>
    dsimp only
    split <;> exact h
  | body r prog => cases prog <;> exact h
  | _ => exact h

theorem poolStep_head (h : s.head ≠ none) (act : PoolAct ι) :
    (poolStep license tid s act).head ≠ none := by
  cases act with
  | call j c =>
    simp only [poolStep]
    cases s.pc j <;> exact h
  | plugin j => exact pluginStep_head license tid h
  | pass =>
    simp only [poolStep]
    cases s.storage <;> exact h
  | storage reply =>
    change (storageStep s reply).head ≠ none
    rw [(sameList_storage s reply).head]
    exact h

theorem homeward_step (h : 0 < (s.pc i).homeward) :
    (pluginStep license tid s i).Loaded i ∨
      0 < ((pluginStep license tid s i).pc i).homeward ∧
        ((pluginStep license tid s i).pc i).homeward < (s.pc i).homeward := by
  have hset (s' : Pool ι) (pc : PluginPc) : (s'.setPc i pc).pc i = pc :=
    Pool.pc_setPc_self s' i pc
  simp only [pluginStep, Pool.Loaded]
  cases hpc : s.pc i with
  | setWorking c r => exact .inl ⟨c, r, hset _ _, Function.update_self _ _ _⟩
  | linkLoad | linkStore | storeHead | release | recycle | storeSpin =>
    right
    dsimp only
    rw [hset]
    simp [PluginPc.homeward]
  | _ =>
    rw [hpc] at h
    cases h

omit [DecidableEq ι] in
theorem push_other (h : 0 < s.pushLeft i) (hpc : s'.pc i = s.pc i)
    (hhead : s.head ≠ none → s'.head ≠ none) :
    0 < s'.pushLeft i ∧ s'.pushLeft i ≤ s.pushLeft i := by
  rw [Pool.pushLeft] at h ⊢
  rw [Pool.pushLeft, hpc]
  cases hi : s.pc i with
  | alloc | casHead => simp
  | testHead =>
    by_cases hs : s.head = none
    · simp only [hs, if_true]
      split <;> simp
    · simp [hs, hhead hs]
  | loadLock =>
    rw [hi] at h
    by_cases hs : s.head = none
    · simp [hs] at h
    · simp [hs, hhead hs]
  | _ =>
    rw [hi] at h
    cases h

/-- A new packet is on its way into the list. -/
theorem push_step (h : 0 < s.pushLeft i) :
    let s' := pluginStep license tid s i
    (s'.Acquires i ∨ 0 < (s'.pc i).homeward) ∨
      0 < s'.pushLeft i ∧ s'.pushLeft i < s.pushLeft i := by
  have hset (s' : Pool ι) (pc : PluginPc) : (s'.setPc i pc).pc i = pc :=
    Pool.pc_setPc_self s' i pc
  rw [Pool.pushLeft] at h
  simp only [pluginStep, Pool.Acquires]
  cases hpc : s.pc i with
  | alloc c =>
    right
    simp only [Pool.pushLeft, hset, hpc]
    split <;> simp
  | testHead c r =>
    right
    cases hs : s.head with
    | none => simp [Pool.pushLeft, hset, hpc, hs]
    | some l => simp [Pool.pushLeft, hpc, hs, Pool.setPc]
  | casHead c r =>
    cases hs : s.head with
    | none => exact .inl (.inr (by simp [hset, PluginPc.homeward]))
    | some l => exact .inr (by simp [Pool.pushLeft, hpc, hs, Pool.setPc])
  | loadLock c r =>
    rw [hpc] at h
    cases hs : s.head with
    | none => simp [hs] at h
    | some l => exact .inl (.inl ⟨c, r, l, hset _ _⟩)
  | _ =>
    rw [hpc] at h
    cases h

/-! ## Phases of a call -/

section run

variable {license tid}

/-- The run without histories. -/
def poolRun (license : Text) (tid : ι → UInt64) (sched : Nat → PoolAct ι) : Nat → Pool ι :=
  stateAt (poolStep license tid) Pool.start sched

/-- What plugin `i` comes to by its own next step, if the others leave it where it is. -/
theorem own_leadsTo {P Q : Pool ι → Prop} (hoften : Often sched (· = .plugin i))
    (hbusy : ∀ s, P s → s.pc i ≠ .idle)
    (hlocal : ∀ s s' : Pool ι, s'.pc i = s.pc i → s'.working i = s.working i →
      (s.head ≠ none → s'.head ≠ none) → P s → P s')
    (hstep : ∀ s, P s → Q (pluginStep license tid s i)) :
    LeadsTo (poolRun license tid sched) P Q := by
  refine leadsTo_of_stays hoften (fun n h hact => ?_) fun n h hact => ?_
  · obtain ⟨hpc, hworking⟩ := poolStep_other license tid hact (hbusy _ h)
    exact hlocal _ _ hpc hworking (fun hhead => poolStep_head license tid hhead (sched n)) h
  · have hown := hstep _ h
    change Q (poolStep license tid (poolRun license tid sched n) (sched n))
    rw [hact]
    exact hown

/-- The same where only the program counter matters. -/
theorem pc_leadsTo {A B : PluginPc → Prop} (hoften : Often sched (· = .plugin i))
    (hbusy : ∀ pc, A pc → pc ≠ .idle)
    (hstep : ∀ s : Pool ι, A (s.pc i) → B ((pluginStep license tid s i).pc i)) :
    LeadsTo (poolRun license tid sched) (fun s => A (s.pc i)) (fun s => B (s.pc i)) :=
  own_leadsTo hoften (fun s => hbusy (s.pc i)) (fun s s' hpc _ _ h => by rw [hpc]; exact h) hstep

theorem body_leadsTo (hoften : Often sched (· = .plugin i)) (r : Nat)
    (prog : PacketM (GatherError × Bool)) :
    LeadsTo (poolRun license tid sched) (fun s => s.pc i = .body r prog)
      (fun s => (s.pc i).Leaves) := by
  induction prog with
  | ret a =>
    refine pc_leadsTo (A := (· = .body r (.ret a))) hoften (fun pc h => by simp [h])
      fun s h => ?_
    simp only [pluginStep, h]
    rw [Pool.pc_setPc_self]
    exact leaves_resume r a
  | op o k ih =>
    have hnext : LeadsTo (poolRun license tid sched) (fun s => s.pc i = .body r (.op o k))
        fun s => (s.pc i).Leaves ∨ ∃ a, s.pc i = .body r (k a) := by
      refine pc_leadsTo (A := (· = .body r (.op o k)))
        (B := fun pc => pc.Leaves ∨ ∃ a, pc = .body r (k a)) hoften
        (fun pc h => by simp [h]) fun s h => ?_
      simp only [pluginStep, h]
      rw [Pool.pc_setPc_self]
      cases hk : k ((s.heap r).pkt.answer o) with
      | ret a => exact .inl (leaves_resume r a)
      | op o' k' => exact .inr ⟨(s.heap r).pkt.answer o, by rw [hk]; rfl⟩
    refine hnext.cancel fun n h => ?_
    obtain ⟨a, ha⟩ := h
    exact ih a n ha

theorem leaves_leadsTo (hoften : Often sched (· = .plugin i)) :
    LeadsTo (poolRun license tid sched) (fun s => (s.pc i).Leaves) (fun s => s.pc i = .idle) := by
  have hclear : LeadsTo (poolRun license tid sched) (fun s => s.pc i = .clearWorking)
      (fun s => s.pc i = .idle) := by
    refine pc_leadsTo (A := (· = .clearWorking)) (B := (· = .idle)) hoften
      (fun pc h => by simp [h]) fun s h => ?_
    simp only [pluginStep, h]
    exact Pool.pc_setPc_self _ i _
  intro n h
  rcases h with hclearing | hidle
  · exact hclear n hclearing
  · exact ⟨n, le_rfl, hidle⟩

/-- `pkt = p->working` and the rest of the call. -/
theorem loaded_leadsTo (hoften : Often sched (· = .plugin i)) :
    LeadsTo (poolRun license tid sched) (fun s => s.Loaded i) (fun s => s.pc i = .idle) := by
  have hbegin : LeadsTo (poolRun license tid sched) (fun s => s.Loaded i)
      (fun s => ∃ r prog, s.pc i = .body r prog) := by
    refine own_leadsTo hoften (fun s h => ?_) (fun s s' hpc hworking _ h => ?_) fun s h => ?_
    · obtain ⟨c, r, hpc, -⟩ := h
      simp [hpc]
    · obtain ⟨c, r, hload, hr⟩ := h
      exact ⟨c, r, hpc.trans hload, hworking.trans hr⟩
    · obtain ⟨c, r, hload, hr⟩ := h
      simp only [pluginStep, hload, hr]
      exact ⟨r, _, Pool.pc_setPc_self _ i _⟩
  refine hbegin.trans fun n h => ?_
  obtain ⟨r, prog, hbody⟩ := h
  exact ((body_leadsTo hoften r prog).trans (leaves_leadsTo hoften)) n hbody

/-- With the lock, or with a DONE packet, the call does not wait any more. -/
theorem homeward_leadsTo (hoften : Often sched (· = .plugin i)) :
    LeadsTo (poolRun license tid sched) (fun s => 0 < (s.pc i).homeward)
      (fun s => s.pc i = .idle) := by
  have hload : LeadsTo (poolRun license tid sched) (fun s => 0 < (s.pc i).homeward)
      (fun s => s.Loaded i) := by
    refine leadsTo_measure (fun s => (s.pc i).homeward) fun k => ?_
    refine own_leadsTo hoften (fun s h hidle => ?_) (fun s s' hpc _ _ h => ?_) fun s h => ?_
    · rw [hidle] at h
      exact Nat.lt_irrefl 0 h.1
    · rw [hpc]
      exact h
    · obtain ⟨hpos, rfl⟩ := h
      exact homeward_step license tid hpos
  exact hload.trans (loaded_leadsTo hoften)

/-- A new packet becomes the first one, or there is one whose lock has to be taken. -/
theorem push_leadsTo (hoften : Often sched (· = .plugin i)) :
    LeadsTo (poolRun license tid sched) (fun s => 0 < s.pushLeft i)
      (fun s => s.pc i = .idle ∨ s.Acquires i) := by
  let x := poolRun license tid sched
  have hpush : LeadsTo (poolRun license tid sched) (fun s => 0 < s.pushLeft i)
      (fun s => s.Acquires i ∨ 0 < (s.pc i).homeward) := by
    refine leadsTo_measure (Pool.pushLeft · i) fun k => ?_
    have hown (n : Nat) (h : 0 < (x n).pushLeft i ∧ (x n).pushLeft i = k)
        (hact : sched n = .plugin i) :
        ((x (n + 1)).Acquires i ∨ 0 < ((x (n + 1)).pc i).homeward) ∨
          0 < (x (n + 1)).pushLeft i ∧ (x (n + 1)).pushLeft i < k := by
      have hnext : x (n + 1) = pluginStep license tid (x n) i := by
        change poolStep license tid (x n) (sched n) = _
        rw [hact]
        rfl
      rw [hnext, ← h.2]
      exact push_step license tid h.1
    refine leadsTo_ensures hoften (fun n h => ?_) hown
    by_cases hact : sched n = .plugin i
    · exact .inr (hown n h hact)
    · have hbusy : (x n).pc i ≠ .idle := by
        intro hidle
        have hpos := h.1
        rw [Pool.pushLeft, hidle] at hpos
        exact Nat.lt_irrefl 0 hpos
      obtain ⟨hpos, hle⟩ := push_other h.1 (poolStep_other license tid hact hbusy).1
        fun hhead => poolStep_head license tid hhead (sched n)
      rcases hle.lt_or_eq with hlt | heq
      · exact .inr (.inr ⟨hpos, h.2 ▸ hlt⟩)
      · exact .inl ⟨hpos, heq.trans h.2⟩
  intro n h
  obtain ⟨k, hnk, hacquires | hhome⟩ := hpush n h
  · exact ⟨k, hnk, .inr hacquires⟩
  · obtain ⟨j, hkj, hidle⟩ := homeward_leadsTo hoften k hhome
    exact ⟨j, hnk.trans hkj, .inl hidle⟩

/-- From `if(!p->working)` a call comes to its end or to the lock. -/
theorem call_leadsTo (hoften : Often sched (· = .plugin i)) :
    LeadsTo (poolRun license tid sched) (fun s => ∃ c, s.pc i = .readWorking c)
      (fun s => s.pc i = .idle ∨ s.Acquires i) := by
  have hscanned : LeadsTo (poolRun license tid sched) (fun s => (s.pc i).Scanned)
      (fun s => s.pc i = .idle ∨ s.Acquires i) := by
    intro n h
    cases hpc : (poolRun license tid sched n).pc i with
    | recycle c r =>
      have hhome : 0 < ((poolRun license tid sched n).pc i).homeward := by
        rw [hpc]
        exact Nat.succ_pos 2
      obtain ⟨k, hnk, hidle⟩ := homeward_leadsTo hoften n hhome
      exact ⟨k, hnk, .inl hidle⟩
    | alloc c =>
      have hpush : 0 < (poolRun license tid sched n).pushLeft i := by
        simp only [Pool.pushLeft, hpc]
        exact Nat.succ_pos 4
      exact push_leadsTo hoften n hpush
    | _ =>
      rw [hpc] at h
      exact h.elim
  have hscan : LeadsTo (poolRun license tid sched) (fun s => (s.pc i).InScan)
      (fun s => (s.pc i).Scanned) := by
    intro n h
    have hscans := scan_leadsTo license tid hoften n
    simp only [pool_run] at hscans
    exact hscans h
  have hread : LeadsTo (poolRun license tid sched) (fun s => ∃ c, s.pc i = .readWorking c)
      (fun s => s.Loaded i ∨ (s.pc i).InScan) := by
    refine own_leadsTo hoften ?_ ?_ fun s h => ?_
    · rintro s ⟨c, hpc⟩
      simp [hpc]
    · rintro s s' hpc - - ⟨c, hread⟩
      exact ⟨c, hpc.trans hread⟩
    · obtain ⟨c, hpc⟩ := h
      simp only [pluginStep, hpc, Pool.Loaded]
      rw [Pool.pc_setPc_self]
      cases hw : s.working i with
      | none => exact .inr trivial
      | some r => exact .inl ⟨c, r, rfl, hw⟩
  intro n h
  obtain ⟨k, hnk, hloaded | hinscan⟩ := hread n h
  · obtain ⟨j, hkj, hidle⟩ := loaded_leadsTo hoften k hloaded
    exact ⟨j, hnk.trans hkj, .inl hidle⟩
  · obtain ⟨j, hkj, hj⟩ := hscan.trans hscanned k hinscan
    exact ⟨j, hnk.trans hkj, hj⟩

/-! ## The lock of the first packet -/

theorem acquire_step {c : GatherCall} {r l : Nat} (h : s.pc i = .acquire c r l)
    (act : PoolAct ι) :
    (poolStep license tid s act).pc i = .acquire c r l ∨
      (poolStep license tid s act).pc i = .linkLoad c r l := by
  by_cases hact : act = .plugin i
  · subst hact
    simp only [poolStep, pluginStep, h]
    split
    · exact .inl h
    · exact .inr (Pool.pc_setPc_self _ i _)
  · left
    rw [(poolStep_other license tid hact (by simp [h])).1]
    exact h

theorem orderInv_run (license : Text) (tid : ι → UInt64) (sched : Nat → PoolAct ι) (n : Nat) :
    ∃ l, OrderInv l (poolRun license tid sched n) ∧ (poolRun license tid sched n).Locked := by
  have hinv := recordInv_run license tid sched n
  have hlocked := locked_run license tid sched n
  rw [pool_run] at hlocked
  exact ⟨_, pool_run license tid sched n ▸ hinv.order, hlocked⟩

/-- A plugin that waits for ever for the lock of a packet has the storage thread against it:
each of the others takes that lock once at most. -/
theorem starved_by_storage [Fintype ι] (hfair : Fair sched) {c : GatherCall} {r l k : Nat}
    (hforever : ∀ j, k ≤ j → (poolRun license tid sched j).pc i = .acquire c r l) (n : Nat) :
    ∃ j, n ≤ j ∧ (poolRun license tid sched j).storage.locks = some l := by
  let x := poolRun license tid sched
  by_contra hnone
  have hstorage (j : Nat) (hj : n ≤ j) : (x j).storage.locks ≠ some l :=
    fun hlocks => hnone ⟨j, hj, hlocks⟩
  have hlisted (j : Nat) (hj : k ≤ j) : ∃ order, OrderInv order (x j) ∧ l ∈ order := by
    obtain ⟨order, horder, -⟩ := orderInv_run license tid sched j
    have hlinked := horder.linked i
    rw [hforever j hj] at hlinked
    exact ⟨order, horder, hlinked⟩
  suffices ∀ w m, max k n ≤ m → (x m).debt l = w → False from this _ _ le_rfl rfl
  intro w
  induction w using Nat.strong_induction_on with
  | _ w ih =>
    intro m hm hw
    have hsame : ∀ m', m ≤ m' → (x m').debt l = w ∧
        ∀ j, ((x m').pc j).locks = some l ↔ ((x m).pc j).locks = some l := by
      intro m' hmm'
      induction m', hmm' using Nat.le_induction with
      | base => exact ⟨hw, fun _ => Iff.rfl⟩
      | succ m' hmm' ihm =>
        obtain ⟨order, horder, hl⟩ := hlisted m' (by omega)
        obtain ⟨hle, heq⟩ := debt_step license tid horder hl (sched m')
        rcases hle.lt_or_eq with hlt | hsame
        · exact (ih _ (ihm.1 ▸ hlt) (m' + 1) (by omega) rfl).elim
        · exact ⟨hsame.trans ihm.1, fun j => (heq hsame j).trans (ihm.2 j)⟩
    by_cases hheld : ∃ j, ((x m).pc j).locks = some l
    · -- its owner comes closer to giving it back
      obtain ⟨j, hj⟩ := hheld
      obtain ⟨m', hmm', hact⟩ := hfair.plugin j m
      obtain ⟨order, horder, hl⟩ := hlisted m' (by omega)
      have hlt := debt_step_lt license tid horder hl (((hsame m' hmm').2 j).mpr hj)
      have hafter : (poolStep license tid (x m') (.plugin j)).debt l = w := by
        rw [← hact]
        exact (hsame (m' + 1) (by omega)).1
      have hbefore := (hsame m' hmm').1
      omega
    · -- the lock is free when the plugin tries
      obtain ⟨m', hmm', hact⟩ := hfair.plugin i m
      obtain ⟨-, -, hlocked⟩ := orderInv_run license tid sched m'
      have hfree : ¬ ((x m').heap l).spin = true := by
        intro hspin
        rcases hlocked l hspin with ⟨j, hj⟩ | hj
        · exact hheld ⟨j, ((hsame m' hmm').2 j).mp hj⟩
        · exact hstorage m' (by omega) hj
      have hwaits : (x m').pc i = .acquire c r l := hforever m' (by omega)
      have hnext : (x (m' + 1)).pc i = .linkLoad c r l := by
        change (poolStep license tid (x m') (sched m')).pc i = _
        rw [hact]
        simp only [poolStep, pluginStep, hwaits, if_neg hfree]
        exact Pool.pc_setPc_self _ i _
      have hstill := hforever (m' + 1) (by omega)
      cases hnext.symm.trans hstill

end run

/-- Under a schedule that runs every thread, a call of `plugin_gather` returns; or from some
point on it waits for the lock of one packet, which the storage thread then takes again and
again. So the locks cannot deadlock, and no plugin is starved by plugins. -/
theorem gather_returns [Finite ι] (license : Text) (tid : ι → UInt64) (sched : Nat → PoolAct ι)
    (hfair : Fair sched) (n : Nat) (i : ι) (c : GatherCall)
    (hidle : (poolRun license tid sched n).pc i = .idle) (hcall : sched n = .call i c) :
    let s := poolRun license tid sched
    (∃ k, n < k ∧ (s k).pc i = .idle) ∨
      ∃ k c r l, n < k ∧ (∀ j, k ≤ j → (s j).pc i = .acquire c r l) ∧
        ∀ j, ∃ j', j ≤ j' ∧ (s j').storage.locks = some l := by
  cases nonempty_fintype ι
  intro s
  have hoften := hfair.plugin i
  have hread : (s (n + 1)).pc i = .readWorking c := by
    change (poolStep license tid (s n) (sched n)).pc i = _
    rw [hcall]
    simp only [poolStep, s, hidle]
    exact Pool.pc_setPc_self _ i _
  obtain ⟨k, hnk, hidle | ⟨c', r, l, hacquire⟩⟩ := call_leadsTo hoften (n + 1) ⟨c, hread⟩
  · exact .inl ⟨k, hnk, hidle⟩
  by_cases hforever : ∀ j, k ≤ j → (s j).pc i = .acquire c' r l
  · exact .inr ⟨k, c', r, l, hnk, hforever, starved_by_storage hfair hforever⟩
  · left
    obtain ⟨j, hj⟩ := not_forall.mp hforever
    obtain ⟨hkj, hleft⟩ := Classical.not_imp.mp hj
    obtain ⟨j', hkj', hall, hlost⟩ := exists_lost (p := fun j => (s j).pc i = .acquire c' r l)
      hkj hacquire hleft
    have hlocks : (s (j' + 1)).pc i = .linkLoad c' r l :=
      (acquire_step (hall j' hkj' le_rfl) (sched j')).resolve_left hlost
    have hhome : 0 < ((s (j' + 1)).pc i).homeward := by
      rw [hlocks]
      exact Nat.succ_pos 4
    obtain ⟨j'', hj'', hidle⟩ := homeward_leadsTo hoften (j' + 1) hhome
    exact ⟨j'', by omega, hidle⟩

theorem gather_returns_alone : ∃ k, 0 < k ∧
    (poolRun Meta.sample.license (fun _ => 0) oneBatch k).pc () = .idle := by
  rcases gather_returns Meta.sample.license (fun _ => 0) oneBatch fair_oneBatch 0 ()
    ⟨0, 7000, .fresh, .ret .enone⟩ rfl rfl with hreturns | ⟨k, c, r, l, -, hforever, -⟩
  · exact hreturns
  · have hpc := pc_oneBatch (n := k + 28) (by omega)
    rw [pool_watchedRun, pool_tracedRun, pool_run] at hpc
    cases hpc.symm.trans (hforever (k + 28) (by omega))

end MonitoringAgent
