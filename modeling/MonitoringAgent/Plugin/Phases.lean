import MonitoringAgent.Gather.Use

/-!
# The phases of a plugin

Runs of `r->task(r)` from `plugin_init`: which tasks follow each other, what `p->oob`
holds in each of them, and which alerts are posted.
-/
namespace MonitoringAgent

open Buffer Transition Packet

variable {m : Meta} {p : Plugin} {license : Text} {tid : UInt64} {log evs : List Event}
  {i : TaskInput} {pend : Option Status}

/-- One turn, with the log of everything the plugin has done so far. -/
def invokeStep (m : Meta) (s : Plugin × List Event) (i : TaskInput) : Plugin × List Event :=
  ((invoke m s.1 i).1, s.2 ++ (invoke m s.1 i).2)

/-- The moves a task may make. -/
inductive Allowed : Task → Task → Prop where
  | register : Allowed .prep .regr
  | start : Allowed .regr .gather
  | goUp : Allowed .gather .alertUp
  | goDown : Allowed .gather .alertDown
  | backUp : Allowed .alertUp .gather
  | backDown : Allowed .alertDown .gather

/-- The changes of the task along a log. -/
def moves (log : List Event) : List (Task × Task) :=
  log.filterMap fun
    | .changeTask src dst => some (src, dst)
    | _ => none

/-- A path of allowed moves. -/
def Path : Task → List (Task × Task) → Task → Prop
  | a, [], b => a = b
  | a, (src, dst) :: rest, b => a = src ∧ Allowed src dst ∧ Path dst rest b

/-- A REGISTER packet of the plugin was posted and accepted. -/
def Registered (log : List Event) : Prop := ∃ text, .posted .register text true ∈ log

/-- Every gather comes after a registration. -/
def GathersRegistered (log : List Event) : Prop :=
  ∀ pre res, pre ++ [.gathered res] <+: log → Registered pre

/-- The alert a result calls for. -/
def GatherError.alert : GatherError → Option Status
  | .enone | .enodata => none
  | .eplugup => some .up
  | .eplugdown => some .down

/-- Neither a gather nor an alert that was accepted. -/
def Event.Unrelated : Event → Prop
  | .gathered _ => False
  | .posted type _ ok => ¬ (type = .alert ∧ ok = true)
  | .changeTask _ _ | .saved _ _ | .published _ => True

/-- Gathers and accepted alerts take turns: a result that calls for an alert is followed,
before any further gather, by exactly one accepted post of an alert of that status, and
no other alert is accepted. `pend` is the alert still owed. -/
inductive Answered (license : Text) (tid : UInt64) : List Event → Option Status → Prop where
  | start : Answered license tid [] none
  | gathered {log : List Event} (h : Answered license tid log none) (res : GatherError) :
      Answered license tid (log ++ [.gathered res]) res.alert
  | alerted {log : List Event} {stat : Status} (h : Answered license tid log (some stat)) :
      Answered license tid (log ++ [.posted .alert (alertText license tid stat) true]) none
  | other {log : List Event} {pend : Option Status} (h : Answered license tid log pend)
      (e : Event) (he : e.Unrelated) : Answered license tid (log ++ [e]) pend

/-- The alert a task stands for. -/
def Task.alert : Task → Option Status
  | .alertUp => some .up
  | .alertDown => some .down
  | .prep | .regr | .gather => none

/-- The turn gets as far as `plugin_regr`. -/
def Plugin.attempts (p : Plugin) (inp : TaskInput) : Bool :=
  p.task = .regr || p.task = .prep && !(p.hasPrep && !inp.prepOk)

/-- The post of an attempt to register is accepted. -/
def Plugin.accepted (m : Meta) (p : Plugin) (i : TaskInput) : Bool :=
  (post (pluginRegrPacket m p i.clock).2 i.reply).2

/-- The post of an alert is accepted. -/
def Plugin.alertAccepted (m : Meta) (p : Plugin) (stat : Status) (i : TaskInput) : Bool :=
  (post (p.oob.getD (alertPacket m.license p.tid stat)) i.reply).2

/-- A registration or an alert that is accepted is on record, and the plugin gathers next. -/
def GathersNext (m : Meta) (s : Plugin × List Event) (i : TaskInput) : Prop :=
  (s.1.attempts i = true → s.1.accepted m i = true →
      (invoke m s.1 i).1.task = .gather ∧
        ∃ text, .posted .register text true ∈ (invoke m s.1 i).2) ∧
    ∀ stat, s.1.task.alert = some stat → s.1.alertAccepted m stat i = true →
      (invoke m s.1 i).1.task = .gather ∧
        .posted .alert (alertText m.license s.1.tid stat) true ∈ (invoke m s.1 i).2

/-! ## Logs -/

theorem moves_append (l l' : List Event) : moves (l ++ l') = moves l ++ moves l' :=
  List.filterMap_append

theorem path_append {a b c : Task} {l l' : List (Task × Task)} (h : Path a l b)
    (h' : Path b l' c) : Path a (l ++ l') c := by
  induction l generalizing a with
  | nil =>
    obtain rfl : a = b := h
    exact h'
  | cons move l ih => exact ⟨h.1, h.2.1, ih h.2.2⟩

theorem Registered.append_right (h : Registered log) (l : List Event) : Registered (log ++ l) := by
  obtain ⟨text, hmem⟩ := h
  exact ⟨text, List.mem_append_left _ hmem⟩

theorem Registered.mono {log' : List Event} (h : Registered log) (hpre : log <+: log') :
    Registered log' := by
  obtain ⟨l, rfl⟩ := hpre
  exact h.append_right l

/-- New events keep the gathers behind the registration: either there is one already, or
no gather is among them. -/
theorem GathersRegistered.append (h : GathersRegistered log)
    (hevs : Registered log ∨ ∀ res, .gathered res ∉ evs) : GathersRegistered (log ++ evs) := by
  intro pre res hpre
  rcases Nat.lt_or_ge pre.length log.length with hlt | hge
  · refine h pre res (List.prefix_of_prefix_length_le hpre (List.prefix_append log evs) ?_)
    rw [List.length_append, List.length_singleton]
    exact hlt
  · have hlog : log <+: pre := by
      refine List.prefix_of_prefix_length_le (List.prefix_append log evs) ?_ hge
      exact (List.prefix_append pre _).trans hpre
    rcases hevs with hreg | hnot
    · exact hreg.mono hlog
    · obtain ⟨mid, rfl⟩ := hlog
      rw [List.append_assoc, List.prefix_append_right_inj] at hpre
      have hmem : .gathered res ∈ evs := hpre.subset (by simp)
      exact absurd hmem (hnot res)

theorem Answered.append_others (h : Answered license tid log pend)
    (hevs : ∀ e ∈ evs, e.Unrelated) : Answered license tid (log ++ evs) pend := by
  induction evs generalizing log with
  | nil => simpa using h
  | cons e evs ih =>
    have hone := h.other e (hevs e List.mem_cons_self)
    have hrest := ih hone fun e' he' => hevs e' (List.mem_cons_of_mem _ he')
    simpa using hrest

/-! ## The tasks -/

theorem alertText_lt (m : Meta) (tid : UInt64) (stat : Status) :
    (alertText m.license tid stat).length < pktsz := by
  have hl := m.license_lt
  have ht := length_decimal_lt tid
  have hs : stat.text.length ≤ 4 := by cases stat <;> decide
  simp only [alertText, List.length_append]
  have h₁ : (str "\x7b\"license\":\"").length = 12 := by decide
  have h₂ : (str "\",\"tid\":").length = 8 := by decide
  have h₃ : (str ",\"status\":\"").length = 11 := by decide
  have h₄ : (str "\"\x7d").length = 2 := by decide
  unfold pktsz
  omega

theorem text_alertPacket (m : Meta) (tid : UInt64) (stat : Status) :
    (alertPacket m.license tid stat).text = alertText m.license tid stat :=
  (tracks_append_fresh rfl _).text_eq (alertText_lt m tid stat)

/-- An out-of-band packet with the alert `stat`. -/
def Packet.Alerts (license : Text) (tid : UInt64) (stat : Status) (pkt : Packet) : Prop :=
  pkt.type = .alert ∧ pkt.text = alertText license tid stat

/-- The tid an attempt to register uses. -/
def Plugin.registerTid (p : Plugin) (clock : TidClock) : UInt64 :=
  if p.oob.isNone && p.tid = 0 then clock.tid else p.tid

theorem pluginRegrPacket_fst (m : Meta) (p : Plugin) (clock : TidClock) :
    (pluginRegrPacket m p clock).1 = { p with tid := p.registerTid clock } := by
  unfold pluginRegrPacket Plugin.registerTid
  cases h : p.oob with
  | none => by_cases htid : p.tid = 0 <;> simp [htid, ← h]
  | some pkt =>
    simp only [Option.isNone_some, Bool.false_and, Bool.false_eq_true, if_false]
    rw [← h]

/-- The packet does not depend on the task. -/
theorem pluginRegrPacket_task (m : Meta) (p : Plugin) (task : Task) (clock : TidClock) :
    (pluginRegrPacket m { p with task := task } clock).2 = (pluginRegrPacket m p clock).2 := by
  unfold pluginRegrPacket
  cases h : p.oob with
  | none => by_cases htid : p.tid = 0 <;> simp only [htid, if_true, if_false] <;> rfl
  | some pkt => rfl

theorem pluginRegrPacket_type (m : Meta) (p : Plugin) (clock : TidClock)
    (hoob : ∀ pkt, p.oob = some pkt → pkt.type = .register) :
    (pluginRegrPacket m p clock).2.type = .register := by
  unfold pluginRegrPacket
  cases h : p.oob with
  | none => rfl
  | some pkt => exact hoob pkt h

/-- An accepted attempt saves the file and changes the task. -/
theorem pluginRegr_accepted (hok : p.accepted m i = true) :
    pluginRegr m p i = ({ p with tid := p.registerTid i.clock, oob := none, task := .gather },
      [.posted (pluginRegrPacket m p i.clock).2.type (pluginRegrPacket m p i.clock).2.text true,
        .saved (saveName (p.registerTid i.clock)) (saveContent p),
        .changeTask p.task .gather]) := by
  have htype := (post_frame (pluginRegrPacket m p i.clock).2 i.reply).1
  unfold Plugin.accepted at hok
  simp only [pluginRegr, hok, pluginRegrPacket_fst, htype, text_post, routineChangeTask, if_true]
  rfl

/-- A refused one keeps the packet for the next attempt. -/
theorem pluginRegr_refused (hok : p.accepted m i = false) :
    let pkt := (post (pluginRegrPacket m p i.clock).2 i.reply).1
    pluginRegr m p i = ({ p with
        tid := if pkt.response = etargetreg then i.retryClock.tid else p.registerTid i.clock
        oob := some pkt },
      [.posted (pluginRegrPacket m p i.clock).2.type (pluginRegrPacket m p i.clock).2.text
        false]) := by
  have htype := (post_frame (pluginRegrPacket m p i.clock).2 i.reply).1
  unfold Plugin.accepted at hok
  simp only [pluginRegr, hok, pluginRegrPacket_fst, htype, text_post, Bool.false_eq_true, if_false]

/-- What an attempt to register does in either case. -/
theorem pluginRegr_cases (m : Meta) (p : Plugin) (i : TaskInput)
    (hoob : ∀ pkt, p.oob = some pkt → pkt.type = .register) :
    (∃ tid text name content,
      pluginRegr m p i = ({ p with tid := tid, oob := none, task := .gather },
        [.posted .register text true, .saved name content, .changeTask p.task .gather])) ∨
      ∃ tid text pkt, pkt.type = .register ∧
        pluginRegr m p i = ({ p with tid := tid, oob := some pkt },
          [.posted .register text false]) := by
  have htype := pluginRegrPacket_type m p i.clock hoob
  cases hok : p.accepted m i with
  | true =>
    rw [pluginRegr_accepted hok, htype]
    exact Or.inl ⟨_, _, _, _, rfl⟩
  | false =>
    rw [pluginRegr_refused hok, htype]
    exact Or.inr ⟨_, _, _, (post_frame _ _).1.trans htype, rfl⟩

/-- The packet of an alert: that of an earlier attempt or a new one. -/
theorem alerts_packet (m : Meta) (p : Plugin) (stat : Status)
    (hoob : ∀ pkt, p.oob = some pkt → pkt.Alerts m.license p.tid stat) :
    (p.oob.getD (alertPacket m.license p.tid stat)).Alerts m.license p.tid stat := by
  cases h : p.oob with
  | none => exact ⟨rfl, text_alertPacket m p.tid stat⟩
  | some pkt => exact hoob pkt h

theorem pluginAlert_accepted {stat : Status}
    (hoob : ∀ pkt, p.oob = some pkt → pkt.Alerts m.license p.tid stat)
    (hok : p.alertAccepted m stat i = true) :
    pluginAlert m p stat i = ({ p with oob := none, task := .gather },
      [.posted .alert (alertText m.license p.tid stat) true, .changeTask p.task .gather]) := by
  obtain ⟨htype, htext⟩ := alerts_packet m p stat hoob
  unfold Plugin.alertAccepted at hok
  simp only [pluginAlert, hok, htype, text_post, htext, routineChangeTask, if_true]

/-- An attempt to post an alert: the packet is kept when it is refused. -/
theorem pluginAlert_cases (m : Meta) (p : Plugin) (stat : Status) (i : TaskInput)
    (hoob : ∀ pkt, p.oob = some pkt → pkt.Alerts m.license p.tid stat) :
    pluginAlert m p stat i = ({ p with oob := none, task := .gather },
        [.posted .alert (alertText m.license p.tid stat) true, .changeTask p.task .gather]) ∨
      ∃ pkt, pkt.Alerts m.license p.tid stat ∧
        pluginAlert m p stat i = ({ p with oob := some pkt },
          [.posted .alert (alertText m.license p.tid stat) false]) := by
  obtain ⟨htype, htext⟩ := alerts_packet m p stat hoob
  have hframe := (post_frame (p.oob.getD (alertPacket m.license p.tid stat)) i.reply).1
  cases hok : p.alertAccepted m stat i with
  | true => exact Or.inl (pluginAlert_accepted hoob hok)
  | false =>
    refine Or.inr ⟨_, ⟨hframe.trans htype, (text_post _ _).trans htext⟩, ?_⟩
    unfold Plugin.alertAccepted at hok
    simp only [pluginAlert, hok, htype, text_post, htext, Bool.false_eq_true, if_false]

/-- A gather: the result decides the next task; the rest happens on the packet. -/
theorem pluginGather_cases (m : Meta) (p : Plugin) (c : GatherCall) :
    ∃ working pub, (∀ e ∈ pub, ∃ pkt, e = .published pkt) ∧
      pluginGather m p c = ({ p with
          working := working
          task := if c.emitted.2.alert = none then p.task else Task.afterGather c.emitted.2 },
        .gathered c.emitted.2 ::
          (if c.emitted.2.alert = none then []
            else [.changeTask p.task (Task.afterGather c.emitted.2)]) ++ pub) := by
  have hres := exec_gatherBody m.license p.tid c (p.packet c)
  obtain ⟨res, retired, pkt, hexec⟩ : ∃ res retired pkt,
      (gatherBody m.license p.tid c).exec Packet.effects (p.packet c) = ((res, retired), pkt) :=
    ⟨_, _, _, rfl⟩
  rw [hexec] at hres
  refine ⟨if retired then none else some pkt,
    if pkt.state = .ready then [.published pkt] else [], ?_, ?_⟩
  · intro e he
    split at he
    · exact ⟨pkt, List.mem_singleton.mp he⟩
    · exact absurd he List.not_mem_nil
  · rw [← hres]
    simp only [pluginGather, hexec]
    cases res <;> rfl

theorem early_of_attempts (h : p.attempts i = true) : p.task = .prep ∨ p.task = .regr := by
  simp only [Plugin.attempts, Bool.or_eq_true, Bool.and_eq_true, decide_eq_true_eq] at h
  rcases h with h | h
  · exact Or.inr h
  · exact Or.inl h.1

/-- A turn that gets to `plugin_regr` does what it does from the task `regr`. -/
theorem invoke_of_attempts (h : p.attempts i = true) :
    ∃ change, (change = [] ∨ change = [.changeTask .prep .regr]) ∧
      invoke m p i = ((pluginRegr m { p with task := .regr } i).1,
        change ++ (pluginRegr m { p with task := .regr } i).2) := by
  simp only [Plugin.attempts, Bool.or_eq_true, Bool.and_eq_true, decide_eq_true_eq] at h
  rcases h with htask | ⟨htask, hprep⟩
  · have hp : { p with task := .regr } = p := by rw [← htask]
    refine ⟨[], Or.inl rfl, ?_⟩
    rw [hp]
    simp only [invoke, htask, List.nil_append]
  · have hcond : ¬ (p.hasPrep && !i.prepOk) = true := by
      intro hc
      rw [hc] at hprep
      cases hprep
    refine ⟨_, Or.inr rfl, ?_⟩
    simp only [invoke, htask]
    rw [pluginPrep, if_neg hcond]
    simp only [routineChangeTask, htask]

/-! ## Runs -/

/-- What holds of a plugin and its log between two turns. -/
structure Phased (m : Meta) (s : Plugin × List Event) : Prop where
  moves : Path .prep (moves s.2) s.1.task
  registered : GathersRegistered s.2
  oobGather : s.1.task = .gather → s.1.oob = none
  oobAlert : ∀ stat pkt, s.1.task.alert = some stat → s.1.oob = some pkt →
    pkt.Alerts m.license s.1.tid stat
  answered : Answered m.license s.1.tid s.2 s.1.task.alert

/-- Before the plugin is registered the log is free of gathers and alerts, so its tid may
still change; afterwards the registration is on record. -/
structure PhaseInv (m : Meta) (s : Plugin × List Event) : Prop extends Phased m s where
  early : s.1.task = .prep ∨ s.1.task = .regr →
    (∀ tid, Answered m.license tid s.2 none) ∧ ∀ pkt, s.1.oob = some pkt → pkt.type = .register
  late : s.1.task ≠ .prep → s.1.task ≠ .regr → Registered s.2

/-- A registration attempt, the first one included. -/
theorem phaseInv_pluginRegr (h : PhaseInv m (p, log)) (htask : p.task = .regr) :
    PhaseInv m ((pluginRegr m p i).1, log ++ (pluginRegr m p i).2) := by
  obtain ⟨hfree, hoob⟩ := h.early (Or.inr htask)
  have hmoves := h.moves
  rw [htask] at hmoves
  rcases pluginRegr_cases m p i hoob with
    ⟨tid, text, name, content, heq⟩ | ⟨tid, text, pkt, htype, heq⟩
  · rw [heq, htask]
    refine ⟨⟨?_, ?_, fun _ => rfl, ?_, ?_⟩, ?_, ?_⟩
    · rw [moves_append]
      exact path_append hmoves ⟨rfl, .start, rfl⟩
    · exact h.registered.append (Or.inr (by simp))
    · rintro stat pkt - ⟨⟩
    · exact (hfree _).append_others (by simp [Event.Unrelated])
    · rintro (h | h) <;> cases h
    · intro _ _
      exact ⟨_, List.mem_append_right _ List.mem_cons_self⟩
  · rw [heq, htask]
    have hquiet : ∀ tid, Answered m.license tid
        (log ++ [.posted .register text false]) none :=
      fun tid => (hfree tid).append_others (by simp [Event.Unrelated])
    refine ⟨⟨?_, ?_, nofun, nofun, hquiet _⟩, ?_, ?_⟩
    · rw [moves_append]
      exact path_append hmoves rfl
    · exact h.registered.append (Or.inr (by simp))
    · intro _
      refine ⟨hquiet, ?_⟩
      rintro _ ⟨rfl⟩
      exact htype
    · intro _ hne
      exact absurd rfl hne

/-- The step from `prep` to `regr`. -/
theorem phaseInv_toRegr (h : PhaseInv m (p, log)) (htask : p.task = .prep) :
    PhaseInv m ({ p with task := .regr }, log ++ [.changeTask .prep .regr]) := by
  have hmoves := h.moves
  rw [htask] at hmoves
  obtain ⟨hfree, hoob⟩ := h.early (Or.inl htask)
  have hquiet : ∀ tid, Answered m.license tid (log ++ [.changeTask .prep .regr]) none :=
    fun tid => (hfree tid).append_others (by simp [Event.Unrelated])
  refine ⟨⟨?_, ?_, nofun, nofun, hquiet _⟩, ?_, ?_⟩
  · rw [moves_append]
    exact path_append hmoves ⟨rfl, .register, rfl⟩
  · exact h.registered.append (Or.inr (by simp))
  · exact fun _ => ⟨hquiet, hoob⟩
  · exact fun _ hne => absurd rfl hne

theorem phaseInv_pluginPrep (h : PhaseInv m (p, log)) (htask : p.task = .prep) :
    PhaseInv m ((pluginPrep m p i).1, log ++ (pluginPrep m p i).2) := by
  unfold pluginPrep
  split
  · simpa using h
  · have hregr := phaseInv_pluginRegr (i := i) (phaseInv_toRegr h htask) rfl
    simpa [routineChangeTask, htask] using hregr

theorem phaseInv_pluginAlert {stat : Status} (h : PhaseInv m (p, log))
    (htask : p.task.alert = some stat) :
    PhaseInv m ((pluginAlert m p stat i).1, log ++ (pluginAlert m p stat i).2) := by
  have hmoves := h.moves
  have hanswered := h.answered
  rw [htask] at hanswered
  have hback : Allowed p.task .gather ∧ p.task ≠ .prep ∧ p.task ≠ .regr := by
    cases ht : p.task <;> rw [ht] at htask <;> simp [Task.alert] at htask <;>
      exact ⟨by constructor, nofun, nofun⟩
  obtain ⟨hallowed, hprep, hregr⟩ := hback
  have hreg := h.late hprep hregr
  rcases pluginAlert_cases m p stat i (fun pkt => h.oobAlert stat pkt htask) with
    heq | ⟨pkt, halerts, heq⟩
  · rw [heq]
    refine ⟨⟨?_, ?_, fun _ => rfl, nofun, ?_⟩, ?_, fun _ _ => hreg.append_right _⟩
    · rw [moves_append]
      exact path_append hmoves ⟨rfl, hallowed, rfl⟩
    · exact h.registered.append (Or.inl hreg)
    · have hall := hanswered.alerted.other (.changeTask p.task .gather) trivial
      simpa [Task.alert] using hall
    · rintro (h | h) <;> cases h
  · rw [heq]
    refine ⟨⟨?_, ?_, ?_, ?_, ?_⟩, ?_, fun _ _ => hreg.append_right _⟩
    · rw [moves_append]
      exact path_append hmoves rfl
    · exact h.registered.append (Or.inl hreg)
    · intro hgather
      have htask' : p.task = .gather := hgather
      rw [htask'] at htask
      cases htask
    · intro stat' pkt' hstat hpkt
      have hsame : stat = stat' := Option.some.inj (htask.symm.trans hstat)
      cases hpkt
      rw [← hsame]
      exact halerts
    · rw [htask]
      exact hanswered.append_others (by simp [Event.Unrelated])
    · rintro (hp | hp)
      · exact absurd hp hprep
      · exact absurd hp hregr

theorem phaseInv_pluginGather {c : GatherCall} (h : PhaseInv m (p, log))
    (htask : p.task = .gather) :
    PhaseInv m ((pluginGather m p c).1, log ++ (pluginGather m p c).2) := by
  have hmoves := h.moves
  have hanswered := h.answered
  have hoob := h.oobGather htask
  have hreg := h.late (by simp [htask]) (by simp [htask])
  rw [htask] at hmoves hanswered
  obtain ⟨working, pub, hpub, heq⟩ := pluginGather_cases m p c
  generalize c.emitted.2 = res at heq
  have hquiet : ∀ e ∈ pub, e.Unrelated := by
    intro e he
    obtain ⟨pkt, rfl⟩ := hpub e he
    trivial
  have hsilent : moves pub = [] := by
    refine List.filterMap_eq_nil_iff.mpr fun e he => ?_
    obtain ⟨pkt, rfl⟩ := hpub e he
    rfl
  have hgathers : GathersRegistered (log ++ (pluginGather m p c).2) :=
    h.registered.append (Or.inl hreg)
  rw [heq, htask] at hgathers ⊢
  cases halert : res.alert with
  | none =>
    -- the task stays
    simp only [halert, if_true, List.cons_append, List.nil_append] at hgathers ⊢
    refine ⟨⟨?_, hgathers, fun _ => hoob, nofun, ?_⟩, ?_, fun _ _ => hreg.append_right _⟩
    · rw [moves_append]
      refine path_append hmoves ?_
      change Path _ (moves pub) _
      rw [hsilent]
      rfl
    · have hone := hanswered.gathered res
      rw [halert] at hone
      simpa [Task.alert] using hone.append_others hquiet
    · rintro (hp | hp) <;> cases hp
  | some stat =>
    have hnext : Allowed .gather (Task.afterGather res) ∧
        (Task.afterGather res).alert = res.alert ∧ Task.afterGather res ≠ .gather ∧
        Task.afterGather res ≠ .prep ∧ Task.afterGather res ≠ .regr := by
      cases res <;> simp only [GatherError.alert, reduceCtorEq] at halert <;>
        exact ⟨by constructor, rfl, nofun, nofun, nofun⟩
    obtain ⟨hallowed, hsame, hngather, hnprep, hnregr⟩ := hnext
    simp only [halert, reduceCtorEq, if_false] at hgathers ⊢
    refine ⟨⟨?_, hgathers, ?_, ?_, ?_⟩, ?_, fun _ _ => hreg.append_right _⟩
    · rw [moves_append]
      refine path_append hmoves ⟨rfl, hallowed, ?_⟩
      change Path _ (moves pub) _
      rw [hsilent]
      rfl
    · exact fun hg => absurd hg hngather
    · intro stat pkt _ hsome
      rw [hoob] at hsome
      cases hsome
    · have hone := (hanswered.gathered res).other
        (.changeTask .gather (Task.afterGather res)) trivial
      rw [hsame]
      simpa using hone.append_others hquiet
    · rintro (hp | hp)
      · exact absurd hp hnprep
      · exact absurd hp hnregr

/-- One turn. -/
theorem phaseInv_invokeStep {s : Plugin × List Event} (h : PhaseInv m s) :
    PhaseInv m (invokeStep m s i) := by
  obtain ⟨p, log⟩ := s
  unfold invokeStep invoke
  dsimp only
  split
  next htask => exact phaseInv_pluginPrep h htask
  next htask => exact phaseInv_pluginRegr h htask
  next htask => exact phaseInv_pluginGather h htask
  next htask => exact phaseInv_pluginAlert h (by rw [htask]; rfl)
  next htask => exact phaseInv_pluginAlert h (by rw [htask]; rfl)

theorem phaseInv_init (m : Meta) (p : Plugin) (tid : UInt64) :
    PhaseInv m ({ pluginInit p with tid := tid }, []) where
  moves := rfl
  registered := by
    intro pre res hpre
    simp at hpre
  oobGather := fun _ => rfl
  oobAlert := nofun
  answered := .start
  early := fun _ => ⟨fun _ => .start, nofun⟩
  late := fun hne _ => absurd rfl hne

theorem phaseInv_run (m : Meta) (p : Plugin) (tid : UInt64) (is : List TaskInput) :
    PhaseInv m (run (invokeStep m) ({ pluginInit p with tid := tid }, []) is) :=
  invariant_run (fun _ _ => phaseInv_invokeStep) (phaseInv_init m p tid)

theorem PhaseInv.gathersNext {s : Plugin × List Event} (h : PhaseInv m s) (i : TaskInput) :
    GathersNext m s i := by
  obtain ⟨p, log⟩ := s
  constructor
  · intro hattempts hok
    obtain ⟨-, hoob⟩ := h.early (early_of_attempts hattempts)
    have hok' : Plugin.accepted m { p with task := .regr } i = true := by
      rw [Plugin.accepted, pluginRegrPacket_task]
      exact hok
    obtain ⟨change, -, heq⟩ := invoke_of_attempts (m := m) hattempts
    dsimp only
    rw [heq, pluginRegr_accepted hok', pluginRegrPacket_task,
      pluginRegrPacket_type m p i.clock hoob]
    exact ⟨rfl, _, List.mem_append_right _ List.mem_cons_self⟩
  · intro stat hstat hok
    have heq := pluginAlert_accepted (fun pkt => h.oobAlert stat pkt hstat) hok
    have hinvoke : invoke m p i = pluginAlert m p stat i := by
      unfold invoke
      dsimp only at hstat
      cases htask : p.task with
      | alertUp | alertDown =>
        rw [htask] at hstat
        cases hstat
        rfl
      | prep | regr | gather =>
        rw [htask] at hstat
        cases hstat
    dsimp only
    rw [hinvoke, heq]
    exact ⟨rfl, List.mem_cons_self⟩

/-- In every run from `plugin_init`, with the tid the scan of `res/` may have set, the task
makes only the allowed moves, gathers come after an accepted registration, the out-of-band
packet is the one the task needs, and every alert result is answered by exactly one
accepted alert before the next gather; and what is accepted ends its task. -/
theorem plugin_run_phased (m : Meta) (p : Plugin) (tid : UInt64) (is : List TaskInput) :
    let start : Plugin × List Event := ({ pluginInit p with tid := tid }, [])
    Phased m (run (invokeStep m) start is) ∧ Along (invokeStep m) (GathersNext m) start is := by
  intro start
  refine ⟨(phaseInv_run m p tid is).toPhased, ?_⟩
  exact along_of_invariant (fun _ _ => phaseInv_invokeStep) (fun _ i h => h.gathersNext i)
    (phaseInv_init m p tid)

end MonitoringAgent
