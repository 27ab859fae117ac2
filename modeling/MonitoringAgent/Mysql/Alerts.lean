import MonitoringAgent.Gather.Nested
import MonitoringAgent.Plugin.Phases

/-!
# The alerts of a MySQL target

`mysql_prep` and `mysql_gather`, run as the tasks of a plugin. Whether the target is up
is read off two things, the flag `on` and the id of the connection.
-/
namespace MonitoringAgent

open Buffer Transition Packet

/-- The fields of `mysql_module_t` the two functions write. -/
structure MysqlModule where
  on : Bool
  tid : UInt64
  deriving DecidableEq

/-- A section function of `mysql.c`: the texts it appends, and whether one of its queries
was answered. -/
structure MysqlSection where
  texts : List Text
  found : Bool

def MysqlSection.res (s : MysqlSection) : GatherError := if s.found then .enone else .enodata

def MysqlSection.gather (s : MysqlSection) : Gatherer := .ofTexts s.texts s.res

/-- What one call of `mysql_gather` meets: the ping, the id of the connection after it,
and the server's answers to the queries. -/
structure Observation where
  pingFails : Bool
  threadId : UInt64
  crud : MysqlSection
  query : MysqlSection
  innodb : MysqlSection
  thread : MysqlSection

def mysqlGatherReplica : Gatherer := .ret .enodata

/-- The five sections of a target that is up. -/
def mysqlSections (o : Observation) : Gatherer :=
  .gather (str "curd") o.crud.gather fun crud =>
  .gather (str "query") o.query.gather fun query =>
  .gather (str "innodb") o.innodb.gather fun innodb =>
  .gather (str "thread") o.thread.gather fun thread =>
  .gather (str "replica") mysqlGatherReplica fun replica =>
  .ret ((((crud.and query).and innodb).and thread).and replica)

/-- `mysql_prep` once the connection stands. -/
def mysqlPrep (o : Observation) : MysqlModule := ⟨true, o.threadId⟩

/-- `mysql_gather`: the module afterwards and what is done to the packet. -/
def mysqlGather (md : MysqlModule) (o : Observation) : MysqlModule × Gatherer :=
  if o.pingFails then
    if md.on then ({ md with on := false }, .ret .eplugdown) else (md, .ret .enodata)
  else if md.tid ≠ o.threadId then (⟨true, o.threadId⟩, .ret .eplugup)
  else (md, mysqlSections o)

/-- A turn of the plugin's routine and what a call of `mysql_prep` or `mysql_gather` in it
would meet. -/
structure MysqlTurn where
  i : TaskInput
  o : Observation

/-- The plugin with its log and module; `pingFailed` is what the last ping said. -/
structure MysqlRun where
  p : Plugin
  log : List Event
  module : MysqlModule
  pingFailed : Bool

/-- The turn as the plugin sees it: `p->gather` is `mysql_gather`. -/
def MysqlRun.input (s : MysqlRun) (t : MysqlTurn) : TaskInput :=
  { t.i with call := { t.i.call with gather := (mysqlGather s.module t.o).2 } }

def mysqlTurn (m : Meta) (s : MysqlRun) (t : MysqlTurn) : MysqlRun :=
  let next := invokeStep m (s.p, s.log) (s.input t)
  match s.p.task with
  | .prep => ⟨next.1, next.2, if t.i.prepOk then mysqlPrep t.o else s.module, s.pingFailed⟩
  | .gather => ⟨next.1, next.2, (mysqlGather s.module t.o).1, t.o.pingFails⟩
  | .regr | .alertUp | .alertDown => ⟨next.1, next.2, s.module, s.pingFailed⟩

/-- As `load_mysql_module`, `plugin_init` and the scan of `res/` leave it. -/
def MysqlRun.start (p : Plugin) (tid : UInt64) (md : MysqlModule) : MysqlRun :=
  ⟨{ pluginInit p with tid := tid, hasPrep := true }, [], md, false⟩

/-- The texts of the accepted alerts. -/
def alerts (log : List Event) : List Text :=
  log.filterMap fun
    | .posted .alert text true => some text
    | _ => none

/-- The alerts the gather results called for. -/
def owed (log : List Event) : List Status :=
  log.filterMap fun
    | .gathered res => res.alert
    | _ => none

/-- Down, up, down and so on. -/
def Alternate (sts : List Status) : Prop :=
  sts.IsChain (· ≠ ·) ∧ sts.head? ≠ some .up

/-- The turn gathers, and `mysql_gather` gets as far as its sections. -/
def Collects (s : MysqlRun) (t : MysqlTurn) : Prop :=
  s.p.task = .gather ∧ (mysqlGather s.module t.o).2 = mysqlSections t.o

/-- Metrics are collected only while the last alert is not a `down`. -/
def CollectsUp (m : Meta) (s : MysqlRun) (t : MysqlTurn) : Prop :=
  Collects s t → (alerts s.log).getLast? ≠ some (alertText m.license s.p.tid .down)

/-- The connection changed exactly if the ping before this one failed. -/
def Agrees (s : MysqlRun) (t : MysqlTurn) : Prop :=
  s.p.task = .gather → t.o.pingFails = false →
    (t.o.threadId ≠ s.module.tid ↔ s.pingFailed = true)

instance : DecidableRel Agrees := fun _ _ => inferInstanceAs (Decidable (_ → _ → (_ ↔ _)))

variable {m : Meta} {license : Text} {tid : UInt64} {log : List Event} {pend : Option Status}
  {s : MysqlRun} {t : MysqlTurn} {sts : List Status} {stat : Status}

/-! ## Alerts owed and alerts posted -/

theorem owed_append (l l' : List Event) : owed (l ++ l') = owed l ++ owed l' :=
  List.filterMap_append

theorem alerts_append (l l' : List Event) : alerts (l ++ l') = alerts l ++ alerts l' :=
  List.filterMap_append

theorem owed_gathered (res : GatherError) : owed [.gathered res] = res.alert.toList := by
  cases h : res.alert <;> simp [owed, h]

theorem Event.Unrelated.silent {e : Event} (h : e.Unrelated) : owed [e] = [] ∧ alerts [e] = [] := by
  cases e with
  | gathered res => exact h.elim
  | posted type text ok =>
    refine ⟨rfl, ?_⟩
    cases type <;> cases ok <;> first | rfl | exact absurd ⟨rfl, rfl⟩ h
  | changeTask _ _ => exact ⟨rfl, rfl⟩
  | saved _ _ => exact ⟨rfl, rfl⟩
  | published _ => exact ⟨rfl, rfl⟩

/-- The accepted alerts are the owed ones, all but the one still pending. -/
theorem Answered.alerts (h : Answered license tid log pend) :
    ∃ sts, alerts log = sts.map (alertText license tid) ∧ owed log = sts ++ pend.toList := by
  induction h with
  | start => exact ⟨[], rfl, rfl⟩
  | gathered h res ih =>
    obtain ⟨sts, halerts, howed⟩ := ih
    refine ⟨sts, ?_, ?_⟩
    · rw [alerts_append, halerts]
      exact List.append_nil _
    · rw [owed_append, owed_gathered, howed]
      simp
  | @alerted log stat h ih =>
    obtain ⟨sts, halerts, howed⟩ := ih
    refine ⟨sts ++ [stat], ?_, ?_⟩
    · rw [alerts_append, halerts, List.map_append]
      rfl
    · rw [owed_append, howed]
      simp [owed]
  | other h e he ih =>
    obtain ⟨sts, halerts, howed⟩ := ih
    obtain ⟨hnone, hnone'⟩ := he.silent
    refine ⟨sts, ?_, ?_⟩
    · rw [alerts_append, halerts, hnone', List.append_nil]
    · rw [owed_append, howed, hnone, List.append_nil]

theorem Alternate.concat (h : Alternate sts) (hlast : sts.getLast? ≠ some stat)
    (hfirst : sts = [] → stat = .down) : Alternate (sts ++ [stat]) := by
  constructor
  · refine List.isChain_append.mpr ⟨h.1, List.isChain_singleton _, ?_⟩
    intro x hx y hy
    cases hy
    rintro rfl
    exact hlast hx
  · cases sts with
    | nil => simp [hfirst rfl]
    | cons a sts => exact h.2

theorem Alternate.left {sts' : List Status} (h : Alternate (sts ++ sts')) : Alternate sts := by
  refine ⟨(List.isChain_append.mp h.1).1, ?_⟩
  cases sts with
  | nil => simp
  | cons a sts => exact h.2

/-! ## One turn -/

theorem alert_and {a : GatherError} (ha : a.alert = none) (b : GatherError) :
    (a.and b).alert = none := by
  cases a with
  | enone | enodata => cases b <;> rfl
  | eplugup | eplugdown => exact absurd ha nofun

/-- A section calls for no alert itself. -/
theorem MysqlSection.emit_gather (sec : MysqlSection) (tag : Text) {k : GatherError → Gatherer}
    (h : ∀ res last, res.alert = none → ((k res).emit last).2.alert = none) (last : Byte) :
    ((Gatherer.gather tag sec.gather k).emit last).2.alert = none := by
  have hres : (sec.gather.emit (ch '{')).2 = sec.res := by
    rw [MysqlSection.gather, emit_ofTexts]
  have halert : sec.res.alert = none := by
    unfold MysqlSection.res
    split <;> rfl
  simp only [Gatherer.emit, hres]
  split
  · exact h _ _ rfl
  · exact h _ _ halert

theorem emit_mysqlSections (o : Observation) (last : Byte) :
    ((mysqlSections o).emit last).2.alert = none := by
  refine o.crud.emit_gather _ (fun crud _ hcrud => ?_) last
  refine o.query.emit_gather _ (fun query _ _ => ?_) _
  refine o.innodb.emit_gather _ (fun innodb _ _ => ?_) _
  refine o.thread.emit_gather _ (fun thread _ _ => ?_) _
  exact alert_and (alert_and (alert_and (alert_and hcrud query) innodb) thread) _

/-- A task that does not gather: it owes no alert and does not go back to `prep`. -/
structure Quiet (p p' : Plugin) (evs : List Event) : Prop where
  owed : owed evs = []
  hasPrep : p'.hasPrep = p.hasPrep
  task : p'.task ≠ .prep

theorem quiet_pluginRegr (m : Meta) (p : Plugin) (i : TaskInput) (htask : p.task ≠ .prep)
    (hoob : ∀ pkt, p.oob = some pkt → pkt.type = .register) :
    Quiet p (pluginRegr m p i).1 (pluginRegr m p i).2 := by
  rcases pluginRegr_cases m p i hoob with ⟨_, _, _, _, heq⟩ | ⟨_, _, _, -, heq⟩
  · rw [heq]
    exact ⟨rfl, rfl, nofun⟩
  · rw [heq]
    exact ⟨rfl, rfl, htask⟩

theorem quiet_pluginAlert (m : Meta) (p : Plugin) (i : TaskInput) (htask : p.task ≠ .prep)
    (hoob : ∀ pkt, p.oob = some pkt → pkt.Alerts m.license p.tid stat) :
    Quiet p (pluginAlert m p stat i).1 (pluginAlert m p stat i).2 := by
  rcases pluginAlert_cases m p stat i hoob with heq | ⟨pkt, -, heq⟩
  · rw [heq]
    exact ⟨rfl, rfl, nofun⟩
  · rw [heq]
    exact ⟨rfl, rfl, htask⟩

theorem quiet_pluginPrep (m : Meta) (p : Plugin) (i : TaskInput) (hok : i.prepOk = true)
    (hoob : ∀ pkt, p.oob = some pkt → pkt.type = .register) :
    Quiet p (pluginPrep m p i).1 (pluginPrep m p i).2 := by
  have hregr := quiet_pluginRegr m { p with task := .regr } i nofun hoob
  rw [pluginPrep, if_neg (by simp [hok])]
  exact ⟨by simpa [owed, routineChangeTask] using hregr.owed, hregr.hasPrep, hregr.task⟩

/-- What holds between two turns once the flag, the last alert owed and the last ping
agree. -/
structure MysqlInv (m : Meta) (s : MysqlRun) : Prop where
  phase : PhaseInv m (s.p, s.log)
  hasPrep : s.p.hasPrep = true
  alternate : Alternate (owed s.log)
  early : s.p.task = .prep → owed s.log = [] ∧ s.pingFailed = false
  on : s.p.task ≠ .prep →
    (s.module.on = true ↔ (owed s.log).getLast? ≠ some .down) ∧ s.pingFailed = !s.module.on

/-- A quiet task keeps what the flag says. -/
theorem mysqlInv_quiet {p' : Plugin} {evs : List Event} (h : MysqlInv m s)
    (hphase : PhaseInv m (p', s.log ++ evs)) (htask : s.p.task ≠ .prep) (hq : Quiet s.p p' evs) :
    MysqlInv m ⟨p', s.log ++ evs, s.module, s.pingFailed⟩ := by
  have howed : owed (s.log ++ evs) = owed s.log := by
    rw [owed_append, hq.owed, List.append_nil]
  refine ⟨hphase, hq.hasPrep.trans h.hasPrep, ?_, fun hp => absurd hp hq.task, fun _ => ?_⟩
  · rw [howed]
    exact h.alternate
  · rw [howed]
    exact h.on htask

theorem mysqlInv_prep (h : MysqlInv m s) (htask : s.p.task = .prep) :
    MysqlInv m (mysqlTurn m s t) := by
  have hphase := phaseInv_invokeStep (i := s.input t) h.phase
  obtain ⟨hnone, hfailed⟩ := h.early htask
  have hoob := (h.phase.early (Or.inl htask)).2
  simp only [mysqlTurn, invokeStep, invoke, htask] at hphase ⊢
  cases hok : t.i.prepOk with
  | true =>
    have hq := quiet_pluginPrep m s.p (s.input t) hok hoob
    have howed : owed (s.log ++ (pluginPrep m s.p (s.input t)).2) = [] := by
      rw [owed_append, hnone, hq.owed]
      rfl
    refine ⟨hphase, hq.hasPrep.trans h.hasPrep, ?_, fun hp => absurd hp hq.task, fun _ => ?_⟩
    · rw [howed]
      exact ⟨List.isChain_nil, by simp⟩
    · rw [howed, hfailed]
      simp [mysqlPrep]
  | false =>
    have hsame : pluginPrep m s.p (s.input t) = (s.p, []) := by
      rw [pluginPrep, if_pos]
      simp [h.hasPrep, MysqlRun.input, hok]
    rw [hsame, List.append_nil] at hphase ⊢
    refine ⟨hphase, h.hasPrep, h.alternate, fun _ => ⟨hnone, hfailed⟩, fun hp => absurd htask hp⟩

/-- The result of a call of `mysql_gather`. -/
theorem mysqlGather_cases (md : MysqlModule) (o : Observation) :
    let res := ((mysqlGather md o).2.emit (ch '{')).2
    (o.pingFails = true ∧ md.on = true ∧ (mysqlGather md o).1.on = false ∧
        res.alert = some .down) ∨
      (o.pingFails = true ∧ md.on = false ∧ (mysqlGather md o).1.on = false ∧ res.alert = none) ∨
      (o.pingFails = false ∧ o.threadId ≠ md.tid ∧ (mysqlGather md o).1.on = true ∧
        res.alert = some .up) ∨
      (o.pingFails = false ∧ o.threadId = md.tid ∧ (mysqlGather md o).1 = md ∧
        res.alert = none) := by
  unfold mysqlGather
  split
  · next hping =>
    split
    · next hon => exact .inl ⟨hping, hon, rfl, rfl⟩
    · next hon =>
      have hoff := Bool.eq_false_iff.mpr hon
      exact .inr (.inl ⟨hping, hoff, hoff, rfl⟩)
  · next hping =>
    have hup := Bool.eq_false_iff.mpr hping
    split
    · next hid => exact .inr (.inr (.inl ⟨hup, Ne.symm hid, rfl, rfl⟩))
    · next hid =>
      exact .inr (.inr (.inr ⟨hup, (not_not.mp hid).symm, rfl, emit_mysqlSections o _⟩))

/-- The sections are gathered past the ping and the comparison of the ids. -/
theorem mysqlGather_sections {md : MysqlModule} {o : Observation} :
    (mysqlGather md o).2 = mysqlSections o ↔ o.pingFails = false ∧ o.threadId = md.tid := by
  have hret : ∀ res, Gatherer.ret res ≠ mysqlSections o := by
    intro res heq
    cases heq
  unfold mysqlGather
  split
  · next hping =>
    refine iff_of_false ?_ (by simp [hping])
    split <;> exact hret _
  · next hping =>
    have hup := Bool.eq_false_iff.mpr hping
    split
    · next hid => exact iff_of_false (hret _) fun h => hid h.2.symm
    · next hid => exact iff_of_true rfl ⟨hup, (not_not.mp hid).symm⟩

/-- A gather that agrees with the ping before it keeps the alerts alternating. -/
theorem mysqlInv_gather (h : MysqlInv m s) (htask : s.p.task = .gather) (hagree : Agrees s t) :
    MysqlInv m (mysqlTurn m s t) := by
  have hphase := phaseInv_invokeStep (i := s.input t) h.phase
  obtain ⟨hon, hfailed⟩ := h.on (by simp [htask])
  simp only [mysqlTurn, invokeStep, invoke, htask] at hphase ⊢
  obtain ⟨working, pub, hpub, heq⟩ := pluginGather_cases m s.p (s.input t).call
  have hcases := mysqlGather_cases s.module t.o
  have hemit : ((mysqlGather s.module t.o).2.emit (ch '{')).2 = (s.input t).call.emitted.2 := rfl
  rw [hemit] at hcases
  generalize (s.input t).call.emitted.2 = res at heq hcases
  have hsilent : owed pub = [] := by
    refine List.filterMap_eq_nil_iff.mpr fun e he => ?_
    obtain ⟨pkt, rfl⟩ := hpub e he
    rfl
  have howed : owed (s.log ++ (pluginGather m s.p (s.input t).call).2) =
      owed s.log ++ res.alert.toList := by
    rw [heq, owed_append, owed_append, hsilent, List.append_nil]
    cases halert : res.alert <;> simp [owed, halert]
  have hnot : (pluginGather m s.p (s.input t).call).1.task ≠ .prep := by
    rw [heq]
    cases res <;> simp [GatherError.alert, Task.afterGather, htask]
  have hkeep : (pluginGather m s.p (s.input t).call).1.hasPrep = true := by
    rw [heq]
    exact h.hasPrep
  suffices hgoal : Alternate (owed s.log ++ res.alert.toList) ∧
      ((mysqlGather s.module t.o).1.on = true ↔
        (owed s.log ++ res.alert.toList).getLast? ≠ some .down) ∧
      t.o.pingFails = !(mysqlGather s.module t.o).1.on by
    refine ⟨hphase, hkeep, ?_, fun hp => absurd hp hnot, fun _ => ?_⟩
    · rw [howed]
      exact hgoal.1
    · rw [howed]
      exact hgoal.2
  rcases hcases with ⟨hping, hup, hoff, halert⟩ | ⟨hping, hdown, hoff, halert⟩ |
    ⟨hping, hid, hset, halert⟩ | ⟨hping, hid, hsame, halert⟩
  · -- the first failed ping
    rw [halert, hoff, hping]
    refine ⟨h.alternate.concat (hon.mp hup) fun _ => rfl, ?_, rfl⟩
    simp
  · rw [halert, hoff, hping]
    rw [hdown] at hon
    exact ⟨by simpa using h.alternate, by simpa using hon, rfl⟩
  · -- a new connection: the ping before failed, so the last alert owed is a `down`
    have hdown : s.module.on = false := by
      have hbefore := (hagree htask hping).mp hid
      rw [hfailed] at hbefore
      simpa using hbefore
    have hlast : (owed s.log).getLast? = some .down := by
      rw [hdown] at hon
      simpa using hon
    rw [halert, hset, hping]
    refine ⟨h.alternate.concat (by simp [hlast]) ?_, ?_, rfl⟩
    · intro hnil
      simp [hnil] at hlast
    · simp
  · -- the same connection: the ping before did not fail
    have hup : s.module.on = true := by
      have hbefore := mt (hagree htask hping).mpr (by simp [hid])
      rw [hfailed] at hbefore
      simpa using hbefore
    rw [halert, hsame, hping, hup]
    rw [hup] at hon
    exact ⟨by simpa using h.alternate, by simpa using hon, rfl⟩

/-- One turn. -/
theorem mysqlInv_turn (h : MysqlInv m s) (hagree : Agrees s t) : MysqlInv m (mysqlTurn m s t) := by
  have hphase := phaseInv_invokeStep (i := s.input t) h.phase
  cases htask : s.p.task with
  | prep => exact mysqlInv_prep h htask
  | gather => exact mysqlInv_gather h htask hagree
  | regr =>
    have hoob := (h.phase.early (Or.inr htask)).2
    simp only [mysqlTurn, invokeStep, invoke, htask] at hphase ⊢
    have hnot : s.p.task ≠ .prep := by simp [htask]
    exact mysqlInv_quiet h hphase hnot (quiet_pluginRegr m s.p _ hnot hoob)
  | alertUp =>
    have hoob := fun pkt => h.phase.oobAlert .up pkt (by rw [htask]; rfl)
    simp only [mysqlTurn, invokeStep, invoke, htask] at hphase ⊢
    have hnot : s.p.task ≠ .prep := by simp [htask]
    exact mysqlInv_quiet h hphase hnot (quiet_pluginAlert m s.p _ hnot hoob)
  | alertDown =>
    have hoob := fun pkt => h.phase.oobAlert .down pkt (by rw [htask]; rfl)
    simp only [mysqlTurn, invokeStep, invoke, htask] at hphase ⊢
    have hnot : s.p.task ≠ .prep := by simp [htask]
    exact mysqlInv_quiet h hphase hnot (quiet_pluginAlert m s.p _ hnot hoob)

/-- Between two calls the flag tells what the last accepted alert was. -/
theorem MysqlInv.collectsUp (h : MysqlInv m s) (hagree : Agrees s t) : CollectsUp m s t := by
  rintro ⟨htask, hsections⟩ hlast
  obtain ⟨hping, hid⟩ := mysqlGather_sections.mp hsections
  obtain ⟨hon, hfailed⟩ := h.on (by simp [htask])
  have hup : s.module.on = true := by
    have hbefore := mt (hagree htask hping).mpr (by simp [hid])
    rw [hfailed] at hbefore
    simpa using hbefore
  have hanswered := h.phase.answered
  rw [htask] at hanswered
  obtain ⟨sts, halerts, howed⟩ := hanswered.alerts
  rw [Task.alert, Option.toList_none, List.append_nil] at howed
  have hne := hon.mp hup
  rw [howed] at hne
  rw [halerts, List.getLast?_map] at hlast
  obtain ⟨stat, hstat, htext⟩ := Option.map_eq_some_iff.mp hlast
  cases stat with
  | down => exact hne hstat
  | up =>
    have hlen := congrArg List.length htext
    simp [alertText, Status.text, str] at hlen

theorem mysqlInv_start (m : Meta) (p : Plugin) (tid : UInt64) (md : MysqlModule) :
    MysqlInv m (.start p tid md) where
  phase := phaseInv_init m { p with hasPrep := true } tid
  hasPrep := rfl
  alternate := ⟨List.isChain_nil, by simp [owed, MysqlRun.start]⟩
  early := fun _ => ⟨rfl, rfl⟩
  on := fun hp => absurd rfl hp

/-- In a run in which the connection changes exactly when the ping before has failed, the
accepted alerts of the target alternate, beginning with `down`, and metrics are collected
only while the last one is not `down`. -/
theorem mysql_alerts_alternate (m : Meta) (p : Plugin) (tid : UInt64) (md : MysqlModule)
    (turns : List MysqlTurn) (h : Along (mysqlTurn m) Agrees (.start p tid md) turns) :
    let s := run (mysqlTurn m) (.start p tid md) turns
    (∃ sts, alerts s.log = sts.map (alertText m.license s.p.tid) ∧ Alternate sts) ∧
      Along (mysqlTurn m) (CollectsUp m) (.start p tid md) turns := by
  have hstart := mysqlInv_start m p tid md
  have hend : MysqlInv m (run (mysqlTurn m) (.start p tid md) turns) :=
    invariant_along (fun _ _ hagree hinv => mysqlInv_turn hinv hagree) h hstart
  obtain ⟨sts, halerts, howed⟩ := hend.phase.answered.alerts
  refine ⟨⟨sts, halerts, ?_⟩, ?_⟩
  · have halt := hend.alternate
    rw [howed] at halt
    exact halt.left
  · exact along_guarded (fun _ _ hagree hinv => mysqlInv_turn hinv hagree)
      (fun _ _ hagree hinv => hinv.collectsUp hagree) h hstart

/-- A turn whose post is accepted, with the given ping result and connection id. -/
def MysqlTurn.sample (pingFails : Bool) (threadId : UInt64) : MysqlTurn where
  i := ⟨true, ⟨1, 1, 1⟩, ⟨1, 1, 1⟩, ⟨[], true, 200⟩, ⟨1000, 1500, .fresh, .ret .enone⟩⟩
  o := ⟨pingFails, threadId, ⟨[], true⟩, ⟨[], true⟩, ⟨[], true⟩, ⟨[], true⟩⟩

/-- The server goes away and comes back under a new connection. -/
theorem mysql_alerts_alternate_restart :
    let turns := [MysqlTurn.sample false 7, .sample true 7, .sample true 7, .sample false 8,
      .sample false 8, .sample false 8]
    let s := run (mysqlTurn Meta.sample) (.start Plugin.sample 5 ⟨true, 0⟩) turns
    (∃ sts, alerts s.log = sts.map (alertText Meta.sample.license s.p.tid) ∧ Alternate sts) ∧
      (alerts s.log).length = 2 := by
  intro turns s
  have hagree : Along (mysqlTurn Meta.sample) Agrees (.start Plugin.sample 5 ⟨true, 0⟩) turns := by
    decide +kernel
  exact ⟨(mysql_alerts_alternate Meta.sample Plugin.sample 5 ⟨true, 0⟩ turns hagree).1,
    by decide +kernel⟩

/-- The connection is dropped and restored between two pings: the first alert is `up`. -/
theorem mysql_first_alert_up :
    let s := run (mysqlTurn Meta.sample) (.start Plugin.sample 5 ⟨true, 0⟩)
      [.sample false 7, .sample false 8, .sample false 8]
    ¬ ∃ sts, alerts s.log = sts.map (alertText Meta.sample.license s.p.tid) ∧ Alternate sts := by
  rintro s ⟨sts, halerts, -, hfirst⟩
  have hsent : alerts s.log = [alertText Meta.sample.license s.p.tid .up] := by decide +kernel
  rw [hsent] at halerts
  cases sts with
  | nil => simp at halerts
  | cons stat sts =>
    cases stat with
    | up => exact hfirst rfl
    | down =>
      have hlen := congrArg (fun l => (l.map List.length).head?) halerts
      simp [alertText, Status.text, str] at hlen

end MonitoringAgent
