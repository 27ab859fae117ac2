import MonitoringAgent.Plugin.Phases
import MonitoringAgent.Plugin.Register

/-!
# Attempts to register

A run of registration attempts: what each of them posts, when the tid changes, and that
the accepted tid is the one in everything the plugin sends afterwards.
-/
namespace MonitoringAgent

open Buffer Decimal Transition Packet

/-- `callback` makes this code of the body. -/
def Reply.answers (r : Reply) (code : Int) : Bool := (deliver r.chunks 0).1 = code

/-- The posted packet is, byte for byte, the one `plugin_regr` would build anew for the
tid it has at this moment. -/
def PostsAnew (m : Meta) (s : Plugin × List Event) (i : TaskInput) : Prop :=
  s.1.attempts i = true →
    let now := (pluginRegrPacket m s.1 i.clock).1
    let pkt := (pluginRegrPacket m s.1 i.clock).2
    pkt.SameText (registerPacket m now) ∧
      ∃ ok, .posted .register pkt.text ok ∈ (invoke m s.1 i).2

/-- What a registered plugin sends under `tid`: alerts and metrics, nothing else. -/
def Event.Bears (license : Text) (tid : UInt64) : Event → Prop
  | .posted type text _ => type = .alert ∧ ∃ stat, text = alertText license tid stat
  | .published pkt => metricHeader license tid <+: pkt.text
  | .saved _ _ => False
  | .changeTask _ _ | .gathered _ => True

/-- The first accepted registration is for `tid`, the file is named after it, and so is
all that follows. -/
def TidKept (m : Meta) (p : Plugin) (tid : UInt64) (log : List Event) : Prop :=
  ∃ pre content post, log = pre ++ .posted .register (registerText m p tid) true ::
      .saved (saveName tid) content :: post ∧
    (∀ text, .posted .register text true ∉ pre) ∧ ∀ e ∈ post, e.Bears m.license tid

variable {m : Meta} {p q : Plugin} {pkt : Packet} {tid : UInt64} {log evs : List Event}
  {i : TaskInput} {stat : Status}

theorem TidKept.append (h : TidKept m p tid log) (hevs : ∀ e ∈ evs, e.Bears m.license tid) :
    TidKept m p tid (log ++ evs) := by
  obtain ⟨pre, content, post, rfl, hpre, hpost⟩ := h
  refine ⟨pre, content, post ++ evs, by simp, hpre, fun e he => ?_⟩
  rcases List.mem_append.mp he with he | he
  · exact hpost e he
  · exact hevs e he

/-! ## The invariant -/

/-- Before the plugin is registered. -/
structure Unregistered (m : Meta) (s : Plugin × List Event) : Prop where
  working : s.1.working = none
  oob : ∀ pkt, s.1.oob = some pkt → ∃ tid, pkt.Registers m s.1 tid
  log : ∀ text, .posted .register text true ∉ s.2

/-- Afterwards. -/
structure Settled (m : Meta) (p : Plugin) (s : Plugin × List Event) : Prop where
  working : ∀ pkt, s.1.working = some pkt → ∃ cs, pkt.AtRest m.license s.1.tid cs
  log : TidKept m p s.1.tid s.2

/-- What holds between two turns of the plugin that was loaded as `p`. -/
structure RetryInv (m : Meta) (p : Plugin) (s : Plugin × List Event) : Prop where
  phase : PhaseInv m s
  type : s.1.type = p.type
  tip : s.1.tip = p.tip
  early : s.1.task = .prep ∨ s.1.task = .regr → Unregistered m s
  late : s.1.task ≠ .prep → s.1.task ≠ .regr → Settled m p s

theorem retryInv_init (m : Meta) (p : Plugin) (tid : UInt64) :
    RetryInv m p ({ pluginInit p with tid := tid }, []) where
  phase := phaseInv_init m p tid
  type := rfl
  tip := rfl
  early := fun _ => ⟨rfl, nofun, nofun⟩
  late := fun hne _ => absurd rfl hne

/-- The text depends on the type and the address of the target only. -/
theorem registerText_congr (htype : q.type = p.type) (htip : q.tip = p.tip) :
    registerText m q tid = registerText m p tid := by
  simp [registerText, registerTail, htype, htip]

theorem length_registerText (m : Meta) (p : Plugin) (tid tid' : UInt64) :
    (registerText m p tid).length = (registerText m p tid').length := by
  simp [registerText]

section attempts

variable (hfit : ∀ tid, (registerText m q tid).length < pktsz)
include hfit

/-- What any attempt posts. -/
theorem Unregistered.registers (h : Unregistered m (q, log)) (clock : TidClock) :
    (pluginRegrPacket m q clock).2.Registers m q (q.registerTid clock) := by
  have hreg := registers_pluginRegrPacket hfit clock h.oob
  rw [pluginRegrPacket_fst] at hreg
  exact hreg

theorem Unregistered.text (h : Unregistered m (q, log)) (clock : TidClock) :
    (pluginRegrPacket m q clock).2.text = registerText m q (q.registerTid clock) :=
  (h.registers hfit clock).tracks.text_eq (hfit _)

/-- An attempt keeps what holds before the registration, or ends it. -/
theorem Unregistered.pluginRegr (h : Unregistered m (q, log)) (i : TaskInput) :
    let s := ((pluginRegr m q i).1, log ++ (pluginRegr m q i).2)
    if q.accepted m i then Settled m q s ∧ s.1.task = .gather
      else Unregistered m s ∧ s.1.task = q.task := by
  have hreg := h.registers hfit i.clock
  cases hok : q.accepted m i with
  | true =>
    rw [pluginRegr_accepted hok, hreg.type, h.text hfit]
    refine ⟨⟨?_, ?_⟩, rfl⟩
    · intro pkt hpkt
      exact absurd (h.working.symm.trans hpkt) nofun
    · refine ⟨log, _, [.changeTask q.task .gather], rfl, h.log, ?_⟩
      simp [Event.Bears]
  | false =>
    rw [pluginRegr_refused hok]
    refine ⟨⟨h.working, ?_, ?_⟩, rfl⟩
    · rintro _ ⟨rfl⟩
      exact ⟨_, (hreg.post i.reply).congr rfl rfl⟩
    · intro text hmem
      rcases List.mem_append.mp hmem with hmem | hmem
      · exact h.log text hmem
      · simp at hmem

end attempts

theorem Unregistered.regr (h : Unregistered m (q, log)) (e : Event)
    (he : ∀ text, e ≠ .posted .register text true) :
    Unregistered m ({ q with task := .regr }, log ++ [e]) where
  working := h.working
  oob := by
    intro pkt hpkt
    obtain ⟨tid, hreg⟩ := h.oob pkt hpkt
    exact ⟨tid, hreg.congr rfl rfl⟩
  log := by
    intro text hmem
    rcases List.mem_append.mp hmem with hmem | hmem
    · exact h.log text hmem
    · exact he text (List.mem_singleton.mp hmem).symm

/-- A gather sends metrics that begin with the tid. -/
theorem Settled.pluginGather (h : Settled m p (q, log)) (c : GatherCall) :
    Settled m p ((pluginGather m q c).1, log ++ (pluginGather m q c).2) ∧
      (pluginGather m q c).1.tid = q.tid := by
  have hrest : ∃ cs, (q.packet c).AtRest m.license q.tid cs := by
    unfold Plugin.packet
    cases hw : q.working with
    | none => exact ⟨[], (fresh_getPacket .metric c.source).atRest m q.tid⟩
    | some pkt => exact h.working pkt hw
  obtain ⟨cs, hrest⟩ := hrest
  have hcall := hrest.call c
  obtain ⟨hhead, -⟩ := gatherBody_states hrest c
  obtain ⟨res, retired, pkt, hexec⟩ : ∃ res retired pkt,
      (gatherBody m.license q.tid c).exec Packet.effects (q.packet c) = ((res, retired), pkt) :=
    ⟨_, _, _, rfl⟩
  rw [hexec] at hcall hhead
  obtain ⟨hwork, htid, -, -⟩ := pluginGather_of_body hexec
  refine ⟨⟨?_, ?_⟩, htid⟩
  · intro pkt' hpkt'
    change (MonitoringAgent.pluginGather m q c).1.working = some pkt' at hpkt'
    rw [hwork] at hpkt'
    rw [htid]
    cases retired with
    | true => simp at hpkt'
    | false =>
      obtain rfl : pkt = pkt' := by simpa using hpkt'
      exact ⟨_, hcall rfl⟩
  · rw [htid]
    refine h.log.append fun e he => ?_
    simp only [MonitoringAgent.pluginGather, hexec, List.cons_append, List.mem_cons,
      List.mem_append] at he
    rcases he with rfl | he | he
    · trivial
    · split at he
      · simp at he
      · obtain rfl := List.mem_singleton.mp he
        trivial
    · split at he
      · obtain rfl := List.mem_singleton.mp he
        exact hhead.starts
      · simp at he

theorem Settled.pluginAlert (h : Settled m p (q, log)) (i : TaskInput)
    (hoob : ∀ pkt, q.oob = some pkt → pkt.Alerts m.license q.tid stat) :
    Settled m p ((pluginAlert m q stat i).1, log ++ (pluginAlert m q stat i).2) := by
  rcases pluginAlert_cases m q stat i hoob with heq | ⟨pkt, -, heq⟩
  · rw [heq]
    refine ⟨h.working, h.log.append ?_⟩
    simp [Event.Bears]
  · rw [heq]
    refine ⟨h.working, h.log.append ?_⟩
    simp [Event.Bears]

/-! ## Runs -/

theorem RetryInv.fits (h : RetryInv m p (q, log)) (hfit : (registerText m p tid).length < pktsz)
    (tid' : UInt64) : (registerText m q tid').length < pktsz := by
  rw [registerText_congr h.type h.tip, length_registerText m p tid' tid]
  exact hfit

/-- An attempt, once the task is `regr`. -/
theorem retryInv_pluginRegr (h : RetryInv m p (q, log)) (htask : q.task = .regr)
    (hfit : ∀ tid, (registerText m q tid).length < pktsz) :
    RetryInv m p ((pluginRegr m q i).1, log ++ (pluginRegr m q i).2) := by
  have hphase := phaseInv_pluginRegr (i := i) h.phase htask
  have hstep := (h.early (Or.inr htask)).pluginRegr hfit i
  have hframe : (pluginRegr m q i).1.type = q.type ∧ (pluginRegr m q i).1.tip = q.tip := by
    cases hok : q.accepted m i with
    | true => rw [pluginRegr_accepted hok]; exact ⟨rfl, rfl⟩
    | false => rw [pluginRegr_refused hok]; exact ⟨rfl, rfl⟩
  refine ⟨hphase, hframe.1.trans h.type, hframe.2.trans h.tip, ?_, ?_⟩
  · intro hearly
    split at hstep
    · have hgather : (pluginRegr m q i).1.task = .gather := hstep.2
      dsimp only at hearly
      rw [hgather] at hearly
      rcases hearly with h | h <;> cases h
    · exact hstep.1
  · intro _ hne
    split at hstep
    · obtain ⟨⟨hworking, pre, content, post, hlog, hpre, hpost⟩, -⟩ := hstep
      refine ⟨hworking, pre, content, post, ?_, hpre, hpost⟩
      rw [← registerText_congr h.type h.tip]
      exact hlog
    · exact absurd (hstep.2.trans htask) hne

theorem retryInv_pluginPrep (h : RetryInv m p (q, log)) (htask : q.task = .prep)
    (hfit : ∀ tid, (registerText m q tid).length < pktsz) :
    RetryInv m p ((pluginPrep m q i).1, log ++ (pluginPrep m q i).2) := by
  unfold pluginPrep
  split
  · simpa using h
  · have hearly := (h.early (Or.inl htask)).regr (.changeTask .prep .regr) nofun
    have hregr : RetryInv m p ({ q with task := .regr }, log ++ [.changeTask .prep .regr]) :=
      ⟨phaseInv_toRegr h.phase htask, h.type, h.tip, fun _ => hearly, fun _ hne => absurd rfl hne⟩
    have hstep := retryInv_pluginRegr (i := i) hregr rfl hfit
    simpa [routineChangeTask, htask] using hstep

theorem retryInv_pluginGather (h : RetryInv m p (q, log)) (htask : q.task = .gather)
    (c : GatherCall) : RetryInv m p ((pluginGather m q c).1, log ++ (pluginGather m q c).2) := by
  have hphase := phaseInv_pluginGather (c := c) h.phase htask
  obtain ⟨hsettled, -⟩ := (h.late (by simp [htask]) (by simp [htask])).pluginGather c
  refine ⟨hphase, h.type, h.tip, ?_, fun _ _ => hsettled⟩
  obtain ⟨working, pub, -, heq⟩ := pluginGather_cases m q c
  rw [heq, htask]
  intro hearly
  dsimp only at hearly
  generalize c.emitted.2 = res at hearly
  cases res <;> rcases hearly with he | he <;> cases he

theorem retryInv_pluginAlert (h : RetryInv m p (q, log)) (htask : q.task.alert = some stat) :
    RetryInv m p ((pluginAlert m q stat i).1, log ++ (pluginAlert m q stat i).2) := by
  have hphase := phaseInv_pluginAlert (i := i) h.phase htask
  have hlate : q.task ≠ .prep ∧ q.task ≠ .regr := by
    constructor <;> intro he <;> rw [he] at htask <;> cases htask
  have hoob := fun pkt => h.phase.oobAlert stat pkt htask
  have hsettled := (h.late hlate.1 hlate.2).pluginAlert i hoob
  rcases pluginAlert_cases m q stat i hoob with heq | ⟨pkt, -, heq⟩
  · rw [heq] at hphase hsettled ⊢
    refine ⟨hphase, h.type, h.tip, ?_, fun _ _ => hsettled⟩
    rintro (he | he) <;> cases he
  · rw [heq] at hphase hsettled ⊢
    refine ⟨hphase, h.type, h.tip, ?_, fun _ _ => hsettled⟩
    rintro (he | he)
    · exact absurd he hlate.1
    · exact absurd he hlate.2

/-- One turn. -/
theorem retryInv_invokeStep {s : Plugin × List Event} (h : RetryInv m p s)
    (hfit : (registerText m p tid).length < pktsz) : RetryInv m p (invokeStep m s i) := by
  obtain ⟨q, log⟩ := s
  have hall := h.fits hfit
  unfold invokeStep invoke
  dsimp only
  split
  next htask => exact retryInv_pluginPrep h htask hall
  next htask => exact retryInv_pluginRegr h htask hall
  next htask => exact retryInv_pluginGather h htask i.call
  next htask => exact retryInv_pluginAlert h (by rw [htask]; rfl)
  next htask => exact retryInv_pluginAlert h (by rw [htask]; rfl)

theorem RetryInv.postsAnew {s : Plugin × List Event} (h : RetryInv m p s)
    (hfit : (registerText m p tid).length < pktsz) (i : TaskInput) : PostsAnew m s i := by
  obtain ⟨q, log⟩ := s
  intro hattempts
  have hall := h.fits hfit
  have hearly := h.early (early_of_attempts hattempts)
  have hreg := hearly.registers hall i.clock
  have hanew : (registerPacket m { q with tid := q.registerTid i.clock }).Registers m q
      (q.registerTid i.clock) :=
    (registers_registerPacket m { q with tid := q.registerTid i.clock }).congr rfl rfl
  dsimp only
  rw [pluginRegrPacket_fst]
  refine ⟨hreg.tracks.sameText hanew.tracks (hall _), ?_⟩
  obtain ⟨change, -, heq⟩ := invoke_of_attempts (m := m) hattempts
  rw [heq]
  cases hok : Plugin.accepted m { q with task := .regr } i with
  | true =>
    rw [pluginRegr_accepted hok, pluginRegrPacket_task, hreg.type]
    exact ⟨true, List.mem_append_right _ List.mem_cons_self⟩
  | false =>
    rw [pluginRegr_refused hok, pluginRegrPacket_task, hreg.type]
    exact ⟨false, List.mem_append_right _ List.mem_cons_self⟩

/-- In every run from `plugin_init`, whatever the replies and whatever tids the attempts
choose, each attempt posts what a new register packet would hold; and once one is accepted
its tid is in the name of the saved file and in all that is sent afterwards. -/
theorem register_retries_exact (m : Meta) (p : Plugin) (tid : UInt64) (is : List TaskInput)
    (hfit : (registerText m p tid).length < pktsz) :
    let start : Plugin × List Event := ({ pluginInit p with tid := tid }, [])
    let s := run (invokeStep m) start is
    Along (invokeStep m) (PostsAnew m) start is ∧
      (Registered s.2 → TidKept m p s.1.tid s.2) := by
  intro start s
  have hstart : RetryInv m p start := retryInv_init m p tid
  have hstep : ∀ s i, RetryInv m p s → RetryInv m p (invokeStep m s i) :=
    fun _ _ h => retryInv_invokeStep h hfit
  have hrun : RetryInv m p s := invariant_run hstep hstart
  refine ⟨along_of_invariant hstep (fun _ i h => h.postsAnew hfit i) hstart, ?_⟩
  rintro ⟨text, hmem⟩
  by_cases hearly : s.1.task = .prep ∨ s.1.task = .regr
  · exact absurd hmem ((hrun.early hearly).log text)
  · obtain ⟨hprep, hregr⟩ := not_or.mp hearly
    exact (hrun.late hprep hregr).log

/-- The first attempt is answered with the body 302, the second is accepted without one. -/
def secondAttempt : List TaskInput :=
  let call : GatherCall := ⟨0, 0, .fresh, .ret .enodata⟩
  [⟨true, ⟨1, 1, 1⟩, ⟨2, 2, 2⟩, ⟨[str "302"], true, 400⟩, call⟩,
    ⟨true, ⟨3, 3, 3⟩, ⟨4, 4, 4⟩, ⟨[], true, 200⟩, call⟩]

theorem register_retries_exact_second :
    let start : Plugin × List Event := ({ pluginInit Plugin.sample with tid := 0 }, [])
    let s := run (invokeStep Meta.sample) start secondAttempt
    s.1.tid = 8 ∧ Registered s.2 ∧ TidKept Meta.sample Plugin.sample s.1.tid s.2 := by
  intro start s
  have hfit : (registerText Meta.sample Plugin.sample 0).length < pktsz :=
    registerText_lt Meta.sample ⟨by decide, by simp [Plugin.sample]⟩ 0
  have hregistered : Registered s.2 := ⟨_, .tail _ (.tail _ (.head _))⟩
  obtain ⟨-, hkept⟩ := register_retries_exact Meta.sample Plugin.sample 0 secondAttempt hfit
  exact ⟨by decide, hregistered, hkept hregistered⟩

/-! ## Changes of the tid -/

/-- What the server sent after the headers. -/
def Reply.body (r : Reply) : Text := r.chunks.flatten

/-- An attempt changes the tid only if there was none yet, or if the reply to its own post
has a body that spells ETARGETREG. -/
def TidChanges (m : Meta) (s : Plugin × List Event) (i : TaskInput) : Prop :=
  s.1.attempts i = true → (invoke m s.1 i).1.tid ≠ s.1.tid →
    (s.1.tid = 0 ∧ s.1.oob = none) ∨ Spells i.reply.body 302

/-- A failed attempt does not read the code of an earlier one, and what it reads as
ETARGETREG is a body that spells it. -/
def OwnAnswer (s : Plugin × List Event) (i : TaskInput) : Prop :=
  s.1.attempts i = true → i.reply.success = false →
    (i.reply.chunks = [] → ∀ pkt, s.1.oob = some pkt → pkt.response ≠ etargetreg) ∧
      (i.reply.answers etargetreg = true → Spells i.reply.body 302)

theorem registerTid_ne {clock : TidClock} (h : q.registerTid clock ≠ q.tid) :
    q.tid = 0 ∧ q.oob = none := by
  unfold Plugin.registerTid at h
  split at h
  · next hcond => simpa [and_comm] using hcond
  · exact absurd rfl h

/-- The response a new packet starts with is no code of the server. -/
theorem response_pluginRegrPacket (clock : TidClock)
    (h : ∀ pkt, q.oob = some pkt → pkt.response ≠ etargetreg) :
    (pluginRegrPacket m q clock).2.response ≠ etargetreg := by
  unfold pluginRegrPacket
  cases hoob : q.oob with
  | none => exact (by decide : (0 : Int) ≠ etargetreg)
  | some pkt => exact h pkt hoob

/-- A pending register packet can be posted. -/
def PendingReady (s : Plugin × List Event) : Prop :=
  s.1.task = .prep ∨ s.1.task = .regr → ∀ pkt, s.1.oob = some pkt → pkt.state = .ready

theorem state_pluginRegrPacket (clock : TidClock)
    (h : ∀ pkt, q.oob = some pkt → pkt.state = .ready) :
    (pluginRegrPacket m q clock).2.state = .ready := by
  unfold pluginRegrPacket
  cases hoob : q.oob with
  | none => rfl
  | some pkt => exact h pkt hoob

theorem oob_pluginRegr (h : ∀ pkt, q.oob = some pkt → pkt.state = .ready) (i : TaskInput)
    (hoob : (pluginRegr m q i).1.oob = some pkt) : pkt.state = .ready := by
  cases hok : q.accepted m i with
  | true =>
    rw [pluginRegr_accepted hok] at hoob
    cases hoob
  | false =>
    rw [pluginRegr_refused hok] at hoob
    obtain rfl := Option.some.inj hoob
    exact (post_frame _ _).2.1.trans (state_pluginRegrPacket i.clock h)

theorem task_pluginAlert (m : Meta) (q : Plugin) (stat : Status) (i : TaskInput) :
    (pluginAlert m q stat i).1.task = .gather ∨ (pluginAlert m q stat i).1.task = q.task := by
  unfold pluginAlert
  dsimp only
  split
  · exact Or.inl rfl
  · exact Or.inr rfl

theorem pendingReady_step {s : Plugin × List Event} (h : PendingReady s) :
    PendingReady (invokeStep m s i) := by
  obtain ⟨q, log⟩ := s
  have halert : ∀ stat, q.task ≠ .prep → q.task ≠ .regr →
      PendingReady ((pluginAlert m q stat i).1, log ++ (pluginAlert m q stat i).2) := by
    intro stat hprep hregr hearly
    rcases task_pluginAlert m q stat i with ht | ht <;> rw [ht] at hearly
    · rcases hearly with he | he <;> cases he
    · rcases hearly with he | he
      · exact absurd he hprep
      · exact absurd he hregr
  simp only [invokeStep, invoke]
  cases htask : q.task with
  | prep =>
    have hready := h (Or.inl htask)
    intro _ pkt hoob
    dsimp only at hoob
    unfold pluginPrep at hoob
    split at hoob
    · exact hready pkt hoob
    · exact oob_pluginRegr (q := { q with task := .regr }) hready i hoob
  | regr => exact fun _ pkt hoob => oob_pluginRegr (h (Or.inr htask)) i hoob
  | gather =>
    intro hearly
    obtain ⟨working, pub, -, heq⟩ := pluginGather_cases m q i.call
    rw [heq, htask] at hearly
    generalize i.call.emitted.2 = res at hearly
    cases res <;> rcases hearly with he | he <;> cases he
  | alertUp => exact halert .up (by simp [htask]) (by simp [htask])
  | alertDown => exact halert .down (by simp [htask]) (by simp [htask])

theorem PendingReady.tidChanges {s : Plugin × List Event} (h : PendingReady s)
    (hown : OwnAnswer s i) : TidChanges m s i := by
  obtain ⟨q, log⟩ := s
  intro hattempts hne
  have hready := state_pluginRegrPacket (m := m) i.clock (h (early_of_attempts hattempts))
  obtain ⟨hsuccess, hresponse⟩ := post_of_ready hready i.reply
  obtain ⟨change, -, heq⟩ := invoke_of_attempts (m := m) hattempts
  dsimp only at hne ⊢
  rw [heq] at hne
  cases hok : Plugin.accepted m { q with task := .regr } i with
  | true =>
    rw [pluginRegr_accepted hok] at hne
    exact Or.inl (registerTid_ne hne)
  | false =>
    rw [pluginRegr_refused hok, pluginRegrPacket_task] at hne
    rw [Plugin.accepted, pluginRegrPacket_task, hsuccess] at hok
    obtain ⟨hstale, hspells⟩ := hown hattempts hok
    by_cases hcode : (post (pluginRegrPacket m q i.clock).2 i.reply).1.response = etargetreg
    · rw [hresponse] at hcode
      by_cases hnil : i.reply.chunks = []
      · -- nothing was delivered, so the code would be an earlier one
        rw [if_pos hnil] at hcode
        exact absurd hcode (response_pluginRegrPacket i.clock (hstale hnil))
      · rw [if_neg hnil] at hcode
        exact Or.inr (hspells (by simpa [Reply.answers] using hcode))
    · simp only [hcode, if_false] at hne
      exact Or.inl (registerTid_ne hne)

/-- In every run whose failed attempts read no earlier code, and take for ETARGETREG only a
body that spells it, the tid changes only where it should. -/
theorem tid_changes_answered (m : Meta) (p : Plugin) (tid : UInt64) (is : List TaskInput)
    (hown : Along (invokeStep m) OwnAnswer ({ pluginInit p with tid := tid }, []) is) :
    Along (invokeStep m) (TidChanges m) ({ pluginInit p with tid := tid }, []) is :=
  along_guarded (fun _ _ _ => pendingReady_step) (fun _ _ hown h => PendingReady.tidChanges h hown)
    hown (by simp [PendingReady, pluginInit])

theorem tid_changes_answered_second :
    let start : Plugin × List Event := ({ pluginInit Plugin.sample with tid := 0 }, [])
    (run (invokeStep Meta.sample) start secondAttempt).1.tid = 8 ∧
      Along (invokeStep Meta.sample) (TidChanges Meta.sample) start secondAttempt := by
  refine ⟨by decide, tid_changes_answered Meta.sample Plugin.sample 0 secondAttempt ?_⟩
  refine ⟨fun _ _ => ⟨fun hnil => absurd hnil (by decide), fun _ => ?_⟩, ?_, trivial⟩
  · exact (by decide : Spells (str "302") 302)
  · exact fun _ hfail => absurd hfail (by decide)

/-- The first attempt is answered with the body 302, the second gets no reply. -/
def lostReply : List TaskInput :=
  let call : GatherCall := ⟨0, 0, .fresh, .ret .enodata⟩
  [⟨true, ⟨1, 1, 1⟩, ⟨2, 2, 2⟩, ⟨[str "302"], true, 400⟩, call⟩,
    ⟨true, ⟨3, 3, 3⟩, ⟨4, 4, 4⟩, ⟨[], false, 0⟩, call⟩]

theorem lostReply_changes_tid :
    ¬ Along (invokeStep Meta.sample) (TidChanges Meta.sample)
      ({ pluginInit Plugin.sample with tid := 0 }, []) lostReply := by
  rintro ⟨-, hsecond, -⟩
  rcases hsecond (by decide) (by decide) with ⟨htid, -⟩ | hspells
  · exact absurd htid (by decide)
  · exact absurd hspells (by decide)

end MonitoringAgent
