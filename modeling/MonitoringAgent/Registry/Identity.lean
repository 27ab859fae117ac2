import MonitoringAgent.Registry.Scan
import MonitoringAgent.Plugin.Retry

/-!
# Identities across restarts

The tid of a target lives in memory while the agent runs and in a file between two runs.
The scan removes the file, the next accepted registration writes it again.
-/
namespace MonitoringAgent

open Buffer Decimal Transition Packet

variable {n : Nat}

/-- The `i`-th plugin as loaded, its texts inside their arrays. -/
structure Config.Loads (cfg : Config n) (i : Fin n) (p : Plugin) : Prop extends cfg.Has i p where
  tip : ∀ tip, p.tip = some tip → tip.length ≤ bfsz

/-- The plugins of the running agent, the files, and for each plugin the tid of its last
accepted registration, forgotten when the server answers a failed attempt with a body
that spells ETARGETREG. -/
structure Life (n : Nat) where
  ps : Fin n → Plugin
  store : Store
  reg : Fin n → Option UInt64

/-- A new process with its scan of `res/`, or a turn of a plugin that has not registered in
this process. A process may stop between any two actions: the next one is then a `boot`. -/
inductive LifeAct (cfg : Config n) where
  | boot (ps : ∀ i, { p : Plugin // cfg.Loads i p }) (es : List Dirent)
  | attempt (i : Fin n) (module : { a : Text // cfg.Variant i a }) (inp : TaskInput)

/-- The identity after an attempt. -/
def identityAfter (m : Meta) (p : Plugin) (inp : TaskInput) (reg : Option UInt64) :
    Option UInt64 :=
  if p.accepted m inp then some (p.registerTid inp.clock)
  else if Spells inp.reply.body 302 then none
  else reg

variable {cfg : Config n}

def lifeStep (m : Meta) (cfg : Config n) (s : Life n) : LifeAct cfg → Life n
  | .boot ps es =>
    let next := scan cfg.cmp (fun i => pluginInit (ps i).1, s.store) es
    ⟨next.1, next.2, s.reg⟩
  | .attempt i module inp =>
    let p := { s.ps i with module := module.1 }
    if p.attempts inp then
      ⟨Function.update s.ps i (invoke m p inp).1, run Store.apply s.store (invoke m p inp).2,
        Function.update s.reg i (identityAfter m p inp (s.reg i))⟩
    else s

/-- Before the agent has ever run. -/
def Life.start (ps : ∀ i, { p : Plugin // cfg.Loads i p }) : Life n :=
  ⟨fun i => pluginInit (ps i).1, fun _ => none, fun _ => none⟩

/-- An attempt of a plugin with an identity uses it: the tid it registers is that one, and
so is the tid in the text it posts. -/
def KeepsIdentity (m : Meta) (s : Life n) : LifeAct cfg → Prop
  | .boot _ _ => True
  | .attempt i module inp =>
    let p := { s.ps i with module := module.1 }
    p.attempts inp = true → ∀ t, s.reg i = some t →
      p.registerTid inp.clock = t ∧ (pluginRegrPacket m p inp.clock).2.text = registerText m p t

/-- The condition on one action: a process stops only when every plugin with an identity
has registered again since the scan, an accepted registration is for a tid that is not
zero and that no file is named after, and what a failed attempt of a plugin with an
identity reads as ETARGETREG is a body that spells it. -/
def CleanLife (m : Meta) (s : Life n) : LifeAct cfg → Prop
  | .boot _ es => Listing s.store es ∧ ∀ i, s.reg i ≠ none → (s.ps i).task = .gather
  | .attempt i module inp =>
    let p := { s.ps i with module := module.1 }
    p.attempts inp = true →
      if p.accepted m inp then
        p.registerTid inp.clock ≠ (0 : UInt64) ∧
          s.store (saveName (p.registerTid inp.clock)) = none
      else s.reg i ≠ none → inp.reply.answers etargetreg = true → Spells inp.reply.body 302

/-! ## One attempt -/

variable {m : Meta} {p p' : Plugin} {pkt : Packet} {tid : UInt64} {inp : TaskInput}

/-- Only a reply with that code makes the packet show ETARGETREG. -/
theorem response_post (r : Reply) (h : r.answers etargetreg = false)
    (hpkt : pkt.response ≠ etargetreg) : (post pkt r).1.response ≠ etargetreg := by
  unfold MonitoringAgent.post
  dsimp only
  split
  · by_cases hnil : r.chunks = []
    · rw [hnil]
      exact hpkt
    · rw [deliver_of_ne_nil hnil _ 0]
      simpa [Reply.answers] using h
  · exact hpkt

/-- The files after a turn that gets to `plugin_regr`. -/
theorem store_of_attempts (h : p.attempts inp = true) (store : Store) :
    (invoke m p inp).1 = (pluginRegr m { p with task := .regr } inp).1 ∧
      run Store.apply store (invoke m p inp).2 =
        run Store.apply store (pluginRegr m { p with task := .regr } inp).2 := by
  obtain ⟨change, hchange, heq⟩ := invoke_of_attempts (m := m) h
  rw [heq]
  rcases hchange with rfl | rfl <;> exact ⟨rfl, rfl⟩

/-- An accepted attempt: the file of the plugin is written. -/
theorem invoke_accepted (h : p.attempts inp = true) (hok : p.accepted m inp = true)
    (store : Store) :
    (invoke m p inp).1 = { p with tid := p.registerTid inp.clock, oob := none, task := .gather } ∧
      run Store.apply store (invoke m p inp).2 =
        Function.update store (saveName (p.registerTid inp.clock)) (some (saveContent p)) := by
  have hok' : Plugin.accepted m { p with task := .regr } inp = true := by
    rw [Plugin.accepted, pluginRegrPacket_task]
    exact hok
  obtain ⟨hp, hstore⟩ := store_of_attempts (m := m) h store
  rw [hp, hstore, pluginRegr_accepted hok']
  exact ⟨rfl, rfl⟩

/-- A refused one: the packet is kept, the files stay. -/
theorem invoke_refused (h : p.attempts inp = true) (hok : p.accepted m inp = false)
    (store : Store) :
    let pkt := (MonitoringAgent.post (pluginRegrPacket m p inp.clock).2 inp.reply).1
    (invoke m p inp).1 = { p with
        tid := if pkt.response = etargetreg then inp.retryClock.tid else p.registerTid inp.clock
        oob := some pkt
        task := .regr } ∧
      run Store.apply store (invoke m p inp).2 = store := by
  have hok' : Plugin.accepted m { p with task := .regr } inp = false := by
    rw [Plugin.accepted, pluginRegrPacket_task]
    exact hok
  obtain ⟨hp, hstore⟩ := store_of_attempts (m := m) h store
  rw [hp, hstore, pluginRegr_refused hok']
  simp only [pluginRegrPacket_task]
  exact ⟨rfl, rfl⟩

/-! ## The invariant -/

/-- What holds of a plugin whose identity is `reg`. -/
structure Identified (m : Meta) (cfg : Config n) (i : Fin n) (reg : Option UInt64) (p : Plugin) :
    Prop where
  loads : cfg.Loads i p
  oob : ∀ pkt, p.oob = some pkt → ∃ tid, pkt.Registers m p tid
  response : reg ≠ none → ∀ pkt, p.oob = some pkt → pkt.response ≠ etargetreg
  tid : ∀ t, reg = some t → p.tid = t ∧ t ≠ 0

/-- The tids the files stand for: those of the plugins that have registered in this
process. -/
def onFile (s : Life n) (i : Fin n) : Option UInt64 :=
  if (s.ps i).task = .gather then s.reg i else none

structure LifeInv (m : Meta) (cfg : Config n) (s : Life n) : Prop where
  plugin : ∀ i, Identified m cfg i (s.reg i) (s.ps i)
  files : ∃ old, (∀ i, cfg.Has i (old i)) ∧ Written old (onFile s) s.store

variable {i : Fin n} {reg : Option UInt64} {t : UInt64} {s : Life n}

theorem Config.Loads.bounded (h : cfg.Loads i p) : p.Bounded := by
  refine ⟨?_, h.tip⟩
  rw [h.type]
  exact cfg.type_lt i

theorem Identified.module (h : Identified m cfg i reg p) (a : { a : Text // cfg.Variant i a }) :
    Identified m cfg i reg { p with module := a.1 } := by
  refine ⟨⟨⟨h.loads.type, a.2⟩, h.loads.tip⟩, ?_, h.response, h.tid⟩
  intro pkt hpkt
  obtain ⟨tid, hreg⟩ := h.oob pkt hpkt
  exact ⟨tid, hreg.congr rfl rfl⟩

/-- A plugin with an identity registers under it. -/
theorem Identified.registerTid (h : Identified m cfg i (some t) p) (clock : TidClock) :
    p.registerTid clock = t := by
  obtain ⟨htid, hne⟩ := h.tid t rfl
  simp [Plugin.registerTid, htid, hne]

theorem Identified.registers (h : Identified m cfg i reg p) (clock : TidClock) :
    (pluginRegrPacket m p clock).2.Registers m p (p.registerTid clock) := by
  have hreg := registers_pluginRegrPacket (registerText_lt m h.loads.bounded) clock h.oob
  rw [pluginRegrPacket_fst] at hreg
  exact hreg

theorem Identified.response_packet (h : Identified m cfg i reg p) (hreg : reg ≠ none)
    (clock : TidClock) : (pluginRegrPacket m p clock).2.response ≠ etargetreg :=
  response_pluginRegrPacket clock (h.response hreg)

theorem Identified.accepted (h : Identified m cfg i reg p) (hne : t ≠ 0) :
    Identified m cfg i (some t) { p with tid := t, oob := none, task := .gather } := by
  refine ⟨⟨⟨h.loads.type, h.loads.variant⟩, h.loads.tip⟩, nofun, fun _ => nofun, ?_⟩
  rintro _ ⟨rfl⟩
  exact ⟨rfl, hne⟩

theorem Identified.refused (h : Identified m cfg i reg p) (inp : TaskInput)
    (hown : reg ≠ none → inp.reply.answers etargetreg = true → Spells inp.reply.body 302) :
    let pkt := (MonitoringAgent.post (pluginRegrPacket m p inp.clock).2 inp.reply).1
    Identified m cfg i (if Spells inp.reply.body 302 then none else reg) { p with
      tid := if pkt.response = etargetreg then inp.retryClock.tid else p.registerTid inp.clock
      oob := some pkt
      task := .regr } := by
  intro pkt
  have hregisters : pkt.Registers m p (p.registerTid inp.clock) :=
    (h.registers inp.clock).post inp.reply
  have hloads : cfg.Loads i p := h.loads
  by_cases hspells : Spells inp.reply.body 302
  · -- the server has answered: there is no identity to keep
    rw [if_pos hspells]
    refine ⟨⟨⟨hloads.type, hloads.variant⟩, hloads.tip⟩, ?_, by simp, by simp⟩
    rintro _ ⟨rfl⟩
    exact ⟨_, hregisters.congr rfl rfl⟩
  rw [if_neg hspells]
  have hresponse : reg ≠ none → pkt.response ≠ etargetreg := by
    intro hreg
    refine response_post inp.reply ?_ (h.response_packet hreg inp.clock)
    rw [Bool.eq_false_iff]
    exact fun hanswer => hspells (hown hreg hanswer)
  refine ⟨⟨⟨hloads.type, hloads.variant⟩, hloads.tip⟩, ?_, ?_, ?_⟩
  · rintro _ ⟨rfl⟩
    exact ⟨_, hregisters.congr rfl rfl⟩
  · rintro hreg _ ⟨rfl⟩
    exact hresponse hreg
  · rintro t rfl
    refine ⟨?_, (h.tid t rfl).2⟩
    simp only [if_neg (hresponse (by simp))]
    exact h.registerTid inp.clock

theorem Written.congr {old old' : Fin n → Plugin} {T : Fin n → Option UInt64} {store : Store}
    (hw : Written old T store) (h : ∀ i t, T i = some t → old' i = old i) :
    Written old' T store := by
  refine ⟨?_, hw.only, hw.distinct⟩
  intro i t hi
  rw [h i t hi]
  exact hw.file i t hi

theorem not_gather_of_attempts (h : p.attempts inp = true) : p.task ≠ .gather := by
  rcases early_of_attempts h with htask | htask <;> simp [htask]

/-! ## Runs -/

theorem lifeInv_boot {ps : ∀ i, { p : Plugin // cfg.Loads i p }} {es : List Dirent}
    (h : LifeInv m cfg s) (hc : CleanLife m s (.boot ps es)) :
    LifeInv m cfg (lifeStep m cfg s (.boot ps es)) := by
  obtain ⟨hlisting, hdone⟩ := hc
  obtain ⟨old, hold, hw⟩ := h.files
  have hfresh : ∀ i, cfg.Has i (pluginInit (ps i).1) := fun i => ⟨(ps i).2.type, (ps i).2.variant⟩
  have hscan := scan_written hold hfresh hw hlisting
  have hstep : lifeStep m cfg s (.boot ps es) =
      ⟨fun i => { pluginInit (ps i).1 with tid := (onFile s i).getD 0 }, fun _ => none, s.reg⟩ := by
    simp only [lifeStep, hscan]
    rfl
  rw [hstep]
  refine ⟨?_, old, hold, ?_⟩
  · intro i
    refine ⟨⟨⟨(ps i).2.type, (ps i).2.variant⟩, (ps i).2.tip⟩, by rintro _ ⟨⟩,
      by rintro _ _ ⟨⟩, ?_⟩
    intro t ht
    have hreg : s.reg i = some t := ht
    obtain ⟨-, hne⟩ := (h.plugin i).tid t hreg
    refine ⟨?_, hne⟩
    have hgather := hdone i (by simp [hreg])
    simp [onFile, hgather, hreg]
  · have hnone : onFile (⟨fun i => { pluginInit (ps i).1 with tid := (onFile s i).getD 0 },
        fun _ => none, s.reg⟩ : Life n) = fun _ => none := by
      funext i
      simp [onFile, pluginInit]
    rw [hnone]
    exact written_none old

/-- The files after a plugin has changed. -/
theorem onFile_update (s : Life n) (i : Fin n) (p' : Plugin) (store : Store)
    (reg' : Option UInt64) :
    onFile ⟨Function.update s.ps i p', store, Function.update s.reg i reg'⟩ =
      Function.update (onFile s) i (if p'.task = .gather then reg' else none) := by
  funext j
  by_cases hji : j = i
  · subst hji
    simp [onFile]
  · simp [onFile, hji]

theorem identified_update (h : LifeInv m cfg s) (hi : Identified m cfg i reg p') (j : Fin n) :
    Identified m cfg j (Function.update s.reg i reg j) (Function.update s.ps i p' j) := by
  by_cases hji : j = i
  · subst hji
    rw [Function.update_self, Function.update_self]
    exact hi
  · rw [Function.update_of_ne hji, Function.update_of_ne hji]
    exact h.plugin j

/-- An accepted registration puts the plugin's file in place. -/
theorem lifeInv_accepted (h : LifeInv m cfg s) (hident : Identified m cfg i (s.reg i) p)
    (hnofile : onFile s i = none) (hne : t ≠ 0) (hfree : s.store (saveName t) = none) :
    LifeInv m cfg ⟨Function.update s.ps i { p with tid := t, oob := none, task := .gather },
      Function.update s.store (saveName t) (some (saveContent p)),
      Function.update s.reg i (some t)⟩ := by
  obtain ⟨old, hold, hw⟩ := h.files
  refine ⟨identified_update h (hident.accepted hne), Function.update old i p, ?_, ?_⟩
  · intro j
    refine update_holds (P := cfg.Has j) (fun hji => ?_) fun _ => hold j
    subst hji
    exact hident.loads.toHas
  · have hw' : Written (Function.update old i p) (onFile s) s.store := by
      refine hw.congr fun j t hj => ?_
      have hji : j ≠ i := by
        rintro rfl
        rw [hnofile] at hj
        cases hj
      rw [Function.update_of_ne hji]
    have hsave := hw'.save (t := t) (Or.inl hnofile) fun j hj => by
      rw [hw.file j t hj] at hfree
      cases hfree
    rw [Function.update_self] at hsave
    rw [onFile_update]
    exact hsave

/-- A refused one leaves the files alone. -/
theorem lifeInv_refused (h : LifeInv m cfg s) (hident : Identified m cfg i reg p')
    (hnofile : onFile s i = none) (htask : p'.task = .regr) :
    LifeInv m cfg ⟨Function.update s.ps i p', s.store, Function.update s.reg i reg⟩ := by
  obtain ⟨old, hold, hw⟩ := h.files
  refine ⟨identified_update h hident, old, hold, ?_⟩
  have hsame : Function.update (onFile s) i none = onFile s := by
    rw [← hnofile, Function.update_eq_self]
  rw [onFile_update, if_neg (by simp [htask]), hsame]
  exact hw

theorem lifeInv_attempt {module : { a : Text // cfg.Variant i a }} (h : LifeInv m cfg s)
    (hc : CleanLife m s (.attempt i module inp)) :
    LifeInv m cfg (lifeStep m cfg s (.attempt i module inp)) := by
  have hident := (h.plugin i).module module
  simp only [CleanLife] at hc
  simp only [lifeStep]
  -- from here on only the plugin with its present module matters
  generalize hp : ({ s.ps i with module := module.1 } : Plugin) = p at hident hc ⊢
  have htask : p.task = (s.ps i).task := by rw [← hp]
  by_cases hatt : p.attempts inp = true
  · rw [if_pos hatt]
    have hnofile : onFile s i = none := by
      refine if_neg ?_
      rw [← htask]
      exact not_gather_of_attempts hatt
    cases hok : p.accepted m inp with
    | true =>
      rw [hok] at hc
      obtain ⟨hne, hfree⟩ := hc hatt
      obtain ⟨hplugin, hstore⟩ := invoke_accepted hatt hok s.store
      have hreg : identityAfter m p inp (s.reg i) = some (p.registerTid inp.clock) := if_pos hok
      rw [hplugin, hstore, hreg]
      exact lifeInv_accepted h hident hnofile hne hfree
    | false =>
      rw [hok] at hc
      obtain ⟨hplugin, hstore⟩ := invoke_refused hatt hok s.store
      have hreg : identityAfter m p inp (s.reg i) =
          if Spells inp.reply.body 302 then none else s.reg i := by
        simp [identityAfter, hok]
      rw [hplugin, hstore, hreg]
      exact lifeInv_refused h (hident.refused inp (hc hatt)) hnofile rfl
  · rw [if_neg hatt]
    exact h

theorem lifeInv_step {a : LifeAct cfg} (h : LifeInv m cfg s) (hc : CleanLife m s a) :
    LifeInv m cfg (lifeStep m cfg s a) := by
  cases a with
  | boot ps es => exact lifeInv_boot h hc
  | attempt i module inp => exact lifeInv_attempt h hc

theorem LifeInv.keepsIdentity (h : LifeInv m cfg s) (a : LifeAct cfg) : KeepsIdentity m s a := by
  cases a with
  | boot ps es => trivial
  | attempt i module inp =>
    intro _ t ht
    have hident := (h.plugin i).module module
    rw [ht] at hident
    have hregisters := hident.registers inp.clock
    rw [hident.registerTid] at hregisters
    refine ⟨hident.registerTid inp.clock, ?_⟩
    exact hregisters.tracks.text_eq (registerText_lt m hident.loads.bounded t)

theorem lifeInv_start (m : Meta) (ps : ∀ i, { p : Plugin // cfg.Loads i p }) :
    LifeInv m cfg (.start ps) := by
  have hloads : ∀ i, cfg.Loads i (pluginInit (ps i).1) := fun i =>
    ⟨⟨(ps i).2.type, (ps i).2.variant⟩, (ps i).2.tip⟩
  refine ⟨fun i => ⟨hloads i, by rintro _ ⟨⟩, by rintro _ _ ⟨⟩, by rintro _ ⟨⟩⟩,
    fun i => (ps i).1, fun i => (ps i).2.toHas, ?_⟩
  have hnone : onFile (Life.start ps) = fun _ => none := by
    funext i
    simp [onFile, Life.start, pluginInit]
  rw [hnone]
  exact written_none _

/-- Over any number of runs of the agent, as long as it stops only when every plugin with
an identity has registered again, accepted registrations are for tids that are not zero
and not taken, and no other body is read as ETARGETREG, a plugin that has registered keeps
using its tid until the server answers ETARGETREG. -/
theorem identity_kept (m : Meta) (cfg : Config n) (ps : ∀ i, { p : Plugin // cfg.Loads i p })
    (acts : List (LifeAct cfg)) (h : Along (lifeStep m cfg) (CleanLife m) (.start ps) acts) :
    Along (lifeStep m cfg) (KeepsIdentity m) (.start ps) acts :=
  along_guarded (fun _ _ hc hinv => lifeInv_step hinv hc) (fun _ a _ hinv => hinv.keepsIdentity a)
    h (lifeInv_start m ps)

/-- The os target alone. -/
def osTarget : Config 1 := agentConfig (fun _ => .os) fun _ _ _ => Subsingleton.elim _ _

def osPlugin (i : Fin 1) : { p : Plugin // osTarget.Loads i p } :=
  ⟨Plugin.sample, ⟨rfl, rfl⟩, nofun⟩

/-- An accepted attempt with the clock at `t`. -/
def osAttempt (t : Epoch) : LifeAct osTarget :=
  .attempt 0 ⟨[], rfl⟩
    ⟨true, ⟨t, t, t⟩, ⟨t, t, t⟩, ⟨[], true, 200⟩, ⟨1000, 1500, .fresh, .ret .enone⟩⟩

/-- A restart after the plugin has registered. -/
theorem identity_kept_restart :
    Along (lifeStep Meta.sample osTarget) (KeepsIdentity Meta.sample) (.start osPlugin)
      [osAttempt 3, .boot osPlugin [⟨1, decimal 27⟩], osAttempt 4] := by
  refine identity_kept Meta.sample osTarget osPlugin _ ⟨?_, ⟨⟨?_, ?_, ?_⟩, ?_⟩, ?_, trivial⟩
  · exact fun _ => by decide +kernel
  · decide +kernel
  · intro e he _
    rw [List.mem_singleton.mp he]
    exact ⟨_, rfl⟩
  · intro path content hpath
    refine ⟨_, List.mem_singleton_self _, by decide +kernel, ?_⟩
    have hstore : (lifeStep Meta.sample osTarget (.start osPlugin) (osAttempt 3)).store =
        Function.update (fun _ => none) (saveName 27) (some (saveContent Plugin.sample)) := rfl
    by_contra hne
    have hother : path ≠ saveName 27 := by
      rw [saveName_eq]
      exact hne
    rw [hstore, Function.update_of_ne hother] at hpath
    cases hpath
  · intro i _
    rw [Subsingleton.elim i 0]
    decide +kernel
  · exact fun _ => by decide +kernel

/-- A failed attempt with the clock at 4 whose body `callback` takes for ETARGETREG. -/
def osMisread : LifeAct osTarget :=
  .attempt 0 ⟨[], rfl⟩
    ⟨true, ⟨4, 4, 4⟩, ⟨5, 5, 5⟩, ⟨[str "2:2"], true, 400⟩, ⟨1000, 1500, .fresh, .ret .enone⟩⟩

/-- The agent stops between the scan and the registration: the file is gone, and the next
run registers the target under a new tid. It also does so after a body that is no
numeral. -/
theorem identity_lost :
    ¬ Along (lifeStep Meta.sample osTarget) (KeepsIdentity Meta.sample) (.start osPlugin)
        [osAttempt 3, .boot osPlugin [⟨1, decimal 27⟩], .boot osPlugin [], osAttempt 4] ∧
      ¬ Along (lifeStep Meta.sample osTarget) (KeepsIdentity Meta.sample) (.start osPlugin)
        [osAttempt 3, .boot osPlugin [⟨1, decimal 27⟩], osMisread, osAttempt 6] := by
  constructor
  · rintro ⟨-, -, -, hkeeps, -⟩
    obtain ⟨htid, -⟩ := hkeeps (by decide +kernel) 27 (by decide +kernel)
    revert htid
    decide +kernel
  · rintro ⟨-, -, -, hkeeps, -⟩
    obtain ⟨htid, -⟩ := hkeeps (by decide +kernel) 27 (by decide +kernel)
    revert htid
    decide +kernel

end MonitoringAgent
