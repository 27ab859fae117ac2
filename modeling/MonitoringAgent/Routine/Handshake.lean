import MonitoringAgent.Lib.Transition

/-!
# The ping/pong handshake

`routine_main` on one side, `routine_start` and then any number of `routine_ping` calls on
the other, without a restart. The mutexes do not check their owner: whoever unlocks one
frees it. A signal is lost when nobody waits.
-/
namespace MonitoringAgent

open Transition

/-- Where the pinging thread is. -/
inductive PingerPc where
  /-- `routine_start` before `pthread_create`. -/
  | create
  /-- `routine_start` about to call `pthread_cond_timedwait`. -/
  | startSync
  | startWaiting
  | startSignaled
  | startTimedOut
  | lockPing
  | unlockPing
  /-- Between two calls of `routine_ping`. -/
  | between
  | timedLock
  | signal
  | unlock
  /-- `routine_ping` about to call `pthread_cond_timedwait`. -/
  | sync
  | waiting
  | signaled
  | timedOut
  deriving DecidableEq, Repr

/-- Where the routine is. -/
inductive RoutinePc where
  /-- Not created yet. -/
  | none
  | lockPong
  | lockPing
  | signalPong
  | unlockPong
  /-- About to call `pthread_cond_wait`. -/
  | wait
  | waiting
  /-- Signaled, about to take `ping_me` back. -/
  | woken
  | lockPongAgain
  | signalPongAgain
  | unlockPongAgain
  | task
  deriving DecidableEq, Repr

structure Handshake where
  pinger : PingerPc
  routine : RoutinePc
  pongMe : Bool
  pingMe : Bool
  deriving DecidableEq, Repr

/-- Who moves; a wait of the pinger may time out at any moment. -/
inductive Mover where
  | pinger
  | routine
  | timeout
  deriving DecidableEq, Repr

def Handshake.start : Handshake := ⟨.create, .none, false, false⟩

/-- `pthread_cond_signal(&r->pong)`. -/
def PingerPc.signaledBy : PingerPc → PingerPc
  | .startWaiting => .startSignaled
  | .waiting => .signaled
  | pc => pc

/-- `pthread_cond_signal(&r->ping)`. -/
def RoutinePc.signaledBy : RoutinePc → RoutinePc
  | .waiting => .woken
  | pc => pc

def pingerStep (s : Handshake) : Handshake :=
  match s.pinger with
  | .create => { s with pinger := .startSync, routine := .lockPong }
  -- `pthread_cond_timedwait` unlocks `pong_me`, whoever holds it
  | .startSync => { s with pinger := .startWaiting, pongMe := false }
  | .startWaiting => s
  | .startSignaled => if s.pongMe then s else { s with pinger := .lockPing, pongMe := true }
  | .startTimedOut => if s.pongMe then s else { s with pinger := .between, pongMe := true }
  | .lockPing => if s.pingMe then s else { s with pinger := .unlockPing, pingMe := true }
  | .unlockPing => { s with pinger := .between, pingMe := false }
  | .between => { s with pinger := .timedLock }
  | .timedLock =>
    if s.pingMe then { s with pinger := .between }
    else { s with pinger := .signal, pingMe := true }
  | .signal => { s with pinger := .unlock, routine := s.routine.signaledBy }
  | .unlock => { s with pinger := .sync, pingMe := false }
  | .sync => { s with pinger := .waiting, pongMe := false }
  | .waiting => s
  | .signaled | .timedOut =>
    if s.pongMe then s else { s with pinger := .between, pongMe := true }

def routineStep (s : Handshake) : Handshake :=
  match s.routine with
  | .none => s
  | .lockPong => if s.pongMe then s else { s with routine := .lockPing, pongMe := true }
  | .lockPing => if s.pingMe then s else { s with routine := .signalPong, pingMe := true }
  | .signalPong => { s with routine := .unlockPong, pinger := s.pinger.signaledBy }
  | .unlockPong => { s with routine := .wait, pongMe := false }
  | .wait => { s with routine := .waiting, pingMe := false }
  | .waiting => s
  | .woken => if s.pingMe then s else { s with routine := .lockPongAgain, pingMe := true }
  | .lockPongAgain => if s.pongMe then s else { s with routine := .signalPongAgain, pongMe := true }
  | .signalPongAgain => { s with routine := .unlockPongAgain, pinger := s.pinger.signaledBy }
  | .unlockPongAgain => { s with routine := .task, pongMe := false }
  | .task => { s with routine := .wait }

def timeoutStep (s : Handshake) : Handshake :=
  match s.pinger with
  | .startWaiting => { s with pinger := .startTimedOut }
  | .waiting => { s with pinger := .timedOut }
  | _ => s

def handshakeStep (s : Handshake) : Mover → Handshake
  | .pinger => pingerStep s
  | .routine => routineStep s
  | .timeout => timeoutStep s

/-- The pinger is between two pings, the routine is not in its task, and nothing that can
still happen brings it there. -/
def Stuck (s : Handshake) : Prop :=
  s.pinger = .between ∧ s.routine ≠ .none ∧ s.routine ≠ .task ∧
    ∀ moves, (run handshakeStep s moves).routine ≠ .task

/-- The condition on one move. After a timeout the pinger does not take `pong_me` back
while the routine is about to lock it, and the routine does not take `ping_me` back while
the pinger has kept `pong_me` and is between two pings or about to try `ping_me`. -/
def Timely (s : Handshake) : Mover → Prop
  | .pinger => s.pinger = .timedOut → s.pongMe = false → s.routine ≠ .lockPongAgain
  | .routine => s.routine = .woken → s.pingMe = false → s.pongMe = true →
      s.pinger ≠ .between ∧ s.pinger ≠ .timedLock
  | .timeout => True

instance : (s : Handshake) → (mover : Mover) → Decidable (Timely s mover)
  | _, .pinger => inferInstanceAs (Decidable (_ → _ → _))
  | _, .routine => inferInstanceAs (Decidable (_ → _ → _ → _))
  | _, .timeout => .isTrue trivial

/-! ## The invariant -/

def PingerPc.holdsPing : PingerPc → Bool
  | .unlockPing | .signal | .unlock => true
  | _ => false

def RoutinePc.holdsPing : RoutinePc → Bool
  | .signalPong | .unlockPong | .wait | .lockPongAgain | .signalPongAgain | .unlockPongAgain
  | .task => true
  | _ => false

/-- Inside `routine_start`, after `pthread_create`. -/
def PingerPc.starting : PingerPc → Bool
  | .startSync | .startWaiting | .startSignaled | .startTimedOut | .lockPing | .unlockPing => true
  | _ => false

/-- Before the first ping has arrived. -/
def RoutinePc.first : RoutinePc → Bool
  | .lockPong | .lockPing | .signalPong | .unlockPong | .wait | .waiting => true
  | _ => false

/-- After the signal of `pong`, up to the next ping. -/
def RoutinePc.signaled : RoutinePc → Bool
  | .unlockPong | .unlockPongAgain | .task | .wait | .waiting => true
  | _ => false

/-- The routine holds `ping_me` and waits for `pong_me`; the pinger holds that and finds
`ping_me` taken at every ping. -/
def Wedged (s : Handshake) : Prop :=
  (s.pinger = .between ∨ s.pinger = .timedLock) ∧ s.routine = .lockPongAgain ∧ s.pongMe = true

structure HandshakeInv (s : Handshake) : Prop where
  ping : s.pingMe = (s.pinger.holdsPing || s.routine.holdsPing)
  excl : (s.pinger.holdsPing && s.routine.holdsPing) = false
  created : s.pinger = .create ↔ s.routine = .none
  starting : s.pinger.starting = true → s.routine.first = true
  signaled : s.pinger = .signaled → s.routine.signaled = true
  free : ¬ Wedged s

variable {s : Handshake}

/-- What a move of the pinger has to respect. -/
theorem HandshakeInv.setPinger (h : HandshakeInv s) {pc : PingerPc} {pongMe pingMe : Bool}
    (hold : s.pinger ≠ .create) (hnew : pc ≠ .create)
    (hping : pingMe = (pc.holdsPing || s.routine.holdsPing))
    (hexcl : pc.holdsPing = true → s.routine.holdsPing = false)
    (hstarting : pc.starting = true → s.pinger.starting = true)
    (hsignaled : pc ≠ .signaled)
    (hfree : pc = .between ∨ pc = .timedLock → s.routine = .lockPongAgain → pongMe = false) :
    HandshakeInv ⟨pc, s.routine, pongMe, pingMe⟩ := by
  refine ⟨hping, ?_, ?_, fun hs => h.starting (hstarting hs), fun hs => absurd hs hsignaled, ?_⟩
  · cases hp : pc.holdsPing with
    | false => rfl
    | true => simp [hexcl hp]
  · constructor
    · intro hc
      exact absurd hc hnew
    · intro hr
      exact absurd (h.created.mpr hr) hold
  · rintro ⟨hpc, hroutine, hpong⟩
    have hpong' : pongMe = true := hpong
    rw [hfree hpc hroutine] at hpong'
    cases hpong'

theorem HandshakeInv.not_wedged (h : HandshakeInv s)
    (hpc : s.pinger = .between ∨ s.pinger = .timedLock) (hr : s.routine = .lockPongAgain) :
    s.pongMe = false := by
  cases hpong : s.pongMe with
  | false => rfl
  | true => exact absurd ⟨hpc, hr, hpong⟩ h.free

theorem HandshakeInv.not_again (h : HandshakeInv s) (hs : s.pinger.starting = true) :
    s.routine ≠ .lockPongAgain := by
  intro hr
  have hfirst := h.starting hs
  rw [hr] at hfirst
  cases hfirst

/-- Whoever finds `ping_me` free, the routine does not hold it. -/
theorem HandshakeInv.routine_free (h : HandshakeInv s) (hp : s.pingMe = false) :
    s.pinger.holdsPing = false ∧ s.routine.holdsPing = false := by
  have hping := h.ping
  rw [hp] at hping
  simpa using hping.symm

theorem handshakeInv_timeout (h : HandshakeInv s) : HandshakeInv (timeoutStep s) := by
  unfold timeoutStep
  have hping := h.ping
  split
  next hpc =>
    rw [hpc] at hping
    exact h.setPinger (by simp [hpc]) nofun hping nofun (by simp [hpc, PingerPc.starting]) nofun
      (by simp)
  next hpc =>
    rw [hpc] at hping
    exact h.setPinger (by simp [hpc]) nofun hping nofun (by simp [PingerPc.starting]) nofun
      (by simp)
  next => exact h

theorem RoutinePc.signaledBy_cases (pc : RoutinePc) :
    pc.signaledBy = pc ∨ (pc = .waiting ∧ pc.signaledBy = .woken) := by
  cases pc <;> first | exact Or.inl rfl | exact Or.inr ⟨rfl, rfl⟩

theorem handshakeInv_pinger (h : HandshakeInv s) (ht : Timely s .pinger) :
    HandshakeInv (pingerStep s) := by
  have hping := h.ping
  unfold pingerStep
  split
  next hpc =>
    -- the routine is created
    have hnone := h.created.mp hpc
    rw [hpc, hnone] at hping
    exact ⟨hping, rfl, by simp, fun _ => rfl, nofun, by simp [Wedged]⟩
  next hpc =>
    rw [hpc] at hping
    exact h.setPinger (by simp [hpc]) nofun hping nofun (by simp [hpc, PingerPc.starting]) nofun
      (by simp)
  next => exact h
  next hpc =>
    rw [hpc] at hping
    split
    · exact h
    · exact h.setPinger (by simp [hpc]) nofun hping nofun (by simp [hpc, PingerPc.starting]) nofun
        (by simp)
  next hpc =>
    rw [hpc] at hping
    split
    · exact h
    · refine h.setPinger (by simp [hpc]) nofun hping nofun (by simp [PingerPc.starting]) nofun ?_
      intro _ hr
      exact absurd hr (h.not_again (by rw [hpc]; rfl))
  next hpc =>
    split
    · exact h
    next hfree =>
      obtain ⟨-, hroutine⟩ := h.routine_free (by simpa using hfree)
      exact h.setPinger (by simp [hpc]) nofun rfl (fun _ => hroutine)
        (by simp [hpc, PingerPc.starting]) nofun (by simp)
  next hpc =>
    have hroutine : s.routine.holdsPing = false := by
      have hexcl := h.excl
      rw [hpc] at hexcl
      exact hexcl
    refine h.setPinger (by simp [hpc]) nofun (by simp [PingerPc.holdsPing, hroutine]) nofun
      (by simp [PingerPc.starting]) nofun ?_
    intro _ hr
    exact absurd hr (h.not_again (by rw [hpc]; rfl))
  next hpc =>
    rw [hpc] at hping
    exact h.setPinger (by simp [hpc]) nofun hping nofun (by simp [PingerPc.starting]) nofun
      fun _ hr => h.not_wedged (Or.inl hpc) hr
  next hpc =>
    rw [hpc] at hping
    split
    · exact h.setPinger (by simp [hpc]) nofun hping nofun (by simp [PingerPc.starting]) nofun
        fun _ hr => h.not_wedged (Or.inr hpc) hr
    next hfree =>
      obtain ⟨-, hroutine⟩ := h.routine_free (by simpa using hfree)
      exact h.setPinger (by simp [hpc]) nofun rfl (fun _ => hroutine)
        (by simp [PingerPc.starting]) nofun (by simp)
  next hpc =>
    -- the ping itself
    have hexcl := h.excl
    rw [hpc] at hping hexcl
    rcases s.routine.signaledBy_cases with hsame | ⟨hwait, hwoken⟩
    · rw [hsame]
      exact h.setPinger (by simp [hpc]) nofun hping (fun _ => hexcl) (by simp [PingerPc.starting])
        nofun (by simp)
    · rw [hwoken]
      exact ⟨hping, rfl, by simp, by simp [PingerPc.starting], nofun, by simp [Wedged]⟩
  next hpc =>
    have hroutine : s.routine.holdsPing = false := by
      have hexcl := h.excl
      rw [hpc] at hexcl
      exact hexcl
    exact h.setPinger (by simp [hpc]) nofun (by simp [PingerPc.holdsPing, hroutine]) nofun
      (by simp [PingerPc.starting]) nofun (by simp)
  next hpc =>
    rw [hpc] at hping
    exact h.setPinger (by simp [hpc]) nofun hping nofun (by simp [PingerPc.starting]) nofun
      (by simp)
  next => exact h
  next hpc =>
    rw [hpc] at hping
    split
    · exact h
    · refine h.setPinger (by simp [hpc]) nofun hping nofun (by simp [PingerPc.starting]) nofun ?_
      intro _ hr
      have hsignaled := h.signaled hpc
      rw [hr] at hsignaled
      cases hsignaled
  next hpc =>
    rw [hpc] at hping
    split
    · exact h
    next hfree =>
      refine h.setPinger (by simp [hpc]) nofun hping nofun (by simp [PingerPc.starting]) nofun ?_
      intro _ hr
      exact absurd hr (ht hpc (by simpa using hfree))

/-- What a move of the routine has to respect. -/
theorem HandshakeInv.setRoutine (h : HandshakeInv s) {pc : RoutinePc} {pongMe pingMe : Bool}
    (hold : s.routine ≠ .none) (hnew : pc ≠ .none)
    (hping : pingMe = (s.pinger.holdsPing || pc.holdsPing))
    (hexcl : pc.holdsPing = true → s.pinger.holdsPing = false)
    (hstarting : s.routine.first = true → pc.first = true)
    (hsignaled : s.routine.signaled = true → pc.signaled = true)
    (hfree : pc = .lockPongAgain → pongMe = true → s.pinger ≠ .between ∧ s.pinger ≠ .timedLock) :
    HandshakeInv ⟨s.pinger, pc, pongMe, pingMe⟩ := by
  refine ⟨hping, ?_, ?_, fun hs => hstarting (h.starting hs), fun hs => hsignaled (h.signaled hs),
    ?_⟩
  · cases hp : pc.holdsPing with
    | false => simp
    | true => simp [hexcl hp]
  · constructor
    · intro hc
      exact absurd (h.created.mp hc) hold
    · intro hr
      exact absurd hr hnew
  · rintro ⟨hpc, hroutine, hpong⟩
    obtain ⟨hbetween, htimed⟩ := hfree hroutine hpong
    rcases hpc with hpc | hpc
    · exact hbetween hpc
    · exact htimed hpc

theorem PingerPc.signaledBy_cases (pc : PingerPc) :
    pc.signaledBy = pc ∨ (pc = .startWaiting ∧ pc.signaledBy = .startSignaled) ∨
      (pc = .waiting ∧ pc.signaledBy = .signaled) := by
  cases pc <;> first
    | exact Or.inl rfl
    | exact Or.inr (Or.inl ⟨rfl, rfl⟩)
    | exact Or.inr (Or.inr ⟨rfl, rfl⟩)

/-- The signal of `pong`, by the routine from either place it makes it. -/
theorem HandshakeInv.signalPong (h : HandshakeInv s) {pc : RoutinePc} {pongMe : Bool}
    (hold : s.routine ≠ .none) (hhold : s.routine.holdsPing = true) (hpc : pc.holdsPing = true)
    (hsignaled : pc.signaled = true) (hstarting : s.routine.first = true → pc.first = true) :
    HandshakeInv ⟨s.pinger.signaledBy, pc, pongMe, s.pingMe⟩ := by
  have hnew : pc ≠ .none := by
    rintro rfl
    cases hpc
  have hagain : pc ≠ .lockPongAgain := by
    rintro rfl
    cases hsignaled
  have hexcl := h.excl
  have hping := h.ping
  rw [hhold, Bool.and_true] at hexcl
  rw [hhold, Bool.or_true] at hping
  have hset : HandshakeInv ⟨s.pinger, pc, pongMe, s.pingMe⟩ :=
    h.setRoutine hold hnew (by simp [hpc, hping]) (fun _ => hexcl) hstarting (fun _ => hsignaled)
      fun hc => absurd hc hagain
  rcases s.pinger.signaledBy_cases with hsame | ⟨hpinger, hnext⟩ | ⟨hpinger, hnext⟩
  · rw [hsame]
    exact hset
  · rw [hnext]
    exact hset.setPinger (by simp [hpinger]) nofun (by simp [hpc, hping]) nofun
      (by simp [hpinger, PingerPc.starting]) nofun (by simp)
  · rw [hnext]
    refine ⟨by simp [hpc, hping], rfl, by simp [hnew], nofun, fun _ => hsignaled, by simp [Wedged]⟩

theorem handshakeInv_routine (h : HandshakeInv s) (ht : Timely s .routine) :
    HandshakeInv (routineStep s) := by
  have hping := h.ping
  have hexcl := h.excl
  unfold routineStep
  split
  next => exact h
  next hpc =>
    rw [hpc] at hping
    split
    · exact h
    · exact h.setRoutine (by simp [hpc]) nofun hping nofun (fun _ => rfl)
        (by simp [hpc, RoutinePc.signaled]) nofun
  next hpc =>
    split
    · exact h
    next hfree =>
      obtain ⟨hpinger, -⟩ := h.routine_free (by simpa using hfree)
      exact h.setRoutine (by simp [hpc]) nofun (by simp [RoutinePc.holdsPing]) (fun _ => hpinger)
        (fun _ => rfl) (by simp [hpc, RoutinePc.signaled]) nofun
  next hpc => exact h.signalPong (by simp [hpc]) (by rw [hpc]; rfl) rfl rfl (fun _ => rfl)
  next hpc =>
    rw [hpc, RoutinePc.holdsPing, Bool.and_true] at hexcl
    rw [hpc] at hping
    exact h.setRoutine (by simp [hpc]) nofun hping (fun _ => hexcl) (fun _ => rfl) (fun _ => rfl)
      nofun
  next hpc =>
    -- `pthread_cond_wait` unlocks `ping_me`
    rw [hpc, RoutinePc.holdsPing, Bool.and_true] at hexcl
    exact h.setRoutine (by simp [hpc]) nofun (by simp [hexcl, RoutinePc.holdsPing]) nofun
      (fun _ => rfl) (fun _ => rfl) nofun
  next => exact h
  next hpc =>
    split
    · exact h
    next hfree =>
      obtain ⟨hpinger, -⟩ := h.routine_free (by simpa using hfree)
      exact h.setRoutine (by simp [hpc]) nofun (by simp [RoutinePc.holdsPing]) (fun _ => hpinger)
        (by simp [hpc, RoutinePc.first]) (by simp [hpc, RoutinePc.signaled])
        fun _ => ht hpc (by simpa using hfree)
  next hpc =>
    rw [hpc, RoutinePc.holdsPing, Bool.and_true] at hexcl
    rw [hpc] at hping
    split
    · exact h
    · exact h.setRoutine (by simp [hpc]) nofun hping (fun _ => hexcl)
        (by simp [hpc, RoutinePc.first]) (by simp [hpc, RoutinePc.signaled]) nofun
  next hpc =>
    exact h.signalPong (by simp [hpc]) (by rw [hpc]; rfl) rfl rfl (by simp [hpc, RoutinePc.first])
  next hpc =>
    rw [hpc, RoutinePc.holdsPing, Bool.and_true] at hexcl
    rw [hpc] at hping
    exact h.setRoutine (by simp [hpc]) nofun hping (fun _ => hexcl)
      (by simp [hpc, RoutinePc.first]) (fun _ => rfl) nofun
  next hpc =>
    rw [hpc, RoutinePc.holdsPing, Bool.and_true] at hexcl
    rw [hpc] at hping
    exact h.setRoutine (by simp [hpc]) nofun hping (fun _ => hexcl) (fun _ => rfl) (fun _ => rfl)
      nofun

theorem handshakeInv_step {mover : Mover} (ht : Timely s mover) (h : HandshakeInv s) :
    HandshakeInv (handshakeStep s mover) := by
  cases mover with
  | pinger => exact handshakeInv_pinger h ht
  | routine => exact handshakeInv_routine h ht
  | timeout => exact handshakeInv_timeout h

theorem handshakeInv_start : HandshakeInv .start :=
  ⟨rfl, rfl, by simp [Handshake.start], nofun, nofun, by simp [Wedged, Handshake.start]⟩

/-! ## Progress -/

/-- A call of `routine_ping` up to its wait, with `ping_me` free. -/
def pingCall : List Mover := [.pinger, .pinger, .pinger, .pinger, .pinger]

/-- The routine from its wake to its task, with `pong_me` free. -/
def answerPing : List Mover := [.routine, .routine, .routine, .routine]

/-- A routine that waits, or is already woken, answers the next ping. -/
theorem reaches_task_of_waiting {routine : RoutinePc} (pongMe : Bool)
    (h : routine = .waiting ∨ routine = .woken) :
    ∃ moves, (run handshakeStep ⟨.between, routine, pongMe, false⟩ moves).routine = .task := by
  refine ⟨pingCall ++ answerPing, ?_⟩
  rcases h with rfl | rfl <;> rfl

/-- Between two pings only the wedged state is without a way to the task. -/
theorem HandshakeInv.reaches_task (h : HandshakeInv s) (hpc : s.pinger = .between) :
    ∃ moves, (run handshakeStep s moves).routine = .task := by
  obtain ⟨pinger, routine, pongMe, pingMe⟩ := s
  obtain rfl : pinger = .between := hpc
  obtain rfl : pingMe = routine.holdsPing := h.ping
  have hwaiting := fun pong => reaches_task_of_waiting pong (Or.inl rfl)
  cases routine with
  | none => exact absurd (h.created.mpr rfl) nofun
  | lockPong =>
    -- only the pinger can free `pong_me`; it does so by pinging and waiting
    obtain ⟨moves, hmoves⟩ := hwaiting true
    refine ⟨pingCall ++ [.routine, .routine, .routine, .routine, .routine, .pinger] ++ moves, ?_⟩
    rw [run_append]
    exact hmoves
  | lockPing =>
    obtain ⟨moves, hmoves⟩ := hwaiting false
    exact ⟨.routine :: .routine :: .routine :: .routine :: moves, hmoves⟩
  | signalPong =>
    obtain ⟨moves, hmoves⟩ := hwaiting false
    exact ⟨.routine :: .routine :: .routine :: moves, hmoves⟩
  | unlockPong =>
    obtain ⟨moves, hmoves⟩ := hwaiting false
    exact ⟨.routine :: .routine :: moves, hmoves⟩
  | wait =>
    obtain ⟨moves, hmoves⟩ := hwaiting pongMe
    exact ⟨.routine :: moves, hmoves⟩
  | waiting => exact hwaiting pongMe
  | woken => exact reaches_task_of_waiting pongMe (Or.inr rfl)
  | lockPongAgain =>
    obtain rfl : pongMe = false := h.not_wedged (Or.inl rfl) rfl
    exact ⟨[.routine, .routine, .routine], rfl⟩
  | signalPongAgain => exact ⟨[.routine, .routine], rfl⟩
  | unlockPongAgain => exact ⟨[.routine], rfl⟩
  | task => exact ⟨[], rfl⟩

/-- As long as no wake-up comes late, the handshake never gets stuck. -/
theorem handshake_never_stuck (moves : List Mover)
    (h : Along handshakeStep Timely .start moves) :
    ¬ Stuck (run handshakeStep .start moves) := by
  rintro ⟨hpc, -, -, hnever⟩
  have hinv : HandshakeInv (run handshakeStep .start moves) :=
    invariant_along (fun _ _ => handshakeInv_step) h handshakeInv_start
  obtain ⟨more, htask⟩ := hinv.reaches_task hpc
  exact hnever more htask

/-- `routine_start` and one ping that is answered in time. -/
theorem handshake_never_stuck_one_ping :
    let moves : List Mover := [.pinger, .pinger, .routine, .routine, .routine, .routine, .routine,
      .pinger, .pinger, .pinger, .pinger, .pinger, .pinger, .pinger, .pinger, .routine, .routine,
      .routine, .routine, .pinger]
    (run handshakeStep .start moves).pinger = .between ∧
      ¬ Stuck (run handshakeStep .start moves) :=
  ⟨by decide, handshake_never_stuck _ (by decide)⟩

/-! ## A late wake-up -/

theorem Wedged.step (h : Wedged s) (hping : s.pingMe = true) (mover : Mover) :
    Wedged (handshakeStep s mover) ∧ (handshakeStep s mover).pingMe = true := by
  obtain ⟨pinger, routine, pongMe, pingMe⟩ := s
  obtain ⟨hpc, hroutine, hpong⟩ := h
  obtain rfl : routine = .lockPongAgain := hroutine
  obtain rfl : pongMe = true := hpong
  obtain rfl : pingMe = true := hping
  have hpc' : pinger = .between ∨ pinger = .timedLock := hpc
  rcases hpc' with rfl | rfl <;> cases mover <;>
    simp [Wedged, handshakeStep, pingerStep, routineStep, timeoutStep]

theorem Wedged.forever (h : Wedged s) (hping : s.pingMe = true) (moves : List Mover) :
    Wedged (run handshakeStep s moves) := by
  have hboth : Wedged (run handshakeStep s moves) ∧ (run handshakeStep s moves).pingMe = true :=
    invariant_run (I := fun s => Wedged s ∧ s.pingMe = true)
      (fun _ mover hs => hs.1.step hs.2 mover) ⟨h, hping⟩
  exact hboth.1

/-- The routine is woken by a ping, but the pinger's wait times out and takes `pong_me` back
before the routine gets it: neither of them gets any further. -/
def lateWakeUp : List Mover :=
  [.pinger, .pinger, .routine, .routine, .routine, .routine, .routine, .pinger, .pinger, .pinger,
    .pinger, .pinger, .pinger, .pinger, .pinger, .routine, .timeout, .pinger]

theorem handshake_gets_stuck : Stuck (run handshakeStep .start lateWakeUp) := by
  have hwedged : Wedged (run handshakeStep .start lateWakeUp) := ⟨by decide, by decide, by decide⟩
  refine ⟨by decide, by decide, by decide, fun moves htask => ?_⟩
  obtain ⟨-, hroutine, -⟩ := hwedged.forever (by decide) moves
  rw [hroutine] at htask
  cases htask

end MonitoringAgent
