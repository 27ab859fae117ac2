import MonitoringAgent.Sender
import MonitoringAgent.Lib.Transition
import Mathlib.Data.Fintype.Basic

/-!
# Posts that interleave

Any number of threads in `post`, step by step. They share `sender`, one curl handle with a
lock for each type of packet, and a handle keeps what was last set on it.
-/
namespace MonitoringAgent

open Buffer Transition

/-- `sender_t`. The options of the handle point into packets, which are named by their
addresses. -/
structure Handle where
  spin : Bool
  /-- The packet whose payload CURLOPT_POSTFIELDS points to. -/
  postFields : Option Nat
  /-- CURLOPT_WRITEDATA. -/
  writeData : Option Nat
  /-- CURLINFO_RESPONSE_CODE. -/
  responseCode : Nat

/-- As `sender_init` leaves it. -/
def Handle.start : Handle := ⟨false, none, none, 0⟩

/-- Where a thread is in `post`. -/
inductive PostPc where
  | idle
  /-- `pkt->attempt++`. -/
  | attempt (r : Nat)
  /-- `packet_fetch`: taking `pkt->spin`. -/
  | fetchLock (r : Nat)
  /-- `packet_fetch`: the test of the state. -/
  | fetchState (r : Nat)
  /-- `packet_fetch`: `pkt->spin = 0`. -/
  | fetchUnlock (r : Nat) (ready : Bool)
  /-- Taking `sender[pkt->type].spin`. -/
  | lock (r : Nat)
  | setFields (r : Nat)
  | setData (r : Nat)
  /-- `curl_easy_perform`: the request goes out. -/
  | transmit (r : Nat)
  /-- `curl_easy_perform`: the reply comes in. -/
  | receive (r : Nat)
  /-- `curl_easy_getinfo`. -/
  | getInfo (r : Nat) (curlOk : Bool)
  /-- `sender[pkt->type].spin = 0`. -/
  | unlock (r : Nat) (ok : Bool)
  | ret (r : Nat) (ok : Bool)
  deriving DecidableEq

namespace PostPc

/-- The packet being posted. -/
def addr : PostPc → Option Nat
  | idle => none
  | attempt r | fetchLock r | fetchState r | fetchUnlock r _ | lock r | setFields r | setData r
  | transmit r | receive r | getInfo r _ | unlock r _ | ret r _ => some r

/-- The packet being sent by a handle whose lock is held. -/
def sending : PostPc → Option Nat
  | setFields r | setData r | transmit r | receive r | getInfo r _ | unlock r _ => some r
  | _ => none

end PostPc

/-- What the server reads of a payload. -/
def Packet.body (pkt : Packet) : Text := cstr (slice pkt.payload pktsz)

variable {ι : Type}

structure Senders (ι : Type) where
  pkt : Nat → Packet
  spin : Nat → Bool
  sender : PacketType → Handle
  pc : ι → PostPc
  /-- The requests that went out, each with the type of its handle, the last one first. -/
  wire : List (PacketType × Text)

def Senders.start (pkt : Nat → Packet) : Senders ι where
  pkt := pkt
  spin _ := false
  sender _ := .start
  pc _ := .idle
  wire := []

/-- A thread calls `post` or takes its next step, in which a transfer meets the given reply;
the rest of the program stores into a packet or into its lock. -/
inductive SenderAct (ι : Type) where
  | post (i : ι) (r : Nat)
  | thread (i : ι) (reply : Reply)
  | other (r : Nat) (pkt : Packet)
  | otherSpin (r : Nat) (spin : Bool)

variable [DecidableEq ι]

def Senders.setPc (s : Senders ι) (i : ι) (pc : PostPc) : Senders ι :=
  { s with pc := Function.update s.pc i pc }

def Senders.setPkt (s : Senders ι) (r : Nat) (pkt : Packet) : Senders ι :=
  { s with pkt := Function.update s.pkt r pkt }

def Senders.setSpin (s : Senders ι) (r : Nat) (spin : Bool) : Senders ι :=
  { s with spin := Function.update s.spin r spin }

/-- The handle `sender[pkt->type]`. -/
def Senders.handle (s : Senders ι) (r : Nat) : Handle := s.sender (s.pkt r).type

def Senders.setHandle (s : Senders ι) (r : Nat) (h : Handle) : Senders ι :=
  { s with sender := Function.update s.sender (s.pkt r).type h }

def postStep (s : Senders ι) (i : ι) (reply : Reply) : Senders ι :=
  match s.pc i with
  | .idle => s
  | .attempt r =>
    (s.setPkt r { s.pkt r with attempt := (s.pkt r).attempt + 1 }).setPc i (.fetchLock r)
  | .fetchLock r => if s.spin r then s else (s.setSpin r true).setPc i (.fetchState r)
  | .fetchState r => s.setPc i (.fetchUnlock r ((s.pkt r).state = .ready))
  | .fetchUnlock r ready =>
    (s.setSpin r false).setPc i (if ready then .lock r else .ret r false)
  | .lock r =>
    if (s.handle r).spin then s
    else (s.setHandle r { s.handle r with spin := true }).setPc i (.setFields r)
  | .setFields r =>
    (s.setHandle r { s.handle r with postFields := some r }).setPc i (.setData r)
  | .setData r => (s.setHandle r { s.handle r with writeData := some r }).setPc i (.transmit r)
  | .transmit r =>
    let body := match (s.handle r).postFields with
      | some p => (s.pkt p).body
      | none => []
    { s with wire := ((s.pkt r).type, body) :: s.wire }.setPc i (.receive r)
  | .receive r =>
    let s' := s.setHandle r { s.handle r with responseCode := reply.status }
    match (s.handle r).writeData with
    | some d =>
      let (response, written) := deliver reply.chunks (s.pkt d).response
      (s'.setPkt d { s.pkt d with response := response }).setPc i
        (.getInfo r (written && reply.curlOk))
    | none => s'.setPc i (.getInfo r false)
  | .getInfo r curlOk =>
    let status := (s.handle r).responseCode
    s.setPc i (.unlock r (curlOk && (status = 202 || status = 200)))
  | .unlock r ok => (s.setHandle r { s.handle r with spin := false }).setPc i (.ret r ok)
  | .ret _ _ => s.setPc i .idle

def senderStep (s : Senders ι) : SenderAct ι → Senders ι
  | .post i r =>
    match s.pc i with
    | .idle => s.setPc i (.attempt r)
    | _ => s
  | .thread i reply => postStep s i reply
  | .other r pkt => s.setPkt r pkt
  | .otherSpin r spin => s.setSpin r spin

/-! ## Calls -/

/-- What has happened in a call of `post`. -/
structure PostCall where
  /-- The packet as the caller hands it over. -/
  before : Packet
  sent : List (PacketType × Text)
  replies : List Reply

/-- The call did to its packet what `post` does with nobody else at work, and sent the
payload of this packet once, if it was READY. -/
def PostCall.Atomic (c : PostCall) (after : Packet) (ok : Bool) : Prop :=
  if c.before.state = .ready then
    ∃ reply, c.replies = [reply] ∧ c.sent = [(c.before.type, c.before.body)] ∧
      post c.before reply = (after, ok)
  else c.replies = [] ∧ c.sent = [] ∧ ∀ reply, post c.before reply = (after, ok)

/-- The threads with their present calls, and the calls that are over with what they left
and returned. -/
structure Called (ι : Type) where
  senders : Senders ι
  call : ι → PostCall
  ended : List (PostCall × Packet × Bool)

def Called.start (pkt : Nat → Packet) : Called ι :=
  ⟨.start pkt, fun _ => ⟨packetAlloc .metric, [], []⟩, []⟩

/-- What a step adds to the calls. -/
def Called.note (x : Called ι) : SenderAct ι → ι → PostCall
  | .post i r => Function.update x.call i ⟨x.senders.pkt r, [], []⟩
  | .thread i reply =>
    let c := x.call i
    match x.senders.pc i with
    | .transmit _ =>
      let sent := (postStep x.senders i reply).wire.take 1
      Function.update x.call i { c with sent := c.sent ++ sent }
    | .receive _ => Function.update x.call i { c with replies := c.replies ++ [reply] }
    | _ => x.call
  | .other _ _ | .otherSpin _ _ => x.call

def Called.finished (x : Called ι) : SenderAct ι → List (PostCall × Packet × Bool)
  | .thread i _ =>
    match x.senders.pc i with
    | .ret r ok => [(x.call i, x.senders.pkt r, ok)]
    | _ => []
  | .post _ _ | .other _ _ | .otherSpin _ _ => []

def calledStep (x : Called ι) (act : SenderAct ι) : Called ι where
  senders := senderStep x.senders act
  call := x.note act
  ended := x.finished act ++ x.ended

/-- A packet is posted by one thread at a time, and the rest of the program leaves a packet
that is being posted alone. Into its lock it may store. -/
def Apart (x : Called ι) : SenderAct ι → Prop
  | .post i r => x.senders.pc i = .idle ∧ ∀ j, (x.senders.pc j).addr ≠ some r
  | .thread _ _ => True
  | .other r _ => ∀ j, (x.senders.pc j).addr ≠ some r
  | .otherSpin _ _ => True

instance decidableApart [Fintype ι] (x : Called ι) : (act : SenderAct ι) → Decidable (Apart x act)
  | .post i r =>
    inferInstanceAs (Decidable (x.senders.pc i = .idle ∧ ∀ j, (x.senders.pc j).addr ≠ some r))
  | .thread _ _ => .isTrue trivial
  | .other r _ => inferInstanceAs (Decidable (∀ j, (x.senders.pc j).addr ≠ some r))
  | .otherSpin _ _ => .isTrue trivial

/-! ## The invariant -/

/-- What a thread knows of its call, of its packet, and of the handle whose lock it has. -/
def PostPc.Ok (s : Senders ι) (c : PostCall) : PostPc → Prop
  | idle => True
  | attempt r => s.pkt r = c.before ∧ c.sent = [] ∧ c.replies = []
  | fetchLock r | fetchState r =>
    s.pkt r = { c.before with attempt := c.before.attempt + 1 } ∧ c.sent = [] ∧ c.replies = []
  | fetchUnlock r ready =>
    s.pkt r = { c.before with attempt := c.before.attempt + 1 } ∧ c.sent = [] ∧ c.replies = [] ∧
      ready = decide (c.before.state = .ready)
  | lock r | setFields r | setData r | transmit r =>
    s.pkt r = { c.before with attempt := c.before.attempt + 1 } ∧ c.sent = [] ∧ c.replies = [] ∧
      c.before.state = .ready
  | receive r =>
    s.pkt r = { c.before with attempt := c.before.attempt + 1 } ∧
      c.sent = [(c.before.type, c.before.body)] ∧ c.replies = [] ∧ c.before.state = .ready
  | getInfo r curlOk =>
    ∃ reply, c.replies = [reply] ∧ c.sent = [(c.before.type, c.before.body)] ∧
      c.before.state = .ready ∧ s.pkt r = (post c.before reply).1 ∧
      (s.handle r).responseCode = reply.status ∧
      curlOk = ((deliver reply.chunks c.before.response).2 && reply.curlOk)
  | unlock r ok | ret r ok => c.Atomic (s.pkt r) ok

/-- The handle has what the thread has set on it. -/
def PostPc.Set (s : Senders ι) : PostPc → Prop
  | setData r => (s.handle r).postFields = some r
  | transmit r => (s.handle r).postFields = some r ∧ (s.handle r).writeData = some r
  | receive r => (s.handle r).writeData = some r
  | _ => True

structure CalledInv (x : Called ι) : Prop where
  /-- No packet is posted by two threads. -/
  apart : ∀ i j r, (x.senders.pc i).addr = some r → (x.senders.pc j).addr = some r → i = j
  locked : ∀ i r, (x.senders.pc i).sending = some r → (x.senders.handle r).spin = true
  /-- Whoever took a lock is still there. -/
  held : ∀ t, (x.senders.sender t).spin = true →
    ∃ i r, (x.senders.pc i).sending = some r ∧ (x.senders.pkt r).type = t
  /-- No handle is used by two threads. -/
  exclusive : ∀ i j r r', (x.senders.pc i).sending = some r → (x.senders.pc j).sending = some r' →
    (x.senders.pkt r).type = (x.senders.pkt r').type → i = j
  ok : ∀ i, (x.senders.pc i).Ok x.senders (x.call i)
  set : ∀ i, (x.senders.pc i).Set x.senders
  ended : ∀ y ∈ x.ended, y.1.Atomic y.2.1 y.2.2

variable {x x' : Called ι} {s s' : Senders ι} {i : ι} {r : Nat} {pc pc' : PostPc} {c : PostCall}

omit [DecidableEq ι] in
theorem PostPc.Ok.congr (h : pc.Ok s c) (hpkt : ∀ r, pc.addr = some r → s'.pkt r = s.pkt r)
    (hhandle : ∀ r, pc.sending = some r → s'.handle r = s.handle r) : pc.Ok s' c := by
  cases pc with
  | idle => trivial
  | getInfo r curlOk =>
    obtain ⟨reply, hreplies, hsent, hready, hpost, hcode, hok⟩ := h
    exact ⟨reply, hreplies, hsent, hready, (hpkt r rfl).trans hpost,
      (congrArg Handle.responseCode (hhandle r rfl)).trans hcode, hok⟩
  | attempt r | fetchLock r | fetchState r | fetchUnlock r | lock r | setFields r | setData r
  | transmit r | receive r | unlock r | ret r =>
    simp only [PostPc.Ok] at h ⊢
    rwa [hpkt r rfl]

omit [DecidableEq ι] in
theorem PostPc.Set.congr (h : pc.Set s)
    (hhandle : ∀ r, pc.sending = some r → s'.handle r = s.handle r) : pc.Set s' := by
  cases pc with
  | setData r | transmit r | receive r =>
    simp only [PostPc.Set] at h ⊢
    rwa [hhandle r rfl]
  | _ => trivial

omit [DecidableEq ι] in
theorem PostPc.addr_of_sending (h : pc.sending = some r) : pc.addr = some r := by
  cases pc <;> first | exact h | cases h

/-- What a step of thread `i` on packet `r` has to show. -/
structure OwnStep (x x' : Called ι) (i : ι) (r : Nat) (pc' : PostPc) : Prop where
  own : ∀ j, j ≠ i → (x.senders.pc j).addr ≠ some r
  before : ∀ r', (x.senders.pc i).sending = some r' → r' = r
  pc : x'.senders.pc = Function.update x.senders.pc i pc'
  addr : ∀ r', pc'.addr = some r' → r' = r
  pkt : ∀ r', r' ≠ r → x'.senders.pkt r' = x.senders.pkt r'
  type : (x'.senders.pkt r).type = (x.senders.pkt r).type
  sender : ∀ t, t ≠ (x.senders.pkt r).type → x'.senders.sender t = x.senders.sender t
  /-- The handle is changed only by a thread that has its lock or takes it. -/
  handle :
    (pc'.sending = none ∧ (x.senders.pc i).sending = none ∧
      x'.senders.handle r = x.senders.handle r) ∨
    (pc'.sending = some r ∧ (x'.senders.handle r).spin = true ∧
      ((x.senders.pc i).sending = some r ∨ (x.senders.handle r).spin = false)) ∨
    (pc'.sending = none ∧ (x'.senders.handle r).spin = false ∧
      (x.senders.pc i).sending = some r)
  call : ∀ j, j ≠ i → x'.call j = x.call j
  ok : pc'.Ok x'.senders (x'.call i)
  set : pc'.Set x'.senders
  ended : ∀ y ∈ x'.ended, y ∈ x.ended ∨ y.1.Atomic y.2.1 y.2.2

omit [DecidableEq ι] in
/-- A thread that sends another packet by the same handle is the one that took the step. -/
theorem CalledInv.alone (h : CalledInv x) {j : ι} {r' : Nat} (hji : j ≠ i)
    (hj : (x.senders.pc j).sending = some r')
    (ht : (x.senders.pkt r').type = (x.senders.pkt r).type) :
    (x.senders.pc i).sending ≠ some r ∧ (x.senders.handle r).spin = true := by
  refine ⟨fun hi => hji (h.exclusive j i r' r hj hi ht), ?_⟩
  have hlocked := h.locked j r' hj
  rwa [Senders.handle, ht] at hlocked

theorem OwnStep.handle_other (hs : OwnStep x x' i r pc') (h : CalledInv x) {j : ι} {r' : Nat}
    (hji : j ≠ i) (hj : (x.senders.pc j).sending = some r') :
    x'.senders.handle r' = x.senders.handle r' := by
  have hne : r' ≠ r := by
    rintro rfl
    exact hs.own j hji (PostPc.addr_of_sending hj)
  by_cases ht : (x.senders.pkt r').type = (x.senders.pkt r).type
  · obtain ⟨hi, hspin⟩ := h.alone hji hj ht
    rcases hs.handle with ⟨-, -, heq⟩ | ⟨-, -, hown | hown⟩ | ⟨-, -, hown⟩
    · rw [Senders.handle, Senders.handle, hs.pkt r' hne, ht]
      rwa [Senders.handle, Senders.handle, hs.type] at heq
    · exact absurd hown hi
    · rw [hspin] at hown
      cases hown
    · exact absurd hown hi
  · rw [Senders.handle, Senders.handle, hs.pkt r' hne, hs.sender _ ht]

/-- No other thread sends by the handle that a step leaves to thread `i`. -/
theorem OwnStep.exclusive (hs : OwnStep x x' i r pc') (h : CalledInv x) {j : ι} {r₁ r₂ : Nat}
    (hji : j ≠ i) (hi : pc'.sending = some r₁) (hj : (x.senders.pc j).sending = some r₂) :
    (x'.senders.pkt r₁).type ≠ (x'.senders.pkt r₂).type := by
  intro ht
  obtain rfl := hs.addr r₁ (PostPc.addr_of_sending hi)
  have hne : r₂ ≠ r₁ := by
    rintro rfl
    exact hs.own j hji (PostPc.addr_of_sending hj)
  rw [hs.type, hs.pkt r₂ hne] at ht
  obtain ⟨hsending, hspin⟩ := h.alone hji hj ht.symm
  rcases hs.handle with ⟨hnone, -⟩ | ⟨-, -, hown | hown⟩ | ⟨hnone, -⟩
  · rw [hnone] at hi
    cases hi
  · exact hsending hown
  · rw [hspin] at hown
    cases hown
  · rw [hnone] at hi
    cases hi

/-- The lock of a handle is held by the thread that took the step, or by who had it before. -/
theorem OwnStep.held (hs : OwnStep x x' i r pc') (h : CalledInv x) {t : PacketType}
    (ht : (x'.senders.sender t).spin = true) :
    ∃ j r', (x'.senders.pc j).sending = some r' ∧ (x'.senders.pkt r').type = t := by
  have hkept (hne : t = (x.senders.pkt r).type → (x.senders.pc i).sending = none)
      (hold : (x.senders.sender t).spin = true) :
      ∃ j r', (x'.senders.pc j).sending = some r' ∧ (x'.senders.pkt r').type = t := by
    obtain ⟨j, r', hj, htype⟩ := h.held t hold
    have hji : j ≠ i := by
      rintro rfl
      obtain rfl := hs.before r' hj
      rw [hne htype.symm] at hj
      cases hj
    have hr : r' ≠ r := by
      rintro rfl
      exact hs.own j hji (PostPc.addr_of_sending hj)
    exact ⟨j, r', by rwa [hs.pc, Function.update_of_ne hji], by rwa [hs.pkt r' hr]⟩
  by_cases htype : t = (x.senders.pkt r).type
  · subst htype
    have hspin : (x'.senders.handle r).spin = true := by rwa [Senders.handle, hs.type]
    rcases hs.handle with ⟨-, hnone, heq⟩ | ⟨hsend, -⟩ | ⟨-, hfree, -⟩
    · refine hkept (fun _ => hnone) ?_
      rwa [heq] at hspin
    · exact ⟨i, r, by rwa [hs.pc, Function.update_self], hs.type⟩
    · rw [hspin] at hfree
      cases hfree
  · rw [hs.sender t htype] at ht
    exact hkept (fun heq => absurd heq htype) ht

theorem CalledInv.step (h : CalledInv x) (hs : OwnStep x x' i r pc') : CalledInv x' := by
  have hself : x'.senders.pc i = pc' := by rw [hs.pc, Function.update_self]
  have hother {j : ι} (hji : j ≠ i) : x'.senders.pc j = x.senders.pc j := by
    rw [hs.pc, Function.update_of_ne hji]
  have hne {j : ι} {r' : Nat} (hji : j ≠ i) (hj : (x.senders.pc j).addr = some r') : r' ≠ r := by
    rintro rfl
    exact hs.own j hji hj
  refine ⟨fun j k r' hj hk => ?_, fun j r' hj => ?_, fun t ht => hs.held h ht,
    fun j k r₁ r₂ hj hk ht => ?_, fun j => ?_, fun j => ?_, fun y hy => ?_⟩
  · by_cases hji : j = i <;> by_cases hki : k = i
    · rw [hji, hki]
    · subst hji
      rw [hself] at hj
      rw [hother hki] at hk
      exact absurd (hs.addr r' hj) (hne hki hk)
    · subst hki
      rw [hself] at hk
      rw [hother hji] at hj
      exact absurd (hs.addr r' hk) (hne hji hj)
    · rw [hother hji] at hj
      rw [hother hki] at hk
      exact h.apart j k r' hj hk
  · by_cases hji : j = i
    · subst hji
      rw [hself] at hj
      obtain rfl := hs.addr r' (PostPc.addr_of_sending hj)
      rcases hs.handle with ⟨hnone, -⟩ | ⟨-, hspin, -⟩ | ⟨hnone, -⟩
      · rw [hnone] at hj
        cases hj
      · exact hspin
      · rw [hnone] at hj
        cases hj
    · rw [hother hji] at hj
      rw [hs.handle_other h hji hj]
      exact h.locked j r' hj
  · by_cases hji : j = i <;> by_cases hki : k = i
    · rw [hji, hki]
    · subst hji
      rw [hself] at hj
      rw [hother hki] at hk
      exact absurd ht (hs.exclusive h hki hj hk)
    · subst hki
      rw [hself] at hk
      rw [hother hji] at hj
      exact absurd ht.symm (hs.exclusive h hji hk hj)
    · rw [hother hji] at hj
      rw [hother hki] at hk
      rw [hs.pkt r₁ (hne hji (PostPc.addr_of_sending hj)),
        hs.pkt r₂ (hne hki (PostPc.addr_of_sending hk))] at ht
      exact h.exclusive j k r₁ r₂ hj hk ht
  · by_cases hji : j = i
    · subst hji
      rw [hself]
      exact hs.ok
    · rw [hother hji, hs.call j hji]
      exact (h.ok j).congr (fun r' hj => hs.pkt r' (hne hji hj))
        fun r' hj => hs.handle_other h hji hj
  · by_cases hji : j = i
    · subst hji
      rw [hself]
      exact hs.set
    · rw [hother hji]
      exact (h.set j).congr fun r' hj => hs.handle_other h hji hj
  · rcases hs.ended y hy with hold | hnew
    · exact h.ended y hold
    · exact hnew

/-! ## Steps -/

omit [DecidableEq ι] in
theorem Senders.handle_setPkt {pkt : Packet} (ht : pkt.type = (s.pkt r).type) :
    (s.setPkt r pkt).handle r = s.handle r := by
  simp [Senders.handle, Senders.setPkt, ht]

omit [DecidableEq ι] in
theorem CalledInv.own (h : CalledInv x) (hi : (x.senders.pc i).addr = some r) :
    ∀ j, j ≠ i → (x.senders.pc j).addr ≠ some r := fun j hji hj => hji (h.apart j i r hj hi)

omit [DecidableEq ι] in
theorem PostPc.sending_eq (h : pc.addr = some r) (r' : Nat) (hr : pc.sending = some r') : r' = r :=
  Option.some.inj ((PostPc.addr_of_sending hr).symm.trans h)

omit [DecidableEq ι] in
theorem PostPc.addr_eq (h : pc.addr = some r ∨ pc.addr = none) (r' : Nat)
    (hr : pc.addr = some r') : r' = r := by
  rcases h with h | h
  · exact Option.some.inj (hr.symm.trans h)
  · rw [h] at hr
    cases hr

/-- A step that changes neither packets nor handles. -/
theorem CalledInv.move (h : CalledInv x) (s' : Senders ι) (pc' : PostPc)
    (hi : (x.senders.pc i).addr = some r) (haddr : pc'.addr = some r ∨ pc'.addr = none)
    (hsend : pc'.sending = (x.senders.pc i).sending)
    (hpkt : s'.pkt = x.senders.pkt) (hsender : s'.sender = x.senders.sender)
    (hpc : s'.pc = x.senders.pc) {call : ι → PostCall} (hcall : ∀ j, j ≠ i → call j = x.call j)
    (hok : pc'.Ok x.senders (call i)) (hset : pc'.Set x.senders)
    {ended : List (PostCall × Packet × Bool)}
    (hended : ∀ y ∈ ended, y ∈ x.ended ∨ y.1.Atomic y.2.1 y.2.2) :
    CalledInv ⟨s'.setPc i pc', call, ended⟩ := by
  have hhandle (k : Nat) : (s'.setPc i pc').handle k = x.senders.handle k := by
    simp only [Senders.handle, Senders.setPc, hpkt, hsender]
  have hpc' : (s'.setPc i pc').pc = Function.update x.senders.pc i pc' := by
    rw [← hpc]
    rfl
  refine h.step ⟨h.own hi, PostPc.sending_eq hi, hpc', PostPc.addr_eq haddr,
    fun k _ => congrFun hpkt k, congrArg Packet.type (congrFun hpkt r),
    fun t _ => congrFun hsender t, ?_, hcall, hok.congr (fun k _ => congrFun hpkt k)
      fun k _ => hhandle k, hset.congr fun k _ => hhandle k, hended⟩
  cases hsending : (x.senders.pc i).sending with
  | none => exact .inl ⟨hsend.trans hsending, rfl, hhandle r⟩
  | some r' =>
    obtain rfl := PostPc.sending_eq hi r' hsending
    refine .inr (.inl ⟨hsend.trans hsending, ?_, .inl rfl⟩)
    rw [hhandle]
    exact h.locked i r' hsending

/-- A step that changes the handle. -/
theorem CalledInv.use (h : CalledInv x) (pc' : PostPc) (hd : Handle)
    (hi : (x.senders.pc i).addr = some r) (haddr : pc'.addr = some r ∨ pc'.addr = none)
    (hlock : pc'.sending = some r ∧ hd.spin = true ∧
        ((x.senders.pc i).sending = some r ∨ (x.senders.handle r).spin = false) ∨
      pc'.sending = none ∧ hd.spin = false ∧ (x.senders.pc i).sending = some r)
    (hok : pc'.Ok (x.senders.setHandle r hd) (x.call i))
    (hset : pc'.Set (x.senders.setHandle r hd)) :
    CalledInv ⟨(x.senders.setHandle r hd).setPc i pc', x.call, x.ended⟩ := by
  have hhandle : (x.senders.setHandle r hd).handle r = hd := Function.update_self _ _ _
  refine h.step ⟨h.own hi, PostPc.sending_eq hi, rfl, PostPc.addr_eq haddr, fun _ _ => rfl, rfl,
    fun t ht => Function.update_of_ne ht _ _, .inr ?_, fun _ _ => rfl,
    hok.congr (fun _ _ => rfl) fun _ _ => rfl, hset.congr fun _ _ => rfl, fun y hy => .inl hy⟩
  rw [← hhandle] at hlock
  exact hlock

/-- The thread adds one to `attempt`. -/
theorem inv_attempt (h : CalledInv x) (hpc : x.senders.pc i = .attempt r) :
    CalledInv ⟨(x.senders.setPkt r
      { x.senders.pkt r with attempt := (x.senders.pkt r).attempt + 1 }).setPc i (.fetchLock r),
      x.call, x.ended⟩ := by
  have hok := h.ok i
  rw [hpc] at hok
  obtain ⟨hpkt, hsent, hreplies⟩ := hok
  let pkt := { x.senders.pkt r with attempt := (x.senders.pkt r).attempt + 1 }
  have hself : (x.senders.setPkt r pkt).pkt r = pkt := Function.update_self _ _ _
  have haddr : (x.senders.pc i).addr = some r := by rw [hpc]; rfl
  refine h.step ⟨h.own haddr, PostPc.sending_eq haddr, rfl, PostPc.addr_eq (.inl rfl),
    fun r' hr => Function.update_of_ne hr _ _, (congrArg Packet.type hself :), fun _ _ => rfl,
    .inl ⟨rfl, by rw [hpc]; rfl, Senders.handle_setPkt rfl⟩, fun _ _ => rfl,
    ⟨?_, hsent, hreplies⟩, trivial,
    fun y hy => .inl hy⟩
  rw [← hpkt]
  exact hself

/-- The reply comes in: `response` is stored into the packet that was sent. -/
theorem inv_receive (h : CalledInv x) (hpc : x.senders.pc i = .receive r) (reply : Reply) :
    CalledInv ⟨postStep x.senders i reply,
      Function.update x.call i
        { x.call i with replies := (x.call i).replies ++ [reply] }, x.ended⟩ := by
  have hok := h.ok i
  have hset := h.set i
  have hlocked := h.locked i r
  rw [hpc] at hok hset hlocked
  obtain ⟨hpkt, hsent, hreplies, hready⟩ := hok
  let hd := { x.senders.handle r with responseCode := reply.status }
  let pkt := { x.senders.pkt r with
    response := (deliver reply.chunks (x.senders.pkt r).response).1 }
  let s' := (x.senders.setHandle r hd).setPkt r pkt
  have hstep : postStep x.senders i reply = s'.setPc i (.getInfo r
      ((deliver reply.chunks (x.senders.pkt r).response).2 && reply.curlOk)) := by
    have hdata : (x.senders.handle r).writeData = some r := hset
    simp only [postStep, hpc, hdata, s', pkt, hd]
  have hself : s'.pkt r = pkt := Function.update_self _ _ _
  have hhandle : s'.handle r = hd := by
    have hset : (x.senders.setHandle r hd).handle r = hd := Function.update_self _ _ _
    rw [← hset]
    exact Senders.handle_setPkt rfl
  rw [hstep]
  have haddr : (x.senders.pc i).addr = some r := by rw [hpc]; rfl
  refine h.step ⟨h.own haddr, PostPc.sending_eq haddr, rfl, PostPc.addr_eq (.inl rfl),
    fun r' hr => Function.update_of_ne hr _ _, (congrArg Packet.type hself :),
    fun t ht => Function.update_of_ne ht _ _,
    .inr (.inl ⟨rfl, (congrArg Handle.spin hhandle).trans (hlocked rfl), .inl (by rw [hpc]; rfl)⟩),
    fun j hj => Function.update_of_ne hj _ _, ?_, trivial, fun y hy => .inl hy⟩
  dsimp only
  rw [Function.update_self]
  refine ⟨reply, by rw [hreplies]; rfl, hsent, hready, hself.trans ?_,
    congrArg Handle.responseCode hhandle, ?_⟩
  · simp only [pkt, hpkt, post, hready, if_true]
  · rw [hpkt]

theorem inv_thread (h : CalledInv x) (i : ι) (reply : Reply) :
    CalledInv (calledStep x (.thread i reply)) := by
  have hok := h.ok i
  have hset := h.set i
  have hsame : ∀ y ∈ x.ended, y ∈ x.ended ∨ y.1.Atomic y.2.1 y.2.2 := fun y hy => .inl hy
  simp only [calledStep, senderStep, Called.note, Called.finished]
  cases hpc : x.senders.pc i with
  | idle =>
    simp only [postStep, hpc]
    exact h
  | attempt r =>
    simp only [postStep, hpc]
    exact inv_attempt h hpc
  | fetchLock r =>
    simp only [postStep, hpc]
    split
    · exact h
    · rw [hpc] at hok
      exact h.move (x.senders.setSpin r true) (.fetchState r) (by rw [hpc]; rfl) (.inl rfl)
        (by rw [hpc]; rfl) rfl rfl rfl (fun _ _ => rfl) hok trivial hsame
  | fetchState r =>
    simp only [postStep, hpc]
    rw [hpc] at hok
    obtain ⟨hpkt, hsent, hreplies⟩ := hok
    refine h.move x.senders (.fetchUnlock r _) (by rw [hpc]; rfl) (.inl rfl) (by rw [hpc]; rfl) rfl
      rfl rfl (fun _ _ => rfl) ⟨hpkt, hsent, hreplies, ?_⟩ trivial hsame
    rw [hpkt]
  | fetchUnlock r ready =>
    simp only [postStep, hpc]
    rw [hpc] at hok
    obtain ⟨hpkt, hsent, hreplies, hready⟩ := hok
    cases ready with
    | true =>
      have hready : (x.call i).before.state = .ready := of_decide_eq_true hready.symm
      exact h.move (x.senders.setSpin r false) (.lock r) (by rw [hpc]; rfl) (.inl rfl)
        (by rw [hpc]; rfl) rfl rfl rfl (fun _ _ => rfl) ⟨hpkt, hsent, hreplies, hready⟩ trivial
        hsame
    | false =>
      have hready : (x.call i).before.state ≠ .ready := of_decide_eq_false hready.symm
      have hatomic : (x.call i).Atomic (x.senders.pkt r) false := by
        rw [PostCall.Atomic, if_neg hready, hpkt]
        refine ⟨hreplies, hsent, fun reply => ?_⟩
        simp only [post, hready, if_false]
      exact h.move (x.senders.setSpin r false) (.ret r false) (by rw [hpc]; rfl) (.inl rfl)
        (by rw [hpc]; rfl) rfl rfl rfl (fun _ _ => rfl) hatomic trivial hsame
  | lock r =>
    simp only [postStep, hpc]
    split
    · exact h
    · rename_i hspin
      rw [hpc] at hok
      exact h.use (.setFields r) _ (by rw [hpc]; rfl) (.inl rfl)
        (.inl ⟨rfl, rfl, .inr (Bool.eq_false_of_not_eq_true hspin)⟩) hok trivial
  | setFields r =>
    simp only [postStep, hpc]
    rw [hpc] at hok
    have hlocked := h.locked i r (by rw [hpc]; rfl)
    let hd := { x.senders.handle r with postFields := some r }
    have hself : (x.senders.setHandle r hd).handle r = hd := Function.update_self _ _ _
    exact h.use (.setData r) hd (by rw [hpc]; rfl) (.inl rfl)
      (.inl ⟨rfl, hlocked, .inl (by rw [hpc]; rfl)⟩) hok (congrArg Handle.postFields hself :)
  | setData r =>
    simp only [postStep, hpc]
    rw [hpc] at hok hset
    have hlocked := h.locked i r (by rw [hpc]; rfl)
    let hd := { x.senders.handle r with writeData := some r }
    have hself : (x.senders.setHandle r hd).handle r = hd := Function.update_self _ _ _
    exact h.use (.transmit r) hd (by rw [hpc]; rfl) (.inl rfl)
      (.inl ⟨rfl, hlocked, .inl (by rw [hpc]; rfl)⟩) hok
      ⟨(congrArg Handle.postFields hself).trans hset, congrArg Handle.writeData hself⟩
  | transmit r =>
    rw [hpc] at hok hset
    obtain ⟨hpkt, hsent, hreplies, hready⟩ := hok
    obtain ⟨hfields, hdata⟩ := hset
    simp only [postStep, hpc, hfields]
    let request := ((x.senders.pkt r).type, (x.senders.pkt r).body)
    have hok' : (PostPc.receive r).Ok x.senders
        { x.call i with sent := (x.call i).sent ++ [request] } :=
      ⟨hpkt, by simp only [request, hsent, hpkt]; rfl, hreplies, hready⟩
    rw [← Function.update_self i { x.call i with sent := (x.call i).sent ++ [request] } x.call]
      at hok'
    exact h.move { x.senders with wire := request :: x.senders.wire } (.receive r)
      (by rw [hpc]; rfl) (.inl rfl) (by rw [hpc]; rfl) rfl rfl rfl
      (fun j hj => Function.update_of_ne hj _ _) hok' hdata hsame
  | receive r => exact inv_receive h hpc reply
  | getInfo r curlOk =>
    simp only [postStep, hpc]
    rw [hpc] at hok
    obtain ⟨reply, hreplies, hsent, hready, hpost, hcode, hcurl⟩ := hok
    have hatomic : (x.call i).Atomic (x.senders.pkt r) (curlOk &&
        ((x.senders.handle r).responseCode = 202 || (x.senders.handle r).responseCode = 200)) := by
      rw [PostCall.Atomic, if_pos hready]
      refine ⟨reply, hreplies, hsent, Prod.ext hpost.symm ?_⟩
      rw [hcode, hcurl]
      simp only [post, hready, if_true]
    exact h.move x.senders (.unlock r _) (by rw [hpc]; rfl) (.inl rfl) (by rw [hpc]; rfl) rfl
      rfl rfl (fun _ _ => rfl) hatomic trivial hsame
  | unlock r ok =>
    simp only [postStep, hpc]
    rw [hpc] at hok
    exact h.use (.ret r ok) _ (by rw [hpc]; rfl) (.inl rfl)
      (.inr ⟨rfl, rfl, by rw [hpc]; rfl⟩) hok trivial
  | ret r ok =>
    simp only [postStep, hpc]
    rw [hpc] at hok
    refine h.move x.senders .idle (by rw [hpc]; rfl) (.inr rfl) (by rw [hpc]; rfl) rfl rfl rfl
      (fun _ _ => rfl) trivial trivial fun y hy => ?_
    rcases List.mem_cons.mp hy with rfl | hold
    · exact .inr hok
    · exact .inl hold

theorem inv_call (h : CalledInv x) {act : SenderAct ι} (hact : Apart x act) :
    CalledInv (calledStep x act) := by
  cases act with
  | thread i reply => exact inv_thread h i reply
  | post i r =>
    obtain ⟨hidle, hfree⟩ := hact
    simp only [calledStep, senderStep, Called.note, Called.finished, hidle]
    have hnone : (x.senders.pc i).sending = none := by rw [hidle]; rfl
    have hbefore (r' : Nat) (hr : (x.senders.pc i).sending = some r') : r' = r := by
      rw [hnone] at hr
      cases hr
    refine h.step ⟨fun j _ => hfree j, hbefore, rfl,
      PostPc.addr_eq (.inl rfl), fun _ _ => rfl, rfl, fun _ _ => rfl,
      .inl ⟨rfl, hnone, rfl⟩, fun j hj => Function.update_of_ne hj _ _, ?_, trivial,
      fun y hy => .inl hy⟩
    dsimp only
    rw [Function.update_self]
    exact ⟨rfl, rfl, rfl⟩
  | otherSpin r spin =>
    exact ⟨h.apart, h.locked, h.held, h.exclusive,
      fun j => (h.ok j).congr (fun _ _ => rfl) fun _ _ => rfl,
      fun j => (h.set j).congr fun _ _ => rfl, h.ended⟩
  | other r pkt =>
    have hpkt {j : ι} {r' : Nat} (hj : (x.senders.pc j).addr = some r') :
        (x.senders.setPkt r pkt).pkt r' = x.senders.pkt r' := by
      refine Function.update_of_ne ?_ _ _
      rintro rfl
      exact hact j hj
    have hhandle {j : ι} {r' : Nat} (hj : (x.senders.pc j).sending = some r') :
        (x.senders.setPkt r pkt).handle r' = x.senders.handle r' := by
      rw [Senders.handle, Senders.handle, hpkt (PostPc.addr_of_sending hj)]
      rfl
    refine ⟨h.apart, fun j r' hj => ?_, fun t ht => ?_, fun j k r₁ r₂ hj hk ht => ?_,
      fun j => ?_, fun j => ?_, h.ended⟩
    · exact (congrArg Handle.spin (hhandle hj)).trans (h.locked j r' hj)
    · obtain ⟨j, r', hj, htype⟩ := h.held t ht
      exact ⟨j, r', hj, (congrArg Packet.type (hpkt (PostPc.addr_of_sending hj))).trans htype⟩
    · refine h.exclusive j k r₁ r₂ hj hk ?_
      rw [← hpkt (PostPc.addr_of_sending hj), ← hpkt (PostPc.addr_of_sending hk)]
      exact ht
    · exact (h.ok j).congr (fun _ hj => hpkt hj) fun _ hj => hhandle hj
    · exact (h.set j).congr fun _ hj => hhandle hj

/-! ## Runs -/

omit [DecidableEq ι] in
theorem inv_start (pkt : Nat → Packet) : CalledInv (Called.start pkt : Called ι) where
  apart _ _ _ h := by cases h
  locked _ _ h := by cases h
  held _ h := by cases h
  exclusive _ _ _ _ h := by cases h
  ok _ := trivial
  set _ := trivial
  ended _ h := by cases h

theorem senders_run (x : Called ι) (acts : List (SenderAct ι)) :
    (run calledStep x acts).senders = run senderStep x.senders acts := by
  induction acts generalizing x with
  | nil => rfl
  | cons act acts ih => exact ih _

/-- However the threads interleave, no handle is used by two of them, and each call of `post`
that has returned did what `post` does alone: it sent the payload of its own packet, and the
response in this packet and the value returned are those of the reply to it. -/
theorem posts_atomic (pkt : Nat → Packet) (acts : List (SenderAct ι))
    (h : Along calledStep Apart (Called.start pkt) acts) :
    let x := run calledStep (Called.start pkt) acts
    x.senders = run senderStep (Senders.start pkt) acts ∧
      (∀ i j r r', (x.senders.pc i).sending = some r → (x.senders.pc j).sending = some r' →
        (x.senders.pkt r).type = (x.senders.pkt r').type → i = j) ∧
      ∀ y ∈ x.ended, y.1.Atomic y.2.1 y.2.2 := by
  have hinv : CalledInv (run calledStep (Called.start pkt) acts) :=
    invariant_along (fun _ _ hact h => inv_call h hact) h (inv_start pkt)
  exact ⟨senders_run _ acts, hinv.exclusive, hinv.ended⟩

/-- Two plugins register at the same time, and the server accepts both. -/
def bothRegister : List (SenderAct Bool) :=
  [.post false 0, .post true 1] ++
    (List.replicate 20 [.thread false ⟨[], true, 202⟩, .thread true ⟨[], true, 200⟩]).flatten

theorem posts_atomic_both :
    let pkt := fun _ => { packetAlloc .register with state := .ready }
    let x := run calledStep (Called.start pkt) bothRegister
    x.ended.length = 2 ∧ ∀ y ∈ x.ended, y.1.Atomic y.2.1 y.2.2 := by
  intro pkt x
  exact ⟨by decide, (posts_atomic pkt bothRegister (by decide)).2.2⟩

end MonitoringAgent
