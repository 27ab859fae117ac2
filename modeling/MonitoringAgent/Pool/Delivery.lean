import MonitoringAgent.Plugin.Retry
import MonitoringAgent.Pool.Push
import MonitoringAgent.Pool.Safety

/-!
# Replies that accept a packet

`post` has three callers, and each of them repeats a post that failed. Whether it did
depends on the status, on the transfer, and on what the write callback returns.
-/
namespace MonitoringAgent

open Buffer Transition Packet

/-- A visit of the storage thread to packet `k`, from the test of its state to the step
to the next one, with nobody else at work. -/
def visit {ι : Type} (s : Pool ι) (r : Reply) : Pool ι :=
  run storageStep s (List.replicate 7 r)

/-- The reply ends the attempts at whatever was posted: `post` returns 0, a metric packet
is DONE and is not posted again before `get_packet` takes it, and nothing is left to be
sent of a registration or an alert. -/
structure AcceptedOnce (r : Reply) : Prop where
  post : ∀ pkt : Packet, pkt.state = .ready → (post pkt r).2 = true
  metric : ∀ (ι : Type) (s : Pool ι) (k : Nat), s.storage = .check k →
    (s.pkt k).state = .ready → (s.heap k).spin = false →
    ((visit s r).pkt k).state = .done ∧ (visit s r).storage = .next k
  again : ∀ (ι : Type) [DecidableEq ι] (license : Text) (tid : ι → UInt64) (s : Pool ι) (k : Nat)
    (acts : List (PoolAct ι)), s.storage = .check k → (s.pkt k).state = .ready →
    (s.heap k).spin = false →
    (∀ pre, pre <+: acts →
      ((run (poolStep license tid) (visit s r) pre).pkt k).state = .done) →
    (run (poolStep license tid) (visit s r) acts).storage ≠ .send k
  register : ∀ (m : Meta) (p : Plugin) (i : TaskInput), i.reply = r →
    (∀ pkt, p.oob = some pkt → pkt.state = .ready) →
    (pluginRegr m p i).1.oob = none ∧ (pluginRegr m p i).1.task = .gather
  alert : ∀ (m : Meta) (p : Plugin) (stat : Status) (i : TaskInput), i.reply = r →
    (∀ pkt, p.oob = some pkt → pkt.state = .ready) →
    (pluginAlert m p stat i).1.oob = none ∧ (pluginAlert m p stat i).1.task = .gather

variable {r : Reply} {pkt : Packet}

/-- The callback returns 0, so the transfer goes on only as long as nothing is delivered. -/
theorem deliver_iff (chunks : List Text) (response : Int) :
    (deliver chunks response).2 = true ↔ chunks.flatten = [] := by
  induction chunks generalizing response with
  | nil => simp [deliver]
  | cons ptr rest ih =>
    rw [deliver, List.flatten_cons, List.append_eq_nil_iff]
    by_cases hptr : ptr = []
    · rw [if_pos (by simp [callback, hptr]), ih]
      simp [hptr]
    · rw [if_neg]
      · simp [hptr]
      · intro hlen
        exact hptr (List.length_eq_zero_iff.mp hlen.symm)

theorem success_iff (hok : r.curlOk = true) (hstatus : r.status = 200 ∨ r.status = 202) :
    r.success = true ↔ r.body = [] := by
  have hst : (r.status = 202 || r.status = 200) = true := by simpa [or_comm] using hstatus
  rw [Reply.success, hok, hst, Bool.and_true, Bool.and_true, deliver_iff, Reply.body]

theorem pluginAlert_success (h : r.success = true) (m : Meta) (p : Plugin) (stat : Status)
    {i : TaskInput} (hi : i.reply = r) (hready : ∀ pkt, p.oob = some pkt → pkt.state = .ready) :
    (pluginAlert m p stat i).1.oob = none ∧ (pluginAlert m p stat i).1.task = .gather := by
  have hstate : (p.oob.getD (alertPacket m.license p.tid stat)).state = .ready := by
    cases hoob : p.oob with
    | none => rfl
    | some pkt => exact hready pkt hoob
  have hpost := (post_of_ready hstate i.reply).1
  rw [hi, h] at hpost
  simp only [pluginAlert, hi, hpost, if_true]
  exact ⟨rfl, rfl⟩

theorem pluginRegr_success (h : r.success = true) (m : Meta) (p : Plugin) {i : TaskInput}
    (hi : i.reply = r) (hready : ∀ pkt, p.oob = some pkt → pkt.state = .ready) :
    (pluginRegr m p i).1.oob = none ∧ (pluginRegr m p i).1.task = .gather := by
  have hpost := (post_of_ready (state_pluginRegrPacket (m := m) i.clock hready) i.reply).1
  rw [hi, h, ← hi] at hpost
  rw [pluginRegr_accepted (p := p) hpost]
  exact ⟨rfl, rfl⟩

theorem transfer_snd (pkt : Packet) (r : Reply) : (transfer pkt r).2 = r.success := by
  rw [Reply.success, deliver_snd r.chunks 0 pkt.response]
  rfl

/-- The seven steps of a visit to a READY packet whose post succeeds. -/
theorem visit_success {ι : Type} {s : Pool ι} {k : Nat} (h : r.success = true)
    (hst : s.storage = .check k) (hready : (s.pkt k).state = .ready)
    (hspin : (s.heap k).spin = false) :
    ((visit s r).pkt k).state = .done ∧ (visit s r).storage = .next k := by
  have htransfer : ∀ pkt : Packet, (transfer pkt r).2 = true := fun pkt =>
    (transfer_snd pkt r).trans h
  rw [Pool.pkt] at hready
  simp only [visit, List.replicate, run_cons, run_nil, storageStep, hst, hready, if_true]
  simp [Pool.setPkt, Pool.setSpin, Pool.setCell, Pool.pkt, hspin, htransfer]

section again

variable {ι : Type} [DecidableEq ι] {license : Text} {tid : ι → UInt64} {s : Pool ι} {k : Nat}

/-- The storage thread does not turn to a packet that is DONE. -/
theorem posting_step (hdone : (s.pkt k).state = .done) (h : s.storage.posting.cell ≠ some k)
    (act : PoolAct ι) : (poolStep license tid s act).storage.posting.cell ≠ some k := by
  cases act with
  | call i c =>
    simp only [poolStep]
    split <;> exact h
  | pass =>
    simp only [poolStep]
    split
    · exact Option.some_ne_none k ∘ Eq.symm
    · exact h
  | plugin i =>
    rw [poolStep, pluginStep_storage]
    exact h
  | storage reply =>
    intro hcell
    simp only [poolStep, storageStep] at hcell
    cases hst : s.storage with
    | idle => simp [hst, StoragePc.posting, Posting.cell] at hcell
    | loadHead =>
      rw [hst] at hcell
      dsimp only at hcell
      split at hcell <;> cases hcell
    | check r =>
      rw [hst] at hcell
      dsimp only at hcell
      split at hcell
      · next hready =>
        cases hcell
        exact absurd (hdone.symm.trans hready) (by decide)
      · cases hcell
    | attempt r =>
      rw [hst] at h hcell
      exact h hcell
    | fetchLock r =>
      simp only [hst] at h hcell
      split at hcell
      · rw [hst] at hcell
        exact h hcell
      · exact h hcell
    | fetchState r =>
      rw [hst] at h hcell
      dsimp only at hcell
      generalize decide ((s.heap r).pkt.state = .ready) = ready at hcell
      cases ready with
      | false => cases hcell
      | true => exact h hcell
    | fetchUnlock r ready =>
      rw [hst] at h hcell
      cases ready with
      | false => cases hcell
      | true => exact h hcell
    | send r =>
      rw [hst] at h hcell
      dsimp only at hcell
      split at hcell
      · exact h hcell
      · cases hcell
    | markDone r =>
      rw [hst] at hcell
      cases hcell
    | next r =>
      rw [hst] at hcell
      dsimp only at hcell
      split at hcell <;> cases hcell

theorem posting_run (acts : List (PoolAct ι)) (h : s.storage.posting.cell ≠ some k)
    (hdone : ∀ pre, pre <+: acts → ((run (poolStep license tid) s pre).pkt k).state = .done) :
    (run (poolStep license tid) s acts).storage.posting.cell ≠ some k := by
  induction acts generalizing s with
  | nil => exact h
  | cons act acts ih =>
    rw [run_cons]
    refine ih (posting_step (hdone [] (List.nil_prefix)) h act) fun pre hpre => ?_
    exact hdone (act :: pre) (List.cons_prefix_cons.mpr ⟨rfl, hpre⟩)

end again

/-- A reply with status 200 or 202 and a complete transfer is taken for what it is exactly
when it has no body. -/
theorem accepted_once_iff (r : Reply) (hok : r.curlOk = true)
    (hstatus : r.status = 200 ∨ r.status = 202) : AcceptedOnce r ↔ r.body = [] := by
  rw [← success_iff hok hstatus]
  constructor
  · intro h
    have hready : ({ packetAlloc .metric with state := .ready } : Packet).state = .ready := rfl
    rw [← (post_of_ready hready r).1]
    exact h.post _ hready
  · intro h
    refine ⟨fun pkt hready => (post_of_ready hready r).1.trans h, ?_, ?_, ?_, ?_⟩
    · exact fun ι s k hst hready hspin => visit_success h hst hready hspin
    · intro ι _ license tid s k acts hst hready hspin hdone hsend
      obtain ⟨-, hnext⟩ := visit_success h hst hready hspin
      have hidle : (visit s r).storage.posting.cell ≠ some k := by
        rw [hnext]
        exact (Option.some_ne_none k).symm
      refine posting_run acts hidle hdone ?_
      rw [hsend]
      rfl
    · exact fun m p i hi hready => pluginRegr_success h m p hi hready
    · exact fun m p stat i hi hready => pluginAlert_success h m p stat hi hready

theorem accepted_once_no_body : AcceptedOnce ⟨[], true, 202⟩ :=
  (accepted_once_iff ⟨[], true, 202⟩ rfl (Or.inr rfl)).mpr rfl

/-- A server that answers a metric packet with status 200 and the body `ok`. -/
theorem body_ok_refused : ¬ AcceptedOnce ⟨[str "ok"], true, 200⟩ := by
  intro h
  have hpost := h.post { packetAlloc .metric with state := .ready } rfl
  exact absurd hpost (by decide)

end MonitoringAgent
