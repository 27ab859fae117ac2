import MonitoringAgent.Message.Report
import MonitoringAgent.Pool.Ledger
import MonitoringAgent.Sender.Interleaving

/-!
# What has arrived

The requests that a post returned 0 for, beside the ledger of the pool. In every
interleaving a server reads from their bodies the samples of all calls but those that stand
in packets still to be posted, each once, under the target that gathered it.
-/
namespace MonitoringAgent

open Buffer Command Json Transition Packet

variable {ι : Type}

/-- The ledger, and each packet that was accepted with its use, the last one first. -/
structure Inbox (ι : Type) where
  ledger : Ledger ι
  posts : List (Packet × Use ι)

namespace Inbox

def start : Inbox ι := ⟨Ledger.start, []⟩

def pool (x : Inbox ι) : Pool ι := x.ledger.traced.pool

def use (x : Inbox ι) : Nat → Use ι := x.ledger.traced.use

end Inbox

def inboxStep [DecidableEq ι] (license : Text) (tid : ι → UInt64) (x : Inbox ι)
    (act : PoolAct ι) : Inbox ι where
  ledger := ledgerStep license tid x.ledger act
  posts := (x.ledger.traced.delivered act).toList ++ x.posts

/-- The calls in packets that have not been accepted. -/
def Ledger.waiting (x : Ledger ι) : List (ι × GatherCall) :=
  below (fun u => if u.posts = 0 then u.calls else []) x.traced.pool.count x.traced.use

/-- The samples of the calls that left a record. -/
def samplesOf (sample : GatherCall → Sample) (calls : List (ι × GatherCall)) :
    List (ι × Epoch × Sample) :=
  (calls.map fun x => (x.1, x.2.start, sample x.2)).filter fun x => x.2.2.kept ≠ []

variable {m : Meta} {license : Text} {tid : ι → UInt64} {t t' : Traced ι} {i : ι} {r : Nat}
  {u u' : Use ι} {pkt : Packet} {sample : GatherCall → Sample}

/-! ## One packet -/

/-- Every call found the packet at rest. -/
def Use.Resumed (m : Meta) (tid : ι → UInt64) (u : Use ι) : Prop :=
  ∀ xs i c, u.calls = xs ++ [(i, c)] →
    ({ u with calls := xs }.packet m.license tid).AtRest m.license (tid i) (xs.map Prod.snd)

theorem Use.Resumed.congr (h : u.Resumed m tid) (hbase : u'.base = u.base)
    (hcalls : u'.calls = u.calls) : u'.Resumed m tid := by
  intro xs i c hxs
  have hrest := h xs i c (hcalls.symm.trans hxs)
  rw [Use.packet] at hrest ⊢
  rw [hbase]
  exact hrest

theorem Use.resumed_of_nil (h : u.calls = []) : u.Resumed m tid := by
  intro xs i c hxs
  rw [h] at hxs
  exact absurd hxs (by simp)

/-- The payload of a READY packet holds its text, with room for the terminator. -/
theorem MadeBy.holds (h : MadeBy m tid i pkt u) (hresumed : u.Resumed m tid)
    (hfit : FitsAll m.license (tid i) none (u.calls.map Prod.snd)) :
    (readyText m.license (tid i) u.records).length < pktsz ∧
      Holds pkt.payload (readyText m.license (tid i) u.records) := by
  have htext := h.text hfit
  obtain ⟨hsize, hpayload⟩ := h.bytes
  rcases List.eq_nil_or_concat u.calls with hnil | ⟨xs, ⟨j, c⟩, hxs⟩
  · refine absurd ?_ h.records
    rw [Use.records, hnil]
    rfl
  · rw [List.concat_eq_append] at hxs
    obtain rfl : j = i := h.calls (j, c) (by rw [hxs]; simp)
    have hrest := hresumed xs j c hxs
    have hcs : u.calls.map Prod.snd = xs.map Prod.snd ++ [c] := by rw [hxs, List.map_append]; rfl
    have hpacket : u.packet m.license tid =
        ((gatherBody m.license (tid j) c).exec Packet.effects
          ({ u with calls := xs }.packet m.license tid)).2 := by
      rw [Use.packet, hxs, List.foldl_append]
      rfl
    rw [hcs] at hfit
    obtain ⟨hall, hroom⟩ := fitsAll_concat.mp hfit
    obtain ⟨-, hleft⟩ := gatherBody_left hrest hfit
    rw [← hpacket] at hleft
    have hrecords : c.records (inUseAfter (xs.map Prod.snd)) = u.records := by
      rw [hrest.call_records hall, Use.records, hcs]
    have hne : c.records (inUseAfter (xs.map Prod.snd)) ≠ [] := hrecords ▸ h.records
    cases hexp : expired (startOf (inUseAfter (xs.map Prod.snd)) c) c.now with
    | true =>
      have hlen := c.room_ready hroom hexp hne
      have hholds := (hleft.finished hexp hne).2.holds hlen
      rw [hrecords] at hlen hholds
      rw [hpayload]
      exact ⟨hlen, hholds⟩
    | false =>
      -- otherwise the text would not have its end
      have hfilled := hleft.inUse hexp
      have hmetric := hfilled.tracks.text_eq (c.room_fits hroom (hrest.fits hall))
      rw [Packet.text, ← hsize, ← hpayload, ← Packet.text, htext, hrecords] at hmetric
      have hlength := congrArg List.length hmetric
      rw [readyText, List.length_append] at hlength
      exact absurd hlength (by simp [str])

theorem GatherCall.record?_sample {c : GatherCall} {s : Sample} (h : c.gather = s.gatherer) :
    c.record? = s.record c.start := by
  rw [record?, emitted, h]
  rfl

theorem recordsOf_samples {calls : List (ι × GatherCall)}
    (h : ∀ x ∈ calls, x.2.gather = (sample x.2).gatherer) :
    recordsOf (calls.map Prod.snd) = (samplesOf sample calls).map fun x => recordOf x.2 := by
  induction calls with
  | nil => rfl
  | cons x calls ih =>
    obtain ⟨hx, hcalls⟩ := List.forall_mem_cons.mp h
    rw [List.map_cons, recordsOf, List.filterMap_cons, ← recordsOf, ih hcalls,
      GatherCall.record?_sample hx, Sample.record_eq, samplesOf, samplesOf, List.map_cons,
      List.filter_cons]
    by_cases hkept : (sample x.2).kept = []
    · simp [hkept]
    · simp [hkept, recordOf]

theorem samplesOf_eq_nil {calls : List (ι × GatherCall)}
    (h : ∀ x ∈ calls, x.2.gather = (sample x.2).gatherer)
    (hrecords : recordsOf (calls.map Prod.snd) = []) : samplesOf sample calls = [] := by
  rw [recordsOf_samples h] at hrecords
  exact List.map_eq_nil_iff.mp hrecords

theorem samplesOf_kept {calls : List (ι × GatherCall)} :
    ∀ x ∈ samplesOf sample calls,
      (∃ y ∈ calls, y.1 = x.1 ∧ sample y.2 = x.2.2) ∧ x.2.2.kept ≠ [] := by
  intro x hx
  obtain ⟨hmem, hkept⟩ := List.mem_filter.mp hx
  obtain ⟨y, hy, rfl⟩ := List.mem_map.mp hmem
  exact ⟨⟨y, hy, rfl, rfl⟩, of_decide_eq_true hkept⟩

/-- The text of the packet, and what a post of it sends. -/
def Packet.Carries (pkt : Packet) (t : Text) : Prop := pkt.text = t ∧ (0 ∉ t → pkt.body = t)

/-- A plugin has made the packet, and if all texts fit it carries the records of this use. -/
def Use.CarriedBy (m : Meta) (tid : ι → UInt64) (u : Use ι) (pkt : Packet) : Prop :=
  ∃ i, u.owner = some i ∧
    (FitsAll m.license (tid i) none (u.calls.map Prod.snd) →
      pkt.Carries (readyText m.license (tid i) u.records))

/-- The bytes that are sent end at the NUL behind the text. -/
theorem MadeBy.body_eq (h : MadeBy m tid i pkt u) (hresumed : u.Resumed m tid)
    (hfit : FitsAll m.license (tid i) none (u.calls.map Prod.snd))
    (hnul : 0 ∉ readyText m.license (tid i) u.records) :
    pkt.body = readyText m.license (tid i) u.records := by
  obtain ⟨hlen, hholds⟩ := h.holds hresumed hfit
  exact hholds.cstr_slice hnul hlen

theorem MadeBy.carried (h : MadeBy m tid i pkt u) (hresumed : u.Resumed m tid) :
    u.CarriedBy m tid pkt :=
  ⟨i, h.owner, fun hfit => ⟨h.text hfit, h.body_eq hresumed hfit⟩⟩

/-- What a server reads from a packet that was accepted. -/
theorem MadeBy.read_back (h : MadeBy m tid i pkt u) (hresumed : u.Resumed m tid)
    (hfit : FitsAll m.license (tid i) none (u.calls.map Prod.snd)) (hlicense : Clean m.license)
    (hsamples : ∀ x ∈ u.calls, x.2.gather = (sample x.2).gatherer ∧ Readable (sample x.2)) :
    Report.read .metric pkt.body =
      some (.ofSamples m.license (tid i) ((samplesOf sample u.calls).map Prod.snd)) := by
  have hread : ∀ x ∈ (samplesOf sample u.calls).map Prod.snd, Readable x.2 ∧ x.2.kept ≠ [] := by
    rw [List.forall_mem_map]
    intro x hx
    obtain ⟨⟨y, hy, -, hsample⟩, hkept⟩ := samplesOf_kept x hx
    rw [← hsample]
    exact ⟨(hsamples y hy).2, hsample ▸ hkept⟩
  have hrecords : u.records = ((samplesOf sample u.calls).map Prod.snd).map recordOf := by
    rw [Use.records, recordsOf_samples fun x hx => (hsamples x hx).1, List.map_map]
    rfl
  have hvalue : Value (readyText m.license (tid i) u.records) := by
    rw [hrecords, ← recordsOfSamples_live fun x hx => (hread x hx).2]
    refine value_metric hlicense fun x hx => ?_
    exact (hread x (kept_of_live x hx).1).1
  have hnul : (0 : Byte) ∉ readyText m.license (tid i) u.records :=
    fun hmem => hvalue.nul_notMem 0 hmem rfl
  rw [h.body_eq hresumed hfit hnul, hrecords]
  exact metric_read_back hlicense hread

/-! ## One step -/

def Use.settled (u : Use ι) : List (Use ι) := if u.posts = 1 then [u] else []

theorem Use.settled_of_waiting (h : u.posts = 0) : u.settled = [] :=
  if_neg (by rw [h]; exact Nat.zero_ne_one)

theorem next_type (pkt : Packet) (o : PacketOp) : (pkt.next o).type = pkt.type := by
  cases o <;> rfl

/-- All packets of the pool are for metrics. -/
theorem Move.metric [DecidableEq ι] {v v' : View ι} (hmove : Move license tid v v')
    (h : ∀ r, (v.pkt r).type = .metric) : ∀ r, (v'.pkt r).type = .metric := by
  have hupdate (r : Nat) (pkt : Packet) (hpkt : pkt.type = .metric) (r' : Nat) :
      (Function.update v.pkt r pkt r').type = .metric :=
    update_holds (P := fun pkt : Packet => pkt.type = .metric) (fun _ => hpkt) fun _ => h r'
  cases hmove with
  | quiet => exact h
  | reset | fresh => exact hupdate _ _ rfl
  | op i r o k hbusy => exact hupdate r _ ((next_type _ o).trans (h r))
  | take | call | leave | find | attempt | abandon | refuse | accept | finish =>
    exact hupdate _ _ (h _)

theorem PoolInv.sending (h : PoolInv m tid t) (hsend : t.pool.storage = .send r) :
    (t.pool.pkt r).state = .ready ∧ (t.use r).posts = 0 := by
  have htrying : t.view.posting = .trying r := congrArg StoragePc.posting hsend
  obtain ⟨hready, -⟩ := h.view.trying htrying
  obtain ⟨-, -, hposts⟩ := (h.view.cell r).ready hready
  refine ⟨hready, ?_⟩
  have hone : (t.use r).posts ≠ 1 := fun he => absurd (htrying.symm.trans (hposts.mp he)) nofun
  have honce := (h.view.cell r).once
  change (t.use r).posts ≤ 1 at honce
  omega

section histories

variable {e : Option (Use ι)} {b : Option (ι × GatherCall)} {d : Option (Packet × Use ι)}

theorem Histories.resumed (hstep : Histories t t' e b d) (h : PoolInv m tid t)
    (hresumed : ∀ r, (t.use r).Resumed m tid) (r : Nat) : (t'.use r).Resumed m tid := by
  have hupdate (r' : Nat) (u : Use ι) (hu : u.Resumed m tid) :
      (Function.update t.use r' u r).Resumed m tid :=
    update_holds (P := fun u : Use ι => u.Resumed m tid) (fun _ => hu) fun _ => hresumed r
  cases hstep with
  | same hcount huse => exact huse ▸ hresumed r
  | taken i r' hdone hcount huse => exact huse ▸ hupdate r' _ (Use.resumed_of_nil rfl)
  | fresh i hcount huse => exact huse ▸ hupdate _ _ (Use.resumed_of_nil rfl)
  | noted i r' o hfills hcount huse =>
    rw [huse]
    refine hupdate r' _ ((hresumed r').congr ?_ ((t.use r').calls_noted _ _))
    unfold Use.noted
    split <;> rfl
  | posted r' hsend hcount huse => exact huse ▸ hupdate r' _ ((hresumed r').congr rfl rfl)
  | called i r' c hrest hcount huse =>
    rw [huse]
    refine hupdate r' _ fun xs j c' hxs => ?_
    obtain ⟨rfl, hlast⟩ := List.append_inj' hxs rfl
    obtain ⟨rfl, -⟩ := Prod.mk.inj (List.cons.inj hlast).1
    obtain ⟨hpkt, hatrest⟩ := (h.held_rest hrest).content
    rw [hpkt] at hatrest
    exact hatrest

theorem Histories.settled (hstep : Histories t t' e b d) (h : PoolInv m tid t) :
    ((d.toList.map Prod.snd) ++ below Use.settled t.pool.count t.use).Perm
      (e.toList.flatMap Use.settled ++ below Use.settled t'.pool.count t'.use) := by
  cases hstep with
  | same hcount huse => simp [hcount, huse]
  | taken i r hdone hcount huse =>
    let u : Use ι := .begun i ((t.pool.pkt r).recycle .metric)
    have hsettled := below_update Use.settled t.use (h.lt_of_done hdone) u
    simpa [hcount, huse, u, Use.settled_of_waiting (rfl : u.posts = 0)] using hsettled.symm
  | fresh i hcount huse =>
    have hnone : (Use.begun i (packetAlloc .metric)).settled = [] := Use.settled_of_waiting rfl
    simp [hcount, huse, below_succ Use.settled t.use hnone]
  | called i r c hrest hcount huse =>
    have hposts := (h.held_rest hrest).posts
    have hcalled : ((t.use r).called i c).posts = 0 := hposts
    have hsame : ((t.use r).called i c).settled = (t.use r).settled :=
      (Use.settled_of_waiting hcalled).trans (Use.settled_of_waiting hposts).symm
    simp [hcount, huse, below_same Use.settled hsame]
  | noted i r o hfills hcount huse =>
    have hposts := (h.held hfills).posts
    have hnoted : ((t.use r).noted ((t.pool.pkt r).next o) o).posts = 0 := by
      unfold Use.noted
      split <;> exact hposts
    have hsame : ((t.use r).noted ((t.pool.pkt r).next o) o).settled = (t.use r).settled :=
      (Use.settled_of_waiting hnoted).trans (Use.settled_of_waiting hposts).symm
    simp [hcount, huse, below_same Use.settled hsame]
  | posted r hsend hcount huse =>
    obtain ⟨hready, hposts⟩ := h.sending hsend
    have hsettled := below_update Use.settled t.use (h.lt_of_ready hready) (t.use r).posted
    have hone : (t.use r).posted.settled = [(t.use r).posted] := by
      simp [Use.settled, Use.posted, hposts]
    rw [Use.settled_of_waiting hposts, hone, List.nil_append] at hsettled
    simpa [hcount, huse] using hsettled.symm

/-- What is delivered is the work of one plugin. -/
theorem Histories.delivered (hstep : Histories t t' e b d) (h : PoolInv m tid t)
    (hmetric : ∀ r, (t.pool.pkt r).type = .metric) (hresumed : ∀ r, (t.use r).Resumed m tid) :
    ∀ y ∈ d, y.1.type = .metric ∧ y.2.Resumed m tid ∧ ∃ i, MadeBy m tid i y.1 y.2 := by
  cases hstep with
  | posted r hsend hcount huse =>
    obtain ⟨hready, -⟩ := h.sending hsend
    obtain ⟨⟨i, hmade⟩, -⟩ := (h.view.cell r).ready hready
    rintro y ⟨⟩
    exact ⟨hmetric r, (hresumed r).congr rfl rfl, i, hmade.congr ⟨rfl, rfl⟩ rfl rfl rfl⟩
  | _ => exact fun y hy => absurd hy (Option.not_mem_none y)

/-- The calls on a packet stand in the order in which they were made. -/
theorem Histories.ordered (hstep : Histories t t' e b d) {made : List (ι × GatherCall)}
    (h : ∀ r, (t.use r).calls.Sublist made) :
    (∀ r, (t'.use r).calls.Sublist (made ++ b.toList)) ∧
      ∀ y ∈ d, y.2.calls.Sublist (made ++ b.toList) := by
  have hleft (r : Nat) : (t.use r).calls.Sublist (made ++ b.toList) :=
    (h r).trans (List.sublist_append_left made b.toList)
  have hupdate (r' : Nat) (u : Use ι) (hu : u.calls.Sublist (made ++ b.toList)) (r : Nat) :
      (Function.update t.use r' u r).calls.Sublist (made ++ b.toList) :=
    update_holds (P := fun u : Use ι => u.calls.Sublist (made ++ b.toList)) (fun _ => hu)
      fun _ => hleft r
  have hnone : ∀ y ∈ (none : Option (Packet × Use ι)), y.2.calls.Sublist (made ++ b.toList) :=
    fun y hy => absurd hy (Option.not_mem_none y)
  cases hstep with
  | same hcount huse => exact ⟨huse ▸ hleft, hnone⟩
  | taken i r hdone hcount huse => exact ⟨huse ▸ hupdate r _ (List.nil_sublist _), hnone⟩
  | fresh i hcount huse => exact ⟨huse ▸ hupdate _ _ (List.nil_sublist _), hnone⟩
  | called i r c hrest hcount huse =>
    exact ⟨huse ▸ hupdate r _ ((h r).append_right [(i, c)]), hnone⟩
  | noted i r o hfills hcount huse =>
    refine ⟨huse ▸ hupdate r _ ?_, hnone⟩
    rw [Use.calls_noted]
    exact hleft r
  | posted r hsend hcount huse =>
    refine ⟨huse ▸ hupdate r _ (hleft r), ?_⟩
    rintro y ⟨⟩
    exact hleft r

end histories

/-! ## Calls that were asked for -/

/-- The call that has yet to begin on a packet. -/
def PluginPc.call : PluginPc → Option GatherCall
  | idle | body _ _ | clearWorking => none
  | readWorking c | scanHead c | scanCas c _ | scanNext c _ | recycle c _ | storeSpin c _
  | alloc c | testHead c _ | casHead c _ | loadLock c _ | acquire c _ _ | linkLoad c _ _
  | linkStore c _ _ _ | storeHead c _ _ | release c _ _ | setWorking c _ | loadWorking c => some c

section asked

variable [DecidableEq ι] {s : Pool ι} {j : ι} {c : GatherCall}

theorem call_resume (r : Nat) (prog : PacketM (GatherError × Bool)) :
    (PluginPc.resume r prog).call = none := by
  unfold PluginPc.resume
  split <;> rfl

theorem pluginStep_call (license : Text) (tid : ι → UInt64) (s : Pool ι) (i j : ι) :
    ((pluginStep license tid s i).pc j).call = none ∨
      ((pluginStep license tid s i).pc j).call = (s.pc j).call := by
  by_cases hji : j = i
  · subst hji
    have hset (s' : Pool ι) (pc : PluginPc) : ((s'.setPc j pc).pc j).call = pc.call := by
      change (Function.update s'.pc j pc j).call = pc.call
      rw [Function.update_self]
    simp only [pluginStep]
    cases hpc : s.pc j with
    | idle => exact .inr (by rw [hpc])
    | readWorking c =>
      refine .inr ((hset _ _).trans ?_)
      cases s.working j <;> rfl
    | scanHead c =>
      refine .inr ((hset _ _).trans ?_)
      cases s.head <;> rfl
    | scanNext c r =>
      refine .inr ((hset _ _).trans ?_)
      cases (s.heap r).next <;> rfl
    | testHead c r =>
      refine .inr ((hset _ _).trans ?_)
      cases s.head <;> rfl
    | scanCas c r =>
      dsimp only
      split <;> exact .inr (hset _ _)
    | acquire c r l =>
      dsimp only
      split
      · exact .inr (by rw [hpc])
      · exact .inr (hset _ _)
    | casHead c r =>
      cases s.head <;> exact .inr (hset _ _)
    | loadLock c r =>
      cases s.head with
      | none => exact .inr (by rw [hpc])
      | some l => exact .inr (hset _ _)
    | loadWorking c =>
      cases s.working j with
      | none => exact .inr (by rw [hpc])
      | some r => exact .inl (hset _ _)
    | body r prog =>
      cases prog <;> exact .inl ((hset _ _).trans (call_resume _ _))
    | clearWorking => exact .inl (hset _ _)
    | _ => exact .inr (hset _ _)
  · rw [pluginStep_pc_of_ne hji]
    exact .inr rfl

/-- All calls of the run meet `P`, those that have begun and those that have not. -/
structure Asked (P : GatherCall → Prop) (x : Ledger ι) : Prop where
  pending : ∀ i c, (x.traced.pool.pc i).call = some c → P c
  made : ∀ y ∈ x.made, P y.2

theorem asked_step {P : GatherCall → Prop} {x : Ledger ι} (h : Asked P x) {act : PoolAct ι}
    (hact : ∀ i c, act = .call i c → P c) : Asked P (ledgerStep license tid x act) where
  pending := by
    intro j c hcall
    cases act with
    | call i c' =>
      simp only [ledgerStep, tracedStep, poolStep] at hcall
      split at hcall
      · change (Function.update x.traced.pool.pc i (.readWorking c') j).call = some c at hcall
        by_cases hji : j = i
        · subst hji
          rw [Function.update_self] at hcall
          exact Option.some.inj hcall ▸ hact j c' rfl
        · rw [Function.update_of_ne hji] at hcall
          exact h.pending j c hcall
      · exact h.pending j c hcall
    | plugin i =>
      change ((pluginStep license tid x.traced.pool i).pc j).call = some c at hcall
      rcases pluginStep_call license tid x.traced.pool i j with hnone | hsame
      · rw [hnone] at hcall
        cases hcall
      · exact h.pending j c (hsame.symm.trans hcall)
    | pass =>
      simp only [ledgerStep, tracedStep, poolStep] at hcall
      split at hcall <;> exact h.pending j c hcall
    | storage reply =>
      change ((storageStep x.traced.pool reply).pc j).call = some c at hcall
      rw [(sameList_storage x.traced.pool reply).pc] at hcall
      exact h.pending j c hcall
  made := by
    intro y hy
    rcases List.mem_append.mp hy with hold | hnew
    · exact h.made y hold
    · have hbegun := Option.mem_toList.mp hnew
      cases act with
      | plugin i =>
        simp only [Traced.begun] at hbegun
        split at hbegun
        · rename_i c hpc
          obtain ⟨r, -, rfl⟩ := Option.map_eq_some_iff.mp hbegun
          exact h.pending i c (by rw [hpc]; rfl)
        · cases hbegun
      | call i c | pass | storage reply => cases hbegun

end asked

/-! ## Runs -/

structure InboxInv (m : Meta) (tid : ι → UInt64) (P : GatherCall → Prop) (x : Inbox ι) :
    Prop where
  ledger : LedgerInv m tid x.ledger
  asked : Asked P x.ledger
  metric : ∀ r, (x.pool.pkt r).type = .metric
  resumed : ∀ r, (x.use r).Resumed m tid
  posts : ∀ y ∈ x.posts, y.1.type = .metric ∧ y.2.Resumed m tid ∧ ∃ i, MadeBy m tid i y.1 y.2
  settled : (x.posts.map Prod.snd).Perm
    (x.ledger.past.flatMap Use.settled ++ below Use.settled x.pool.count x.use)
  ordered : ∀ r, (x.use r).calls.Sublist x.ledger.made
  arrived : ∀ y ∈ x.posts, y.2.calls.Sublist x.ledger.made

variable {P : GatherCall → Prop} {x : Inbox ι}

theorem inboxInv_start (m : Meta) (tid : ι → UInt64) (P : GatherCall → Prop) :
    InboxInv m tid P (Inbox.start : Inbox ι) where
  ledger := ledgerInv_start m tid
  asked := ⟨fun _ _ hcall => absurd hcall nofun, List.forall_mem_nil _⟩
  metric := fun _ => rfl
  resumed := fun _ => Use.resumed_of_nil rfl
  posts := List.forall_mem_nil _
  settled := .refl []
  ordered := fun _ => List.nil_sublist []
  arrived := List.forall_mem_nil _

theorem inboxInv_step [DecidableEq ι] (h : InboxInv m tid P x) {act : PoolAct ι}
    (hact : ∀ i c, act = .call i c → P c) : InboxInv m tid P (inboxStep m.license tid x act) := by
  have hpool : PoolInv m tid x.ledger.traced := h.ledger.pool
  have hstep := histories_step m.license tid x.ledger.traced act
  refine ⟨ledgerInv_step h.ledger act, asked_step h.asked hact,
    (move_step hpool.tied act).metric h.metric, hstep.resumed hpool h.resumed, ?_, ?_, ?_, ?_⟩
  · intro y hy
    rcases List.mem_append.mp hy with hnew | hold
    · exact hstep.delivered hpool h.metric h.resumed y (Option.mem_toList.mp hnew)
    · exact h.posts y hold
  · let d := (x.ledger.traced.delivered act).toList.map Prod.snd
    let e := (x.ledger.traced.ended act).toList.flatMap Use.settled
    let p := x.ledger.past.flatMap Use.settled
    let b := below Use.settled x.pool.count x.use
    let b' := below Use.settled (tracedStep m.license tid x.ledger.traced act).pool.count
      (tracedStep m.license tid x.ledger.traced act).use
    have hsettled : (d ++ b).Perm (e ++ b') := hstep.settled hpool
    have hposts : (d ++ x.posts.map Prod.snd).Perm (d ++ (p ++ b)) := h.settled.append_left d
    have hswap : (d ++ (p ++ b)).Perm (p ++ (d ++ b)) := List.perm_append_comm_assoc d p b
    have hpast : (p ++ (e ++ b')).Perm (e ++ p ++ b') := by
      rw [List.append_assoc]
      exact List.perm_append_comm_assoc p e b'
    have hall := hposts.trans (hswap.trans ((hsettled.append_left p).trans hpast))
    simpa [inboxStep, ledgerStep, Inbox.pool, Inbox.use, d, e, p, b'] using hall
  · exact (hstep.ordered h.ordered).1
  · intro y hy
    rcases List.mem_append.mp hy with hnew | hold
    · exact (hstep.ordered h.ordered).2 y (Option.mem_toList.mp hnew)
    · exact (h.arrived y hold).trans (List.sublist_append_left _ _)

theorem pool_run_inboxStep [DecidableEq ι] (x : Inbox ι) (acts : List (PoolAct ι)) :
    (run (inboxStep license tid) x acts).pool = run (poolStep license tid) x.pool acts := by
  induction acts generalizing x with
  | nil => rfl
  | cons act acts ih => exact ih _

theorem samplesOf_perm {xs ys : List (ι × GatherCall)} (h : xs.Perm ys) :
    (samplesOf sample xs).Perm (samplesOf sample ys) :=
  (h.map _).filter _

theorem samplesOf_append (xs ys : List (ι × GatherCall)) :
    samplesOf sample (xs ++ ys) = samplesOf sample xs ++ samplesOf sample ys := by
  rw [samplesOf, List.map_append, List.filter_append]
  rfl

theorem samplesOf_flatMap {α : Type} (l : List α) (f : α → List (ι × GatherCall)) :
    samplesOf sample (l.flatMap f) = l.flatMap fun a => samplesOf sample (f a) := by
  induction l with
  | nil => rfl
  | cons a l ih => rw [List.flatMap_cons, samplesOf_append, ih, List.flatMap_cons]

/-- The samples of all calls are those that were accepted and those that wait. -/
theorem InboxInv.samples (h : InboxInv m tid P x)
    (hP : ∀ c, P c → c.gather = (sample c).gatherer) :
    (samplesOf sample x.ledger.made).Perm
      ((x.posts.flatMap fun y => samplesOf sample y.2.calls) ++
        samplesOf sample x.ledger.waiting) := by
  let f : Use ι → List (ι × Epoch × Sample) := fun u => samplesOf sample u.calls
  let w : Nat → List (ι × Epoch × Sample) := fun r =>
    samplesOf sample (if (x.use r).posts = 0 then (x.use r).calls else [])
  have hmade : ∀ y ∈ x.ledger.made, y.2.gather = (sample y.2).gatherer :=
    fun y hy => hP y.2 (h.asked.made y hy)
  have hpast : x.ledger.past.flatMap f =
      x.ledger.past.flatMap fun u => u.settled.flatMap f := by
    refine List.flatMap_congr fun u hu => ?_
    by_cases hone : u.posts = 1
    · simp [Use.settled, hone]
    · have hrecords := (h.ledger.past u hu).resolve_left hone
      have hcalls : ∀ y ∈ u.calls, y.2.gather = (sample y.2).gatherer := fun y hy => by
        refine hmade y (h.ledger.calls.mem_iff.mpr (List.mem_append_left _ ?_))
        exact List.mem_flatMap.mpr ⟨u, hu, hy⟩
      simp [Use.settled, hone, f, samplesOf_eq_nil hcalls hrecords]
  have hcell : ∀ r, f (x.use r) = (x.use r).settled.flatMap f ++ w r := by
    intro r
    have honce : (x.use r).posts ≤ 1 := (h.ledger.pool.view.cell r).once
    rcases Nat.le_one_iff_eq_zero_or_eq_one.mp honce with hzero | hone
    · simp [Use.settled, f, w, hzero]
    · have hnil : samplesOf sample ([] : List (ι × GatherCall)) = [] := rfl
      simp [Use.settled, f, w, hone, hnil]
  have hnow : samplesOf sample x.ledger.traced.calls =
      (List.range x.pool.count).flatMap fun r => (x.use r).settled.flatMap f ++ w r := by
    rw [Traced.calls, below, samplesOf_flatMap]
    exact List.flatMap_congr fun r _ => hcell r
  have hwaiting : samplesOf sample x.ledger.waiting = (List.range x.pool.count).flatMap w := by
    rw [Ledger.waiting, below, samplesOf_flatMap]
    rfl
  have hposts : (x.posts.flatMap fun y => samplesOf sample y.2.calls).Perm
      (x.ledger.past.flatMap (fun u => u.settled.flatMap f) ++
        (List.range x.pool.count).flatMap fun r => (x.use r).settled.flatMap f) := by
    have hflat := h.settled.flatMap_right f
    rwa [List.flatMap_map, List.flatMap_append, List.flatMap_assoc, below,
      List.flatMap_assoc] at hflat
  have hcalls : (samplesOf sample x.ledger.made).Perm
      (samplesOf sample (x.ledger.past.flatMap Use.calls ++ x.ledger.traced.calls)) :=
    samplesOf_perm h.ledger.calls
  rw [samplesOf_append, samplesOf_flatMap, hnow] at hcalls
  rw [hwaiting]
  refine hcalls.trans ?_
  change (x.ledger.past.flatMap f ++ _).Perm _
  rw [hpast]
  refine ((List.flatMap_append_perm _ _ _).symm.append_left _).trans ?_
  rw [← List.append_assoc]
  exact hposts.symm.append_right _

theorem flatMap_settled (l : List (Use ι)) :
    (l.flatMap Use.settled).flatMap Use.records =
      (l.filter (·.posts = 1)).flatMap Use.records := by
  induction l with
  | nil => rfl
  | cons u l ih =>
    rw [List.flatMap_cons, List.flatMap_append, ih, Use.settled]
    by_cases hone : u.posts = 1
    · simp [hone]
    · simp [hone]

/-- The records of the packets that were accepted are those that have been posted. -/
theorem InboxInv.accepted (h : InboxInv m tid P x) :
    (x.posts.flatMap fun y => y.2.records).Perm x.ledger.accepted := by
  have hnow : below Use.settled x.pool.count x.use =
      ((List.range x.pool.count).map x.use).flatMap Use.settled := by
    rw [below, List.flatMap_map]
  have hflat := h.settled.flatMap_right Use.records
  rw [List.flatMap_map, List.flatMap_append, hnow, flatMap_settled, flatMap_settled,
    List.filter_map, List.flatMap_map] at hflat
  exact hflat

/-- In every interleaving, the records that the calls have gathered are those of the packets
accepted so far, each accepted once, and those of the packets still to be posted. Where all
texts fit, the bytes that were posted are those of the records, a packet to be posted has
their text, and no packet with such records is free to be taken again. -/
theorem records_conserved [DecidableEq ι] (m : Meta) (tid : ι → UInt64)
    (acts : List (PoolAct ι)) :
    let x := run (inboxStep m.license tid) Inbox.start acts
    x.pool = run (poolStep m.license tid) Pool.start acts ∧
      (recordsOf (x.ledger.made.map Prod.snd)).Perm
        ((x.posts.flatMap fun y => y.2.records) ++ x.ledger.pending) ∧
      (∀ y ∈ x.posts, y.2.CarriedBy m tid y.1) ∧
      (∀ r, (x.use r).posts ≤ 1) ∧
      ∀ r, (x.use r).posts = 0 → (x.use r).records ≠ [] →
        (x.pool.pkt r).state ≠ .done ∧
        ((x.pool.pkt r).state = .ready → (x.use r).CarriedBy m tid (x.pool.pkt r)) ∧
        ∀ i, x.pool.hold i = .rest r →
          FitsAll m.license (tid i) none ((x.use r).calls.map Prod.snd) →
          (x.pool.pkt r).text = metricText m.license (tid i) (x.use r).records := by
  intro x
  have h : InboxInv m tid (fun _ => True) x :=
    invariant_run (fun _ act h => inboxInv_step h fun _ _ _ => trivial) (inboxInv_start m tid _)
  have hpool : PoolInv m tid x.ledger.traced := h.ledger.pool
  refine ⟨pool_run_inboxStep _ acts, ?_, fun y hy => ?_, fun r => (hpool.view.cell r).once,
    fun r hposts hrecords => ⟨fun hdone => ?_, fun hready => ?_, fun i hrest hfit => ?_⟩⟩
  · exact h.ledger.records.trans (h.accepted.symm.append_right _)
  · obtain ⟨-, hresumed, i, hmade⟩ := h.posts y hy
    exact hmade.carried hresumed
  · rcases ((hpool.view.cell r).done hdone).2 with haccepted | hnone
    · exact absurd (hposts.symm.trans haccepted) Nat.zero_ne_one
    · exact hrecords hnone
  · obtain ⟨⟨i, hmade⟩, -⟩ := (hpool.view.cell r).ready hready
    exact hmade.carried (h.resumed r)
  · obtain ⟨-, hatrest⟩ := (hpool.held_rest hrest).content
    exact hatrest.text_eq hfit hrecords

/-- What a server reads of one request, and where its samples come from. -/
structure Batch (license : Text) (tid : ι → UInt64) (sample : GatherCall → Sample)
    (y : Packet × Use ι) (b : ι × List (Epoch × Sample)) : Prop where
  read : Report.read y.1.type y.1.body = some (.ofSamples license (tid b.1) b.2)
  samples : samplesOf sample y.2.calls = b.2.map fun s => (b.1, s)
  nonempty : b.2 ≠ []

theorem InboxInv.batch (h : InboxInv m tid P x) (hlicense : Clean m.license)
    (hP : ∀ c, P c → c.gather = (sample c).gatherer ∧ Readable (sample c))
    {y : Packet × Use ι} (hy : y ∈ x.posts)
    (hfit : ∀ i, y.2.owner = some i → FitsAll m.license (tid i) none (y.2.calls.map Prod.snd)) :
    ∃ b, Batch m.license tid sample y b := by
  obtain ⟨htype, hresumed, i, hmade⟩ := h.posts y hy
  have hsamples : ∀ z ∈ y.2.calls, z.2.gather = (sample z.2).gatherer ∧ Readable (sample z.2) :=
    fun z hz => hP z.2 (h.asked.made z ((h.arrived y hy).subset hz))
  have hread := hmade.read_back hresumed (hfit i hmade.owner) hlicense hsamples
  refine ⟨(i, (samplesOf sample y.2.calls).map Prod.snd), htype ▸ hread, ?_, fun hnil => ?_⟩
  · have hown : ∀ z ∈ samplesOf sample y.2.calls, (i, z.2) = z := by
      intro z hz
      obtain ⟨⟨z', hz', hfst, -⟩, -⟩ := samplesOf_kept z hz
      rw [← hmade.calls z' hz', hfst]
    rw [List.map_map]
    exact ((List.map_congr_left hown).trans (List.map_id _)).symm
  · have hrecords := hmade.records
    rw [Use.records, recordsOf_samples fun z hz => (hsamples z hz).1,
      List.map_eq_nil_iff.mp hnil] at hrecords
    exact hrecords rfl

theorem exists_forall₂ {α β : Type} {R : α → β → Prop} {l : List α} (h : ∀ a ∈ l, ∃ b, R a b) :
    ∃ l', List.Forall₂ R l l' := by
  induction l with
  | nil => exact ⟨[], .nil⟩
  | cons a l ih =>
    obtain ⟨⟨b, hb⟩, hl⟩ := List.forall_mem_cons.mp h
    obtain ⟨l', hl'⟩ := ih hl
    exact ⟨b :: l', .cons hb hl'⟩

theorem batches_of_posts {posts : List (Packet × Use ι)}
    {batches : List (ι × List (Epoch × Sample))}
    (h : List.Forall₂ (Batch license tid sample) posts batches) :
    posts.map (fun y => Report.read y.1.type y.1.body) =
        batches.map (fun b => some (.ofSamples license (tid b.1) b.2)) ∧
      posts.flatMap (fun y => samplesOf sample y.2.calls) =
        batches.flatMap (fun b => b.2.map fun s => (b.1, s)) ∧
      ∀ b ∈ batches, ∃ y ∈ posts, Batch license tid sample y b := by
  induction h with
  | nil => exact ⟨rfl, rfl, List.forall_mem_nil _⟩
  | @cons y b posts batches hb _ ih =>
    obtain ⟨hread, hsamples, hmem⟩ := ih
    refine ⟨?_, ?_, List.forall_mem_cons.mpr ⟨⟨y, List.mem_cons_self, hb⟩, fun b' hb' => ?_⟩⟩
    · rw [List.map_cons, List.map_cons, hb.read, hread]
    · rw [List.flatMap_cons, List.flatMap_cons, hb.samples, hsamples]
    · obtain ⟨y', hy', hbatch⟩ := hmem b' hb'
      exact ⟨y', List.mem_cons_of_mem y hy', hbatch⟩

/-- In every interleaving, a server reads from the bodies of the accepted requests the samples
of all calls that left a record, each once, but for those in packets still to be posted. Each
body is read as samples of one target, in the order in which they were gathered. -/
theorem inbox_read_back [DecidableEq ι] (m : Meta) (tid : ι → UInt64)
    (sample : GatherCall → Sample) (acts : List (PoolAct ι)) (hlicense : Clean m.license)
    (hsamples : ∀ i c, .call i c ∈ acts → c.gather = (sample c).gatherer ∧ Readable (sample c))
    (hfit : ∀ y ∈ (run (inboxStep m.license tid) Inbox.start acts).posts, ∀ i,
      y.2.owner = some i → FitsAll m.license (tid i) none (y.2.calls.map Prod.snd)) :
    let x := run (inboxStep m.license tid) Inbox.start acts
    x.pool = run (poolStep m.license tid) Pool.start acts ∧
      ∃ batches : List (ι × List (Epoch × Sample)),
        x.posts.map (fun y => Report.read y.1.type y.1.body) =
          batches.map (fun b => some (.ofSamples m.license (tid b.1) b.2)) ∧
        (∀ b ∈ batches, b.2 ≠ [] ∧
          (b.2.map fun s => (b.1, s)).Sublist (samplesOf sample x.ledger.made)) ∧
        (samplesOf sample x.ledger.made).Perm
          ((batches.flatMap fun b => b.2.map fun s => (b.1, s)) ++
            samplesOf sample x.ledger.waiting) := by
  intro x
  have h : InboxInv m tid (fun c => c.gather = (sample c).gatherer ∧ Readable (sample c)) x := by
    refine invariant_of_mem (fun x' act hact h => inboxInv_step h fun i c hcall => ?_)
      (inboxInv_start m tid _)
    exact hsamples i c (hcall ▸ hact)
  refine ⟨pool_run_inboxStep _ acts, ?_⟩
  obtain ⟨batches, hbatches⟩ := exists_forall₂ fun y hy =>
    h.batch hlicense (fun _ hc => hc) hy (hfit y hy)
  have hsublist : ∀ y ∈ x.posts,
      (samplesOf sample y.2.calls).Sublist (samplesOf sample x.ledger.made) :=
    fun y hy => ((h.arrived y hy).map _).filter _
  obtain ⟨hread, hflat, hmem⟩ := batches_of_posts hbatches
  refine ⟨batches, hread, fun b hb => ?_, ?_⟩
  · obtain ⟨y, hy, hbatch⟩ := hmem b hb
    exact ⟨hbatch.nonempty, hbatch.samples ▸ hsublist y hy⟩
  · rw [← hflat]
    exact h.samples fun _ hc => hc.1

/-- One plugin gathers once, and a pass of the storage thread posts the packet. -/
def PoolAct.bash : List (PoolAct Unit) :=
  .call () ⟨1000, 8000, .fresh, Sample.bash.gatherer⟩ :: List.replicate 46 (.plugin ()) ++
    .pass :: List.replicate 7 (.storage ⟨[], true, 202⟩)

theorem inbox_read_back_bash :
    let tid : Unit → UInt64 := fun _ => Plugin.sample.tid
    let x := run (inboxStep Meta.sample.license tid) Inbox.start PoolAct.bash
    x.posts.length = 1 ∧ ∃ batches : List (Unit × List (Epoch × Sample)),
      x.posts.map (fun y => Report.read y.1.type y.1.body) =
        batches.map (fun b => some (.ofSamples Meta.sample.license (tid b.1) b.2)) ∧
      ∀ b ∈ batches, b.2 ≠ [] := by
  intro tid x
  have hfit : ∀ y ∈ x.posts, FitsAll Meta.sample.license Plugin.sample.tid none
      (y.2.calls.map Prod.snd) := by
    decide +kernel
  have hsamples : ∀ i c, .call i c ∈ PoolAct.bash →
      c.gather = Sample.bash.gatherer ∧ Readable Sample.bash := by
    intro i c hmem
    obtain ⟨-, rfl⟩ : i = () ∧ c = ⟨1000, 8000, .fresh, Sample.bash.gatherer⟩ := by
      simpa [PoolAct.bash] using hmem
    exact ⟨rfl, Sample.readable_bash⟩
  obtain ⟨-, batches, hread, hbatches, -⟩ := inbox_read_back Meta.sample tid
    (fun _ => Sample.bash) PoolAct.bash (by decide) hsamples fun y hy _ _ => hfit y hy
  refine ⟨by decide +kernel, batches, hread, fun b hb => (hbatches b hb).1⟩

end MonitoringAgent
