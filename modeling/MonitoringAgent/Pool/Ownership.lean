import MonitoringAgent.Gather.Use

/-!
# Who holds a packet

The pool as it looks from its packets: which plugin holds which of them, which one the
storage thread is posting, and what has happened in the present use of each. Only the
moves that matter to this are left; threads, list and locks are gone.
-/
namespace MonitoringAgent

open Buffer Command Packet

variable {ι : Type} {m : Meta} {tid : ι → UInt64}

/-- What a plugin has of the pool. -/
inductive Hold where
  | none
  /-- Taken from DONE, its other fields still as the last use left them. -/
  | taken (r : Nat)
  /-- In use and between two calls. -/
  | rest (r : Nat)
  /-- In the middle of a call. -/
  | busy (r : Nat) (prog : PacketM (GatherError × Bool))

def Hold.cell : Hold → Option Nat
  | none => .none
  | taken r | rest r | busy r _ => some r

/-- What is held once only `prog` of a call is left. -/
def Hold.after (r : Nat) : PacketM (GatherError × Bool) → Hold
  | .ret (_, true) => .none
  | .ret (_, false) => .rest r
  | prog => .busy r prog

/-- The packet the storage thread is posting, before and after `post` has returned 0. -/
inductive Posting where
  | idle
  | trying (r : Nat)
  | accepted (r : Nat)

def Posting.cell : Posting → Option Nat
  | idle => none
  | trying r | accepted r => some r

/-- The present use of a packet, which began when `get_packet` chose it. -/
structure Use (ι : Type) where
  owner : Option ι
  /-- As `get_packet` hands it out. -/
  base : Packet
  /-- The calls begun on it, each with the plugin that made it. -/
  calls : List (ι × GatherCall)
  /-- As it became READY. -/
  ready : Option Packet
  /-- How often a post of it returned 0. -/
  posts : Nat

namespace Use

def unused : Use ι := ⟨none, packetAlloc .metric, [], none, 0⟩

def begun (i : ι) (base : Packet) : Use ι := ⟨some i, base, [], none, 0⟩

def called (u : Use ι) (i : ι) (c : GatherCall) : Use ι := { u with calls := u.calls ++ [(i, c)] }

/-- A statement that leaves the packet as `pkt`. -/
def noted (u : Use ι) (pkt : Packet) : PacketOp → Use ι
  | .storeState .ready => { u with ready := some pkt }
  | _ => u

def posted (u : Use ι) : Use ι := { u with posts := u.posts + 1 }

/-- What the calls make of the packet when nobody else touches it. -/
def packet (license : Text) (tid : ι → UInt64) (u : Use ι) : Packet :=
  u.calls.foldl (fun pkt x => ((gatherBody license (tid x.1) x.2).exec Packet.effects pkt).2) u.base

def records (u : Use ι) : List Record := recordsOf (u.calls.map Prod.snd)

end Use

@[ext]
structure View (ι : Type) where
  pkt : Nat → Packet
  count : Nat
  hold : ι → Hold
  posting : Posting
  use : Nat → Use ι

namespace View

/-- A move of plugin `i` that concerns packet `r`. -/
def set [DecidableEq ι] (v : View ι) (i : ι) (r : Nat) (pkt : Packet) (u : Use ι) (hd : Hold)
    (count : Nat) : View ι where
  pkt := Function.update v.pkt r pkt
  count := count
  hold := Function.update v.hold i hd
  posting := v.posting
  use := Function.update v.use r u

/-- A move of the storage thread that concerns packet `r`. -/
def post (v : View ι) (r : Nat) (pkt : Packet) (u : Use ι) (posting : Posting) : View ι where
  pkt := Function.update v.pkt r pkt
  count := v.count
  hold := v.hold
  posting := posting
  use := Function.update v.use r u

end View

/-- The moves of the pool. -/
inductive Move [DecidableEq ι] (license : Text) (tid : ι → UInt64) : View ι → View ι → Prop where
  | quiet (v : View ι) : Move license tid v v
  | take (v : View ι) (i : ι) (r : Nat) (hnone : v.hold i = .none)
      (hdone : (v.pkt r).state = .done) :
      Move license tid v (v.set i r { v.pkt r with state := .empty }
        (.begun i ((v.pkt r).recycle .metric)) (.taken r) v.count)
  | reset (v : View ι) (i : ι) (r : Nat) (htaken : v.hold i = .taken r) :
      Move license tid v (v.set i r
        { v.pkt r with type := .metric, response := 0, size := 0, attempt := 0 }
        (v.use r) (.rest r) v.count)
  | fresh (v : View ι) (i : ι) (hnone : v.hold i = .none) :
      Move license tid v (v.set i v.count (packetAlloc .metric)
        (.begun i (packetAlloc .metric)) (.rest v.count) (v.count + 1))
  | call (v : View ι) (i : ι) (r : Nat) (c : GatherCall) (hrest : v.hold i = .rest r) :
      Move license tid v (v.set i r (v.pkt r) ((v.use r).called i c)
        (.busy r (gatherBody license (tid i) c)) v.count)
  | op (v : View ι) (i : ι) (r : Nat) (o : PacketOp)
      (k : o.Answer → PacketM (GatherError × Bool)) (hbusy : v.hold i = .busy r (.op o k)) :
      Move license tid v (v.set i r ((v.pkt r).next o) ((v.use r).noted ((v.pkt r).next o) o)
        (.after r (k ((v.pkt r).answer o))) v.count)
  | leave (v : View ι) (i : ι) (r : Nat) (a : GatherError × Bool)
      (hbusy : v.hold i = .busy r (.ret a)) :
      Move license tid v (v.set i r (v.pkt r) (v.use r) (.after r (.ret a)) v.count)
  | find (v : View ι) (r : Nat) (hidle : v.posting = .idle) (hready : (v.pkt r).state = .ready) :
      Move license tid v (v.post r (v.pkt r) (v.use r) (.trying r))
  | attempt (v : View ι) (r : Nat) (htrying : v.posting = .trying r) :
      Move license tid v (v.post r { v.pkt r with attempt := (v.pkt r).attempt + 1 } (v.use r)
        (.trying r))
  | abandon (v : View ι) (r : Nat) (htrying : v.posting = .trying r) :
      Move license tid v (v.post r (v.pkt r) (v.use r) .idle)
  | refuse (v : View ι) (r : Nat) (response : Int) (htrying : v.posting = .trying r) :
      Move license tid v (v.post r { v.pkt r with response := response } (v.use r) .idle)
  | accept (v : View ι) (r : Nat) (response : Int) (htrying : v.posting = .trying r) :
      Move license tid v (v.post r { v.pkt r with response := response } (v.use r).posted
        (.accepted r))
  | finish (v : View ι) (r : Nat) (haccepted : v.posting = .accepted r) :
      Move license tid v (v.post r { v.pkt r with state := .done } (v.use r) .idle)

/-! ## Calls on a packet that is in use -/

/-- A state in which the packet belongs to a plugin. -/
def PacketState.Open : PacketState → Prop
  | .empty | .begin | .wrote => True
  | .ready | .done | .free => False

/-- A statement that keeps the state open. -/
def PacketOp.KeepsOpen : PacketOp → Prop
  | .storeState st => st.Open
  | _ => True

/-- What may be left of a call: the packet is given up, if at all, by the last statement,
and only then is `p->working` cleared. -/
inductive Closing : PacketM (GatherError × Bool) → Prop where
  | ret (res : GatherError) : Closing (.ret (res, false))
  | last {st : PacketState} {k : Unit → PacketM (GatherError × Bool)} (res : GatherError)
      (hst : st = .ready ∨ st = .done) (hk : k () = .ret (res, true)) :
      Closing (.op (.storeState st) k)
  | op {o : PacketOp} {k : o.Answer → PacketM (GatherError × Bool)} (ho : o.KeepsOpen)
      (hk : ∀ a, Closing (k a)) : Closing (.op o k)

theorem Closing.bind {α : Type} {c : PacketM α} {f : α → PacketM (GatherError × Bool)}
    (h : c.Each PacketOp.KeepsOpen) (hf : ∀ a, Closing (f a)) : Closing (c >>= f) := by
  induction h with
  | ret a => exact hf a
  | op ho _ ih => exact .op ho ih

theorem packetGather_keepsOpen {func : PacketM GatherError} (tag : Text)
    (h : func.Each PacketOp.KeepsOpen) : (packetGather tag func).Each PacketOp.KeepsOpen := by
  refine .op trivial fun n => .op trivial fun _ => h.bind fun res => ?_
  split
  · exact .op trivial fun _ => .ret _
  · exact .op trivial fun _ => .ret _

theorem Gatherer.code_keepsOpen (g : Gatherer) : g.code.Each PacketOp.KeepsOpen := by
  induction g with
  | ret res => exact .ret res
  | append t k ih => exact .op trivial fun _ => ih
  | appendAfter f k ih => exact .op trivial fun _ => ih
  | gather tag func k ihf ihk => exact (packetGather_keepsOpen tag ihf).bind ihk

theorem gatherRecord_keepsOpen (license : Text) (tid : UInt64) (c : GatherCall) :
    (gatherRecord license tid c).Each PacketOp.KeepsOpen := by
  have hheader : (writeHeader license tid).Each PacketOp.KeepsOpen := by
    refine Each.bind (.perform trivial) fun st => ?_
    split
    · exact .op trivial fun _ => .op trivial .ret
    · exact .ret _
  have hstamp : (stampStart c.start).Each PacketOp.KeepsOpen := by
    refine Each.bind (.perform trivial) fun st => ?_
    split
    · exact .op trivial .ret
    · exact .ret _
  have hcomma : writeComma.Each PacketOp.KeepsOpen := by
    refine Each.bind (.perform trivial) fun st => ?_
    split
    · exact .op trivial .ret
    · exact .ret _
  refine hheader.bind fun _ => hstamp.bind fun _ => .op trivial fun _ => hcomma.bind fun _ => ?_
  exact .op trivial fun _ => packetGather_keepsOpen _ c.gather.code_keepsOpen

theorem settle_keepsOpen (res : GatherError) : (settle res).Each PacketOp.KeepsOpen := by
  cases res with
  | enone =>
    refine Each.bind (.perform trivial) fun _ => Each.bind (.perform trivial) fun st => ?_
    split
    · exact .op trivial fun _ => .op trivial .ret
    · exact .op trivial .ret
  | enodata | eplugup | eplugdown => exact .op trivial .ret

theorem closing_expire (now : Epoch) (res : GatherError) :
    Closing (expire now >>= fun retired => .ret (res, retired)) := by
  refine .op trivial fun started => ?_
  change Closing ((if expired started now = true then _ else _) >>= _)
  split
  · refine .op trivial fun st => ?_
    change Closing (((if st = .wrote then _ else _) >>= _) >>= _)
    split
    · exact .op trivial fun _ => .last res (.inl rfl) rfl
    · exact .last res (.inr rfl) rfl
  · exact .ret res

theorem closing_gatherBody (license : Text) (tid : UInt64) (c : GatherCall) :
    Closing (gatherBody license tid c) :=
  .bind (gatherRecord_keepsOpen license tid c) fun res =>
    .bind (settle_keepsOpen res) fun _ => closing_expire c.now res

/-! ## The invariant -/

/-- The same text would be posted. -/
def Packet.SameBytes (pkt pkt' : Packet) : Prop := pkt.size = pkt'.size ∧ pkt.payload = pkt'.payload

/-- A packet in the hands of plugin `i`, by what `i` holds of it. -/
structure Held (m : Meta) (tid : ι → UInt64) (i : ι) (pkt : Packet) (u : Use ι) (hd : Hold) :
    Prop where
  owner : u.owner = some i
  posts : u.posts = 0
  isOpen : pkt.state.Open
  calls : ∀ x ∈ u.calls, x.1 = i
  content : match hd with
    | .none => True
    | .taken _ => u.calls = [] ∧ pkt.state = .empty ∧ pkt.recycle .metric = u.base
    | .rest _ => pkt = u.packet m.license tid ∧
        pkt.AtRest m.license (tid i) (u.calls.map Prod.snd)
    | .busy _ prog => Closing prog ∧
        (prog.exec Packet.effects pkt).2 = u.packet m.license tid ∧
        if (prog.exec Packet.effects pkt).1.2 then
          (u.packet m.license tid).Retired m.license (tid i) (u.calls.map Prod.snd)
        else (u.packet m.license tid).AtRest m.license (tid i) (u.calls.map Prod.snd)

/-- The bytes of `pkt` come from calls of plugin `i` alone. -/
structure MadeBy (m : Meta) (tid : ι → UInt64) (i : ι) (pkt : Packet) (u : Use ι) : Prop where
  owner : u.owner = some i
  calls : ∀ x ∈ u.calls, x.1 = i
  bytes : pkt.SameBytes (u.packet m.license tid)
  header : pkt.Headed m.license (tid i)
  records : u.records ≠ []
  text : FitsAll m.license (tid i) none (u.calls.map Prod.snd) →
    pkt.text = readyText m.license (tid i) u.records

/-- What a READY or DONE packet was made of and what has become of it; `accepted` says
that the storage thread has just posted it. -/
structure CellOk (m : Meta) (tid : ι → UInt64) (pkt : Packet) (u : Use ι) (accepted : Prop) :
    Prop where
  once : u.posts ≤ 1
  ready : pkt.state = .ready → (∃ i, MadeBy m tid i pkt u) ∧
    (∃ p, u.ready = some p ∧ pkt.SameBytes p) ∧ (u.posts = 1 ↔ accepted)
  done : pkt.state = .done → u.owner ≠ none ∧ (u.posts = 1 ∨ u.records = [])

structure View.Inv (m : Meta) (tid : ι → UInt64) (v : View ι) : Prop where
  held : ∀ i r, (v.hold i).cell = some r → Held m tid i (v.pkt r) (v.use r) (v.hold i)
  cell : ∀ r, CellOk m tid (v.pkt r) (v.use r) (v.posting = .accepted r)
  posting : ∀ r, v.posting.cell = some r → (v.pkt r).state = .ready
  alloc : ∀ r, (v.use r).owner ≠ none → r < v.count

section invariant

variable {v : View ι} {i j : ι} {r : Nat} {pkt pkt' : Packet} {u : Use ι} {hd : Hold}
  {p : Posting} {accepted : Prop}

theorem CellOk.of_open (hst : pkt.state.Open) (hposts : u.posts = 0) :
    CellOk m tid pkt u accepted where
  once := by omega
  ready := fun h => by rw [h] at hst; exact hst.elim
  done := fun h => by rw [h] at hst; exact hst.elim

theorem View.Inv.not_held (h : v.Inv m tid) (hst : ¬ (v.pkt r).state.Open) (j : ι) :
    (v.hold j).cell ≠ some r := fun hj => hst (h.held j r hj).isOpen

theorem View.Inv.exclusive (h : v.Inv m tid) (hi : (v.hold i).cell = some r)
    (hj : (v.hold j).cell = some r) : i = j := by
  have hown := (h.held i r hi).owner
  rw [(h.held j r hj).owner] at hown
  exact (Option.some.inj hown).symm

theorem View.Inv.not_posting (h : v.Inv m tid) (hst : (v.pkt r).state ≠ .ready) :
    v.posting.cell ≠ some r := fun hp => hst (h.posting r hp)

theorem View.Inv.trying (h : v.Inv m tid) (ht : v.posting = .trying r) :
    (v.pkt r).state = .ready ∧ ∀ r', v.posting.cell = some r' → r' = r := by
  refine ⟨h.posting r (by rw [ht]; rfl), fun r' hr => ?_⟩
  rw [ht] at hr
  exact (Option.some.inj hr).symm

/-- What a move of one plugin has to show: everything else stays as it is. -/
theorem View.Inv.set [DecidableEq ι] (h : v.Inv m tid) {count : Nat}
    (hothers : ∀ j, j ≠ i → (v.hold j).cell ≠ some r) (hposting : v.posting.cell ≠ some r)
    (hcell : ∀ r', hd.cell = some r' → r' = r)
    (hheld : hd.cell = some r → Held m tid i pkt u hd) (hok : CellOk m tid pkt u False)
    (hcount : v.count ≤ count) (halloc : r < count) :
    (v.set i r pkt u hd count).Inv m tid where
  held := by
    intro j r' hj
    by_cases hji : j = i
    · subst hji
      simp only [View.set, Function.update_self] at hj ⊢
      obtain rfl := hcell r' hj
      simpa only [Function.update_self] using hheld hj
    · simp only [View.set, Function.update_of_ne hji] at hj ⊢
      have hne : r' ≠ r := fun he => hothers j hji (he ▸ hj)
      simpa only [Function.update_of_ne hne] using h.held j r' hj
  cell := by
    intro r'
    by_cases he : r' = r
    · subst he
      have hacc : ¬ v.posting = .accepted r' := fun hp => hposting (by rw [hp]; rfl)
      simpa only [View.set, Function.update_self, hacc] using hok
    · simpa only [View.set, Function.update_of_ne he] using h.cell r'
  posting := by
    intro r' hp
    have hne : r' ≠ r := fun he => hposting (he ▸ hp)
    simpa only [View.set, Function.update_of_ne hne] using h.posting r' hp
  alloc := by
    intro r' hown
    by_cases he : r' = r
    · exact he ▸ halloc
    · simp only [View.set, Function.update_of_ne he] at hown
      exact lt_of_lt_of_le (h.alloc r' hown) hcount

/-- A move of a plugin on the packet it holds. -/
theorem View.Inv.set_own [DecidableEq ι] (h : v.Inv m tid) (hi : (v.hold i).cell = some r)
    (hcell : ∀ r', hd.cell = some r' → r' = r)
    (hheld : hd.cell = some r → Held m tid i pkt u hd) (hok : CellOk m tid pkt u False) :
    (v.set i r pkt u hd v.count).Inv m tid := by
  have hown := h.held i r hi
  refine h.set (fun j hne hj => hne (h.exclusive hj hi)) (h.not_posting ?_) hcell hheld hok le_rfl
    (h.alloc r (by rw [hown.owner]; exact Option.some_ne_none i))
  intro hready
  have hopen := hown.isOpen
  rw [hready] at hopen
  exact hopen

/-- The same for the storage thread, which moves on a READY packet only. -/
theorem View.Inv.post (h : v.Inv m tid) (hready : (v.pkt r).state = .ready)
    (hold : ∀ r', v.posting.cell = some r' → r' = r) (hnew : ∀ r', p.cell = some r' → r' = r)
    (hst : p.cell = some r → pkt.state = .ready)
    (hok : CellOk m tid pkt u (p = .accepted r)) (howner : u.owner = (v.use r).owner) :
    (v.post r pkt u p).Inv m tid where
  held := by
    intro j r' hj
    have hne : r' ≠ r := by
      rintro rfl
      exact h.not_held (by rw [hready]; exact id) j hj
    simpa only [View.post, Function.update_of_ne hne] using h.held j r' hj
  cell := by
    intro r'
    by_cases he : r' = r
    · subst he
      simpa only [View.post, Function.update_self] using hok
    · have hacc : (p = .accepted r') = (v.posting = .accepted r') := by
        refine propext ⟨fun hp => ?_, fun hp => ?_⟩
        · exact absurd (hnew r' (by rw [hp]; rfl)) he
        · exact absurd (hold r' (by rw [hp]; rfl)) he
      simpa only [View.post, Function.update_of_ne he, hacc] using h.cell r'
  posting := by
    intro r' hp
    obtain rfl := hnew r' hp
    simpa only [View.post, Function.update_self] using hst hp
  alloc := by
    intro r' hown
    by_cases he : r' = r
    · subst he
      simp only [View.post, Function.update_self, howner] at hown
      exact h.alloc r' hown
    · simp only [View.post, Function.update_of_ne he] at hown
      exact h.alloc r' hown

/-! ## Moves of a plugin -/

theorem Use.packet_called (license : Text) (tid : ι → UInt64) (u : Use ι) (i : ι) (c : GatherCall) :
    (u.called i c).packet license tid =
      ((gatherBody license (tid i) c).exec Packet.effects (u.packet license tid)).2 := by
  simp [Use.packet, Use.called]

theorem Held.reset (h : Held m tid i pkt u (.taken r)) :
    Held m tid i { pkt with type := .metric, response := 0, size := 0, attempt := 0 } u
      (.rest r) := by
  obtain ⟨hcalls, hst, hbase⟩ := h.content
  have hpkt : { pkt with type := .metric, response := 0, size := 0, attempt := 0 } =
      u.packet m.license tid := by
    rw [Use.packet, hcalls, List.foldl_nil, ← hbase, Packet.recycle, hst]
  have hfresh : Packet.Fresh { pkt with type := .metric, response := 0, size := 0, attempt := 0 } :=
    ⟨hst, rfl⟩
  refine ⟨h.owner, h.posts, h.isOpen, h.calls, hpkt, ?_⟩
  rw [hcalls]
  exact hfresh.atRest m (tid i)

theorem held_fresh (m : Meta) (tid : ι → UInt64) (i : ι) (r : Nat) :
    Held m tid i (packetAlloc .metric) (.begun i (packetAlloc .metric)) (.rest r) where
  owner := rfl
  posts := rfl
  isOpen := trivial
  calls := fun _ hx => absurd hx List.not_mem_nil
  content := ⟨rfl, Packet.Fresh.atRest ⟨rfl, rfl⟩ m (tid i)⟩

theorem Held.call (h : Held m tid i pkt u (.rest r)) (c : GatherCall) :
    Held m tid i pkt (u.called i c) (.busy r (gatherBody m.license (tid i) c)) := by
  obtain ⟨hpkt, hrest⟩ := h.content
  have hmap : (u.called i c).calls.map Prod.snd = u.calls.map Prod.snd ++ [c] := by
    simp [Use.called]
  refine ⟨h.owner, h.posts, h.isOpen, ?_, closing_gatherBody _ _ _, ?_, ?_⟩
  · intro x hx
    rcases List.mem_append.mp hx with hold | hnew
    · exact h.calls x hold
    · rw [List.mem_singleton.mp hnew]
  · rw [Use.packet_called, hpkt]
  · rw [hmap, Use.packet_called, ← hpkt]
    cases hret : ((gatherBody m.license (tid i) c).exec Packet.effects pkt).1.2 with
    | true => exact hrest.retired c hret
    | false => exact hrest.call c hret

/-- The last statement of a call that gives its packet up. -/
theorem Held.last {k : Unit → PacketM (GatherError × Bool)} {st : PacketState} {res : GatherError}
    (h : Held m tid i pkt u (.busy r (.op (.storeState st) k)))
    (hst : st = .ready ∨ st = .done) (hk : k () = .ret (res, true)) :
    CellOk m tid { pkt with state := st }
      (u.noted { pkt with state := st } (.storeState st)) False := by
  obtain ⟨-, hpkt, hret⟩ := h.content
  have hexec : (Command.op (.storeState st) k).exec Packet.effects pkt =
      ((res, true), { pkt with state := st }) := by
    rw [exec_op]
    change (k ()).exec Packet.effects _ = _
    rw [hk]
    rfl
  rw [hexec] at hpkt hret
  dsimp only at hpkt hret
  rw [if_pos rfl, ← hpkt] at hret
  have hrecords := hret.state
  dsimp only at hrecords
  rcases hst with rfl | rfl
  · have hrs : u.records ≠ [] := by
      intro hnil
      rw [Use.records] at hnil
      simp [hnil] at hrecords
    have hmade : MadeBy m tid i { pkt with state := .ready } u := by
      refine ⟨h.owner, h.calls, ?_, hret.header, hrs, fun hfit => hret.text hfit hrs⟩
      rw [← hpkt]
      exact ⟨rfl, rfl⟩
    refine ⟨?_, fun _ => ⟨⟨i, ?_⟩, ⟨_, rfl, rfl, rfl⟩, ?_⟩, nofun⟩
    · simp [Use.noted, h.posts]
    · exact ⟨hmade.owner, hmade.calls, hmade.bytes, hmade.header, hmade.records, hmade.text⟩
    · simp [Use.noted, h.posts]
  · have hrs : u.records = [] := by
      by_contra hne
      rw [Use.records] at hne
      simp [hne] at hrecords
    exact ⟨by simp [Use.noted, h.posts], nofun, fun _ => ⟨by simp [Use.noted, h.owner], .inr hrs⟩⟩

/-- What is left of a call that keeps its packet. -/
theorem Held.after {prog : PacketM (GatherError × Bool)} (h : Held m tid i pkt u (.busy r prog)) :
    Held m tid i pkt u (.after r prog) := by
  obtain ⟨hclosing, hpkt, hret⟩ := h.content
  refine ⟨h.owner, h.posts, h.isOpen, h.calls, ?_⟩
  cases hclosing with
  | ret res =>
    rw [exec_ret] at hpkt hret
    rw [if_neg Bool.false_ne_true, ← hpkt] at hret
    exact ⟨hpkt, hret⟩
  | last res hst hk => exact ⟨.last res hst hk, hpkt, hret⟩
  | op ho hk => exact ⟨.op ho hk, hpkt, hret⟩

theorem PacketOp.KeepsOpen.noted {o : PacketOp} (ho : o.KeepsOpen) (u : Use ι) (pkt : Packet) :
    u.noted pkt o = u := by
  cases o with
  | storeState st =>
    cases st with
    | ready => exact ho.elim
    | empty | begin | wrote | done | free => rfl
  | _ => rfl

theorem PacketOp.KeepsOpen.next {o : PacketOp} (ho : o.KeepsOpen) (hst : pkt.state.Open) :
    (pkt.next o).state.Open := by
  cases o with
  | storeState st => exact ho
  | _ => exact hst

theorem Held.op {o : PacketOp} {k : o.Answer → PacketM (GatherError × Bool)}
    (h : Held m tid i pkt u (.busy r (.op o k))) (ho : o.KeepsOpen) (hk : ∀ a, Closing (k a)) :
    Held m tid i (pkt.next o) (u.noted (pkt.next o) o) (.after r (k (pkt.answer o))) := by
  obtain ⟨-, hpkt, hret⟩ := h.content
  rw [ho.noted]
  exact Held.after ⟨h.owner, h.posts, ho.next h.isOpen, h.calls, hk _, hpkt, hret⟩

theorem Hold.cell_after {prog : PacketM (GatherError × Bool)} {r' : Nat}
    (h : (Hold.after r prog).cell = some r') : r' = r := by
  unfold Hold.after at h
  split at h
  · exact absurd h nofun
  · exact (Option.some.inj h).symm
  · exact (Option.some.inj h).symm

/-! ## Moves of the storage thread -/

theorem MadeBy.congr (h : MadeBy m tid i pkt u) {u' : Use ι} (hb : pkt'.SameBytes pkt)
    (howner : u'.owner = u.owner) (hbase : u'.base = u.base) (hcalls : u'.calls = u.calls) :
    MadeBy m tid i pkt' u' := by
  obtain ⟨hsize, hpayload⟩ := hb
  have hpacket : u'.packet m.license tid = u.packet m.license tid := by
    rw [Use.packet, Use.packet, hbase, hcalls]
  have hrecords : u'.records = u.records := by rw [Use.records, Use.records, hcalls]
  refine ⟨howner.trans h.owner, hcalls ▸ h.calls, ?_, ⟨?_, ?_⟩, hrecords ▸ h.records, ?_⟩
  · rw [hpacket]
    exact ⟨hsize.trans h.bytes.1, hpayload.trans h.bytes.2⟩
  · rw [hsize]
    exact h.header.size
  · rw [hpayload]
    exact h.header.slice_eq
  · rw [hcalls, hrecords, Packet.text, hsize, hpayload]
    exact h.text

/-- A READY packet whose counters are changed stays what it was. -/
theorem CellOk.touched (h : CellOk m tid pkt u accepted) (hst : pkt.state = .ready)
    (hst' : pkt'.state = .ready) (hb : pkt'.SameBytes pkt) {accepted' : Prop}
    (hacc : accepted' ↔ accepted) : CellOk m tid pkt' u accepted' where
  once := h.once
  ready := by
    obtain ⟨⟨i, hmade⟩, ⟨p, hready, hsame⟩, hposts⟩ := h.ready hst
    exact fun _ => ⟨⟨i, hmade.congr hb rfl rfl rfl⟩,
      ⟨p, hready, hb.1.trans hsame.1, hb.2.trans hsame.2⟩, hposts.trans hacc.symm⟩
  done := fun hd => absurd (hst'.symm.trans hd) nofun

/-- A post that returned 0. -/
theorem CellOk.posted (h : CellOk m tid pkt u accepted) (hst : pkt.state = .ready)
    (hst' : pkt'.state = .ready) (hb : pkt'.SameBytes pkt) (hacc : ¬ accepted) :
    CellOk m tid pkt' u.posted True := by
  obtain ⟨⟨i, hmade⟩, ⟨p, hready, hsame⟩, hposts⟩ := h.ready hst
  have hone := h.once
  have hne : u.posts ≠ 1 := fun he => hacc (hposts.mp he)
  have hsucc : u.posted.posts = 1 := by
    change u.posts + 1 = 1
    omega
  refine ⟨hsucc.le, fun _ => ⟨⟨i, hmade.congr hb rfl rfl rfl⟩, ⟨p, hready, ?_⟩, by simp [hsucc]⟩,
    fun hd => absurd (hst'.symm.trans hd) nofun⟩
  exact ⟨hb.1.trans hsame.1, hb.2.trans hsame.2⟩

/-- A move of the storage thread while `post` has not returned. -/
theorem View.Inv.touch (h : v.Inv m tid) (ht : v.posting = .trying r)
    (hst : pkt.state = (v.pkt r).state) (hb : pkt.SameBytes (v.pkt r))
    (hp : p = .trying r ∨ p = .idle) : (v.post r pkt (v.use r) p).Inv m tid := by
  obtain ⟨hready, hposting⟩ := h.trying ht
  have hready' := hst.trans hready
  have hok : CellOk m tid pkt (v.use r) (p = .accepted r) := by
    refine (h.cell r).touched hready hready' hb ?_
    rcases hp with rfl | rfl <;> simp [ht]
  rcases hp with rfl | rfl
  · exact h.post hready hposting (fun _ hr => (Option.some.inj hr).symm) (fun _ => hready') hok rfl
  · exact h.post hready hposting nofun nofun hok rfl

theorem CellOk.finished (h : CellOk m tid pkt u accepted) (hst : pkt.state = .ready)
    (hacc : accepted) : CellOk m tid { pkt with state := .done } u False := by
  obtain ⟨⟨i, hmade⟩, -, hposts⟩ := h.ready hst
  refine ⟨h.once, nofun, fun _ => ⟨?_, .inl (hposts.mpr hacc)⟩⟩
  rw [hmade.owner]
  exact Option.some_ne_none i

end invariant

/-- Every move keeps the invariant. -/
theorem inv_move [DecidableEq ι] {v v' : View ι} (h : v.Inv m tid)
    (hmove : Move m.license tid v v') : v'.Inv m tid := by
  cases hmove with
  | quiet => exact h
  | take i r hnone hdone =>
    have hok := h.cell r
    refine h.set (fun j _ => h.not_held (by rw [hdone]; exact id) j)
      (h.not_posting (by rw [hdone]; simp)) (fun _ hr => (Option.some.inj hr).symm) ?_
      (.of_open trivial rfl) le_rfl (h.alloc r (hok.done hdone).1)
    exact fun _ => ⟨rfl, rfl, trivial, fun _ hx => absurd hx List.not_mem_nil, rfl, rfl, rfl⟩
  | reset i r htaken =>
    have hi : (v.hold i).cell = some r := by rw [htaken]; rfl
    have hheld := (htaken ▸ h.held i r hi).reset
    exact h.set_own hi (fun _ hr => (Option.some.inj hr).symm) (fun _ => hheld)
      (.of_open hheld.isOpen hheld.posts)
  | fresh i hnone =>
    have hnew : ∀ r, (v.use r).owner ≠ none → r ≠ v.count := fun r hown => (h.alloc r hown).ne
    have hheld := held_fresh m tid i v.count
    refine h.set ?_ ?_ (fun _ hr => (Option.some.inj hr).symm) (fun _ => hheld)
      (.of_open hheld.isOpen hheld.posts) (Nat.le_succ _) (Nat.lt_succ_self _)
    · intro j _ hj
      refine hnew v.count ?_ rfl
      rw [(h.held j _ hj).owner]
      exact Option.some_ne_none j
    · intro hp
      obtain ⟨⟨j, hmade⟩, -⟩ := (h.cell v.count).ready (h.posting _ hp)
      refine hnew v.count ?_ rfl
      rw [hmade.owner]
      exact Option.some_ne_none j
  | call i r c hrest =>
    have hi : (v.hold i).cell = some r := by rw [hrest]; rfl
    have hheld := (hrest ▸ h.held i r hi).call c
    exact h.set_own hi (fun _ hr => (Option.some.inj hr).symm) (fun _ => hheld)
      (.of_open hheld.isOpen hheld.posts)
  | op i r o k hbusy =>
    have hi : (v.hold i).cell = some r := by rw [hbusy]; rfl
    have hheld := hbusy ▸ h.held i r hi
    have hclosing := hheld.content.1
    cases hclosing with
    | @last _ k res hst hk =>
      have hnone : Hold.after r (k ()) = .none := by rw [hk]; rfl
      refine h.set_own hi (fun _ => Hold.cell_after) (fun hr => ?_) (hheld.last hst hk)
      change (Hold.after r (k ())).cell = some r at hr
      rw [hnone] at hr
      exact absurd hr nofun
    | op ho hk =>
      have hafter := hheld.op ho hk
      exact h.set_own hi (fun _ => Hold.cell_after) (fun _ => hafter)
        (.of_open hafter.isOpen hafter.posts)
  | leave i r a hbusy =>
    have hi : (v.hold i).cell = some r := by rw [hbusy]; rfl
    have hheld := (hbusy ▸ h.held i r hi).after
    exact h.set_own hi (fun _ => Hold.cell_after) (fun _ => hheld)
      (.of_open hheld.isOpen hheld.posts)
  | find r hidle hready =>
    refine h.post hready (fun _ hr => ?_) (fun _ hr => (Option.some.inj hr).symm)
      (fun _ => hready) ((h.cell r).touched hready hready ⟨rfl, rfl⟩ ?_) rfl
    · rw [hidle] at hr
      exact absurd hr nofun
    · simp [hidle]
  | attempt r htrying => exact h.touch htrying rfl ⟨rfl, rfl⟩ (.inl rfl)
  | abandon r htrying => exact h.touch htrying rfl ⟨rfl, rfl⟩ (.inr rfl)
  | refuse r response htrying => exact h.touch htrying rfl ⟨rfl, rfl⟩ (.inr rfl)
  | accept r response htrying =>
    obtain ⟨hready, hposting⟩ := h.trying htrying
    have hok : CellOk m tid { v.pkt r with response := response } (v.use r).posted True :=
      (h.cell r).posted hready hready ⟨rfl, rfl⟩ (by simp [htrying])
    exact h.post hready hposting (fun _ hr => (Option.some.inj hr).symm) (fun _ => hready)
      (by simpa using hok) rfl
  | finish r haccepted =>
    have hready := h.posting r (by rw [haccepted]; rfl)
    refine h.post hready (fun _ hr => ?_) nofun nofun ?_ rfl
    · rw [haccepted] at hr
      exact (Option.some.inj hr).symm
    · simpa using (h.cell r).finished hready haccepted

/-- A READY packet keeps its bytes and stays READY until a post of it has returned 0. -/
def View.Frozen (v v' : View ι) (r : Nat) : Prop :=
  (v'.pkt r).SameBytes (v.pkt r) ∧
    ((v'.pkt r).state = .ready ∨ (v'.pkt r).state = .done ∧ (v.use r).posts = 1)

theorem frozen_set [DecidableEq ι] {v : View ι} {r r' : Nat} (hready : (v.pkt r).state = .ready)
    (hne : r ≠ r') (i : ι) (pkt : Packet) (u : Use ι) (hd : Hold) (n : Nat) :
    v.Frozen (v.set i r' pkt u hd n) r := by
  simp only [View.Frozen, View.set, Function.update_of_ne hne]
  exact ⟨⟨rfl, rfl⟩, .inl hready⟩

theorem frozen_post {v : View ι} {r : Nat} (hready : (v.pkt r).state = .ready) (r' : Nat)
    (pkt : Packet) (u : Use ι) (p : Posting) (hb : pkt.SameBytes (v.pkt r'))
    (hst : (v.pkt r').state = .ready →
      pkt.state = .ready ∨ pkt.state = .done ∧ (v.use r').posts = 1) :
    v.Frozen (v.post r' pkt u p) r := by
  by_cases he : r = r'
  · subst he
    simp only [View.Frozen, View.post, Function.update_self]
    exact ⟨hb, hst hready⟩
  · simp only [View.Frozen, View.post, Function.update_of_ne he]
    exact ⟨⟨rfl, rfl⟩, .inl hready⟩

theorem View.Inv.frozen [DecidableEq ι] {v v' : View ι} {r : Nat} (h : v.Inv m tid)
    (hmove : Move m.license tid v v') (hready : (v.pkt r).state = .ready) : v.Frozen v' r := by
  have hown (i : ι) (r' : Nat) (hi : (v.hold i).cell = some r') : r ≠ r' := by
    rintro rfl
    exact h.not_held (by rw [hready]; exact id) i hi
  cases hmove with
  | quiet => exact ⟨⟨rfl, rfl⟩, .inl hready⟩
  | take i r' hnone hdone =>
    refine frozen_set hready ?_ _ _ _ _ _
    rintro rfl
    exact absurd (hready.symm.trans hdone) nofun
  | reset i r' htaken => exact frozen_set hready (hown i r' (by rw [htaken]; rfl)) _ _ _ _ _
  | fresh i hnone =>
    refine frozen_set hready ?_ _ _ _ _ _
    rintro rfl
    obtain ⟨⟨j, hmade⟩, -⟩ := (h.cell v.count).ready hready
    exact absurd (h.alloc v.count (by rw [hmade.owner]; simp)) (lt_irrefl _)
  | call i r' c hrest => exact frozen_set hready (hown i r' (by rw [hrest]; rfl)) _ _ _ _ _
  | op i r' o k hbusy => exact frozen_set hready (hown i r' (by rw [hbusy]; rfl)) _ _ _ _ _
  | leave i r' a hbusy => exact frozen_set hready (hown i r' (by rw [hbusy]; rfl)) _ _ _ _ _
  | find r' hidle hr => exact frozen_post hready _ _ _ _ ⟨rfl, rfl⟩ .inl
  | attempt r' htrying => exact frozen_post hready _ _ _ _ ⟨rfl, rfl⟩ .inl
  | abandon r' htrying => exact frozen_post hready _ _ _ _ ⟨rfl, rfl⟩ .inl
  | refuse r' response htrying => exact frozen_post hready _ _ _ _ ⟨rfl, rfl⟩ .inl
  | accept r' response htrying => exact frozen_post hready _ _ _ _ ⟨rfl, rfl⟩ .inl
  | finish r' haccepted =>
    refine frozen_post hready _ _ _ _ ⟨rfl, rfl⟩ fun hr => .inr ⟨rfl, ?_⟩
    exact ((h.cell r').ready hr).2.2.mpr haccepted

theorem becomes_noted {o : PacketOp} {pkt : Packet} (u : Use ι) (hst : pkt.state ≠ .ready)
    (hst' : (pkt.next o).state = .ready) : (u.noted (pkt.next o) o).ready = some (pkt.next o) := by
  cases o with
  | storeState st =>
    obtain rfl : st = .ready := hst'
    rfl
  | _ => exact absurd hst' hst

/-- The history of a packet keeps it as it became READY. -/
theorem Move.becomes [DecidableEq ι] {v v' : View ι} {license : Text} {r : Nat}
    (hmove : Move license tid v v') (hst : (v.pkt r).state ≠ .ready)
    (hst' : (v'.pkt r).state = .ready) : (v'.use r).ready = some (v'.pkt r) := by
  have hset (i : ι) (r' : Nat) (pkt : Packet) (u : Use ι) (hd : Hold) (n : Nat)
      (hst' : ((v.set i r' pkt u hd n).pkt r).state = .ready)
      (hpkt : (v.pkt r').state ≠ .ready → pkt.state = .ready → u.ready = some pkt) :
      ((v.set i r' pkt u hd n).use r).ready = some ((v.set i r' pkt u hd n).pkt r) := by
    by_cases he : r = r'
    · subst he
      simp only [View.set, Function.update_self] at hst' ⊢
      exact hpkt hst hst'
    · simp only [View.set, Function.update_of_ne he] at hst'
      exact absurd hst' hst
  have hpost (r' : Nat) (pkt : Packet) (u : Use ι) (p : Posting)
      (hst' : ((v.post r' pkt u p).pkt r).state = .ready)
      (hpkt : pkt.state = .ready → (v.pkt r').state = .ready) :
      ((v.post r' pkt u p).use r).ready = some ((v.post r' pkt u p).pkt r) := by
    by_cases he : r = r'
    · subst he
      simp only [View.post, Function.update_self] at hst'
      exact absurd (hpkt hst') hst
    · simp only [View.post, Function.update_of_ne he] at hst'
      exact absurd hst' hst
  cases hmove with
  | quiet => exact absurd hst' hst
  | take | fresh => exact hset _ _ _ _ _ _ hst' nofun
  | reset | call | leave => exact hset _ _ _ _ _ _ hst' fun hne he => absurd he hne
  | op i r' o k hbusy => exact hset _ _ _ _ _ _ hst' (becomes_noted _)
  | find | attempt | abandon | refuse | accept => exact hpost _ _ _ _ hst' id
  | finish => exact hpost _ _ _ _ hst' nofun

end MonitoringAgent
