import MonitoringAgent.Plugin

/-!
# The packet pool

Any number of plugin threads in `plugin_gather` and `get_packet`, and the storage thread
in `storage_main`, step by step: each load, store or compare-and-swap of `packets`, of
`next`, `spin` and `state`, and of `p->working` is a step of its own.
-/
namespace MonitoringAgent

open Buffer Command Packet

/-- `packet_t` with its list fields. The payload is a memory of its own beside `spin` and
`next`: in `packet_t` these stand behind its PKTSZ bytes, so a text is taken to fit. -/
structure Cell where
  pkt : Packet
  spin : Bool
  next : Option Nat

/-- Where a plugin thread is. A packet is named by its address. -/
inductive PluginPc where
  /-- Not in `plugin_gather`. -/
  | idle
  /-- `if(!p->working)`. -/
  | readWorking (c : GatherCall)
  /-- `pkt=packets` at the head of the loop of `get_packet`. -/
  | scanHead (c : GatherCall)
  /-- `packet_change_state(pkt, DONE, EMPTY)`. -/
  | scanCas (c : GatherCall) (r : Nat)
  /-- `pkt=pkt->next`. -/
  | scanNext (c : GatherCall) (r : Nat)
  /-- The stores to `type`, `response`, `size` and `attempt`. -/
  | recycle (c : GatherCall) (r : Nat)
  /-- `pkt->spin = 0`. -/
  | storeSpin (c : GatherCall) (r : Nat)
  | alloc (c : GatherCall)
  /-- `while(!packets)`. -/
  | testHead (c : GatherCall) (r : Nat)
  /-- The compare-and-swap of `packets` from 0. -/
  | casHead (c : GatherCall) (r : Nat)
  /-- `head_lock = &packets->spin`. -/
  | loadLock (c : GatherCall) (r : Nat)
  /-- The compare-and-swap of `*head_lock` from 0 to 1. -/
  | acquire (c : GatherCall) (r l : Nat)
  /-- `pkt->next = packets`: the load. -/
  | linkLoad (c : GatherCall) (r l : Nat)
  /-- `pkt->next = packets`: the store. -/
  | linkStore (c : GatherCall) (r l : Nat) (h : Option Nat)
  /-- `packets = pkt`. -/
  | storeHead (c : GatherCall) (r l : Nat)
  /-- `*head_lock = 0`. -/
  | release (c : GatherCall) (r l : Nat)
  /-- `p->working = get_packet(METRIC)`: the store. -/
  | setWorking (c : GatherCall) (r : Nat)
  /-- `pkt = p->working`. -/
  | loadWorking (c : GatherCall)
  /-- The rest of the call on its packet. -/
  | body (r : Nat) (prog : PacketM (GatherError × Bool))
  /-- `p->working = 0`. -/
  | clearWorking

/-- Where the storage thread is. -/
inductive StoragePc where
  /-- Between two passes. -/
  | idle
  /-- `pkt=packets`. -/
  | loadHead
  /-- `pkt->state == READY`. -/
  | check (r : Nat)
  /-- `pkt->attempt++`. -/
  | attempt (r : Nat)
  /-- `packet_fetch`: taking `pkt->spin`. -/
  | fetchLock (r : Nat)
  /-- `packet_fetch`: the test of the state. -/
  | fetchState (r : Nat)
  /-- `packet_fetch`: `pkt->spin = 0`. -/
  | fetchUnlock (r : Nat) (ready : Bool)
  /-- The transfer. -/
  | send (r : Nat)
  /-- `pkt->state = DONE`. -/
  | markDone (r : Nat)
  /-- `pkt=pkt->next`. -/
  | next (r : Nat)
  deriving DecidableEq

variable {ι : Type}

structure Pool (ι : Type) where
  heap : Nat → Cell
  /-- The packets allocated so far have the addresses below. -/
  count : Nat
  head : Option Nat
  pc : ι → PluginPc
  working : ι → Option Nat
  storage : StoragePc

/-- As `storage_init` and `plugin_init` leave it. -/
def Pool.start : Pool ι where
  heap := fun _ => ⟨packetAlloc .metric, false, none⟩
  count := 0
  head := none
  pc := fun _ => .idle
  working := fun _ => none
  storage := .idle

/-- A plugin thread begins a call or takes its next step; the storage thread begins a pass
or takes its next step, in which a transfer meets the given reply. -/
inductive PoolAct (ι : Type) where
  | call (i : ι) (c : GatherCall)
  | plugin (i : ι)
  | pass
  | storage (r : Reply)

namespace Pool

variable [DecidableEq ι]

def setCell (s : Pool ι) (r : Nat) (cell : Cell) : Pool ι :=
  { s with heap := Function.update s.heap r cell }

def setPkt (s : Pool ι) (r : Nat) (pkt : Packet) : Pool ι :=
  s.setCell r { s.heap r with pkt := pkt }

def setSpin (s : Pool ι) (r : Nat) (spin : Bool) : Pool ι :=
  s.setCell r { s.heap r with spin := spin }

def setNext (s : Pool ι) (r : Nat) (next : Option Nat) : Pool ι :=
  s.setCell r { s.heap r with next := next }

def setPc (s : Pool ι) (i : ι) (pc : PluginPc) : Pool ι :=
  { s with pc := Function.update s.pc i pc }

def setWorking (s : Pool ι) (i : ι) (r : Option Nat) : Pool ι :=
  { s with working := Function.update s.working i r }

omit [DecidableEq ι]

def pkt (s : Pool ι) (r : Nat) : Packet := (s.heap r).pkt

def next (s : Pool ι) (r : Nat) : Option Nat := (s.heap r).next

variable {s : Pool ι} {r : Nat}

theorem pkt_setCell (cell : Cell) :
    (s.setCell r cell).pkt = Function.update s.pkt r cell.pkt :=
  Function.comp_update Cell.pkt s.heap r cell

theorem pkt_setPkt (pkt : Packet) : (s.setPkt r pkt).pkt = Function.update s.pkt r pkt :=
  pkt_setCell _

theorem pkt_setSpin (spin : Bool) : (s.setSpin r spin).pkt = s.pkt :=
  (pkt_setCell _).trans (Function.update_eq_self r s.pkt)

theorem pkt_setNext (next : Option Nat) : (s.setNext r next).pkt = s.pkt :=
  (pkt_setCell _).trans (Function.update_eq_self r s.pkt)

theorem next_setCell (cell : Cell) :
    (s.setCell r cell).next = Function.update s.next r cell.next :=
  Function.comp_update Cell.next s.heap r cell

theorem next_setCell_of_ne {r' : Nat} {cell : Cell} (h : r' ≠ r) :
    (s.setCell r cell).next r' = s.next r' := by
  rw [next_setCell, Function.update_of_ne h]

theorem next_setPkt (pkt : Packet) : (s.setPkt r pkt).next = s.next :=
  (next_setCell _).trans (Function.update_eq_self r s.next)

theorem next_setSpin (spin : Bool) : (s.setSpin r spin).next = s.next :=
  (next_setCell _).trans (Function.update_eq_self r s.next)

theorem next_setNext (n : Option Nat) : (s.setNext r n).next = Function.update s.next r n :=
  next_setCell _

theorem next_setNext_of_ne {r' : Nat} {n : Option Nat} (h : r' ≠ r) :
    (s.setNext r n).next r' = s.next r' :=
  next_setCell_of_ne h

end Pool

/-- The program counter for what is left of a call. -/
def PluginPc.resume (r : Nat) : PacketM (GatherError × Bool) → PluginPc
  | .ret (_, true) => .clearWorking
  | .ret (_, false) => .idle
  | prog => .body r prog

variable [DecidableEq ι] (license : Text) (tid : ι → UInt64)

def pluginStep (s : Pool ι) (i : ι) : Pool ι :=
  match s.pc i with
  | .idle => s
  | .readWorking c =>
    s.setPc i (match s.working i with
      | some _ => .loadWorking c
      | none => .scanHead c)
  | .scanHead c =>
    s.setPc i (match s.head with
      | some r => .scanCas c r
      | none => .alloc c)
  | .scanCas c r =>
    let pkt := (s.heap r).pkt
    if pkt.state = .done then (s.setPkt r { pkt with state := .empty }).setPc i (.recycle c r)
    else s.setPc i (.scanNext c r)
  | .scanNext c r =>
    s.setPc i (match (s.heap r).next with
      | some r' => .scanCas c r'
      | none => .alloc c)
  | .recycle c r =>
    let pkt := (s.heap r).pkt
    (s.setPkt r { pkt with type := .metric, response := 0, size := 0, attempt := 0 }).setPc i
      (.storeSpin c r)
  | .storeSpin c r => (s.setSpin r false).setPc i (.setWorking c r)
  | .alloc c =>
    { s.setCell s.count ⟨packetAlloc .metric, false, none⟩ with count := s.count + 1 }.setPc i
      (.testHead c s.count)
  | .testHead c r =>
    s.setPc i (match s.head with
      | some _ => .loadLock c r
      | none => .casHead c r)
  | .casHead c r =>
    match s.head with
    | some _ => s.setPc i (.testHead c r)
    | none => { s with head := some r }.setPc i (.setWorking c r)
  | .loadLock c r =>
    match s.head with
    | some l => s.setPc i (.acquire c r l)
    | none => s
  | .acquire c r l =>
    if (s.heap l).spin then s else (s.setSpin l true).setPc i (.linkLoad c r l)
  | .linkLoad c r l => s.setPc i (.linkStore c r l s.head)
  | .linkStore c r l h => (s.setNext r h).setPc i (.storeHead c r l)
  | .storeHead c r l => { s with head := some r }.setPc i (.release c r l)
  | .release c r l => (s.setSpin l false).setPc i (.setWorking c r)
  | .setWorking c r => (s.setWorking i (some r)).setPc i (.loadWorking c)
  | .loadWorking c =>
    match s.working i with
    | some r => s.setPc i (.body r (gatherBody license (tid i) c))
    | none => s
  | .body r (.ret a) => s.setPc i (.resume r (.ret a))
  | .body r (.op o k) =>
    let pkt := (s.heap r).pkt
    (s.setPkt r (pkt.next o)).setPc i (.resume r (k (pkt.answer o)))
  | .clearWorking => (s.setWorking i none).setPc i .idle

/-- The transfer of `post`: the packet afterwards and whether it was accepted. -/
def transfer (pkt : Packet) (r : Reply) : Packet × Bool :=
  let (response, written) := deliver r.chunks pkt.response
  ({ pkt with response := response },
    written && r.curlOk && (r.status = 202 || r.status = 200))

omit [DecidableEq ι] in
/-- A post is an attempt, the test of the state and the transfer. -/
theorem post_eq_transfer (pkt : Packet) (r : Reply) (h : pkt.state = .ready) :
    post pkt r = transfer { pkt with attempt := pkt.attempt + 1 } r := by
  simp [post, transfer, h]

def storageStep (s : Pool ι) (reply : Reply) : Pool ι :=
  match s.storage with
  | .idle => s
  | .loadHead =>
    { s with storage := match s.head with
      | some r => .check r
      | none => .idle }
  | .check r =>
    { s with storage := if (s.heap r).pkt.state = .ready then .attempt r else .next r }
  | .attempt r =>
    let pkt := (s.heap r).pkt
    { s.setPkt r { pkt with attempt := pkt.attempt + 1 } with storage := .fetchLock r }
  | .fetchLock r =>
    if (s.heap r).spin then s else { s.setSpin r true with storage := .fetchState r }
  | .fetchState r => { s with storage := .fetchUnlock r ((s.heap r).pkt.state = .ready) }
  | .fetchUnlock r ready =>
    -- without the payload `post` fails and the pass is over
    { s.setSpin r false with storage := if ready then .send r else .idle }
  | .send r =>
    let (pkt, ok) := transfer (s.heap r).pkt reply
    { s.setPkt r pkt with storage := if ok then .markDone r else .idle }
  | .markDone r =>
    { s.setPkt r { (s.heap r).pkt with state := .done } with storage := .next r }
  | .next r =>
    { s with storage := match (s.heap r).next with
      | some r' => .check r'
      | none => .idle }

def poolStep (s : Pool ι) : PoolAct ι → Pool ι
  | .call i c =>
    match s.pc i with
    | .idle => s.setPc i (.readWorking c)
    | _ => s
  | .plugin i => pluginStep license tid s i
  | .pass =>
    match s.storage with
    | .idle => { s with storage := .loadHead }
    | _ => s
  | .storage reply => storageStep s reply

end MonitoringAgent
