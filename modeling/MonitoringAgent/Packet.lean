import MonitoringAgent.Lib.Command
import MonitoringAgent.Lib.Decimal

/-!
# Packets

`packet_t`, the macro `packet_append` and the inline functions of `packet.h`, as
commands over one packet. Each operation below is one C statement on the packet.
-/
namespace MonitoringAgent

open Buffer Decimal

/-- `PKTSZ`. -/
def pktsz : Nat := 32768

/-- Milliseconds since the epoch, `epoch_t`. -/
abbrev Epoch := UInt64

inductive PacketType where
  | metric | register | alert
  deriving DecidableEq, Repr

inductive PacketState where
  | empty | begin | wrote | ready | done | free
  deriving DecidableEq, Repr

/-- `enum plugin_gather_error`. -/
inductive GatherError where
  | enone | enodata | eplugup | eplugdown
  deriving DecidableEq, Repr

/-- `packet_t` without its list fields `spin` and `next`. -/
structure Packet where
  started : Epoch
  type : PacketType
  state : PacketState
  response : Int
  size : Nat
  rollbackPoint : Nat
  attempt : Nat
  payload : Memory

/-- `packet_alloc`: zeroed memory in state EMPTY. -/
def packetAlloc (type : PacketType) : Packet where
  started := 0
  type := type
  state := .empty
  response := 0
  size := 0
  rollbackPoint := 0
  attempt := 0
  payload := fun _ => 0

/-- The stores of `get_packet` to a packet taken from DONE; `started`,
`rollback_point` and the payload keep what the last use left. -/
def Packet.recycle (pkt : Packet) (type : PacketType) : Packet :=
  { pkt with type := type, state := .empty, response := 0, size := 0, attempt := 0 }

/-- `payload[0..size)`. -/
def Packet.text (pkt : Packet) : Text := slice pkt.payload pkt.size

/-- `PKTSZ-pkt->size` converted to `size_t`. -/
def room (size : Nat) : Nat := (2 ^ 64 + pktsz - size) % 2 ^ 64

/-- One statement on a packet. -/
inductive PacketOp where
  | loadState
  | loadStarted
  | loadSize
  | storeState (st : PacketState)
  | storeStarted (t : Epoch)
  | append (t : Text)
  /-- An append whose text looks at `payload[size-1]`. -/
  | appendAfter (f : Byte → Text)
  /-- `rollback_point = size`. -/
  | mark
  /-- `size = rollback_point; payload[size] = '\0'`. -/
  | rollback
  /-- The same with the local rollback point of `packet_gather`. -/
  | restore (n : Nat)

abbrev PacketOp.Answer : PacketOp → Type
  | loadState => PacketState
  | loadStarted => Epoch
  | loadSize => Nat
  | _ => Unit

namespace Packet

/-- `size += snprintf(payload+size, PKTSZ-size, ...)`: the size grows by the length
of the whole text, whatever the room was. -/
def append (pkt : Packet) (t : Text) : Packet :=
  { pkt with
    size := pkt.size + t.length
    payload := snprintf pkt.payload pkt.size (room pkt.size) t }

def truncate (pkt : Packet) (n : Nat) : Packet :=
  { pkt with size := n, payload := write pkt.payload n [0] }

def answer : (o : PacketOp) → Packet → o.Answer
  | .loadState, pkt => pkt.state
  | .loadStarted, pkt => pkt.started
  | .loadSize, pkt => pkt.size
  | .storeState _, _ | .storeStarted _, _ | .append _, _ | .appendAfter _, _ => ()
  | .mark, _ | .rollback, _ | .restore _, _ => ()

def next (pkt : Packet) : PacketOp → Packet
  | .loadState | .loadStarted | .loadSize => pkt
  | .storeState st => { pkt with state := st }
  | .storeStarted t => { pkt with started := t }
  | .append t => pkt.append t
  | .appendAfter f => pkt.append (f (pkt.payload (pkt.size - 1)))
  | .mark => { pkt with rollbackPoint := pkt.size }
  | .rollback => pkt.truncate pkt.rollbackPoint
  | .restore n => pkt.truncate n

def effects : Effects PacketOp PacketOp.Answer Packet := ⟨answer, next⟩

end Packet

abbrev PacketM := Command PacketOp PacketOp.Answer

/-- A single statement. -/
abbrev stmt (o : PacketOp) : PacketM o.Answer := .perform o

def packetAppend (t : Text) : PacketM Unit := stmt (.append t)

def packetTransaction : PacketM Unit := stmt .mark

def packetCommit : PacketM Unit := stmt .mark

def packetRollback : PacketM Unit := stmt .rollback

/-- `%s"%s":{` with a comma after a closing brace. -/
def openTag (tag : Text) (last : Byte) : Text :=
  (if last = ch '}' then str "," else []) ++ str "\"" ++ tag ++ str "\":\x7b"

def packetGather (tag : Text) (func : PacketM GatherError) : PacketM GatherError := do
  let rollbackPoint ← stmt .loadSize
  stmt (.appendAfter (openTag tag))
  let res ← func
  if res ≠ .enone then
    stmt (.restore rollbackPoint)
    return res
  packetAppend (str "\x7d")
  return .enone

/-- `MSPS`. -/
def msps : UInt64 := 1000

/-- `PACKET_EXP` in thousandths of a second. The quotient below is a whole number of
seconds, so the rounding of the constant to `float` plays no part. -/
def packetExp : Nat := 6033

def expired (started now : Epoch) : Bool :=
  packetExp ≤ ((now - started) / msps).toNat * 1000

def packetExpired (now : Epoch) : PacketM Bool := do
  let started ← stmt .loadStarted
  return expired started now

/-- The code of a gather function as far as it touches the packet: appends, appends
that look at the last character, and nested calls of `packet_gather`. -/
inductive Gatherer where
  | ret (res : GatherError)
  | append (t : Text) (k : Gatherer)
  | appendAfter (f : Byte → Text) (k : Gatherer)
  | gather (tag : Text) (func : Gatherer) (k : GatherError → Gatherer)

def Gatherer.code : Gatherer → PacketM GatherError
  | ret res => .ret res
  | append t k => do packetAppend t; k.code
  | appendAfter f k => do stmt (.appendAfter f); k.code
  | gather tag func k => do
    let res ← packetGather tag func.code
    (k res).code

end MonitoringAgent
