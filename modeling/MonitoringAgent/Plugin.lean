import MonitoringAgent.Sender
import MonitoringAgent.Lib.Word

/-!
# Plugins

`plugin_t` and the five tasks of `plugin.c`. A task is what `routine_main` calls once
for each ping; everything it reads from outside (clock, server, gather function, the
packet `get_packet` hands out) is its input, everything it does outside is an event.
-/
namespace MonitoringAgent

open Buffer Decimal Word

/-- `BFSZ`. -/
def bfsz : Nat := 128

/-- The texts of `metadata.c`, in arrays of fixed size, and the agent id. -/
structure Meta where
  license : Text
  aid : UInt64
  type : Text
  os : Text
  host : Text
  aip : Text
  license_lt : license.length < 99
  type_lt : type.length < 20
  os_lt : os.length < 50
  host_lt : host.length < 99
  aip_lt : aip.length < 17

/-- The function `p->task` points to. -/
inductive Task where
  | prep | regr | gather | alertUp | alertDown
  deriving DecidableEq, Repr

/-- The `stat` argument of `plugin_alert`. -/
inductive Status where
  | up | down
  deriving DecidableEq, Repr

def Status.text : Status → Text
  | up => str "up"
  | down => str "down"

structure Plugin where
  tid : UInt64
  tip : Option Text
  type : Text
  task : Task
  working : Option Packet
  oob : Option Packet
  hasPrep : Bool
  module : Text

/-- What a task does outside its plugin. -/
inductive Event where
  | changeTask (src dst : Task)
  | posted (type : PacketType) (text : Text) (ok : Bool)
  | saved (name content : Text)
  | gathered (res : GatherError)
  | published (pkt : Packet)

/-- Where `get_packet` finds a packet: fresh memory or one a DONE use left behind. -/
inductive Source where
  | fresh
  | recycled (stale : Packet)

def getPacket (type : PacketType) : Source → Packet
  | .fresh => packetAlloc type
  | .recycled stale => stale.recycle type

/-- What one call of `plugin_gather` reads: the two clock readings, the packet
`get_packet` would give it, and the code of `p->gather`. -/
structure GatherCall where
  start : Epoch
  now : Epoch
  source : Source
  gather : Gatherer

/-- Three readings of the clock in one expression. -/
structure TidClock where
  a : Epoch
  b : Epoch
  c : Epoch

/-- `epoch_time()*epoch_time()*epoch_time()`. -/
def TidClock.tid (t : TidClock) : UInt64 := t.a * t.b * t.c

/-- Everything a task may read. -/
structure TaskInput where
  prepOk : Bool
  clock : TidClock
  retryClock : TidClock
  reply : Reply
  call : GatherCall

def pluginInit (p : Plugin) : Plugin :=
  { p with tid := 0, working := none, oob := none, task := .prep }

def routineChangeTask (p : Plugin) (task : Task) : Plugin × List Event :=
  ({ p with task := task }, [.changeTask p.task task])

/-! ## Registration -/

/-- `%20llu`. -/
def padded (tid : UInt64) : Text :=
  List.replicate (20 - (decimal tid.toNat).length) (ch ' ') ++ decimal tid.toNat

def registerHead (m : Meta) : Text :=
  str "\x7b\"license\":\"" ++ m.license ++ str "\",\"aid\":" ++ decimal m.aid.toNat ++
    str ",\"tid\":"

def registerTail (m : Meta) (p : Plugin) : Text :=
  str ",\"agent_type\":\"" ++ m.type ++ str "\",\"target_type\":\"" ++ p.type ++
    str "\",\"os\":\"" ++ m.os ++ str "\",\"hostname\":\"" ++ m.host ++
    str "\",\"ip\":\"" ++ m.aip ++ str "\"" ++
    (match p.tip with
      | some tip => str ",\"target_ip\":\"" ++ tip ++ str "\""
      | none => []) ++ str "\x7d"

/-- The register packet `plugin_regr` builds at its first attempt. -/
def registerPacket (m : Meta) (p : Plugin) : Packet :=
  let pkt := { packetAlloc .register with state := .ready }
  let pkt := pkt.append (registerHead m)
  let pkt := pkt.next .mark
  pkt.append (padded p.tid ++ registerTail m p)

/-- The in-place change of a retry: `sprintf` over the number, then the comma that
its terminator has overwritten. -/
def Packet.patchTid (pkt : Packet) (tid : UInt64) : Packet :=
  let payload := sprintf pkt.payload pkt.rollbackPoint (padded tid)
  { pkt with payload := write payload (pkt.rollbackPoint + 20) [ch ','] }

/-- The packet an attempt posts, with the plugin after the tid was chosen. -/
def pluginRegrPacket (m : Meta) (p : Plugin) (clock : TidClock) : Plugin × Packet :=
  match p.oob with
  | none =>
    let p := if p.tid = 0 then { p with tid := clock.tid } else p
    (p, registerPacket m p)
  | some pkt => (p, pkt.patchTid p.tid)

/-- `res/<tid>`. -/
def saveName (tid : UInt64) : Text := (str "res/" ++ decimal tid.toNat).take (bfsz - 1)

def saveContent (p : Plugin) : Text :=
  le32 p.type.length ++ p.type ++ le32 p.module.length ++ p.module

def pluginRegr (m : Meta) (p : Plugin) (i : TaskInput) : Plugin × List Event :=
  let (p, pkt) := pluginRegrPacket m p i.clock
  let (pkt, ok) := post pkt i.reply
  let sent := Event.posted pkt.type pkt.text ok
  if ok then
    let p := { p with oob := none }
    let (p', change) := routineChangeTask p .gather
    (p', sent :: .saved (saveName p.tid) (saveContent p) :: change)
  else
    -- Of the response codes the switch lists, only ETARGETREG does something.
    let tid := if pkt.response = etargetreg then i.retryClock.tid else p.tid
    ({ p with oob := some pkt, tid := tid }, [sent])

def pluginPrep (m : Meta) (p : Plugin) (i : TaskInput) : Plugin × List Event :=
  if p.hasPrep && !i.prepOk then (p, [])
  else
    let (p, change) := routineChangeTask p .regr
    let (p, events) := pluginRegr m p i
    (p, change ++ events)

/-! ## Alerts -/

def alertText (license : Text) (tid : UInt64) (stat : Status) : Text :=
  str "\x7b\"license\":\"" ++ license ++ str "\",\"tid\":" ++ decimal tid.toNat ++
    str ",\"status\":\"" ++ stat.text ++ str "\"\x7d"

def alertPacket (license : Text) (tid : UInt64) (stat : Status) : Packet :=
  let pkt := { packetAlloc .alert with state := .ready }
  pkt.append (alertText license tid stat)

def pluginAlert (m : Meta) (p : Plugin) (stat : Status) (i : TaskInput) :
    Plugin × List Event :=
  let pkt := p.oob.getD (alertPacket m.license p.tid stat)
  let (pkt', ok) := post pkt i.reply
  let sent := Event.posted pkt.type pkt'.text ok
  if ok then
    let (p, change) := routineChangeTask { p with oob := none } .gather
    (p, sent :: change)
  else ({ p with oob := some pkt' }, [sent])

/-! ## Gathering -/

def metricHeader (license : Text) (tid : UInt64) : Text :=
  str "\x7b\"license\":\"" ++ license ++ str "\",\"tid\":" ++ decimal tid.toNat ++
    str ",\"metrics\":["

def timestamp (t : Epoch) : Text :=
  str "\x7b\"timestamp\":" ++ decimal t.toNat ++ str ","

def writeHeader (license : Text) (tid : UInt64) : PacketM Unit := do
  if (← stmt .loadState) = .empty then
    packetAppend (metricHeader license tid)
    stmt (.storeState .begin)

def stampStart (t : Epoch) : PacketM Unit := do
  if (← stmt .loadState) = .begin then
    stmt (.storeStarted t)

def writeComma : PacketM Unit := do
  if (← stmt .loadState) = .wrote then
    packetAppend (str ",")

/-- The switch on the result of `packet_gather`. -/
def settle (res : GatherError) : PacketM Unit :=
  match res with
  | .enone => do
    packetAppend (str "\x7d")
    if (← stmt .loadState) = .begin then
      stmt (.storeState .wrote)
    packetCommit
  | .enodata | .eplugup | .eplugdown => packetRollback

/-- What happens to an expired packet. -/
def retire : PacketM Unit := do
  if (← stmt .loadState) = .wrote then
    packetAppend (str "]\x7d")
    stmt (.storeState .ready)
  else
    stmt (.storeState .done)

/-- The expiry check; the answer says that `p->working` is cleared. -/
def expire (now : Epoch) : PacketM Bool := do
  if ← packetExpired now then
    retire
    return true
  else
    return false

/-- `plugin_gather` up to the switch. -/
def gatherRecord (license : Text) (tid : UInt64) (c : GatherCall) : PacketM GatherError := do
  writeHeader license tid
  stampStart c.start
  packetTransaction
  writeComma
  packetAppend (timestamp c.start)
  packetGather (str "values") c.gather.code

/-- `plugin_gather` on its packet. -/
def gatherBody (license : Text) (tid : UInt64) (c : GatherCall) :
    PacketM (GatherError × Bool) := do
  let res ← gatherRecord license tid c
  settle res
  let retired ← expire c.now
  return (res, retired)

/-- The task a gather result leaves the plugin with. -/
def Task.afterGather : GatherError → Task
  | .enone | .enodata => .gather
  | .eplugup => .alertUp
  | .eplugdown => .alertDown

/-- The packet the call works on. -/
def Plugin.packet (p : Plugin) (c : GatherCall) : Packet :=
  p.working.getD (getPacket .metric c.source)

def pluginGather (m : Meta) (p : Plugin) (c : GatherCall) : Plugin × List Event :=
  let ((res, retired), pkt) := (gatherBody m.license p.tid c).exec Packet.effects (p.packet c)
  let task := Task.afterGather res
  let change := if task = .gather then [] else [Event.changeTask p.task task]
  let publish := if pkt.state = .ready then [Event.published pkt] else []
  ({ p with
      working := if retired then none else some pkt
      task := if task = .gather then p.task else task },
    .gathered res :: change ++ publish)

/-- One turn of `routine_main`: `r->task(r)`. -/
def invoke (m : Meta) (p : Plugin) (i : TaskInput) : Plugin × List Event :=
  match p.task with
  | .prep => pluginPrep m p i
  | .regr => pluginRegr m p i
  | .gather => pluginGather m p i.call
  | .alertUp => pluginAlert m p .up i
  | .alertDown => pluginAlert m p .down i

/-! ## Small values to run the model on -/

def Meta.sample : Meta where
  license := str "L"
  aid := 1
  type := str "ubuntu_1.0"
  os := str "Ubuntu"
  host := str "h"
  aip := str "10.0.0.1"
  license_lt := by decide
  type_lt := by decide
  os_lt := by decide
  host_lt := by decide
  aip_lt := by decide

/-- The os plugin as `load_os_module` and `plugin_init` leave it. -/
def Plugin.sample : Plugin where
  tid := 0
  tip := none
  type := str "linux_ubuntu_1.0"
  task := .prep
  working := none
  oob := none
  hasPrep := false
  module := []

end MonitoringAgent
