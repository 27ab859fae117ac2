import MonitoringAgent.Gather.Nested

/-!
# The sections of the operating system

`os_gather` and its five section functions, for anything that the commands and files they
read can give. A command that cannot be started is `none`. The rows of one that can are
those its scan accepts, no more than the arrays hold, and numbers in floating point are the
texts they are printed as.
-/
namespace MonitoringAgent

open Buffer Decimal Format

/-- `BPKB`. -/
def bpkb : UInt64 := 1024

/-- Rows for an array of `cap` structures. -/
structure Rows (α : Type) (cap : Nat) where
  list : List α
  length_le : list.length ≤ cap

/-- A text for an array of BFSZ characters. -/
structure Name where
  text : Text
  length_lt : text.length < bfsz

/-- The `i`-th structure of an array filled with the rows. -/
def slot {α : Type} [Inhabited α] (rows : List α) (i : Nat) : α := rows.getD i default

instance : Inhabited Name := ⟨⟨[], by decide⟩⟩

/-! ## Processor -/

/-- The three shares, as printed. -/
structure Cpu where
  user : Text
  sys : Text
  idle : Text

/-- The section is there, empty, when the scan fails. -/
def osGatherCpu (pipe : Option (Option Cpu)) : Output :=
  match pipe with
  | none => ⟨[], false⟩
  | some none => ⟨[], true⟩
  | some (some c) =>
    ⟨[[.lit (str "\"user\":"), .bare c.user, .lit (str ",\"sys\":"), .bare c.sys,
      .lit (str ",\"idle\":"), .bare c.idle]], true⟩

/-! ## Disks -/

/-- What `statvfs` fills in. -/
structure Vfs where
  blocks : UInt64
  bfree : UInt64
  bavail : UInt64
  bsize : UInt64
  frsize : UInt64

/-- The numbers of `/proc/diskstats`. -/
structure DiskStat where
  r : UInt64
  rkb : UInt64
  rt : UInt64
  w : UInt64
  wkb : UInt64
  wt : UInt64
  weight : UInt64
  deriving Inhabited

/-- A line of `/proc/mounts` and what is found out about its device. When the scan of the
disk statistics fails, `stat` is what the fields hold then. -/
structure Mount where
  name : Name
  num : UInt16
  mount : Name
  vfs : Option Vfs
  sectorSize : Option UInt64
  stat : Option (DiskStat × Bool)

structure Dev where
  name : Name
  num : UInt16
  mount : Name
  tot : UInt64
  free : UInt64
  avail : UInt64
  stat : DiskStat
  deriving Inhabited

/-- One turn of the loop: the device, unless the turn is given up, and its share of
`io_tot`. -/
def Mount.dev (l : Mount) : Option (Dev × UInt64) := do
  let vfs ← l.vfs
  let size ← l.sectorSize
  let (stat, scanned) ← l.stat
  let stat' := if scanned then
      { stat with rkb := stat.rkb * size / bpkb, wkb := stat.wkb * size / bpkb }
    else stat
  return ({
      name := l.name
      num := l.num
      mount := l.mount
      tot := vfs.blocks * vfs.frsize / bpkb
      free := vfs.bfree * vfs.bsize / bpkb
      avail := vfs.bavail * vfs.bsize / bpkb
      stat := stat' },
    if scanned then stat.r + stat.w else 0)

/-- Lines that each find a slot free: those whose turn is given up do not take one. -/
structure Mounts where
  list : List Mount
  free : ∀ before line after, list = before ++ line :: after →
    (before.filterMap Mount.dev).length < bfsz

/-- `"%s%hu(%s)"`. -/
def Dev.label (d : Dev) : Text :=
  d.name.text ++ decimal d.num.toNat ++ str "(" ++ d.mount.text ++ str ")"

def Dev.cols : List (Text × (Dev → Piece)) :=
  [(str "\"name\":[", fun d => .quoted d.label),
    (str "],\"tot\":[", fun d => .bare (number d.tot)),
    (str "],\"free\":[", fun d => .bare (number d.free)),
    (str "],\"avail\":[", fun d => .bare (number d.avail)),
    (str "],\"r\":[", fun d => .bare (number d.stat.r)),
    (str "],\"rsec\":[", fun d => .bare (number d.stat.rkb)),
    (str "],\"rt\":[", fun d => .bare (number d.stat.rt)),
    (str "],\"w\":[", fun d => .bare (number d.stat.w)),
    (str "],\"wsec\":[", fun d => .bare (number d.stat.wkb)),
    (str "],\"wt\":[", fun d => .bare (number d.stat.wt)),
    (str "],\"weight\":[", fun d => .bare (number d.stat.weight))]

def osGatherDisk (pipe : Option Mounts) : Output :=
  match pipe with
  | none => ⟨[], false⟩
  | some lines =>
    let found := lines.list.filterMap Mount.dev
    let dev := found.map Prod.fst
    let ioTot := (found.map Prod.snd).foldl (· + ·) 0
    if dev.length = 0 then ⟨[], false⟩
    else
      ⟨columns Dev.cols (slot dev) dev.length ++
        [[.lit (str "],\"io_tot\":"), .bare (number ioTot)]], true⟩

/-! ## Memory -/

/-- The numbers of `/proc/meminfo`, and the printed quotient of the last two. -/
structure MemInfo where
  total : UInt64
  free : UInt64
  cached : UInt64
  active : UInt64
  inactive : UInt64
  used : Text

def osGatherMemory (pipe : Option (Option MemInfo)) : Output :=
  match pipe with
  | none => ⟨[], false⟩
  | some none => ⟨[], false⟩
  | some (some m) =>
    ⟨[[.lit (str "\"total\":"), .bare (number m.total),
      .lit (str ",\"free\":"), .bare (number m.free),
      .lit (str ",\"cached\":"), .bare (number m.cached),
      .lit (str ",\"user\":"), .bare (number (m.active + m.inactive)),
      .lit (str ",\"sys\":"), .bare (number (m.total - m.free - m.active - m.inactive)),
      .lit (str ",\"virtual\":"), .bare m.used]], true⟩

/-! ## Network -/

structure NetIf where
  name : Name
  iByte : UInt64
  iPckt : UInt64
  iErr : UInt64
  oByte : UInt64
  oPckt : UInt64
  oErr : UInt64
  deriving Inhabited

/-- Up to the first line whose numbers cannot be scanned. -/
def netIfs : List (Option NetIf) → List NetIf
  | [] => []
  | none :: _ => []
  | some n :: lines => n :: netIfs lines

def NetIf.cols : List (Text × (NetIf → Piece)) :=
  [(str "\"name\":[", fun n => .quoted n.name.text),
    (str "],\"i_byte\":[", fun n => .bare (number n.iByte)),
    (str "],\"o_byte\":[", fun n => .bare (number n.oByte)),
    (str "],\"i_pckt\":[", fun n => .bare (number n.iPckt)),
    (str "],\"o_pckt\":[", fun n => .bare (number n.oPckt)),
    (str "],\"i_err\":[", fun n => .bare (number n.iErr)),
    (str "],\"o_err\":[", fun n => .bare (number n.oErr))]

def osGatherNetwork (pipe : Option (Rows (Option NetIf) bfsz)) : Output :=
  match pipe with
  | none => ⟨[], false⟩
  | some lines =>
    let netIf := netIfs lines.list
    if netIf.length = 0 then ⟨[], false⟩
    else
      ⟨columns NetIf.cols (slot netIf) netIf.length ++
        [[.lit (str "],\"i_tot\":"), .bare (number ((netIf.map NetIf.iByte).foldl (· + ·) 0)),
          .lit (str ",\"o_tot\":"), .bare (number ((netIf.map NetIf.oByte).foldl (· + ·) 0))]],
        true⟩

/-! ## Processes -/

/-- A row of the first two listings: a command and its share, as printed. -/
structure Top where
  name : Name
  share : Text
  deriving Inhabited

/-- A row of the last listing. -/
structure Proc where
  name : Name
  user : Name
  count : UInt64
  cpu : Text
  mem : Text
  deriving Inhabited

/-- Appends, then the rest of a function. -/
def appendAll (appends : List Append) (k : Gatherer) : Gatherer :=
  (appends.map render).foldr .append k

/-- What follows the opening text of the first two blocks. -/
def Top.block (title : Text) (rows : List Top) : List Append :=
  cells (fun i => .quoted (slot rows i).name.text) rows.length ++
    column title (fun i => .bare (slot rows i).share) rows.length ++ [[.lit (str "]\x7d")]]

def Proc.cols : List (Text × (Proc → Piece)) :=
  [(str "],\"user\":[", fun p => .quoted p.user.text),
    (str "],\"count\":[", fun p => .bare (number p.count)),
    (str "],\"cpu\":[", fun p => .bare p.cpu),
    (str "],\"mem\":[", fun p => .bare p.mem)]

def Proc.block (rows : List Proc) : List Append :=
  cells (fun i => .quoted (slot rows i).name.text) rows.length ++
    columns Proc.cols (slot rows) rows.length ++ [[.lit (str "]\x7d")]]

/-- `pkt->payload[pkt->size-1]=='{'?"":","`. -/
def unlessFirst (last : Byte) : Text := if last = ch '{' then [] else str ","

/-- The last part of `_os_gather_proc`. -/
def procList (pipe : Option (Rows Proc 10)) (error : GatherError) : Gatherer :=
  match pipe with
  | none => .ret error
  | some rows =>
    if rows.list.length = 0 then .ret error
    else
      .appendAfter (fun last => unlessFirst last ++ str "\"list\":\x7b\"name\":[")
        (appendAll (Proc.block rows.list) (.ret .enone))

def procMemory (pipe : Option (Rows Top 10)) (list : Option (Rows Proc 10))
    (error : GatherError) : Gatherer :=
  match pipe with
  | none => .ret error
  | some rows =>
    if rows.list.length = 0 then procList list error
    else
      .appendAfter (fun last => unlessFirst last ++ str "\"mem_top10\":\x7b\"name\":[")
        (appendAll (Top.block (str "],\"mem\":[") rows.list) (procList list .enone))

def osGatherProc (cpu memory : Option (Rows Top 10)) (list : Option (Rows Proc 10)) : Gatherer :=
  match cpu with
  | none => .ret .enodata
  | some rows =>
    if rows.list.length = 0 then procMemory memory list .enodata
    else
      .append (str "\"cpu_top10\":\x7b\"name\":[")
        (appendAll (Top.block (str "],\"cpu\":[") rows.list) (procMemory memory list .enone))

/-! ## All sections -/

/-- What one call of `os_gather` reads. -/
structure OsAnswers where
  cpu : Option (Option Cpu)
  mounts : Option Mounts
  topCpu : Option (Rows Top 10)
  topMemory : Option (Rows Top 10)
  procs : Option (Rows Proc 10)
  memory : Option (Option MemInfo)
  network : Option (Rows (Option NetIf) bfsz)

inductive OsSection where
  | cpu
  | disk
  | proc
  | mem
  | net
  deriving DecidableEq

def OsSection.tag : OsSection → Text
  | cpu => str "cpu"
  | disk => str "disk"
  | proc => str "proc"
  | mem => str "mem"
  | net => str "net"

def OsSection.gatherer (a : OsAnswers) : OsSection → Gatherer
  | cpu => (osGatherCpu a.cpu).gatherer
  | disk => (osGatherDisk a.mounts).gatherer
  | proc => osGatherProc a.topCpu a.topMemory a.procs
  | mem => (osGatherMemory a.memory).gatherer
  | net => (osGatherNetwork a.network).gatherer

/-- The operands of `&` in `os_gather`. -/
def OsSection.all : List OsSection := [cpu, disk, proc, mem, net]

/-- An order in which the operands are evaluated; the language leaves it open. -/
structure OsOrder where
  list : List OsSection
  perm : list.Perm OsSection.all

def osGather (order : OsOrder) (a : OsAnswers) : Gatherer :=
  gatherParts (order.list.map fun sec => (sec.tag, sec.gatherer a)) []

end MonitoringAgent
