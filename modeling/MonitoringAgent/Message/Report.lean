import MonitoringAgent.Lib.JsonReader
import MonitoringAgent.Message.Escaping

/-!
# Messages as they are read

What a server that reads JSON gets out of a posted text: the license, the identifiers and,
from metrics, the records in their order with the sections of each.
-/
namespace MonitoringAgent

open Buffer Decimal Format Json SectionTree Packet Transition

/-! ## Reports -/

/-- A message, read. A record has its time and its sections. -/
inductive Report where
  | register (license : Text) (aid tid : UInt64) (agentType targetType os hostname ip : Text)
    (targetIp : Option Text)
  | alert (license : Text) (tid : UInt64) (status : Text)
  | metric (license : Text) (tid : UInt64) (records : List (Epoch × List (Text × Tree)))

namespace Report

def ofRegister (x : Tree) : Option Report := do
  let license ← (← x.field (str "license")).string
  let aid ← (← x.field (str "aid")).unsigned
  let tid ← (← x.field (str "tid")).unsigned
  let agentType ← (← x.field (str "agent_type")).string
  let targetType ← (← x.field (str "target_type")).string
  let os ← (← x.field (str "os")).string
  let hostname ← (← x.field (str "hostname")).string
  let ip ← (← x.field (str "ip")).string
  some (.register license aid tid agentType targetType os hostname ip
    ((x.field (str "target_ip")).bind Tree.string))

def ofAlert (x : Tree) : Option Report := do
  let license ← (← x.field (str "license")).string
  let tid ← (← x.field (str "tid")).unsigned
  let status ← (← x.field (str "status")).string
  some (.alert license tid status)

def ofRecord (x : Tree) : Option (Epoch × List (Text × Tree)) := do
  let start ← (← x.field (str "timestamp")).unsigned
  let sections ← (← x.field (str "values")).members
  some (start, sections)

def ofMetric (x : Tree) : Option Report := do
  let license ← (← x.field (str "license")).string
  let tid ← (← x.field (str "tid")).unsigned
  let records ← (← x.field (str "metrics")).elements
  (records.mapM ofRecord).map (.metric license tid)

/-- The text of a request to the URL for packets of the type. -/
def read (type : PacketType) (t : Text) : Option Report :=
  (Json.read t).bind fun x =>
    match type with
    | .register => ofRegister x
    | .alert => ofAlert x
    | .metric => ofMetric x

end Report

/-! ## The sections of a sample -/

/-- The parts of a call, each with the members it prints. -/
def Sample.branches : Sample → List (Part × List (Text × Tree))
  | os order a => order.list.map fun sec => (sec.part a, sec.trees a)
  | mysql s =>
    if s.collects then
      [(s.crudPart, rowTrees 4 (rowsOf s.answers.crud) ++ rowTrees 0 (rowsOf s.answers.ddl)),
        (s.queryPart, s.answers.queryTrees), (s.innodbPart, s.answers.innodbTrees),
        (s.threadPart, threadTrees s.answers.threadSlots s.answers.threads s.answers.processes),
        (MysqlSample.replicaPart, [])]
    else []

/-- The branches that stay. -/
def Sample.keptBranches (s : Sample) : List (Part × List (Text × Tree)) :=
  s.branches.filter (·.1.found)

/-- What a record holds, read. -/
def Sample.sections (s : Sample) : List (Text × Tree) :=
  s.keptBranches.map fun b => (b.1.tag, .obj b.2)

/-- The metrics of samples that all leave a record. -/
def Report.ofSamples (license : Text) (tid : UInt64) (b : List (Epoch × Sample)) : Report :=
  .metric license tid (b.map fun s => (s.1, s.2.sections))

section sections

variable {s : Sample}

theorem Sample.branches_fst (s : Sample) : s.branches.map Prod.fst = s.parts := by
  cases s with
  | os order a =>
    rw [branches, parts, List.map_map]
    rfl
  | mysql s =>
    rw [branches, parts, MysqlSample.parts]
    split <;> rfl

theorem Sample.keptBranches_fst (s : Sample) : s.keptBranches.map Prod.fst = s.kept := by
  rw [keptBranches, kept, ← branches_fst, List.filter_map]
  rfl

/-- A part that is joined prints its members. -/
theorem Sample.branches_prints (s : Sample) :
    ∀ b ∈ s.branches, b.1.joined → Prints b.1.body b.2 := by
  cases s with
  | os order a =>
    intro b hb _
    obtain ⟨sec, -, rfl⟩ := List.mem_map.mp hb
    exact prints_memberPieces _
  | mysql s =>
    rw [branches]
    split
    · simp only [List.forall_mem_cons]
      exact ⟨fun _ => crud_prints s.answers.crud s.answers.ddl,
        fun hj => query_prints hj s.query_eq, fun hj => innodb_prints hj s.innodb_eq,
        fun _ => thread_prints s.thread_eq,
        fun _ => prints_memberPieces [], List.forall_mem_nil _⟩
    · exact List.forall_mem_nil _

/-- The text of a record is read as its sections. -/
theorem reads_values (h : Readable s) :
    Reads (str "\x7b" ++ commas (s.kept.map Part.text) ++ str "\x7d") (.obj s.sections) := by
  have htexts : s.kept.map Part.text = s.keptBranches.map fun b =>
      quote b.1.tag ++ str ":" ++ (str "\x7b" ++ render b.1.body ++ str "\x7d") := by
    rw [kept_texts, ← s.keptBranches_fst, List.map_map]
    rfl
  rw [htexts, Sample.sections]
  refine reads_obj (fun b _ => b.1.clean_tag) fun b hb => ?_
  have hmem : b.1 ∈ s.kept := s.keptBranches_fst ▸ List.mem_map_of_mem hb
  obtain ⟨hsound, hjoined⟩ := h b.1 hmem
  have hprints := s.branches_prints b (List.mem_of_mem_filter hb) hjoined
  have hgood : (Tree.obj b.2).Good := membersGood_iff_sound.mpr ((hprints.sound Number).mp hsound)
  rw [hprints.text, ← Tree.print]
  exact reads_print _ hgood

end sections

/-! ## Messages as trees -/

/-- A member of an object: its name, the text of its value, and what this is read as. -/
structure Entry where
  name : Text
  text : Text
  tree : Tree

namespace Entry

def quoted (name t : Text) : Entry := ⟨name, quote t, .str t⟩

def number (name : Text) (n : UInt64) : Entry := ⟨name, Format.number n, .num (Format.number n)⟩

def print (f : Entry) : Text := quote f.name ++ str ":" ++ f.text

def member (f : Entry) : Text × Tree := (f.name, f.tree)

def Reads (f : Entry) : Prop := Clean f.name ∧ Json.Reads f.text f.tree

end Entry

theorem reads_entries (fs : List Entry) (h : ∀ f ∈ fs, f.Reads) :
    Reads (str "\x7b" ++ commas (fs.map Entry.print) ++ str "\x7d") (.obj (fs.map Entry.member)) :=
  reads_obj (fun f hf => (h f hf).1) fun f hf => (h f hf).2

theorem reads_number (n : UInt64) : Reads (number n) (.num (number n)) := reads_num (number_good n)

theorem reads_padded (tid : UInt64) : Reads (padded tid) (.num (number tid)) := by
  refine (reads_number tid).space fun c hc => ?_
  rw [List.eq_of_mem_replicate hc]
  exact .inl (by decide)

def recordEntries (start : Epoch) (s : Sample) : List Entry :=
  [.number (str "timestamp") start,
    ⟨str "values", str "\x7b" ++ commas (s.kept.map Part.text) ++ str "\x7d", .obj s.sections⟩]

def recordTree (start : Epoch) (s : Sample) : Tree :=
  .obj ((recordEntries start s).map Entry.member)

def registerEntries (m : Meta) (p : Plugin) (tid : UInt64) : List Entry :=
  [.quoted (str "license") m.license, .number (str "aid") m.aid,
    ⟨str "tid", padded tid, .num (number tid)⟩, .quoted (str "agent_type") m.type,
    .quoted (str "target_type") p.type, .quoted (str "os") m.os, .quoted (str "hostname") m.host,
    .quoted (str "ip") m.aip] ++
  (p.tip.map (.quoted (str "target_ip"))).toList

def alertEntries (license : Text) (tid : UInt64) (stat : Status) : List Entry :=
  [.quoted (str "license") license, .number (str "tid") tid, .quoted (str "status") stat.text]

def metricEntries (license : Text) (tid : UInt64) (samples : List (Epoch × Sample)) : List Entry :=
  [.quoted (str "license") license, .number (str "tid") tid,
    ⟨str "metrics", str "[" ++ commas ((recordsOfSamples samples).map Record.text) ++ str "]",
      .arr ((live samples).map fun s => recordTree s.1 s.2)⟩]

namespace Message

def entries : Message → List Entry
  | register m p tid => registerEntries m p tid
  | alert license tid stat => alertEntries license tid stat
  | metric license tid samples => metricEntries license tid samples

/-- What the message is read as. -/
def tree (msg : Message) : Tree := .obj (msg.entries.map Entry.member)

theorem text_entries (msg : Message) :
    msg.text = str "\x7b" ++ commas (msg.entries.map Entry.print) ++ str "\x7d" := by
  cases msg with
  | register m p tid =>
    rw [text, registerText_eq, registerMembers, entries, registerEntries]
    cases p.tip <;> rfl
  | alert license tid stat => exact alertText_eq license tid stat
  | metric license tid samples => exact readyText_eq license tid (recordsOfSamples samples)

end Message

theorem reads_record {start : Epoch} {s : Sample} (h : Readable s) :
    Reads (Record.text ⟨start, commas (s.kept.map Part.text)⟩) (recordTree start s) := by
  rw [Record.text_members]
  refine reads_entries (recordEntries start s) ?_
  simp only [recordEntries, List.forall_mem_cons]
  exact ⟨⟨(by decide : Clean (str "timestamp")), reads_number start⟩,
    ⟨(by decide : Clean (str "values")), reads_values h⟩, List.forall_mem_nil _⟩

theorem Entry.quoted_reads {name t : Text} (hname : Clean name) (ht : Clean t) :
    (Entry.quoted name t).Reads := ⟨hname, reads_str ht⟩

theorem Entry.number_reads {name : Text} (hname : Clean name) (n : UInt64) :
    (Entry.number name n).Reads := ⟨hname, reads_number n⟩

section entries

variable {m : Meta} {p : Plugin} {license : Text} {tid : UInt64} {stat : Status}
  {samples : List (Epoch × Sample)}

theorem registerEntries_read (h : Sound Number (registerPieces m p tid)) :
    ∀ f ∈ registerEntries m p tid, f.Reads := by
  simp only [registerPieces, sound_append, sound_cons, Piece.Sound] at h
  obtain ⟨⟨⟨-, hlicense, -, -, -, -, -, htype, -, htarget, -, hos, -, hhost, -, hip, -⟩,
    htip⟩, -⟩ := h
  simp only [registerEntries, List.forall_mem_append, List.forall_mem_cons]
  refine ⟨⟨Entry.quoted_reads (by decide) hlicense, Entry.number_reads (by decide) m.aid,
    ⟨(by decide : Clean (str "tid")), reads_padded tid⟩, Entry.quoted_reads (by decide) htype,
    Entry.quoted_reads (by decide) htarget, Entry.quoted_reads (by decide) hos,
    Entry.quoted_reads (by decide) hhost, Entry.quoted_reads (by decide) hip,
    List.forall_mem_nil _⟩, ?_⟩
  cases hp : p.tip with
  | none => exact List.forall_mem_nil _
  | some tip =>
    rw [hp, sound_cons, sound_cons] at htip
    intro f hf
    obtain rfl := List.mem_singleton.mp hf
    exact Entry.quoted_reads (by decide) htip.2.1

theorem alertEntries_read (h : Sound Number (alertPieces license tid stat)) :
    ∀ f ∈ alertEntries license tid stat, f.Reads := by
  simp only [alertPieces, sound_cons, Piece.Sound] at h
  obtain ⟨-, hlicense, -, -, -, hstatus, -⟩ := h
  simp only [alertEntries, List.forall_mem_cons]
  exact ⟨Entry.quoted_reads (by decide) hlicense, Entry.number_reads (by decide) tid,
    Entry.quoted_reads (by decide) hstatus, List.forall_mem_nil _⟩

theorem metricEntries_read (hlicense : Clean license) (h : ∀ x ∈ live samples, Readable x.2) :
    ∀ f ∈ metricEntries license tid samples, f.Reads := by
  simp only [metricEntries, List.forall_mem_cons]
  refine ⟨Entry.quoted_reads (by decide) hlicense, Entry.number_reads (by decide) tid,
    ⟨(by decide : Clean (str "metrics")), ?_⟩, List.forall_mem_nil _⟩
  rw [recordsOfSamples_eq, List.map_map]
  exact reads_arr fun x hx => reads_record (h x hx)

end entries

/-- A message that is JSON is read as its tree. -/
theorem Message.reads_tree {msg : Message} (hs : Sound Number msg.pieces) (hj : msg.Joined) :
    Reads msg.text msg.tree := by
  rw [text_entries, tree]
  refine reads_entries _ ?_
  cases msg with
  | register m p tid => exact registerEntries_read hs
  | alert license tid stat => exact alertEntries_read hs
  | metric license tid samples =>
    obtain ⟨hlicense, -, hrecords⟩ := sound_metricPieces.mp hs
    have hjoined := live_joined_iff.mp hj
    refine metricEntries_read hlicense fun x hx p hp => ⟨?_, hjoined x hx p hp⟩
    exact (sound_recordPieces.mp (hrecords x hx)).2 p hp

/-! ## What is read -/

/-- The packet that carries the message. -/
def Message.packetType : Message → PacketType
  | register _ _ _ => .register
  | alert _ _ _ => .alert
  | metric _ _ _ => .metric

def Message.report : Message → Report
  | register m p tid => .register m.license m.aid tid m.type p.type m.os m.host m.aip p.tip
  | alert license tid stat => .alert license tid stat.text
  | metric license tid samples => .ofSamples license tid (live samples)

theorem ofRecord_recordTree (start : Epoch) (s : Sample) :
    Report.ofRecord (recordTree start s) = some (start, s.sections) := by
  have hstart := Tree.unsigned_decimal start
  have hfield : (recordTree start s).field (str "timestamp") =
      some (.num (decimal start.toNat)) := rfl
  have hvalues : (recordTree start s).field (str "values") = some (.obj s.sections) := rfl
  simp only [Report.ofRecord, hfield, hvalues, Option.bind_eq_bind, Option.bind_some, hstart,
    Tree.members]

theorem mapM_ofRecord (xs : List (Epoch × Sample)) :
    (xs.map fun s => recordTree s.1 s.2).mapM Report.ofRecord =
      some (xs.map fun s => (s.1, s.2.sections)) := by
  induction xs with
  | nil => rfl
  | cons x xs ih =>
    rw [List.map_cons, List.mapM_cons, ofRecord_recordTree, ih]
    rfl

theorem ofRegister_tree (m : Meta) (p : Plugin) (tid : UInt64) :
    Report.ofRegister (Message.register m p tid).tree =
      some (Message.register m p tid).report := by
  have htip :
      ((Message.register m p tid).tree.field (str "target_ip")).bind Tree.string = p.tip := by
    rw [Message.tree, Message.entries, registerEntries]
    cases p.tip <;> rfl
  change ((Tree.num (decimal m.aid.toNat)).unsigned.bind fun aid =>
    (Tree.num (decimal tid.toNat)).unsigned.bind fun tid' =>
      some (Report.register m.license aid tid' m.type p.type m.os m.host m.aip
        (((Message.register m p tid).tree.field (str "target_ip")).bind Tree.string))) = _
  rw [Tree.unsigned_decimal, Tree.unsigned_decimal, htip]
  rfl

theorem ofAlert_tree (license : Text) (tid : UInt64) (stat : Status) :
    Report.ofAlert (Message.alert license tid stat).tree =
      some (Message.alert license tid stat).report := by
  change ((Tree.num (decimal tid.toNat)).unsigned.bind fun tid' =>
    some (Report.alert license tid' stat.text)) = _
  rw [Tree.unsigned_decimal]
  rfl

theorem ofMetric_tree (license : Text) (tid : UInt64) (samples : List (Epoch × Sample)) :
    Report.ofMetric (Message.metric license tid samples).tree =
      some (Message.metric license tid samples).report := by
  change ((Tree.num (decimal tid.toNat)).unsigned.bind fun tid' =>
    (((live samples).map fun s => recordTree s.1 s.2).mapM Report.ofRecord).map
      (Report.metric license tid')) = _
  rw [Tree.unsigned_decimal, mapM_ofRecord]
  rfl

/-- A server that reads a posted message as JSON gets back what was put into it, if the texts
in it are plain, the numbers are numbers and the sections of a MySQL target are joined. -/
theorem message_read_back (msg : Message) (hclean : ∀ t ∈ copied msg.pieces, Clean t)
    (hnum : ∀ t ∈ numerals msg.pieces, Number t) (hjoined : msg.Joined) :
    Report.read msg.packetType msg.text = some msg.report := by
  have hread := (Message.reads_tree (sound_iff.mpr ⟨hclean, hnum⟩) hjoined).read
  rw [Report.read, hread, Option.bind_some]
  cases msg with
  | register m p tid => exact ofRegister_tree m p tid
  | alert license tid stat => exact ofAlert_tree license tid stat
  | metric license tid samples => exact ofMetric_tree license tid samples

theorem message_read_back_bash :
    Report.read .metric (Message.sample .bash).text = some (Message.sample .bash).report := by
  have hnumbers : ∀ t ∈ numerals (Message.sample .bash).pieces, Number t :=
    Message.sample_numbers (by decide +kernel)
  have hclean : ∀ t ∈ copied (Message.sample .bash).pieces, Clean t := by decide
  exact message_read_back (.sample .bash) hclean hnumbers (Message.sample_joined .bash)

/-! ## Runs -/

/-- A list whose image is made of blocks is made of blocks. -/
theorem exists_blocks {α β : Type} {f : α → β} {xs : List α} {yss : List (List β)} {zs : List β}
    (h : xs.map f = yss.flatten ++ zs) :
    ∃ (xss : List (List α)) (rest : List α),
      xs = xss.flatten ++ rest ∧ xss.map (List.map f) = yss ∧ rest.map f = zs := by
  induction yss generalizing xs with
  | nil => exact ⟨[], xs, rfl, rfl, h⟩
  | cons ys yss ih =>
    rw [List.flatten_cons, List.append_assoc, List.map_eq_append_iff] at h
    obtain ⟨us, vs, rfl, hus, hvs⟩ := h
    obtain ⟨xss, rest, rfl, hxss, hrest⟩ := ih hvs
    refine ⟨us :: xss, rest, ?_, ?_, hrest⟩
    · rw [List.flatten_cons, List.append_assoc]
    · rw [List.map_cons, hus, hxss]

/-- The calls and the samples they take, with the times of the records. -/
def timed (cs : List GatherCall) (samples : List Sample) : List (Epoch × Sample) :=
  cs.zipWith (fun c s => (c.start, s)) samples

theorem recordsOf_timed {cs : List GatherCall} {samples : List Sample}
    (h : List.Forall₂ (fun c s => c.gather = s.gatherer) cs samples) :
    recordsOf cs = recordsOfSamples (timed cs samples) := by
  induction h with
  | nil => rfl
  | @cons c s cs samples hgather _ ih =>
    have hrecord : c.record? = s.record c.start := by
      rw [GatherCall.record?, GatherCall.emitted, hgather]
      rfl
    rw [recordsOf, timed, List.zipWith_cons_cons, recordsOfSamples, List.filterMap_cons,
      List.filterMap_cons, hrecord, ← recordsOf, ih]
    rfl

theorem live_eq_self {samples : List (Epoch × Sample)} (h : ∀ x ∈ samples, x.2.kept ≠ []) :
    live samples = samples :=
  List.filter_eq_self.mpr fun x hx => decide_eq_true (h x hx)

theorem kept_of_live {samples : List (Epoch × Sample)} :
    ∀ x ∈ live samples, x ∈ samples ∧ x.2.kept ≠ [] := by
  intro x hx
  obtain ⟨hmem, hkept⟩ := List.mem_filter.mp hx
  exact ⟨hmem, of_decide_eq_true hkept⟩

theorem mem_timed {cs : List GatherCall} {samples : List Sample} :
    ∀ x ∈ timed cs samples, x.2 ∈ samples := by
  induction cs generalizing samples with
  | nil => exact List.forall_mem_nil _
  | cons c cs ih =>
    cases samples with
    | nil => exact List.forall_mem_nil _
    | cons s samples =>
      refine List.forall_mem_cons.mpr ⟨List.mem_cons_self, fun x hx => ?_⟩
      exact List.mem_cons_of_mem s (ih x hx)

/-- The record of a sample that leaves one. -/
def recordOf (x : Epoch × Sample) : Record := ⟨x.1, commas (x.2.kept.map Part.text)⟩

theorem recordsOfSamples_live {b : List (Epoch × Sample)} (h : ∀ x ∈ b, x.2.kept ≠ []) :
    recordsOfSamples b = b.map recordOf := by
  rw [recordsOfSamples_eq, live_eq_self h]
  rfl

theorem metric_read_back {license : Text} {tid : UInt64} {b : List (Epoch × Sample)}
    (hlicense : Clean license) (h : ∀ x ∈ b, Readable x.2 ∧ x.2.kept ≠ []) :
    Report.read .metric (readyText license tid (b.map recordOf)) =
      some (.ofSamples license tid b) := by
  have hlive : live b = b := live_eq_self fun x hx => (h x hx).2
  have hreads : Reads (Message.metric license tid b).text (Message.metric license tid b).tree := by
    rw [Message.text_entries]
    refine reads_entries _ (metricEntries_read hlicense fun x hx => ?_)
    exact (h x (hlive ▸ hx)).1
  have hofMetric := ofMetric_tree license tid b
  rw [Message.report, hlive] at hofMetric
  rw [← recordsOfSamples_live fun x hx => (h x hx).2, ← hofMetric, Report.read]
  change ((Json.read (Message.metric license tid b).text).bind Report.ofMetric) = _
  rw [hreads.read]
  rfl

theorem reports_of_finished {license : Text} {tid : UInt64} {batches : List (List (Epoch × Sample))}
    {pkts : List Packet} (hlicense : Clean license)
    (hread : ∀ b ∈ batches, ∀ x ∈ b, Readable x.2 ∧ x.2.kept ≠ [])
    (h : List.Forall₂ (fun b pkt => Finished license tid (b.map recordOf) pkt) batches pkts) :
    [] ∉ batches ∧ pkts.map (fun pkt => Report.read .metric pkt.text) =
      batches.map fun b => some (.ofSamples license tid b) := by
  induction h with
  | nil => exact ⟨List.not_mem_nil, rfl⟩
  | @cons b pkt batches pkts hfinished _ ih =>
    obtain ⟨hb, hbatches⟩ := List.forall_mem_cons.mp hread
    obtain ⟨hne, hreports⟩ := ih hbatches
    refine ⟨fun hmem => ?_, ?_⟩
    · rcases List.mem_cons.mp hmem with rfl | hmem
      · exact hfinished.records rfl
      · exact hne hmem
    · rw [List.map_cons, List.map_cons, hreports, hfinished.text, metric_read_back hlicense hb]

/-- From the packets that a run makes READY a server reads the samples that left a record,
each once and in the order in which they were taken; those it does not read yet are in the
working packet. -/
theorem published_read_back (m : Meta) (p : Plugin) (turns : List Turn) (samples : List Sample)
    (hw : p.working = none) (hfit : FitsAll m.license p.tid none (calls turns))
    (hsamples : List.Forall₂ (fun c s => c.gather = s.gatherer) (calls turns) samples)
    (hlicense : Clean m.license) (hread : ∀ s ∈ samples, Readable s) :
    let h := run (takeTurn m) (p, []) turns
    ∃ (batches : List (List (Epoch × Sample))) (rest : List (Epoch × Sample)),
      live (timed (calls turns) samples) = batches.flatten ++ rest ∧
      [] ∉ batches ∧ workingText m.license p.tid (recordsOfSamples rest) h.1.working ∧
      (published h.2).map (fun pkt => Report.read .metric pkt.text) =
        batches.map fun b => some (.ofSamples m.license p.tid b) := by
  obtain ⟨-, rss, rs, hready, hworking, hrecords⟩ := gather_run_exact m p turns hw hfit
  rw [recordsOf_timed hsamples, recordsOfSamples_eq] at hrecords
  change _ = (live (timed (calls turns) samples)).map recordOf at hrecords
  obtain ⟨batches, rest, hlive, rfl, rfl⟩ := exists_blocks hrecords.symm
  have hmem (x : Epoch × Sample) (hx : x ∈ batches.flatten ++ rest) :
      Readable x.2 ∧ x.2.kept ≠ [] := by
    obtain ⟨hx, hkept⟩ := kept_of_live x (hlive ▸ hx)
    exact ⟨hread x.2 (mem_timed x hx), hkept⟩
  obtain ⟨hne, hreports⟩ := reports_of_finished hlicense
    (fun b hb x hx => hmem x (List.mem_append_left _ (List.mem_flatten.mpr ⟨b, hb, hx⟩)))
    (List.forall₂_map_left_iff.mp hready)
  refine ⟨batches, rest, hlive, hne, ?_, hreports⟩
  rw [recordsOfSamples_live fun x hx => (hmem x (List.mem_append_right _ hx)).2]
  exact hworking

theorem Top.bash_fits : [Top.mk .bash (str "0.5")].length ≤ 10 := by decide

/-- The sample of `Message.sample`. -/
def Sample.bash : Sample :=
  .os ⟨OsSection.all, List.Perm.refl _⟩
    { OsAnswers.sample with topMemory := some ⟨_, Top.bash_fits⟩ }

theorem Sample.readable_bash : Readable Sample.bash := by
  have hnumbers : ∀ t ∈ numerals (Message.sample .bash).pieces, Number t :=
    Message.sample_numbers (by decide +kernel)
  have hclean : ∀ t ∈ copied (Message.sample .bash).pieces, Clean t := by decide
  obtain ⟨-, -, hrecords⟩ := sound_metricPieces.mp (sound_iff.mpr ⟨hclean, hnumbers⟩)
  have hkept : Sample.bash.kept ≠ [] := by decide +kernel
  have hlive : (1000, Sample.bash) ∈ live [(1000, Sample.bash)] :=
    List.mem_filter.mpr ⟨List.mem_cons_self, decide_eq_true hkept⟩
  obtain ⟨-, hbodies⟩ := sound_recordPieces.mp (hrecords _ hlive)
  have hjoined : ∀ p ∈ Sample.bash.kept, p.joined := Sample.bash.joined_iff.mp trivial
  exact fun p hp => ⟨hbodies p hp, hjoined p hp⟩

theorem published_read_back_bash :
    let turns := [Turn.gather ⟨1000, 8000, .fresh, Sample.bash.gatherer⟩]
    ∃ (batches : List (List (Epoch × Sample))) (rest : List (Epoch × Sample)),
      live (timed (calls turns) [Sample.bash]) = batches.flatten ++ rest ∧
      (published (run (takeTurn Meta.sample) (Plugin.sample, []) turns).2).map
          (fun pkt => Report.read .metric pkt.text) =
        batches.map fun b => some (.ofSamples Meta.sample.license Plugin.sample.tid b) := by
  intro turns
  have hsamples : List.Forall₂ (fun c s => c.gather = s.gatherer) (calls turns) [Sample.bash] :=
    .cons rfl .nil
  obtain ⟨batches, rest, hlive, -, -, hreports⟩ :=
    published_read_back Meta.sample Plugin.sample turns [Sample.bash] rfl (by decide +kernel)
      hsamples (by decide) (List.forall_mem_singleton.mpr Sample.readable_bash)
  exact ⟨batches, rest, hlive, hreports⟩

end MonitoringAgent
