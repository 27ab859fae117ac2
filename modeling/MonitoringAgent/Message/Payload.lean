import MonitoringAgent.Mysql.WellFormed
import MonitoringAgent.Os.WellFormed
import MonitoringAgent.Plugin.Register

/-!
# Messages

The texts that are posted, for a registration, an alert and the metrics of either kind of
target, and the pieces they are put together from.
-/
namespace MonitoringAgent

open Buffer Decimal Format Json SectionTree Packet Transition

/-! ## Parts -/

/-- A function that `packet_gather` is called for, the pieces of what it appends, and the
condition under which these are members of an object once they are sound. -/
structure Part where
  tag : Text
  func : Gatherer
  body : List Piece
  found : Bool
  joined : Prop
  clean_tag : Clean tag
  emits : func.emit (ch '{') = (render body, if found then .enone else .enodata)
  members : Sound Number body → joined → Members (render body)
  or_clash : Sound Printed body →
    (Sound Number body ∧ joined) ∨ scan .brace (render body) = .clash

/-- A function that only appends, and prints members if `joined` holds. -/
def Output.part (tag : Text) (o : Output) (joined : Prop) (htag : Clean tag)
    (hprints : joined → ∃ ms, Prints o.appends.flatten ms)
    (hclash : ¬ joined → Sound Printed o.appends.flatten →
      scan .brace (render o.appends.flatten) = .clash) : Part where
  tag := tag
  func := o.gatherer
  body := o.appends.flatten
  found := o.found
  joined := joined
  clean_tag := htag
  emits := o.emit_gatherer _
  members := fun hs hj => (hprints hj).elim fun _ h => h.members hs
  or_clash := fun hs => by
    by_cases hj : joined
    · obtain ⟨ms, h⟩ := hprints hj
      exact (h.or_clash hs).imp_left fun hnum => ⟨hnum, hj⟩
    · exact Or.inr (hclash hj hs)

def OsSection.part (a : OsAnswers) (sec : OsSection) : Part where
  tag := sec.tag
  func := sec.gatherer a
  body := Format.joined (memberPieces (sec.trees a))
  found := sec.found a
  joined := True
  clean_tag := sec.clean_tag
  emits := by
    have hemits := sec.emits a
    refine Prod.ext (hemits.text.trans (prints_memberPieces _).text.symm) ?_
    rw [OsSection.found]
    rcases hemits.res with hres | hres
    · simp [hres]
    · simp [hres]
  members := fun hs _ => (prints_memberPieces _).members hs
  or_clash := fun hs => ((prints_memberPieces _).or_clash hs).imp_left fun hnum => ⟨hnum, trivial⟩

/-- What one call of `mysql_gather` meets, with the appends of its section functions. -/
structure MysqlSample where
  module : MysqlModule
  pingFails : Bool
  threadId : UInt64
  answers : MysqlAnswers
  query : Output
  innodb : Output
  thread : Output
  query_eq : answers.queryOutput = some query
  innodb_eq : answers.innodbOutput = some innodb
  thread_eq : answers.threadOutput = some thread

namespace MysqlSample

variable (s : MysqlSample)

def observation : Observation where
  pingFails := s.pingFails
  threadId := s.threadId
  crud := s.answers.crudOutput.toSection
  query := s.query.toSection
  innodb := s.innodb.toSection
  thread := s.thread.toSection

def crudPart : Part :=
  s.answers.crudOutput.part (str "curd") True (by decide)
    (fun _ => ⟨_, crud_prints s.answers.crud s.answers.ddl⟩) (fun h => absurd trivial h)

def queryPart : Part :=
  s.query.part (str "query") s.answers.QueryJoined (by decide)
    (fun hj => ⟨_, query_prints hj s.query_eq⟩)
    (fun hj hs => query_clash hj (query_numbers s.query_eq hs) s.query_eq)

def innodbPart : Part :=
  s.innodb.part (str "innodb") s.answers.InnodbJoined (by decide)
    (fun hj => ⟨_, innodb_prints hj s.innodb_eq⟩)
    (fun hj hs => innodb_clash hj (innodb_sizes s.innodb_eq hs) s.innodb_eq)

def threadPart : Part :=
  s.thread.part (str "thread") True (by decide) (fun _ => ⟨_, thread_prints s.thread_eq⟩)
    (fun h => absurd trivial h)

def replicaPart : Part :=
  Output.part (str "replica") ⟨[], false⟩ True (by decide) (fun _ => ⟨_, prints_memberPieces []⟩)
    (fun h => absurd trivial h)

/-- The sections are called for. -/
def collects : Bool := ! s.pingFails && s.module.tid == s.threadId

def parts : List Part :=
  if s.collects then [s.crudPart, s.queryPart, s.innodbPart, s.threadPart, replicaPart] else []

end MysqlSample

/-! ## Samples -/

/-- One call of a gather function. -/
inductive Sample where
  | os (order : OsOrder) (a : OsAnswers)
  | mysql (s : MysqlSample)

namespace Sample

def gatherer : Sample → Gatherer
  | os order a => osGather order a
  | mysql s => (mysqlGather s.module s.observation).2

def parts : Sample → List Part
  | os order a => order.list.map (OsSection.part a)
  | mysql s => s.parts

/-- The parts whose text stays. -/
def kept (s : Sample) : List Part := s.parts.filter (·.found)

/-- The record of a call that begins at `start`. -/
def record (start : Epoch) (s : Sample) : Option Record :=
  if (s.gatherer.emit (ch '{')).2 = .enone then some ⟨start, (s.gatherer.emit (ch '{')).1⟩
  else none

end Sample

def Part.text (p : Part) : Text := sectionOf p.tag (render p.body)

theorem partTexts_parts (ps : List Part) :
    partTexts (ps.map fun p => (p.tag, p.func)) = (ps.filter (·.found)).map Part.text := by
  induction ps with
  | nil => rfl
  | cons p ps ih =>
    rw [List.map_cons, partTexts, List.filterMap_cons, ← partTexts, ih, partText, p.emits,
      List.filter_cons]
    cases p.found <;> simp [Part.text]

theorem emit_parts (ps : List Part) :
    let r := (gatherParts (ps.map fun p => (p.tag, p.func)) []).emit (ch '{')
    (r.2 = .enone ↔ ps.filter (·.found) ≠ []) ∧
      r.1 = commas ((ps.filter (·.found)).map Part.text) := by
  have hne : ∀ part ∈ ps.map fun p => (p.tag, p.func), (part.2.emit (ch '{')).2 ≠ .eplugup := by
    intro part hpart
    obtain ⟨p, -, rfl⟩ := List.mem_map.mp hpart
    rw [p.emits]
    cases p.found <;> simp
  obtain ⟨-, hres, htext⟩ := emit_gatherParts _ [] (ch '{') (by simp) hne
  rw [partTexts_parts, joinAfter, if_neg (by decide)] at htext
  rw [partTexts_parts] at hres
  exact ⟨hres.trans (by simp), htext⟩

theorem eplugdown_and (a : GatherError) : GatherError.eplugdown.and a = a := by cases a <;> rfl

theorem mysqlSections_eq (s : MysqlSample) :
    mysqlSections s.observation =
      gatherParts ([s.crudPart, s.queryPart, s.innodbPart, s.threadPart,
        MysqlSample.replicaPart].map fun p => (p.tag, p.func)) [] := by
  simp only [mysqlSections, gatherParts, List.map_cons, List.map_nil, List.nil_append,
    List.cons_append, GatherError.andAll, List.foldl_cons, List.foldl_nil, eplugdown_and]
  rfl

/-- The sections are called for, or nothing is appended. -/
theorem MysqlSample.gather_cases (s : MysqlSample) :
    (s.collects = true ∧ (mysqlGather s.module s.observation).2 = mysqlSections s.observation) ∨
      (s.collects = false ∧
        ∃ res, res ≠ .enone ∧ (mysqlGather s.module s.observation).2 = .ret res) := by
  unfold mysqlGather
  cases hping : s.pingFails with
  | true =>
    refine Or.inr ⟨by simp [collects, hping], ?_⟩
    cases hon : s.module.on with
    | true => exact ⟨.eplugdown, by simp, by simp [observation, hping]⟩
    | false => exact ⟨.enodata, by simp, by simp [observation, hping]⟩
  | false =>
    by_cases hid : s.module.tid = s.threadId
    · exact Or.inl ⟨by simp [collects, hping, hid], by simp [observation, hping, hid]⟩
    · refine Or.inr ⟨by simp [collects, hid], .eplugup, by simp, ?_⟩
      simp [observation, hping, hid]

theorem Sample.record_of_parts {s : Sample} (start : Epoch)
    (h : s.gatherer = gatherParts (s.parts.map fun p => (p.tag, p.func)) []) :
    s.record start = if s.kept = [] then none else some ⟨start, commas (s.kept.map Part.text)⟩ := by
  obtain ⟨hres, htext⟩ := emit_parts s.parts
  rw [record, h, htext, kept]
  by_cases hnil : s.parts.filter (·.found) = []
  · rw [if_neg (mt hres.mp (not_not.mpr hnil)), if_pos hnil]
  · rw [if_pos (hres.mpr hnil), if_neg hnil]

/-- A call leaves a record exactly if one of its parts stays. -/
theorem Sample.record_eq (start : Epoch) (s : Sample) :
    s.record start = if s.kept = [] then none else some ⟨start, commas (s.kept.map Part.text)⟩ := by
  cases s with
  | os order a =>
    refine record_of_parts start ?_
    rw [gatherer, osGather, parts, List.map_map]
    rfl
  | mysql s =>
    rcases s.gather_cases with ⟨hcollects, heq⟩ | ⟨hnot, res, hres, heq⟩
    · refine record_of_parts start ?_
      rw [gatherer, heq, mysqlSections_eq, parts, MysqlSample.parts, if_pos hcollects]
    · have hkept : (Sample.mysql s).kept = [] := by
        rw [kept, parts, MysqlSample.parts, hnot]
        rfl
      rw [record, gatherer, heq, hkept, if_pos rfl]
      exact if_neg hres

/-! ## Messages -/

inductive Message where
  | register (m : Meta) (p : Plugin) (tid : UInt64)
  | alert (license : Text) (tid : UInt64) (stat : Status)
  | metric (license : Text) (tid : UInt64) (samples : List (Epoch × Sample))

def recordsOfSamples (samples : List (Epoch × Sample)) : List Record :=
  samples.filterMap fun s => s.2.record s.1

namespace Message

def text : Message → Text
  | register m p tid => registerText m p tid
  | alert license tid stat => alertText license tid stat
  | metric license tid samples => readyText license tid (recordsOfSamples samples)

end Message

def registerPieces (m : Meta) (p : Plugin) (tid : UInt64) : List Piece :=
  [.lit (str "\x7b\"license\":"), .quoted m.license, .lit (str ",\"aid\":"), .bare (number m.aid),
    .lit (str ",\"tid\":" ++ List.replicate (20 - (number tid).length) (ch ' ')),
    .bare (number tid), .lit (str ",\"agent_type\":"), .quoted m.type,
    .lit (str ",\"target_type\":"), .quoted p.type, .lit (str ",\"os\":"), .quoted m.os,
    .lit (str ",\"hostname\":"), .quoted m.host, .lit (str ",\"ip\":"), .quoted m.aip] ++
  (match p.tip with
    | some tip => [.lit (str ",\"target_ip\":"), .quoted tip]
    | none => []) ++
  [.lit (str "\x7d")]

def alertPieces (license : Text) (tid : UInt64) (stat : Status) : List Piece :=
  [.lit (str "\x7b\"license\":"), .quoted license, .lit (str ",\"tid\":"), .bare (number tid),
    .lit (str ",\"status\":"), .quoted stat.text, .lit (str "\x7d")]

def Part.pieces (p : Part) : List Piece :=
  .lit (quote p.tag ++ str ":\x7b") :: p.body ++ [.lit (str "\x7d")]

def Sample.pieces (s : Sample) : List Piece := joined (s.kept.map Part.pieces)

/-- The pieces of a record. -/
def recordPieces (start : Epoch) (s : Sample) : List Piece :=
  [.lit (str "\x7b\"timestamp\":"), .bare (number start), .lit (str ",\"values\":\x7b")] ++
    s.pieces ++ [.lit (str "\x7d\x7d")]

/-- The samples that leave a record. -/
def live (samples : List (Epoch × Sample)) : List (Epoch × Sample) :=
  samples.filter fun s => s.2.kept ≠ []

def metricPieces (license : Text) (tid : UInt64) (samples : List (Epoch × Sample)) : List Piece :=
  [.lit (str "\x7b\"license\":"), .quoted license, .lit (str ",\"tid\":"), .bare (number tid),
      .lit (str ",\"metrics\":[")] ++
    joined ((live samples).map fun s => recordPieces s.1 s.2) ++
    [.lit (str "]\x7d")]

def Message.pieces : Message → List Piece
  | register m p tid => registerPieces m p tid
  | alert license tid stat => alertPieces license tid stat
  | metric license tid samples => metricPieces license tid samples

/-! ## The pieces of the texts -/

theorem license_quote : str "\x7b\"license\":\"" = str "\x7b\"license\":" ++ [ch '"'] := by decide

theorem tid_quote : str "\",\"tid\":" = [ch '"'] ++ str ",\"tid\":" := by decide

theorem render_registerPieces (m : Meta) (p : Plugin) (tid : UInt64) :
    render (registerPieces m p tid) = registerText m p tid := by
  have haid : str "\",\"aid\":" = [ch '"'] ++ str ",\"aid\":" := by decide
  have htype : str ",\"agent_type\":\"" = str ",\"agent_type\":" ++ [ch '"'] := by decide
  have htarget : str "\",\"target_type\":\"" =
      [ch '"'] ++ str ",\"target_type\":" ++ [ch '"'] := by decide
  have hos : str "\",\"os\":\"" = [ch '"'] ++ str ",\"os\":" ++ [ch '"'] := by decide
  have hhost : str "\",\"hostname\":\"" = [ch '"'] ++ str ",\"hostname\":" ++ [ch '"'] := by
    decide
  have hip : str "\",\"ip\":\"" = [ch '"'] ++ str ",\"ip\":" ++ [ch '"'] := by decide
  have htip : str ",\"target_ip\":\"" = str ",\"target_ip\":" ++ [ch '"'] := by decide
  have hend : str "\"" = [ch '"'] := by decide
  rw [registerPieces, registerText, registerHead, registerTail, padded, license_quote, haid, htype,
    htarget, hos, hhost, hip, hend]
  cases p.tip with
  | none => simp [Piece.text, quote, number]
  | some tip => simp [Piece.text, quote, number, htip]

theorem render_alertPieces (license : Text) (tid : UInt64) (stat : Status) :
    render (alertPieces license tid stat) = alertText license tid stat := by
  have hstatus : str ",\"status\":\"" = str ",\"status\":" ++ [ch '"'] := by decide
  have hend : str "\"\x7d" = [ch '"'] ++ str "\x7d" := by decide
  rw [alertPieces, alertText, license_quote, tid_quote, hstatus, hend]
  simp [Piece.text, quote, number]

theorem Part.render_pieces (p : Part) : render p.pieces = p.text := by
  have hclose : str "\":\x7b" = [ch '"'] ++ str ":\x7b" := by decide
  have hopen : str "\"" = [ch '"'] := by decide
  rw [pieces, text, sectionOf, hclose, hopen]
  simp [Piece.text, quote]

theorem Sample.render_pieces (s : Sample) : render s.pieces = commas (s.kept.map Part.text) := by
  rw [pieces, render_joined, List.map_map]
  exact congrArg commas (List.map_congr_left fun p _ => p.render_pieces)

theorem render_recordPieces (start : Epoch) (s : Sample) :
    render (recordPieces start s) = Record.text ⟨start, commas (s.kept.map Part.text)⟩ := by
  have hvalues : str ",\"values\":\x7b" = str "," ++ str "\"values\":\x7b" := by decide
  rw [recordPieces, Record.text, timestamp, render_append, render_append, s.render_pieces, hvalues]
  simp [Piece.text, number]

theorem recordsText_eq (rs : List Record) : recordsText rs = commas (rs.map Record.text) := by
  induction rs with
  | nil => rfl
  | cons r rs ih =>
    cases rs with
    | nil => simp [recordsText, commas]
    | cons r' rs =>
      rw [recordsText, ih]
      simp [commas]

theorem recordsOfSamples_eq (samples : List (Epoch × Sample)) :
    recordsOfSamples samples =
      (live samples).map fun s => ⟨s.1, commas (s.2.kept.map Part.text)⟩ := by
  induction samples with
  | nil => rfl
  | cons s samples ih =>
    rw [recordsOfSamples, List.filterMap_cons, ← recordsOfSamples, ih, s.2.record_eq, live,
      live, List.filter_cons]
    by_cases hnil : s.2.kept = [] <;> simp [hnil]

theorem render_metricPieces (license : Text) (tid : UInt64) (samples : List (Epoch × Sample)) :
    render (metricPieces license tid samples) =
      readyText license tid (recordsOfSamples samples) := by
  rw [metricPieces, readyText, metricText, metricHeader, recordsText_eq, recordsOfSamples_eq,
    render_append, render_append, render_joined, List.map_map, List.map_map,
    license_quote, tid_quote]
  simp [Piece.text, quote, number, render_recordPieces, Function.comp_def]

theorem Message.render_pieces (msg : Message) : render msg.pieces = msg.text := by
  cases msg with
  | register m p tid => exact render_registerPieces m p tid
  | alert license tid stat => exact render_alertPieces license tid stat
  | metric license tid samples => exact render_metricPieces license tid samples

/-! ## Packets -/

section packets

variable {m : Meta} {p : Plugin} {pkt : Packet} {tid : UInt64}

theorem Packet.Registers.text_eq (h : pkt.Registers m p tid) (hp : p.Bounded) :
    pkt.text = (Message.register m p tid).text :=
  h.tracks.text_eq (registerText_lt m hp tid)

theorem Packet.Alerts.text_eq {license : Text} {stat : Status} (h : pkt.Alerts license tid stat) :
    pkt.text = (Message.alert license tid stat).text := h.2

theorem exists_finished {license : Text} {rss : List (List Record)} {ready : List Packet}
    (h : List.Forall₂ (Finished license tid) rss ready) (hpkt : pkt ∈ ready) :
    ∃ rs ∈ rss, pkt.Finished license tid rs := by
  induction h with
  | nil => cases hpkt
  | cons hfinished _ ih =>
    rcases List.mem_cons.mp hpkt with rfl | hpkt
    · exact ⟨_, List.mem_cons_self, hfinished⟩
    · obtain ⟨rs, hrs, hfinished⟩ := ih hpkt
      exact ⟨rs, List.mem_cons_of_mem _ hrs, hfinished⟩

theorem exists_samples {rs : List Record}
    (h : ∀ r ∈ rs, ∃ start, ∃ s : Sample, s.record start = some r) :
    ∃ samples, recordsOfSamples samples = rs := by
  induction rs with
  | nil => exact ⟨[], rfl⟩
  | cons r rs ih =>
    obtain ⟨⟨start, s, hr⟩, hrs⟩ := List.forall_mem_cons.mp h
    obtain ⟨samples, rfl⟩ := ih hrs
    refine ⟨(start, s) :: samples, ?_⟩
    simp [recordsOfSamples, hr]

/-- Every packet that a run of a target's gather function makes READY carries such a
message. -/
theorem published_message {turns : List Turn} (hw : p.working = none)
    (hfit : FitsAll m.license p.tid none (calls turns))
    (hcalls : ∀ c ∈ calls turns, ∃ s : Sample, c.gather = s.gatherer) :
    ∀ pkt ∈ published (run (takeTurn m) (p, []) turns).2,
      ∃ samples, pkt.text = (Message.metric m.license p.tid samples).text := by
  intro pkt hpkt
  have hworking : Working m.license p.tid none p.working := by
    rw [hw]
    trivial
  obtain ⟨-, -, ready, hready, hall⟩ := run_takeTurn turns [] hworking hfit
  rw [hready] at hpkt
  obtain ⟨rs, hrs, hfinished⟩ := exists_finished hall hpkt
  have hrecords : ∀ r ∈ rs, ∃ start, ∃ s : Sample, s.record start = some r := by
    intro r hr
    have hmem : r ∈ recordsOf (calls turns) := by
      have hconserves := advanceAll_conserves none (calls turns)
      rw [show held none = [] from rfl, List.nil_append] at hconserves
      rw [← hconserves]
      exact List.mem_append_left _ (List.mem_flatten.mpr ⟨rs, hrs, hr⟩)
    obtain ⟨c, hc, hrecord⟩ := List.mem_filterMap.mp hmem
    obtain ⟨s, hs⟩ := hcalls c hc
    refine ⟨c.start, s, ?_⟩
    rw [Sample.record, ← hs]
    exact hrecord
  obtain ⟨samples, rfl⟩ := exists_samples hrecords
  exact ⟨samples, hfinished.text⟩

end packets

end MonitoringAgent
