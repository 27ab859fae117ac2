import MonitoringAgent.Message.Payload

/-!
# Texts inside messages

No text is escaped on its way into a message. What is posted is JSON that gives every text
back exactly if all of them can stand between quotes as they are, the numbers are numbers,
and the sections of a MySQL target are joined.
-/
namespace MonitoringAgent

open Buffer Decimal Format Json SectionTree Packet

/-! ## Messages as objects -/

def registerMembers (m : Meta) (p : Plugin) (tid : UInt64) : List (Text × Text) :=
  [(str "license", quote m.license), (str "aid", number m.aid), (str "tid", padded tid),
    (str "agent_type", quote m.type), (str "target_type", quote p.type), (str "os", quote m.os),
    (str "hostname", quote m.host), (str "ip", quote m.aip)] ++
  (p.tip.map fun tip => (str "target_ip", quote tip)).toList

theorem license_title :
    str "\x7b\"license\":" = str "\x7b" ++ (quote (str "license") ++ str ":") := by decide

theorem tid_title : str ",\"tid\":" = str "," ++ (quote (str "tid") ++ str ":") := by decide

theorem registerText_eq (m : Meta) (p : Plugin) (tid : UInt64) :
    registerText m p tid = str "\x7b" ++
      commas ((registerMembers m p tid).map fun f => quote f.1 ++ str ":" ++ f.2) ++
      str "\x7d" := by
  have haid : str ",\"aid\":" = str "," ++ (quote (str "aid") ++ str ":") := by decide
  have htype : str ",\"agent_type\":" = str "," ++ (quote (str "agent_type") ++ str ":") := by
    decide
  have htarget : str ",\"target_type\":" = str "," ++ (quote (str "target_type") ++ str ":") := by
    decide
  have hos : str ",\"os\":" = str "," ++ (quote (str "os") ++ str ":") := by decide
  have hhost : str ",\"hostname\":" = str "," ++ (quote (str "hostname") ++ str ":") := by decide
  have hip : str ",\"ip\":" = str "," ++ (quote (str "ip") ++ str ":") := by decide
  have htip : str ",\"target_ip\":" = str "," ++ (quote (str "target_ip") ++ str ":") := by decide
  rw [← render_registerPieces, registerPieces, license_title, haid, tid_title, htype, htarget,
    hos, hhost, hip, registerMembers]
  cases p.tip with
  | none => simp [Piece.text, commas, padded, number]
  | some tip => simp [Piece.text, commas, padded, number, htip]

theorem alertText_eq (license : Text) (tid : UInt64) (stat : Status) :
    alertText license tid stat = str "\x7b" ++
      commas ([(str "license", quote license), (str "tid", number tid),
        (str "status", quote stat.text)].map fun f => quote f.1 ++ str ":" ++ f.2) ++
      str "\x7d" := by
  have hstatus : str ",\"status\":" = str "," ++ (quote (str "status") ++ str ":") := by decide
  rw [← render_alertPieces, alertPieces, license_title, tid_title, hstatus]
  simp [Piece.text, commas]

theorem Part.text_eq (p : Part) :
    p.text = quote p.tag ++ str ":" ++ (str "\x7b" ++ render p.body ++ str "\x7d") := by
  have hcolon : str ":\x7b" = str ":" ++ str "\x7b" := by decide
  rw [← p.render_pieces, pieces, hcolon]
  simp [Piece.text]

theorem Record.text_members (r : Record) :
    r.text = str "\x7b" ++
      commas ([(str "timestamp", number r.start),
        (str "values", str "\x7b" ++ r.values ++ str "\x7d")].map fun f =>
          quote f.1 ++ str ":" ++ f.2) ++
      str "\x7d" := by
  have hstamp : str "\x7b\"timestamp\":" = str "\x7b" ++ (quote (str "timestamp") ++ str ":") := by
    decide
  have hvalues : str "\"values\":\x7b" = quote (str "values") ++ str ":" ++ str "\x7b" := by decide
  have hend : str "\x7d\x7d" = str "\x7d" ++ str "\x7d" := by decide
  rw [Record.text, timestamp, hstamp, hvalues, hend]
  simp [commas, number]

theorem readyText_eq (license : Text) (tid : UInt64) (rs : List Record) :
    readyText license tid rs = str "\x7b" ++
      commas ([(str "license", quote license), (str "tid", number tid),
        (str "metrics", str "[" ++ commas (rs.map Record.text) ++ str "]")].map fun f =>
          quote f.1 ++ str ":" ++ f.2) ++
      str "\x7d" := by
  have hmetrics : str ",\"metrics\":[" =
      str "," ++ (quote (str "metrics") ++ str ":" ++ str "[") := by decide
  have hend : str "]\x7d" = str "]" ++ str "\x7d" := by decide
  have hquote : quote license = [ch '"'] ++ license ++ [ch '"'] := rfl
  rw [readyText, metricText, metricHeader, recordsText_eq, license_quote, license_title,
    tid_quote, tid_title, hmetrics, hend, hquote]
  simp [commas, number]

/-! ## Well-formed messages -/

theorem value_quote {t : Text} (h : Clean t) : Value (quote t) := .string h.characters

theorem value_number (n : UInt64) : Value (number n) := .number (number_good n)

theorem value_padded (tid : UInt64) : Value (padded tid) := by
  have hspace : Space (List.replicate (20 - (decimal tid.toNat).length) (ch ' ')) := by
    intro c hc
    rw [List.eq_of_mem_replicate hc]
    exact Or.inl (by decide)
  have hpadded := Value.padded hspace (value_number tid) (List.forall_mem_nil _ : Space [])
  rwa [List.append_nil] at hpadded

theorem value_fields {fs : List (Text × Text)} (h : ∀ f ∈ fs, Clean f.1 ∧ Value f.2) :
    Value (str "\x7b" ++ commas (fs.map fun f => quote f.1 ++ str ":" ++ f.2) ++ str "\x7d") :=
  (members_named (fun f hf => (h f hf).1) fun f hf => (h f hf).2).object

theorem value_register {m : Meta} {p : Plugin} {tid : UInt64}
    (h : Sound Number (registerPieces m p tid)) : Value (registerText m p tid) := by
  have hnames : ∀ t ∈ [str "license", str "aid", str "tid", str "agent_type", str "target_type",
      str "os", str "hostname", str "ip", str "target_ip"], Clean t := by decide
  simp only [List.forall_mem_cons] at hnames
  obtain ⟨hlicense, haid, htid, htype, htarget, hos, hhost, hip, htip, -⟩ := hnames
  simp only [registerPieces, sound_append, sound_cons, Piece.Sound] at h
  obtain ⟨⟨⟨-, hlicense', -, -, -, -, -, htype', -, htarget', -, hos', -, hhost', -, hip', -⟩,
    htip'⟩, -⟩ := h
  rw [registerText_eq]
  refine value_fields ?_
  simp only [registerMembers, List.forall_mem_append, List.forall_mem_cons]
  refine ⟨⟨⟨hlicense, value_quote hlicense'⟩, ⟨haid, value_number m.aid⟩,
    ⟨htid, value_padded tid⟩, ⟨htype, value_quote htype'⟩, ⟨htarget, value_quote htarget'⟩,
    ⟨hos, value_quote hos'⟩, ⟨hhost, value_quote hhost'⟩, ⟨hip, value_quote hip'⟩,
    List.forall_mem_nil _⟩, ?_⟩
  cases hp : p.tip with
  | none => exact List.forall_mem_nil _
  | some tip =>
    rw [hp, sound_cons, sound_cons] at htip'
    intro f hf
    obtain rfl := List.mem_singleton.mp hf
    exact ⟨htip, value_quote htip'.2.1⟩

theorem value_alert {license : Text} {tid : UInt64} {stat : Status}
    (h : Sound Number (alertPieces license tid stat)) : Value (alertText license tid stat) := by
  have hnames : ∀ t ∈ [str "license", str "tid", str "status"], Clean t := by decide
  simp only [List.forall_mem_cons] at hnames
  obtain ⟨hlicense, htid, hstatus, -⟩ := hnames
  simp only [alertPieces, sound_cons, Piece.Sound] at h
  obtain ⟨-, hlicense', -, -, -, hstatus', -⟩ := h
  rw [alertText_eq]
  refine value_fields ?_
  simp only [List.forall_mem_cons]
  exact ⟨⟨hlicense, value_quote hlicense'⟩, ⟨htid, value_number tid⟩,
    ⟨hstatus, value_quote hstatus'⟩, List.forall_mem_nil _⟩

section metrics

variable {N : Text → Prop} {s : Sample} {start : Epoch}

theorem sound_samplePieces : Sound N s.pieces ↔ ∀ p ∈ s.kept, Sound N p.body := by
  rw [Sample.pieces, sound_joined, List.forall_mem_map]
  simp [Part.pieces, Piece.Sound]

theorem sound_recordPieces :
    Sound N (recordPieces start s) ↔ N (number start) ∧ ∀ p ∈ s.kept, Sound N p.body := by
  simp [recordPieces, Piece.Sound, sound_samplePieces]

theorem sound_metricPieces {license : Text} {tid : UInt64} {samples : List (Epoch × Sample)} :
    Sound N (metricPieces license tid samples) ↔
      Clean license ∧ N (number tid) ∧ ∀ x ∈ live samples, Sound N (recordPieces x.1 x.2) := by
  rw [metricPieces, sound_append, sound_append, sound_joined, List.forall_mem_map]
  simp [Piece.Sound, and_assoc]

/-- The parts of the record are sound and joined. -/
def Readable (s : Sample) : Prop := ∀ p ∈ s.kept, Sound Number p.body ∧ p.joined

theorem kept_texts (s : Sample) :
    s.kept.map Part.text = s.kept.map fun p =>
      quote p.tag ++ str ":" ++ (str "\x7b" ++ render p.body ++ str "\x7d") :=
  List.map_congr_left fun p _ => p.text_eq

theorem members_of_readable (h : Readable s) : Members (commas (s.kept.map Part.text)) := by
  rw [kept_texts]
  exact members_named (fun p _ => p.clean_tag) fun p hp => (p.members (h p hp).1 (h p hp).2).object

theorem value_record (h : Readable s) :
    Value (Record.text ⟨start, commas (s.kept.map Part.text)⟩) := by
  rw [Record.text_members]
  refine value_fields ?_
  simp only [List.forall_mem_cons]
  exact ⟨⟨(by decide : Clean (str "timestamp")), value_number start⟩,
    ⟨(by decide : Clean (str "values")), (members_of_readable h).object⟩, List.forall_mem_nil _⟩

theorem value_metric {license : Text} {tid : UInt64} {samples : List (Epoch × Sample)}
    (hlicense : Clean license) (h : ∀ x ∈ live samples, Readable x.2) :
    Value (readyText license tid (recordsOfSamples samples)) := by
  rw [readyText_eq, recordsOfSamples_eq]
  refine value_fields ?_
  simp only [List.forall_mem_cons]
  refine ⟨⟨(by decide : Clean (str "license")), value_quote hlicense⟩,
    ⟨(by decide : Clean (str "tid")), value_number tid⟩,
    ⟨(by decide : Clean (str "metrics")), .array ?_⟩, List.forall_mem_nil _⟩
  rw [List.map_map, List.forall_mem_map]
  exact fun x hx => value_record (h x hx)

/-! ## Messages that are not -/

theorem readable_or_clash (h : ∀ p ∈ s.kept, Sound Printed p.body) :
    Readable s ∨ scan .brace (commas (s.kept.map Part.text)) = .clash := by
  rw [kept_texts]
  refine scan_members_or (fun p _ => p.clean_tag) ?_ ?_
  · intro p _ hp
    exact scan_value (p.members hp.1 hp.2).object
  · intro p hp
    exact (p.or_clash (h p hp)).imp_right scan_object_clash

theorem record_or_clash (h : ∀ p ∈ s.kept, Sound Printed p.body) :
    Readable s ∨
      scan .other (Record.text ⟨start, commas (s.kept.map Part.text)⟩) = .clash := by
  refine (readable_or_clash h).imp_right fun hclash => ?_
  have hnumber := scan_number (number_good start) (Or.inr rfl)
  rw [Record.text, timestamp]
  simp only [scan_append]
  rw [show scan .other (str "\x7b\"timestamp\":") = .other by decide,
    show decimal start.toNat = number start from rfl, hnumber,
    show scan .digit (str ",") = .other by decide,
    show scan .other (str "\"values\":\x7b") = .brace by decide, hclash, scan_clash]

theorem metric_or_clash {license : Text} {tid : UInt64} {samples : List (Epoch × Sample)}
    (hlicense : Clean license) (h : ∀ x ∈ live samples, ∀ p ∈ x.2.kept, Sound Printed p.body) :
    (∀ x ∈ live samples, Readable x.2) ∨
      scan .other (readyText license tid (recordsOfSamples samples)) = .clash := by
  have hrecords : (∀ x ∈ live samples, Readable x.2) ∨
      scan .other (commas ((recordsOfSamples samples).map Record.text)) = .clash := by
    rw [recordsOfSamples_eq, List.map_map]
    exact scan_commas_or (fun x _ hx => scan_value (value_record hx))
      fun x hx => record_or_clash (h x hx)
  refine hrecords.imp_right fun hclash => ?_
  have hnumber := scan_number (number_good tid) (Or.inr rfl)
  rw [readyText, metricText, metricHeader, recordsText_eq]
  simp only [scan_append]
  rw [show scan .other (str "\x7b\"license\":\"") = .inside by decide,
    scan_characters hlicense.characters, show scan .inside (str "\",\"tid\":") = .other by decide,
    show decimal tid.toNat = number tid from rfl, hnumber,
    show scan .digit (str ",\"metrics\":[") = .other by decide, hclash, scan_clash]

end metrics

/-! ## All messages -/

/-- The sections of a MySQL target that stay are joined. -/
def Sample.Joined : Sample → Prop
  | os _ _ => True
  | mysql s => s.collects = true →
    (s.query.found = true → s.answers.QueryJoined) ∧
      (s.innodb.found = true → s.answers.InnodbJoined)

def Message.Joined : Message → Prop
  | register _ _ _ => True
  | alert _ _ _ => True
  | metric _ _ samples => ∀ x ∈ samples, x.2.Joined

theorem Sample.joined_iff (s : Sample) : s.Joined ↔ ∀ p ∈ s.kept, p.joined := by
  cases s with
  | os order a =>
    refine iff_of_true trivial fun p hp => ?_
    obtain ⟨sec, -, rfl⟩ := List.mem_map.mp (List.mem_of_mem_filter hp)
    trivial
  | mysql s =>
    simp only [Joined, kept, parts, MysqlSample.parts, List.mem_filter]
    split
    · next hcollects =>
      simp [hcollects, MysqlSample.crudPart, MysqlSample.queryPart, MysqlSample.innodbPart,
        MysqlSample.threadPart, MysqlSample.replicaPart, Output.part]
    · next hnot => simp [hnot]

theorem live_joined_iff {samples : List (Epoch × Sample)} :
    (∀ x ∈ samples, x.2.Joined) ↔ ∀ x ∈ live samples, ∀ p ∈ x.2.kept, p.joined := by
  simp only [Sample.joined_iff, live, List.mem_filter]
  refine ⟨fun h x hx => h x hx.1, fun h x hx p hp => h x ⟨hx, ?_⟩ p hp⟩
  simp [List.ne_nil_of_mem hp]

/-- The numbers of a registration and of an alert are always numbers. -/
theorem numerals_register (m : Meta) (p : Plugin) (tid : UInt64) :
    numerals (registerPieces m p tid) = [number m.aid, number tid] := by
  unfold registerPieces
  cases p.tip <;> rfl

theorem sound_of_numerals {ps : List Piece} (ns : List UInt64) (h : numerals ps = ns.map number)
    (hs : Sound Printed ps) : Sound Number ps := by
  refine sound_iff.mpr ⟨(sound_iff.mp hs).1, ?_⟩
  rw [h, List.forall_mem_map]
  exact fun n _ => number_good n

theorem Message.value_text {msg : Message} (hs : Sound Number msg.pieces) (hj : msg.Joined) :
    Value msg.text := by
  cases msg with
  | register m p tid => exact value_register hs
  | alert license tid stat => exact value_alert hs
  | metric license tid samples =>
    obtain ⟨hlicense, -, hrecords⟩ := sound_metricPieces.mp hs
    have hjoined := live_joined_iff.mp hj
    refine value_metric hlicense fun x hx p hp => ⟨?_, hjoined x hx p hp⟩
    exact (sound_recordPieces.mp (hrecords x hx)).2 p hp

theorem Message.sound_or_clash {msg : Message} (hs : Sound Printed msg.pieces) :
    (Sound Number msg.pieces ∧ msg.Joined) ∨ scan .other msg.text = .clash := by
  cases msg with
  | register m p tid =>
    exact Or.inl ⟨sound_of_numerals [m.aid, tid] (numerals_register m p tid) hs, trivial⟩
  | alert license tid stat =>
    exact Or.inl ⟨sound_of_numerals [tid] rfl hs, trivial⟩
  | metric license tid samples =>
    obtain ⟨hlicense, -, hrecords⟩ := sound_metricPieces.mp hs
    have hbodies : ∀ x ∈ live samples, ∀ p ∈ x.2.kept, Sound Printed p.body :=
      fun x hx => (sound_recordPieces.mp (hrecords x hx)).2
    refine (metric_or_clash hlicense hbodies).imp_left fun hreadable => ⟨?_, ?_⟩
    · refine sound_metricPieces.mpr ⟨hlicense, number_good tid, fun x hx => ?_⟩
      exact sound_recordPieces.mpr ⟨number_good x.1, fun p hp => (hreadable x hx p hp).1⟩
    · exact live_joined_iff.mpr fun x hx p hp => (hreadable x hx p hp).2

/-- A message is JSON from which every text that was copied into it can be read back,
exactly if none of these texts has a quote, a backslash or a control character, the numbers
are numbers and the sections of a MySQL target are joined. -/
theorem message_readable_iff (msg : Message) (hnum : ∀ t ∈ numerals msg.pieces, Printed t) :
    render msg.pieces = msg.text ∧
      (Value msg.text ∧ ReadBack msg.pieces ↔
        (∀ t ∈ copied msg.pieces, Clean t) ∧ (∀ t ∈ numerals msg.pieces, Number t) ∧
          msg.Joined) := by
  refine ⟨msg.render_pieces, ?_, ?_⟩
  · rintro ⟨hvalue, hread⟩
    have hclean := readBack_iff.mp hread
    rcases msg.sound_or_clash (sound_iff.mpr ⟨hclean, hnum⟩) with ⟨hsound, hjoined⟩ | hclash
    · exact ⟨hclean, (sound_iff.mp hsound).2, hjoined⟩
    · have houter := scan_value hvalue
      rw [hclash] at houter
      exact absurd houter (by decide)
  · rintro ⟨hclean, hnumbers, hjoined⟩
    exact ⟨msg.value_text (sound_iff.mpr ⟨hclean, hnumbers⟩) hjoined, readBack_iff.mpr hclean⟩

/-- One record, in which one process with the given name uses memory. -/
def Message.sample (name : Name) : Message :=
  .metric (str "abc") 7 [(1000, .os ⟨OsSection.all, List.Perm.refl _⟩
    { OsAnswers.sample with topMemory := some ⟨[⟨name, str "0.5"⟩], by simp⟩ })]

theorem Message.sample_numbers {name : Name}
    (h : numerals (Message.sample name).pieces = [number 7, number 1000, str "0.5"]) :
    ∀ t ∈ numerals (Message.sample name).pieces, Number t := by
  rw [h]
  simp only [List.forall_mem_cons]
  exact ⟨number_good 7, number_good 1000, number_half, List.forall_mem_nil _⟩

theorem Message.sample_joined (name : Name) : (Message.sample name).Joined := by
  intro x hx
  obtain rfl := List.mem_singleton.mp hx
  trivial

theorem message_readable_bash :
    Value (Message.sample .bash).text ∧ ReadBack (Message.sample .bash).pieces := by
  have hnumbers : ∀ t ∈ numerals (Message.sample .bash).pieces, Number t :=
    Message.sample_numbers (by decide +kernel)
  have hclean : ∀ t ∈ copied (Message.sample .bash).pieces, Clean t := by decide
  have hiff := (message_readable_iff (.sample .bash) fun t ht => Or.inl (hnumbers t ht)).2
  exact hiff.mpr ⟨hclean, hnumbers, Message.sample_joined .bash⟩

/-- A name that holds a quote. -/
def Name.quoted : Name := ⟨str "a\"b", by decide⟩

/-- A process with that name. -/
theorem quote_not_read_back :
    (∀ t ∈ numerals (Message.sample .quoted).pieces, Number t) ∧
      (Message.sample .quoted).Joined ∧
      ¬ (Value (Message.sample .quoted).text ∧ ReadBack (Message.sample .quoted).pieces) := by
  refine ⟨Message.sample_numbers (by decide +kernel), Message.sample_joined .quoted, ?_⟩
  rintro ⟨-, hread⟩
  have hmem : Name.quoted.text ∈ copied (Message.sample .quoted).pieces := by decide
  exact absurd (readBack_iff.mp hread _ hmem) (by decide)

end MonitoringAgent
