import EvmAssembly.ProgramParse
import EvmAssembly.Proofs.SourceGrammar

/-!
# What a source reads as

A text reads as a list of statements, each at its place, if a well-formed source has this text and
these statements. Readings are closed under layout before the text, and under a statement before a
text that may follow it. A text with a reading is parsed by making a node of each statement; any
other text has a lexical fault.
-/

namespace EvmAssembly

variable {place : Location} {s : Bytes} {statements : List (Location × Statement)}

/-- From the given place on, the text reads as these statements, each with its own place. -/
def ReadsAs (place : Location) (s : Bytes) (statements : List (Location × Statement)) : Prop :=
  ∃ source : Source, source.Valid ∧ source.text = s ∧
    Entry.located source.entries place = statements

namespace ReadsAs

theorem ending {layout : Bytes} (h : (layoutEnd false layout).isSome = true) :
    ReadsAs place layout [] :=
  ⟨⟨[], layout⟩, .ending h, rfl, rfl⟩

theorem layout {layout : Bytes} (hl : layoutEnd false layout = some false)
    (h : ReadsAs (place.after layout) s statements) : ReadsAs place (layout ++ s) statements := by
  obtain ⟨source, hvalid, rfl, rfl⟩ := h
  cases hvalid with
  | ending hending =>
    apply ending
    rw [Source.text, List.flatMap_nil, List.nil_append, layoutEnd_append hl, hending]
  | @entry inner statement rest hclosed hstatement hfollow hrest =>
    have hlonger : layoutEnd false (layout ++ inner) = some false := by
      rw [layoutEnd_append hl, hclosed]
    refine ⟨_, .entry hlonger hstatement hfollow hrest, ?_, ?_⟩
    · simp [Source.text_cons]
    · simp [Entry.located, Entry.text]

theorem statement {statement : Statement} {behind : Bytes} (hs : statement.Valid)
    (hf : mayFollow behind = true) (h : ReadsAs (place.after statement.text) behind statements) :
    ReadsAs place (statement.text ++ behind) ((place, statement) :: statements) := by
  obtain ⟨source, hvalid, rfl, rfl⟩ := h
  have hempty : layoutEnd false [] = some false := rfl
  refine ⟨_, .entry hempty hs hf hvalid, ?_, ?_⟩
  · simp [Source.text_cons]
  · simp [Entry.located, Entry.text]

/-- Each statement is well formed and stands in the text at its place. -/
theorem mem {statement : Statement} {there : Location} (h : ReadsAs place s statements)
    (hmem : (there, statement) ∈ statements) :
    statement.Valid ∧
      ∃ before behind, s = before ++ (statement.text ++ behind) ∧ there = place.after before := by
  obtain ⟨source, hvalid, rfl, rfl⟩ := h
  induction hvalid generalizing place with
  | ending => cases hmem
  | @entry layout first rest _ hfirst _ _ ih =>
    rw [Source.text_cons]
    rcases List.mem_cons.mp hmem with heq | hmem
    · cases heq
      exact ⟨hfirst, layout, rest.text, rfl, rfl⟩
    · obtain ⟨hstatement, before, behind, htext, hplace⟩ := ih hmem
      refine ⟨hstatement, layout ++ (first.text ++ before), behind, ?_, ?_⟩
      · simp [htext]
      · simpa [Entry.text] using hplace

end ReadsAs

/-- The trees of statements that begin at the given places. -/
def locatedTrees (statements : List (Location × Statement)) : List Tree :=
  statements.map fun (place, statement) => statement.tree place

/-- The tree for the end of a source. -/
def endTree (s : Bytes) : Tree := ⟨.endOfInput, [], Location.start.after s, []⟩

theorem ReadsAs.parseTrees_eq (h : ReadsAs .start s statements) :
    parseTrees s = .ok (locatedTrees statements ++ [endTree s]) := by
  obtain ⟨source, hvalid, rfl, rfl⟩ := h
  rw [parseTrees, readSource, scanSource_eq_ok_iff.mpr ⟨rfl, hvalid⟩]
  rfl

theorem ReadsAs.parse_eq (h : ReadsAs .start s statements) : parse s = buildNodes statements := by
  obtain ⟨source, hvalid, rfl, rfl⟩ := h
  rw [parse, readSource, scanSource_eq_ok_iff.mpr ⟨rfl, hvalid⟩]
  rfl

/-- A text that is one statement is parsed by making its node. -/
theorem Statement.Valid.parse_text {statement : Statement} (h : statement.Valid) :
    parse statement.text = (statement.node .start).map ([·]) := by
  have hend : ReadsAs (Location.start.after statement.text) [] [] := .ending rfl
  have hfollow : mayFollow [] = true := rfl
  have hreads := hend.statement h hfollow
  rw [List.append_nil] at hreads
  rw [hreads.parse_eq, buildNodes]
  cases statement.node .start <;> rfl

/-- What is read of a source are its statements. -/
theorem readsAs_of_scanSource {source : Source} (h : scanSource s = .ok source) :
    ReadsAs .start s source.located := by
  obtain ⟨htext, hvalid⟩ := scanSource_eq_ok_iff.mp h
  exact ⟨source, hvalid, htext.symm, rfl⟩

/-- A source with a lexical fault is not parsed. -/
theorem parse_of_fault {fault : LexicalFault} (h : scanSource s = .error fault) :
    parseTrees s = .error (fault.parseError s) ∧ parse s = .error (fault.parseError s) := by
  constructor
  · rw [parseTrees, readSource, h]
    rfl
  · rw [parse, readSource, h]

/-- A source has a lexical fault or reads as statements. -/
theorem fault_or_readsAs (s : Bytes) :
    (∃ fault, scanSource s = .error fault ∧ parseTrees s = .error (fault.parseError s) ∧
      parse s = .error (fault.parseError s)) ∨
    ∃ statements, ReadsAs .start s statements := by
  cases hread : scanSource s with
  | error fault => exact .inl ⟨fault, rfl, parse_of_fault hread⟩
  | ok source => exact .inr ⟨source.located, readsAs_of_scanSource hread⟩

end EvmAssembly
