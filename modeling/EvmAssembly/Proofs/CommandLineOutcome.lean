import EvmAssembly.Proofs.OutputLines

/-!
# Outcomes of the command line

Flags may stand anywhere among the arguments; the arguments that remain decide whether a run
succeeds. A run that fails complains and shows nothing of a listing: its output is the usage box, or
the trace of the parse that failed.
-/

namespace EvmAssembly.CommandLine

/-- The arguments that are no modes, files or signatures. -/
def flags : List Bytes := [utf8 "-d", utf8 "--debug", utf8 "--no-color"]

/-- The arguments that remain without the flags. -/
def remaining (arguments : List Bytes) : List Bytes := arguments.filter (· ∉ flags)

def Traces (arguments : List Bytes) : Prop := utf8 "-d" ∈ arguments ∨ utf8 "--debug" ∈ arguments

instance (arguments : List Bytes) : Decidable (Traces arguments) :=
  inferInstanceAs (Decidable (_ ∨ _))

/-- The arguments set the same flags, wherever and however often, and have the others in common. -/
structure Alike (arguments others : List Bytes) : Prop where
  traces : Traces arguments ↔ Traces others
  colours : utf8 "--no-color" ∈ arguments ↔ utf8 "--no-color" ∈ others
  remaining : remaining arguments = remaining others

theorem operands_eq_remaining (arguments : List Bytes) :
    operands arguments = remaining arguments := by
  apply List.filter_congr
  intro argument _
  simp [isDebugFlag, isColourFlag, flags, Bool.and_assoc]

theorem any_isDebugFlag (arguments : List Bytes) :
    arguments.any isDebugFlag = decide (Traces arguments) := by
  rw [Bool.eq_iff_iff, decide_eq_true_eq]
  simp only [List.any_eq_true, isDebugFlag, Bool.or_eq_true, decide_eq_true_eq]
  constructor
  · rintro ⟨flag, hflag, rfl | rfl⟩
    · exact .inl hflag
    · exact .inr hflag
  · rintro (hflag | hflag)
    · exact ⟨_, hflag, .inl rfl⟩
    · exact ⟨_, hflag, .inr rfl⟩

theorem colours_eq (arguments : List Bytes) :
    colours arguments = decide (utf8 "--no-color" ∉ arguments) := by
  rw [Bool.eq_iff_iff]
  simp only [colours, isColourFlag, Bool.not_eq_true', List.any_eq_false, decide_eq_true_eq]
  constructor
  · intro hnone hmem
    exact hnone _ hmem rfl
  · rintro hnotMem flag hflag rfl
    exact hnotMem hflag

/-- What is seen of a run, by the flags that are set and the arguments that remain. -/
theorem shown_eq (files : Bytes → Option Bytes) (arguments : List Bytes) :
    shown files arguments =
      ((Request.of (remaining arguments)).run files (Traces arguments)).shown
        (utf8 "--no-color" ∉ arguments) := by
  rw [shown, run, operands_eq_remaining, any_isDebugFlag, colours_eq]

theorem Alike.shown_eq {arguments others : List Bytes} (h : Alike arguments others)
    (files : Bytes → Option Bytes) : shown files others = shown files arguments := by
  simp only [CommandLine.shown_eq, h.traces, h.colours, h.remaining]

/-- The arguments that remain ask for something that can be done, if only the file is there. -/
inductive Understood : List Bytes → Prop where
  | table {rest : List Bytes} : Understood (utf8 "-t" :: rest)
  | selector {signature : Bytes} {rest : List Bytes} :
      Understood (utf8 "-s" :: signature :: rest)
  | list {operands : List Bytes} {file : Bytes} (named : NamesFile operands file) :
      Understood operands

/-- The arguments that remain ask for something that can be done. -/
inductive Succeeds (files : Bytes → Option Bytes) : List Bytes → Prop where
  | table {rest : List Bytes} : Succeeds files (utf8 "-t" :: rest)
  | selector {signature : Bytes} {rest : List Bytes} :
      Succeeds files (utf8 "-s" :: signature :: rest)
  | list {operands : List Bytes} {file content : Bytes} {nodes : List Node}
      (named : NamesFile operands file) (found : files file = some content)
      (accepts : parse content = .ok nodes) : Succeeds files operands

/-- What is wrong with arguments that are not understood. -/
inductive Complaint : List Bytes → Bytes → Prop where
  | nothing : Complaint [] "Error: No mode or file specified."
  | needsArgument {mode : Bytes} (known : mode = utf8 "-s" ∨ mode = utf8 "-p") :
      Complaint [mode] ("Error: " ++ mode ++ " needs an argument.")
  | unknownMode {mode : Bytes} {rest : List Bytes} (dashed : utf8 "-" <+: mode)
      (unknown : mode ∉ [utf8 "-t", utf8 "-s", utf8 "-p"]) :
      Complaint (mode :: rest) ("Unknown mode: " ++ mode)

/-- What a message calls the kind of a fault. -/
inductive HasName : Fault → Bytes → Prop where
  | lexical {detail : Bytes} : HasName (.lexical detail) "Lexer"
  | immediateTooLarge {literal : Bytes} {width : Nat} :
      HasName (.immediateTooLarge literal width) "ImmediateTooLarge"
  | extraArgument {expected got : Nat} : HasName (.extraArgument expected got) "ExtraArgument"
  | missingArgument {expected got : Nat} :
      HasName (.missingArgument expected got) "MissingArgument"
  | argumentType {position : Nat} {wanted found : Bytes} :
      HasName (.argumentType position wanted found) "ArgumentType"

/-- The line that names the kind of an error, the file and the message up to its first NUL. -/
def errorLine (colours : Bool) (kind file message : Bytes) : Bytes :=
  shade colours "1;31" ++ "Parse Error (" ++ kind ++ "): " ++ shade colours "0" ++ file ++ ": " ++
    message.takeWhile (· ≠ 0) ++ "\n"

/-- The output and the errors of a run that fails. -/
inductive Fails (files : Bytes → Option Bytes) (debug colours : Bool) (operands : List Bytes) :
    Bytes → Bytes → Prop where
  | misused {rows : List Bytes} {complaint : Bytes} (unknown : ¬ Understood operands)
      (complains : Complaint operands complaint)
      (usage : IsBox colours usageTitle usageTexts rows) :
      Fails files debug colours operands (rows.flatMap (· ++ [newline]))
        (shade colours "1;31" ++ complaint ++ shade colours "0" ++ "\n")
  | unreadable {file : Bytes} (named : NamesFile operands file) (missing : files file = none) :
      Fails files debug colours operands []
        (shade colours "1;31" ++ "Error: " ++ shade colours "0" ++ "Could not open source file: " ++
          file ++ "\n")
  | unparsed {file content output kind : Bytes} {error : ParseError}
      (named : NamesFile operands file) (found : files file = some content)
      (fails : parse content = .error error) (called : HasName error.fault kind)
      (quiet : debug = false → output = [])
      (traced : debug = true → ∃ trace, output = debugLine "Debug mode enabled." ++ trace ∧
        Traced content (.error error) trace) :
      Fails files debug colours operands output (errorLine colours kind file error.message)

/-- The runs that the remaining arguments can lead to. -/
inductive Outcome (files : Bytes → Option Bytes) (debug : Bool) : List Bytes → Run → Prop where
  | table {rest : List Bytes} : Outcome files debug (utf8 "-t" :: rest) tableRun
  | selector {signature : Bytes} {rest : List Bytes} :
      Outcome files debug (utf8 "-s" :: signature :: rest) (selectorRun signature)
  | misused {operands : List Bytes} {complaint : Bytes} (unknown : ¬ Understood operands)
      (complains : Complaint operands complaint) : Outcome files debug operands (misuse complaint)
  | list {operands : List Bytes} {file : Bytes} {run : Run} (named : NamesFile operands file)
      (lists : Lists files debug file run) : Outcome files debug operands run

theorem Understood.asks {operands : List Bytes} (h : Understood operands) :
    Request.of operands = .table ∨ (∃ signature, Request.of operands = .selector signature) ∨
      ∃ file, Request.of operands = .list file := by
  cases h with
  | table => exact .inl Asks.table.request_eq.symm
  | selector => exact .inr (.inl ⟨_, Asks.selector.request_eq.symm⟩)
  | list named => exact .inr (.inr ⟨_, (Asks.list named).request_eq.symm⟩)

theorem outcome_of_operands (files : Bytes → Option Bytes) (debug : Bool)
    (operands : List Bytes) :
    Outcome files debug operands ((Request.of operands).run files debug) := by
  have hasks := Asks.of_operands operands
  have hunderstood (h : Understood operands) := h.asks
  generalize Request.of operands = request at hasks hunderstood ⊢
  cases hasks with
  | nothing => exact .misused (fun h => by simpa using hunderstood h) .nothing
  | needsArgument known =>
    exact .misused (fun h => by simpa using hunderstood h) (.needsArgument known)
  | unknownMode dashed unknown =>
    exact .misused (fun h => by simpa using hunderstood h) (.unknownMode dashed unknown)
  | table => exact .table
  | selector => exact .selector
  | list named => exact .list named (listFile_lists files debug _)

variable {files : Bytes → Option Bytes} {debug : Bool} {operands : List Bytes} {run : Run}

theorem Succeeds.exit_eq (h : Succeeds files operands) (debug : Bool) :
    ((Request.of operands).run files debug).exit = 0 := by
  cases h with
  | table =>
    rw [← Asks.table.request_eq]
    rfl
  | selector =>
    rw [← Asks.selector.request_eq]
    rfl
  | list named found accepts =>
    rw [← (Asks.list named).request_eq]
    exact congrArg Run.exit ((listFile_lists files debug _).eq_listed found accepts)

theorem Outcome.exit_eq (h : Outcome files debug operands run) :
    run.exit = 1 ∨ run.exit = 0 ∧ Succeeds files operands ∧ run.errors = [] := by
  cases h with
  | table => exact .inr ⟨rfl, .table, rfl⟩
  | selector => exact .inr ⟨rfl, .selector, rfl⟩
  | misused => exact .inl rfl
  | list named lists =>
    cases lists with
    | unreadable | unparsed => exact .inl rfl
    | listed found accepts => exact .inr ⟨rfl, .list named found accepts, rfl⟩

theorem traceOf_quiet (source : Bytes) : traceOf false source = [] := by
  rw [traceOf, Parser.parse_quiet]
  rfl

theorem hasName (fault : Fault) : HasName fault fault.kind.name := by
  cases fault with
  | lexical detail => exact .lexical
  | immediateTooLarge literal width => exact .immediateTooLarge
  | extraArgument expected got => exact .extraArgument
  | missingArgument expected got => exact .missingArgument
  | argumentType position wanted found => exact .argumentType

theorem render_errorLine (colours : Bool) (file : Bytes) (error : ParseError) :
    Printout.render colours [Colour.error,
      .text ("Parse Error (" ++ error.fault.kind.name ++ "): "), Colour.reset,
      .text (file ++ ": " ++ error.report), "\n"] =
      errorLine colours error.fault.kind.name file error.message := by
  simp [Printout.render, Piece.render_colour, Piece.render_text, Colour.parameters, errorLine,
    ParseError.report, beforeNul]

theorem render_openError (colours : Bool) (file : Bytes) :
    Printout.render colours [Colour.error, "Error: ", Colour.reset,
      .text ("Could not open source file: " ++ file), "\n"] =
      shade colours "1;31" ++ "Error: " ++ shade colours "0" ++ "Could not open source file: " ++
        file ++ "\n" := by
  simp [Printout.render, Piece.render_colour, Piece.render_text, Colour.parameters]

theorem render_ne_nil {printout : Printout} (h : Piece.text (utf8 "\n") ∈ printout)
    (colours : Bool) : printout.render colours ≠ [] := by
  have hmem : newline ∈ printout.render colours :=
    List.mem_flatMap.mpr ⟨_, h, List.mem_singleton_self newline⟩
  exact List.ne_nil_of_mem hmem

/-- What a run that fails shows. -/
theorem Outcome.fails (h : Outcome files debug operands run) (hexit : run.exit = 1)
    (colours : Bool) :
    run.errors.render colours ≠ [] ∧
    (∀ line ∈ (run.output.render colours).splitOn newline, ¬ OfListing (withoutEscapes line)) ∧
    Fails files debug colours operands (run.output.render colours) (run.errors.render colours) := by
  cases h with
  | table => cases hexit
  | selector => cases hexit
  | misused unknown complains =>
    obtain ⟨rows, hbox, hrows⟩ := render_box colours usageTitle usageTexts
    have houtput : usage.render colours = rows.flatMap (· ++ [newline]) := by rw [usage_eq, hrows]
    refine ⟨render_ne_nil (by simp [misuse, colouredLine]) colours, ?_, ?_⟩
    · rw [misuse, houtput]
      exact usage_lines hbox
    · rw [misuse, houtput, render_colouredLine]
      exact .misused unknown complains hbox
  | list named lists =>
    cases lists with
    | unreadable missing =>
      refine ⟨render_ne_nil (by simp) colours, ?_, ?_⟩
      · change ∀ line ∈ [[]], ¬ OfListing (withoutEscapes line)
        simpa using not_ofListing_nil
      · rw [render_openError]
        exact .unreadable named missing
    | @unparsed content error found fails =>
      have houtput : Printout.render colours [.text (traceOf debug content)] =
          traceOf debug content := List.append_nil _
      have htraced := Parser.parse_traced content
      rw [fails] at htraced
      refine ⟨render_ne_nil (by simp) colours, ?_, ?_⟩
      · rw [houtput]
        exact traceOf_splitOn debug content
      · rw [houtput, render_errorLine]
        refine .unparsed named found fails (hasName _) ?_ ?_
        · rintro rfl
          exact traceOf_quiet content
        · rintro rfl
          exact ⟨_, rfl, htraced⟩
    | listed => cases hexit

/-- Flags count wherever they stand. A run exits with 0 exactly if it is asked for the table, for a
selector or for a file whose whole content is parsed; it then has no errors. Otherwise it exits with
1 and complains, and shows the usage, or the trace of the parse that failed, and no line of a
listing. -/
theorem shown_outcome (files : Bytes → Option Bytes) (arguments : List Bytes) :
    (∀ others, Alike arguments others → shown files others = shown files arguments) ∧
    ((shown files arguments).exit = 0 ↔ Succeeds files (remaining arguments)) ∧
    ((shown files arguments).exit = 0 ∨ (shown files arguments).exit = 1) ∧
    ((shown files arguments).exit = 0 → (shown files arguments).errors = []) ∧
    ((shown files arguments).exit = 1 →
      (shown files arguments).errors ≠ [] ∧
      (∀ line ∈ (shown files arguments).output.splitOn newline,
        ¬ OfListing (withoutEscapes line)) ∧
      Fails files (Traces arguments) (utf8 "--no-color" ∉ arguments) (remaining arguments)
        (shown files arguments).output (shown files arguments).errors) := by
  have houtcome := outcome_of_operands files (Traces arguments) (remaining arguments)
  have halike : ∀ others, Alike arguments others → shown files others = shown files arguments :=
    fun others halike => halike.shown_eq files
  refine ⟨halike, ?_⟩
  rw [shown_eq]
  rcases houtcome.exit_eq with hexit | ⟨hexit, hsucceeds, herrors⟩
  · have hnot : ¬ Succeeds files (remaining arguments) := by
      intro hsucceeds
      cases hexit.symm.trans (hsucceeds.exit_eq _)
    refine ⟨⟨?_, fun h => absurd h hnot⟩, .inr hexit, ?_, fun _ => houtcome.fails hexit _⟩
    · intro hzero
      cases hexit.symm.trans hzero
    · intro hzero
      cases hexit.symm.trans hzero
  · refine ⟨⟨fun _ => hsucceeds, fun _ => hexit⟩, .inl hexit, fun _ => ?_, ?_⟩
    · change Printout.render _ _ = []
      rw [herrors]
      rfl
    · intro hone
      cases hexit.symm.trans hone

/-- A file that cannot be parsed because of a NUL, with the flag for tracing before it and twice
behind it; and a call with a flag alone. -/
theorem shown_outcome_fault :
    let files : Bytes → Option Bytes := fun _ => some (utf8 "\x00")
    shown files [utf8 "f", utf8 "-d", utf8 "-d"] = shown files [utf8 "--debug", utf8 "f"] ∧
    (shown files [utf8 "--debug", utf8 "f"]).exit = 1 ∧
    (shown files [utf8 "--debug", utf8 "f"]).errors =
      "\x1b[1;31mParse Error (Lexer): \x1b[0mf: line 1, column 1: " ++
        "expected an instruction, label or macro, found '\n" ∧
    (shown files [utf8 "--no-color"]).exit = 1 ∧
    (shown files [utf8 "--no-color"]).errors = "Error: No mode or file specified.\n" ∧
    ∃ rows, IsBox false usageTitle usageTexts rows ∧
      (shown files [utf8 "--no-color"]).output = rows.flatMap (· ++ [newline]) := by
  intro files
  have hnamed : NamesFile [utf8 "f"] "f" := .alone (by decide)
  have hparse : parse "\x00" =
      .error ⟨.lexical "expected an instruction, label or macro, found '\x00'", ⟨1, 1⟩⟩ := by
    decide +kernel
  have hline : ∀ output errors, Fails files true true [utf8 "f"] output errors →
      errors = "\x1b[1;31mParse Error (Lexer): \x1b[0mf: line 1, column 1: " ++
        "expected an instruction, label or macro, found '\n" := by
    intro output errors hfails
    cases hfails with
    | misused unknown complains usage => exact absurd (.list hnamed) unknown
    | unreadable named missing => cases missing
    | unparsed named found fails called quiet traced =>
      cases found
      cases hparse.symm.trans fails
      cases called
      cases named
      decide +kernel
  have husage : ∀ output errors, Fails files false false [] output errors →
      errors = "Error: No mode or file specified.\n" ∧
      ∃ rows, IsBox false usageTitle usageTexts rows ∧ output = rows.flatMap (· ++ [newline]) := by
    intro output errors hfails
    cases hfails with
    | misused unknown complains usage =>
      cases complains
      exact ⟨by decide +kernel, _, usage, rfl⟩
    | unreadable named missing => cases named
    | unparsed named found fails called quiet traced => cases named
  obtain ⟨halike, -, -, -, hfails⟩ := shown_outcome files [utf8 "--debug", utf8 "f"]
  obtain ⟨-, hsucceeds, hexits, -, hmisused⟩ := shown_outcome files [utf8 "--no-color"]
  have hexit : (shown files [utf8 "--debug", utf8 "f"]).exit = 1 := by decide +kernel
  have hexitUsage : (shown files [utf8 "--no-color"]).exit = 1 := by
    refine hexits.resolve_left fun hzero => ?_
    have hnothing := hsucceeds.mp hzero
    cases hnothing with
    | list named found accepts => cases named
  exact ⟨halike _ ⟨by decide, by decide, by decide⟩, hexit, hline _ _ (hfails hexit).2.2,
    hexitUsage, husage _ _ (hmisused hexitUsage).2.2⟩

end EvmAssembly.CommandLine
