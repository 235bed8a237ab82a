import EvmAssembly.Proofs.StatementNodes
import EvmAssembly.ProgramParse

/-!
# Runs of a parser that traces

A parser is driven through steps that set its tracing or parse a text. Whatever came before, a text
is parsed as it is without a parser; tracing only decides what is printed. A traced parse prints a
line for each node that is made, up to the first statement that fails.
-/

namespace EvmAssembly

variable {s : Bytes} {nodes : List Node}

inductive ParserStep where
  | setDebug (debug : Bool)
  | parse (text : Bytes)

/-- The outcome of a step that parses, and what the step prints. -/
structure ParserReply where
  result : Option (Except ParseError (List Node))
  printed : Bytes

namespace Parser

def step (parser : Parser) : ParserStep → Parser × ParserReply
  | .setDebug debug => ((parser.setDebug debug).1, ⟨none, (parser.setDebug debug).2⟩)
  | .parse text => (parser, ⟨some (parser.parse text).1, (parser.parse text).2⟩)

/-- The parser that steps leave. -/
def after (parser : Parser) (steps : List ParserStep) : Parser :=
  steps.foldl (fun parser step => (parser.step step).1) parser

/-- For each step, the parser it leaves and its reply. -/
def run : Parser → List ParserStep → List (Parser × ParserReply)
  | _, [] => []
  | parser, step :: steps => parser.step step :: run (parser.step step).1 steps

end Parser

def debugLine (text : Bytes) : Bytes := "[Debug][Parser] " ++ text ++ "\n"

/-- The line for the node of a statement. -/
def traceLine (tree : Tree) (node : Node) : Bytes :=
  debugLine ("  " ++ tree.location.text ++ ": " ++ node.text)

def traceLines (trees : List Tree) (nodes : List Node) : Bytes :=
  (List.zipWith traceLine trees nodes).flatten

/-- The node is the one that can be made of the tree. -/
def Builds (tree : Tree) (node : Node) : Prop := Checked.node? tree = .ok (some node)

/-- The outcome and the print of a traced parse. A text that cannot be read prints the first line
only; a statement of which no node can be made ends the print with the line of the node before. -/
inductive Traced (s : Bytes) : Except ParseError (List Node) → Bytes → Prop where
  | unread {error : ParseError} (read : parseTrees s = .error error) :
      Traced s (.error error) (debugLine ("Parsing " ++ decimal s.length ++ " bytes of source"))
  | stopped {made later : List Tree} {failing : Tree} {nodes : List Node} {error : ParseError}
      (read : parseTrees s = .ok (made ++ failing :: later))
      (built : List.Forall₂ Builds made nodes)
      (fails : Checked.node? failing = .error (.reported error)) :
      Traced s (.error error)
        (debugLine ("Parsing " ++ decimal s.length ++ " bytes of source") ++ traceLines made nodes)
  | finished {trees : List Tree} {nodes : List Node}
      (read : parseTrees s = .ok (trees ++ [endTree s]))
      (built : List.Forall₂ Builds trees nodes) :
      Traced s (.ok nodes)
        (debugLine ("Parsing " ++ decimal s.length ++ " bytes of source") ++
          traceLines trees nodes ++ debugLine ("Parsed " ++ decimal nodes.length ++ " nodes."))

namespace Parser

theorem build_result (parser : Parser) (statements : List (Location × Statement)) :
    (parser.build statements).1 = buildNodes statements := by
  induction statements with
  | nil => rfl
  | cons first rest ih =>
    obtain ⟨place, statement⟩ := first
    rw [build, buildNodes]
    cases statement.node place with
    | error error => rfl
    | ok node =>
      change (parser.build rest).1.map (node :: ·) = _
      rw [ih]

/-- The last line of a parse, if it comes to an end. -/
def closing (parser : Parser) : Except ParseError (List Node) → Bytes
  | .error _ => []
  | .ok nodes => parser.say (footer nodes)

theorem parse_of_fault {fault : LexicalFault} (parser : Parser) (h : scanSource s = .error fault) :
    parser.parse s = (.error (fault.parseError s), parser.say (header s)) := by
  rw [parse, readSource, h]

theorem parse_of_readsAs {statements : List (Location × Statement)} (parser : Parser)
    (h : ReadsAs .start s statements) :
    parser.parse s = (buildNodes statements, parser.say (header s) ++
      (parser.build statements).2 ++ parser.closing (buildNodes statements)) := by
  obtain ⟨source, hvalid, rfl, rfl⟩ := h
  have hread : readSource source.text = .ok source := by
    rw [readSource, scanSource_eq_ok_iff.mpr ⟨rfl, hvalid⟩]
  have hresult := parser.build_result source.located
  rw [parse, hread]
  change _ = (buildNodes source.located, _ ++ (parser.build source.located).2 ++
    parser.closing (buildNodes source.located))
  rcases hbuild : parser.build source.located with ⟨error | nodes, printed⟩
  · rw [hbuild] at hresult
    rw [← hresult]
    simp only [hbuild, closing, List.append_nil]
  · rw [hbuild] at hresult
    rw [← hresult]
    simp only [hbuild, closing]

/-- What a parser returns does not depend on it. -/
theorem parse_result (parser : Parser) (s : Bytes) :
    (parser.parse s).1 = EvmAssembly.parse s := by
  rcases fault_or_readsAs s with ⟨fault, hscan, -, hparse⟩ | ⟨statements, hreads⟩
  · rw [parser.parse_of_fault hscan, hparse]
  · rw [parser.parse_of_readsAs hreads, hreads.parse_eq]

theorem build_quiet (statements : List (Location × Statement)) :
    ((Parser.mk false).build statements).2 = [] := by
  induction statements with
  | nil => rfl
  | cons first rest ih =>
    obtain ⟨place, statement⟩ := first
    rw [build]
    cases statement.node place with
    | error error => rfl
    | ok node => exact ih

/-- A parser that does not trace prints nothing. -/
theorem parse_quiet (s : Bytes) : ((Parser.mk false).parse s).2 = [] := by
  rcases fault_or_readsAs s with ⟨fault, hscan, -, -⟩ | ⟨statements, hreads⟩
  · rw [parse_of_fault _ hscan]
    rfl
  · rw [parse_of_readsAs _ hreads]
    change ((Parser.mk false).build statements).2 ++ _ = []
    rw [build_quiet]
    cases buildNodes statements <;> rfl

/-- Statements of which nodes are made print a line each. -/
theorem build_made {made : List (Location × Statement)} (h : List.Forall₂ Makes made nodes)
    (rest : List (Location × Statement)) :
    ((Parser.mk true).build (made ++ rest)).2 =
      traceLines (locatedTrees made) nodes ++ ((Parser.mk true).build rest).2 := by
  induction h with
  | nil => rfl
  | @cons first node made nodes hfirst _ ih =>
    obtain ⟨place, statement⟩ := first
    have hnode : statement.node place = .ok node := hfirst
    have hplace : (statement.tree place).location = place := by cases statement <;> rfl
    have hline : traceLine (statement.tree place) node =
        (Parser.mk true).say (nodeLine place node) := by
      rw [traceLine, hplace]
      rfl
    simp only [List.cons_append, build, hnode, ih]
    change _ = traceLine (statement.tree place) node ++ traceLines (locatedTrees made) nodes ++ _
    rw [hline, List.append_assoc]

/-- A parser that traces prints a line for each node it makes. -/
theorem parse_traced (s : Bytes) :
    Traced s (EvmAssembly.parse s) ((Parser.mk true).parse s).2 := by
  rcases fault_or_readsAs s with ⟨fault, hscan, htrees, hparse⟩ | ⟨statements, hreads⟩
  · rw [parse_of_fault _ hscan, hparse]
    exact .unread htrees
  · have htrees := hreads.parseTrees_eq
    have hvalid : ∀ located ∈ statements, located.2.Valid := fun _ hmem => (hreads.mem hmem).1
    have hbuilds : ∀ {statement : Statement} {place node}, statement.Valid →
        statement.node place = .ok node → Builds (statement.tree place) node := by
      intro statement place node hstatement hnode
      rw [Builds, Checked.node?_tree hstatement, hnode]
      rfl
    rw [parse_of_readsAs _ hreads, hreads.parse_eq]
    cases hbuild : buildNodes statements with
    | ok nodes =>
      have hmakes := makes_of_buildNodes hbuild
      have hprinted : ((Parser.mk true).build statements).2 =
          traceLines (locatedTrees statements) nodes := by
        have hall := build_made hmakes []
        rwa [List.append_nil, build, List.append_nil] at hall
      simp only [hprinted]
      exact .finished htrees (forall₂_locatedTrees hvalid hmakes hbuilds)
    | error error =>
      obtain ⟨made, place, statement, later, nodes, rfl, hmade, hfails⟩ :=
        stops_of_buildNodes hbuild
      have hprinted : ((Parser.mk true).build (made ++ (place, statement) :: later)).2 =
          traceLines (locatedTrees made) nodes := by
        rw [build_made hmade, build, hfails]
        exact List.append_nil _
      have hsplit : locatedTrees (made ++ (place, statement) :: later) ++ [endTree s] =
          locatedTrees made ++ statement.tree place :: (locatedTrees later ++ [endTree s]) := by
        simp [locatedTrees]
      have hmadeValid : ∀ located ∈ made, located.2.Valid :=
        fun _ hmem => hvalid _ (List.mem_append_left _ hmem)
      have hfailing : Checked.node? (statement.tree place) = .error (.reported error) := by
        rw [Checked.node?_tree (hvalid (place, statement) (by simp)), hfails]
        rfl
      simp only [hprinted, closing, List.append_nil]
      rw [hsplit] at htrees
      exact .stopped htrees (forall₂_locatedTrees hmadeValid hmade hbuilds) hfailing

/-- The node is made of a statement of the source, which begins at the place. -/
def NodeOf (s : Bytes) (place : Location) (node : Node) : Prop :=
  ∃ statements statement, ReadsAs .start s statements ∧ (place, statement) ∈ statements ∧
    statement.node place = .ok node

theorem build_lines {located : List (Location × Statement)} (parser : Parser)
    (h : ∀ place statement, (place, statement) ∈ located → ∀ node,
      statement.node place = .ok node → NodeOf s place node) :
    ∃ lines : List Bytes, (parser.build located).2 = lines.flatMap parser.say ∧
      ∀ line ∈ lines, ∃ place node, NodeOf s place node ∧ line = nodeLine place node := by
  induction located with
  | nil => exact ⟨[], rfl, fun line hline => absurd hline List.not_mem_nil⟩
  | cons first rest ih =>
    obtain ⟨place, statement⟩ := first
    rw [build]
    cases hnode : statement.node place with
    | error error => exact ⟨[], rfl, fun line hline => absurd hline List.not_mem_nil⟩
    | ok node =>
      obtain ⟨lines, hprinted, hlines⟩ := ih fun there other hother =>
        h there other (List.mem_cons_of_mem _ hother)
      have hhere := h place statement (by simp) node hnode
      refine ⟨nodeLine place node :: lines, ?_, ?_⟩
      · rw [List.flatMap_cons, ← hprinted]
      · exact List.forall_mem_cons.mpr ⟨⟨place, node, hhere, rfl⟩, hlines⟩

/-- What a parse prints are its first and its last line and lines of nodes. -/
theorem parse_lines (parser : Parser) (s : Bytes) :
    ∃ lines : List Bytes, (parser.parse s).2 = lines.flatMap parser.say ∧
      ∀ line ∈ lines, line = header s ∨ (∃ nodes, line = footer nodes) ∨
        ∃ place node, NodeOf s place node ∧ line = nodeLine place node := by
  rcases fault_or_readsAs s with ⟨fault, hscan, -, -⟩ | ⟨statements, hreads⟩
  · rw [parse_of_fault _ hscan]
    exact ⟨[header s], by simp, by simp⟩
  · obtain ⟨lines, hprinted, hlines⟩ := parser.build_lines fun place statement hmem node hnode =>
      ⟨statements, statement, hreads, hmem, hnode⟩
    rw [parse_of_readsAs _ hreads, hprinted]
    cases buildNodes statements with
    | error error =>
      refine ⟨header s :: lines, by simp [closing], ?_⟩
      exact List.forall_mem_cons.mpr ⟨.inl rfl, fun line hline => .inr (.inr (hlines line hline))⟩
    | ok nodes =>
      refine ⟨header s :: (lines ++ [footer nodes]), by simp [closing], ?_⟩
      rintro line (_ | ⟨_, hline⟩)
      · exact .inl rfl
      · rcases List.mem_append.mp hline with hline | hline
        · exact .inr (.inr (hlines line hline))
        · exact .inr (.inl ⟨nodes, List.mem_singleton.mp hline⟩)

end Parser

def ParserStep.setting? : ParserStep → Option Bool
  | setDebug debug => some debug
  | parse _ => none

/-- Whether a parser traces after some steps: as it was last told, or else as before. -/
def debugAfter (debug : Bool) (steps : List ParserStep) : Bool :=
  ((steps.filterMap ParserStep.setting?).getLast?).getD debug

namespace Parser

theorem after_debug (parser : Parser) (steps : List ParserStep) :
    (parser.after steps).debug = debugAfter parser.debug steps := by
  induction steps generalizing parser with
  | nil => rfl
  | cons step steps ih =>
    change ((parser.step step).1.after steps).debug = _
    rw [ih]
    cases step with
    | setDebug debug =>
      change debugAfter debug steps = _
      simp [debugAfter, ParserStep.setting?, List.getLast?_cons]
    | parse text => rfl

theorem run_append (parser : Parser) (first second : List ParserStep) :
    parser.run (first ++ second) = parser.run first ++ (parser.after first).run second := by
  induction first generalizing parser with
  | nil => rfl
  | cons step steps ih =>
    change parser.step step :: (parser.step step).1.run (steps ++ second) = _
    rw [ih]
    rfl

theorem run_length (parser : Parser) (steps : List ParserStep) :
    (parser.run steps).length = steps.length := by
  induction steps generalizing parser with
  | nil => rfl
  | cons step steps ih => rw [run, List.length_cons, ih, List.length_cons]

/-- A step of a run is the step of the parser that the steps before it leave. -/
theorem run_step (parser : Parser) (before later : List ParserStep) (step : ParserStep) :
    (parser.run (before ++ step :: later))[before.length]? =
      some ((parser.after before).step step) := by
  rw [run_append, List.getElem?_append_right (Nat.le_of_eq (run_length _ _)), run_length,
    Nat.sub_self]
  rfl

/-- In any run of a parser, setting the tracing prints one line if it is set, and nothing else.
Parsing a text gives what `parse` gives and leaves the tracing as it was last set; it prints nothing
without tracing, and the lines of a traced parse with it. -/
theorem run_determined (parser : Parser) (before later : List ParserStep) :
    (∀ debug, (parser.run (before ++ .setDebug debug :: later))[before.length]? =
      some (⟨debug⟩, ⟨none, if debug then debugLine "Debug mode enabled." else []⟩)) ∧
    ∀ s, ∃ printed, (parser.run (before ++ .parse s :: later))[before.length]? =
        some (⟨debugAfter parser.debug before⟩, ⟨some (EvmAssembly.parse s), printed⟩) ∧
      (debugAfter parser.debug before = false → printed = []) ∧
      (debugAfter parser.debug before = true → Traced s (EvmAssembly.parse s) printed) := by
  constructor
  · intro debug
    rw [run_step]
    rfl
  · intro s
    have hdebug := parser.after_debug before
    refine ⟨((parser.after before).parse s).2, ?_, ?_, ?_⟩
    · rw [run_step, step, parse_result, ← hdebug]
    · intro hoff
      have hparser : parser.after before = ⟨false⟩ := congrArg Parser.mk (hdebug.trans hoff)
      rw [hparser]
      exact parse_quiet s
    · intro hon
      have hparser : parser.after before = ⟨true⟩ := congrArg Parser.mk (hdebug.trans hon)
      rw [hparser]
      exact parse_traced s

/-- A traced parse that stops at its second statement, after a failed parse without tracing. -/
theorem run_determined_stopped :
    (Parser.fresh.run [.parse "?", .setDebug true, .parse "a:;push1 256;add"])[2]? =
      some (⟨true⟩, ⟨some (.error ⟨.immediateTooLarge "256" 1, ⟨1, 10⟩⟩),
        "[Debug][Parser] Parsing 16 bytes of source\n[Debug][Parser]   line 1, column 1: a:\n"⟩) ∧
    Traced "a:;push1 256;add" (.error ⟨.immediateTooLarge "256" 1, ⟨1, 10⟩⟩)
      "[Debug][Parser] Parsing 16 bytes of source\n[Debug][Parser]   line 1, column 1: a:\n" := by
  have hscan : scanSource "a:;push1 256;add" =
      .ok ⟨[⟨"", .label "a" ""⟩, ⟨";", .push (.pushOf 1) " " (.number ⟨.decimal, "256"⟩)⟩,
        ⟨";", .plain ⟨"add", ⟨0x01, 0⟩⟩⟩], ""⟩ := by
    decide +kernel
  have hreads := readsAs_of_scanSource hscan
  have hparse : EvmAssembly.parse "a:;push1 256;add" =
      .error ⟨.immediateTooLarge "256" 1, ⟨1, 10⟩⟩ := hreads.parse_eq.trans rfl
  obtain ⟨printed, hreply, -, htraced⟩ :=
    (run_determined Parser.fresh [.parse "?", .setDebug true] []).2 "a:;push1 256;add"
  have hprinted : printed =
      "[Debug][Parser] Parsing 16 bytes of source\n[Debug][Parser]   line 1, column 1: a:\n" := by
    have hstep := run_step Parser.fresh [.parse "?", .setDebug true] [] (.parse "a:;push1 256;add")
    rw [hreply] at hstep
    have hsame : printed = ((Parser.mk true).parse "a:;push1 256;add").2 :=
      congrArg (fun step => step.2.printed) (Option.some.inj hstep)
    rw [hsame, parse_of_readsAs _ hreads]
    decide +kernel
  rw [hparse] at hreply htraced
  subst hprinted
  exact ⟨hreply, htraced rfl⟩

end Parser
end EvmAssembly
