import EvmAssembly.ProgramParse
import EvmAssembly.Proofs.SourceGrammar

/-!
# The grammar of a source, line by line

A line is a sequence of items with semicolons between them, and perhaps a comment; an item is
perhaps a statement, with blanks around it. The relations below say so rule by rule, each with the
tree that a derivation from a given place has. The words and statements that the grammar derives
are the well-formed ones.
-/

namespace EvmAssembly

inductive NumberDerives : Rule → Bytes → Prop where
  | binary {digits : Bytes} (nonempty : digits ≠ []) (all : digits.all isBinaryDigit = true) :
      NumberDerives .binary ("0b" ++ digits)
  | octal {digits : Bytes} (nonempty : digits ≠ []) (all : digits.all isOctalDigit = true) :
      NumberDerives .octal ("0o" ++ digits)
  | decimal {digits : Bytes} (nonempty : digits ≠ []) (all : digits.all isDecimalDigit = true) :
      NumberDerives .decimal digits
  | hex {digits : Bytes} (nonempty : digits ≠ []) (even : digits.length % 2 = 0)
      (all : digits.all isHexadecimalDigit = true) : NumberDerives .hex ("0x" ++ digits)

inductive OperandDerives (place : Location) : Bytes → Tree → Prop where
  | number {rule : Rule} {text : Bytes} (derived : NumberDerives rule text) :
      OperandDerives place text ⟨rule, text, place, []⟩
  | label {name : Bytes} (isName : IsName name) :
      OperandDerives place name ⟨.label, name, place, []⟩
  | selector {signature : Bytes} (isSignature : IsSignature signature) :
      OperandDerives place ("selector(\"" ++ signature ++ "\")")
        ⟨.selector, "selector(\"" ++ signature ++ "\")", place,
          [⟨.signature, signature, place.after "selector(\"", []⟩]⟩

inductive ArgumentDerives (place : Location) : Bytes → Tree → Prop where
  | string {contents : Bytes} (noQuote : '"'.toUInt8 ∉ contents) (noNewline : newline ∉ contents) :
      ArgumentDerives place ("\"" ++ contents ++ "\"") ⟨.string, contents, place, []⟩
  | number {rule : Rule} {text : Bytes} (derived : NumberDerives rule text) :
      ArgumentDerives place text ⟨rule, text, place, []⟩
  | label {name : Bytes} (isName : IsName name) :
      ArgumentDerives place name ⟨.label, name, place, []⟩

/-- One argument or several, with commas between them. -/
inductive ArgumentsDerive : Location → Bytes → List Tree → Prop where
  | last {place : Location} {text trail : Bytes} {tree : Tree}
      (only : ArgumentDerives place text tree) (blanks : trail.all isBlank = true) :
      ArgumentsDerive place (text ++ trail) [tree]
  | more {place : Location} {text trail lead others : Bytes} {tree : Tree} {trees : List Tree}
      (first : ArgumentDerives place text tree) (blanksBefore : trail.all isBlank = true)
      (blanksBehind : lead.all isBlank = true)
      (rest : ArgumentsDerive (place.after (text ++ trail ++ "," ++ lead)) others trees) :
      ArgumentsDerive place (text ++ trail ++ "," ++ lead ++ others) (tree :: trees)

/-- The names of the directives. -/
def directiveRules : List (Bytes × Rule) :=
  [("import", .importFile), ("include", .includeSource), ("include_hex", .includeHex),
    ("push", .pushMacro)]

inductive StatementDerives (place : Location) : Bytes → Tree → Prop where
  | label {name gap : Bytes} (isName : IsName name) (blanks : gap.all isBlank = true) :
      StatementDerives place (name ++ gap ++ ":")
        ⟨.labelDefinition, name ++ gap ++ ":", place, [⟨.label, name, place, []⟩]⟩
  | plain {operation : Operation} (known : operation ∈ Operation.table)
      (noPush : operation.encoding.hasImmediate = false) :
      StatementDerives place operation.mnemonic ⟨.operation, operation.mnemonic, place, []⟩
  | push {n : Nat} {gap text : Bytes} {tree : Tree} (positive : 1 ≤ n) (atMost : n ≤ 32)
      (nonempty : gap ≠ []) (blanks : gap.all isBlank = true)
      (operand : OperandDerives (place.after ("push" ++ decimal n ++ gap)) text tree) :
      StatementDerives place ("push" ++ decimal n ++ gap ++ text)
        ⟨.push, "push" ++ decimal n ++ gap ++ text, place,
          [⟨.wordSize, decimal n, place, []⟩, tree]⟩
  | directive {word pad arguments : Bytes} {rule : Rule} {trees : List Tree}
      (known : (word, rule) ∈ directiveRules) (blanks : pad.all isBlank = true)
      (derived : (arguments = [] ∧ trees = []) ∨
        ArgumentsDerive (place.after ("%" ++ word ++ "(" ++ pad)) arguments trees) :
      StatementDerives place ("%" ++ word ++ "(" ++ pad ++ arguments ++ ")")
        ⟨.instructionMacro, "%" ++ word ++ "(" ++ pad ++ arguments ++ ")", place,
          [⟨rule, "%" ++ word ++ "(" ++ pad ++ arguments ++ ")", place, trees⟩]⟩

inductive ItemDerives (place : Location) : Bytes → List Tree → Prop where
  | empty {pad : Bytes} (blanks : pad.all isBlank = true) : ItemDerives place pad []
  | statement {lead text trail : Bytes} {tree : Tree} (blanksBefore : lead.all isBlank = true)
      (derived : StatementDerives (place.after lead) text tree)
      (blanksBehind : trail.all isBlank = true) : ItemDerives place (lead ++ text ++ trail) [tree]

inductive LineDerives : Location → Bytes → List Tree → Prop where
  | last {place : Location} {item : Bytes} {trees : List Tree}
      (only : ItemDerives place item trees) : LineDerives place item trees
  | comment {place : Location} {item text : Bytes} {trees : List Tree}
      (only : ItemDerives place item trees) : LineDerives place (item ++ "#" ++ text) trees
  | more {place : Location} {item line : Bytes} {trees others : List Tree}
      (first : ItemDerives place item trees)
      (rest : LineDerives (place.after (item ++ ";")) line others) :
      LineDerives place (item ++ ";" ++ line) (trees ++ others)

inductive LinesDerive : Location → List Bytes → List Tree → Prop where
  | nil {place : Location} : LinesDerive place [] []
  | cons {place : Location} {line : Bytes} {lines : List Bytes} {trees others : List Tree}
      (first : LineDerives place line trees)
      (rest : LinesDerive (place.after (line ++ [newline])) lines others) :
      LinesDerive place (line :: lines) (trees ++ others)

variable {place : Location} {text s : Bytes} {tree : Tree} {trees : List Tree}

theorem numberDerives_iff {rule : Rule} : NumberDerives rule text ↔
    ∃ number : Number, number.Valid ∧ number.text = text ∧ number.base.rule = rule := by
  constructor
  · intro h
    cases h with
    | @binary digits hne hall => exact ⟨⟨.binary, digits⟩, ⟨hne, hall, nofun⟩, rfl, rfl⟩
    | @octal digits hne hall => exact ⟨⟨.octal, digits⟩, ⟨hne, hall, nofun⟩, rfl, rfl⟩
    | decimal hne hall => exact ⟨⟨.decimal, text⟩, ⟨hne, hall, nofun⟩, rfl, rfl⟩
    | @hex digits hne heven hall => exact ⟨⟨.hex, digits⟩, ⟨hne, hall, fun _ => heven⟩, rfl, rfl⟩
  · rintro ⟨⟨base, digits⟩, ⟨hne, hall, heven⟩, rfl, rfl⟩
    cases base with
    | binary => exact .binary hne hall
    | octal => exact .octal hne hall
    | decimal => exact .decimal hne hall
    | hex => exact .hex hne (heven rfl) hall

theorem operandDerives_iff : OperandDerives place text tree ↔
    ∃ operand : Operand, operand.Valid ∧ operand.text = text ∧ operand.tree place = tree := by
  constructor
  · intro h
    cases h with
    | number hnumber =>
      obtain ⟨number, hvalid, rfl, rfl⟩ := numberDerives_iff.mp hnumber
      exact ⟨.number number, hvalid, rfl, rfl⟩
    | label hname => exact ⟨.label text, hname, rfl, rfl⟩
    | @selector signature hsignature => exact ⟨.selector signature, hsignature, rfl, rfl⟩
  · rintro ⟨operand, hvalid, rfl, rfl⟩
    cases operand with
    | number number => exact .number (numberDerives_iff.mpr ⟨number, hvalid, rfl, rfl⟩)
    | label name => exact .label hvalid
    | selector signature => exact .selector hvalid

theorem argumentDerives_iff : ArgumentDerives place text tree ↔
    ∃ actual : Actual, actual.Valid ∧ actual.text = text ∧ actual.tree place = tree := by
  constructor
  · intro h
    cases h with
    | @string contents hquote hnewline =>
      exact ⟨.string contents, all_inString.mpr ⟨hquote, hnewline⟩, rfl, rfl⟩
    | number hnumber =>
      obtain ⟨number, hvalid, rfl, rfl⟩ := numberDerives_iff.mp hnumber
      exact ⟨.number number, hvalid, rfl, rfl⟩
    | label hname => exact ⟨.label text, hname, rfl, rfl⟩
  · rintro ⟨actual, hvalid, rfl, rfl⟩
    cases actual with
    | string contents =>
      obtain ⟨hquote, hnewline⟩ := all_inString.mp hvalid
      exact .string hquote hnewline
    | number number => exact .number (numberDerives_iff.mpr ⟨number, hvalid, rfl, rfl⟩)
    | label name => exact .label hvalid

theorem utf8_comma : utf8 "," = [','.toUInt8] := rfl

/-- The second argument is the first of the list that begins there. -/
private theorem Actuals.text_cons (first : Actual) (trail : Bytes) (item : FurtherActual)
    (others : List FurtherActual) : (Actuals.mk first trail (item :: others)).text =
      first.text ++ trail ++ "," ++ item.lead ++
        (Actuals.mk item.value item.trail others).text := by
  simp [Actuals.text, FurtherActual.text, utf8_comma]

theorem Actuals.trees_cons (first : Actual) (trail : Bytes) (item : FurtherActual)
    (others : List FurtherActual) (place : Location) :
    (Actuals.mk first trail (item :: others)).trees place = first.tree place ::
      (Actuals.mk item.value item.trail others).trees
        (place.after (first.text ++ trail ++ "," ++ item.lead)) := by
  simp [Actuals.trees, FurtherActual.trees, FurtherActual.text, utf8_comma]

private theorem argumentsDerive_of_actuals {first : Actual} {trail : Bytes}
    {others : List FurtherActual} (hfirst : first.Valid) (htrail : trail.all isBlank = true)
    (hothers : ∀ item ∈ others, item.Valid) (place : Location) :
    ArgumentsDerive place (Actuals.mk first trail others).text
      ((Actuals.mk first trail others).trees place) := by
  have hderives : ∀ place {first : Actual}, first.Valid →
      ArgumentDerives place first.text (first.tree place) :=
    fun place first hfirst => argumentDerives_iff.mpr ⟨first, hfirst, rfl, rfl⟩
  induction others generalizing first trail place with
  | nil =>
    have htext : (Actuals.mk first trail []).text = first.text ++ trail := by simp [Actuals.text]
    rw [htext]
    exact .last (hderives place hfirst) htrail
  | cons item others ih =>
    obtain ⟨hlead, hvalue, hitem⟩ := hothers item (by simp)
    rw [Actuals.text_cons, Actuals.trees_cons]
    apply ArgumentsDerive.more (hderives place hfirst) htrail hlead
    apply ih hvalue hitem
    intro other hother
    exact hothers other (by simp [hother])

theorem argumentsDerive_iff : ArgumentsDerive place text trees ↔
    ∃ actuals : Actuals, actuals.Valid ∧ actuals.text = text ∧ actuals.trees place = trees := by
  constructor
  · intro h
    induction h with
    | @last place text trail tree hfirst htrail =>
      obtain ⟨first, hvalid, rfl, rfl⟩ := argumentDerives_iff.mp hfirst
      exact ⟨⟨first, trail, []⟩, ⟨hvalid, htrail, nofun⟩, by simp [Actuals.text], rfl⟩
    | @more place text trail lead others tree trees hfirst htrail hlead _ ih =>
      obtain ⟨first, hvalid, rfl, rfl⟩ := argumentDerives_iff.mp hfirst
      obtain ⟨⟨next, nextTrail, further⟩, ⟨hnext, hnextTrail, hfurther⟩, rfl, rfl⟩ := ih
      refine ⟨⟨first, trail, ⟨lead, next, nextTrail⟩ :: further⟩, ⟨hvalid, htrail, ?_⟩, ?_, ?_⟩
      · intro item hitem
        rcases List.mem_cons.mp hitem with rfl | hitem
        · exact ⟨hlead, hnext, hnextTrail⟩
        · exact hfurther item hitem
      · exact Actuals.text_cons first trail ⟨lead, next, nextTrail⟩ further
      · exact Actuals.trees_cons first trail ⟨lead, next, nextTrail⟩ further place
  · rintro ⟨⟨first, trail, others⟩, ⟨hfirst, htrail, hothers⟩, rfl, rfl⟩
    exact argumentsDerive_of_actuals hfirst htrail hothers place

private theorem mem_directiveRules {word : Bytes} {rule : Rule} :
    (word, rule) ∈ directiveRules ↔
      ∃ directive : Directive, directive.word = word ∧ directive.rule = rule := by
  constructor
  · intro h
    simp only [directiveRules, List.mem_cons, Prod.mk.injEq, List.not_mem_nil, or_false] at h
    rcases h with ⟨rfl, rfl⟩ | ⟨rfl, rfl⟩ | ⟨rfl, rfl⟩ | ⟨rfl, rfl⟩
    · exact ⟨.inclusion .importFile, rfl, rfl⟩
    · exact ⟨.inclusion .includeSource, rfl, rfl⟩
    · exact ⟨.inclusion .includeHex, rfl, rfl⟩
    · exact ⟨.push, rfl, rfl⟩
  · rintro ⟨directive, rfl, rfl⟩
    rcases directive with (_ | _ | _) | _ <;> decide

private theorem directiveArguments_iff {directive : Directive} {pad : Bytes} :
    ((text = [] ∧ trees = []) ∨
      ArgumentsDerive (place.after ("%" ++ directive.word ++ "(" ++ pad)) text trees) ↔
    ∃ actuals : Option Actuals, (∀ given ∈ actuals, given.Valid) ∧
      Statement.actualsText actuals = text ∧
      Statement.argumentTrees directive pad actuals place = trees := by
  rw [argumentsDerive_iff]
  constructor
  · rintro (⟨rfl, rfl⟩ | ⟨actuals, hvalid, rfl, rfl⟩)
    · exact ⟨none, nofun, rfl, rfl⟩
    · exact ⟨some actuals, fun given hgiven => Option.some.inj hgiven ▸ hvalid, rfl, rfl⟩
  · rintro ⟨_ | actuals, hvalid, rfl, rfl⟩
    · exact .inl ⟨rfl, rfl⟩
    · exact .inr ⟨actuals, hvalid actuals rfl, rfl, rfl⟩

theorem statementDerives_iff : StatementDerives place text tree ↔
    ∃ statement : Statement, statement.Valid ∧ statement.text = text ∧
      statement.tree place = tree := by
  constructor
  · intro h
    cases h with
    | @label name gap hname hgap => exact ⟨.label name gap, ⟨hname, hgap⟩, rfl, rfl⟩
    | @plain operation hmem himm => exact ⟨.plain operation, ⟨hmem, himm⟩, rfl, rfl⟩
    | @push n gap text tree hlow hhigh hne hgap hoperand =>
      obtain ⟨operand, hvalid, rfl, rfl⟩ := operandDerives_iff.mp hoperand
      have hop := Operation.hasImmediate_iff_push.mpr ⟨n, hlow, hhigh, rfl⟩
      exact ⟨.push (.pushOf n) gap operand, ⟨hop, ⟨hne, hgap⟩, hvalid⟩, rfl, rfl⟩
    | @directive word pad arguments rule trees hknown hpad harguments =>
      obtain ⟨directive, rfl, rfl⟩ := mem_directiveRules.mp hknown
      obtain ⟨actuals, hvalid, rfl, rfl⟩ := directiveArguments_iff.mp harguments
      exact ⟨.directive directive pad actuals, ⟨hpad, hvalid⟩, rfl, rfl⟩
  · rintro ⟨statement, hvalid, rfl, rfl⟩
    cases statement with
    | label name gap => exact .label hvalid.1 hvalid.2
    | plain operation => exact .plain hvalid.1 hvalid.2
    | push operation gap operand =>
      obtain ⟨hop, ⟨hne, hgap⟩, hoperand⟩ := hvalid
      obtain ⟨n, hlow, hhigh, rfl⟩ := Operation.hasImmediate_iff_push.mp hop
      exact .push hlow hhigh hne hgap (operandDerives_iff.mpr ⟨operand, hoperand, rfl, rfl⟩)
    | directive directive pad actuals =>
      exact .directive (mem_directiveRules.mpr ⟨directive, rfl, rfl⟩) hvalid.1
        (directiveArguments_iff.mpr ⟨actuals, hvalid.2, rfl, rfl⟩)

end EvmAssembly
