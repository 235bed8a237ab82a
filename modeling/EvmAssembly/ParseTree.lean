import EvmAssembly.Statement

/-!
# Parse trees

A tree names the rule, the text and the place of each piece of a source. It is laid out over a
statement from the place where the statement begins.
-/

namespace EvmAssembly

structure Tree where
  rule : Rule
  text : Bytes
  location : Location
  inner : List Tree

namespace Tree

/-- A piece with no pieces of its own. -/
def leaf (rule : Rule) (text : Bytes) (location : Location) : Tree := ⟨rule, text, location, []⟩

end Tree

def Number.tree (number : Number) (place : Location) : Tree :=
  .leaf number.base.rule number.text place

def Operand.tree (operand : Operand) (place : Location) : Tree :=
  match operand with
  | number value => value.tree place
  | label name => .leaf .label name place
  | selector signature =>
    ⟨.selector, operand.text, place,
      [.leaf .signature signature (place.after selectorOpening)]⟩

/-- The text of a string is what stands between its quotes; its place is that of the first one. -/
def Actual.tree (actual : Actual) (place : Location) : Tree :=
  match actual with
  | string contents => .leaf .string contents place
  | number value => value.tree place
  | label name => .leaf .label name place

/-- The arguments behind the first one, from the place of their first comma. -/
def FurtherActual.trees : List FurtherActual → Location → List Tree
  | [], _ => []
  | item :: others, place =>
    item.value.tree (place.after (','.toUInt8 :: item.lead)) ::
      trees others (place.after item.text)

def Actuals.trees (actuals : Actuals) (place : Location) : List Tree :=
  actuals.first.tree place ::
    FurtherActual.trees actuals.others (place.after (actuals.first.text ++ actuals.trail))

namespace Statement

/-- The arguments of a directive that begins at `place`. -/
def argumentTrees (name : Directive) (pad : Bytes) (actuals : Option Actuals)
    (place : Location) : List Tree :=
  match actuals with
  | none => []
  | some actuals => actuals.trees (place.after (directiveOpening name ++ pad))

/-- The place of what is pushed by a statement that begins at `place`. -/
def operandPlace (operation : Operation) (gap : Bytes) (place : Location) : Location :=
  place.after (operation.mnemonic ++ gap)

/-- The number of bytes to push, as the mnemonic gives it. -/
def wordSize (operation : Operation) : Bytes := operation.mnemonic.drop 4

def tree (statement : Statement) (place : Location) : Tree :=
  match statement with
  | label name _ => ⟨.labelDefinition, statement.text, place, [.leaf .label name place]⟩
  | plain operation => .leaf .operation operation.mnemonic place
  | push operation gap operand =>
    ⟨.push, statement.text, place,
      [.leaf .wordSize (wordSize operation) place,
        operand.tree (operandPlace operation gap place)]⟩
  | directive name pad actuals =>
    ⟨.instructionMacro, statement.text, place,
      [⟨name.rule, statement.text, place, argumentTrees name pad actuals place⟩]⟩

end Statement

/-- The statements of entries that begin at a place, each with its own place. -/
def Entry.located : List Entry → Location → List (Location × Statement)
  | [], _ => []
  | entry :: others, place =>
    (place.after entry.layout, entry.statement) :: located others (place.after entry.text)

namespace Source

def located (source : Source) : List (Location × Statement) :=
  Entry.located source.entries .start

/-- A tree for each statement, and one for the end of the input. -/
def trees (source : Source) : List Tree :=
  source.located.map (fun (place, statement) => statement.tree place) ++
    [.leaf .endOfInput [] (Location.start.after source.text)]

end Source

end EvmAssembly
