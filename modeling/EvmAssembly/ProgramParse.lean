import EvmAssembly.KeccakHash
import EvmAssembly.ParseTree
import EvmAssembly.ProgramNode
import EvmAssembly.SourceScan

/-!
# Parsing a program

The source is read as a whole first; only then is a node made of each statement, in order. A text
that does not follow the grammar is therefore reported before any literal that is too large and any
directive with wrong arguments. The arguments of a directive are checked against the kinds it takes,
from the left: the first of the wrong form is reported, then a missing one, then the first that is
too many.

A parser can be told to report what it does. What it reports does not change what it returns.
-/

namespace EvmAssembly

inductive ArgumentKind where
  | path
  | label
  | signature
deriving DecidableEq

namespace ArgumentKind

def name : ArgumentKind → Bytes
  | path => "path"
  | label => "label"
  | signature => "signature"

def all : List ArgumentKind := [path, label, signature]

/-- The name of the kind with a given number. -/
def nameAt (index : Nat) : Bytes :=
  match all[index]? with
  | some kind => kind.name
  | none => "unknown"

/-- How an argument of this kind is written. -/
def rule : ArgumentKind → Rule
  | label => .label
  | path | signature => .string

end ArgumentKind

structure Argument where
  kind : ArgumentKind
  value : Bytes
deriving DecidableEq

/-- Checks the arguments from `position` on, of `got` in all for `expected` kinds. -/
def checkFrom (expected got : Nat) :
    Nat → List Tree → List ArgumentKind → Except ParseError (List Argument)
  | _, [], [] => .ok []
  | _, [], _ :: _ => .error (Fault.missingArgument expected got).unplaced
  | _, tree :: _, [] => .error ⟨.extraArgument expected got, tree.location⟩
  | position, tree :: trees, kind :: kinds =>
    if tree.rule = kind.rule then
      (checkFrom expected got (position + 1) trees kinds).map (⟨kind, tree.text⟩ :: ·)
    else .error ⟨.argumentType position kind.name tree.rule.name, tree.location⟩

def checkArguments (given : List Tree) (kinds : List ArgumentKind) :
    Except ParseError (List Argument) :=
  checkFrom kinds.length given.length 0 given kinds

def Base.radix : Base → UInt32
  | binary => 2
  | octal => 8
  | decimal => 10
  | hex => 16

def Number.bytes (number : Number) : Except Fault Bytes :=
  match number.base with
  | .hex => hexBytes number.digits
  | base => radixBytes number.digits base.radix

/-- A literal may turn out too large before the width of the push is known; it is then reported with
that width. -/
def Fault.forWidth (literal : Bytes) (width : Nat) : Fault → Fault
  | immediateTooLarge found limit =>
    if limit ≠ width then immediateTooLarge literal width else immediateTooLarge found limit
  | fault => fault

/-- The bytes of a number that is pushed. -/
def Number.immediate (number : Number) (width : Nat) : Except Fault Bytes :=
  match number.bytes with
  | .ok raw => widen raw width number.text
  | .error fault => .error (fault.forWidth number.text width)

def Operand.immediate (operand : Operand) (width : Nat) : Except Fault Immediate :=
  match operand with
  | number value => (value.immediate width).map .bytes
  | label name => .ok (.label name)
  | selector signature =>
    (widen (functionSelector signature width) width operand.text).map .bytes

namespace Directive

/-- The one argument that a directive takes. -/
def takes : Directive → ArgumentKind
  | inclusion _ => .path
  | push => .label

def node (name : Directive) (value : Bytes) : Node :=
  match name with
  | inclusion kind => .inclusion kind value
  | push => .pushLabel value

/-- Makes a node of a directive at `place` from its arguments. -/
def build (name : Directive) (given : List Tree) (place : Location) : Except ParseError Node :=
  match checkArguments given [name.takes] with
  | .error error => .error (error.pin place)
  | .ok [] => .error ⟨.missingArgument 1 0, place⟩
  | .ok (argument :: _) => .ok (name.node argument.value)

end Directive

/-- Makes a node of a statement that begins at `place`. -/
def Statement.node (statement : Statement) (place : Location) : Except ParseError Node :=
  match statement with
  | label name _ => .ok (.label name)
  | plain operation => .ok (.instruction ⟨operation, none⟩)
  | push operation gap operand =>
    match operand.immediate operation.encoding.width.toNat with
    | .ok immediate => .ok (.instruction ⟨operation, some immediate⟩)
    | .error fault => .error ⟨fault, operandPlace operation gap place⟩
  | directive name pad actuals => name.build (argumentTrees name pad actuals place) place

/-- The fault of a source, with the place it points to. -/
def LexicalFault.parseError (fault : LexicalFault) (source : Bytes) : ParseError :=
  ⟨.lexical fault.detail, .ofOffset source (fault.offset source)⟩

/-- Reads the concrete form of a source. -/
def readSource (text : Bytes) : Except ParseError Source :=
  match scanSource text with
  | .ok source => .ok source
  | .error fault => .error (fault.parseError text)

/-- The parse tree of a source, one tree for each statement and one for the end. -/
def parseTrees (text : Bytes) : Except ParseError (List Tree) := (readSource text).map Source.trees

/-- Makes a node of each statement, up to the first that fails. -/
def buildNodes : List (Location × Statement) → Except ParseError (List Node)
  | [] => .ok []
  | (place, statement) :: rest =>
    match statement.node place with
    | .error error => .error error
    | .ok node => (buildNodes rest).map (node :: ·)

def parse (text : Bytes) : Except ParseError (List Node) :=
  match readSource text with
  | .error error => .error error
  | .ok source => buildNodes source.located

structure Parser where
  debug : Bool
deriving DecidableEq

namespace Parser

def fresh : Parser := ⟨false⟩

/-- What the parser prints of a line: nothing unless it traces. -/
def say (parser : Parser) (line : Bytes) : Bytes :=
  if parser.debug then "[Debug][Parser] " ++ line ++ "\n" else []

/-- Switches tracing on or off; gives the parser and what it prints. -/
def setDebug (_ : Parser) (debug : Bool) : Parser × Bytes :=
  (⟨debug⟩, (Parser.mk debug).say "Debug mode enabled.")

def header (text : Bytes) : Bytes := "Parsing " ++ decimal text.length ++ " bytes of source"

def nodeLine (place : Location) (node : Node) : Bytes :=
  "  " ++ place.text ++ ": " ++ node.text

def footer (nodes : List Node) : Bytes := "Parsed " ++ decimal nodes.length ++ " nodes."

/-- Makes a node of each statement and reports it, up to the first that fails. -/
def build (parser : Parser) :
    List (Location × Statement) → Except ParseError (List Node) × Bytes
  | [] => (.ok [], [])
  | (place, statement) :: rest =>
    match statement.node place with
    | .error error => (.error error, [])
    | .ok node =>
      let (result, printed) := parser.build rest
      (result.map (node :: ·), parser.say (nodeLine place node) ++ printed)

/-- Parses a text; gives the outcome and what is printed. -/
def parse (parser : Parser) (text : Bytes) : Except ParseError (List Node) × Bytes :=
  let opening := parser.say (header text)
  match readSource text with
  | .error error => (.error error, opening)
  | .ok source =>
    let (result, printed) := parser.build source.located
    match result with
    | .error error => (.error error, opening ++ printed)
    | .ok nodes => (.ok nodes, opening ++ printed ++ parser.say (footer nodes))

end Parser

end EvmAssembly
