import EvmAssembly.OperationTable

/-!
# Grammar rules and statements

The rules are the kinds of piece that a source text is read into, in the order that numbers them.
The concrete form of a statement keeps every byte that it was written with, so that `text` gives
back its source and the place of each piece follows from the lengths before it.
-/

namespace EvmAssembly

inductive Rule where
  | labelDefinition
  | label
  | instructionMacro
  | importFile
  | includeSource
  | includeHex
  | pushMacro
  | string
  | push
  | wordSize
  | binary
  | octal
  | decimal
  | hex
  | selector
  | signature
  | operation
  | endOfInput
deriving DecidableEq

namespace Rule

/-- What a message calls a piece of this kind. -/
def name : Rule → Bytes
  | labelDefinition => "label definition"
  | label => "label"
  | instructionMacro => "macro"
  | importFile => "import"
  | includeSource => "include"
  | includeHex => "include_hex"
  | pushMacro => "push macro"
  | string => "string"
  | push => "push"
  | wordSize => "word size"
  | binary => "binary literal"
  | octal => "octal literal"
  | decimal => "decimal literal"
  | hex => "hex literal"
  | selector => "selector"
  | signature => "signature"
  | operation => "instruction"
  | endOfInput => "end of input"

def all : List Rule :=
  [labelDefinition, label, instructionMacro, importFile, includeSource, includeHex, pushMacro,
    string, push, wordSize, binary, octal, decimal, hex, selector, signature, operation,
    endOfInput]

/-- The name of the rule with a given number. -/
def nameAt (index : Nat) : Bytes :=
  match all[index]? with
  | some rule => rule.name
  | none => "unknown"

end Rule

/-- The radix of a number, as its mark shows it. -/
inductive Base where
  | binary
  | octal
  | decimal
  | hex
deriving DecidableEq

namespace Base

def mark : Base → Bytes
  | binary => "0b"
  | octal => "0o"
  | decimal => ""
  | hex => "0x"

def rule : Base → Rule
  | binary => .binary
  | octal => .octal
  | decimal => .decimal
  | hex => .hex

def accepts : Base → UInt8 → Bool
  | binary => isBinaryDigit
  | octal => isOctalDigit
  | decimal => isDecimalDigit
  | hex => isHexadecimalDigit

end Base

structure Number where
  base : Base
  digits : Bytes
deriving DecidableEq

def Number.text (number : Number) : Bytes := number.base.mark ++ number.digits

/-- What is pushed: a number, the address of a label, or the selector of a function. -/
inductive Operand where
  | number (value : Number)
  | label (name : Bytes)
  | selector (signature : Bytes)
deriving DecidableEq

namespace Operand

def selectorWord : Bytes := "selector"

/-- What stands before a signature. -/
def selectorOpening : Bytes := selectorWord ++ ['('.toUInt8, '"'.toUInt8]

def text : Operand → Bytes
  | number value => value.text
  | label name => name
  | selector signature => selectorOpening ++ signature ++ ['"'.toUInt8, ')'.toUInt8]

end Operand

/-- An argument as a directive is given it. -/
inductive Actual where
  | string (contents : Bytes)
  | number (value : Number)
  | label (name : Bytes)
deriving DecidableEq

def Actual.text : Actual → Bytes
  | string contents => '"'.toUInt8 :: contents ++ ['"'.toUInt8]
  | number value => value.text
  | label name => name

/-- An argument behind a comma, with the blanks on both sides. -/
structure FurtherActual where
  lead : Bytes
  value : Actual
  trail : Bytes
deriving DecidableEq

def FurtherActual.text (item : FurtherActual) : Bytes :=
  ','.toUInt8 :: item.lead ++ item.value.text ++ item.trail

/-- A list of at least one argument. -/
structure Actuals where
  first : Actual
  trail : Bytes
  others : List FurtherActual
deriving DecidableEq

def Actuals.text (actuals : Actuals) : Bytes :=
  actuals.first.text ++ actuals.trail ++ actuals.others.flatMap FurtherActual.text

/-- The ways to bring in another file. -/
inductive Inclusion where
  | importFile
  | includeSource
  | includeHex
deriving DecidableEq

def Inclusion.word : Inclusion → Bytes
  | importFile => "import"
  | includeSource => "include"
  | includeHex => "include_hex"

inductive Directive where
  | inclusion (kind : Inclusion)
  | push
deriving DecidableEq

namespace Directive

def word : Directive → Bytes
  | inclusion kind => kind.word
  | push => "push"

def rule : Directive → Rule
  | inclusion .importFile => .importFile
  | inclusion .includeSource => .includeSource
  | inclusion .includeHex => .includeHex
  | push => .pushMacro

def all : List Directive :=
  [inclusion .importFile, inclusion .includeSource, inclusion .includeHex, push]

def ofWord? (word : Bytes) : Option Directive := all.find? fun directive => directive.word = word

end Directive

inductive Statement where
  /-- A name, blanks and a colon. -/
  | label (name gap : Bytes)
  | plain (operation : Operation)
  /-- A push operation, blanks and what is pushed. -/
  | push (operation : Operation) (gap : Bytes) (operand : Operand)
  /-- A directive with its arguments; `pad` are the blanks behind the opening parenthesis. -/
  | directive (name : Directive) (pad : Bytes) (actuals : Option Actuals)
deriving DecidableEq

namespace Statement

def directiveOpening (name : Directive) : Bytes := '%'.toUInt8 :: name.word ++ ['('.toUInt8]

def actualsText : Option Actuals → Bytes
  | none => []
  | some actuals => actuals.text

def text : Statement → Bytes
  | label name gap => name ++ gap ++ [':'.toUInt8]
  | plain operation => operation.mnemonic
  | push operation gap operand => operation.mnemonic ++ gap ++ operand.text
  | directive name pad actuals =>
    directiveOpening name ++ pad ++ actualsText actuals ++ [')'.toUInt8]

end Statement

/-- A statement and the layout before it. -/
structure Entry where
  layout : Bytes
  statement : Statement
deriving DecidableEq

def Entry.text (entry : Entry) : Bytes := entry.layout ++ entry.statement.text

/-- A whole source: its statements, and the layout behind the last one. -/
structure Source where
  entries : List Entry
  ending : Bytes
deriving DecidableEq

def Source.text (source : Source) : Bytes := source.entries.flatMap Entry.text ++ source.ending

end EvmAssembly
