import EvmAssembly.Statement

/-!
# Lexical faults

Why a text does not follow the grammar, and where: a fault keeps the part of the source that begins
at the place it points to.
-/

namespace EvmAssembly

/-- What should have stood at a place. -/
inductive Expectation where
  | statement
  | separator
  | gap (mnemonic : Bytes)
  | operand
  | digits (base : Base)
  | selectorOpening
  | signatureOpening
  | functionName
  | parameterList
  | parameterType
  | parameterEnd
  | arrayEnd
  | signatureEnd
  | selectorEnd
  | directiveName
  | argumentsOpening (directive : Directive)
  | argument
  | argumentsEnd (directive : Directive)
deriving DecidableEq

def Expectation.text : Expectation → Bytes
  | statement => "expected an instruction, label or macro"
  | separator => "expected ';' or a newline after the statement"
  | gap mnemonic => "expected whitespace after '" ++ mnemonic ++ "'"
  | operand => "expected a number, selector or label after push"
  | digits base => "expected digits in " ++ base.rule.name
  | selectorOpening => "expected '(' after selector"
  | signatureOpening => "expected '\"' to open the selector signature"
  | functionName => "malformed selector signature: expected a function name"
  | parameterList => "expected '(' in selector signature"
  | parameterType => "malformed selector signature: expected a parameter type"
  | parameterEnd => "malformed selector signature: expected ',' or ')'"
  | arrayEnd => "expected ']' to close the array type"
  | signatureEnd => "expected '\"' to close the selector signature"
  | selectorEnd => "expected ')' after the selector signature"
  | directiveName => "expected a macro name after '%'"
  | argumentsOpening directive => "expected '(' after '%" ++ directive.word ++ "'"
  | argument => "expected a macro argument"
  | argumentsEnd directive =>
    "expected ')' to close the argument list of '%" ++ directive.word ++ "'"

inductive LexicalCause where
  | expected (what : Expectation)
  | operandMissing (mnemonic : Bytes)
  | strayCharacter (base : Base)
  | unknownInstruction (name : Bytes)
  | unknownDirective (name : Bytes)
  | oddDigits (digits : Bytes)
  | unterminatedString
deriving DecidableEq

/-- These faults are reported where the offending word begins, all others where reading stopped. -/
def LexicalCause.atWordStart : LexicalCause → Bool
  | unknownInstruction _ | unknownDirective _ | oddDigits _ | unterminatedString => true
  | expected _ | operandMissing _ | strayCharacter _ => false

structure LexicalFault where
  cause : LexicalCause
  rest : Bytes
deriving DecidableEq

/-- What a message says is found at the beginning of a text. -/
def nextShown : Bytes → Bytes
  | [] => "end of input"
  | c :: _ => if c = newline then "newline" else "'" ++ [c] ++ "'"

namespace LexicalFault

def detail (fault : LexicalFault) : Bytes :=
  match fault.cause with
  | .expected what => what.text ++ ", found " ++ nextShown fault.rest
  | .operandMissing mnemonic => "'" ++ mnemonic ++ "' requires an operand"
  | .strayCharacter base =>
    "invalid character " ++ nextShown fault.rest ++ " in " ++ base.rule.name
  | .unknownInstruction name => "unknown instruction '" ++ name ++ "'"
  | .unknownDirective name => "unknown macro '%" ++ name ++ "'"
  | .oddDigits digits => "hex literal '0x" ++ digits ++ "' needs an even number of digits"
  | .unterminatedString => "unterminated string"

/-- How many bytes of the source stand before the fault. -/
def offset (fault : LexicalFault) (source : Bytes) : Nat := source.length - fault.rest.length

end LexicalFault

/-- A step of reading: it may stop at a fault. -/
abbrev Scan := Except LexicalFault

def fail {α : Type} (cause : LexicalCause) (rest : Bytes) : Scan α := .error ⟨cause, rest⟩

@[simp] theorem fail_ne_ok {α : Type} {cause : LexicalCause} {rest : Bytes} {a : α} :
    fail cause rest ≠ .ok a := nofun

/-- A sequence of two steps succeeds when both do. -/
theorem scan_bind_eq_ok {α β : Type} {step : Scan α} {next : α → Scan β} {b : β} :
    (step >>= next) = .ok b ↔ ∃ a, step = .ok a ∧ next a = .ok b := by
  cases step with
  | error e => simp [bind, Except.bind]
  | ok a => simp [bind, Except.bind]

/-- Reads one given byte and gives the text behind it. -/
def readByte (delimiter : UInt8) (what : Expectation) : Bytes → Scan Bytes
  | [] => fail (.expected what) []
  | c :: rest => if c = delimiter then .ok rest else fail (.expected what) (c :: rest)

theorem readByte_eq_ok {delimiter : UInt8} {what : Expectation} {s rest : Bytes} :
    readByte delimiter what s = .ok rest ↔ s = delimiter :: rest := by
  cases s with
  | nil => simp [readByte]
  | cons c r => by_cases h : c = delimiter <;> simp [readByte, h]

end EvmAssembly
