import EvmAssembly.SourceText

/-!
# Parse errors

A fault is what is wrong with a source; a parse error is a fault at a place. The wording of every
message stands here.
-/

namespace EvmAssembly

inductive FaultKind where
  | lexical
  | immediateTooLarge
  | extraArgument
  | missingArgument
  | argumentType
deriving DecidableEq

namespace FaultKind

def name : FaultKind → Bytes
  | lexical => "Lexer"
  | immediateTooLarge => "ImmediateTooLarge"
  | extraArgument => "ExtraArgument"
  | missingArgument => "MissingArgument"
  | argumentType => "ArgumentType"

def all : List FaultKind :=
  [lexical, immediateTooLarge, extraArgument, missingArgument, argumentType]

/-- The name of the kind with a given number. -/
def nameAt (index : Nat) : Bytes :=
  match all[index]? with
  | some kind => kind.name
  | none => "Unknown"

end FaultKind

inductive Fault where
  /-- The text does not follow the grammar. -/
  | lexical (detail : Bytes)
  /-- The literal does not fit into so many bytes. -/
  | immediateTooLarge (literal : Bytes) (width : Nat)
  | extraArgument (expected got : Nat)
  | missingArgument (expected got : Nat)
  /-- The argument at this position, counted from zero, has the wrong form. -/
  | argumentType (position : Nat) (wanted found : Bytes)
deriving DecidableEq

namespace Fault

def kind : Fault → FaultKind
  | lexical _ => .lexical
  | immediateTooLarge _ _ => .immediateTooLarge
  | extraArgument _ _ => .extraArgument
  | missingArgument _ _ => .missingArgument
  | argumentType _ _ _ => .argumentType

def detail : Fault → Bytes
  | lexical detail => detail
  | immediateTooLarge literal _ => literal
  | argumentType _ wanted found => "expected " ++ wanted ++ ", found " ++ found
  | _ => []

def expected : Fault → Nat
  | immediateTooLarge _ width => width
  | extraArgument expected _ => expected
  | missingArgument expected _ => expected
  | _ => 0

def got : Fault → Nat
  | extraArgument _ got => got
  | missingArgument _ got => got
  | _ => 0

def position : Fault → Nat
  | argumentType position _ _ => position
  | _ => 0

/-- A message counts positions from one, in 64 bits. -/
def ordinal (position : Nat) : Nat := (position + 1) % UInt64.size

def description (fault : Fault) : Bytes :=
  match fault with
  | lexical detail => detail
  | immediateTooLarge literal width =>
    "immediate " ++ literal ++ " does not fit in " ++ decimal width ++
      (if width = 1 then " byte" else " bytes")
  | extraArgument expected got =>
    "too many arguments: expected " ++ decimal expected ++ ", got " ++ decimal got
  | missingArgument expected got =>
    "missing argument: expected " ++ decimal expected ++ ", got " ++ decimal got
  | argumentType position _ _ =>
    "argument " ++ decimal (ordinal position) ++ " has the wrong type: " ++ fault.detail

end Fault

structure ParseError where
  fault : Fault
  location : Location
deriving DecidableEq

namespace ParseError

/-- Gives the error a place, unless it has one. -/
def pin (error : ParseError) (place : Location) : ParseError :=
  if error.location.known then error else ⟨error.fault, place⟩

def message (error : ParseError) : Bytes :=
  if error.location.known then error.location.text ++ ": " ++ error.fault.description
  else error.fault.description

/-- The message as it is shown: a NUL byte ends it. -/
def report (error : ParseError) : Bytes := beforeNul error.message

end ParseError

/-- A fault with no place yet. -/
def Fault.unplaced (fault : Fault) : ParseError := ⟨fault, .unknown⟩

end EvmAssembly
