import EvmAssembly.NumericLiteral
import EvmAssembly.Statement

/-!
# Program nodes

A program is a list of nodes: instructions, labels, pushes whose width is chosen later, and files
to bring in. Each is listed as one line of source. An instruction is an operation and, for a push,
its immediate: bytes, or a label whose address is filled in later.
-/

namespace EvmAssembly

inductive Immediate where
  | bytes (value : Bytes)
  | label (name : Bytes)
deriving DecidableEq

/-- Why an immediate cannot be taken for bytes, or for a label. -/
inductive WrongImmediate where
  | unresolved (name : Bytes)
  | concrete
deriving DecidableEq

def WrongImmediate.message : WrongImmediate → Bytes
  | unresolved name => "Immediate is the unresolved label '" ++ name ++ "'"
  | concrete => "Immediate is concrete, it has no label"

namespace Immediate

def isLabel : Immediate → Bool
  | bytes _ => false
  | label _ => true

def toBytes : Immediate → Except WrongImmediate Bytes
  | bytes value => .ok value
  | label name => .error (.unresolved name)

def toLabel : Immediate → Except WrongImmediate Bytes
  | bytes _ => .error .concrete
  | label name => .ok name

def text : Immediate → Bytes
  | bytes value => "0x" ++ hexText value
  | label name => name

end Immediate

structure Instruction where
  operation : Operation
  immediate : Option Immediate
deriving DecidableEq

/-- Why an encoding and an immediate do not make an instruction. -/
inductive InvalidInstruction where
  | unknownOpcode (opcode : UInt8)
  | immediateRequired (mnemonic : Bytes)
  | immediateRefused (mnemonic : Bytes)
  | wrongLength (mnemonic : Bytes) (width : UInt32) (got : Nat)
deriving DecidableEq

def InvalidInstruction.message : InvalidInstruction → Bytes
  | unknownOpcode opcode => "No mnemonic for opcode byte " ++ decimal opcode.toNat
  | immediateRequired mnemonic => mnemonic ++ " requires an immediate"
  | immediateRefused mnemonic => mnemonic ++ " takes no immediate"
  | wrongLength mnemonic width got =>
    mnemonic ++ " requires exactly " ++ decimal width.toNat ++ " immediate bytes, got " ++
      decimal got

namespace Instruction

/-- The operation that has this encoding. -/
def operationOf (encoding : Encoding) : Except InvalidInstruction Operation :=
  match Operation.ofEncoding? encoding with
  | some operation => .ok operation
  | none => .error (.unknownOpcode encoding.opcode)

/-- A push takes an immediate, of as many bytes as it pushes, and nothing else takes one. -/
def check (operation : Operation) (immediate : Option Immediate) :
    Except InvalidInstruction Unit :=
  match operation.encoding.hasImmediate, immediate with
  | false, none => .ok ()
  | false, some _ => .error (.immediateRefused operation.mnemonic)
  | true, none => .error (.immediateRequired operation.mnemonic)
  | true, some (.label _) => .ok ()
  | true, some (.bytes value) =>
    if value.length = operation.encoding.width.toNat then .ok ()
    else .error (.wrongLength operation.mnemonic operation.encoding.width value.length)

def make (encoding : Encoding) (immediate : Option Immediate) :
    Except InvalidInstruction Instruction := do
  let operation ← operationOf encoding
  check operation immediate
  return ⟨operation, immediate⟩

def text (instruction : Instruction) : Bytes :=
  match instruction.immediate with
  | none => instruction.operation.mnemonic
  | some immediate => instruction.operation.mnemonic ++ ' '.toUInt8 :: immediate.text

def size (instruction : Instruction) : UInt32 := instruction.operation.encoding.size

end Instruction

inductive Node where
  | instruction (value : Instruction)
  | label (name : Bytes)
  | pushLabel (name : Bytes)
  | inclusion (kind : Inclusion) (path : Bytes)
deriving DecidableEq

namespace Node

def text : Node → Bytes
  | instruction value => value.text
  | label name => name ++ [':'.toUInt8]
  | pushLabel name => Statement.directiveOpening .push ++ name ++ [')'.toUInt8]
  | inclusion kind path =>
    Statement.directiveOpening (.inclusion kind) ++ (Actual.string path).text ++ [')'.toUInt8]

/-- The encoded length, where the node alone decides it. -/
def size? : Node → Option UInt32
  | instruction value => some value.size
  | label _ => some 0
  | pushLabel _ => none
  | inclusion _ _ => none

end Node

/-- A path as its root and its names. Slashes in a row count as one; one at the end leaves an empty
last name. -/
def pathNames (path : Bytes) : Bool × List Bytes :=
  let pieces := path.splitOn '/'.toUInt8
  (startsWith (· = '/'.toUInt8) path,
    pieces.dropLast.filter (· ≠ []) ++ pieces.getLast?.toList)

def samePath (first second : Bytes) : Bool := pathNames first = pathNames second

namespace Node

/-- Nodes are the same if they stand for the same code; paths are compared by their names. -/
def same : Node → Node → Bool
  | instruction i, instruction j =>
    i.operation.encoding = j.operation.encoding && i.immediate = j.immediate
  | label a, label b => a = b
  | pushLabel a, pushLabel b => a = b
  | inclusion k p, inclusion l q => k = l && samePath p q
  | _, _ => false

/-- Programs are the same if they have the same nodes in the same order. -/
def sameProgram : List Node → List Node → Bool
  | [], [] => true
  | a :: as, b :: bs => a.same b && sameProgram as bs
  | _, _ => false

end Node

end EvmAssembly
