import EvmAssembly.SourceText

/-!
# The operation table

Every operation has a mnemonic, an opcode byte and a number of immediate bytes. The table lists
them by opcode; only the `push` operations carry an immediate.
-/

namespace EvmAssembly

/-- How an operation is encoded: one opcode byte, then `width` immediate bytes. -/
structure Encoding where
  opcode : UInt8
  width : UInt32
deriving DecidableEq

namespace Encoding

/-- The encoded length in bytes, in 32 bits. -/
def size (encoding : Encoding) : UInt32 := 1 + encoding.width

def hasImmediate (encoding : Encoding) : Bool := encoding.width ≠ 0

/-- The push of the given number of bytes, of which there are at most 32. -/
def push? (width : UInt32) : Option Encoding :=
  if 1 ≤ width ∧ width ≤ 32 then some ⟨0x5f + width.toUInt8, width⟩ else none

end Encoding

structure Operation where
  mnemonic : Bytes
  encoding : Encoding
deriving DecidableEq

namespace Operation

/-- Operations without immediate, at consecutive opcodes. -/
def run (opcode : UInt8) : List Bytes → List Operation
  | [] => []
  | mnemonic :: rest => ⟨mnemonic, ⟨opcode, 0⟩⟩ :: run (opcode + 1) rest

/-- A stem followed by the numbers from `first` on. -/
def numbered (stem : Bytes) (first count : Nat) : List Bytes :=
  (List.range' first count).map fun n => stem ++ decimal n

def arithmetic : List Operation :=
  run 0x00 ["stop", "add", "mul", "sub", "div", "sdiv", "mod", "smod", "addmod", "mulmod", "exp",
    "signextend"]

def comparison : List Operation :=
  run 0x10 ["lt", "gt", "slt", "sgt", "eq", "iszero", "and", "or", "xor", "not", "byte", "shl",
    "shr", "sar"]

def hashing : List Operation := run 0x20 ["keccak256"]

def environment : List Operation :=
  run 0x30 ["address", "balance", "origin", "caller", "callvalue", "calldataload",
    "calldatasize", "calldatacopy", "codesize", "codecopy", "gasprice", "extcodesize",
    "extcodecopy", "returndatasize", "returndatacopy", "extcodehash"]

def block : List Operation :=
  run 0x40 ["blockhash", "coinbase", "timestamp", "number", "difficulty", "gaslimit", "chainid",
    "selfbalance", "basefee"]

def storage : List Operation :=
  run 0x50 ["pop", "mload", "mstore", "mstore8", "sload", "sstore", "jump", "jumpi", "pc",
    "msize", "gas", "jumpdest"]

def pushes : List Operation :=
  (List.range' 1 32).map fun n => ⟨"push" ++ decimal n, ⟨0x5f + n.toUInt8, n.toUInt32⟩⟩

def duplication : List Operation := run 0x80 (numbered "dup" 1 16)

def exchange : List Operation := run 0x90 (numbered "swap" 1 16)

def logging : List Operation := run 0xa0 (numbered "log" 0 5)

def system : List Operation :=
  run 0xf0 ["create", "call", "callcode", "return", "delegatecall", "create2"] ++
    run 0xfa ["staticcall"] ++ run 0xfd ["revert", "invalid", "selfdestruct"]

/-- All operations, by opcode. -/
def table : List Operation :=
  arithmetic ++ comparison ++ hashing ++ environment ++ block ++ storage ++ pushes ++
    duplication ++ exchange ++ logging ++ system

def ofMnemonic? (name : Bytes) : Option Operation :=
  table.find? fun operation => operation.mnemonic = name

def ofEncoding? (encoding : Encoding) : Option Operation :=
  table.find? fun operation => operation.encoding = encoding

end Operation

end EvmAssembly
