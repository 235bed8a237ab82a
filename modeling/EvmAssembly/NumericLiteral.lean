import EvmAssembly.ParseError

/-!
# Numeric literals

Bytes are written as two lower-case hexadecimal digits each and read in either case. Binary, octal
and decimal digits are read into a 128-bit word and give its significant bytes, most significant
first. Hexadecimal digits give two digits a byte, whatever their number. Either is then brought to
the width of the instruction.
-/

namespace EvmAssembly

/-- The value of a digit in any radix up to sixteen. -/
def valueOfDigit? (c : UInt8) : Option Nat :=
  if isDecimalDigit c then some (c.toNat - 48)
  else if 'a'.toUInt8 ≤ c && c ≤ 'f'.toUInt8 then some (c.toNat - 87)
  else if 'A'.toUInt8 ≤ c && c ≤ 'F'.toUInt8 then some (c.toNat - 55)
  else none

/-- The lower-case digit of a value below sixteen. -/
def hexDigit (value : Nat) : UInt8 := UInt8.ofNat (if value < 10 then value + 48 else value + 87)

def hexText : Bytes → Bytes
  | [] => []
  | b :: bytes => hexDigit (b.toNat / 16) :: hexDigit (b.toNat % 16) :: hexText bytes

/-- Reads two digits a byte; refuses anything else. -/
def hexDecode? : Bytes → Option Bytes
  | [] => some []
  | [_] => none
  | high :: low :: rest =>
    match valueOfDigit? high, valueOfDigit? low with
    | some h, some l => (hexDecode? rest).map (UInt8.ofNat (16 * h + l) :: ·)
    | _, _ => none

/-- A number in lower-case hexadecimal, with at least the given number of digits. -/
def hexNumber (digits n : Nat) : Bytes :=
  let written := (Nat.toDigits 16 n).map Char.toUInt8
  List.replicate (digits - written.length) '0'.toUInt8 ++ written

/-- Numeric literals are read into words of sixteen bytes. -/
def literalBytes : Nat := 16

abbrev LiteralWord := BitVec (8 * literalBytes)

/-- What stands before the digits of a literal in this radix. -/
def radixMark (radix : UInt32) : Bytes :=
  if radix = 2 then "0b" else if radix = 8 then "0o" else if radix = 16 then "0x" else ""

/-- Reads digits on from a value, as long as it fits into the word. -/
def readDigits (literal : Bytes) (radix : UInt32) : LiteralWord → Bytes → Except Fault LiteralWord
  | value, [] => .ok value
  | value, c :: digits =>
    match (valueOfDigit? c).filter (· < radix.toNat) with
    | none => .error (.lexical ("invalid digit '" ++ [c] ++ "' in '" ++ literal ++ "'"))
    | some d =>
      let word := BitVec.ofNat _ d
      let base := BitVec.ofNat _ radix.toNat
      if value > (BitVec.allOnes _ - word) / base then
        .error (.immediateTooLarge literal literalBytes)
      else readDigits literal radix (value * base + word) digits

/-- The last `count` base-256 digits of a number, most significant first. -/
def bigEndian : (count n : Nat) → Bytes
  | 0, _ => []
  | count + 1, n => bigEndian count (n / 256) ++ [UInt8.ofNat n]

/-- The number that bytes stand for, most significant first. -/
def bigEndianValue (bytes : Bytes) : Nat := bytes.foldl (fun n b => 256 * n + b.toNat) 0

/-- Drops leading zero bytes, but not the last byte. -/
def significant : Bytes → Bytes
  | [] => []
  | [b] => [b]
  | b :: next :: rest => if b = 0 then significant (next :: rest) else b :: next :: rest

/-- The bytes of a number written in the given radix. -/
def radixBytes (digits : Bytes) (radix : UInt32) : Except Fault Bytes :=
  let literal := radixMark radix ++ digits
  if digits = [] then .error (.lexical ("empty numeric literal '" ++ literal ++ "'"))
  else (readDigits literal radix 0 digits).map fun word =>
    significant (bigEndian literalBytes word.toNat)

/-- The bytes that hexadecimal digits spell out. -/
def hexBytes (digits : Bytes) : Except Fault Bytes :=
  if digits = [] ∨ digits.length % 2 ≠ 0 then
    .error (.lexical ("hex literal '0x" ++ digits ++ "' needs an even number of digits"))
  else
    match hexDecode? digits with
    | none => .error (.lexical ("invalid hex literal '0x" ++ digits ++ "'"))
    | some bytes => .ok bytes

/-- Brings bytes to a width by zeros in front. -/
def widen (raw : Bytes) (width : Nat) (literal : Bytes) : Except Fault Bytes :=
  if raw.length > width then .error (.immediateTooLarge literal width)
  else .ok (List.replicate (width - raw.length) 0 ++ raw)

end EvmAssembly
