/-!
# Source text

Source text, names and messages are strings of bytes, and every length and column counts bytes.
Literal text stands for its UTF-8 bytes. The character classes are of ASCII characters; a byte above
127 is in none of them. Lines and columns count from one; line zero stands for an unknown place.
-/

namespace EvmAssembly

abbrev Bytes := List UInt8

/-- The UTF-8 bytes of a text. -/
def utf8 (text : String) : Bytes := text.toList.flatMap String.utf8EncodeChar

instance : Coe String Bytes := ⟨utf8⟩

/-- The decimal digits of a number, without leading zeros. -/
def decimal (n : Nat) : Bytes := (Nat.toDigits 10 n).map Char.toUInt8

def newline : UInt8 := '\n'.toUInt8

/-- The part of a byte string before its first NUL. -/
def beforeNul (bytes : Bytes) : Bytes := bytes.takeWhile (· ≠ 0)

/-- Blanks that bring a text to the given width; none if it is already wider. -/
def blanksTo (width : Nat) (text : Bytes) : Bytes :=
  List.replicate (width - text.length) ' '.toUInt8

/-- What was read of `source` when `rest` is left of it. -/
def consumed (source rest : Bytes) : Bytes := source.take (source.length - rest.length)

@[simp] theorem consumed_append (text rest : Bytes) : consumed (text ++ rest) rest = text := by
  simp [consumed]

def isDecimalDigit (c : UInt8) : Bool := '0'.toUInt8 ≤ c && c ≤ '9'.toUInt8

def isHexadecimalDigit (c : UInt8) : Bool :=
  isDecimalDigit c || ('a'.toUInt8 ≤ c && c ≤ 'f'.toUInt8) ||
    ('A'.toUInt8 ≤ c && c ≤ 'F'.toUInt8)

def isOctalDigit (c : UInt8) : Bool := '0'.toUInt8 ≤ c && c ≤ '7'.toUInt8

def isBinaryDigit (c : UInt8) : Bool := c = '0'.toUInt8 || c = '1'.toUInt8

/-- An identifier begins with a letter or an underscore. -/
def isNameStart (c : UInt8) : Bool :=
  ('a'.toUInt8 ≤ c && c ≤ 'z'.toUInt8) || ('A'.toUInt8 ≤ c && c ≤ 'Z'.toUInt8) ||
    c = '_'.toUInt8

def isNameChar (c : UInt8) : Bool := isNameStart c || isDecimalDigit c

/-- Blanks separate words within a line; a carriage return is one of them. -/
def isBlank (c : UInt8) : Bool := c = ' '.toUInt8 || c = '\t'.toUInt8 || c = '\r'.toUInt8

/-- A newline or a semicolon ends a statement. -/
def isSeparator (c : UInt8) : Bool := c = newline || c = ';'.toUInt8

/-- The first byte of a text, if there is one, is in the class. -/
def startsWith (inClass : UInt8 → Bool) : Bytes → Bool
  | [] => false
  | c :: _ => inClass c

/-- An identifier is a non-empty word of identifier characters that begins as one. -/
def IsName (name : Bytes) : Prop := startsWith isNameStart name ∧ name.all isNameChar

instance (name : Bytes) : Decidable (IsName name) := by unfold IsName; infer_instance

structure Location where
  line : Nat
  column : Nat
deriving DecidableEq

namespace Location

def unknown : Location := ⟨0, 0⟩

/-- Where a source begins. -/
def start : Location := ⟨1, 1⟩

def known (place : Location) : Bool := place.line ≠ 0

/-- The place one byte further on. -/
def step (place : Location) (c : UInt8) : Location :=
  if c = newline then ⟨place.line + 1, 1⟩ else ⟨place.line, place.column + 1⟩

/-- The place behind a text that begins here. -/
def after (place : Location) (text : Bytes) : Location := text.foldl step place

@[simp] theorem after_nil (place : Location) : place.after [] = place := rfl

@[simp] theorem after_cons (place : Location) (c : UInt8) (text : Bytes) :
    place.after (c :: text) = (place.step c).after text := rfl

@[simp] theorem after_append (place : Location) (first second : Bytes) :
    place.after (first ++ second) = (place.after first).after second := by
  simp [after]

/-- Within a line, only the column goes on. -/
theorem after_of_notMem {place : Location} {text : Bytes} (h : newline ∉ text) :
    place.after text = ⟨place.line, place.column + text.length⟩ := by
  induction text generalizing place with
  | nil => rfl
  | cons c text ih =>
    have hc : ¬ c = newline := fun heq => h (by simp [heq])
    have htext : newline ∉ text := fun hmem => h (by simp [hmem])
    rw [after_cons, ih htext, step, if_neg hc, List.length_cons]
    simp only [Location.mk.injEq, true_and]
    omega

/-- The place of the byte that has `offset` bytes of the source before it. -/
def ofOffset (source : Bytes) (offset : Nat) : Location := start.after (source.take offset)

def text (place : Location) : Bytes :=
  if place.known then "line " ++ decimal place.line ++ ", column " ++ decimal place.column
  else "unknown location"

end Location

end EvmAssembly
