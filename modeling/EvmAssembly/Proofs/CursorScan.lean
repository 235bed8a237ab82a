import EvmAssembly.ProgramParse

/-!
# Reading with a cursor

The readers of a source take what is left of it and give back what is left behind. Here the source
stays whole and a cursor moves over it, one byte at a time. The byte under the cursor can be looked
at anywhere; behind the end, a NUL byte is seen. Loops have no end but their own test; they are run
with a limit on their turns, and a walk that reaches it has no outcome. On its way a walk notes the
position of every byte that it goes over, and of every turn of a loop and every call of a function
that calls itself, where the turn or the call began and where it ended. What is thrown is thrown
through all of them, so a turn that throws is not noted.
-/

namespace EvmAssembly

/-- The loops of the reader, and the two functions that read lists and types within one another. -/
inductive Loop where
  | statements
  | arguments
  | parameters
  | suffixes
  | parameterList
  | parameterType
deriving DecidableEq

/-- A turn of a loop, or a call. -/
structure Turn where
  loop : Loop
  start : Nat
  stop : Nat
  /-- Whether the loop is left with this turn. -/
  last : Bool
deriving DecidableEq

structure Cursor where
  position : Nat
  place : Location
  /-- The positions of the bytes that the cursor went over. -/
  passed : List Nat
  turns : List Turn
deriving DecidableEq

/-- A walk of the cursor may throw an error, and it may run out of turns. -/
abbrev Walk := ExceptT ParseError (StateT Cursor Option)

/-- What becomes of a walk and where it leaves the cursor, unless it runs out of turns. -/
def Walk.outcome {α : Type} (walk : Walk α) (cursor : Cursor) :
    Option (Except ParseError α × Cursor) :=
  walk.run.run cursor

namespace Cursor

variable (s : Bytes)

def start : Cursor := ⟨0, .start, [], []⟩

def atEnd (cursor : Cursor) : Bool := s.length ≤ cursor.position

/-- The byte so many places ahead of the cursor. -/
def peek (cursor : Cursor) (ahead : Nat) : UInt8 := s.getD (cursor.position + ahead) 0

/-- The next byte is there and in the class. -/
def sees (inClass : UInt8 → Bool) (cursor : Cursor) : Bool :=
  !cursor.atEnd s && inClass (cursor.peek s 0)

end Cursor

namespace Walk

variable (s : Bytes) (limit : Nat)

def outOfTurns {α : Type} : Walk α := liftM (none : Option α)

/-- Goes over the next byte, whether it is there or not. -/
def advance : Walk Unit := modify fun cursor =>
  ⟨cursor.position + 1, cursor.place.step (cursor.peek s 0), cursor.passed ++ [cursor.position],
    cursor.turns⟩

/-- Notes a turn that began at a position and ends here. -/
def note (loop : Loop) (start : Nat) (last : Bool) : Walk Unit := modify fun cursor =>
  ⟨cursor.position, cursor.place, cursor.passed,
    cursor.turns ++ [⟨loop, start, cursor.position, last⟩]⟩

/-- The text from a position up to the cursor. -/
def slice (start : Nat) : Walk Bytes := do
  let cursor ← get
  return (s.drop start).take (cursor.position - start)

def faultAt {α : Type} (place : Location) (cause : LexicalCause) : Walk α := do
  let cursor ← get
  throw ⟨.lexical (LexicalFault.mk cause (s.drop cursor.position)).detail, place⟩

def fault {α : Type} (cause : LexicalCause) : Walk α := do
  let cursor ← get
  faultAt s cursor.place cause

def expect (c : UInt8) (what : Expectation) : Walk Unit := do
  let cursor ← get
  if cursor.atEnd s || cursor.peek s 0 ≠ c then fault s (.expected what) else advance s

def advanceWhile (test : Cursor → Bool) : Nat → Walk Unit
  | 0 => outOfTurns
  | turns + 1 => do
    let cursor ← get
    if test cursor then
      advance s
      advanceWhile test turns
    else return

def skipBlanks : Walk Unit := advanceWhile s (Cursor.sees s isBlank) limit

def skipComment : Walk Unit := do
  let cursor ← get
  if cursor.peek s 0 ≠ '#'.toUInt8 then return
  else advanceWhile s (Cursor.sees s (· ≠ newline)) limit

/-- Skips the blanks and the comment that may stand before the end of a line. -/
def skipLine : Walk Unit := do
  skipBlanks s limit
  skipComment s limit

def name : Walk Bytes := do
  let cursor ← get
  advanceWhile s (Cursor.sees s isNameChar) limit
  slice s cursor.position

/-- Reads the digits of a number that began at `first`, behind its mark. -/
def digits (base : Base) (first : Cursor) : Walk Tree := do
  let behindMark ← get
  advanceWhile s (Cursor.sees s base.accepts) limit
  let cursor ← get
  if cursor.position = behindMark.position then fault s (.expected (.digits base))
  else if isNameChar (cursor.peek s 0) then fault s (.strayCharacter base)
  else
    let text ← slice s first.position
    return .leaf base.rule text first.place

def marked (base : Base) (first : Cursor) : Walk Tree := do
  advance s
  advance s
  digits s limit base first

def number : Walk Tree := do
  let first ← get
  if first.peek s 0 = '0'.toUInt8 ∧ first.peek s 1 = 'x'.toUInt8 then
    let tree ← marked s limit .hex first
    if (tree.text.length - 2) % 2 ≠ 0 then
      faultAt s first.place (.oddDigits (tree.text.drop 2))
    else return tree
  else if first.peek s 0 = '0'.toUInt8 ∧ first.peek s 1 = 'o'.toUInt8 then
    marked s limit .octal first
  else if first.peek s 0 = '0'.toUInt8 ∧ first.peek s 1 = 'b'.toUInt8 then
    marked s limit .binary first
  else digits s limit .decimal first

/-- The digits of an array size are skipped without looking for the end. -/
def suffixes : Nat → Walk Unit
  | 0 => outOfTurns
  | turns + 1 => do
    let first ← get
    if first.peek s 0 = '['.toUInt8 then
      advance s
      advanceWhile s (fun cursor => isDecimalDigit (cursor.peek s 0)) limit
      expect s ']'.toUInt8 .arrayEnd
      note .suffixes first.position false
      suffixes turns
    else return

/-- Reads a list; `inner` reads what stands behind its opening parenthesis, unless the list is
empty. -/
def parameterList (inner : Walk Unit) : Walk Unit := do
  let first ← get
  expect s '('.toUInt8 .parameterList
  let cursor ← get
  if cursor.peek s 0 = ')'.toUInt8 then
    advance s
    note .parameterList first.position true
  else
    inner
    note .parameterList first.position true

/-- Reads a type, which may be a list. -/
def parameterType (inner : Walk Unit) : Walk Unit := do
  let first ← get
  if first.peek s 0 = '('.toUInt8 then
    parameterList s inner
    suffixes s limit limit
    note .parameterType first.position true
  else if isNameStart (first.peek s 0) then
    let _ ← name s limit
    suffixes s limit limit
    note .parameterType first.position true
  else fault s (.expected .parameterType)

/-- Reads types up to the end of their list. A list within this one has one turn less, and so has
what stands behind a comma. -/
def parameters : Nat → Walk Unit
  | 0 => outOfTurns
  | turns + 1 => do
    let first ← get
    parameterType s limit (parameters turns)
    let cursor ← get
    if cursor.peek s 0 = ','.toUInt8 then
      advance s
      note .parameters first.position false
      parameters turns
    else if cursor.peek s 0 = ')'.toUInt8 then
      advance s
      note .parameters first.position true
    else fault s (.expected .parameterEnd)

def signature : Walk Tree := do
  let first ← get
  if isNameStart (first.peek s 0) then
    let _ ← name s limit
    parameterList s (parameters s limit limit)
    let text ← slice s first.position
    return .leaf .signature text first.place
  else fault s (.expected .functionName)

/-- Reads a selector that began at `first`, from the parenthesis under the cursor on. -/
def selector (first : Cursor) : Walk Tree := do
  expect s '('.toUInt8 .selectorOpening
  expect s '"'.toUInt8 .signatureOpening
  let inner ← signature s limit
  expect s '"'.toUInt8 .signatureEnd
  expect s ')'.toUInt8 .selectorEnd
  let text ← slice s first.position
  return ⟨.selector, text, first.place, [inner]⟩

def operand : Walk Tree := do
  let first ← get
  if isDecimalDigit (first.peek s 0) then number s limit
  else if isNameStart (first.peek s 0) then
    let word ← name s limit
    let cursor ← get
    if word = Operand.selectorWord ∧ cursor.peek s 0 = '('.toUInt8 then selector s limit first
    else return .leaf .label word first.place
  else fault s (.expected .operand)

def string : Walk Tree := do
  let first ← get
  advance s
  let inner ← get
  advanceWhile s (Cursor.sees s inString) limit
  let cursor ← get
  if cursor.peek s 0 ≠ '"'.toUInt8 then faultAt s first.place .unterminatedString
  else
    let contents ← slice s inner.position
    advance s
    return .leaf .string contents first.place

def argument : Walk Tree := do
  let first ← get
  if first.peek s 0 = '"'.toUInt8 then string s limit
  else if isDecimalDigit (first.peek s 0) then number s limit
  else if isNameStart (first.peek s 0) then
    let word ← name s limit
    return .leaf .label word first.place
  else fault s (.expected .argument)

/-- Reads arguments and gives them behind those already given. -/
def arguments (given : List Tree) : Nat → Walk (List Tree)
  | 0 => outOfTurns
  | turns + 1 => do
    let first ← get
    let tree ← argument s limit
    skipBlanks s limit
    let cursor ← get
    if cursor.peek s 0 ≠ ','.toUInt8 then
      note .arguments first.position true
      return given ++ [tree]
    else
      advance s
      skipBlanks s limit
      note .arguments first.position false
      arguments (given ++ [tree]) turns

/-- The arguments of a directive, up to the closing parenthesis. -/
def argumentList : Walk (List Tree) := do
  let cursor ← get
  if cursor.peek s 0 ≠ ')'.toUInt8 then arguments s limit [] limit else return []

def directive : Walk Tree := do
  let first ← get
  advance s
  let inner ← get
  if isNameStart (inner.peek s 0) then
    let word ← name s limit
    match Directive.ofWord? word with
    | none => faultAt s first.place (.unknownDirective word)
    | some directive =>
      expect s '('.toUInt8 (.argumentsOpening directive)
      skipBlanks s limit
      let given ← argumentList s limit
      expect s ')'.toUInt8 (.argumentsEnd directive)
      let text ← slice s first.position
      return ⟨.instructionMacro, text, first.place,
        [⟨directive.rule, text, first.place, given⟩]⟩
  else fault s (.expected .directiveName)

/-- Reads what a push takes; the push began at `first`. -/
def push (mnemonic : Bytes) (first : Cursor) : Walk Tree := do
  let value ← operand s limit
  let text ← slice s first.position
  return ⟨.push, text, first.place, [.leaf .wordSize (mnemonic.drop 4) first.place, value]⟩

def statement : Walk Tree := do
  let first ← get
  if first.peek s 0 = '%'.toUInt8 then directive s limit
  else if isNameStart (first.peek s 0) then
    let word ← name s limit
    let behindName ← get
    skipBlanks s limit
    let cursor ← get
    if cursor.peek s 0 = ':'.toUInt8 then
      advance s
      let text ← slice s first.position
      return ⟨.labelDefinition, text, first.place, [.leaf .label word first.place]⟩
    else
      match Operation.ofMnemonic? word with
      | none => faultAt s first.place (.unknownInstruction word)
      | some operation =>
        if operation.encoding.hasImmediate then
          if cursor.atEnd s || isSeparator (cursor.peek s 0) || cursor.peek s 0 = '#'.toUInt8 then
            fault s (.operandMissing word)
          else if cursor.position = behindName.position then fault s (.expected (.gap word))
          else push s limit word first
        else return .leaf .operation word first.place
  else fault s (.expected .statement)

/-- Skips the line behind a statement and tells whether the source ends with it. -/
def lineEnd : Walk Bool := do
  skipLine s limit
  let cursor ← get
  if cursor.atEnd s then return true
  else if isSeparator (cursor.peek s 0) then return false
  else fault s (.expected .separator)

/-- Reads statements and gives them behind those already read. A separator is gone over in the turn
behind its statement. -/
def statements (trees : List Tree) : Nat → Walk (List Tree)
  | 0 => outOfTurns
  | turns + 1 => do
    let first ← get
    skipLine s limit
    let cursor ← get
    if cursor.atEnd s then
      note .statements first.position true
      return trees
    else if isSeparator (cursor.peek s 0) then
      advance s
      note .statements first.position false
      statements trees turns
    else
      let tree ← statement s limit
      let ended ← lineEnd s limit
      note .statements first.position ended
      if ended then return trees ++ [tree] else statements (trees ++ [tree]) turns

/-- Reads the whole source, with a limit on the turns of each loop. -/
def program : Walk (List Tree) := do
  let trees ← statements s limit [] limit
  let cursor ← get
  return trees ++ [.leaf .endOfInput [] cursor.place]

end Walk

end EvmAssembly
