import EvmAssembly.ProgramParse

/-!
# Program sessions

A session keeps parsed programs in numbered slots and answers questions about them. Every call but
the one that asks for the detail of an error first forgets the error before it.
-/

namespace EvmAssembly

/-- The outcome of a call. Each kind of parse error has one of its own. -/
inductive Outcome where
  | ok
  /-- A failure that none of the others describes. -/
  | general
  | invalidHandle
  | invalidArgument
  | lexical
  | immediateTooLarge
  | extraArgument
  | missingArgument
  | argumentType
deriving DecidableEq

namespace Outcome

/-- The number that a caller is given. -/
def code : Outcome → Int
  | ok => 0
  | general => -1
  | invalidHandle => -2
  | invalidArgument => -3
  | lexical => -4
  | immediateTooLarge => -5
  | extraArgument => -6
  | missingArgument => -7
  | argumentType => -8

/-- The outcome of a parse that fails by an error of this kind. -/
def ofKind : FaultKind → Outcome
  | .lexical => lexical
  | .immediateTooLarge => immediateTooLarge
  | .extraArgument => extraArgument
  | .missingArgument => missingArgument
  | .argumentType => argumentType

end Outcome

inductive NodeKind where
  | instruction
  | label
  | pushLabel
  | inclusion (kind : Inclusion)
deriving DecidableEq

namespace NodeKind

def number : NodeKind → Nat
  | instruction => 0
  | label => 1
  | pushLabel => 2
  | inclusion .importFile => 3
  | inclusion .includeSource => 4
  | inclusion .includeHex => 5

def ofNode : Node → NodeKind
  | .instruction _ => instruction
  | .label _ => label
  | .pushLabel _ => pushLabel
  | .inclusion kind _ => inclusion kind

end NodeKind

/-- A parsed program with the listing of its nodes. -/
structure Loaded where
  nodes : List Node
  listing : List Bytes
deriving DecidableEq

def Loaded.ofNodes (nodes : List Node) : Loaded := ⟨nodes, nodes.map Node.text⟩

structure ErrorDetail where
  line : Nat
  column : Nat
  expected : Nat
  got : Nat
  position : Nat
deriving DecidableEq

def ParseError.errorDetail (error : ParseError) : ErrorDetail :=
  ⟨error.location.line, error.location.column, error.fault.expected, error.fault.got,
    error.fault.position⟩

/-- A mistake of the caller. -/
inductive Misuse where
  | noProgramPlace
  | noSource
  | noHandle
  | noCountPlace
  | noKindPlace
  | noTextPlace
  | indexOutOfBounds
deriving DecidableEq

namespace Misuse

def message : Misuse → Bytes
  | noProgramPlace => "Output program pointer cannot be null."
  | noSource => "Source text cannot be null."
  | noHandle => "Invalid program handle."
  | noCountPlace => "Output count pointer cannot be null."
  | noKindPlace => "Output kind pointer cannot be null."
  | noTextPlace => "Output text pointer cannot be null."
  | indexOutOfBounds => "Node index out of bounds."

def outcome : Misuse → Outcome
  | noHandle => .invalidHandle
  | _ => .invalidArgument

end Misuse

/-- A call. A missing slot is a handle to nothing; `wanted` says whether the caller has a place for
the answer. -/
inductive Call where
  | parse (out : Option Nat) (source : Option Bytes) (debug : Bool)
  | destroy (slot : Option Nat)
  | count (slot : Option Nat) (wanted : Bool)
  | kind (slot : Option Nat) (index : Nat) (wanted : Bool)
  | text (slot : Option Nat) (index : Nat) (wanted : Bool)
  | detail (wanted : Bool)
deriving DecidableEq

inductive Answer where
  | count (nodes : Nat)
  | kind (kind : NodeKind)
  | text (line : Bytes)
deriving DecidableEq

/-- What a call gives back, and what it prints. -/
structure Reply where
  outcome : Outcome
  answer : Option Answer
  printed : Bytes
  /-- The detail of the last error, if the call asks for it. -/
  detail : Option ErrorDetail
deriving DecidableEq

structure Session where
  slots : Nat → Option Loaded
  /-- The message of the last call, empty if it made no error. -/
  message : Bytes
  detail : Option ErrorDetail

namespace Session

def fresh : Session := ⟨fun _ => none, [], none⟩

/-- The message of the last error, if there was one. -/
def lastError (session : Session) : Option Bytes :=
  if session.message = [] then none else some session.message

def clear (session : Session) : Session := ⟨session.slots, [], none⟩

def refuse (session : Session) (misuse : Misuse) : Session × Reply :=
  (⟨session.slots, misuse.message, none⟩, ⟨misuse.outcome, none, [], none⟩)

def write (session : Session) (slot : Nat) (program : Option Loaded) : Session :=
  ⟨fun n => if n = slot then program else session.slots n, session.message, session.detail⟩

def read (session : Session) (slot : Option Nat) : Option Loaded := slot.bind session.slots

/-- Parses a source, which a NUL byte ends, into a slot. The slot is emptied first. -/
def parse (session : Session) (slot : Nat) (source : Bytes) (debug : Bool) : Session × Reply :=
  let (parser, greeting) := Parser.fresh.setDebug debug
  let (result, printed) := parser.parse (beforeNul source)
  match result with
  | .ok nodes =>
    (session.clear.write slot (some (.ofNodes nodes)), ⟨.ok, none, greeting ++ printed, none⟩)
  | .error error =>
    (⟨(session.write slot none).slots, error.report, some error.errorDetail⟩,
      ⟨.ofKind error.fault.kind, none, greeting ++ printed, none⟩)

/-- Answers a question about the program in a slot. -/
def ask (session : Session) (slot : Option Nat) (wanted : Bool) (noPlace : Misuse)
    (answer : Loaded → Option Answer) : Session × Reply :=
  match session.read slot with
  | none => session.refuse .noHandle
  | some program =>
    if wanted then
      match answer program with
      | none => session.refuse .indexOutOfBounds
      | some answer => (session.clear, ⟨.ok, some answer, [], none⟩)
    else session.refuse noPlace

def step (session : Session) : Call → Session × Reply
  | .parse none _ _ => session.refuse .noProgramPlace
  | .parse (some slot) none _ => (session.write slot none).refuse .noSource
  | .parse (some slot) (some source) debug => session.parse slot source debug
  | .destroy none => (session.clear, ⟨.ok, none, [], none⟩)
  | .destroy (some slot) => (session.clear.write slot none, ⟨.ok, none, [], none⟩)
  | .count slot wanted =>
    session.ask slot wanted .noCountPlace fun program => some (.count program.nodes.length)
  | .kind slot index wanted =>
    session.ask slot wanted .noKindPlace fun program =>
      program.nodes[index]?.map fun node => .kind (.ofNode node)
  | .text slot index wanted =>
    session.ask slot wanted .noTextPlace fun program => program.listing[index]?.map .text
  | .detail wanted =>
    let detail := if wanted then session.detail else none
    (session, ⟨if detail.isSome then .ok else .invalidArgument, none, [], detail⟩)

end Session

end EvmAssembly
