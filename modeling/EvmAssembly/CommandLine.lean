import EvmAssembly.ProgramParse

/-!
# The command line

The program lists the nodes of a source file with their offsets, prints the selector of a function
signature, or prints the operation table. It is a function of its arguments and of the files. Output
is a list of pieces of text and changes of colour; colours are shown by escape sequences, or left
out.
-/

namespace EvmAssembly

inductive Colour where
  | reset
  | error
  | opcode
  | offset
  | operand
  | hex
  | comment
deriving DecidableEq

/-- The escape sequence that switches to a colour. -/
def Colour.code : Colour → Bytes
  | reset => "\x1b[0m"
  | error => "\x1b[1;31m"
  | opcode => "\x1b[1;36m"
  | offset => "\x1b[1;33m"
  | operand => "\x1b[1;32m"
  | hex => "\x1b[1;35m"
  | comment => "\x1b[1;90m"

inductive Piece where
  | text (bytes : Bytes)
  | colour (shade : Colour)
deriving DecidableEq

instance : Coe Colour Piece := ⟨.colour⟩
instance : Coe String Piece := ⟨fun text => .text text⟩

def Piece.render (colours : Bool) : Piece → Bytes
  | text bytes => bytes
  | colour shade => if colours then shade.code else []

abbrev Printout := List Piece

def Printout.render (colours : Bool) (printout : Printout) : Bytes :=
  printout.flatMap (Piece.render colours)

/-- A line of text in a colour. -/
def colouredLine (colour : Colour) (text : Bytes) : Printout :=
  [colour, .text text, Colour.reset, "\n"]

/-- The width of the widest of some lines, in bytes. -/
def widest (lines : List Bytes) : Nat := (lines.map List.length).foldl max 0

/-- A line within a box that is `width` wide inside. -/
def boxLine (width : Nat) (colour : Colour) (line : Bytes) : Printout :=
  [Colour.hex, "║ ", colour, .text (line ++ blanksTo width line), Colour.hex, " ║", Colour.reset,
    "\n"]

/-- A box with a title and lines below it. -/
def box (title : Bytes) (lines : List Bytes) : Printout :=
  let width := widest (title :: lines)
  let bar := (List.replicate (width + 2) (utf8 "═")).flatten
  colouredLine .hex ("╔" ++ bar ++ "╗") ++ boxLine width .opcode title ++
    colouredLine .hex ("╠" ++ bar ++ "╣") ++ lines.flatMap (boxLine width .operand) ++
    colouredLine .hex ("╚" ++ bar ++ "╝")

end EvmAssembly

namespace EvmAssembly.CommandLine

/-- What a run leaves: an exit code and the two outputs. -/
structure Run where
  exit : Nat
  output : Printout
  errors : Printout
deriving DecidableEq

def version : Bytes := "0.3.0"

def usage : Printout :=
  box ("evmasm " ++ version ++ " Usage")
    ["Usage: evmasm [options] [mode] <argument>",
      "Modes:",
      "  -p <file>        Parse a source file and list its nodes (default).",
      "  -s <signature>   Print the selector of a function signature.",
      "  -t               Print the opcode table.",
      "Options:",
      "  -d, --debug      Trace every parsed node.",
      "  --no-color       Disable ANSI colors.",
      "Examples:",
      "  evmasm contract.etk",
      "  evmasm -s \"transfer(address,uint256)\""]

/-- A run that fails because of how it was called. -/
def misuse (complaint : Bytes) : Run := ⟨1, usage, colouredLine .error complaint⟩

/-- The offset behind a node. Once an offset is unknown, so are all behind it. -/
def nextOffset (offset : Option UInt32) (node : Node) : Option UInt32 :=
  match offset, node.size? with
  | some offset, some size => some (offset + size)
  | _, _ => none

def offsetText : Option UInt32 → Bytes
  | some offset => hexNumber 4 offset.toNat
  | none => "????"

def nodeLine (offset : Option UInt32) (node : Node) : Printout :=
  [Colour.offset, .text (offsetText offset ++ "  "), Colour.opcode, .text node.text, Colour.reset,
    "\n"]

/-- A line for each node, the first of which has the given offset. -/
def nodeLines : Option UInt32 → List Node → Printout
  | _, [] => []
  | offset, node :: rest => nodeLine offset node ++ nodeLines (nextOffset offset node) rest

/-- The length of a program, where its nodes alone decide it. -/
def programSize (nodes : List Node) : Option UInt32 := nodes.foldl nextOffset (some 0)

def sizeLine : Option UInt32 → Bytes
  | some size => "Size:   " ++ decimal size.toNat ++ " bytes"
  | none => "Size:   resolved by the assembler"

def listing (file : Bytes) (nodes : List Node) : Printout :=
  nodeLines (some 0) nodes ++
    box "Parse successful"
      ["Source: " ++ file, "Nodes:  " ++ decimal nodes.length, sizeLine (programSize nodes)]

/-- Lists the file of the given name. -/
def listFile (files : Bytes → Option Bytes) (debug : Bool) (file : Bytes) : Run :=
  match files file with
  | none =>
    ⟨1, [], [Colour.error, "Error: ", Colour.reset,
      .text ("Could not open source file: " ++ file), "\n"]⟩
  | some source =>
    let (parser, greeting) := Parser.fresh.setDebug debug
    let (result, trace) := parser.parse source
    match result with
    | .ok nodes => ⟨0, .text (greeting ++ trace) :: listing file nodes, []⟩
    | .error error =>
      ⟨1, [.text (greeting ++ trace)],
        [Colour.error, .text ("Parse Error (" ++ error.fault.kind.name ++ "): "), Colour.reset,
          .text (file ++ ": " ++ error.report), "\n"]⟩

def selectorLine (signature : Bytes) : Printout :=
  [Colour.opcode, "selector ", Colour.hex, .text ("0x" ++ hexText (functionSelector signature 4)),
    Colour.reset, "\n"]

/-- Prints the selector and the whole hash of a signature. -/
def selectorRun (signature : Bytes) : Run :=
  ⟨0, selectorLine signature ++
    colouredLine .comment ("keccak256 0x" ++ hexText (Keccak.keccak256 signature)), []⟩

def tableLine (operation : Operation) : Printout :=
  let size := operation.encoding.size
  [Colour.hex, .text ("0x" ++ hexText [operation.encoding.opcode] ++ "  "), Colour.opcode,
    .text (operation.mnemonic ++ blanksTo 16 operation.mnemonic), Colour.comment,
    .text (decimal size.toNat ++ (if size = 1 then " byte" else " bytes")), Colour.reset, "\n"]

def tableRun : Run := ⟨0, Operation.table.flatMap tableLine, []⟩

def isDebugFlag (argument : Bytes) : Bool := argument = utf8 "-d" || argument = utf8 "--debug"

def isColourFlag (argument : Bytes) : Bool := argument = utf8 "--no-color"

/-- The arguments that are not flags; flags may stand anywhere. -/
def operands (arguments : List Bytes) : List Bytes :=
  arguments.filter fun argument => !isDebugFlag argument && !isColourFlag argument

/-- What the arguments ask for. -/
inductive Request where
  | nothing
  | table
  | selector (signature : Bytes)
  | list (file : Bytes)
  | needsArgument (mode : Bytes)
  | unknownMode (mode : Bytes)
deriving DecidableEq

def Request.of : List Bytes → Request
  | [] => nothing
  | mode :: rest =>
    if mode = utf8 "-t" then table
    else if mode = utf8 "-s" then
      match rest with
      | [] => needsArgument mode
      | signature :: _ => selector signature
    else if mode = utf8 "-p" then
      match rest with
      | [] => needsArgument mode
      | file :: _ => list file
    else if startsWith (· = '-'.toUInt8) mode then unknownMode mode
    else list mode

def Request.run (files : Bytes → Option Bytes) (debug : Bool) : Request → Run
  | nothing => misuse "Error: No mode or file specified."
  | table => tableRun
  | selector signature => selectorRun signature
  | list file => listFile files debug file
  | needsArgument mode => misuse ("Error: " ++ mode ++ " needs an argument.")
  | unknownMode mode => misuse ("Unknown mode: " ++ mode)

/-- The run that the arguments ask for. -/
def run (files : Bytes → Option Bytes) (arguments : List Bytes) : Run :=
  (Request.of (operands arguments)).run files (arguments.any isDebugFlag)

/-- Whether the output shows colours. -/
def colours (arguments : List Bytes) : Bool := !arguments.any isColourFlag

/-- What is seen of a run: its exit code and the bytes of both outputs. -/
structure Shown where
  exit : Nat
  output : Bytes
  errors : Bytes
deriving DecidableEq

def Run.shown (run : Run) (colours : Bool) : Shown :=
  ⟨run.exit, run.output.render colours, run.errors.render colours⟩

/-- What is seen of the run that the arguments ask for. -/
def shown (files : Bytes → Option Bytes) (arguments : List Bytes) : Shown :=
  (run files arguments).shown (colours arguments)

end EvmAssembly.CommandLine
