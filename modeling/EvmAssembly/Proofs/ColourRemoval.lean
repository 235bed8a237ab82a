import EvmAssembly.Proofs.CommandLineRuns
import EvmAssembly.Proofs.QuotedBytes

/-!
# Colours removed

Colours are escape sequences between the texts of a printout. The texts themselves are made from
fixed words, digits and what the program was given, so they hold an escape character only where an
argument or a file does. Without one there, taking the escape sequences out of a coloured run leaves
the run without colours.
-/

namespace EvmAssembly

variable {s : Bytes}

def escape : UInt8 := 0x1b

/-- The characters that stand between the bracket and the `m` of an escape sequence. -/
def isParameter (c : UInt8) : Bool := isDecimalDigit c || c = ';'.toUInt8

/-- What is behind the escape sequence that a text begins with, if it begins with one. -/
def behindEscape? : Bytes → Option Bytes
  | first :: bracket :: rest =>
    if first = escape ∧ bracket = '['.toUInt8 ∧
        startsWith (· = 'm'.toUInt8) (rest.dropWhile isParameter) then
      some ((rest.dropWhile isParameter).drop 1)
    else none
  | _ => none

theorem behindEscape?_length {behind : Bytes} (h : behindEscape? s = some behind) :
    behind.length < s.length := by
  unfold behindEscape? at h
  split at h
  · rename_i first bracket rest
    have hdrop := (List.dropWhile_suffix isParameter (l := rest)).length_le
    split at h
    · cases h
      simp only [List.length_drop, List.length_cons]
      omega
    · cases h
  · cases h

/-- A text without its escape sequences. -/
def withoutEscapes : Bytes → Bytes
  | [] => []
  | c :: rest =>
    match _found : behindEscape? (c :: rest) with
    | some behind => withoutEscapes behind
    | none => c :: withoutEscapes rest
termination_by s => s.length
decreasing_by
  · exact behindEscape?_length _found
  · exact Nat.lt_succ_self _

theorem behindEscape?_sequence {parameters : Bytes} (h : parameters.all isParameter = true)
    (s : Bytes) :
    behindEscape? (escape :: '['.toUInt8 :: (parameters ++ 'm'.toUInt8 :: s)) = some s := by
  have hlast : startsWith isParameter ('m'.toUInt8 :: s) = false := rfl
  simp [behindEscape?, dropWhile_run h hlast]

theorem behindEscape?_of_ne {c : UInt8} (h : c ≠ escape) (rest : Bytes) :
    behindEscape? (c :: rest) = none := by
  cases rest with
  | nil => rfl
  | cons bracket rest => simp [behindEscape?, h]

@[simp] theorem withoutEscapes_nil : withoutEscapes [] = [] := by
  rw [withoutEscapes]

/-- An escape sequence is taken out. -/
theorem withoutEscapes_sequence {parameters : Bytes} (h : parameters.all isParameter = true)
    (s : Bytes) :
    withoutEscapes (escape :: '['.toUInt8 :: (parameters ++ 'm'.toUInt8 :: s)) =
      withoutEscapes s := by
  rw [withoutEscapes, behindEscape?_sequence h]

/-- A text without escape characters stays. -/
theorem withoutEscapes_append {text : Bytes} (h : escape ∉ text) (s : Bytes) :
    withoutEscapes (text ++ s) = text ++ withoutEscapes s := by
  induction text with
  | nil => rfl
  | cons c text ih =>
    obtain ⟨hc, htext⟩ := List.ne_and_not_mem_of_not_mem_cons h
    rw [List.cons_append, withoutEscapes, behindEscape?_of_ne hc.symm]
    simp only [ih htext, List.cons_append]

/-- The escape sequence with these parameters, where colours are shown. -/
def shade (colours : Bool) (parameters : Bytes) : Bytes :=
  if colours then "\x1b[" ++ parameters ++ "m" else []

theorem withoutEscapes_shade {parameters : Bytes} (h : parameters.all isParameter = true)
    (colours : Bool) (s : Bytes) :
    withoutEscapes (shade colours parameters ++ s) = withoutEscapes s := by
  cases colours with
  | false => rfl
  | true =>
    have hsequence : shade true parameters ++ s =
        escape :: '['.toUInt8 :: (parameters ++ 'm'.toUInt8 :: s) := by
      have hopening : utf8 "\x1b[" = [escape, '['.toUInt8] := by decide
      have hclosing : utf8 "m" = ['m'.toUInt8] := by decide
      simp [shade, hopening, hclosing]
    rw [hsequence, withoutEscapes_sequence h]

/-- The parameters of the escape sequence of a colour. -/
def Colour.parameters : Colour → Bytes
  | reset => "0"
  | error => "1;31"
  | opcode => "1;36"
  | offset => "1;33"
  | operand => "1;32"
  | hex => "1;35"
  | comment => "1;90"

theorem Colour.parameters_all (colour : Colour) : colour.parameters.all isParameter = true := by
  cases colour <;> decide

theorem Piece.render_text (colours : Bool) (bytes : Bytes) :
    Piece.render colours (.text bytes) = bytes := rfl

theorem Piece.render_colour (colours : Bool) (colour : Colour) :
    Piece.render colours (.colour colour) = shade colours colour.parameters := by
  cases colours with
  | false => rfl
  | true => cases colour <;> decide

/-- The texts of a printout are made from a source. -/
def TextsFrom (s : Bytes) (printout : Printout) : Prop :=
  ∀ text, Piece.text text ∈ printout → MadeFrom s text

section

variable {rest first second : Printout}

@[simp] theorem textsFrom_nil : TextsFrom s [] := by
  intro text htext
  cases htext

@[simp] theorem textsFrom_text {text : Bytes} :
    TextsFrom s (.text text :: rest) ↔ MadeFrom s text ∧ TextsFrom s rest := by
  simp [TextsFrom]

@[simp] theorem textsFrom_colour {colour : Colour} :
    TextsFrom s (.colour colour :: rest) ↔ TextsFrom s rest := by
  simp [TextsFrom]

@[simp] theorem textsFrom_append :
    TextsFrom s (first ++ second) ↔ TextsFrom s first ∧ TextsFrom s second := by
  simp [TextsFrom, or_imp, forall_and]

theorem textsFrom_flatMap {α : Type} {items : List α} {shown : α → Printout}
    (h : ∀ item ∈ items, TextsFrom s (shown item)) : TextsFrom s (items.flatMap shown) := by
  intro text htext
  obtain ⟨item, hitem, htext⟩ := List.mem_flatMap.mp htext
  exact h item hitem text htext

/-- Without its escape sequences, a printout looks as it does without colours. -/
theorem withoutEscapes_render {printout : Printout} (h : TextsFrom s printout)
    (hs : escape ∉ s) (colours : Bool) :
    withoutEscapes (printout.render colours) = printout.render false := by
  induction printout with
  | nil => exact withoutEscapes_nil
  | cons piece rest ih =>
    cases piece with
    | text text =>
      obtain ⟨htext, hrest⟩ := textsFrom_text.mp h
      change withoutEscapes (text ++ Printout.render colours rest) =
        text ++ Printout.render false rest
      rw [withoutEscapes_append (htext.notMem rfl hs), ih hrest]
    | colour colour =>
      change withoutEscapes (Piece.render colours (.colour colour) ++
        Printout.render colours rest) = Printout.render false rest
      rw [Piece.render_colour, withoutEscapes_shade colour.parameters_all,
        ih (textsFrom_colour.mp h)]

end

theorem textsFrom_colouredLine {colour : Colour} {text : Bytes} (h : MadeFrom s text) :
    TextsFrom s (colouredLine colour text) := by
  simp only [colouredLine, textsFrom_colour, textsFrom_text]
  exact ⟨h, madeFrom_word rfl, textsFrom_nil⟩

theorem madeFrom_blanksTo (width : Nat) (text : Bytes) : MadeFrom s (blanksTo width text) := by
  intro c hc
  rw [List.eq_of_mem_replicate hc]
  exact .inl rfl

theorem madeFrom_bar (n : Nat) : MadeFrom s (List.replicate n (utf8 "═")).flatten := by
  intro c hc
  obtain ⟨mark, hmark, hc⟩ := List.mem_flatten.mp hc
  rw [List.eq_of_mem_replicate hmark] at hc
  exact madeFrom_word rfl c hc

theorem textsFrom_boxLine {width : Nat} {colour : Colour} {line : Bytes} (h : MadeFrom s line) :
    TextsFrom s (boxLine width colour line) := by
  simp only [boxLine, textsFrom_colour, textsFrom_text, madeFrom_append]
  exact ⟨madeFrom_word rfl, ⟨h, madeFrom_blanksTo _ _⟩, madeFrom_word rfl, madeFrom_word rfl,
    textsFrom_nil⟩

theorem textsFrom_box {title : Bytes} {lines : List Bytes} (htitle : MadeFrom s title)
    (hlines : ∀ line ∈ lines, MadeFrom s line) : TextsFrom s (box title lines) := by
  have hrule {first last : Bytes} (hfirst : MadeFrom s first) (hlast : MadeFrom s last) (n : Nat) :
      TextsFrom s (colouredLine .hex (first ++ (List.replicate n (utf8 "═")).flatten ++ last)) :=
    textsFrom_colouredLine
      (madeFrom_append.mpr ⟨madeFrom_append.mpr ⟨hfirst, madeFrom_bar n⟩, hlast⟩)
  simp only [box, textsFrom_append]
  exact ⟨⟨⟨⟨hrule (madeFrom_word rfl) (madeFrom_word rfl) _, textsFrom_boxLine htitle⟩,
    hrule (madeFrom_word rfl) (madeFrom_word rfl) _⟩,
    textsFrom_flatMap fun line hline => textsFrom_boxLine (hlines line hline)⟩,
    hrule (madeFrom_word rfl) (madeFrom_word rfl) _⟩

theorem Parser.madeFrom_say {line : Bytes} (parser : Parser) (h : MadeFrom s line) :
    MadeFrom s (parser.say line) := by
  rw [Parser.say]
  split
  · exact madeFrom_append.mpr ⟨madeFrom_append.mpr ⟨madeFrom_word rfl, h⟩, madeFrom_word rfl⟩
  · exact madeFrom_nil

theorem Parser.parse_madeFrom (parser : Parser) (s : Bytes) : MadeFrom s (parser.parse s).2 := by
  obtain ⟨lines, hprinted, hlines⟩ := parser.parse_lines s
  have hline : ∀ line ∈ lines, MadeFrom s line := by
    intro line hmem
    rcases hlines line hmem with rfl | ⟨nodes, rfl⟩ |
      ⟨place, node, ⟨statements, statement, hreads, hstatement, hnode⟩, rfl⟩
    · simp only [Parser.header, madeFrom_append]
      exact ⟨⟨madeFrom_word rfl, madeFrom_decimal _⟩, madeFrom_word rfl⟩
    · simp only [Parser.footer, madeFrom_append]
      exact ⟨⟨madeFrom_word rfl, madeFrom_decimal _⟩, madeFrom_word rfl⟩
    · simp only [Parser.nodeLine, madeFrom_append]
      exact ⟨⟨⟨madeFrom_word rfl, place.madeFrom_text⟩, madeFrom_word rfl⟩,
        hreads.node_madeFrom hstatement hnode⟩
  rw [hprinted]
  intro c hc
  obtain ⟨line, hmem, hc⟩ := List.mem_flatMap.mp hc
  exact parser.madeFrom_say (hline line hmem) c hc

namespace CommandLine

theorem traceOf_madeFrom (debug : Bool) (source : Bytes) :
    MadeFrom source (traceOf debug source) :=
  madeFrom_append.mpr ⟨Parser.madeFrom_say _ (madeFrom_word rfl), Parser.parse_madeFrom _ _⟩

theorem usage_textsFrom : TextsFrom s usage := by
  have htitle : MadeFrom s ("evmasm " ++ version ++ " Usage") :=
    madeFrom_append.mpr
      ⟨madeFrom_append.mpr ⟨madeFrom_word rfl, madeFrom_word rfl⟩, madeFrom_word rfl⟩
  refine textsFrom_box htitle ?_
  simp only [List.forall_mem_cons]
  exact ⟨madeFrom_word rfl, madeFrom_word rfl, madeFrom_word rfl, madeFrom_word rfl,
    madeFrom_word rfl, madeFrom_word rfl, madeFrom_word rfl, madeFrom_word rfl, madeFrom_word rfl,
    madeFrom_word rfl, madeFrom_word rfl, List.forall_mem_nil _⟩

theorem nodeLines_textsFrom {nodes : List Node} (h : ∀ node ∈ nodes, MadeFrom s node.text)
    (offset : Option UInt32) : TextsFrom s (nodeLines offset nodes) := by
  induction nodes generalizing offset with
  | nil => exact textsFrom_nil
  | cons node nodes ih =>
    obtain ⟨hnode, hnodes⟩ := List.forall_mem_cons.mp h
    have hoffset : MadeFrom s (offsetText offset) := by
      cases offset with
      | none => exact madeFrom_word rfl
      | some offset => exact madeFrom_of_digits (hexNumber_all_digits _ _)
    simp only [nodeLines, nodeLine, textsFrom_append, textsFrom_colour, textsFrom_text,
      madeFrom_append]
    exact ⟨⟨⟨hoffset, madeFrom_word rfl⟩, hnode, madeFrom_word rfl, textsFrom_nil⟩, ih hnodes _⟩

theorem listing_textsFrom {file : Bytes} {nodes : List Node} (hfile : MadeFrom s file)
    (h : ∀ node ∈ nodes, MadeFrom s node.text) : TextsFrom s (listing file nodes) := by
  have hsize (size : Option UInt32) : MadeFrom s (sizeLine size) := by
    cases size with
    | none => exact madeFrom_word rfl
    | some size =>
      simp only [sizeLine, madeFrom_append]
      exact ⟨⟨madeFrom_word rfl, madeFrom_decimal _⟩, madeFrom_word rfl⟩
  refine textsFrom_append.mpr ⟨nodeLines_textsFrom h _, textsFrom_box (madeFrom_word rfl) ?_⟩
  simp only [List.forall_mem_cons, madeFrom_append]
  exact ⟨⟨madeFrom_word rfl, hfile⟩, ⟨madeFrom_word rfl, madeFrom_decimal _⟩, hsize _,
    List.forall_mem_nil _⟩

theorem table_textsFrom : TextsFrom s tableRun.output := by
  apply textsFrom_flatMap
  intro operation hknown
  have hmnemonic := madeFrom_of_name (s := s) (Operation.isName_mnemonic hknown).2
  have hbytes : MadeFrom s (utf8 (if operation.encoding.size = 1 then " byte" else " bytes")) := by
    split <;> exact madeFrom_word rfl
  simp only [tableLine, textsFrom_colour, textsFrom_text, madeFrom_append]
  exact ⟨⟨⟨madeFrom_word rfl, madeFrom_hexText _⟩, madeFrom_word rfl⟩,
    ⟨hmnemonic, madeFrom_blanksTo _ _⟩, ⟨madeFrom_decimal _, hbytes⟩, madeFrom_word rfl,
    textsFrom_nil⟩

theorem selector_textsFrom (signature : Bytes) : TextsFrom s (selectorRun signature).output := by
  simp only [selectorRun, selectorLine, List.cons_append, List.nil_append, textsFrom_colour,
    textsFrom_text, madeFrom_append]
  exact ⟨madeFrom_word rfl, ⟨madeFrom_word rfl, madeFrom_hexText _⟩, madeFrom_word rfl,
    textsFrom_colouredLine (madeFrom_append.mpr ⟨madeFrom_word rfl, madeFrom_hexText _⟩)⟩

/-- Both outputs of a run are made from a source. -/
def Run.From (s : Bytes) (run : Run) : Prop := TextsFrom s run.output ∧ TextsFrom s run.errors

theorem misuse_from {complaint : Bytes} (h : MadeFrom s complaint) : (misuse complaint).From s :=
  ⟨usage_textsFrom, textsFrom_colouredLine h⟩

theorem Lists.textsFrom {files : Bytes → Option Bytes} {debug : Bool} {file : Bytes} {run : Run}
    (h : Lists files debug file run) : run.From (file ++ (files file).getD []) := by
  have hfile : MadeFrom (file ++ (files file).getD []) file :=
    madeFrom_of_subset (List.subset_append_left _ _)
  have hcontent {content text : Bytes} (hfound : files file = some content)
      (htext : MadeFrom content text) : MadeFrom (file ++ (files file).getD []) text := by
    rw [hfound]
    exact htext.mono (List.subset_append_right _ _)
  cases h with
  | unreadable missing =>
    refine ⟨textsFrom_nil, ?_⟩
    simp only [textsFrom_colour, textsFrom_text, madeFrom_append]
    exact ⟨madeFrom_word rfl, ⟨madeFrom_word rfl, hfile⟩, madeFrom_word rfl, textsFrom_nil⟩
  | @unparsed content error found fails =>
    have hkind {source : Bytes} (kind : FaultKind) : MadeFrom source kind.name := by
      cases kind <;> exact madeFrom_word rfl
    have hreport : MadeFrom content error.report := by
      intro c hc
      exact parse_error_madeFrom fails c ((List.takeWhile_prefix _).subset hc)
    have htrace := hcontent found (traceOf_madeFrom debug content)
    refine ⟨textsFrom_text.mpr ⟨htrace, textsFrom_nil⟩, ?_⟩
    simp only [textsFrom_colour, textsFrom_text, madeFrom_append]
    exact ⟨⟨⟨madeFrom_word rfl, hkind _⟩, madeFrom_word rfl⟩,
      ⟨⟨hfile, madeFrom_word rfl⟩, hcontent found hreport⟩, madeFrom_word rfl, textsFrom_nil⟩
  | @listed content nodes found accepts =>
    have htrace := hcontent found (traceOf_madeFrom debug content)
    refine ⟨textsFrom_text.mpr ⟨htrace, listing_textsFrom hfile ?_⟩, textsFrom_nil⟩
    intro node hnode
    exact hcontent found (parse_listing_madeFrom accepts node hnode)

/-- What a request makes a run quote: the name that it gives, and the file of that name. -/
def Request.given (files : Bytes → Option Bytes) : Request → Bytes
  | nothing | table | selector _ => []
  | list file => file ++ (files file).getD []
  | needsArgument mode | unknownMode mode => mode

theorem Request.run_from (files : Bytes → Option Bytes) (debug : Bool) (request : Request) :
    (request.run files debug).From (request.given files) := by
  have hmode (mode : Bytes) : MadeFrom mode mode := madeFrom_of_subset (List.Subset.refl _)
  cases request with
  | nothing => exact misuse_from (madeFrom_word rfl)
  | table => exact ⟨table_textsFrom, textsFrom_nil⟩
  | selector signature => exact ⟨selector_textsFrom signature, textsFrom_nil⟩
  | list file => exact (listFile_lists files debug file).textsFrom
  | needsArgument mode =>
    refine misuse_from ?_
    simp only [madeFrom_append]
    exact ⟨⟨madeFrom_word rfl, hmode mode⟩, madeFrom_word rfl⟩
  | unknownMode mode =>
    exact misuse_from (madeFrom_append.mpr ⟨madeFrom_word rfl, hmode mode⟩)

theorem Asks.escape_notMem {files : Bytes → Option Bytes} {operands : List Bytes}
    {request : Request} (h : Asks operands request)
    (hoperands : ∀ operand ∈ operands, escape ∉ operand)
    (hfiles : ∀ file content, files file = some content → escape ∉ content) :
    escape ∉ request.given files := by
  cases h with
  | nothing | table | selector => exact List.not_mem_nil
  | @list _ file named =>
    have hfile : escape ∉ file := by
      cases named <;> exact hoperands file (by simp)
    have hcontent : escape ∉ (files file).getD [] := by
      cases hfound : files file with
      | none => exact List.not_mem_nil
      | some content => exact hfiles file content hfound
    exact fun hmem => (List.mem_append.mp hmem).elim hfile hcontent
  | @needsArgument mode known => exact hoperands mode (by simp)
  | @unknownMode mode rest dashed unknown => exact hoperands mode (by simp)

/-- What is seen of a run, without escape sequences. -/
def Shown.withoutEscapes (shown : Shown) : Shown :=
  ⟨shown.exit, EvmAssembly.withoutEscapes shown.output, EvmAssembly.withoutEscapes shown.errors⟩

theorem Run.From.withoutEscapes_shown {run : Run} (h : run.From s) (hs : escape ∉ s)
    (colours : Bool) : (run.shown colours).withoutEscapes = run.shown false := by
  rw [Run.shown, Shown.withoutEscapes, withoutEscapes_render h.1 hs, withoutEscapes_render h.2 hs]
  rfl

/-- The flag for colours changes nothing but the colours. -/
theorem run_colourFlag (files : Bytes → Option Bytes) (before after : List Bytes) :
    run files (before ++ utf8 "--no-color" :: after) = run files (before ++ after) := by
  have hflag : isColourFlag (utf8 "--no-color") = true ∧
      isDebugFlag (utf8 "--no-color") = false := by
    decide
  simp [run, operands, hflag]

theorem colours_colourFlag (before after : List Bytes) :
    colours (before ++ utf8 "--no-color" :: after) = false := by
  simp [colours, isColourFlag]

/-- Where neither an argument nor a file holds an escape character, the flag that disables colours
does nothing but take the escape sequences out of both outputs, wherever it stands. -/
theorem shown_without_colours {files : Bytes → Option Bytes} {before after : List Bytes}
    (harguments : ∀ argument ∈ before ++ after, escape ∉ argument)
    (hfiles : ∀ file content, files file = some content → escape ∉ content) :
    shown files (before ++ utf8 "--no-color" :: after) =
      (shown files (before ++ after)).withoutEscapes := by
  have hgiven : escape ∉ (Request.of (operands (before ++ after))).given files := by
    refine (Asks.of_operands _).escape_notMem ?_ hfiles
    intro operand hoperand
    exact harguments operand (List.mem_of_mem_filter hoperand)
  have hfrom := Request.run_from files ((before ++ after).any isDebugFlag)
    (.of (operands (before ++ after)))
  have hplain := hfrom.withoutEscapes_shown hgiven (colours (before ++ after))
  rw [shown, run_colourFlag, colours_colourFlag]
  exact hplain.symm

/-- A run that fails, in colours and with the flag between the mode and its file. -/
theorem shown_without_colours_fault :
    shown (fun _ => some (utf8 "(")) [utf8 "-p", utf8 "f"] =
      ⟨1, [], "\x1b[1;31mParse Error (Lexer): \x1b[0mf: line 1, column 1: " ++
        "expected an instruction, label or macro, found '('\n"⟩ ∧
    shown (fun _ => some (utf8 "(")) [utf8 "-p", utf8 "--no-color", utf8 "f"] =
      ⟨1, [], "Parse Error (Lexer): f: line 1, column 1: " ++
        "expected an instruction, label or macro, found '('\n"⟩ := by
  have hcoloured : shown (fun _ => some (utf8 "(")) [utf8 "-p", utf8 "f"] =
      ⟨1, [], "\x1b[1;31mParse Error (Lexer): \x1b[0mf: line 1, column 1: " ++
        "expected an instruction, label or macro, found '('\n"⟩ := by
    decide +kernel
  have hfiles : ∀ file content : Bytes, (fun _ => some (utf8 "(")) file = some content →
      escape ∉ content := by
    rintro file content ⟨⟩
    decide
  have hplain := @shown_without_colours (fun _ => some (utf8 "(")) [utf8 "-p"] [utf8 "f"]
    (by decide) hfiles
  refine ⟨hcoloured, hplain.trans ?_⟩
  rw [List.singleton_append, hcoloured]
  decide +kernel

end CommandLine
end EvmAssembly
