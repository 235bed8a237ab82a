import Mathlib.Data.List.Forall2
import EvmAssembly.Proofs.CheckedBuild
import EvmAssembly.Proofs.TreeTiling

/-!
# The node of each statement

A parsed program has one node for each statement of its source, in the same order. The rule of a
statement says what kind of node that is; names and paths are as they are written, and an
instruction is the operation of the table that its mnemonic names, with an immediate exactly if it
is a push.
-/

namespace EvmAssembly

variable {place : Location} {s : Bytes} {node : Node} {nodes : List Node}

/-- The node is made of the statement at its place. -/
def Makes (located : Location × Statement) (node : Node) : Prop :=
  located.2.node located.1 = .ok node

theorem makes_of_buildNodes {statements : List (Location × Statement)}
    (h : buildNodes statements = .ok nodes) : List.Forall₂ Makes statements nodes := by
  induction statements generalizing nodes with
  | nil =>
    cases h
    exact .nil
  | cons first rest ih =>
    obtain ⟨place, statement⟩ := first
    simp only [buildNodes] at h
    split at h
    · cases h
    · rename_i node hnode
      obtain ⟨others, hothers, rfl⟩ := map_eq_ok h
      exact .cons hnode (ih hothers)

/-- Building stops at the first statement of which no node can be made. -/
theorem stops_of_buildNodes {statements : List (Location × Statement)} {error : ParseError}
    (h : buildNodes statements = .error error) :
    ∃ made place statement later nodes, statements = made ++ (place, statement) :: later ∧
      List.Forall₂ Makes made nodes ∧ statement.node place = .error error := by
  induction statements with
  | nil => cases h
  | cons first rest ih =>
    obtain ⟨place, statement⟩ := first
    simp only [buildNodes] at h
    split at h
    · rename_i inner hinner
      cases h
      exact ⟨[], place, statement, rest, [], rfl, .nil, hinner⟩
    · rename_i node hnode
      obtain ⟨made, there, failing, later, nodes, rfl, hmade, hfails⟩ := ih (map_eq_error h)
      have hfirst : Makes (place, statement) node := hnode
      exact ⟨_, there, failing, later, _, rfl, .cons hfirst hmade, hfails⟩

theorem exists_makes {made : List (Location × Statement)} (h : List.Forall₂ Makes made nodes) :
    ∀ located ∈ made, ∃ node, Makes located node := by
  induction h with
  | nil =>
    intro located hmem
    cases hmem
  | @cons _ node _ _ hfirst _ ih => exact List.forall_mem_cons.mpr ⟨⟨node, hfirst⟩, ih⟩

theorem buildNodes_of_stops {made later : List (Location × Statement)} {statement : Statement}
    {error : ParseError} (hmade : ∀ located ∈ made, ∃ node, Makes located node)
    (h : statement.node place = .error error) :
    buildNodes (made ++ (place, statement) :: later) = .error error := by
  induction made with
  | nil => rw [List.nil_append, buildNodes, h]
  | cons first rest ih =>
    obtain ⟨there, other⟩ := first
    obtain ⟨⟨node, hnode⟩, hrest⟩ := List.forall_mem_cons.mp hmade
    have hother : other.node there = .ok node := hnode
    rw [List.cons_append, buildNodes, hother, ih hrest]
    rfl

/-- What the operand of a push that takes so many bytes gives: the name of a label, or the bytes. -/
inductive Tree.Gives (width : Nat) : Tree → Immediate → Prop where
  | label {name : Bytes} {place : Location} (isName : IsName name) :
      Gives width ⟨.label, name, place, []⟩ (.label name)
  | bytes {operand : Tree} {value : Bytes}
      (rule : operand.rule ∈ [Rule.binary, .octal, .decimal, .hex, .selector])
      (length : value.length = width) : Gives width operand (.bytes value)

/-- The node that the tree of a statement stands for, with the text that the statement has. The
width of a push is read off its word size, and its operation is the one of its mnemonic. -/
inductive Tree.StandsFor : Tree → Node → Prop where
  | label {name gap : Bytes} {place : Location} (isName : IsName name)
      (blanks : gap.all isBlank = true) :
      StandsFor ⟨.labelDefinition, name ++ gap ++ ":", place, [⟨.label, name, place, []⟩]⟩
        (.label name)
  | plain {mnemonic : Bytes} {operation : Operation} {place : Location}
      (found : Operation.ofMnemonic? mnemonic = some operation) :
      StandsFor ⟨.operation, mnemonic, place, []⟩ (.instruction ⟨operation, none⟩)
  | push {size gap : Bytes} {width : Nat} {operation : Operation} {operand : Tree}
      {immediate : Immediate} {place : Location}
      (found : Operation.ofMnemonic? ("push" ++ size) = some operation)
      (read : Checked.unsigned size = .ok width)
      (derived : Encoding.push? (UInt32.ofNat width) = some operation.encoding)
      (nonempty : gap ≠ []) (blanks : gap.all isBlank = true)
      (given : operand.Gives width immediate) :
      StandsFor ⟨.push, "push" ++ size ++ gap ++ operand.text, place,
        [⟨.wordSize, size, place, []⟩, operand]⟩ (.instruction ⟨operation, some immediate⟩)
  | pushLabel {pad name trail text : Bytes} {place there : Location}
      (written : text = "%push(" ++ pad ++ name ++ trail ++ ")") (isName : IsName name)
      (blanks : (pad ++ trail).all isBlank = true) :
      StandsFor ⟨.instructionMacro, text, place,
        [⟨.pushMacro, text, place, [⟨.label, name, there, []⟩]⟩]⟩ (.pushLabel name)
  | inclusion {kind : Inclusion} {pad path trail text : Bytes} {place there : Location}
      (written : text = "%" ++ kind.word ++ "(" ++ pad ++ ("\"" ++ path ++ "\"") ++ trail ++ ")")
      (noQuote : '"'.toUInt8 ∉ path) (noNewline : newline ∉ path)
      (blanks : (pad ++ trail).all isBlank = true) :
      StandsFor ⟨.instructionMacro, text, place,
        [⟨(Directive.inclusion kind).rule, text, place, [⟨.string, path, there, []⟩]⟩]⟩
        (.inclusion kind path)

theorem Operand.tree_text (operand : Operand) (place : Location) :
    (operand.tree place).text = operand.text := by
  cases operand <;> rfl

theorem Operand.Valid.gives {operand : Operand} {width : Nat} {immediate : Immediate}
    (hvalid : operand.Valid) (place : Location) (h : operand.immediate width = .ok immediate) :
    (operand.tree place).Gives width immediate := by
  cases operand with
  | number value =>
    obtain ⟨bytes, hbytes, rfl⟩ := map_eq_ok h
    refine .bytes ?_ (Number.immediate_length hbytes)
    cases hbase : value.base <;> simp [Operand.tree, Number.tree, Tree.leaf, hbase, Base.rule]
  | label name =>
    cases h
    exact .label hvalid
  | selector signature =>
    obtain ⟨bytes, hbytes, rfl⟩ := map_eq_ok h
    exact .bytes (by simp [Operand.tree]) (widen_length hbytes)

/-- What a push of `n` bytes stands for is found by its mnemonic, and again by its word size. -/
theorem Tree.StandsFor.pushOf {n : Nat} {gap : Bytes} {operand : Tree} {immediate : Immediate}
    (hlow : 1 ≤ n) (hhigh : n ≤ 32) (hne : gap ≠ []) (hgap : gap.all isBlank = true)
    (hgives : operand.Gives n immediate) (place : Location) :
    Tree.StandsFor ⟨.push, "push" ++ decimal n ++ gap ++ operand.text, place,
      [⟨.wordSize, decimal n, place, []⟩, operand]⟩
      (.instruction ⟨.pushOf n, some immediate⟩) := by
  obtain ⟨hknown, -⟩ := Operation.hasImmediate_iff_push.mpr ⟨n, hlow, hhigh, rfl⟩
  obtain ⟨hencoding, -⟩ := Checked.push?_pushOf n hhigh hlow
  have hfound : Operation.ofMnemonic? ("push" ++ decimal n) = some (.pushOf n) :=
    Operation.ofMnemonic?_eq_some_iff.mpr ⟨hknown, rfl⟩
  exact .push hfound (Checked.unsigned_decimal hhigh) hencoding hne hgap hgives

private theorem Directive.standsFor {name : Directive} {pad trail text : Bytes} {actual : Actual}
    {there : Location} (hvalid : actual.Valid) (hpad : pad.all isBlank = true)
    (htrail : trail.all isBlank = true) (hrule : (actual.tree there).rule = name.takes.rule)
    (htext : text = Statement.directiveOpening name ++ pad ++ actual.text ++ trail ++ [')'.toUInt8])
    (place : Location) :
    Tree.StandsFor ⟨.instructionMacro, text, place,
      [⟨name.rule, text, place, [actual.tree there]⟩]⟩ (name.node (actual.tree there).text) := by
  have hblanks : (pad ++ trail).all isBlank = true := by
    rw [List.all_append, hpad, htrail, Bool.and_self]
  cases actual with
  | string contents =>
    cases name with
    | inclusion kind =>
      obtain ⟨hquote, hnewline⟩ := all_inString.mp hvalid
      exact .inclusion htext hquote hnewline hblanks
    | push => cases hrule
  | number value => exact absurd hrule (value.tree_rule_ne name.takes)
  | label name' =>
    cases name with
    | inclusion kind => cases hrule
    | push => exact .pushLabel htext hvalid hblanks

/-- The tree of a well-formed statement stands for the node that is made of the statement. -/
theorem Statement.Valid.standsFor {statement : Statement} (hvalid : statement.Valid)
    (h : statement.node place = .ok node) : (statement.tree place).StandsFor node := by
  cases statement with
  | label name gap =>
    cases h
    exact .label hvalid.1 hvalid.2
  | plain operation =>
    cases h
    exact .plain (Operation.ofMnemonic?_eq_some_iff.mpr ⟨hvalid.1, rfl⟩)
  | push operation gap operand =>
    obtain ⟨hop, ⟨hne, hgap⟩, hoperand⟩ := hvalid
    obtain ⟨n, hlow, hhigh, rfl⟩ := Operation.hasImmediate_iff_push.mp hop
    simp only [Statement.node, Operation.pushOf_width hhigh] at h
    split at h
    · rename_i immediate himmediate
      cases h
      have hgives := hoperand.gives (Statement.operandPlace (.pushOf n) gap place) himmediate
      have hstands := Tree.StandsFor.pushOf hlow hhigh hne hgap hgives place
      rw [Operand.tree_text] at hstands
      exact hstands
    · cases h
  | directive name pad actuals =>
    obtain ⟨tree, htrees, hrule, rfl⟩ := Directive.build_eq_ok h
    cases actuals with
    | none => cases htrees
    | some actuals =>
      obtain ⟨hpad, hactuals⟩ := hvalid
      obtain ⟨hfirst, htrail, -⟩ := hactuals actuals rfl
      obtain ⟨first, trail, others⟩ := actuals
      obtain ⟨rfl, hothers⟩ := List.cons.inj htrees
      obtain rfl : others = [] := by
        cases others with
        | nil => rfl
        | cons item others => cases hothers
      have htext : (Statement.directive name pad (some ⟨first, trail, []⟩)).text =
          directiveOpening name ++ pad ++ first.text ++ trail ++ [')'.toUInt8] := by
        simp [Statement.text, actualsText, Actuals.text]
      rw [Statement.tree, htrees]
      exact Directive.standsFor hfirst hpad htrail hrule htext place

/-- The number of bytes behind the opcode; a label stands for as many as the operation takes. -/
def Instruction.immediateLength (instruction : Instruction) : Nat :=
  match instruction.immediate with
  | none => 0
  | some (.bytes value) => value.length
  | some (.label _) => instruction.operation.encoding.width.toNat

/-- The operation is the one of the table that its mnemonic and its encoding name. The immediate is
there exactly if the operation is a push, and bytes are as many as the operation takes. -/
structure Instruction.Complete (instruction : Instruction) : Prop where
  known : instruction.operation ∈ Operation.table
  named : Operation.ofMnemonic? instruction.operation.mnemonic = some instruction.operation
  encoded : Operation.ofEncoding? instruction.operation.encoding = some instruction.operation
  hasImmediate : instruction.immediate.isSome = instruction.operation.encoding.hasImmediate
  pushes : instruction.immediate.isSome = true ↔ instruction.operation ∈ Operation.pushes
  length : ∀ value, instruction.immediate = some (.bytes value) →
    value.length = instruction.operation.encoding.width.toNat ∧ 1 ≤ value.length ∧
      value.length ≤ 32
  size : ∃ size, (Node.instruction instruction).size? = some size ∧
    size.toNat = 1 + instruction.immediateLength

theorem Encoding.size_toNat {encoding : Encoding} (h : encoding.width.toNat ≤ 32) :
    encoding.size.toNat = 1 + encoding.width.toNat := by
  rw [Encoding.size, UInt32.toNat_add]
  change (1 + encoding.width.toNat) % 4294967296 = _
  omega

private theorem complete_of_push {n : Nat} {immediate : Immediate} (hlow : 1 ≤ n) (hhigh : n ≤ 32)
    (hlength : ∀ value, immediate = .bytes value → value.length = n) :
    Instruction.Complete ⟨.pushOf n, some immediate⟩ := by
  have hpush := Operation.mem_pushes.mpr ⟨n, hlow, hhigh, rfl⟩
  obtain ⟨hknown, himmediate⟩ := Operation.hasImmediate_iff_push.mpr ⟨n, hlow, hhigh, rfl⟩
  have hwidth := Operation.pushOf_width hhigh
  refine ⟨hknown, Operation.ofMnemonic?_eq_some_iff.mpr ⟨hknown, rfl⟩,
    Checked.ofEncoding?_encoding hknown, himmediate.symm, ⟨fun _ => hpush, fun _ => rfl⟩, ?_, ?_⟩
  · rintro value ⟨⟩
    have hvalue := hlength value rfl
    rw [hwidth]
    omega
  · refine ⟨_, rfl, ?_⟩
    change (Operation.pushOf n).encoding.size.toNat = _
    rw [Encoding.size_toNat (by omega)]
    cases immediate with
    | bytes value =>
      change 1 + (Operation.pushOf n).encoding.width.toNat = 1 + value.length
      rw [hwidth, hlength value rfl]
    | label name => rfl

/-- A well-formed instruction is complete. -/
theorem Instruction.complete {instruction : Instruction}
    (h : (Node.instruction instruction).WellFormed) : instruction.Complete := by
  cases h with
  | @plain operation hknown hnoPush =>
    have hnotPush : operation ∉ Operation.pushes := by
      rw [Operation.mem_pushes, ← Operation.hasImmediate_iff_push, hnoPush]
      rintro ⟨-, hpush⟩
      cases hpush
    have hwidth : operation.encoding.width = 0 := by simpa [Encoding.hasImmediate] using hnoPush
    refine ⟨hknown, Operation.ofMnemonic?_eq_some_iff.mpr ⟨hknown, rfl⟩,
      Checked.ofEncoding?_encoding hknown, hnoPush.symm, ?_, ?_, ?_⟩
    · constructor
      · intro hsome
        cases hsome
      · intro hpush
        exact absurd hpush hnotPush
    · intro value hvalue
      cases hvalue
    · refine ⟨_, rfl, ?_⟩
      change operation.encoding.size.toNat = 1
      rw [Encoding.size, hwidth]
      rfl
  | pushBytes hlow hhigh hlength =>
    apply complete_of_push hlow hhigh
    rintro value ⟨⟩
    exact hlength
  | pushAddress hlow hhigh hname =>
    apply complete_of_push hlow hhigh
    intro value hvalue
    cases hvalue

/-- What holds of the tree of a well-formed statement and the node that is made of it, holds of the
trees of statements and their nodes. -/
theorem forall₂_locatedTrees {related : Tree → Node → Prop}
    {statements : List (Location × Statement)}
    (hvalid : ∀ located ∈ statements, located.2.Valid)
    (hmakes : List.Forall₂ Makes statements nodes)
    (h : ∀ {statement : Statement} {place node}, statement.Valid →
      statement.node place = .ok node → related (statement.tree place) node) :
    List.Forall₂ related (locatedTrees statements) nodes := by
  have hboth := (List.forall₂_and_left _ _).mpr ⟨hvalid, hmakes⟩
  rw [locatedTrees, List.forall₂_map_left_iff]
  apply hboth.imp
  rintro ⟨place, statement⟩ node ⟨hstatement, hnode⟩
  exact h hstatement hnode

/-- The pieces of a source's trees stand where they are written. -/
theorem ReadsAs.pieceAt {statements : List (Location × Statement)}
    (h : ReadsAs .start s statements) {tree piece : Tree} (htree : tree ∈ locatedTrees statements)
    (hpiece : piece.PieceOf tree) :
    ∃ offset, offset + piece.written.length ≤ s.length ∧ PieceAt s offset piece := by
  obtain ⟨source, hvalid, htext, rfl⟩ := h
  have htiles : Tiles s false 0 _ :=
    @Source.Valid.tiles s [] source false hvalid htext.symm Bool.noConfusion
  obtain ⟨offset, -, hbound, hhere⟩ :=
    htiles.stand.piece (List.mem_append_left _ htree) hpiece
  exact ⟨offset, hbound, hhere⟩

/-- A parsed program has one node for each statement, in order, and each is the one that the rule
and the text of the statement tell. All pieces of the statements stand in the source as they are
written, and every instruction is complete. -/
theorem parse_node_of_each_statement (h : parse s = .ok nodes) :
    ∃ trees, parseTrees s = .ok (trees ++ [endTree s]) ∧
      List.Forall₂ Tree.StandsFor trees nodes ∧
      (∀ tree ∈ trees, ∀ piece, Tree.PieceOf piece tree →
        ∃ offset, offset + piece.written.length ≤ s.length ∧ PieceAt s offset piece) ∧
      ∀ instruction, Node.instruction instruction ∈ nodes → instruction.Complete := by
  rcases fault_or_readsAs s with ⟨fault, -, -, herror⟩ | ⟨statements, hreads⟩
  · cases herror.symm.trans h
  · have hbuild := hreads.parse_eq.symm.trans h
    refine ⟨locatedTrees statements, hreads.parseTrees_eq, ?_, ?_, ?_⟩
    · exact forall₂_locatedTrees (fun _ hmem => (hreads.mem hmem).1) (makes_of_buildNodes hbuild)
        Statement.Valid.standsFor
    · intro tree htree piece hpiece
      exact hreads.pieceAt htree hpiece
    · intro instruction hmem
      exact Instruction.complete (parse_wellFormed h _ hmem)

/-- A label, plain operations and pushes, and both kinds of directives. -/
theorem parse_node_of_each_kind :
    parse "a :;add\npush2 a\npush1 0x05;%push( a )\n%import(\"x/y\")" =
      .ok [.label "a", .instruction ⟨⟨"add", ⟨0x01, 0⟩⟩, none⟩,
        .instruction ⟨.pushOf 2, some (.label "a")⟩,
        .instruction ⟨.pushOf 1, some (.bytes [0x05])⟩, .pushLabel "a",
        .inclusion .importFile "x/y"] ∧
    (∃ trees, parseTrees "a :;add\npush2 a\npush1 0x05;%push( a )\n%import(\"x/y\")" =
        .ok (trees ++ [endTree "a :;add\npush2 a\npush1 0x05;%push( a )\n%import(\"x/y\")"]) ∧
      trees.length = 6) ∧
    Instruction.Complete ⟨.pushOf 2, some (.label "a")⟩ := by
  have hscan : scanSource "a :;add\npush2 a\npush1 0x05;%push( a )\n%import(\"x/y\")" =
      .ok ⟨[⟨"", .label "a" " "⟩, ⟨";", .plain ⟨"add", ⟨0x01, 0⟩⟩⟩,
        ⟨"\n", .push (.pushOf 2) " " (.label "a")⟩,
        ⟨"\n", .push (.pushOf 1) " " (.number ⟨.hex, "05"⟩)⟩,
        ⟨";", .directive .push " " (some ⟨.label "a", " ", []⟩)⟩,
        ⟨"\n", .directive (.inclusion .importFile) "" (some ⟨.string "x/y", "", []⟩)⟩], ""⟩ := by
    decide +kernel
  have hparse : parse "a :;add\npush2 a\npush1 0x05;%push( a )\n%import(\"x/y\")" =
      .ok [.label "a", .instruction ⟨⟨"add", ⟨0x01, 0⟩⟩, none⟩,
        .instruction ⟨.pushOf 2, some (.label "a")⟩,
        .instruction ⟨.pushOf 1, some (.bytes [0x05])⟩, .pushLabel "a",
        .inclusion .importFile "x/y"] :=
    (readsAs_of_scanSource hscan).parse_eq.trans rfl
  obtain ⟨trees, htrees, hnodes, -, hcomplete⟩ := parse_node_of_each_statement hparse
  exact ⟨hparse, ⟨trees, htrees, hnodes.length_eq⟩, hcomplete _ (by simp)⟩

end EvmAssembly
