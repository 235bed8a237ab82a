import Mathlib.Data.List.Chain
import EvmAssembly.Proofs.WellFormedNodes

/-!
# Building nodes with every check made

The nodes of a program can be made of its parse trees alone. The builder here does that and checks
whatever it relies on: that a tree has the pieces that are taken from it, that a text is as long as
what is cut off it, that the size of a word is a number, that an encoding and an immediate make an
instruction. On the trees of a source no check fails, and the outcome is that of `parse`.
-/

namespace EvmAssembly

variable {place : Location}

/-- What a tree can lack. -/
inductive Breach where
  | unknownMnemonic (text : Bytes)
  | pushWidth (text : Bytes)
  | operandRule (rule : Rule)
  | directiveRule (rule : Rule)
  | missingPiece (index : Nat)
  | missingArgument
  | shortText (text : Bytes)
  | notNumber (text : Bytes)
  | numberRange (text : Bytes)
  | instruction (reason : InvalidInstruction)
deriving DecidableEq

inductive Failure where
  | breach (what : Breach)
  | reported (error : ParseError)
deriving DecidableEq

/-- A step of building: it may fail by an error of the source, or by a tree that lacks something. -/
abbrev Checked := Except Failure

namespace Checked

def breach {α : Type} (what : Breach) : Checked α := .error (.breach what)

/-- A fault of the source, for which no place is known yet. -/
def report {α : Type} (result : Except Fault α) : Checked α :=
  result.mapError fun fault => .reported fault.unplaced

def piece (pieces : List Tree) (index : Nat) : Checked Tree :=
  match pieces[index]? with
  | some tree => .ok tree
  | none => breach (.missingPiece index)

/-- The text behind its first `count` bytes. -/
def cut (text : Bytes) (count : Nat) : Checked Bytes :=
  if count ≤ text.length then .ok (text.drop count) else breach (.shortText text)

def isSpace (c : UInt8) : Bool := c = ' '.toUInt8 || (9 ≤ c && c ≤ 13)

/-- The number that a text begins with, behind white space and a sign, in 64 bits. -/
def unsigned (text : Bytes) : Checked Nat :=
  let signed := text.dropWhile isSpace
  let negative := startsWith (· = '-'.toUInt8) signed
  let body := if negative || startsWith (· = '+'.toUInt8) signed then signed.drop 1 else signed
  let digits := body.takeWhile isDecimalDigit
  let value := digits.foldl (fun n c => 10 * n + (c.toNat - 48)) 0
  if digits = [] then breach (.notNumber text)
  else if value ≥ UInt64.size then breach (.numberRange text)
  else .ok (if negative then (UInt64.size - value) % UInt64.size else value)

def instruction (encoding : Encoding) (immediate : Option Immediate) : Checked Node :=
  match Instruction.make encoding immediate with
  | .ok value => .ok (.instruction value)
  | .error reason => breach (.instruction reason)

/-- The bytes of an operand, before they are brought to the width of the push. -/
def rawBytes (operand : Tree) (width : Nat) : Checked Bytes :=
  match operand.rule with
  | .binary => do
    let digits ← cut operand.text 2
    report (radixBytes digits 2)
  | .octal => do
    let digits ← cut operand.text 2
    report (radixBytes digits 8)
  | .decimal => report (radixBytes operand.text 10)
  | .hex => do
    let digits ← cut operand.text 2
    report (hexBytes digits)
  | .selector => do
    let signature ← piece operand.inner 0
    return functionSelector signature.text width
  | rule => breach (.operandRule rule)

def immediate (operand : Tree) (width : Nat) : Checked Immediate :=
  match operand.rule with
  | .label => .ok (.label operand.text)
  | _ => do
    let raw ← rawBytes operand width
    let bytes ← report (widen raw width operand.text)
    return .bytes bytes

/-- An error within an operand gets its place, and the width of the push if it has another. -/
def atOperand (operand : Tree) (width : Nat) : Failure → Failure
  | .breach what => .breach what
  | .reported error =>
    match error.fault with
    | .immediateTooLarge _ limit =>
      if limit ≠ width then
        .reported ((Fault.immediateTooLarge operand.text width).unplaced.pin operand.location)
      else .reported (error.pin operand.location)
    | _ => .reported (error.pin operand.location)

def push (tree : Tree) : Checked Node := do
  let size ← piece tree.inner 0
  let operand ← piece tree.inner 1
  let value ← unsigned size.text
  match Encoding.push? (UInt32.ofNat value) with
  | none => breach (.pushWidth size.text)
  | some encoding => do
    let width := (encoding.size - 1).toNat
    let given ← (immediate operand width).mapError (atOperand operand width)
    instruction encoding (some given)

def directive (tree : Tree) : Checked Node :=
  match Directive.all.find? fun name => name.rule = tree.rule with
  | none => breach (.directiveRule tree.rule)
  | some name =>
    match checkArguments tree.inner [name.takes] with
    | .error error => .error (.reported (error.pin tree.location))
    | .ok [] => breach .missingArgument
    | .ok (argument :: _) => .ok (name.node argument.value)

/-- The node of a tree; the end of the input has none. -/
def node? (tree : Tree) : Checked (Option Node) :=
  match tree.rule with
  | .instructionMacro => do
    let inner ← piece tree.inner 0
    let node ← directive inner
    return some node
  | .labelDefinition => do
    let name ← piece tree.inner 0
    return some (.label name.text)
  | .push => do
    let node ← push tree
    return some node
  | .operation =>
    match Operation.ofMnemonic? tree.text with
    | none => breach (.unknownMnemonic tree.text)
    | some operation => do
      let node ← instruction operation.encoding none
      return some node
  | _ => .ok none

def nodes : List Tree → Checked (List Node)
  | [] => .ok []
  | tree :: trees => do
    let node ← node? tree
    let others ← nodes trees
    return node.toList ++ others

def parse (source : Bytes) : Checked (List Node) := do
  let trees ← (parseTrees source).mapError .reported
  nodes trees

private theorem ok_bind {ε α β : Type} (a : α) (next : α → Except ε β) :
    (Except.ok a >>= next) = next a := rfl

private theorem error_bind {ε α β : Type} (e : ε) (next : α → Except ε β) :
    (Except.error e >>= next) = .error e := rfl

private theorem cut_mark (first second : UInt8) (digits : Bytes) :
    cut (first :: second :: digits) 2 = .ok digits := by
  simp [cut]

theorem rawBytes_number (number : Number) (width : Nat) :
    rawBytes (number.tree place) width = report number.bytes := by
  obtain ⟨base, digits⟩ := number
  cases base with
  | binary =>
    change (cut ('0'.toUInt8 :: 'b'.toUInt8 :: digits) 2 >>= _) = _
    rw [cut_mark]
    rfl
  | octal =>
    change (cut ('0'.toUInt8 :: 'o'.toUInt8 :: digits) 2 >>= _) = _
    rw [cut_mark]
    rfl
  | decimal => rfl
  | hex =>
    change (cut ('0'.toUInt8 :: 'x'.toUInt8 :: digits) 2 >>= _) = _
    rw [cut_mark]
    rfl

private theorem immediate_number (number : Number) (width : Nat) :
    immediate (number.tree place) width = (do
      let raw ← report number.bytes
      let bytes ← report (widen raw width number.text)
      return .bytes bytes) := by
  rw [← rawBytes_number]
  obtain ⟨base, digits⟩ := number
  cases base <;> rfl

private theorem widen_atOperand (operand : Tree) (raw : Bytes) (width : Nat) :
    (do
      let bytes ← report (widen raw width operand.text)
      return Immediate.bytes bytes : Checked Immediate).mapError (atOperand operand width) =
    ((widen raw width operand.text).map .bytes).mapError
      fun fault => .reported ⟨fault, operand.location⟩ := by
  unfold widen
  split
  · simp only [report, Except.mapError, error_bind, Except.map, atOperand, Fault.unplaced, ne_eq,
      not_true_eq_false, if_false]
    rfl
  · rfl

private theorem atOperand_fault (operand : Tree) (fault : Fault) (width : Nat) :
    atOperand operand width (.reported fault.unplaced) =
      .reported ⟨fault.forWidth operand.text width, operand.location⟩ := by
  cases fault with
  | immediateTooLarge found limit =>
    simp only [atOperand, Fault.unplaced, Fault.forWidth]
    split <;> rfl
  | lexical | extraArgument | missingArgument | argumentType => rfl

/-- What is taken from the tree of an operand is what the operand pushes. -/
theorem immediate_operand (operand : Operand) (width : Nat) :
    (immediate (operand.tree place) width).mapError (atOperand (operand.tree place) width) =
      (operand.immediate width).mapError fun fault => .reported ⟨fault, place⟩ := by
  cases operand with
  | number value =>
    simp only [Operand.tree, Operand.immediate, immediate_number, Number.immediate]
    cases value.bytes with
    | error fault =>
      change Except.error (atOperand (value.tree place) width (.reported fault.unplaced)) = _
      rw [atOperand_fault]
      rfl
    | ok raw => exact widen_atOperand (value.tree place) raw width
  | label name => rfl
  | selector signature =>
    exact widen_atOperand ((Operand.selector signature).tree place)
      (functionSelector signature width) width

theorem unsigned_decimal {n : Nat} (h : n ≤ 32) : unsigned (decimal n) = .ok n := by
  have hall : ∀ n ≤ 32, (unsigned (decimal n)).toOption = some n := by decide +kernel
  have hn := hall n h
  cases hread : unsigned (decimal n) with
  | error failure =>
    rw [hread] at hn
    cases hn
  | ok value =>
    rw [hread] at hn
    cases hn
    rfl

theorem push?_pushOf : ∀ n ≤ 32, 1 ≤ n →
    Encoding.push? (UInt32.ofNat n) = some (Operation.pushOf n).encoding ∧
      ((Operation.pushOf n).encoding.size - 1).toNat = n := by
  decide +kernel

theorem opcodes_ascending :
    Operation.table.Pairwise fun first second =>
      first.encoding.opcode < second.encoding.opcode := by
  have htrans : IsTrans Operation fun first second =>
      first.encoding.opcode < second.encoding.opcode :=
    ⟨fun _ _ _ => UInt8.lt_trans⟩
  have hchain : Operation.table.IsChain fun first second =>
      first.encoding.opcode < second.encoding.opcode := by
    decide +kernel
  exact List.isChain_iff_pairwise.mp hchain

/-- The table is sorted by opcode, so an operation is found by its encoding. -/
theorem ofEncoding?_encoding {operation : Operation} (h : operation ∈ Operation.table) :
    Operation.ofEncoding? operation.encoding = some operation := by
  have hsorted := opcodes_ascending
  rw [Operation.ofEncoding?]
  generalize Operation.table = operations at h hsorted
  induction operations with
  | nil => cases h
  | cons first rest ih =>
    obtain ⟨hfirst, hrest⟩ := List.pairwise_cons.mp hsorted
    rcases List.mem_cons.mp h with rfl | h
    · simp
    · have hne : ¬ first.encoding = operation.encoding := by
        intro heq
        have hless := hfirst operation h
        rw [heq] at hless
        exact UInt8.lt_irrefl _ hless
      rw [List.find?_cons_of_neg (by simpa using hne)]
      exact ih h hrest

private theorem make_of_check {operation : Operation} {given : Option Immediate}
    (hknown : operation ∈ Operation.table) (hcheck : Instruction.check operation given = .ok ()) :
    Instruction.make operation.encoding given = .ok ⟨operation, given⟩ := by
  simp only [Instruction.make, Instruction.operationOf, ofEncoding?_encoding hknown,
    ok_bind, hcheck]
  rfl

private theorem make_wellFormed {value : Instruction} (h : (Node.instruction value).WellFormed) :
    Instruction.make value.operation.encoding value.immediate = .ok value := by
  cases h with
  | plain hknown hnoPush =>
    apply make_of_check hknown
    simp only [Instruction.check, hnoPush]
  | @pushBytes n value hlow hhigh hlength =>
    obtain ⟨hknown, hpush⟩ := Operation.hasImmediate_iff_push.mpr ⟨n, hlow, hhigh, rfl⟩
    apply make_of_check hknown
    simp only [Instruction.check, hpush, Operation.pushOf_width hhigh, hlength, if_true]
  | @pushAddress n name hlow hhigh hname =>
    obtain ⟨hknown, hpush⟩ := Operation.hasImmediate_iff_push.mpr ⟨n, hlow, hhigh, rfl⟩
    apply make_of_check hknown
    simp only [Instruction.check, hpush]

/-- A well-formed instruction is made of its encoding and its immediate. -/
theorem instruction_wellFormed {value : Instruction} (h : (Node.instruction value).WellFormed) :
    instruction value.operation.encoding value.immediate = .ok (.instruction value) := by
  rw [instruction, make_wellFormed h]

/-- A directive is told by its rule. -/
theorem find?_rule (name : Directive) :
    (Directive.all.find? fun other => other.rule = name.rule) = some name := by
  rcases name with (_ | _ | _) | _ <;> rfl

private theorem push_tree {operation : Operation} {gap : Bytes} {operand : Operand}
    (h : (Statement.push operation gap operand).Valid) (place : Location) :
    push ((Statement.push operation gap operand).tree place) =
      ((Statement.push operation gap operand).node place).mapError .reported := by
  obtain ⟨hop, -, hoperand⟩ := h
  obtain ⟨n, hlow, hhigh, rfl⟩ := Operation.hasImmediate_iff_push.mp hop
  obtain ⟨hencoding, hsize⟩ := push?_pushOf n hhigh hlow
  have hword : Statement.wordSize (.pushOf n) = decimal n := rfl
  -- The width comes from the digits of the mnemonic, and they are those of a number up to 32.
  simp only [push, Statement.tree, piece, List.getElem?_cons_zero, List.getElem?_cons_succ, ok_bind,
    Tree.leaf, hword, unsigned_decimal hhigh, hencoding, hsize, immediate_operand, Statement.node,
    Operation.pushOf_width hhigh]
  cases himmediate : operand.immediate n with
  | error fault => rfl
  | ok given =>
    have hnode := Operand.immediate_wellFormed hoperand hlow hhigh himmediate
    exact instruction_wellFormed hnode

private theorem directive_tree (name : Directive) (given : List Tree) (text : Bytes)
    (place : Location) :
    directive ⟨name.rule, text, place, given⟩ = (name.build given place).mapError .reported := by
  simp only [directive, find?_rule, Directive.build]
  cases hchecked : checkArguments given [name.takes] with
  | error error => rfl
  | ok arguments =>
    obtain ⟨tree, -, -, rfl⟩ := checkArguments_single hchecked
    rfl

theorem node?_tree {statement : Statement} (h : statement.Valid) (place : Location) :
    node? (statement.tree place) = ((statement.node place).mapError .reported).map some := by
  cases statement with
  | label name gap => rfl
  | plain operation =>
    have hlookup := Operation.ofMnemonic?_eq_some_iff.mpr ⟨h.1, rfl⟩
    have hnode : (Node.instruction ⟨operation, none⟩).WellFormed := .plain h.1 h.2
    simp only [node?, Statement.tree, Tree.leaf, hlookup, instruction_wellFormed hnode]
    rfl
  | push operation gap operand =>
    change (push ((Statement.push operation gap operand).tree place) >>= _) = _
    rw [push_tree h]
    rfl
  | directive name pad actuals =>
    change (directive ⟨name.rule, _, place, _⟩ >>= _) = _
    rw [directive_tree]
    rfl

theorem nodes_locatedTrees {statements : List (Location × Statement)}
    (h : ∀ place statement, (place, statement) ∈ statements → statement.Valid) (s : Bytes) :
    nodes (locatedTrees statements ++ [endTree s]) =
      (buildNodes statements).mapError .reported := by
  induction statements with
  | nil => rfl
  | cons first rest ih =>
    obtain ⟨place, statement⟩ := first
    have hrest := ih fun there other hmem => h there other (by simp [hmem])
    change nodes (statement.tree place :: (locatedTrees rest ++ [endTree s])) = _
    rw [nodes, node?_tree (h place statement (by simp)), hrest, buildNodes]
    cases statement.node place with
    | error error => rfl
    | ok node =>
      cases buildNodes rest with
      | error error => rfl
      | ok others => rfl

/-- No check fails on the trees of a source, and the nodes and errors are those of `parse`. -/
theorem parse_eq (s : Bytes) : parse s = (EvmAssembly.parse s).mapError .reported := by
  rcases fault_or_readsAs s with ⟨fault, -, htrees, hparse⟩ | ⟨statements, hreads⟩
  · rw [parse, htrees, hparse]
    rfl
  · rw [parse, hreads.parseTrees_eq, hreads.parse_eq]
    apply nodes_locatedTrees
    intro place statement hmem
    exact (hreads.mem hmem).1

end Checked
end EvmAssembly
