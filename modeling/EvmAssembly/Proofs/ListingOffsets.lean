import EvmAssembly.Proofs.CommandLineOutcome
import EvmAssembly.Proofs.WrittenNumbers

/-!
# Offsets in listings

A listing shows each node behind its offset, the encoded length of all nodes before it. A push of an
address and a file to be brought in leave their length to the assembler: their own offset is still
known, and none behind them is. A box below the nodes tells their number and the length of them all.
-/

namespace EvmAssembly

/-- The node alone does not tell how long its code is. -/
def Node.Unresolved : Node → Prop
  | .instruction _ | .label _ => False
  | .pushLabel _ | .inclusion _ _ => True

instance : DecidablePred Node.Unresolved
  | .instruction _ | .label _ => inferInstanceAs (Decidable False)
  | .pushLabel _ | .inclusion _ _ => inferInstanceAs (Decidable True)

/-- The length of the code of a node: the opcode and its immediate bytes; a label has none. -/
def Node.encodedLength : Node → Nat
  | .instruction value => 1 + value.operation.encoding.width.toNat
  | .label _ | .pushLabel _ | .inclusion _ _ => 0

/-- The length of the code of some nodes. -/
def encodedLength (nodes : List Node) : Nat := (nodes.map Node.encodedLength).sum

namespace CommandLine

variable {files : Bytes → Option Bytes} {arguments : List Bytes} {file content : Bytes}
  {nodes : List Node} {debug : Bool} {run : Run}

/-- Behind a node, the offset is further by its length, or unknown. -/
theorem nextOffset_eq (offset : Option UInt32) (node : Node) :
    nextOffset offset node =
      if node.Unresolved then none else offset.map (· + UInt32.ofNat node.encodedLength) := by
  cases node with
  | instruction value =>
    have hsize : value.size = UInt32.ofNat (Node.instruction value).encodedLength := by
      change 1 + value.operation.encoding.width = _
      rw [Node.encodedLength, UInt32.ofNat_add, UInt32.ofNat_toNat]
      rfl
    cases offset with
    | none => rfl
    | some offset => exact congrArg (fun size => some (offset + size)) hsize
  | label name => cases offset <;> rfl
  | pushLabel name => cases offset <;> rfl
  | inclusion kind path => cases offset <;> rfl

theorem foldl_nextOffset_none (nodes : List Node) : nodes.foldl nextOffset none = none := by
  induction nodes with
  | nil => rfl
  | cons node nodes ih => exact ih

/-- Behind some nodes, the offset is further by the length of them all, or unknown. -/
theorem foldl_nextOffset (offset : UInt32) (nodes : List Node) :
    nodes.foldl nextOffset (some offset) =
      if ∃ node ∈ nodes, node.Unresolved then none
      else some (offset + UInt32.ofNat (encodedLength nodes)) := by
  induction nodes generalizing offset with
  | nil => simp [encodedLength]
  | cons node nodes ih =>
    rw [List.foldl_cons, nextOffset_eq]
    by_cases hnode : node.Unresolved
    · rw [if_pos hnode, foldl_nextOffset_none, if_pos ⟨node, List.mem_cons_self, hnode⟩]
    · have hsome : (∃ other ∈ node :: nodes, other.Unresolved) ↔
          ∃ other ∈ nodes, other.Unresolved := by
        simp [hnode]
      have hlength : UInt32.ofNat (encodedLength (node :: nodes)) =
          UInt32.ofNat node.encodedLength + UInt32.ofNat (encodedLength nodes) :=
        UInt32.ofNat_add _ _
      simp only [if_neg hnode, Option.map_some, ih, hsome, hlength, UInt32.add_assoc]

/-- The offset that is shown behind some nodes. -/
def shownOffset (nodes : List Node) : Bytes := offsetText (nodes.foldl nextOffset (some 0))

theorem shownOffset_of_unresolved (h : ∃ node ∈ nodes, node.Unresolved) :
    shownOffset nodes = "????" := by
  rw [shownOffset, foldl_nextOffset, if_pos h]
  rfl

theorem programSize_of_resolved (h : ∀ node ∈ nodes, ¬ node.Unresolved) :
    ∃ size, programSize nodes = some size ∧ size.toNat = encodedLength nodes % 2 ^ 32 := by
  have hnone : ¬ ∃ node ∈ nodes, node.Unresolved := by
    rintro ⟨node, hmem, hnode⟩
    exact h node hmem hnode
  refine ⟨_, (foldl_nextOffset 0 nodes).trans (if_neg hnone), ?_⟩
  rw [UInt32.zero_add, UInt32.toNat_ofNat']

theorem shownOffset_isWritten (h : ∀ node ∈ nodes, ¬ node.Unresolved) :
    IsWritten 16 4 (encodedLength nodes % 2 ^ 32) (shownOffset nodes) := by
  obtain ⟨size, hsize, hvalue⟩ := programSize_of_resolved h
  change IsWritten _ _ _ (offsetText (programSize nodes))
  rw [hsize, ← hvalue]
  exact hexNumber_isWritten (by decide) _

/-- An offset is not known exactly if a node before it is unresolved. -/
theorem shownOffset_eq_unknown_iff :
    shownOffset nodes = "????" ↔ ∃ node ∈ nodes, node.Unresolved := by
  refine ⟨?_, shownOffset_of_unresolved⟩
  intro hunknown
  by_contra hnone
  have hwritten := shownOffset_isWritten fun node hmem hnode => hnone ⟨node, hmem, hnode⟩
  have hdigit := hwritten.digits '?'.toUInt8 (by rw [hunknown]; decide)
  exact absurd hdigit (by decide)

/-- The line of a node behind its offset. -/
def listingLine (colours : Bool) (offset : Bytes) (node : Node) : Bytes :=
  shade colours "1;33" ++ offset ++ "  " ++ shade colours "1;36" ++ node.text ++ shade colours "0"

theorem render_nodeLine (colours : Bool) (offset : Option UInt32) (node : Node) :
    (nodeLine offset node).render colours =
      listingLine colours (offsetText offset) node ++ [newline] := by
  simp [nodeLine, listingLine, Printout.render, Piece.render_colour, Piece.render_text,
    Colour.parameters, utf8_newline]

/-- The lines of nodes, each with the offset behind all nodes before it. -/
theorem render_nodeLines (colours : Bool) (offset : Option UInt32) (nodes : List Node) :
    (nodeLines offset nodes).render colours =
      (nodes.mapIdx fun i node => listingLine colours
        (offsetText ((nodes.take i).foldl nextOffset offset)) node).flatMap (· ++ [newline]) := by
  induction nodes generalizing offset with
  | nil => rfl
  | cons node nodes ih =>
    rw [nodeLines, Printout.render_append, render_nodeLine, ih, List.mapIdx_cons,
      List.flatMap_cons]
    rfl

theorem newline_notMem_offsetText (offset : Option UInt32) : newline ∉ offsetText offset := by
  cases offset with
  | none => exact newline_notMem_word rfl
  | some offset => exact newline_notMem_of_all (hexNumber_all_digits 4 offset.toNat) (by decide)

theorem newline_notMem_listingLine {node : Node} (h : node.WellFormed) (colours : Bool)
    (offset : Option UInt32) : newline ∉ listingLine colours (offsetText offset) node := by
  have hnode := h.statement_valid.newline_notMem
  rw [node.statement_text] at hnode
  simp only [listingLine, List.mem_append, not_or]
  exact ⟨⟨⟨⟨⟨newline_notMem_shade (by decide) _, newline_notMem_offsetText offset⟩,
    newline_notMem_word rfl⟩, newline_notMem_shade (by decide) _⟩, hnode⟩,
    newline_notMem_shade (by decide) _⟩

/-- What is shown of a run that lists a file: the trace, if there is one, and the listing. -/
theorem shown_of_accepted (hnamed : NamesFile (remaining arguments) file)
    (hfound : files file = some content) (haccepts : parse content = .ok nodes) :
    shown files arguments =
      ⟨0, traceOf (Traces arguments) content ++
        (listing file nodes).render (utf8 "--no-color" ∉ arguments), []⟩ := by
  have hlists := listFile_lists files (Traces arguments) file
  rw [shown_eq, ← (Asks.list hnamed).request_eq, Request.run, hlists.eq_listed hfound haccepts]
  rfl

/-- The last line of the summary. -/
theorem sizeLine_programSize (nodes : List Node) :
    ∃ size, sizeLine (programSize nodes) = "Size:   " ++ size ∧ IsOneLine size ∧
      ((∀ node ∈ nodes, ¬ node.Unresolved) →
        ∃ digits, IsWritten 10 1 (encodedLength nodes % 2 ^ 32) digits ∧
          size = digits ++ " bytes") ∧
      ((∃ node ∈ nodes, node.Unresolved) → size = "resolved by the assembler") := by
  by_cases hsome : ∃ node ∈ nodes, node.Unresolved
  · have hsize : programSize nodes = none := (foldl_nextOffset 0 nodes).trans (if_pos hsome)
    have hline : sizeLine none = utf8 "Size:   " ++ utf8 "resolved by the assembler" := by
      decide +kernel
    refine ⟨_, by rw [hsize, hline], isOneLine_word rfl, ?_, fun _ => rfl⟩
    obtain ⟨node, hmem, hnode⟩ := hsome
    exact fun hall => absurd hnode (hall node hmem)
  · have hall : ∀ node ∈ nodes, ¬ node.Unresolved := fun node hmem hnode =>
      hsome ⟨node, hmem, hnode⟩
    obtain ⟨size, hsize, hvalue⟩ := programSize_of_resolved hall
    refine ⟨decimal size.toNat ++ " bytes", ?_,
      isOneLine_append (isOneLine_decimal _) (isOneLine_word rfl), fun _ => ?_,
      fun h => absurd h hsome⟩
    · rw [hsize, sizeLine, List.append_assoc]
    · rw [← hvalue]
      exact ⟨_, decimal_isWritten _, rfl⟩

/-- A source that is parsed is listed with one line for each node: its offset, which is the length
of the code before it in 32 bits as long as all of it is known, and its text. The box below has
lines with the number of nodes and the length of the whole code. -/
theorem shown_listing (hnamed : NamesFile (remaining arguments) file)
    (hfound : files file = some content) (haccepts : parse content = .ok nodes) :
    ∃ (offset : Nat → Bytes) (lines rows : List Bytes) (count size : Bytes),
      shown files arguments =
        ⟨0, traceOf (Traces arguments) content ++ lines.flatMap (· ++ [newline]) ++
          rows.flatMap (· ++ [newline]), []⟩ ∧
      lines = nodes.mapIdx (fun i node =>
        listingLine (utf8 "--no-color" ∉ arguments) (offset i) node) ∧
      (∀ line ∈ lines, newline ∉ line) ∧
      (∀ i, (∀ node ∈ nodes.take i, ¬ node.Unresolved) →
        IsWritten 16 4 (encodedLength (nodes.take i) % 2 ^ 32) (offset i)) ∧
      (∀ i, (∃ node ∈ nodes.take i, node.Unresolved) → offset i = "????") ∧
      (∀ i j, i ≤ j → offset i = "????" → offset j = "????") ∧
      IsBox (utf8 "--no-color" ∉ arguments) "Parse successful"
        ["Source: " ++ file, "Nodes:  " ++ count, "Size:   " ++ size] rows ∧
      ShowsRow (shown files arguments).output ("Nodes:  " ++ count) ∧
      ShowsRow (shown files arguments).output ("Size:   " ++ size) ∧
      IsWritten 10 1 nodes.length count ∧
      ((∀ node ∈ nodes, ¬ node.Unresolved) →
        ∃ digits, IsWritten 10 1 (encodedLength nodes % 2 ^ 32) digits ∧
          size = digits ++ " bytes") ∧
      ((∃ node ∈ nodes, node.Unresolved) → size = "resolved by the assembler") := by
  have hwell := parse_wellFormed haccepts
  obtain ⟨size, hsize, hsizeLine, hresolved, hunresolved⟩ := sizeLine_programSize nodes
  obtain ⟨rows, hbox, hrows⟩ := render_box (utf8 "--no-color" ∉ arguments) "Parse successful"
    ["Source: " ++ file, "Nodes:  " ++ decimal nodes.length, "Size:   " ++ size]
  have hshown : shown files arguments =
      ⟨0, traceOf (Traces arguments) content ++
        (nodes.mapIdx fun i node => listingLine (utf8 "--no-color" ∉ arguments)
          (shownOffset (nodes.take i)) node).flatMap (· ++ [newline]) ++
        rows.flatMap (· ++ [newline]), []⟩ := by
    rw [shown_of_accepted hnamed hfound haccepts, listing, hsize, Printout.render_append, hrows,
      List.append_assoc]
    simp only [shownOffset, ← render_nodeLines]
  have hlabel {characters : List Char} (h : (characters.all (' ' ≤ ·)) = true) {text : Bytes}
      (htext : IsOneLine text) : IsOneLine (utf8 (String.ofList characters) ++ text) :=
    isOneLine_append (isOneLine_word h) htext
  refine ⟨fun i => shownOffset (nodes.take i), _, rows, decimal nodes.length, size, hshown, rfl, ?_,
    ?_, ?_, ?_, hbox, ?_, ?_, decimal_isWritten _, hresolved, hunresolved⟩
  · intro line hline
    obtain ⟨i, hi, rfl⟩ := List.mem_mapIdx.mp hline
    exact newline_notMem_listingLine (hwell _ (List.getElem_mem hi)) _ _
  · intro i hall
    exact shownOffset_isWritten hall
  · intro i hsome
    exact shownOffset_of_unresolved hsome
  · intro i j hle hunknown
    obtain ⟨node, hmem, hnode⟩ := shownOffset_eq_unknown_iff.mp hunknown
    exact shownOffset_of_unresolved ⟨node, List.take_subset_take_left nodes hle hmem, hnode⟩
  · rw [hshown]
    exact hbox.showsRow (by simp) (hlabel rfl (isOneLine_decimal _)) _
  · rw [hshown]
    exact hbox.showsRow (by simp) (hlabel rfl hsizeLine) _

/-- A label, an instruction, a push of the label's address and an instruction behind it. -/
def addressed : List Node :=
  [.label "a", .instruction ⟨.pushOf 2, some (.bytes [0, 1])⟩, .pushLabel "a",
    .instruction ⟨⟨"stop", ⟨0x00, 0⟩⟩, none⟩]

/-- The label takes no room, and what is behind the push of its address has no known offset. -/
theorem shown_listing_addressed :
    let output := (shown (fun _ => some (utf8 "a:;push2 1;%push(a);stop"))
      [utf8 "f", utf8 "--no-color"]).output
    parse "a:;push2 1;%push(a);stop" = .ok addressed ∧
    ∃ (offset : Nat → Bytes) (rows : List Bytes) (count : Bytes),
      output = (addressed.mapIdx fun i node => listingLine false (offset i) node).flatMap
        (· ++ [newline]) ++ rows.flatMap (· ++ [newline]) ∧
      IsWritten 16 4 0 (offset 0) ∧ IsWritten 16 4 0 (offset 1) ∧ IsWritten 16 4 3 (offset 2) ∧
      offset 3 = "????" ∧ IsWritten 10 1 4 count ∧ ShowsRow output ("Nodes:  " ++ count) ∧
      ShowsRow output ("Size:   " ++ "resolved by the assembler") := by
  intro output
  have hparse : parse "a:;push2 1;%push(a);stop" = .ok addressed := by decide +kernel
  have hremaining : remaining [utf8 "f", utf8 "--no-color"] = [utf8 "f"] := by decide
  have hnamed : NamesFile (remaining [utf8 "f", utf8 "--no-color"]) "f" := by
    rw [hremaining]
    exact .alone (by decide)
  have htraces : decide (Traces [utf8 "f", utf8 "--no-color"]) = false := by decide
  have hcolours : decide (utf8 "--no-color" ∉ [utf8 "f", utf8 "--no-color"]) = false := by decide
  obtain ⟨offset, lines, rows, count, size, hshown, rfl, -, hwritten, hunknown, -, -, hnodes, hlast,
      hcount, -, hsize⟩ :=
    @shown_listing (fun _ => some (utf8 "a:;push2 1;%push(a);stop")) _ _ _ _ hnamed rfl hparse
  rw [htraces, hcolours, traceOf_quiet, List.nil_append] at hshown
  rw [hsize (by decide)] at hlast
  exact ⟨hparse, offset, rows, count, congrArg Shown.output hshown, hwritten 0 (by decide),
    hwritten 1 (by decide), hwritten 2 (by decide), hunknown 3 (by decide), hcount, hnodes, hlast⟩

end CommandLine
end EvmAssembly
