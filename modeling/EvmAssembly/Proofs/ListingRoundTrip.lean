import EvmAssembly.Proofs.HexadecimalText
import EvmAssembly.Proofs.WellFormedNodes

/-!
# Listings are read back

The texts of well-formed nodes, with a separator between any two of them, are a source of just these
nodes; and a source has well-formed nodes only, so the listing of a parsed source is parsed to the
same nodes.
-/

namespace EvmAssembly

variable {place : Location} {node : Node} {nodes : List Node}

/-- The texts of nodes, each with the next separator behind it as long as there are any; the
separators left over stand at the end. -/
def joinTexts : List Node → List UInt8 → Bytes
  | [], separators => separators
  | node :: nodes, [] => node.text ++ joinTexts nodes []
  | node :: nodes, c :: separators => node.text ++ c :: joinTexts nodes separators

/-- The statement that the text of a node is read as. -/
def Node.statement : Node → Statement
  | .instruction ⟨operation, none⟩ => .plain operation
  | .instruction ⟨operation, some (.bytes value)⟩ =>
    .push operation " " (.number ⟨.hex, hexText value⟩)
  | .instruction ⟨operation, some (.label name)⟩ => .push operation " " (.label name)
  | .label name => .label name []
  | .pushLabel name => .directive .push [] (some ⟨.label name, [], []⟩)
  | .inclusion kind path => .directive (.inclusion kind) [] (some ⟨.string path, [], []⟩)

theorem Node.statement_text (node : Node) : node.statement.text = node.text := by
  match node with
  | .instruction ⟨operation, none⟩ => rfl
  | .instruction ⟨operation, some (.bytes value)⟩ => exact List.append_assoc _ _ _
  | .instruction ⟨operation, some (.label name)⟩ => exact List.append_assoc _ _ _
  | .label name => simp [Node.statement, Statement.text, Node.text]
  | .pushLabel name =>
    simp [Node.statement, Statement.text, Statement.actualsText, Actuals.text, Actual.text,
      Node.text]
  | .inclusion kind path =>
    simp [Node.statement, Statement.text, Statement.actualsText, Actuals.text, Node.text]

private theorem number_hexText_valid {value : Bytes} (h : value ≠ []) :
    (Number.mk .hex (hexText value)).Valid := by
  have hpositive := List.length_pos_iff.mpr h
  have hlength := hexText_length value
  refine ⟨?_, hexText_all_digits value, fun _ => ?_⟩
  · apply List.length_pos_iff.mp
    change 0 < (hexText value).length
    omega
  · change (hexText value).length % 2 = 0
    omega

private theorem actuals_valid {actual : Actual} (h : actual.Valid) :
    ∀ given ∈ some (Actuals.mk actual [] []), given.Valid := by
  rintro given ⟨⟩
  exact ⟨h, rfl, nofun⟩

theorem Node.WellFormed.statement_valid (h : node.WellFormed) : node.statement.Valid := by
  have hblank : (" " : Bytes) ≠ [] ∧ (" " : Bytes).all isBlank = true := by decide
  cases h with
  | plain hknown hnoPush => exact ⟨hknown, hnoPush⟩
  | @pushBytes n value hlow hhigh hlength =>
    have hne : value ≠ [] := by
      rintro rfl
      rw [← hlength] at hlow
      exact absurd hlow (by decide)
    have hop := Operation.hasImmediate_iff_push.mpr ⟨n, hlow, hhigh, rfl⟩
    exact ⟨hop, hblank, number_hexText_valid hne⟩
  | @pushAddress n name hlow hhigh hname =>
    have hop := Operation.hasImmediate_iff_push.mpr ⟨n, hlow, hhigh, rfl⟩
    exact ⟨hop, hblank, hname⟩
  | label hname => exact ⟨hname, rfl⟩
  | pushLabel hname => exact ⟨rfl, actuals_valid hname⟩
  | inclusion hquote hnewline => exact ⟨rfl, actuals_valid (all_inString.mpr ⟨hquote, hnewline⟩)⟩

theorem hexBytes_hexText {value : Bytes} (h : value ≠ []) :
    hexBytes (hexText value) = .ok value := by
  obtain ⟨hne, -, heven⟩ := number_hexText_valid h
  have hok : ¬(hexText value = [] ∨ (hexText value).length % 2 ≠ 0) := by
    simp [hne, heven rfl]
  rw [hexBytes, if_neg hok, hexDecode?_hexText]

theorem widen_of_length {raw : Bytes} {width : Nat} (h : raw.length = width) (literal : Bytes) :
    widen raw width literal = .ok raw := by
  simp [widen, h]

/-- The statement of a well-formed node stands for this node. -/
theorem Node.WellFormed.statement_node (h : node.WellFormed) (place : Location) :
    node.statement.node place = .ok node := by
  cases h with
  | plain => rfl
  | @pushBytes n value hlow hhigh hlength =>
    have hne : value ≠ [] := List.length_pos_iff.mp (by omega)
    have hnumber : (Number.mk .hex (hexText value)).bytes = .ok value := hexBytes_hexText hne
    have hwidth : value.length = (Operation.pushOf n).encoding.width.toNat := by
      rw [Operation.pushOf_width hhigh, hlength]
    simp only [Node.statement, Statement.node, Operand.immediate, Number.immediate, hnumber,
      widen_of_length hwidth, Except.map]
  | pushAddress => rfl
  | label => rfl
  | pushLabel => rfl
  | inclusion => rfl

/-- The text of a well-formed node is a source of this node alone. -/
theorem Node.WellFormed.parse_text (h : node.WellFormed) : parse node.text = .ok [node] := by
  rw [← Node.statement_text, h.statement_valid.parse_text, h.statement_node]
  rfl

private theorem layoutEnd_separators {separators : Bytes}
    (h : ∀ c ∈ separators, isSeparator c = true) : layoutEnd false separators = some false := by
  apply layoutEnd_of_all
  intro c hc
  simp [h c hc]

private theorem buildNodes_cons {statements : List (Location × Statement)}
    (hnode : node.WellFormed) (hrest : buildNodes statements = .ok nodes) :
    buildNodes ((place, node.statement) :: statements) = .ok (node :: nodes) := by
  rw [buildNodes, hnode.statement_node]
  simp only [hrest, Except.map]

/-- Well-formed nodes are read back from their texts, whichever separators stand between them. -/
theorem readsAs_joinTexts {separators : List UInt8} (h : ∀ node ∈ nodes, node.WellFormed)
    (hs : ∀ c ∈ separators, isSeparator c = true) (hlength : nodes.length ≤ separators.length + 1)
    (place : Location) : ∃ statements, ReadsAs place (joinTexts nodes separators) statements ∧
      buildNodes statements = .ok nodes := by
  induction nodes generalizing separators place with
  | nil =>
    refine ⟨[], .ending ?_, rfl⟩
    rw [joinTexts, layoutEnd_separators hs]
    rfl
  | cons node nodes ih =>
    obtain ⟨hnode, hnodes⟩ := List.forall_mem_cons.mp h
    cases separators with
    | nil =>
      -- Without a separator left, this is the last node.
      obtain rfl : nodes = [] := List.eq_nil_of_length_eq_zero (by simpa using hlength)
      have hend : ReadsAs (place.after node.statement.text) [] [] := .ending rfl
      have hfollow : mayFollow [] = true := rfl
      rw [joinTexts, ← node.statement_text]
      exact ⟨_, hend.statement hnode.statement_valid hfollow, buildNodes_cons hnode rfl⟩
    | cons c separators =>
      obtain ⟨hc, hseparators⟩ := List.forall_mem_cons.mp hs
      have hshorter : nodes.length ≤ separators.length + 1 := by simpa using hlength
      obtain ⟨statements, hreads, hbuild⟩ :=
        ih hnodes hseparators hshorter ((place.after node.statement.text).after [c])
      have hbehind := hreads.layout (layoutEnd_separators (by simpa using hc))
      have hfollow : mayFollow ([c] ++ joinTexts nodes separators) = true := by
        simp [mayFollow, endsHere, isBlank_of_isSeparator hc, hc]
      rw [joinTexts, ← node.statement_text]
      exact ⟨_, hbehind.statement hnode.statement_valid hfollow, buildNodes_cons hnode hbuild⟩

/-- Well-formed nodes are parsed from their texts with separators between them, and parsing gives
well-formed nodes only; so a source and the listing of its nodes are parsed to the same nodes. -/
theorem parse_joinTexts :
    (∀ nodes separators, (∀ node ∈ nodes, node.WellFormed) →
      (∀ c ∈ separators, c = newline ∨ c = ';'.toUInt8) → nodes.length ≤ separators.length + 1 →
      parse (joinTexts nodes separators) = .ok nodes) ∧
    ∀ s nodes, parse s = .ok nodes → (∀ node ∈ nodes, node.WellFormed) ∧
      ∀ separators, (∀ c ∈ separators, c = newline ∨ c = ';'.toUInt8) →
        nodes.length ≤ separators.length + 1 →
        parse (joinTexts nodes separators) = parse s := by
  have hlisting : ∀ nodes separators, (∀ node ∈ nodes, node.WellFormed) →
      (∀ c ∈ separators, c = newline ∨ c = ';'.toUInt8) → nodes.length ≤ separators.length + 1 →
      parse (joinTexts nodes separators) = .ok nodes := by
    intro nodes separators hnodes hs hlength
    have hseparators : ∀ c ∈ separators, isSeparator c = true := by
      intro c hc
      simpa [isSeparator] using hs c hc
    obtain ⟨statements, hreads, hbuild⟩ := readsAs_joinTexts hnodes hseparators hlength .start
    rw [hreads.parse_eq, hbuild]
  refine ⟨hlisting, ?_⟩
  intro s nodes h
  have hnodes := parse_wellFormed h
  refine ⟨hnodes, ?_⟩
  intro separators hs hlength
  rw [hlisting nodes separators hnodes hs hlength, h]

/-- Labels that look like mnemonics or like the word before a signature, and a path with the marks
of statements and a NUL byte in it. -/
def lookalikes : List Node :=
  [.label "push1", .instruction ⟨.pushOf 2, some (.bytes [0x00, 0xff])⟩,
    .instruction ⟨.pushOf 1, some (.label "selector")⟩, .inclusion .includeHex ";#)\x00",
    .pushLabel "add", .instruction ⟨⟨"stop", ⟨0x00, 0⟩⟩, none⟩]

theorem parse_lookalikes :
    (∀ node ∈ lookalikes, node.WellFormed) ∧
    parse "push1:;push2 0x00ff\npush1 selector;%include_hex(\";#)\x00\")\n%push(add);stop" =
      .ok lookalikes := by
  have hnodes : ∀ node ∈ lookalikes, node.WellFormed := by
    simp only [lookalikes, List.forall_mem_cons]
    refine ⟨.label ?_, .pushBytes ?_ ?_ ?_, .pushAddress ?_ ?_ ?_, .inclusion ?_ ?_, .pushLabel ?_,
      .plain ?_ ?_, nofun⟩ <;> decide
  have htext : joinTexts lookalikes [';'.toUInt8, newline, ';'.toUInt8, newline, ';'.toUInt8] =
      "push1:;push2 0x00ff\npush1 selector;%include_hex(\";#)\x00\")\n%push(add);stop" := by
    decide +kernel
  rw [← htext]
  exact ⟨hnodes, parse_joinTexts.1 lookalikes _ hnodes (by simp) (by decide)⟩

end EvmAssembly
