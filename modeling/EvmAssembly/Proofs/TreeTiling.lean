import EvmAssembly.Proofs.LayoutForms
import EvmAssembly.Proofs.SourcePlaces
import EvmAssembly.Proofs.SourceReading

/-!
# Trees over the source

Each piece of a parse tree stands in the source where its place says. The pieces of a piece stand
within it, one behind the other, and the statements of a source leave nothing between them but
layout. So every byte of a source belongs to one statement or to the layout.
-/

namespace EvmAssembly

variable {s before rest : Bytes} {low high middle offset : Nat} {tree : Tree}
  {trees others : List Tree}

/-- What a piece takes up in a source: its text, with the quotes of a string, and with the stem of
the mnemonic before a word size. -/
def Tree.written (tree : Tree) : Bytes :=
  match tree.rule with
  | .string => '"'.toUInt8 :: tree.text ++ ['"'.toUInt8]
  | .wordSize => "push" ++ tree.text
  | _ => tree.text

/-- The piece has the place of the byte at this offset, and what it takes up stands there. The end
of the input takes up nothing and stands at the end. -/
structure PieceAt (s : Bytes) (offset : Nat) (tree : Tree) : Prop where
  place : tree.location = lineColumn s offset
  written : tree.written <+: s.drop offset
  ending : tree.rule = .endOfInput → tree.text = [] ∧ offset = s.length

/-- The pieces stand one behind the other between two offsets, and so do the pieces of each within
what it takes up. -/
inductive StandWithin (s : Bytes) : Nat → Nat → List Tree → Prop where
  | nil {low high : Nat} (bound : low ≤ high) : StandWithin s low high []
  | cons {low high offset : Nat} {tree : Tree} {others : List Tree} (order : low ≤ offset)
      (here : PieceAt s offset tree)
      (inner : StandWithin s offset (offset + tree.written.length) tree.inner)
      (more : StandWithin s (offset + tree.written.length) high others) :
      StandWithin s low high (tree :: others)

namespace StandWithin

theorem bound (h : StandWithin s low high trees) : low ≤ high := by
  induction h with
  | nil hbound => exact hbound
  | cons horder _ _ _ _ hmore => omega

theorem widen {below above : Nat} (h : StandWithin s low high trees) (hlow : below ≤ low)
    (hhigh : high ≤ above) : StandWithin s below above trees := by
  induction h generalizing below with
  | nil hbound => exact .nil (by omega)
  | cons horder hhere hinner _ _ hmore =>
    exact .cons (by omega) hhere hinner (hmore le_rfl hhigh)

theorem append (h : StandWithin s low middle trees) (hmore : StandWithin s middle high others) :
    StandWithin s low high (trees ++ others) := by
  induction h with
  | nil hbound => exact hmore.widen hbound le_rfl
  | cons horder hhere hinner _ _ ih => exact .cons horder hhere hinner (ih hmore)

theorem followed (h : StandWithin s low middle [tree]) (hmore : StandWithin s middle high others) :
    StandWithin s low high (tree :: others) := h.append hmore

/-- A piece stands where its written form does, if its pieces stand within that. -/
theorem single {shown : Bytes} (hs : s = before ++ (shown ++ rest))
    (hwritten : tree.written = shown) (hplace : tree.location = Location.start.after before)
    (hrule : tree.rule ≠ .endOfInput)
    (hinner : StandWithin s before.length (before.length + shown.length) tree.inner) :
    StandWithin s before.length (before.length + shown.length) [tree] := by
  subst hwritten
  refine .cons le_rfl ⟨?_, ?_, fun hend => absurd hend hrule⟩ hinner (.nil le_rfl)
  · rw [hplace, hs, lineColumn_length_append]
  · rw [hs, List.drop_left]
    exact List.prefix_append _ _

theorem leaf {rule : Rule} {text shown : Bytes} (hs : s = before ++ (shown ++ rest))
    (hwritten : (Tree.leaf rule text (Location.start.after before)).written = shown)
    (hrule : rule ≠ .endOfInput) :
    StandWithin s before.length (before.length + shown.length)
      [.leaf rule text (Location.start.after before)] :=
  single hs hwritten rfl hrule (.nil (Nat.le_add_right _ _))

end StandWithin

theorem Number.stands {number : Number} (hs : s = before ++ (number.text ++ rest)) :
    StandWithin s before.length (before.length + number.text.length)
      [number.tree (Location.start.after before)] := by
  refine .leaf hs ?_ ?_
  · cases number.base <;> rfl
  · cases number.base <;> exact Rule.noConfusion

theorem Operand.stands {operand : Operand} (hs : s = before ++ (operand.text ++ rest)) :
    StandWithin s before.length (before.length + operand.text.length)
      [operand.tree (Location.start.after before)] := by
  cases operand with
  | number value => exact Number.stands hs
  | label name => exact .leaf hs rfl Rule.noConfusion
  | selector signature =>
    refine .single hs rfl rfl Rule.noConfusion ?_
    have hsplit : s = before ++ selectorOpening ++
        (signature ++ (['"'.toUInt8, ')'.toUInt8] ++ rest)) := by
      rw [hs, Operand.text]
      simp only [List.append_assoc]
    have hsignature : StandWithin s _ _ [.leaf .signature signature _] :=
      .leaf hsplit rfl Rule.noConfusion
    rw [Location.after_append] at hsignature
    refine hsignature.widen ?_ ?_
    · rw [List.length_append]
      omega
    · simp only [Operand.text, List.length_append]
      omega

theorem Actual.stands {actual : Actual} (hs : s = before ++ (actual.text ++ rest)) :
    StandWithin s before.length (before.length + actual.text.length)
      [actual.tree (Location.start.after before)] := by
  cases actual with
  | string contents => exact .leaf hs rfl Rule.noConfusion
  | number value => exact Number.stands hs
  | label name => exact .leaf hs rfl Rule.noConfusion

theorem FurtherActual.stand {others : List FurtherActual}
    (hs : s = before ++ (others.flatMap FurtherActual.text ++ rest)) :
    StandWithin s before.length (before.length + (others.flatMap FurtherActual.text).length)
      (FurtherActual.trees others (Location.start.after before)) := by
  induction others generalizing before with
  | nil => exact .nil (Nat.le_add_right _ _)
  | cons item others ih =>
    have hvalue : s = before ++ ','.toUInt8 :: item.lead ++ (item.value.text ++
        (item.trail ++ (others.flatMap FurtherActual.text ++ rest))) := by
      rw [hs]
      simp [FurtherActual.text]
    have hothers : s = before ++ item.text ++ (others.flatMap FurtherActual.text ++ rest) := by
      rw [hs]
      simp
    have hfirst := Actual.stands hvalue
    have hmore := ih hothers
    rw [Location.after_append] at hfirst hmore
    rw [FurtherActual.trees]
    refine (hfirst.widen ?_ ?_).followed (hmore.widen le_rfl ?_)
    · rw [List.length_append]
      omega
    · simp only [FurtherActual.text, List.length_append]
      omega
    · simp only [List.flatMap_cons, List.length_append]
      omega

theorem Actuals.stand {actuals : Actuals} (hs : s = before ++ (actuals.text ++ rest)) :
    StandWithin s before.length (before.length + actuals.text.length)
      (actuals.trees (Location.start.after before)) := by
  have hfirst : s = before ++ (actuals.first.text ++ (actuals.trail ++
      (actuals.others.flatMap FurtherActual.text ++ rest))) := by
    rw [hs]
    simp [Actuals.text]
  have hothers : s = before ++ (actuals.first.text ++ actuals.trail) ++
      (actuals.others.flatMap FurtherActual.text ++ rest) := by
    rw [hs]
    simp [Actuals.text]
  have hmore := FurtherActual.stand hothers
  rw [Location.after_append] at hmore
  rw [Actuals.trees]
  refine ((Actual.stands hfirst).widen le_rfl ?_).followed (hmore.widen le_rfl ?_)
  · simp only [List.length_append]
    omega
  · simp only [Actuals.text, List.length_append]
    omega

theorem Operation.stem_wordSize {operation : Operation} (h : operation ∈ Operation.table)
    (hpush : operation.encoding.hasImmediate = true) :
    "push" ++ Statement.wordSize operation = operation.mnemonic := by
  obtain ⟨n, -, -, rfl⟩ := Operation.hasImmediate_iff_push.mp ⟨h, hpush⟩
  rfl

namespace Statement

theorem argumentTrees_stand {name : Directive} {pad : Bytes} {actuals : Option Actuals}
    (hs : s = before ++ ((Statement.directive name pad actuals).text ++ rest)) :
    StandWithin s before.length
      (before.length + (Statement.directive name pad actuals).text.length)
      (argumentTrees name pad actuals (Location.start.after before)) := by
  cases actuals with
  | none => exact .nil (Nat.le_add_right _ _)
  | some actuals =>
    have hactuals : s = before ++ (directiveOpening name ++ pad) ++
        (actuals.text ++ ([')'.toUInt8] ++ rest)) := by
      rw [hs]
      simp [Statement.text, actualsText]
    have hstand := Actuals.stand hactuals
    rw [Location.after_append] at hstand
    refine hstand.widen ?_ ?_
    · rw [List.length_append]
      omega
    · simp only [Statement.text, actualsText, List.length_append]
      omega

/-- The tree of a statement stands over the statement. -/
theorem stands {statement : Statement} (hvalid : statement.Valid)
    (hs : s = before ++ (statement.text ++ rest)) :
    StandWithin s before.length (before.length + statement.text.length)
      [statement.tree (Location.start.after before)] := by
  cases statement with
  | label name gap =>
    have hname : s = before ++ (name ++ (gap ++ [':'.toUInt8] ++ rest)) := by
      rw [hs]
      simp [Statement.text]
    refine .single hs rfl rfl Rule.noConfusion ?_
    refine (StandWithin.leaf hname rfl Rule.noConfusion).widen le_rfl ?_
    simp only [Statement.text, List.length_append]
    omega
  | plain operation => exact .leaf hs rfl Rule.noConfusion
  | push operation gap operand =>
    obtain ⟨⟨hmem, himm⟩, -, -⟩ := hvalid
    have hsize : s = before ++ (operation.mnemonic ++ (gap ++ operand.text ++ rest)) := by
      rw [hs]
      simp [Statement.text]
    have hoperand : s = before ++ (operation.mnemonic ++ gap) ++ (operand.text ++ rest) := by
      rw [hs]
      simp [Statement.text]
    have hfirst : StandWithin s _ _ [.leaf .wordSize (wordSize operation) _] :=
      .leaf hsize (Operation.stem_wordSize hmem himm) Rule.noConfusion
    have hsecond := Operand.stands hoperand
    rw [Location.after_append] at hsecond
    refine .single hs rfl rfl Rule.noConfusion ?_
    refine hfirst.followed (hsecond.widen ?_ ?_)
    · simp only [List.length_append]
      omega
    · simp only [Statement.text, List.length_append]
      omega
  | directive name pad actuals =>
    refine .single hs rfl rfl Rule.noConfusion (.single hs ?_ rfl ?_ (argumentTrees_stand hs))
    · rcases name with (_ | _ | _) | _ <;> rfl
    · rcases name with (_ | _ | _) | _ <;> exact Rule.noConfusion

end Statement

/-- The tree is a piece of another one, at any depth. -/
inductive Tree.PieceOf (piece : Tree) : Tree → Prop where
  | self : PieceOf piece piece
  | inner {part tree : Tree} (mem : part ∈ tree.inner) (deeper : PieceOf piece part) :
      PieceOf piece tree

/-- From the offset on, a source is made of statements with layout around them, and of its end. Each
statement takes up what its tree says. Layout behind a statement and before another one parts them;
`behind` says that a statement stands before the offset. -/
inductive Tiles (s : Bytes) : (behind : Bool) → Nat → List Tree → Prop where
  | ending {behind parted commented : Bool} {offset : Nat} {last : Tree}
      (bound : offset ≤ s.length) (layout : IsLayout parted commented (s.drop offset))
      (rule : last.rule = .endOfInput) (here : StandWithin s s.length s.length [last]) :
      Tiles s behind offset [last]
  | statement {behind parted : Bool} {offset start : Nat} {tree : Tree} {others : List Tree}
      (order : offset ≤ start) (layout : IsLayout parted false ((s.take start).drop offset))
      (parts : behind = true → parted = true) (rule : tree.rule ≠ .endOfInput)
      (here : StandWithin s start (start + tree.written.length) [tree])
      (more : Tiles s true (start + tree.written.length) others) :
      Tiles s behind offset (tree :: others)

theorem Statement.tree_written (statement : Statement) (place : Location) :
    (statement.tree place).written = statement.text := by
  cases statement <;> rfl

theorem Statement.tree_rule_ne (statement : Statement) (place : Location) :
    (statement.tree place).rule ≠ .endOfInput := by
  cases statement <;> exact Rule.noConfusion

theorem endTree_stands (s : Bytes) : StandWithin s s.length s.length [endTree s] := by
  have hplace := lineColumn_length_append s []
  rw [List.append_nil] at hplace
  exact .cons le_rfl ⟨hplace.symm, List.nil_prefix, fun _ => ⟨rfl, rfl⟩⟩ (.nil le_rfl) (.nil le_rfl)

theorem Source.Valid.tiles {source : Source} {behind : Bool} (h : source.Valid)
    (hs : s = before ++ source.text) (hbehind : behind = true → mayFollow source.text = true) :
    Tiles s behind before.length
      (locatedTrees (Entry.located source.entries (Location.start.after before)) ++
        [endTree s]) := by
  induction h generalizing before behind with
  | @ending layout hlayout =>
    obtain ⟨commented, hend⟩ := Option.isSome_iff_exists.mp hlayout
    obtain ⟨parted, hform⟩ := exists_isLayout hend
    have hdrop : s.drop before.length = layout := by
      rw [hs, List.drop_left]
      rfl
    rw [← hdrop] at hform
    refine .ending ?_ hform rfl (endTree_stands s)
    rw [hs, List.length_append]
    omega
  | @entry layout statement rest hclosed hstatement hfollow _ ih =>
    rw [Source.text_cons] at hs hbehind
    -- Behind another statement, only layout that parts the two may follow.
    have hform : ∃ parted, IsLayout parted false layout ∧ (behind = true → parted = true) := by
      cases behind with
      | true => exact ⟨true, isLayout_of_mayFollow hclosed hstatement (hbehind rfl), fun _ => rfl⟩
      | false =>
        obtain ⟨parted, hform⟩ := exists_isLayout hclosed
        exact ⟨parted, hform, Bool.noConfusion⟩
    obtain ⟨parted, hform, hparts⟩ := hform
    have hhere : s = before ++ layout ++ (statement.text ++ rest.text) := by
      rw [hs, List.append_assoc]
    have hmore : s = before ++ layout ++ statement.text ++ rest.text := by
      rw [hs]
      simp only [List.append_assoc]
    have hgap : (s.take (before ++ layout).length).drop before.length = layout := by
      rw [hhere, List.take_left, List.drop_left]
    have hplaces : locatedTrees (Entry.located (⟨layout, statement⟩ :: rest.entries)
        (Location.start.after before)) = statement.tree (Location.start.after (before ++ layout)) ::
          locatedTrees (Entry.located rest.entries
            (Location.start.after (before ++ layout ++ statement.text))) := by
      simp [locatedTrees, Entry.located, Entry.text]
    have hrest : Tiles s true _ _ := ih hmore fun _ => hfollow
    rw [← hgap] at hform
    rw [List.length_append] at hrest
    rw [hplaces, List.cons_append]
    refine .statement ?_ hform hparts (statement.tree_rule_ne _) ?_ ?_
    · rw [List.length_append]
      omega
    · rw [Statement.tree_written]
      exact Statement.stands hstatement hhere
    · rw [Statement.tree_written]
      exact hrest

/-- The trees of a source stand one behind the other. -/
theorem Tiles.stand {behind : Bool} (h : Tiles s behind offset trees) :
    StandWithin s offset s.length trees := by
  induction h with
  | ending hbound _ _ hhere => exact hhere.widen hbound le_rfl
  | statement horder _ _ _ hhere _ ih => exact (hhere.widen horder le_rfl).followed ih

namespace StandWithin

theorem mem (h : StandWithin s low high trees) (hmem : tree ∈ trees) :
    ∃ offset, low ≤ offset ∧ offset + tree.written.length ≤ high ∧ PieceAt s offset tree ∧
      StandWithin s offset (offset + tree.written.length) tree.inner := by
  induction h with
  | nil => cases hmem
  | cons horder hhere hinner hmore _ ih =>
    rcases List.mem_cons.mp hmem with rfl | hmem
    · exact ⟨_, horder, hmore.bound, hhere, hinner⟩
    · obtain ⟨offset, hlow, hhigh, hpiece, hwithin⟩ := ih hmem
      exact ⟨offset, by omega, hhigh, hpiece, hwithin⟩

/-- Every piece, at any depth, stands between the offsets that the trees stand between. -/
theorem piece {piece : Tree} (h : StandWithin s low high trees) (hmem : tree ∈ trees)
    (hpiece : piece.PieceOf tree) :
    ∃ offset, low ≤ offset ∧ offset + piece.written.length ≤ high ∧ PieceAt s offset piece := by
  induction hpiece generalizing low high trees with
  | self =>
    obtain ⟨offset, hlow, hhigh, hhere, -⟩ := h.mem hmem
    exact ⟨offset, hlow, hhigh, hhere⟩
  | inner hpart _ ih =>
    obtain ⟨offset, hlow, hhigh, -, hinner⟩ := h.mem hmem
    obtain ⟨deeper, hbelow, habove, hhere⟩ := ih hinner hpart
    exact ⟨deeper, by omega, by omega, hhere⟩

end StandWithin

/-- The trees of a source tile it: statements and layout take up every byte once, and the layout
between two statements holds a separator. Every piece of the trees stands in the source at the
offset that its place tells, with its written form. -/
theorem parseTrees_tiles (h : parseTrees s = .ok trees) :
    Tiles s false 0 trees ∧
      ∀ tree ∈ trees, ∀ piece, Tree.PieceOf piece tree →
        ∃ offset, offset + piece.written.length ≤ s.length ∧ PieceAt s offset piece := by
  rcases fault_or_readsAs s with ⟨fault, -, herror, -⟩ | ⟨statements, hreads⟩
  · cases herror.symm.trans h
  · cases hreads.parseTrees_eq.symm.trans h
    obtain ⟨source, hvalid, htext, rfl⟩ := hreads
    have htiles : Tiles s false 0 _ := @Source.Valid.tiles s [] source false hvalid htext.symm
      Bool.noConfusion
    refine ⟨htiles, fun tree htree piece hpiece => ?_⟩
    obtain ⟨offset, -, hbound, hhere⟩ := htiles.stand.piece htree hpiece
    exact ⟨offset, hbound, hhere⟩

/-- A label with a comment behind it, a directive with a string, and a push. -/
theorem parseTrees_tiles_statements :
    ∃ trees, parseTrees "a: # x\n%import(\"f\");push2 a" = .ok trees ∧ trees.length = 4 ∧
      Tiles "a: # x\n%import(\"f\");push2 a" false 0 trees ∧
      PieceAt "a: # x\n%import(\"f\");push2 a" 15 ⟨.string, "f", ⟨2, 9⟩, []⟩ := by
  have hscan : scanSource "a: # x\n%import(\"f\");push2 a" =
      .ok ⟨[⟨"", .label "a" ""⟩,
        ⟨" # x\n", .directive (.inclusion .importFile) "" (some ⟨.string "f", "", []⟩)⟩,
        ⟨";", .push (.pushOf 2) " " (.label "a")⟩], ""⟩ := by
    decide +kernel
  have htrees : parseTrees "a: # x\n%import(\"f\");push2 a" = .ok
      [⟨.labelDefinition, "a:", ⟨1, 1⟩, [⟨.label, "a", ⟨1, 1⟩, []⟩]⟩,
        ⟨.instructionMacro, "%import(\"f\")", ⟨2, 1⟩,
          [⟨.importFile, "%import(\"f\")", ⟨2, 1⟩, [⟨.string, "f", ⟨2, 9⟩, []⟩]⟩]⟩,
        ⟨.push, "push2 a", ⟨2, 14⟩,
          [⟨.wordSize, "2", ⟨2, 14⟩, []⟩, ⟨.label, "a", ⟨2, 20⟩, []⟩]⟩,
        ⟨.endOfInput, [], ⟨2, 21⟩, []⟩] :=
    (readsAs_of_scanSource hscan).parseTrees_eq.trans rfl
  obtain ⟨htiles, hpieces⟩ := parseTrees_tiles htrees
  obtain ⟨offset, hbound, hstring⟩ := hpieces _ (.tail _ (.head _)) ⟨.string, "f", ⟨2, 9⟩, []⟩
    (.inner (.head _) (.inner (.head _) .self))
  have hoffset : 15 = offset :=
    lineColumn_injective (Nat.le_of_add_right_le hbound) (by decide) hstring.place
  subst hoffset
  exact ⟨_, htrees, rfl, htiles, hstring⟩

end EvmAssembly
