import EvmAssembly.Proofs.LayoutIndependence
import EvmAssembly.Proofs.LineDerivation
import EvmAssembly.Proofs.StatementNodes

/-!
# Which error is reported

A source may have many faults, and one of them is reported. A text that does not follow the grammar
comes first, wherever it stands. Otherwise it is the first statement of which no node can be made: a
push of a literal that does not fit, or a directive whose arguments are not one of the kind it
takes. Its error is the one that the statement has by itself, at the place where the statement
stands.
-/

namespace EvmAssembly

variable {place : Location} {s : Bytes} {tree : Tree} {error : ParseError}

/-- The tree is that of a directive with these arguments. -/
def Tree.IsDirective (tree : Tree) (name : Directive) (given : List Tree) : Prop :=
  tree.rule = .instructionMacro ∧ tree.inner = [⟨name.rule, tree.text, tree.location, given⟩]

/-- Why no node can be made of a statement. A first argument of the wrong form is reported however
many follow it; only behind one of the right form is the next one too many. -/
inductive Tree.Refused (tree : Tree) : ParseError → Prop where
  | tooLarge {n : Nat} {number : Number} {there : Location} (rule : tree.rule = .push)
      (positive : 1 ≤ n) (atMost : n ≤ 32)
      (pieces : tree.inner =
        [⟨.wordSize, decimal n, tree.location, []⟩, ⟨number.base.rule, number.text, there, []⟩])
      (literal : number.Valid) (large : ¬ number.Fits n) :
      Refused tree ⟨.immediateTooLarge number.text n, there⟩
  | missing {name : Directive} (directive : tree.IsDirective name []) :
      Refused tree ⟨.missingArgument 1 0, tree.location⟩
  | wrongKind {name : Directive} {first : Tree} {others : List Tree}
      (directive : tree.IsDirective name (first :: others)) (kind : first.rule ≠ name.takes.rule) :
      Refused tree ⟨.argumentType 0 name.takes.name first.rule.name, first.location⟩
  | surplus {name : Directive} {first second : Tree} {others : List Tree}
      (directive : tree.IsDirective name (first :: second :: others))
      (kind : first.rule = name.takes.rule) :
      Refused tree ⟨.extraArgument 1 (first :: second :: others).length, second.location⟩

theorem Tree.Refused.rule_eq (h : tree.Refused error) :
    tree.rule = .push ∨ tree.rule = .instructionMacro := by
  cases h with
  | tooLarge hrule => exact .inl hrule
  | missing hdirective => exact .inr hdirective.1
  | wrongKind hdirective => exact .inr hdirective.1
  | surplus hdirective => exact .inr hdirective.1

theorem Operand.Valid.text_injective {operand other : Operand} (h : operand.Valid)
    (hother : other.Valid) (htext : operand.text = other.text) : operand = other := by
  have hread : scanOperand (operand.text ++ []) = .ok (operand, []) :=
    scanOperand_text_append h ⟨rfl, rfl⟩
  rw [htext, scanOperand_text_append hother ⟨rfl, rfl⟩] at hread
  cases hread
  rfl

/-- Of what can be pushed, only numbers can be too large. -/
theorem Operand.Valid.immediate_eq_error_iff {operand : Operand} {width : Nat} {fault : Fault}
    (hvalid : operand.Valid) (hwidth : 1 ≤ width) : operand.immediate width = .error fault ↔
      ∃ number : Number, operand = .number number ∧ ¬ number.Fits width ∧
        fault = .immediateTooLarge number.text width := by
  cases operand with
  | number value =>
    obtain ⟨hfits, hlarge⟩ := Number.Valid.immediate_eq hvalid hwidth
    constructor
    · intro h
      have herror := map_eq_error h
      by_cases hvalue : value.Fits width
      · cases (hfits hvalue).2.symm.trans herror
      · cases (hlarge hvalue).symm.trans herror
        exact ⟨value, rfl, hvalue, rfl⟩
    · rintro ⟨number, ⟨⟩, hvalue, rfl⟩
      rw [Operand.immediate, hlarge hvalue]
      rfl
  | label name =>
    constructor
    · intro h
      cases h
    · rintro ⟨number, heq, -⟩
      cases heq
  | selector signature =>
    have hlength : ¬ (functionSelector signature width).length > width := by
      rw [length_functionSelector]
      omega
    constructor
    · intro h
      rw [Operand.immediate, widen, if_neg hlength] at h
      cases h
    · rintro ⟨number, heq, -⟩
      cases heq

theorem push_node_eq_error_iff {operation : Operation} {gap : Bytes} {operand : Operand}
    (h : (Statement.push operation gap operand).Valid) (place : Location) :
    (Statement.push operation gap operand).node place = .error error ↔
      ((Statement.push operation gap operand).tree place).Refused error := by
  obtain ⟨hop, -, hoperand⟩ := h
  obtain ⟨n, hlow, hhigh, rfl⟩ := Operation.hasImmediate_iff_push.mp hop
  have hfault := fun fault => @hoperand.immediate_eq_error_iff _ n fault hlow
  simp only [Statement.node, Operation.pushOf_width hhigh]
  constructor
  · intro herror
    split at herror
    · cases herror
    · rename_i fault himmediate
      obtain ⟨number, rfl, hlarge, rfl⟩ := (hfault fault).mp himmediate
      cases herror
      exact .tooLarge rfl hlow hhigh rfl hoperand hlarge
  · intro hrefused
    cases hrefused with
    | @tooLarge m number there _ _ hm hpieces hnumber hlarge =>
      obtain ⟨hsize, hrest⟩ := List.cons.inj hpieces
      have htree := (List.cons.inj hrest).1
      -- The word size tells the width, and the text of the literal tells the literal.
      have hwidth : n = m := by
        have hdigits : decimal n = decimal m := congrArg Tree.text hsize
        have hread := Checked.unsigned_decimal hhigh
        rw [hdigits, Checked.unsigned_decimal hm] at hread
        exact (Except.ok.inj hread).symm
      have htext : operand.text = (Operand.number number).text :=
        (operand.tree_text _).symm.trans (congrArg Tree.text htree)
      obtain rfl : operand = .number number := hoperand.text_injective hnumber htext
      obtain rfl : there = Statement.operandPlace (.pushOf n) gap place :=
        (congrArg Tree.location htree).symm
      rw [(hfault _).mpr ⟨number, rfl, hwidth ▸ hlarge, rfl⟩, hwidth]
    | missing hdirective => cases hdirective.1
    | wrongKind hdirective => cases hdirective.1
    | surplus hdirective => cases hdirective.1

theorem Directive.rule_injective {name other : Directive} (h : name.rule = other.rule) :
    name = other := by
  have hname := Checked.find?_rule name
  rw [h, Checked.find?_rule other] at hname
  exact (Option.some.inj hname).symm

private theorem isDirective_unique {name other : Directive} {text : Bytes}
    {given others : List Tree}
    (h : (Tree.mk .instructionMacro text place [⟨name.rule, text, place, given⟩]).IsDirective other
      others) : name = other ∧ given = others := by
  have htree := (List.cons.inj h.2).1
  exact ⟨Directive.rule_injective (congrArg Tree.rule htree), congrArg Tree.inner htree⟩

theorem Directive.build_eq_error_iff {name : Directive} {given : List Tree}
    (hknown : ∀ argument ∈ given, argument.location.known = true) (text : Bytes) :
    name.build given place = .error error ↔
      (Tree.mk .instructionMacro text place [⟨name.rule, text, place, given⟩]).Refused error := by
  constructor
  · intro h
    cases given with
    | nil =>
      cases h
      exact .missing ⟨rfl, rfl⟩
    | cons first others =>
      have hfirst := hknown first (by simp)
      by_cases hkind : first.rule = name.takes.rule
      · cases others with
        | nil => simp [Directive.build, checkArguments, checkFrom, hkind, Except.map] at h
        | cons second others =>
          have hsecond := hknown second (by simp)
          simp only [Directive.build, checkArguments, checkFrom, hkind, if_true, Except.map,
            ParseError.pin, hsecond] at h
          cases h
          exact .surplus ⟨rfl, rfl⟩ hkind
      · simp only [Directive.build, checkArguments, checkFrom, hkind, if_false, ParseError.pin,
          hfirst, if_true] at h
        cases h
        exact .wrongKind ⟨rfl, rfl⟩ hkind
  · intro h
    cases h with
    | tooLarge hrule => cases hrule
    | missing hdirective =>
      obtain ⟨rfl, rfl⟩ := isDirective_unique hdirective
      rfl
    | wrongKind hdirective hkind =>
      obtain ⟨rfl, rfl⟩ := isDirective_unique hdirective
      simp [Directive.build, checkArguments, checkFrom, hkind, ParseError.pin, hknown]
    | surplus hdirective hkind =>
      obtain ⟨rfl, rfl⟩ := isDirective_unique hdirective
      simp [Directive.build, checkArguments, checkFrom, hkind, Except.map, ParseError.pin, hknown]

theorem Statement.tree_location (statement : Statement) (place : Location) :
    (statement.tree place).location = place := by
  cases statement <;> rfl

/-- No node can be made of a statement exactly if its tree is refused. -/
theorem Statement.Valid.node_eq_error_iff {statement : Statement} (h : statement.Valid)
    (hplace : place.known = true) :
    statement.node place = .error error ↔ (statement.tree place).Refused error := by
  cases statement with
  | label name gap =>
    constructor
    · intro herror
      cases herror
    · intro hrefused
      rcases hrefused.rule_eq with hrule | hrule <;> cases hrule
  | plain operation =>
    constructor
    · intro herror
      cases herror
    · intro hrefused
      rcases hrefused.rule_eq with hrule | hrule <;> cases hrule
  | push operation gap operand => exact push_node_eq_error_iff h place
  | directive name pad actuals =>
    apply Directive.build_eq_error_iff
    intro argument hargument
    obtain ⟨before, -, -, hthere⟩ := argumentTrees_within hargument
    rw [hthere]
    exact Location.after_known hplace before

theorem Statement.Valid.parse_text_eq_error_iff {statement : Statement} (h : statement.Valid) :
    parse statement.text = .error error ↔ statement.node .start = .error error := by
  rw [h.parse_text]
  constructor
  · exact map_eq_error
  · intro hnode
    rw [hnode]
    rfl

/-- A text that is one statement is not parsed exactly if its tree is refused. -/
theorem Tree.IsWhole.parse_eq_error_iff (h : tree.IsWhole) :
    parse tree.text = .error error ↔ tree.Refused error := by
  obtain ⟨statement, hvalid, htext, rfl⟩ := h.exists_statement
  rw [← htext, hvalid.parse_text_eq_error_iff, hvalid.node_eq_error_iff rfl]

/-- All statements before some one of these are parsed by themselves, and that one is not; the error
is the one it has by itself, moved to where it stands in the source. -/
inductive FirstFailing (s : Bytes) (trees : List Tree) : ParseError → Prop where
  | here {made later : List Tree} {failing : Tree} {before behind : Bytes} {alone : ParseError}
      (split : trees = made ++ failing :: later)
      (parsed : ∀ tree ∈ made, ∃ node, parse tree.text = .ok [node])
      (fails : parse failing.text = .error alone)
      (stands : s = before ++ (failing.text ++ behind))
      (place : failing.location = lineColumn s before.length) :
      FirstFailing s trees (alone.moved (before.count newline)
        (before.reverse.takeWhile (· ≠ newline)).length)

/-- A statement has a node wherever it stands, if it has one by itself. -/
theorem Statement.Valid.makes_iff {statement : Statement} (h : statement.Valid) (before : Bytes) :
    (∃ node, Makes (Location.start.after before, statement) node) ↔
      ∃ node, parse statement.text = .ok [node] := by
  simp only [Makes, h.node_after, h.parse_text]
  cases statement.node .start with
  | error alone =>
    constructor <;>
    · rintro ⟨node, hnode⟩
      cases hnode
  | ok node =>
    constructor <;>
    · intro
      exact ⟨node, rfl⟩

private theorem ReadsAs.firstFailing {statements : List (Location × Statement)}
    (h : ReadsAs .start s statements) (herror : buildNodes statements = .error error) :
    FirstFailing s (locatedTrees statements) error := by
  obtain ⟨made, place, statement, later, nodes, rfl, hmade, hfails⟩ := stops_of_buildNodes herror
  have hmem : (place, statement) ∈ made ++ (place, statement) :: later := by simp
  obtain ⟨hvalid, before, behind, htext, rfl⟩ := h.mem hmem
  rw [hvalid.node_after] at hfails
  cases halone : statement.node .start with
  | ok node =>
    rw [halone] at hfails
    cases hfails
  | error alone =>
    rw [halone] at hfails
    cases hfails
    have hsplit : locatedTrees (made ++ (Location.start.after before, statement) :: later) =
        locatedTrees made ++ statement.tree (Location.start.after before) ::
          locatedTrees later := by
      simp [locatedTrees]
    have hstands : s = before ++ ((statement.tree (.after .start before)).text ++ behind) := by
      rw [Statement.tree_text, htext]
    refine .here hsplit ?_ ?_ hstands ?_
    · intro tree htree
      obtain ⟨⟨there, other⟩, hother, rfl⟩ := List.mem_map.mp htree
      obtain ⟨hother', above, -, -, rfl⟩ := h.mem (List.mem_append_left _ hother)
      rw [Statement.tree_text, ← hother'.makes_iff above]
      exact exists_makes hmade _ hother
    · rw [Statement.tree_text, hvalid.parse_text_eq_error_iff, halone]
    · rw [Statement.tree_location, htext, lineColumn_length_append]

private theorem FirstFailing.buildNodes_eq {statements : List (Location × Statement)}
    (hreads : ReadsAs .start s statements)
    (h : FirstFailing s (locatedTrees statements) error) :
    buildNodes statements = .error error := by
  obtain ⟨hsplit, hparsed, hfails, hstands, hplace⟩ := h
  rename_i before behind alone
  obtain ⟨made, rest, rfl, rfl, hrest⟩ := List.map_eq_append_iff.mp hsplit
  obtain ⟨⟨place, statement⟩, later, rfl, rfl, rfl⟩ := List.map_eq_cons_iff.mp hrest
  obtain ⟨hvalid, -⟩ := hreads.mem (List.mem_append_right made (List.mem_cons_self ..))
  rw [Statement.tree_location, hstands, lineColumn_length_append] at hplace
  obtain rfl : place = Location.start.after before := hplace
  apply buildNodes_of_stops
  · rintro ⟨there, other⟩ hother
    obtain ⟨hother', above, -, -, rfl⟩ := hreads.mem (List.mem_append_left _ hother)
    rw [hother'.makes_iff above, ← Statement.tree_text]
    exact hparsed _ (List.mem_map_of_mem hother)
  · rw [Statement.tree_text, hvalid.parse_text_eq_error_iff] at hfails
    rw [hvalid.node_after, hfails]
    rfl

/-- The error of a source that is read is that of the first statement that fails by itself. -/
theorem ReadsAs.parse_eq_error_iff {statements : List (Location × Statement)}
    (h : ReadsAs .start s statements) :
    parse s = .error error ↔ FirstFailing s (locatedTrees statements) error := by
  rw [h.parse_eq]
  exact ⟨h.firstFailing, FirstFailing.buildNodes_eq h⟩

/-- A source that is read is parsed unless one of its statements is refused. -/
theorem ReadsAs.parse_eq_ok_iff {statements : List (Location × Statement)}
    (h : ReadsAs .start s statements) : (∃ nodes, parse s = .ok nodes) ↔
      ∀ tree ∈ locatedTrees statements, ∀ error, ¬ tree.Refused error := by
  have hrefused : ∀ place statement, (place, statement) ∈ statements → ∀ error,
      statement.node place = .error error ↔ (statement.tree place).Refused error := by
    intro place statement hmem error
    exact (h.mem hmem).1.node_eq_error_iff (h.one_line rfl place statement hmem).2
  rw [h.parse_eq]
  constructor
  · rintro ⟨nodes, hnodes⟩ tree htree error
    obtain ⟨⟨place, statement⟩, hmem, rfl⟩ := List.mem_map.mp htree
    obtain ⟨node, hnode⟩ := exists_makes (makes_of_buildNodes hnodes) _ hmem
    rw [← hrefused place statement hmem]
    intro herror
    cases herror.symm.trans hnode
  · intro hall
    cases hbuild : buildNodes statements with
    | ok nodes => exact ⟨nodes, rfl⟩
    | error error =>
      obtain ⟨place, statement, hmem, hnode⟩ := exists_of_buildNodes_error hbuild
      exact absurd ((hrefused place statement hmem error).mp hnode)
        (hall _ (List.mem_map_of_mem hmem) error)

theorem endTree_not_refused (s : Bytes) : ¬ (endTree s).Refused error := by
  intro h
  rcases h.rule_eq with hrule | hrule <;> cases hrule

/-- If a line of a source does not follow the grammar, then the source has no parse trees, and the
lexical error of reading it is reported. Otherwise its error is that of the first statement that
fails by itself, at the place where it stands. A statement that is read fails by itself exactly if
it is refused, and a source is parsed exactly if it is read and no statement of it is refused. -/
theorem parse_reports (s : Bytes) :
    ((∃ line ∈ s.splitOn newline, ∀ trees, ¬ LineDerives .start line trees) →
      ∃ error, parseTrees s = .error error ∧ error.fault.kind = .lexical ∧
        parse s = .error error) ∧
    ((∀ line ∈ s.splitOn newline, ∃ trees, LineDerives .start line trees) →
      ∃ trees, parseTrees s = .ok (trees ++ [endTree s]) ∧
        ∀ error, parse s = .error error ↔ FirstFailing s trees error) ∧
    (∀ tree : Tree, tree.IsWhole → ∀ error, parse tree.text = .error error ↔ tree.Refused error) ∧
    ((∃ nodes, parse s = .ok nodes) ↔
      ∃ trees, parseTrees s = .ok trees ∧ ∀ tree ∈ trees, ∀ error, ¬ tree.Refused error) := by
  have hgrammar := exists_readsAs_iff s
  refine ⟨?_, ?_, fun tree htree error => htree.parse_eq_error_iff, ?_⟩
  · rintro ⟨line, hline, hderives⟩
    rcases fault_or_readsAs s with ⟨fault, -, htrees, hparse⟩ | hreads
    · exact ⟨_, htrees, rfl, hparse⟩
    · obtain ⟨trees, htrees⟩ := hgrammar.mp hreads line hline
      exact absurd htrees (hderives trees)
  · intro hlines
    obtain ⟨statements, hreads⟩ := hgrammar.mpr hlines
    exact ⟨_, hreads.parseTrees_eq, fun error => hreads.parse_eq_error_iff⟩
  · rcases fault_or_readsAs s with ⟨fault, -, htrees, hparse⟩ | ⟨statements, hreads⟩
    · rw [htrees, hparse]
      constructor
      · rintro ⟨nodes, hnodes⟩
        cases hnodes
      · rintro ⟨trees, hread, -⟩
        cases hread
    · rw [hreads.parse_eq_ok_iff, hreads.parseTrees_eq]
      constructor
      · intro hall
        refine ⟨_, rfl, ?_⟩
        intro tree htree error
        rcases List.mem_append.mp htree with htree | hend
        · exact hall tree htree error
        · rw [List.mem_singleton.mp hend]
          exact endTree_not_refused s
      · rintro ⟨trees, ⟨⟩, hall⟩ tree htree
        exact hall tree (List.mem_append_left _ htree)

/-- A literal that is too large is reported neither before a stray character in the line behind it,
nor before a directive with the wrong argument in the line above it. -/
theorem parse_reports_one_of_two :
    (∃ error, parseTrees "push1 256\n?" = .error error ∧ error.fault.kind = .lexical ∧
      parse "push1 256\n?" = .error error) ∧
    ∃ trees, parseTrees "a:\n %push(1, a);push1 256" =
        .ok (trees ++ [endTree "a:\n %push(1, a);push1 256"]) ∧
      FirstFailing "a:\n %push(1, a);push1 256" trees
        ⟨.argumentType 0 "label" "decimal literal", ⟨2, 8⟩⟩ := by
  constructor
  · have hscan : scanSource "push1 256\n?" = .error ⟨.expected .statement, "?"⟩ := by
      decide +kernel
    obtain ⟨hgrammar, hread, -⟩ := parse_reports "push1 256\n?"
    apply hgrammar
    by_contra hnone
    simp only [not_exists, not_and, not_forall, not_not] at hnone
    obtain ⟨trees, htrees, -⟩ := hread hnone
    cases (parse_of_fault hscan).1.symm.trans htrees
  · have hscan : scanSource "a:\n %push(1, a);push1 256" =
        .ok ⟨[⟨"", .label "a" ""⟩,
          ⟨"\n ", .directive .push ""
            (some ⟨.number ⟨.decimal, "1"⟩, "", [⟨" ", .label "a", ""⟩]⟩)⟩,
          ⟨";", .push (.pushOf 1) " " (.number ⟨.decimal, "256"⟩)⟩], ""⟩ := by
      decide +kernel
    have hreads := readsAs_of_scanSource hscan
    have hparse : parse "a:\n %push(1, a);push1 256" =
        .error ⟨.argumentType 0 "label" "decimal literal", ⟨2, 8⟩⟩ := hreads.parse_eq.trans rfl
    obtain ⟨trees, htrees, herror⟩ :=
      (parse_reports "a:\n %push(1, a);push1 256").2.1 ((exists_readsAs_iff _).mp ⟨_, hreads⟩)
    exact ⟨trees, htrees, (herror _).mp hparse⟩

end EvmAssembly
