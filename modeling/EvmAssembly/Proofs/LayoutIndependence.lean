import EvmAssembly.Proofs.Displacement
import EvmAssembly.Proofs.LayoutForms

/-!
# Layout has no effect

Statements that are laid out in another way keep their trees, except for the places, and their
nodes. An error stays the same one, at the place where its statement now stands.
-/

namespace EvmAssembly

variable {s before ending : Bytes} {behind : Bool} {tree : Tree}

/-- The tree of a text that is one statement and nothing else. -/
def Tree.IsWhole (tree : Tree) : Prop := ∃ last, parseTrees tree.text = .ok [tree, last]

/-- A statement, given by its tree, and the layout before it. -/
structure LaidTree where
  layout : Bytes
  tree : Tree

variable {pieces : List LaidTree}

/-- Statements with their layout, and the layout behind the last one. -/
def laidText : List LaidTree → Bytes → Bytes
  | [], ending => ending
  | piece :: pieces, ending => piece.layout ++ (piece.tree.text ++ laidText pieces ending)

/-- The trees, each moved to where its statement stands behind `before`. -/
def laidTrees (before : Bytes) : List LaidTree → List Tree
  | [] => []
  | piece :: pieces =>
    let above := before ++ piece.layout
    piece.tree.moved (above.count newline) (above.reverse.takeWhile (· ≠ newline)).length ::
      laidTrees (above ++ piece.tree.text) pieces

/-- Layout stands before each statement and behind the last one, and it parts each statement from
the one behind it. Only the last layout may end with a comment. -/
inductive Laid : (behind : Bool) → List LaidTree → Bytes → Prop where
  | ending {behind parted commented : Bool} {ending : Bytes}
      (layout : IsLayout parted commented ending) : Laid behind [] ending
  | piece {behind parted : Bool} {piece : LaidTree} {pieces : List LaidTree} {ending : Bytes}
      (layout : IsLayout parted false piece.layout) (parts : behind = true → parted = true)
      (more : Laid true pieces ending) : Laid behind (piece :: pieces) ending

theorem Statement.tree_text (statement : Statement) (place : Location) :
    (statement.tree place).text = statement.text := by
  cases statement <;> rfl

/-- A statement is told by its text. -/
theorem Statement.Valid.text_injective {statement other : Statement} (h : statement.Valid)
    (hother : other.Valid) (htext : statement.text = other.text) : statement = other := by
  have hread : scanStatement (statement.text ++ []) = .ok (statement, []) :=
    scanStatement_text_append h rfl
  rw [htext, scanStatement_text_append hother rfl] at hread
  cases hread
  rfl

/-- A text that is one statement is the text of a well-formed one, laid out from its beginning. -/
theorem Tree.IsWhole.exists_statement (h : tree.IsWhole) :
    ∃ statement : Statement, statement.Valid ∧ statement.text = tree.text ∧
      tree = statement.tree .start := by
  obtain ⟨last, htrees⟩ := h
  rcases fault_or_readsAs tree.text with ⟨fault, -, herror, -⟩ | ⟨statements, hreads⟩
  · cases herror.symm.trans htrees
  · have hlist := Except.ok.inj (hreads.parseTrees_eq.symm.trans htrees)
    have hlength := congrArg List.length hlist
    simp only [List.length_append, List.length_cons, List.length_nil, locatedTrees,
      List.length_map] at hlength
    obtain ⟨⟨place, statement⟩, rfl⟩ := List.length_eq_one_iff.mp (Nat.add_right_cancel hlength)
    obtain rfl : statement.tree place = tree := (List.cons.inj hlist).1
    obtain ⟨hvalid, before, behind, htext, rfl⟩ := hreads.mem (List.mem_singleton.mpr rfl)
    -- The tree covers the whole text, so nothing stands around the statement.
    have hbytes := congrArg List.length htext
    rw [Statement.tree_text, List.length_append, List.length_append] at hbytes
    obtain rfl : before = [] := List.length_eq_zero_iff.mp (by omega)
    exact ⟨statement, hvalid, (statement.tree_text _).symm, rfl⟩

theorem Laid.mayFollow_laidText (h : Laid true pieces ending) :
    mayFollow (laidText pieces ending) = true := by
  cases h with
  | ending hlayout =>
    have hfollow := hlayout.mayFollow_append (.inr rfl)
    rwa [List.append_nil] at hfollow
  | piece hlayout hparts => exact hlayout.mayFollow_append (.inl (hparts rfl))

/-- A statement that stands behind a text has the tree that it has by itself, moved. -/
theorem Statement.Valid.tree_after {statement : Statement} (h : statement.Valid) (text : Bytes) :
    statement.tree (Location.start.after text) = (statement.tree .start).moved
      (text.count newline) (text.reverse.takeWhile (· ≠ newline)).length := by
  rw [Location.start_after_eq_moved, Statement.tree_moved h.newline_notMem]

/-- Laid-out statements read as themselves, each where it stands. -/
theorem Laid.readsAs (h : Laid behind pieces ending)
    (htrees : ∀ piece ∈ pieces, piece.tree.IsWhole) (before : Bytes) :
    ∃ statements, ReadsAs (Location.start.after before) (laidText pieces ending) statements ∧
      locatedTrees statements = laidTrees before pieces ∧
      statements.map (·.2.text) = pieces.map (·.tree.text) := by
  induction h generalizing before with
  | ending hlayout =>
    refine ⟨[], .ending ?_, rfl, rfl⟩
    rw [laidText, hlayout.layoutEnd_eq]
    rfl
  | @piece behind parted piece pieces ending hlayout _ hmore ih =>
    obtain ⟨statement, hvalid, htext, htree⟩ := (htrees piece (by simp)).exists_statement
    obtain ⟨statements, hreads, hplaced, htexts⟩ :=
      ih (fun other hother => htrees other (by simp [hother]))
        (before ++ piece.layout ++ piece.tree.text)
    rw [Location.after_append, ← htext] at hreads
    -- The layout behind the statement parts it from the next one, so reading it ends in time.
    have hhere := hreads.statement hvalid hmore.mayFollow_laidText
    rw [Location.after_append] at hhere
    have hlaid := hhere.layout hlayout.layoutEnd_eq
    rw [htext] at hlaid
    refine ⟨_, hlaid, ?_, ?_⟩
    · rw [laidTrees, ← hplaced, htree, ← hvalid.tree_after, Location.after_append]
      rfl
    · rw [List.map_cons, List.map_cons, htext, htexts]

/-- A statement behind a text has the node that it has by itself, or its error, moved. -/
theorem Statement.Valid.node_after {statement : Statement} (h : statement.Valid) (text : Bytes) :
    statement.node (Location.start.after text) = (statement.node .start).mapError
      (ParseError.moved (text.count newline) (text.reverse.takeWhile (· ≠ newline)).length) := by
  rw [Location.start_after_eq_moved, Statement.node_moved h.newline_notMem rfl]

/-- The fault of a statement does not depend on its place. -/
theorem Statement.Valid.node_fault {statement : Statement} (h : statement.Valid) (text : Bytes) :
    (statement.node (Location.start.after text)).mapError ParseError.fault =
      (statement.node .start).mapError ParseError.fault := by
  rw [h.node_after]
  cases statement.node .start <;> rfl

/-- Nodes are made of the statements in order. The places of the statements only show in errors. -/
theorem ReadsAs.parse_fault {statements : List (Location × Statement)}
    (h : ReadsAs .start s statements) : (parse s).mapError ParseError.fault =
      (buildNodes ((statements.map Prod.snd).map (.start, ·))).mapError ParseError.fault := by
  have hnodes := @buildNodes_map Fault ParseError.fault ParseError.fault (fun _ => .start)
    statements
  rw [h.parse_eq, List.map_map]
  refine (hnodes fun place statement hmem => ?_).symm
  obtain ⟨hvalid, before, -, -, rfl⟩ := h.mem hmem
  exact (hvalid.node_fault before).symm

/-- Well-formed statements are told by their texts. -/
private theorem statements_eq_of_text {first second : List Statement}
    (hfirst : ∀ statement ∈ first, statement.Valid)
    (hsecond : ∀ statement ∈ second, statement.Valid)
    (h : first.map Statement.text = second.map Statement.text) : first = second := by
  induction first generalizing second with
  | nil => exact (List.map_eq_nil_iff.mp h.symm).symm
  | cons statement first ih =>
    cases second with
    | nil => cases h
    | cons other second =>
      obtain ⟨htext, hrest⟩ := List.cons.inj h
      have hsame := (hfirst statement (by simp)).text_injective (hsecond other (by simp)) htext
      have hmore := ih (fun more hmem => hfirst more (by simp [hmem]))
        (fun more hmem => hsecond more (by simp [hmem])) hrest
      rw [hsame, hmore]

theorem ReadsAs.valid {statements : List (Location × Statement)} (h : ReadsAs .start s statements) :
    ∀ statement ∈ statements.map Prod.snd, statement.Valid := by
  intro statement hmem
  obtain ⟨⟨place, statement⟩, hitem, rfl⟩ := List.mem_map.mp hmem
  exact (h.mem hitem).1

/-- Laid-out statements have the trees that they have by themselves, each moved to where its
statement stands. Two layouts of the same statements give the same nodes, or errors with the same
fault. -/
theorem parseTrees_laid (hlaid : Laid false pieces ending)
    (htrees : ∀ piece ∈ pieces, piece.tree.IsWhole) :
    parseTrees (laidText pieces ending) =
      .ok (laidTrees [] pieces ++ [endTree (laidText pieces ending)]) ∧
    ∀ others last, Laid false others last → (∀ piece ∈ others, piece.tree.IsWhole) →
      others.map (·.tree.text) = pieces.map (·.tree.text) →
      (parse (laidText others last)).mapError ParseError.fault =
        (parse (laidText pieces ending)).mapError ParseError.fault := by
  obtain ⟨statements, hreads, hplaced, htexts⟩ := hlaid.readsAs htrees []
  constructor
  · rw [← hplaced]
    exact hreads.parseTrees_eq
  · intro others last hlaid' htrees' hsame
    obtain ⟨statements', hreads', -, htexts'⟩ := hlaid'.readsAs htrees' []
    rw [Location.after_nil] at hreads hreads'
    have hstatements : statements'.map Prod.snd = statements.map Prod.snd := by
      apply statements_eq_of_text hreads'.valid hreads.valid
      rw [List.map_map, List.map_map]
      exact htexts'.trans (hsame.trans htexts.symm)
    rw [hreads.parse_fault, hreads'.parse_fault, hstatements]

/-- A label and a push with a literal that is too large for it, laid out in two ways. -/
theorem parseTrees_laid_twice :
    parseTrees " a: # c\npush1 256 # end" = .ok
      [⟨.labelDefinition, "a:", ⟨1, 2⟩, [⟨.label, "a", ⟨1, 2⟩, []⟩]⟩,
        ⟨.push, "push1 256", ⟨2, 1⟩,
          [⟨.wordSize, "1", ⟨2, 1⟩, []⟩, ⟨.decimal, "256", ⟨2, 7⟩, []⟩]⟩,
        ⟨.endOfInput, [], ⟨2, 16⟩, []⟩] ∧
    (parse "a:;push1 256").mapError ParseError.fault =
      (parse " a: # c\npush1 256 # end").mapError ParseError.fault := by
  have hlabel : Tree.IsWhole ⟨.labelDefinition, "a:", ⟨1, 1⟩, [⟨.label, "a", ⟨1, 1⟩, []⟩]⟩ := by
    have hscan : scanSource "a:" = .ok ⟨[⟨"", .label "a" ""⟩], ""⟩ := by decide +kernel
    exact ⟨_, (readsAs_of_scanSource hscan).parseTrees_eq⟩
  have hpush : Tree.IsWhole ⟨.push, "push1 256", ⟨1, 1⟩,
      [⟨.wordSize, "1", ⟨1, 1⟩, []⟩, ⟨.decimal, "256", ⟨1, 7⟩, []⟩]⟩ := by
    have hscan : scanSource "push1 256" =
        .ok ⟨[⟨"", .push (.pushOf 1) " " (.number ⟨.decimal, "256"⟩)⟩], ""⟩ := by decide +kernel
    exact ⟨_, (readsAs_of_scanSource hscan).parseTrees_eq⟩
  have hlines : ∀ label push, Laid false [⟨" ", label⟩, ⟨" # c\n", push⟩] " # end" := by
    intro label push
    have hcomment : IsLayout true false " # c\n" :=
      .blank rfl (@IsLayout.comment " c" [] _ (by decide) (.separator rfl .nil))
    have hend : IsLayout false true " # end" := .blank rfl (.lastComment (by decide))
    exact .piece (.blank rfl .nil) Bool.noConfusion (.piece hcomment (fun _ => rfl) (.ending hend))
  have hline : ∀ label push, Laid false [⟨"", label⟩, ⟨";", push⟩] "" := fun label push =>
    .piece .nil Bool.noConfusion (.piece (.separator rfl .nil) (fun _ => rfl) (.ending .nil))
  have hwhole : ∀ {first second : Bytes}, ∀ piece ∈ [LaidTree.mk first _, ⟨second, _⟩],
      piece.tree.IsWhole :=
    fun {_ _} => List.forall_mem_cons.mpr ⟨hlabel, List.forall_mem_singleton.mpr hpush⟩
  obtain ⟨htrees, hparse⟩ := parseTrees_laid (hlines _ _) hwhole
  exact ⟨htrees, hparse _ _ (hline _ _) hwhole rfl⟩

end EvmAssembly
