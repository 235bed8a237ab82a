import EvmAssembly.Proofs.SourcePlaces
import EvmAssembly.Proofs.SourceReading

/-!
# Moving statements

A statement stands on one line. If it is moved by lines and columns, then so are all pieces of its
tree and the places of its errors, and nothing else changes. Text of several lines can be moved by
whole lines.
-/

namespace EvmAssembly

variable {place : Location} {text : Bytes} {lines columns : Nat}

def Location.moved (lines columns : Nat) (place : Location) : Location :=
  ⟨place.line + lines, place.column + columns⟩

def ParseError.moved (lines columns : Nat) (error : ParseError) : ParseError :=
  ⟨error.fault, error.location.moved lines columns⟩

/-- A tree with all its pieces moved. -/
def Tree.moved (lines columns : Nat) : Tree → Tree
  | ⟨rule, text, location, inner⟩ =>
    ⟨rule, text, location.moved lines columns, movedAll inner⟩
where
  movedAll : List Tree → List Tree
    | [] => []
    | tree :: trees => tree.moved lines columns :: movedAll trees

theorem Tree.movedAll_eq_map (trees : List Tree) :
    Tree.moved.movedAll lines columns trees = trees.map (Tree.moved lines columns) := by
  induction trees with
  | nil => rfl
  | cons tree trees ih => rw [Tree.moved.movedAll, ih, List.map_cons]

@[simp] theorem Tree.moved_leaf (rule : Rule) (text : Bytes) (place : Location) :
    (Tree.leaf rule text place).moved lines columns =
      .leaf rule text (place.moved lines columns) := rfl

@[simp] theorem Tree.moved_mk (rule : Rule) (text : Bytes) (place : Location) (inner : List Tree) :
    (Tree.mk rule text place inner).moved lines columns =
      ⟨rule, text, place.moved lines columns, inner.map (Tree.moved lines columns)⟩ := by
  rw [Tree.moved, Tree.movedAll_eq_map]

@[simp] theorem Tree.moved_location (tree : Tree) :
    (tree.moved lines columns).location = tree.location.moved lines columns := by
  cases tree
  rfl

@[simp] theorem Tree.moved_rule (tree : Tree) : (tree.moved lines columns).rule = tree.rule := by
  cases tree
  rfl

@[simp] theorem Tree.moved_text (tree : Tree) : (tree.moved lines columns).text = tree.text := by
  cases tree
  rfl

namespace Location

theorem moved_known (h : place.known = true) : (place.moved lines columns).known = true := by
  have hline : place.line ≠ 0 := of_decide_eq_true h
  have hmoved : place.line + lines ≠ 0 := by omega
  exact decide_eq_true hmoved

/-- Within a line, going on and moving can be exchanged. -/
theorem after_moved (h : newline ∉ text) :
    (place.moved lines columns).after text = (place.after text).moved lines columns := by
  rw [after_of_notMem h, after_of_notMem h, moved, moved]
  simp only [mk.injEq, true_and]
  omega

/-- A text of several lines can be moved by whole lines. -/
theorem after_moved_lines (place : Location) (text : Bytes) :
    (place.moved lines 0).after text = (place.after text).moved lines 0 := by
  induction text generalizing place with
  | nil => rfl
  | cons c text ih =>
    have hstep : (place.moved lines 0).step c = (place.step c).moved lines 0 := by
      by_cases hc : c = newline
      · rw [step, step, if_pos hc, if_pos hc]
        exact congrArg (mk · 1) (Nat.add_right_comm _ _ _)
      · rw [step, step, if_neg hc, if_neg hc]
        rfl
    rw [after_cons, after_cons, hstep, ih]

/-- Behind a text, a source begins at a place that is moved by the lines of the text and by the
columns of its last line. -/
theorem start_after_eq_moved (text : Bytes) : start.after text =
    start.moved (text.count newline) (text.reverse.takeWhile (· ≠ newline)).length :=
  start_after text

end Location

theorem Operand.tree_moved (operand : Operand) (place : Location) :
    operand.tree (place.moved lines columns) = (operand.tree place).moved lines columns := by
  cases operand with
  | number value => rfl
  | label name => rfl
  | selector signature =>
    have hopening : newline ∉ selectorOpening := by decide
    simp [Operand.tree, Location.after_moved hopening]

theorem Actual.tree_moved (actual : Actual) (place : Location) :
    actual.tree (place.moved lines columns) = (actual.tree place).moved lines columns := by
  cases actual <;> rfl

theorem FurtherActual.trees_moved {others : List FurtherActual}
    (h : newline ∉ others.flatMap FurtherActual.text) (place : Location) :
    FurtherActual.trees others (place.moved lines columns) =
      (FurtherActual.trees others place).map (Tree.moved lines columns) := by
  induction others generalizing place with
  | nil => rfl
  | cons item others ih =>
    rw [List.flatMap_cons, List.mem_append, not_or] at h
    have hlead : newline ∉ ','.toUInt8 :: item.lead := fun hmem =>
      h.1 (by simp only [FurtherActual.text, List.mem_append]; exact .inl (.inl hmem))
    rw [FurtherActual.trees, FurtherActual.trees, Location.after_moved hlead,
      Location.after_moved h.1, Actual.tree_moved, ih h.2, List.map_cons]

theorem Actuals.trees_moved {actuals : Actuals} (h : newline ∉ actuals.text) (place : Location) :
    actuals.trees (place.moved lines columns) =
      (actuals.trees place).map (Tree.moved lines columns) := by
  rw [Actuals.text, List.mem_append, not_or] at h
  rw [Actuals.trees, Actuals.trees, Location.after_moved h.1, Actual.tree_moved,
    FurtherActual.trees_moved h.2, List.map_cons]

namespace Statement

theorem argumentTrees_moved {name : Directive} {pad : Bytes} {actuals : Option Actuals}
    (h : newline ∉ (Statement.directive name pad actuals).text) (place : Location) :
    argumentTrees name pad actuals (place.moved lines columns) =
      (argumentTrees name pad actuals place).map (Tree.moved lines columns) := by
  cases actuals with
  | none => rfl
  | some actuals =>
    simp only [Statement.text, actualsText, List.mem_append, not_or] at h
    have hopening : newline ∉ directiveOpening name ++ pad := by
      rw [List.mem_append, not_or]
      exact h.1.1
    rw [argumentTrees, argumentTrees, Location.after_moved hopening, Actuals.trees_moved h.1.2]

theorem operandPlace_moved {operation : Operation} {gap : Bytes} {operand : Operand}
    (h : newline ∉ (Statement.push operation gap operand).text) (place : Location) :
    operandPlace operation gap (place.moved lines columns) =
      (operandPlace operation gap place).moved lines columns := by
  rw [Statement.text, List.mem_append, not_or] at h
  exact Location.after_moved h.1

theorem tree_moved {statement : Statement} (h : newline ∉ statement.text) (place : Location) :
    statement.tree (place.moved lines columns) = (statement.tree place).moved lines columns := by
  cases statement with
  | label name gap => simp [Statement.tree]
  | plain operation => rfl
  | push operation gap operand =>
    simp [Statement.tree, operandPlace_moved h, Operand.tree_moved]
  | directive name pad actuals => simp [Statement.tree, argumentTrees_moved h]

end Statement

/-- An error of the arguments is moved with them, unless it has no place yet. -/
private theorem checkFrom_moved {expected got position : Nat} {given : List Tree}
    {kinds : List ArgumentKind} (h : ∀ tree ∈ given, tree.location.known = true) :
    checkFrom expected got position (given.map (Tree.moved lines columns)) kinds =
      (checkFrom expected got position given kinds).mapError fun error =>
        if error.location.known then error.moved lines columns else error := by
  fun_induction checkFrom expected got position given kinds with
  | case1 => rfl
  | case2 => rfl
  | case3 position tree trees =>
    have hknown := h tree (by simp)
    simp [checkFrom, Except.mapError, ParseError.moved, hknown]
  | case4 position tree trees kind kinds hrule ih =>
    have hrest := ih fun other hother => h other (by simp [hother])
    rw [List.map_cons, checkFrom, Tree.moved_rule, if_pos hrule, hrest, Tree.moved_text]
    cases checkFrom expected got (position + 1) trees kinds <;> rfl
  | case5 position tree trees kind kinds hrule =>
    have hknown := h tree (by simp)
    simp [checkFrom, Except.mapError, ParseError.moved, hknown, hrule]

theorem ParseError.pin_moved (error : ParseError) (place : Location) :
    (if error.location.known then error.moved lines columns else error).pin
        (place.moved lines columns) = (error.pin place).moved lines columns := by
  cases hknown : error.location.known with
  | true => simp [ParseError.pin, ParseError.moved, hknown, Location.moved_known hknown]
  | false => simp [ParseError.pin, ParseError.moved, hknown]

theorem Directive.build_moved {name : Directive} {given : List Tree}
    (h : ∀ tree ∈ given, tree.location.known = true) (place : Location) :
    name.build (given.map (Tree.moved lines columns)) (place.moved lines columns) =
      (name.build given place).mapError (ParseError.moved lines columns) := by
  rw [Directive.build, Directive.build, checkArguments, checkArguments, List.length_map,
    checkFrom_moved h]
  cases checkFrom [name.takes].length given.length 0 given [name.takes] with
  | error error => exact congrArg Except.error (ParseError.pin_moved error place)
  | ok arguments => cases arguments <;> rfl

theorem Statement.node_moved {statement : Statement} (h : newline ∉ statement.text)
    (hplace : place.known = true) : statement.node (place.moved lines columns) =
      (statement.node place).mapError (ParseError.moved lines columns) := by
  cases statement with
  | label name gap => rfl
  | plain operation => rfl
  | push operation gap operand =>
    rw [Statement.node, Statement.node, Statement.operandPlace_moved h]
    cases operand.immediate operation.encoding.width.toNat <;> rfl
  | directive name pad actuals =>
    have hknown : ∀ tree ∈ argumentTrees name pad actuals place, tree.location.known = true := by
      intro tree htree
      obtain ⟨before, -, -, hthere⟩ := argumentTrees_within htree
      rw [hthere]
      exact Location.after_known hplace before
    rw [Statement.node, Statement.node, Statement.argumentTrees_moved h]
    exact Directive.build_moved hknown place

/-- Statements with their places, all moved by whole lines. -/
def movedLines (lines : Nat) (statements : List (Location × Statement)) :
    List (Location × Statement) :=
  statements.map fun (place, statement) => (place.moved lines 0, statement)

theorem Entry.located_moved (entries : List Entry) (place : Location) :
    Entry.located entries (place.moved lines 0) =
      movedLines lines (Entry.located entries place) := by
  induction entries generalizing place with
  | nil => rfl
  | cons entry entries ih =>
    rw [Entry.located, Entry.located, Location.after_moved_lines, Location.after_moved_lines, ih]
    rfl

theorem ReadsAs.moved {s : Bytes} {statements : List (Location × Statement)}
    (h : ReadsAs place s statements) (lines : Nat) :
    ReadsAs (place.moved lines 0) s (movedLines lines statements) := by
  obtain ⟨source, hvalid, htext, rfl⟩ := h
  exact ⟨source, hvalid, htext, Entry.located_moved _ _⟩

/-- If the error of each statement changes with its place, then so does the error of all. -/
theorem buildNodes_map {α : Type} {f g : ParseError → α} {move : Location → Location}
    {statements : List (Location × Statement)}
    (h : ∀ place statement, (place, statement) ∈ statements →
      (statement.node (move place)).mapError f = (statement.node place).mapError g) :
    (buildNodes (statements.map fun (place, statement) => (move place, statement))).mapError f =
      (buildNodes statements).mapError g := by
  have hcons : ∀ (f : ParseError → α) (place : Location) (statement : Statement)
      (rest : List (Location × Statement)),
      (buildNodes ((place, statement) :: rest)).mapError f = (do
        let node ← (statement.node place).mapError f
        let nodes ← (buildNodes rest).mapError f
        return node :: nodes) := by
    intro f place statement rest
    rw [buildNodes]
    cases statement.node place with
    | error error => rfl
    | ok node => cases buildNodes rest <;> rfl
  induction statements with
  | nil => rfl
  | cons first rest ih =>
    obtain ⟨place, statement⟩ := first
    have hrest := ih fun there other hother => h there other (by simp [hother])
    rw [List.map_cons, hcons, hcons, h place statement (by simp), hrest]

theorem buildNodes_movedLines {statements : List (Location × Statement)}
    (h : ∀ place statement, (place, statement) ∈ statements →
      newline ∉ statement.text ∧ place.known = true) :
    buildNodes (movedLines lines statements) =
      (buildNodes statements).mapError (ParseError.moved lines 0) := by
  have hid : ∀ {α : Type} (result : Except ParseError α), result.mapError id = result := by
    intro α result
    cases result <;> rfl
  rw [← hid (buildNodes (movedLines lines statements))]
  apply buildNodes_map
  intro place statement hmem
  obtain ⟨hnewline, hplace⟩ := h place statement hmem
  rw [hid, Statement.node_moved hnewline hplace]

/-- The statements of a source have places and stand on one line each. -/
theorem ReadsAs.one_line {s : Bytes} {statements : List (Location × Statement)}
    (h : ReadsAs place s statements) (hplace : place.known = true) (there : Location)
    (statement : Statement) (hmem : (there, statement) ∈ statements) :
    newline ∉ statement.text ∧ there.known = true := by
  obtain ⟨hvalid, before, -, -, rfl⟩ := h.mem hmem
  exact ⟨hvalid.newline_notMem, Location.after_known hplace before⟩

end EvmAssembly
