import EvmAssembly.Proofs.CheckedBuild
import EvmAssembly.Proofs.LiteralValue

/-!
# Where errors are reported

Every error of a source is reported at a place of the source, and it is a lexical one only if the
source cannot be read. The place of each piece of a statement is the one behind a beginning of the
statement's text, so it is that of some byte of the source, or of its end.
-/

namespace EvmAssembly

variable {place : Location} {text s : Bytes}

/-- The line counts the newlines before a place, and the column the bytes since the last of them. -/
theorem Location.start_after (text : Bytes) : Location.start.after text =
    ⟨1 + text.count newline, 1 + (text.reverse.takeWhile (· ≠ newline)).length⟩ := by
  induction text using List.reverseRecOn with
  | nil => rfl
  | append_singleton text c ih =>
    rw [Location.after_append, ih, Location.after_cons, Location.after_nil, Location.step]
    by_cases hc : c = newline
    · simp [hc, Nat.add_assoc]
    · simp [hc, Nat.add_assoc]

/-- The place is the one behind some beginning of a text that begins at `place`. -/
def Within (place : Location) (text : Bytes) (there : Location) : Prop :=
  ∃ before behind, text = before ++ behind ∧ there = place.after before

theorem Within.extend {there : Location} (h : Within place text there) (behind : Bytes) :
    Within place (text ++ behind) there := by
  obtain ⟨first, last, rfl, hthere⟩ := h
  exact ⟨first, last ++ behind, List.append_assoc _ _ _, hthere⟩

theorem Within.shift {before : Bytes} {there : Location}
    (h : Within (place.after before) text there) : Within place (before ++ text) there := by
  obtain ⟨first, last, rfl, rfl⟩ := h
  exact ⟨before ++ first, last, (List.append_assoc _ _ _).symm, (Location.after_append _ _ _).symm⟩

theorem Within.here (place : Location) (text : Bytes) : Within place text place :=
  ⟨[], text, rfl, rfl⟩

private theorem Actual.tree_location (actual : Actual) (place : Location) :
    (actual.tree place).location = place := by
  cases actual <;> rfl

private theorem further_within {others : List FurtherActual} {tree : Tree}
    (h : tree ∈ FurtherActual.trees others place) :
    Within place (others.flatMap FurtherActual.text) tree.location := by
  induction others generalizing place with
  | nil => cases h
  | cons item others ih =>
    rw [List.flatMap_cons]
    rcases List.mem_cons.mp h with rfl | h
    · rw [Actual.tree_location, FurtherActual.text, List.append_assoc]
      exact ((Within.here _ _).shift).extend _
    · exact (ih h).shift

private theorem actuals_within {actuals : Actuals} {tree : Tree} (h : tree ∈ actuals.trees place) :
    Within place actuals.text tree.location := by
  rcases List.mem_cons.mp h with rfl | h
  · rw [Actual.tree_location]
    exact .here _ _
  · exact (further_within h).shift

/-- The arguments of a directive stand within it. -/
theorem argumentTrees_within {name : Directive} {pad : Bytes} {actuals : Option Actuals}
    {tree : Tree} (h : tree ∈ Statement.argumentTrees name pad actuals place) :
    Within place (Statement.directive name pad actuals).text tree.location := by
  cases actuals with
  | none => cases h
  | some actuals => exact ((actuals_within h).shift).extend _

/-- Arguments are refused at one of them, or at a place to be given later. -/
theorem checkFrom_error {expected got position : Nat} {given : List Tree}
    {kinds : List ArgumentKind} {error : ParseError}
    (h : checkFrom expected got position given kinds = .error error) :
    error.fault.kind ≠ .lexical ∧
      (error.location = .unknown ∨ ∃ tree ∈ given, error.location = tree.location) := by
  fun_induction checkFrom expected got position given kinds with
  | case1 => cases h
  | case2 =>
    cases h
    exact ⟨FaultKind.noConfusion, .inl rfl⟩
  | case3 position tree trees =>
    cases h
    exact ⟨FaultKind.noConfusion, .inr ⟨tree, by simp, rfl⟩⟩
  | case4 position tree trees kind kinds hrule ih =>
    cases hrest : checkFrom expected got (position + 1) trees kinds with
    | ok arguments =>
      rw [hrest] at h
      cases h
    | error inner =>
      rw [hrest] at h
      cases h
      obtain ⟨hkind, hplace⟩ := ih hrest
      refine ⟨hkind, hplace.imp_right ?_⟩
      rintro ⟨other, hother, hlocation⟩
      exact ⟨other, by simp [hother], hlocation⟩
  | case5 position tree trees =>
    cases h
    exact ⟨FaultKind.noConfusion, .inr ⟨tree, by simp, rfl⟩⟩

theorem Directive.build_error {name : Directive} {given : List Tree} {error : ParseError}
    (h : name.build given place = .error error) :
    error.fault.kind ≠ .lexical ∧
      (error.location = place ∨ ∃ tree ∈ given, error.location = tree.location) := by
  unfold Directive.build at h
  split at h
  · rename_i inner hinner
    cases h
    obtain ⟨hkind, hplace⟩ := checkFrom_error hinner
    rw [ParseError.pin]
    split
    · rename_i hknown
      refine ⟨hkind, .inr ?_⟩
      rcases hplace with hunknown | htree
      · rw [hunknown] at hknown
        exact absurd hknown (by decide)
      · exact htree
    · exact ⟨hkind, .inl rfl⟩
  · cases h
    exact ⟨FaultKind.noConfusion, .inl rfl⟩
  · cases h

/-- The only fault of an operand is its size. -/
theorem Operand.immediate_error {operand : Operand} {width : Nat} {fault : Fault}
    (hvalid : operand.Valid) (hwidth : 1 ≤ width) (h : operand.immediate width = .error fault) :
    fault = .immediateTooLarge operand.text width := by
  cases operand with
  | number value =>
    have herror := map_eq_error h
    obtain ⟨hfits, hlarge⟩ := Number.Valid.immediate_eq hvalid hwidth
    by_cases hvalue : value.Fits width
    · cases (hfits hvalue).2.symm.trans herror
    · cases (hlarge hvalue).symm.trans herror
      rfl
  | label name => cases h
  | selector signature =>
    have herror := map_eq_error h
    unfold widen at herror
    split at herror
    · cases herror
      rfl
    · cases herror

theorem Statement.Valid.node_error {statement : Statement} {error : ParseError}
    (hvalid : statement.Valid) (h : statement.node place = .error error) :
    error.fault.kind ≠ .lexical ∧ Within place statement.text error.location := by
  cases statement with
  | label name gap => cases h
  | plain operation => cases h
  | push operation gap operand =>
    obtain ⟨hop, -, hoperand⟩ := hvalid
    obtain ⟨n, hlow, hhigh, rfl⟩ := Operation.hasImmediate_iff_push.mp hop
    simp only [Statement.node, Operation.pushOf_width hhigh] at h
    split at h
    · cases h
    · rename_i fault hfault
      cases h
      rw [Operand.immediate_error hoperand hlow hfault]
      exact ⟨FaultKind.noConfusion, (Within.here _ _).shift⟩
  | directive name pad actuals =>
    obtain ⟨hkind, hplace⟩ := Directive.build_error h
    refine ⟨hkind, ?_⟩
    rcases hplace with hplace | ⟨tree, htree, hplace⟩
    · rw [hplace]
      exact .here _ _
    · rw [hplace]
      exact argumentTrees_within htree

theorem exists_of_buildNodes_error {statements : List (Location × Statement)} {error : ParseError}
    (h : buildNodes statements = .error error) :
    ∃ place statement, (place, statement) ∈ statements ∧ statement.node place = .error error := by
  induction statements with
  | nil => cases h
  | cons first rest ih =>
    obtain ⟨place, statement⟩ := first
    simp only [buildNodes] at h
    split at h
    · rename_i inner hinner
      cases h
      exact ⟨place, statement, by simp, hinner⟩
    · obtain ⟨there, other, hother, hnode⟩ := ih (map_eq_error h)
      exact ⟨there, other, by simp [hother], hnode⟩

theorem ReadsAs.parse_error {statements : List (Location × Statement)} {error : ParseError}
    (hreads : ReadsAs .start s statements) (h : parse s = .error error) :
    error.fault.kind ≠ .lexical ∧ Within .start s error.location := by
  rw [hreads.parse_eq] at h
  obtain ⟨place, statement, hmem, hnode⟩ := exists_of_buildNodes_error h
  obtain ⟨hvalid, before, behind, rfl, rfl⟩ := hreads.mem hmem
  obtain ⟨hkind, hplace⟩ := hvalid.node_error hnode
  exact ⟨hkind, (hplace.extend behind).shift⟩

theorem parse_error_within {error : ParseError} (h : parse s = .error error) :
    Within .start s error.location ∧
      (error.fault.kind = .lexical ↔ ∃ inner, parseTrees s = .error inner) := by
  rcases fault_or_readsAs s with ⟨fault, -, htrees, hparse⟩ | ⟨statements, hreads⟩
  · cases hparse.symm.trans h
    constructor
    · -- A fault keeps what is left of the source, which stands behind its place.
      exact ⟨_, _, (List.take_append_drop (fault.offset s) s).symm, rfl⟩
    · exact ⟨fun _ => ⟨_, htrees⟩, fun _ => rfl⟩
  · obtain ⟨hkind, hplace⟩ := hreads.parse_error h
    refine ⟨hplace, ?_⟩
    constructor
    · intro hlexical
      exact absurd hlexical hkind
    · rintro ⟨inner, herror⟩
      cases hreads.parseTrees_eq.symm.trans herror

theorem Within.line_column {there : Location} (h : Within .start s there) :
    ∃ offset ≤ s.length, there =
      ⟨1 + (s.take offset).count newline,
        1 + ((s.take offset).reverse.takeWhile (· ≠ newline)).length⟩ := by
  obtain ⟨before, behind, rfl, rfl⟩ := h
  refine ⟨before.length, by simp, ?_⟩
  rw [List.take_left, Location.start_after]

/-- The number of bytes that the mnemonic of a push has before its width. -/
theorem Operation.push_stem_length {operation : Operation} (hknown : operation ∈ table)
    (hpush : operation.encoding.hasImmediate = true) : 4 ≤ operation.mnemonic.length := by
  obtain ⟨n, -, -, rfl⟩ := hasImmediate_iff_push.mp ⟨hknown, hpush⟩
  change 4 ≤ (utf8 "push" ++ decimal n).length
  rw [List.length_append]
  exact Nat.le_add_right 4 _

/-- Building from trees with every check made gives what parsing gives, so no check ever fails. A
source that is not parsed has an error at the place of one of its bytes or at its end, the message
begins with this place, and the error is a lexical one exactly if there are no parse trees. -/
theorem parse_safe (s : Bytes) :
    (Checked.parse s = (parse s).mapError .reported ∧
      (∀ what, Checked.parse s ≠ .error (.breach what)) ∧
      ∀ operation ∈ Operation.table, operation.encoding.hasImmediate = true →
        4 ≤ operation.mnemonic.length) ∧
    ∀ error, parse s = .error error →
      (∃ offset ≤ s.length, error.location =
        ⟨1 + (s.take offset).count newline,
          1 + ((s.take offset).reverse.takeWhile (· ≠ newline)).length⟩) ∧
      error.location.known = true ∧
      error.message = "line " ++ decimal error.location.line ++ ", column " ++
        decimal error.location.column ++ ": " ++ error.fault.description ∧
      (error.fault.kind = .lexical ↔ ∃ inner, parseTrees s = .error inner) := by
  have hchecked := Checked.parse_eq s
  refine ⟨⟨hchecked, ?_, fun _ => Operation.push_stem_length⟩, ?_⟩
  · intro what hbreach
    rw [hchecked] at hbreach
    cases hparse : parse s with
    | ok nodes =>
      rw [hparse] at hbreach
      cases hbreach
    | error error =>
      rw [hparse] at hbreach
      cases hbreach
  · intro error h
    obtain ⟨hwithin, hlexical⟩ := parse_error_within h
    obtain ⟨offset, hoffset, hplace⟩ := hwithin.line_column
    have hknown : error.location.known = true := by
      rw [hplace]
      simp [Location.known]
    refine ⟨⟨offset, hoffset, hplace⟩, hknown, ?_, hlexical⟩
    rw [ParseError.message, if_pos hknown, Location.text, if_pos hknown]

/-- A literal in the second line that is too large for its push. -/
theorem parse_safe_second_line :
    parse "add\n push1 256 # x" = .error ⟨.immediateTooLarge "256" 1, ⟨2, 8⟩⟩ ∧
    (ParseError.mk (.immediateTooLarge "256" 1) ⟨2, 8⟩).message =
      "line 2, column 8: immediate 256 does not fit in 1 byte" ∧
    ¬ ∃ inner, parseTrees "add\n push1 256 # x" = .error inner := by
  have hend : ReadsAs ⟨2, 11⟩ " # x" [] := .ending rfl
  have hnumber : (Number.mk .decimal "256").Valid := ⟨by decide, by decide, nofun⟩
  have hknown := Operation.hasImmediate_iff_push.mpr ⟨1, by decide, by decide, rfl⟩
  have hpush : (Statement.push (.pushOf 1) " " (.number ⟨.decimal, "256"⟩)).Valid :=
    ⟨hknown, by decide, hnumber⟩
  have hadd : (Statement.plain ⟨"add", ⟨0x01, 0⟩⟩).Valid := by
    constructor <;> decide
  have hsecond : ReadsAs ⟨2, 2⟩ "push1 256 # x" _ := hend.statement hpush rfl
  have hbreak : layoutEnd false "\n " = some false := rfl
  have hlines := @ReadsAs.layout ⟨1, 4⟩ "push1 256 # x" _ "\n " hbreak hsecond
  have hreads : ReadsAs .start "add\n push1 256 # x" _ := hlines.statement hadd rfl
  have hparse : parse "add\n push1 256 # x" = .error ⟨.immediateTooLarge "256" 1, ⟨2, 8⟩⟩ :=
    hreads.parse_eq.trans rfl
  obtain ⟨-, -, hmessage, hlexical⟩ := (parse_safe _).2 _ hparse
  refine ⟨hparse, hmessage.trans (by decide +kernel), ?_⟩
  rw [← hlexical]
  nofun

end EvmAssembly
