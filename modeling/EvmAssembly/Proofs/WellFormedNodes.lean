import EvmAssembly.Proofs.SourceReading

/-!
# Well-formed nodes

A node is well formed if it is one that a source can stand for: a plain operation, a push with as
many bytes as it takes or the name of a label, and names and paths that can be written. Every node
of a parsed source is well formed.
-/

namespace EvmAssembly

variable {place : Location} {node : Node} {nodes : List Node}

inductive Node.WellFormed : Node → Prop where
  | plain {operation : Operation} (known : operation ∈ Operation.table)
      (noPush : operation.encoding.hasImmediate = false) :
      WellFormed (.instruction ⟨operation, none⟩)
  | pushBytes {n : Nat} {value : Bytes} (positive : 1 ≤ n) (atMost : n ≤ 32)
      (length : value.length = n) : WellFormed (.instruction ⟨.pushOf n, some (.bytes value)⟩)
  | pushAddress {n : Nat} {name : Bytes} (positive : 1 ≤ n) (atMost : n ≤ 32)
      (isName : IsName name) : WellFormed (.instruction ⟨.pushOf n, some (.label name)⟩)
  | label {name : Bytes} (isName : IsName name) : WellFormed (.label name)
  | pushLabel {name : Bytes} (isName : IsName name) : WellFormed (.pushLabel name)
  | inclusion {kind : Inclusion} {path : Bytes} (noQuote : '"'.toUInt8 ∉ path)
      (noNewline : newline ∉ path) : WellFormed (.inclusion kind path)

theorem map_eq_ok {ε α β : Type} {f : α → β} {result : Except ε α} {b : β}
    (h : result.map f = .ok b) : ∃ a, result = .ok a ∧ f a = b := by
  cases result with
  | error e => cases h
  | ok a =>
    cases h
    exact ⟨a, rfl, rfl⟩

theorem map_eq_error {ε α β : Type} {f : α → β} {result : Except ε α} {e : ε}
    (h : result.map f = .error e) : result = .error e := by
  cases result with
  | error inner =>
    cases h
    rfl
  | ok a => cases h

theorem widen_length {raw bytes literal : Bytes} {width : Nat}
    (h : widen raw width literal = .ok bytes) : bytes.length = width := by
  unfold widen at h
  split at h
  · cases h
  · cases h
    rw [List.length_append, List.length_replicate]
    omega

theorem Number.immediate_length {number : Number} {width : Nat} {bytes : Bytes}
    (h : number.immediate width = .ok bytes) : bytes.length = width := by
  unfold Number.immediate at h
  split at h
  · exact widen_length h
  · cases h

theorem Operand.immediate_wellFormed {operand : Operand} {n : Nat} {immediate : Immediate}
    (hvalid : operand.Valid) (hlow : 1 ≤ n) (hhigh : n ≤ 32)
    (h : operand.immediate n = .ok immediate) :
    Node.WellFormed (.instruction ⟨.pushOf n, some immediate⟩) := by
  cases operand with
  | number value =>
    obtain ⟨bytes, hbytes, rfl⟩ := map_eq_ok h
    exact .pushBytes hlow hhigh (Number.immediate_length hbytes)
  | label name =>
    cases h
    exact .pushAddress hlow hhigh hvalid
  | selector signature =>
    obtain ⟨bytes, hbytes, rfl⟩ := map_eq_ok h
    exact .pushBytes hlow hhigh (widen_length hbytes)

/-- Arguments pass the check if they are written as the kinds ask, one for each. -/
theorem checkFrom_eq_ok {expected got position : Nat} {given : List Tree}
    {kinds : List ArgumentKind} {arguments : List Argument}
    (h : checkFrom expected got position given kinds = .ok arguments) :
    given.map Tree.rule = kinds.map ArgumentKind.rule ∧
      arguments = List.zipWith (fun kind tree => ⟨kind, tree.text⟩) kinds given := by
  fun_induction checkFrom expected got position given kinds generalizing arguments with
  | case1 =>
    cases h
    exact ⟨rfl, rfl⟩
  | case2 => cases h
  | case3 => cases h
  | case4 position tree trees kind kinds hrule ih =>
    obtain ⟨others, hothers, rfl⟩ := map_eq_ok h
    obtain ⟨hrules, rfl⟩ := ih hothers
    exact ⟨by simp [hrule, hrules], rfl⟩
  | case5 => cases h

theorem checkArguments_single {given : List Tree} {kind : ArgumentKind} {arguments : List Argument}
    (h : checkArguments given [kind] = .ok arguments) :
    ∃ tree, given = [tree] ∧ tree.rule = kind.rule ∧ arguments = [⟨kind, tree.text⟩] := by
  obtain ⟨hrules, rfl⟩ := checkFrom_eq_ok h
  obtain ⟨tree, rfl, hrule⟩ := List.map_eq_singleton_iff.mp hrules
  exact ⟨tree, rfl, hrule, rfl⟩

/-- A directive takes exactly one argument, of its own kind. -/
theorem Directive.build_eq_ok {name : Directive} {given : List Tree}
    (h : name.build given place = .ok node) :
    ∃ tree, given = [tree] ∧ tree.rule = name.takes.rule ∧ node = name.node tree.text := by
  unfold Directive.build at h
  split at h
  · cases h
  · cases h
  · rename_i argument others hchecked
    obtain ⟨tree, rfl, hrule, harguments⟩ := checkArguments_single hchecked
    cases harguments
    cases h
    exact ⟨tree, rfl, hrule, rfl⟩

/-- No kind of argument is written as a number. -/
theorem Number.tree_rule_ne (number : Number) (kind : ArgumentKind) :
    (number.tree place).rule ≠ kind.rule := by
  rcases number with ⟨_ | _ | _ | _, digits⟩ <;> cases kind <;> exact Rule.noConfusion

private theorem directiveNode_wellFormed {name : Directive} {actual : Actual}
    (hvalid : actual.Valid) (h : (actual.tree place).rule = name.takes.rule) :
    (name.node (actual.tree place).text).WellFormed := by
  cases actual with
  | string contents =>
    cases name with
    | inclusion kind =>
      obtain ⟨hquote, hnewline⟩ := all_inString.mp hvalid
      exact .inclusion hquote hnewline
    | push => cases h
  | number value => exact absurd h (value.tree_rule_ne name.takes)
  | label name' =>
    cases name with
    | inclusion kind => cases h
    | push => exact .pushLabel hvalid

/-- A node that is made of a well-formed statement is well formed. -/
theorem Statement.Valid.node_wellFormed {statement : Statement} (hvalid : statement.Valid)
    (h : statement.node place = .ok node) : node.WellFormed := by
  cases statement with
  | label name gap =>
    cases h
    exact .label hvalid.1
  | plain operation =>
    cases h
    exact .plain hvalid.1 hvalid.2
  | push operation gap operand =>
    obtain ⟨hop, -, hoperand⟩ := hvalid
    obtain ⟨n, hlow, hhigh, rfl⟩ := Operation.hasImmediate_iff_push.mp hop
    simp only [Statement.node, Operation.pushOf_width hhigh] at h
    split at h
    · rename_i immediate himmediate
      cases h
      exact Operand.immediate_wellFormed hoperand hlow hhigh himmediate
    · cases h
  | directive name pad actuals =>
    obtain ⟨tree, htrees, hrule, rfl⟩ := Directive.build_eq_ok h
    cases actuals with
    | none => cases htrees
    | some actuals =>
      obtain ⟨rfl, -⟩ := List.cons.inj htrees
      exact directiveNode_wellFormed (hvalid.2 actuals rfl).first hrule

theorem exists_of_mem_buildNodes {statements : List (Location × Statement)}
    (h : buildNodes statements = .ok nodes) (hmem : node ∈ nodes) :
    ∃ place statement, (place, statement) ∈ statements ∧ statement.node place = .ok node := by
  induction statements generalizing nodes with
  | nil =>
    cases h
    cases hmem
  | cons first rest ih =>
    obtain ⟨place, statement⟩ := first
    simp only [buildNodes] at h
    split at h
    · cases h
    · rename_i made hmade
      obtain ⟨others, hothers, rfl⟩ := map_eq_ok h
      rcases List.mem_cons.mp hmem with rfl | hmem
      · exact ⟨place, statement, by simp, hmade⟩
      · obtain ⟨there, other, hother, hnode⟩ := ih hothers hmem
        exact ⟨there, other, by simp [hother], hnode⟩

theorem parse_wellFormed {s : Bytes} (h : parse s = .ok nodes) :
    ∀ node ∈ nodes, node.WellFormed := by
  rcases fault_or_readsAs s with ⟨fault, -, -, herror⟩ | ⟨statements, hreads⟩
  · cases herror.symm.trans h
  · intro node hmem
    obtain ⟨place, statement, hstatement, hnode⟩ :=
      exists_of_mem_buildNodes (hreads.parse_eq.symm.trans h) hmem
    exact (hreads.mem hstatement).1.node_wellFormed hnode

end EvmAssembly
