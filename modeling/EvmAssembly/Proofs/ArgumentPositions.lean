import Mathlib.Order.Bounds.Basic
import Mathlib.Order.Nat
import EvmAssembly.Proofs.WellFormedNodes

/-!
# Arguments by position

The arguments of a directive are compared with the kinds it takes position by position. The first
argument that is not written as its kind decides, however many there are. Only if there is none do
the two numbers count: one argument too few is reported without a place, one too many at its own.
-/

namespace EvmAssembly

variable {given : List Tree} {kinds : List ArgumentKind} {tree : Tree} {kind : ArgumentKind}
  {expected got position i : Nat}

/-- How an argument is written: a label by its name, a path or a signature as a string. -/
inductive WrittenAs : ArgumentKind → Rule → Prop where
  | label : WrittenAs .label .label
  | path : WrittenAs .path .string
  | signature : WrittenAs .signature .string

theorem writtenAs_iff {rule : Rule} : WrittenAs kind rule ↔ rule = kind.rule := by
  constructor
  · intro h
    cases h <;> rfl
  · rintro rfl
    cases kind
    · exact .path
    · exact .label
    · exact .signature

instance (kind : ArgumentKind) (rule : Rule) : Decidable (WrittenAs kind rule) :=
  decidable_of_iff _ writtenAs_iff.symm

/-- There are an argument and a kind at this position, and the one is not written as the other. -/
def Misfits (given : List Tree) (kinds : List ArgumentKind) (i : Nat) : Prop :=
  ∃ tree ∈ given[i]?, ∃ kind ∈ kinds[i]?, ¬ WrittenAs kind tree.rule

instance (given : List Tree) (kinds : List ArgumentKind) (i : Nat) :
    Decidable (Misfits given kinds i) :=
  inferInstanceAs (Decidable (∃ tree ∈ given[i]?, _))

theorem misfits_zero : Misfits (tree :: given) (kind :: kinds) 0 ↔ tree.rule ≠ kind.rule := by
  simp [Misfits, writtenAs_iff]

theorem misfits_succ :
    Misfits (tree :: given) (kind :: kinds) (i + 1) ↔ Misfits given kinds i := by
  simp [Misfits]

/-- The arguments that are made of trees and kinds at the same positions. -/
def argumentsOf (kinds : List ArgumentKind) (given : List Tree) : List Argument :=
  (kinds.zip given).map fun (kind, tree) => ⟨kind, tree.text⟩

theorem argumentsOf_kind (h : kinds.length ≤ given.length) :
    (argumentsOf kinds given).map Argument.kind = kinds := by
  rw [argumentsOf, List.map_map]
  exact List.map_fst_zip h

theorem argumentsOf_value (h : given.length ≤ kinds.length) :
    (argumentsOf kinds given).map Argument.value = given.map Tree.text := by
  calc (argumentsOf kinds given).map Argument.value
    _ = ((kinds.zip given).map Prod.snd).map Tree.text := by
      rw [argumentsOf, List.map_map, List.map_map]
      rfl
    _ = given.map Tree.text := by rw [List.map_snd_zip h]

/-- The check goes on behind the positions that fit, with the arguments that it has made of them. -/
theorem checkFrom_behind (hgiven : i ≤ given.length) (hkinds : i ≤ kinds.length)
    (hfits : ∀ j < i, ¬ Misfits given kinds j) :
    checkFrom expected got position given kinds =
      (checkFrom expected got (position + i) (given.drop i) (kinds.drop i)).map
        (argumentsOf (kinds.take i) (given.take i) ++ ·) := by
  induction i generalizing given kinds position with
  | zero =>
    rw [Nat.add_zero, List.drop_zero, List.drop_zero]
    cases checkFrom expected got position given kinds <;> rfl
  | succ i ih =>
    cases given with
    | nil => cases hgiven
    | cons tree given =>
      cases kinds with
      | nil => cases hkinds
      | cons kind kinds =>
        have hrule : tree.rule = kind.rule :=
          not_not.mp (misfits_zero.not.mp (hfits 0 (Nat.zero_lt_succ i)))
        have hrest : ∀ j < i, ¬ Misfits given kinds j := by
          intro j hj
          exact misfits_succ.not.mp (hfits (j + 1) (Nat.succ_lt_succ hj))
        have hstep := @ih given kinds (position + 1) (Nat.le_of_succ_le_succ hgiven)
          (Nat.le_of_succ_le_succ hkinds) hrest
        rw [checkFrom, if_pos hrule, hstep, Nat.add_right_comm, Nat.add_assoc]
        simp only [List.drop_succ_cons]
        cases checkFrom expected got (position + (i + 1)) (given.drop i) (kinds.drop i) <;> rfl

/-- Where everything before a position fits and the position does not, its argument is reported. -/
theorem checkFrom_misfit (htree : given[i]? = some tree) (hkind : kinds[i]? = some kind)
    (hrule : tree.rule ≠ kind.rule) (hfits : ∀ j < i, ¬ Misfits given kinds j) :
    checkFrom expected got position given kinds =
      .error ⟨.argumentType (position + i) kind.name tree.rule.name, tree.location⟩ := by
  obtain ⟨hgiven, rfl⟩ := List.getElem?_eq_some_iff.mp htree
  obtain ⟨hkinds, rfl⟩ := List.getElem?_eq_some_iff.mp hkind
  rw [checkFrom_behind (Nat.le_of_lt hgiven) (Nat.le_of_lt hkinds) hfits,
    List.drop_eq_getElem_cons hgiven, List.drop_eq_getElem_cons hkinds, checkFrom, if_neg hrule]
  rfl

/-- The arguments are decided by position: the first that does not fit is reported as such, whatever
the numbers; then a missing one without a place; then the first that is too many, at its place. If
nothing is wrong, there is one argument for each position. -/
theorem checkArguments_by_position (given : List Tree) (kinds : List ArgumentKind) :
    (∀ i, IsLeast {i | Misfits given kinds i} i →
      ∃ tree kind error, given[i]? = some tree ∧ kinds[i]? = some kind ∧
        checkArguments given kinds = .error error ∧ error.fault.kind = .argumentType ∧
        error.fault.position = i ∧ error.location = tree.location ∧
        error.fault.detail = "expected " ++ kind.name ++ ", found " ++ tree.rule.name) ∧
    ((∀ i, ¬ Misfits given kinds i) →
      (given.length < kinds.length →
        checkArguments given kinds =
          .error ⟨.missingArgument kinds.length given.length, .unknown⟩) ∧
      (kinds.length < given.length →
        ∃ surplus, given[kinds.length]? = some surplus ∧
          checkArguments given kinds =
            .error ⟨.extraArgument kinds.length given.length, surplus.location⟩) ∧
      (given.length = kinds.length →
        ∃ arguments, checkArguments given kinds = .ok arguments ∧
          arguments.map Argument.kind = kinds ∧
          arguments.map Argument.value = given.map Tree.text)) := by
  constructor
  · rintro i ⟨⟨tree, htree, kind, hkind, hrule⟩, hleast⟩
    have hfits : ∀ j < i, ¬ Misfits given kinds j := by
      intro j hj hmisfits
      exact Nat.not_le.mpr hj (hleast hmisfits)
    have hcheck : checkArguments given kinds =
        .error ⟨.argumentType (0 + i) kind.name tree.rule.name, tree.location⟩ :=
      checkFrom_misfit htree hkind (writtenAs_iff.not.mp hrule) hfits
    rw [Nat.zero_add] at hcheck
    exact ⟨tree, kind, _, htree, hkind, hcheck, rfl, rfl, rfl, rfl⟩
  · intro hfits
    have hbehind {i : Nat} (hgiven : i ≤ given.length) (hkinds : i ≤ kinds.length) :
        checkArguments given kinds =
          (checkFrom kinds.length given.length (0 + i) (given.drop i) (kinds.drop i)).map
            (argumentsOf (kinds.take i) (given.take i) ++ ·) :=
      checkFrom_behind hgiven hkinds fun j _ => hfits j
    refine ⟨?_, ?_, ?_⟩
    · intro hfewer
      rw [hbehind (le_refl _) (Nat.le_of_lt hfewer), List.drop_length,
        List.drop_eq_getElem_cons hfewer]
      rfl
    · intro hmore
      refine ⟨_, List.getElem?_eq_getElem hmore, ?_⟩
      rw [hbehind (Nat.le_of_lt hmore) (le_refl _), List.drop_length,
        List.drop_eq_getElem_cons hmore]
      rfl
    · intro hsame
      refine ⟨argumentsOf kinds given, ?_, argumentsOf_kind hsame.ge, argumentsOf_value hsame.le⟩
      rw [hbehind hsame.ge (le_refl _), List.drop_length, List.take_length, ← hsame,
        List.drop_length, List.take_length]
      simp only [checkFrom, Except.map, List.append_nil]

/-- A number where a path is taken is reported although an argument is missing behind it; without
it, the missing one is, the one too many, or nothing. -/
theorem checkArguments_by_position_each :
    (∃ error, checkArguments [.leaf .label "a" ⟨1, 7⟩, .leaf .hex "0x44" ⟨1, 10⟩]
        [.label, .path, .signature] = .error error ∧ error.fault.position = 1 ∧
      error.fault.detail = "expected path, found hex literal" ∧ error.location = ⟨1, 10⟩) ∧
    checkArguments [.leaf .label "a" ⟨1, 7⟩] [.label, .path, .signature] =
      .error ⟨.missingArgument 3 1, .unknown⟩ ∧
    (∃ surplus, [Tree.leaf .string "a" ⟨1, 9⟩, .leaf .hex "0x44" ⟨1, 14⟩][1]? = some surplus ∧
      checkArguments [.leaf .string "a" ⟨1, 9⟩, .leaf .hex "0x44" ⟨1, 14⟩] [.path] =
        .error ⟨.extraArgument 1 2, surplus.location⟩) ∧
    ∃ arguments, checkArguments [.leaf .label "a" ⟨1, 7⟩, .leaf .string "f()" ⟨1, 10⟩]
        [.label, .signature] = .ok arguments ∧
      arguments.map Argument.kind = [.label, .signature] ∧
      arguments.map Argument.value = [utf8 "a", utf8 "f()"] := by
  have hnone {given : List Tree} {kinds : List ArgumentKind}
      (h : ∀ i < kinds.length, ¬ Misfits given kinds i) : ∀ i, ¬ Misfits given kinds i := by
    rintro i ⟨tree, htree, kind, hkind, hrule⟩
    have hi := (List.getElem?_eq_some_iff.mp hkind).1
    exact h i hi ⟨tree, htree, kind, hkind, hrule⟩
  refine ⟨?_, ?_, ?_, ?_⟩
  · have hfirst : IsLeast {i | Misfits [.leaf .label "a" ⟨1, 7⟩, .leaf .hex "0x44" ⟨1, 10⟩]
        [.label, .path, .signature] i} 1 := by
      refine ⟨by decide, fun j hj => Nat.one_le_iff_ne_zero.mpr ?_⟩
      rintro rfl
      exact absurd hj (by decide)
    obtain ⟨tree, kind, error, htree, hkind, hcheck, -, hposition, hplace, hdetail⟩ :=
      (checkArguments_by_position _ _).1 1 hfirst
    cases htree
    cases hkind
    exact ⟨error, hcheck, hposition, hdetail.trans (by decide), hplace⟩
  · exact ((checkArguments_by_position _ _).2 (hnone (by decide))).1 (by decide)
  · exact ((checkArguments_by_position [.leaf .string "a" ⟨1, 9⟩, .leaf .hex "0x44" ⟨1, 14⟩]
      [.path]).2 (hnone (by decide))).2.1 (by decide)
  · exact ((checkArguments_by_position _ _).2 (hnone (by decide))).2.2 rfl

end EvmAssembly
