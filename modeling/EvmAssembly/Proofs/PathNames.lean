import EvmAssembly.ProgramNode
import EvmAssembly.Proofs.CharacterRuns

/-!
# Paths by their names

Paths are compared by their root and their names. This is the same as comparing their texts with
every run of slashes made one slash.
-/

namespace EvmAssembly

variable {c : UInt8} {rest : Bytes}

/-- Every run of slashes becomes one slash: a slash goes if another one is next. -/
def collapseSlashes : Bytes → Bytes
  | [] => []
  | c :: rest =>
    if c = '/'.toUInt8 ∧ startsWith (· = '/'.toUInt8) rest = true then collapseSlashes rest
    else c :: collapseSlashes rest

theorem exists_pathNames (path : Bytes) : ∃ name names, (pathNames path).2 = name :: names := by
  have hpieces := List.splitOn_ne_nil '/'.toUInt8 path
  apply List.exists_cons_of_ne_nil
  simp [pathNames, hpieces]

theorem pathNames_slash (rest : Bytes) :
    pathNames ('/'.toUInt8 :: rest) = (true, (pathNames rest).2) := by
  obtain ⟨piece, pieces, hpieces⟩ :=
    List.exists_cons_of_ne_nil (List.splitOn_ne_nil '/'.toUInt8 rest)
  simp [pathNames, List.splitOn_cons_eq_if_modifyHead, hpieces]

/-- Any other byte is a name by itself if a slash is next; if not, it belongs to the first name. -/
theorem pathNames_cons (hc : c ≠ '/'.toUInt8) (rest : Bytes) :
    pathNames (c :: rest) =
      (false, if (pathNames rest).1 then [c] :: (pathNames rest).2
        else (pathNames rest).2.modifyHead (c :: ·)) := by
  cases rest with
  | nil => simp [pathNames, List.splitOn_cons_eq_if_modifyHead, hc]
  | cons d rest =>
    obtain ⟨piece, pieces, hpieces⟩ :=
      List.exists_cons_of_ne_nil (List.splitOn_ne_nil '/'.toUInt8 rest)
    by_cases hd : d = '/'.toUInt8
    · simp [pathNames, List.splitOn_cons_eq_if_modifyHead, hpieces, hc, hd]
    · cases pieces <;> simp [pathNames, List.splitOn_cons_eq_if_modifyHead, hpieces, hc, hd]

/-- The names of a path stay the same when its slashes are collapsed. -/
theorem pathNames_collapseSlashes (path : Bytes) :
    pathNames (collapseSlashes path) = pathNames path := by
  fun_induction collapseSlashes path with
  | case1 => rfl
  | case2 c rest hslashes ih =>
    obtain ⟨rfl, hrest⟩ := hslashes
    have hroot : (pathNames rest).1 = true := hrest
    rw [ih, pathNames_slash, ← hroot]
  | case3 c rest hslashes ih =>
    by_cases hc : c = '/'.toUInt8
    · rw [hc, pathNames_slash, pathNames_slash, ih]
    · rw [pathNames_cons hc, pathNames_cons hc, ih]

/-- The text of a root and names, with one slash between any two names. -/
def pathText (names : Bool × List Bytes) : Bytes :=
  (if names.1 then ['/'.toUInt8] else []) ++ ['/'.toUInt8].intercalate names.2

/-- A collapsed path is told by its names. -/
theorem pathText_pathNames (path : Bytes) : pathText (pathNames path) = collapseSlashes path := by
  fun_induction collapseSlashes path with
  | case1 => rfl
  | case2 c rest hslashes ih =>
    obtain ⟨rfl, hrest⟩ := hslashes
    have hroot : (pathNames rest).1 = true := hrest
    rw [pathNames_slash, ← hroot, ih]
  | case3 c rest hslashes ih =>
    obtain ⟨name, names, hnames⟩ := exists_pathNames rest
    have hroot : (pathNames rest).1 = startsWith (· = '/'.toUInt8) rest := rfl
    by_cases hc : c = '/'.toUInt8
    · have hrest : (pathNames rest).1 = false := by
        rw [hroot]
        exact Bool.eq_false_iff.mpr fun hstarts => hslashes ⟨hc, hstarts⟩
      rw [← ih, hc, pathNames_slash, pathText, pathText, hrest]
      rfl
    · rw [← ih, pathNames_cons hc, pathText, pathText, hnames]
      cases (pathNames rest).1 with
      | true => rw [if_pos rfl, if_pos rfl, List.intercalate_cons_cons]; rfl
      | false => cases names <;> simp [List.intercalate_cons_cons]

theorem samePath_iff (first second : Bytes) :
    samePath first second = true ↔ collapseSlashes first = collapseSlashes second := by
  rw [samePath, decide_eq_true_eq]
  constructor
  · intro h
    rw [← pathText_pathNames, h, pathText_pathNames]
  · intro h
    rw [← pathNames_collapseSlashes, h, pathNames_collapseSlashes]

/-- A slash at the end counts, and so does one at the beginning. -/
example : samePath "//a///b" "/a/b" = true ∧ samePath "/a/b/" "/a/b" = false ∧
    samePath "a/b" "/a/b" = false ∧ samePath "" "/" = false := by
  decide

end EvmAssembly
