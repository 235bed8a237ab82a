import EvmAssembly.StatementScan

/-!
# Reading a source

Statements stand between layout: blanks, separators, and comments that run to the end of their
line. Behind each statement, blanks and a comment apart, a separator or the end has to follow.
-/

namespace EvmAssembly

/-- The layout that a text begins with; the flag says whether it begins within a comment. -/
def layoutText : Bool → Bytes → Bytes
  | _, [] => []
  | true, c :: rest => c :: layoutText (c ≠ newline) rest
  | false, c :: rest =>
    if c = '#'.toUInt8 then c :: layoutText true rest
    else if isBlank c || isSeparator c then c :: layoutText false rest
    else []

/-- What is left of a text behind its layout. -/
def skipLayout : Bool → Bytes → Bytes
  | _, [] => []
  | true, c :: rest => skipLayout (c ≠ newline) rest
  | false, c :: rest =>
    if c = '#'.toUInt8 then skipLayout true rest
    else if isBlank c || isSeparator c then skipLayout false rest
    else c :: rest

/-- Skips the blanks and the comment that may stand behind a statement. -/
def skipLine (s : Bytes) : Bytes :=
  let rest := s.dropWhile isBlank
  if startsWith (· = '#'.toUInt8) rest then rest.dropWhile (· ≠ newline) else rest

/-- The rest behind a statement is in order. -/
def endsStatement (s : Bytes) : Bool := skipLine s = [] || startsWith isSeparator (skipLine s)

theorem layoutText_append_skipLayout (comment : Bool) (s : Bytes) :
    layoutText comment s ++ skipLayout comment s = s := by
  induction s generalizing comment with
  | nil => simp [layoutText, skipLayout]
  | cons c s ih =>
    cases comment with
    | true => simp [layoutText, skipLayout, ih]
    | false =>
      simp only [layoutText, skipLayout]
      split
      · simp [ih]
      · split
        · simp [ih]
        · rfl

/-- Reads a whole source. -/
def scanSource (s : Bytes) : Scan Source :=
  let rest := skipLayout false s
  let layout := layoutText false s
  if rest = [] then .ok ⟨[], layout⟩
  else
    match _read : scanStatement rest with
    | .error fault => .error fault
    | .ok (statement, behind) =>
      if endsStatement behind then do
        let source ← scanSource behind
        return ⟨⟨layout, statement⟩ :: source.entries, source.ending⟩
      else fail (.expected .separator) (skipLine behind)
termination_by s.length
decreasing_by
  have h₁ := scanStatement_length_lt _read
  have h₂ := congrArg List.length (layoutText_append_skipLayout false s)
  simp only [List.length_append] at h₂
  change _ < (skipLayout false s).length at h₁
  omega

theorem scanSource_text {s : Bytes} {source : Source} (h : scanSource s = .ok source) :
    s = source.text := by
  fun_induction scanSource s generalizing source with
  | case1 s rest layout =>
    rename_i hrest
    cases h
    have hs := layoutText_append_skipLayout false s
    change layout ++ rest = s at hs
    simpa [Source.text, hrest] using hs.symm
  | case2 => cases h
  | case3 s rest layout hrest statement behind hread hend =>
    rename_i ih
    obtain ⟨more, hmore, h⟩ := scan_bind_eq_ok.mp h
    cases h
    calc s = layout ++ rest := (layoutText_append_skipLayout false s).symm
      _ = layout ++ (statement.text ++ behind) := by rw [← scanStatement_text hread]
      _ = layout ++ (statement.text ++ more.text) := by rw [← ih hmore]
      _ = _ := by simp [Source.text, Entry.text]
  | case4 => simp at h

end EvmAssembly
