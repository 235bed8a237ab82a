import EvmAssembly.Proofs.StatementGrammar
import EvmAssembly.SourceScan

/-!
# Whole sources

A source is well formed if its statements are, if only layout stands between them, and if what
stands behind each of them may follow a statement. A text is read as a source exactly when it is the
text of a well-formed one, and that source is the result.
-/

namespace EvmAssembly

variable {s rest : Bytes}

/-- Whether a layout ends within a comment, given whether it begins within one; nothing if the text
is no layout. -/
def layoutEnd : Bool → Bytes → Option Bool
  | comment, [] => some comment
  | true, c :: rest => layoutEnd (c ≠ newline) rest
  | false, c :: rest =>
    if c = '#'.toUInt8 then layoutEnd true rest
    else if isBlank c || isSeparator c then layoutEnd false rest
    else none

inductive Source.Valid : Source → Prop where
  | ending {layout : Bytes} (layoutOnly : (layoutEnd false layout).isSome = true) :
      Valid ⟨[], layout⟩
  | entry {layout : Bytes} {statement : Statement} {source : Source}
      (closed : layoutEnd false layout = some false) (valid : statement.Valid)
      (follows : mayFollow source.text = true) (rest : source.Valid) :
      Valid ⟨⟨layout, statement⟩ :: source.entries, source.ending⟩

/-- The characters that layout begins with. -/
def beginsLayout (c : UInt8) : Bool := c = '#'.toUInt8 || isBlank c || isSeparator c

theorem beginsLayout_of_begins {c : UInt8} (h : (c = '%'.toUInt8 || isNameStart c) = true) :
    beginsLayout c = false := by
  rw [← Bool.not_eq_true]
  simp only [beginsLayout, isBlank, isSeparator, Bool.or_eq_true, decide_eq_true_eq]
  rintro ((rfl | (rfl | rfl) | rfl) | rfl | rfl) <;> exact absurd h (by decide)

theorem skipLayout_of_startsWith (h : startsWith beginsLayout s = false) :
    skipLayout false s = s ∧ layoutText false s = [] := by
  cases s with
  | nil => exact ⟨rfl, rfl⟩
  | cons c s =>
    simp only [startsWith_cons, beginsLayout, Bool.or_eq_false_iff, decide_eq_false_iff_not] at h
    simp [skipLayout, layoutText, h]

/-- Layout is skipped to where it ends. -/
theorem skipLayout_append {layout : Bytes} {comment after : Bool}
    (h : layoutEnd comment layout = some after) (rest : Bytes) :
    skipLayout comment (layout ++ rest) = skipLayout after rest ∧
      layoutText comment (layout ++ rest) = layout ++ layoutText after rest := by
  induction layout generalizing comment with
  | nil =>
    cases h
    exact ⟨rfl, rfl⟩
  | cons c layout ih =>
    cases comment with
    | true =>
      obtain ⟨hskip, htext⟩ := ih h
      exact ⟨hskip, congrArg (c :: ·) htext⟩
    | false =>
      simp only [layoutEnd] at h
      simp only [List.cons_append, skipLayout, layoutText]
      split at h
      · obtain ⟨hskip, htext⟩ := ih h
        exact ⟨by simp [*], by simp [*]⟩
      · split at h
        · obtain ⟨hskip, htext⟩ := ih h
          exact ⟨by simp [*], by simp [*]⟩
        · cases h

theorem layoutEnd_append {layout : Bytes} {comment after : Bool}
    (h : layoutEnd comment layout = some after) (rest : Bytes) :
    layoutEnd comment (layout ++ rest) = layoutEnd after rest := by
  induction layout generalizing comment with
  | nil =>
    cases h
    rfl
  | cons c layout ih =>
    cases comment with
    | true => exact ih h
    | false =>
      simp only [layoutEnd] at h
      simp only [List.cons_append, layoutEnd]
      split at h
      · simp [ih h, *]
      · split at h
        · simp [ih h, *]
        · cases h

/-- Blanks and separators are layout outside a comment. -/
theorem layoutEnd_of_all {layout : Bytes} (h : ∀ c ∈ layout, (isBlank c || isSeparator c) = true) :
    layoutEnd false layout = some false := by
  induction layout with
  | nil => rfl
  | cons c layout ih =>
    have hc := h c (by simp)
    have hcomment : c ≠ '#'.toUInt8 := by
      rintro rfl
      exact absurd hc (by decide)
    rw [layoutEnd, if_neg hcomment, if_pos hc]
    exact ih fun other hmem => h other (by simp [hmem])

theorem layoutEnd_blanks {gap : Bytes} (h : gap.all isBlank = true) :
    layoutEnd false gap = some false := by
  apply layoutEnd_of_all
  intro c hc
  simp [List.all_eq_true.mp h c hc]

theorem layoutEnd_comment {comment : Bytes} (h : newline ∉ comment) :
    layoutEnd true comment = some true := by
  induction comment with
  | nil => rfl
  | cons c comment ih =>
    have hc : c ≠ newline := fun heq => h (by simp [heq])
    have hrest := ih fun hmem => h (by simp [hmem])
    simpa [layoutEnd, hc] using hrest

theorem newline_notMem_takeWhile (s : Bytes) : newline ∉ s.takeWhile (· ≠ newline) := by
  intro hmem
  have hne := List.all_eq_true.mp List.all_takeWhile newline hmem
  exact absurd rfl (of_decide_eq_true hne)

/-- Behind a comment there is a newline, or nothing. -/
theorem dropWhile_newline (s : Bytes) : s.dropWhile (· ≠ newline) = [] ∨
    ∃ tail, s.dropWhile (· ≠ newline) = newline :: tail := by
  have hstop := startsWith_dropWhile (· ≠ newline) s
  cases hd : s.dropWhile (· ≠ newline) with
  | nil => exact .inl rfl
  | cons c tail =>
    rw [hd] at hstop
    obtain rfl : c = newline := by simpa using hstop
    exact .inr ⟨tail, rfl⟩

theorem layoutEnd_layoutText (comment : Bool) (s : Bytes) :
    ∃ after, layoutEnd comment (layoutText comment s) = some after ∧
      (skipLayout comment s ≠ [] → after = false) := by
  induction s generalizing comment with
  | nil => exact ⟨comment, rfl, fun h => absurd rfl h⟩
  | cons c s ih =>
    cases comment with
    | true => exact ih _
    | false =>
      simp only [layoutText, skipLayout]
      split
      · simp [layoutEnd, *]
      · split
        · simp [layoutEnd, *]
        · exact ⟨false, rfl, fun _ => rfl⟩

private theorem startsWith_skipLayout (comment : Bool) (s : Bytes) :
    startsWith beginsLayout (skipLayout comment s) = false := by
  induction s generalizing comment with
  | nil => cases comment <;> rfl
  | cons c s ih =>
    cases comment with
    | true => exact ih _
    | false =>
      simp only [skipLayout]
      split
      · exact ih true
      · split
        · exact ih false
        · simp_all [beginsLayout]

theorem layoutText_append {layout : Bytes} (hl : layoutEnd false layout = some false)
    (hstop : startsWith beginsLayout rest = false) :
    layoutText false (layout ++ rest) = layout := by
  rw [(skipLayout_append hl rest).2, (skipLayout_of_startsWith hstop).2, List.append_nil]

/-- A text is layout, or it begins with layout that ends before something else. -/
theorem layout_or_stop (s : Bytes) : (layoutEnd false s).isSome = true ∨
    ∃ layout rest, s = layout ++ rest ∧ layoutEnd false layout = some false ∧ rest ≠ [] ∧
      startsWith beginsLayout rest = false := by
  have hsplit := layoutText_append_skipLayout false s
  obtain ⟨after, hlayout, hafter⟩ := layoutEnd_layoutText false s
  by_cases hrest : skipLayout false s = []
  · rw [hrest, List.append_nil] at hsplit
    rw [hsplit] at hlayout
    exact .inl (by rw [hlayout, Option.isSome_some])
  · obtain rfl := hafter hrest
    exact .inr ⟨_, _, hsplit.symm, hlayout, hrest, startsWith_skipLayout false s⟩

/-- A comment behind a statement is followed by a newline or the end, so it is in order itself. -/
private theorem comment_endsHere (r : Bytes) :
    (let skipped := if startsWith (· = '#'.toUInt8) r then r.dropWhile (· ≠ newline) else r
     decide (skipped = []) || startsWith isSeparator skipped) = endsHere r := by
  by_cases hc : startsWith (· = '#'.toUInt8) r = true
  · have hstop := startsWith_dropWhile (· ≠ newline) r
    simp only [endsHere, hc, if_true, Bool.or_true]
    cases hd : r.dropWhile (· ≠ newline) with
    | nil => rfl
    | cons d tail =>
      rw [hd] at hstop
      have hd : d = newline := by simpa using hstop
      simp [hd, isSeparator]
  · simp [endsHere, hc]

theorem endsStatement_eq_mayFollow (s : Bytes) : endsStatement s = mayFollow s :=
  comment_endsHere (s.dropWhile isBlank)

/-- What must not follow a statement is no comment, so only the blanks before it are skipped. -/
theorem skipLine_of_not_mayFollow (h : mayFollow s = false) :
    skipLine s = s.dropWhile isBlank := by
  rw [mayFollow, endsHere, Bool.or_eq_false_iff] at h
  simp [skipLine, h.2]

/-- Whether a statement may end before layout with more behind it is decided by the layout. -/
theorem mayFollow_of_layout {layout : Bytes} (hne : s ≠ [])
    (hstop : startsWith beginsLayout s = false) (h : mayFollow (layout ++ s) = true)
    (rest : Bytes) : mayFollow (layout ++ rest) = true := by
  induction layout with
  | nil =>
    obtain ⟨c, tail, rfl⟩ := List.exists_cons_of_ne_nil hne
    simp only [startsWith_cons, beginsLayout, Bool.or_eq_false_iff, decide_eq_false_iff_not]
      at hstop
    simp [mayFollow_cons, hstop] at h
  | cons c layout ih =>
    rw [List.cons_append, mayFollow_cons] at h ⊢
    by_cases hc : isBlank c = true
    · rw [if_pos hc] at h ⊢
      exact ih h
    · rw [if_neg hc] at h ⊢
      exact h

/-- Blanks alone do not part two statements. -/
theorem not_mayFollow_blanks {layout : Bytes} {statement : Statement}
    (hl : layout.all isBlank = true) (h : statement.Valid) (rest : Bytes) :
    mayFollow (layout ++ (statement.text ++ rest)) = false := by
  obtain ⟨c, tail, htext, hc⟩ := startsWith_eq_true (h.startsWith_begins rest)
  have hout : beginsLayout c = false := beginsLayout_of_begins hc
  simp only [beginsLayout, Bool.or_eq_false_iff, decide_eq_false_iff_not] at hout
  have hstop : startsWith isBlank (statement.text ++ rest) = false := by
    rw [htext]
    exact hout.1.2
  rw [mayFollow, dropWhile_run hl hstop, htext]
  simp [endsHere, hout]

theorem startsWith_beginsLayout {statement : Statement} (h : statement.Valid)
    (rest : Bytes) : startsWith beginsLayout (statement.text ++ rest) = false := by
  obtain ⟨c, tail, htext, hc⟩ := startsWith_eq_true (h.startsWith_begins rest)
  rw [htext]
  exact beginsLayout_of_begins hc

theorem Source.text_cons (layout : Bytes) (statement : Statement) (source : Source) :
    (Source.mk (⟨layout, statement⟩ :: source.entries) source.ending).text =
      layout ++ (statement.text ++ source.text) := by
  simp [Source.text, Entry.text]

theorem scanSource_valid {source : Source} (h : scanSource s = .ok source) : source.Valid := by
  fun_induction scanSource s generalizing source with
  | case1 s rest layout =>
    cases h
    obtain ⟨after, hend, -⟩ := layoutEnd_layoutText false s
    have hsome : (layoutEnd false layout).isSome = true := by
      change (layoutEnd false (layoutText false s)).isSome = true
      simp [hend]
    exact .ending hsome
  | case2 => cases h
  | case3 s rest layout hrest statement behind hread hend =>
    rename_i ih
    obtain ⟨more, hmore, h⟩ := scan_bind_eq_ok.mp h
    cases h
    obtain ⟨after, hlayout, hafter⟩ := layoutEnd_layoutText false s
    obtain rfl := hafter hrest
    -- Reading goes on only where a statement may end, so the rest may follow this one.
    have hfollow : mayFollow more.text = true := by
      rw [← scanSource_text hmore, ← endsStatement_eq_mayFollow, hend]
    exact .entry hlayout (scanStatement_valid hread) hfollow (ih hmore)
  | case4 => simp at h

theorem scanSource_layout {layout : Bytes}
    (h : (layoutEnd false layout).isSome = true) : scanSource layout = .ok ⟨[], layout⟩ := by
  obtain ⟨after, hafter⟩ := Option.isSome_iff_exists.mp h
  have hnil : skipLayout after [] = [] ∧ layoutText after [] = [] := by
    cases after <;> exact ⟨rfl, rfl⟩
  obtain ⟨hskip, htext⟩ := skipLayout_append hafter []
  rw [List.append_nil, hnil.1] at hskip
  rw [List.append_nil, hnil.2, List.append_nil] at htext
  rw [scanSource]
  simp [hskip, htext]

/-- Behind layout a statement is read, and then what may follow it. -/
theorem scanSource_step {layout : Bytes} (hl : layoutEnd false layout = some false)
    (hne : s ≠ []) (hstop : startsWith beginsLayout s = false) :
    scanSource (layout ++ s) = (do
      let (statement, behind) ← scanStatement s
      if mayFollow behind then
        let source ← scanSource behind
        return ⟨⟨layout, statement⟩ :: source.entries, source.ending⟩
      else fail (.expected .separator) (behind.dropWhile isBlank)) := by
  obtain ⟨hskip, htext⟩ := skipLayout_append hl s
  rw [(skipLayout_of_startsWith hstop).1] at hskip
  rw [(skipLayout_of_startsWith hstop).2, List.append_nil] at htext
  rw [scanSource]
  simp only [hskip, htext, if_neg hne]
  split
  · rename_i fault hread
    rw [hskip] at hread
    rw [hread]
    rfl
  · rename_i statement behind hread
    rw [hskip] at hread
    rw [hread, endsStatement_eq_mayFollow]
    by_cases hfollow : mayFollow behind = true
    · rw [if_pos hfollow]
      exact (if_pos hfollow).symm
    · rw [if_neg hfollow, skipLine_of_not_mayFollow (Bool.eq_false_iff.mpr hfollow)]
      exact (if_neg hfollow).symm

private theorem scanSource_statement {layout behind : Bytes} {statement : Statement}
    {source : Source} (hl : layoutEnd false layout = some false) (hs : statement.Valid)
    (hb : mayFollow behind = true) (hmore : scanSource behind = .ok source) :
    scanSource (layout ++ (statement.text ++ behind)) =
      .ok ⟨⟨layout, statement⟩ :: source.entries, source.ending⟩ := by
  have hread := scanStatement_text_append hs hb
  have hne : statement.text ++ behind ≠ [] := by
    simp [scanStatement_text_ne_nil hread]
  rw [scanSource_step hl hne (startsWith_beginsLayout hs behind)]
  refine scan_bind_eq_ok.mpr ⟨_, hread, ?_⟩
  dsimp only
  rw [if_pos hb]
  exact scan_bind_eq_ok.mpr ⟨_, hmore, rfl⟩

private theorem scanSource_of_valid {source : Source} (h : source.Valid) :
    scanSource source.text = .ok source := by
  induction h with
  | ending hlayout => exact scanSource_layout hlayout
  | @entry layout statement source hclosed hvalid hfollow _ ih =>
    rw [Source.text_cons]
    exact scanSource_statement hclosed hvalid hfollow ih

/-- A text is read as a source exactly when it is the text of a well-formed one. -/
theorem scanSource_eq_ok_iff {source : Source} :
    scanSource s = .ok source ↔ s = source.text ∧ source.Valid := by
  constructor
  · intro h
    exact ⟨scanSource_text h, scanSource_valid h⟩
  · rintro ⟨rfl, h⟩
    exact scanSource_of_valid h

end EvmAssembly
