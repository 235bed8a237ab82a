import EvmAssembly.Proofs.CursorStatements
import EvmAssembly.Proofs.SourceReading

/-!
# A cursor over a whole source

A turn through the statements begins before layout. It skips a line of it, and then it goes over one
separator, or over one statement and the line behind it, or it leaves at the end. The reader of a
source takes all layout at once, so it is shown first that layout may be taken off piece by piece.
What the walk gives is then what the source is parsed to, and it ends for every source.
-/

namespace EvmAssembly

variable {s rest lead tail : Bytes} {cursor : Cursor} {place : Location} {limit : Nat}

/-- Taking the first part off a text leaves its layout as it was, but for that part. -/
structure LeadsLayout (lead tail : Bytes) : Prop where
  skip_eq : skipLayout false (lead ++ tail) = skipLayout false tail
  text_eq : layoutText false (lead ++ tail) = lead ++ layoutText false tail

theorem LeadsLayout.of_layoutEnd (h : layoutEnd false lead = some false) (tail : Bytes) :
    LeadsLayout lead tail :=
  ⟨(skipLayout_append h tail).1, (skipLayout_append h tail).2⟩

/-- The blanks and the comment on a line are layout before the end of the line. -/
theorem exists_leadsLayout (s : Bytes) : ∃ lead, s = lead ++ skipLine s ∧
    LeadsLayout lead (skipLine s) := by
  have hblanks : layoutEnd false (s.takeWhile isBlank) = some false :=
    layoutEnd_blanks List.all_takeWhile
  have hsplit := List.takeWhile_append_dropWhile (p := isBlank) (l := s)
  unfold skipLine
  dsimp only
  split
  · rename_i hcomment
    generalize s.dropWhile isBlank = line at hsplit hcomment ⊢
    have hline := List.takeWhile_append_dropWhile (p := (· ≠ newline)) (l := line)
    have hlead : layoutEnd false (s.takeWhile isBlank ++ line.takeWhile (· ≠ newline)) =
        some true := by
      rw [layoutEnd_append hblanks, drop_one_of_startsWith hcomment]
      exact layoutEnd_comment (newline_notMem_takeWhile (line.drop 1))
    obtain ⟨hskip, htext⟩ := skipLayout_append hlead (line.dropWhile (· ≠ newline))
    -- The newline is layout all the same, whether it ends a comment or not.
    have hclosed : skipLayout true (line.dropWhile (· ≠ newline)) =
        skipLayout false (line.dropWhile (· ≠ newline)) ∧
        layoutText true (line.dropWhile (· ≠ newline)) =
          layoutText false (line.dropWhile (· ≠ newline)) := by
      obtain hnil | ⟨tail, htail⟩ := dropWhile_newline line
      · rw [hnil]
        exact ⟨rfl, rfl⟩
      · rw [htail]
        exact ⟨rfl, rfl⟩
    refine ⟨_, ?_, hskip.trans hclosed.1, htext.trans (congrArg _ hclosed.2)⟩
    rw [List.append_assoc, hline, hsplit]
  · exact ⟨_, hsplit.symm, .of_layoutEnd hblanks _⟩

/-- What stands behind a line is a separator, or it is no layout. -/
theorem startsWith_skipLine (h : startsWith isSeparator (skipLine s) = false) :
    startsWith beginsLayout (skipLine s) = false := by
  unfold skipLine at h ⊢
  dsimp only at h ⊢
  have hblank := startsWith_dropWhile isBlank s
  generalize s.dropWhile isBlank = line at h hblank ⊢
  split at h
  · rename_i hcomment
    rw [if_pos hcomment]
    obtain hnil | ⟨tail, htail⟩ := dropWhile_newline line
    · rw [hnil]
      rfl
    · rw [htail] at h
      cases h
  · rename_i hcomment
    rw [if_neg hcomment]
    cases line with
    | nil => rfl
    | cons c tail =>
      rw [startsWith_cons] at *
      simp_all [beginsLayout]

theorem length_skipLine_le (s : Bytes) : (skipLine s).length ≤ s.length := by
  obtain ⟨lead, hlead, -⟩ := exists_leadsLayout s
  have hlength := congrArg List.length hlead
  rw [List.length_append] at hlength
  omega

/-- Reads the trees of the statements in a text that begins at a place. -/
def scanTrees (place : Location) (s : Bytes) : Scan (List Tree) :=
  (scanSource s).map fun source => locatedTrees (Entry.located source.entries place)

/-- Reads the line behind a statement. -/
def scanLineEnd (s : Bytes) : Scan Bytes :=
  if endsStatement s then .ok (skipLine s) else fail (.expected .separator) (skipLine s)

theorem scanSource_eq (s : Bytes) : scanSource s =
    if skipLayout false s = [] then .ok ⟨[], layoutText false s⟩
    else scanStatement (skipLayout false s) >>= fun read => scanLineEnd read.2 >>= fun _ =>
      scanSource read.2 >>= fun source =>
        .ok ⟨⟨layoutText false s, read.1⟩ :: source.entries, source.ending⟩ := by
  rw [scanSource]
  split
  · rfl
  · split
    · rename_i hread
      rw [hread]
      rfl
    · rename_i statement behind hread
      rw [hread]
      change _ = scanLineEnd behind >>= _
      unfold scanLineEnd
      split <;> rfl

theorem scanLineEnd_ok (h : scanLineEnd s = .ok rest) : rest = skipLine s := by
  unfold scanLineEnd at h
  split at h
  · cases h
    rfl
  · cases h

theorem scanTrees_nil (place : Location) : scanTrees place [] = .ok [] := by
  rw [scanTrees, scanSource_eq]
  rfl

theorem scanTrees_layout (h : LeadsLayout lead tail) :
    scanTrees place (lead ++ tail) = scanTrees (place.after lead) tail := by
  rw [scanTrees, scanTrees, scanSource_eq (lead ++ tail), scanSource_eq tail, h.skip_eq, h.text_eq]
  split
  · rfl
  · simp only [scan_map_bind]
    simp only [Except.map, Entry.located, Entry.text, List.append_assoc, Location.after_append]

theorem scanTrees_separator {c : UInt8} (hc : isSeparator c = true) :
    scanTrees place (c :: tail) = scanTrees (place.step c) tail := by
  have hlayout : layoutEnd false [c] = some false := layoutEnd_of_all (by simp [hc])
  exact scanTrees_layout (.of_layoutEnd hlayout tail)

theorem scanTrees_line (place : Location) (s : Bytes) :
    scanTrees place s = scanTrees (place.after (consumed s (skipLine s))) (skipLine s) := by
  obtain ⟨lead, hlead, hlayout⟩ := exists_leadsLayout s
  have hconsumed := consumed_append lead (skipLine s)
  rw [← hlead] at hconsumed
  rw [hconsumed, ← scanTrees_layout hlayout, ← hlead]

theorem consumed_behind (text : Bytes) (hle : rest.length ≤ tail.length) :
    consumed (text ++ tail) rest = text ++ consumed tail rest := by
  have hlength : (text ++ tail).length - rest.length =
      text.length + (tail.length - rest.length) := by
    rw [List.length_append]
    omega
  rw [consumed, hlength, List.take_length_add_append, consumed]

theorem scanTrees_statement (hne : s ≠ []) (hstop : startsWith beginsLayout s = false) :
    scanTrees place s = scanStatement s >>= fun read => scanLineEnd read.2 >>= fun ending =>
      (scanTrees (place.after (consumed s ending)) ending).map (read.1.tree place :: ·) := by
  obtain ⟨hskip, htext⟩ := skipLayout_of_startsWith hstop
  rw [scanTrees, scanSource_eq, hskip, htext, if_neg hne, scan_map_bind]
  cases hread : scanStatement s with
  | error fault => rfl
  | ok read =>
    obtain ⟨statement, behind⟩ := read
    change (scanLineEnd behind >>= _).map _ = scanLineEnd behind >>= _
    cases hend : scanLineEnd behind with
    | error fault => rfl
    | ok ending =>
      obtain rfl := scanLineEnd_ok hend
      have hplace : place.after (consumed s (skipLine behind)) =
          (place.after statement.text).after (consumed behind (skipLine behind)) := by
        rw [scanStatement_text hread, consumed_behind _ (length_skipLine_le behind),
          Location.after_append]
      change (scanSource behind >>= _).map _ = (scanTrees _ (skipLine behind)).map _
      rw [hplace, ← scanTrees_line, scanTrees]
      cases scanSource behind <;> rfl

theorem Statement.skipLine_behind (statement : Statement) (rest : Bytes) :
    skipLine (statement.behind rest) = skipLine rest := by
  cases statement with
  | plain operation =>
    rw [skipLine, Statement.behind, dropWhile_of_startsWith (startsWith_dropWhile isBlank rest)]
    rfl
  | label name gap => rfl
  | push operation gap operand => rfl
  | directive name pad actuals => rfl

theorem scanLineEnd_behind (statement : Statement) (rest : Bytes) :
    scanLineEnd (statement.behind rest) = scanLineEnd rest := by
  rw [scanLineEnd, endsStatement, statement.skipLine_behind]
  rfl

namespace Follows

theorem lineEnd (hlimit : s.length < limit) (h : Stands s rest cursor) :
    Follows s (Walk.lineEnd s limit) cursor
      ((scanLineEnd rest).map fun tail => (decide (tail = []), tail)) := by
  refine (skipLine hlimit h).andThen fun last hlast => .get ?_
  simp only [hlast.atEnd_eq, hlast.peek_class isSeparator (by decide), scanLineEnd, endsStatement]
  split
  · rename_i hnil
    simpa [hnil, Except.map] using .pure hlast true
  · rename_i hnil
    split
    · rename_i hseparator
      simpa [hnil, hseparator, Except.map] using .pure hlast false
    · rename_i hseparator
      simpa [hnil, hseparator] using .fault hlast

theorem statements (trees : List Tree) {turns : Nat} (hlimit : s.length < limit)
    (hturns : rest.length < turns) (h : Stands s rest cursor) :
    Follows s (Walk.statements s limit trees turns) cursor
      ((scanTrees cursor.place rest).map fun more => (trees ++ more, [])) := by
  induction turns generalizing rest cursor trees with
  | zero => exact absurd hturns (Nat.not_lt_zero _)
  | succ turns ih =>
    have hle := length_skipLine_le rest
    rw [scanTrees_line]
    refine .get ((skipLine hlimit h).andThen fun last hlast => .get ?_)
    rw [← h.place_consumed hlast hle]
    simp only [hlast.atEnd_eq, hlast.peek_class isSeparator (by decide), decide_eq_true_eq]
    have hstop : startsWith isSeparator (EvmAssembly.skipLine rest) = false →
        startsWith beginsLayout (EvmAssembly.skipLine rest) = false := startsWith_skipLine
    generalize EvmAssembly.skipLine rest = line at hlast hle hstop ⊢
    split
    · -- At the end, the turn may have found nothing to go over.
      rename_i hnil
      subst hnil
      have hturn : Turn.Advances s ⟨.statements, cursor.position, last.position, true⟩ :=
        .inr ⟨rfl, rfl, hlast.position_add⟩
      refine (note hlast hturn).andThen fun noted hnoted => ?_
      simpa [scanTrees_nil, Except.map] using .pure hnoted trees
    · rename_i hne
      split
      · rename_i hseparator
        obtain ⟨c, tail, rfl, hc⟩ := startsWith_eq_true hseparator
        refine (advance hlast).andThen fun next hnext => ?_
        refine (noteTurn h hnext hle).andThen fun noted hnoted => ?_
        have hseparated : Stands s ([c] ++ tail) last := hlast
        have hplace : noted.place = last.place.step c := hseparated.place_after hnoted
        rw [scanTrees_separator hc, ← hplace]
        exact ih trees (Nat.lt_of_lt_of_le hle (Nat.le_of_lt_succ hturns)) hnoted
      · -- The separator behind the statement is left to the next turn.
        rename_i hseparator
        rw [scanTrees_statement hne (hstop (Bool.eq_false_iff.mpr hseparator)), scan_map_bind]
        refine (statement hlimit hlast).bind fun read behind hread hbehind => ?_
        obtain ⟨statement, tail⟩ := read
        have hend := lineEnd hlimit hbehind
        simp only [statementAt, scanLineEnd_behind] at hend
        rw [scan_map_bind]
        refine hend.bind fun ending closed hclosed hending => ?_
        have hshort : ending.length < line.length := by
          rw [scanLineEnd_ok hclosed]
          exact Nat.lt_of_le_of_lt (length_skipLine_le tail) (scanStatement_length_lt hread)
        have hlt := Nat.lt_of_lt_of_le hshort hle
        refine (noteTurn h hending hlt).andThen fun noted hnoted => ?_
        rw [← hlast.place_consumed hnoted (Nat.le_of_lt hshort)]
        split
        · rename_i hended
          obtain rfl : ending = [] := of_decide_eq_true hended
          rw [scanTrees_nil]
          exact .pure hnoted _
        · have hmore := ih (trees ++ [statement.tree last.place])
            (Nat.lt_of_lt_of_le hlt (Nat.le_of_lt_succ hturns)) hnoted
          generalize scanTrees noted.place ending = reading at hmore ⊢
          cases reading with
          | error fault => exact hmore
          | ok more => simpa [Except.map, statementAt] using hmore

theorem program (hlimit : s.length < limit) : Follows s (Walk.program s limit) .start
    ((scanTrees .start s).map fun trees => (trees ++ [endTree s], [])) := by
  have hwhole : Stands s (s ++ []) .start := by
    rw [List.append_nil]
    exact Stands.start s
  rw [scan_map_eq_bind]
  refine (statements [] hlimit hlimit (Stands.start s)).bind fun trees last _ hlast => .get ?_
  rw [hwhole.place_after hlast]
  exact .pure hlast _

end Follows

/-- No limit beyond the length of a source is ever reached: the walk has the trees or the error that
the source is parsed to. The bytes that the cursor went over are those from the first on, each once
and in order, and none of them is behind the end. Every turn and every call got on, but for the last
turn through the statements if it left at the end. A source without fault is gone over to its
end. -/
theorem program_walk_ends (s : Bytes) (limit : Nat) (hlimit : s.length < limit) : ∃ cursor,
    (Walk.program s limit).outcome .start = some (parseTrees s, cursor) ∧
    cursor.position ≤ s.length ∧ cursor.passed = List.range cursor.position ∧
    (∀ turn ∈ cursor.turns, turn.Advances s) ∧
    ((parseTrees s).isOk = true → cursor.position = s.length) := by
  have hwalk := Follows.program hlimit
  unfold scanTrees at hwalk
  cases hread : scanSource s with
  | error fault =>
    rw [hread] at hwalk
    rw [(parse_of_fault hread).1]
    cases hwalk with
    | throws outcome stands =>
      exact ⟨_, outcome, stands.position_le, stands.passed_eq, stands.advances,
        fun hok => absurd hok Bool.false_ne_true⟩
  | ok source =>
    rw [hread] at hwalk
    rw [(readsAs_of_scanSource hread).parseTrees_eq]
    cases hwalk with
    | returns outcome stands =>
      exact ⟨_, outcome, stands.position_le, stands.passed_eq, stands.advances,
        fun _ => stands.position_add⟩

/-- A selector whose signature breaks off within a list. -/
def brokenSelector : Bytes := "push4 selector(\"f((a[2],b"

theorem program_walk_ends_brokenSelector : brokenSelector.length < 26 ∧ ∃ cursor,
    (Walk.program brokenSelector 26).outcome .start = some (parseTrees brokenSelector, cursor) ∧
    cursor.position ≤ brokenSelector.length ∧ cursor.passed = List.range cursor.position ∧
    (∀ turn ∈ cursor.turns, turn.Advances brokenSelector) ∧
    ((parseTrees brokenSelector).isOk = true → cursor.position = brokenSelector.length) :=
  have hlimit : brokenSelector.length < 26 := by decide
  ⟨hlimit, program_walk_ends brokenSelector 26 hlimit⟩

example : ((Walk.program "stop;" 6).outcome .start).map (fun ending => ending.2.turns) =
    some [⟨.statements, 0, 4, false⟩, ⟨.statements, 4, 5, false⟩, ⟨.statements, 5, 5, true⟩] := by
  decide

end EvmAssembly
