import EvmAssembly.Proofs.LineGrammar
import EvmAssembly.Proofs.SourceReading

/-!
# Derivations of whole sources

A source has a parse tree exactly when each of its lines is derived by the grammar, and its trees
are those of the derivations, with one for the end of the input behind them. The reader works along
the layout between statements and the grammar line by line; both are closed under layout before a
text and under a statement before a text that may follow it.
-/

namespace EvmAssembly

variable {place : Location} {text s : Bytes} {tree : Tree} {trees : List Tree}

theorem splitOn_append_of_notMem (h : newline ∉ text) (s : Bytes) :
    (text ++ s).splitOn newline = (s.splitOn newline).modifyHead (text ++ ·) := by
  induction text with
  | nil =>
    obtain ⟨line, lines, hlines⟩ := List.exists_cons_of_ne_nil (List.splitOn_ne_nil newline s)
    simp [hlines]
  | cons c text ih =>
    obtain ⟨line, lines, hlines⟩ := List.exists_cons_of_ne_nil (List.splitOn_ne_nil newline s)
    have hc : ¬ c = newline := fun heq => h (by simp [heq])
    have htext := ih fun hmem => h (by simp [hmem])
    simp [List.splitOn_cons_eq_if_modifyHead, hc, htext, hlines]

theorem splitOn_newline (s : Bytes) :
    (newline :: s).splitOn newline = [] :: s.splitOn newline := by
  simp [List.splitOn_cons_eq_if_modifyHead]

private theorem lineDerives_nil (place : Location) : LineDerives place [] [] := .last (.empty rfl)

private theorem ItemDerives.blank {c : UInt8} (hc : isBlank c = true)
    (h : ItemDerives (place.step c) text trees) : ItemDerives place (c :: text) trees := by
  cases h with
  | empty hpad => exact .empty (by simp [hc, hpad])
  | @statement lead text trail tree hlead hderived htrail =>
    have hlonger : (c :: lead).all isBlank = true := by simp [hc, hlead]
    exact .statement hlonger hderived htrail

private theorem LineDerives.blank {c : UInt8} (hc : isBlank c = true)
    (h : LineDerives (place.step c) text trees) : LineDerives place (c :: text) trees := by
  cases h with
  | last hitem => exact .last (hitem.blank hc)
  | comment hitem => exact .comment (hitem.blank hc)
  | more hitem hrest => exact .more (hitem.blank hc) hrest

private theorem LineDerives.semicolon (h : LineDerives (place.step ';'.toUInt8) text trees) :
    LineDerives place (';'.toUInt8 :: text) trees := by
  have hempty : ItemDerives place [] [] := .empty rfl
  exact .more hempty h

private theorem splitOn_cons {c : UInt8} {line : Bytes} {lines : List Bytes} (hc : c ≠ newline)
    (h : s.splitOn newline = line :: lines) :
    (c :: s).splitOn newline = (c :: line) :: lines := by
  simp [List.splitOn_cons_eq_if_modifyHead, hc, h]

private theorem exists_splitOn (s : Bytes) : ∃ line lines, s.splitOn newline = line :: lines :=
  List.exists_cons_of_ne_nil (List.splitOn_ne_nil newline s)

/-- The lines of a text are derived; if it begins within a comment, those behind the first one. -/
private def TextDerives : Bool → Location → Bytes → List Tree → Prop
  | false, place, s, trees => LinesDerive place (s.splitOn newline) trees
  | true, place, s, trees => ∃ line lines, s.splitOn newline = line :: lines ∧
      LinesDerive (place.after (line ++ [newline])) lines trees

private theorem TextDerives.blank {c : UInt8} (hc : isBlank c = true)
    (h : TextDerives false (place.step c) s trees) : TextDerives false place (c :: s) trees := by
  have hline : c ≠ newline := by
    rintro rfl
    exact absurd hc (by decide)
  obtain ⟨line, lines, hlines⟩ := exists_splitOn s
  rw [TextDerives, hlines] at h
  rw [TextDerives, splitOn_cons hline hlines]
  cases h with
  | cons hfirst hrest => exact .cons (hfirst.blank hc) hrest

private theorem TextDerives.separator {c : UInt8} (hc : isSeparator c = true)
    (h : TextDerives false (place.step c) s trees) : TextDerives false place (c :: s) trees := by
  simp only [isSeparator, Bool.or_eq_true, decide_eq_true_eq] at hc
  rcases hc with rfl | rfl
  · rw [TextDerives, splitOn_newline]
    exact .cons (lineDerives_nil place) h
  · obtain ⟨line, lines, hlines⟩ := exists_splitOn s
    rw [TextDerives, hlines] at h
    rw [TextDerives, splitOn_cons (by decide) hlines]
    cases h with
    | cons hfirst hrest => exact .cons hfirst.semicolon hrest

private theorem TextDerives.comment (h : TextDerives true (place.step '#'.toUInt8) s trees) :
    TextDerives false place ('#'.toUInt8 :: s) trees := by
  obtain ⟨line, lines, hlines, hrest⟩ := h
  have hempty : ItemDerives place [] [] := .empty rfl
  rw [TextDerives, splitOn_cons (by decide) hlines]
  exact .cons (.comment hempty) hrest

private theorem TextDerives.inComment {c : UInt8}
    (h : TextDerives (c ≠ newline) (place.step c) s trees) :
    TextDerives true place (c :: s) trees := by
  by_cases hc : c = newline
  · subst hc
    exact ⟨[], s.splitOn newline, splitOn_newline s, h⟩
  · rw [decide_eq_true hc] at h
    obtain ⟨line, lines, hlines, hrest⟩ := h
    exact ⟨c :: line, lines, splitOn_cons hc hlines, hrest⟩

/-- Layout before a text adds nothing to what is derived. -/
private theorem TextDerives.layout {layout : Bytes} {comment after : Bool}
    (h : layoutEnd comment layout = some after)
    (hs : TextDerives after (place.after layout) s trees) :
    TextDerives comment place (layout ++ s) trees := by
  induction layout generalizing comment place with
  | nil =>
    cases h
    exact hs
  | cons c layout ih =>
    cases comment with
    | true => exact (ih h hs).inComment
    | false =>
      simp only [layoutEnd] at h
      split at h
      · rename_i hc
        subst hc
        exact (ih h hs).comment
      · split at h
        · rename_i hc
          rcases Bool.or_eq_true_iff.mp hc with hblank | hsep
          · exact (ih h hs).blank hblank
          · exact (ih h hs).separator hsep
        · cases h

private theorem textDerives_nil (comment : Bool) (place : Location) :
    TextDerives comment place [] [] := by
  cases comment with
  | false => exact .cons (lineDerives_nil place) .nil
  | true => exact ⟨[], [], rfl, .nil⟩

/-- The line that a text begins with begins the text. -/
private theorem exists_append_of_splitOn {line : Bytes} {lines : List Bytes}
    (h : s.splitOn newline = line :: lines) : ∃ tail, s = line ++ tail := by
  have hs : [newline].intercalate (s.splitOn newline) = s := List.intercalate_splitOn newline
  rw [h] at hs
  cases lines with
  | nil => exact ⟨[], by simpa using hs.symm⟩
  | cons next lines =>
    rw [List.intercalate_cons_cons] at hs
    exact ⟨_, by simpa using hs.symm⟩

/-- No statement stands at the beginning of the text, blanks apart. -/
private def NoStatement (line : Bytes) : Prop :=
  ∀ lead tail (statement : Statement), lead.all isBlank = true → statement.Valid →
    line ≠ lead ++ (statement.text ++ tail)

private theorem ItemDerives.behind_statement {item rest : Bytes} {others : List Tree}
    (hs : StatementDerives place text tree) (hno : NoStatement (item ++ rest))
    (h : ItemDerives (place.after text) item others) :
    others = [] ∧ ItemDerives place (text ++ item) [tree] := by
  cases h with
  | empty hpad =>
    have hlead : ([] : Bytes).all isBlank = true := rfl
    exact ⟨rfl, .statement hlead hs hpad⟩
  | @statement lead inner trail other hlead hderived _ =>
    obtain ⟨statement, hvalid, rfl, -⟩ := statementDerives_iff.mp hderived
    exact absurd (by simp) (hno lead (trail ++ rest) statement hlead hvalid)

private theorem LineDerives.behind_statement {line : Bytes} {others : List Tree}
    (hs : StatementDerives place text tree) (hno : NoStatement line)
    (h : LineDerives (place.after text) line others) :
    LineDerives place (text ++ line) (tree :: others) := by
  cases h with
  | last hitem =>
    rw [← List.append_nil line] at hno
    obtain ⟨rfl, hlonger⟩ := hitem.behind_statement hs hno
    exact .last hlonger
  | @comment _ item comment _ hitem =>
    rw [List.append_assoc] at hno
    obtain ⟨rfl, hlonger⟩ := hitem.behind_statement hs hno
    rw [← List.append_assoc, ← List.append_assoc]
    exact .comment hlonger
  | @more _ item line _ others hitem hrest =>
    rw [List.append_assoc] at hno
    obtain ⟨rfl, hlonger⟩ := hitem.behind_statement hs hno
    rw [← Location.after_append, ← List.append_assoc] at hrest
    rw [← List.append_assoc, ← List.append_assoc]
    exact .more hlonger hrest

private theorem TextDerives.statement {statement : Statement} {behind : Bytes}
    (hvalid : statement.Valid) (hf : mayFollow behind = true)
    (h : TextDerives false (place.after statement.text) behind trees) :
    TextDerives false place (statement.text ++ behind) (statement.tree place :: trees) := by
  obtain ⟨line, lines, hlines⟩ := exists_splitOn behind
  obtain ⟨tail, rfl⟩ := exists_append_of_splitOn hlines
  -- Without a separator before it, no other statement stands in the rest of this line's item.
  have hno : NoStatement line := by
    intro lead more other hlead hother heq
    have hnot := not_mayFollow_blanks hlead hother (more ++ tail)
    rw [heq] at hf
    simp only [List.append_assoc] at hf
    rw [hnot] at hf
    cases hf
  have hderived : StatementDerives place statement.text (statement.tree place) :=
    statementDerives_iff.mpr ⟨statement, hvalid, rfl, rfl⟩
  rw [TextDerives, hlines] at h
  rw [TextDerives, splitOn_append_of_notMem hvalid.newline_notMem, hlines, List.modifyHead_cons]
  cases h with
  | cons hfirst hrest =>
    rw [← Location.after_append, ← List.append_assoc] at hrest
    exact .cons (hfirst.behind_statement hderived hno) hrest

/-- The lines of a text that reads as statements are derived, with the trees of the statements. -/
theorem ReadsAs.linesDerive {statements : List (Location × Statement)}
    (h : ReadsAs place s statements) :
    LinesDerive place (s.splitOn newline) (locatedTrees statements) := by
  change TextDerives false place s (locatedTrees statements)
  obtain ⟨source, hvalid, rfl, rfl⟩ := h
  induction hvalid generalizing place with
  | @ending layout hlayout =>
    obtain ⟨after, hafter⟩ := Option.isSome_iff_exists.mp hlayout
    have hderived := TextDerives.layout hafter (textDerives_nil after (place.after layout))
    simpa [Source.text, locatedTrees, Entry.located] using hderived
  | @entry layout statement rest hclosed hvalid hfollow _ ih =>
    have hrest := @ih (place.after (layout ++ statement.text))
    rw [Location.after_append] at hrest
    have hderived := (hrest.statement hvalid hfollow).layout hclosed
    rw [Source.text_cons]
    simpa [locatedTrees, Entry.located, Entry.text] using hderived

/-- The text reads as statements with these trees. -/
private def ReadsTrees (place : Location) (s : Bytes) (trees : List Tree) : Prop :=
  ∃ statements, ReadsAs place s statements ∧ locatedTrees statements = trees

private theorem ReadsTrees.ending {layout : Bytes} (h : (layoutEnd false layout).isSome = true) :
    ReadsTrees place layout [] :=
  ⟨[], .ending h, rfl⟩

private theorem ReadsTrees.layout {layout : Bytes} (hl : layoutEnd false layout = some false)
    (h : ReadsTrees (place.after layout) s trees) : ReadsTrees place (layout ++ s) trees := by
  obtain ⟨statements, hreads, rfl⟩ := h
  exact ⟨statements, hreads.layout hl, rfl⟩

private theorem ReadsTrees.statement {behind : Bytes} (hs : StatementDerives place text tree)
    (hf : mayFollow behind = true) (h : ReadsTrees (place.after text) behind trees) :
    ReadsTrees place (text ++ behind) (tree :: trees) := by
  obtain ⟨statement, hvalid, rfl, rfl⟩ := statementDerives_iff.mp hs
  obtain ⟨statements, hreads, rfl⟩ := h
  exact ⟨_, hreads.statement hvalid hf, rfl⟩

/-- What stands behind a line: nothing, or a newline and the text of further lines. -/
private inductive LineEnd (place : Location) : Bytes → List Tree → Prop where
  | last : LineEnd place [] []
  | more {s : Bytes} {trees : List Tree} (rest : ReadsTrees (place.step newline) s trees) :
      LineEnd place (newline :: s) trees

private theorem ReadsTrees.item {item rest : Bytes} {others : List Tree}
    (h : ItemDerives place item trees) (hf : endsHere rest = true)
    (hrest : ReadsTrees (place.after item) rest others) :
    ReadsTrees place (item ++ rest) (trees ++ others) := by
  cases h with
  | empty hpad => exact hrest.layout (layoutEnd_blanks hpad)
  | @statement lead text trail tree hlead hderived htrail =>
    rw [Location.after_append, Location.after_append] at hrest
    have hfollow : mayFollow (trail ++ rest) = true := by
      rw [mayFollow, dropWhile_run htrail (startsWith_blank_of_endsHere hf), hf]
    have hbehind := hrest.layout (layoutEnd_blanks htrail)
    have hreads := (hbehind.statement hderived hfollow).layout (layoutEnd_blanks hlead)
    simpa using hreads

private theorem LineEnd.reads {tail : Bytes} (h : LineEnd place tail trees) :
    ReadsTrees place tail trees := by
  cases h with
  | last => exact .ending rfl
  | more hrest =>
    have hlayout : layoutEnd false [newline] = some false := rfl
    exact hrest.layout hlayout

private theorem LineEnd.endsHere {tail : Bytes} (h : LineEnd place tail trees) :
    endsHere tail = true := by
  cases h with
  | last => rfl
  | more => rfl

private theorem LineEnd.comment {comment tail : Bytes} (hc : newline ∉ comment)
    (h : LineEnd (place.after ("#" ++ comment)) tail trees) :
    ReadsTrees place ("#" ++ comment ++ tail) trees := by
  have hopen : layoutEnd false ("#" ++ comment) = some true := layoutEnd_comment hc
  cases h with
  | last =>
    rw [List.append_nil]
    exact .ending (by rw [hopen]; rfl)
  | more hrest =>
    have hclosed : layoutEnd false ("#" ++ comment ++ [newline]) = some false := by
      rw [layoutEnd_append hopen]
      rfl
    rw [List.append_cons]
    apply ReadsTrees.layout hclosed
    rw [Location.after_append]
    exact hrest

/-- A derived line with a text behind it; the comment of the line runs to its end. -/
private theorem ReadsTrees.line {line tail : Bytes} {others : List Tree}
    (h : LineDerives place line trees) (hline : newline ∉ line)
    (htail : LineEnd (place.after line) tail others) :
    ReadsTrees place (line ++ tail) (trees ++ others) := by
  induction h with
  | last hitem => exact .item hitem htail.endsHere htail.reads
  | @comment place item comment trees hitem =>
    have hcomment : newline ∉ comment := fun hmem => hline (by simp [hmem])
    rw [List.append_assoc, Location.after_append] at htail
    have hrest := htail.comment hcomment
    have hreads := ReadsTrees.item hitem rfl hrest
    simpa using hreads
  | @more place item line trees more hitem _ ih =>
    have hmore : newline ∉ line := fun hmem => hline (by simp [hmem])
    rw [Location.after_append] at htail
    have hrest := ih hmore htail
    have hsemicolon : layoutEnd false ";" = some false := rfl
    rw [Location.after_append] at hrest
    have hreads := ReadsTrees.item hitem rfl (hrest.layout hsemicolon)
    simpa using hreads

private theorem ReadsTrees.lines {lines : List Bytes} (h : LinesDerive place lines trees)
    (hne : lines ≠ []) (hlines : ∀ line ∈ lines, newline ∉ line) :
    ReadsTrees place ([newline].intercalate lines) trees := by
  induction h with
  | nil => exact absurd rfl hne
  | @cons place line lines trees others hfirst hrest ih =>
    have hline := hlines line (by simp)
    -- The last line has no newline behind it.
    cases lines with
    | nil =>
      cases hrest with
      | nil =>
        have hreads := ReadsTrees.line hfirst hline .last
        simpa using hreads
    | cons next lines =>
      have hmore := ih (by simp) fun line hmem => hlines line (by simp [hmem])
      rw [Location.after_append] at hmore
      have hreads := ReadsTrees.line hfirst hline (.more hmore)
      rw [List.intercalate_cons_cons]
      simpa using hreads

private theorem newline_notMem_splitOn (s : Bytes) :
    ∀ line ∈ s.splitOn newline, newline ∉ line := by
  induction s with
  | nil => simp
  | cons c s ih =>
    by_cases hc : c = newline
    · subst hc
      rw [splitOn_newline]
      intro line hline
      rcases List.mem_cons.mp hline with rfl | hline
      · exact List.not_mem_nil
      · exact ih line hline
    · obtain ⟨first, lines, hlines⟩ := exists_splitOn s
      rw [hlines] at ih
      rw [splitOn_cons hc hlines]
      intro line hline
      rcases List.mem_cons.mp hline with rfl | hline
      · have hfirst := ih first (by simp)
        simp [hfirst, Ne.symm hc]
      · exact ih line (by simp [hline])

private theorem readsTrees_iff :
    ReadsTrees place s trees ↔ LinesDerive place (s.splitOn newline) trees := by
  constructor
  · rintro ⟨statements, hreads, rfl⟩
    exact hreads.linesDerive
  · intro h
    have hreads := ReadsTrees.lines h (List.splitOn_ne_nil newline s) (newline_notMem_splitOn s)
    rwa [List.intercalate_splitOn] at hreads

/-- Whether a line can be derived does not depend on where it stands. -/
private theorem LineDerives.relocate {line : Bytes} (h : LineDerives place line trees)
    (other : Location) : ∃ trees, LineDerives other line trees := by
  have hitems : ∀ {place other : Location} {item : Bytes} {trees : List Tree},
      ItemDerives place item trees → ∃ trees, ItemDerives other item trees := by
    intro place other item trees hitem
    cases hitem with
    | empty hpad => exact ⟨[], .empty hpad⟩
    | @statement lead text trail tree hlead hderived htrail =>
      obtain ⟨statement, hvalid, rfl, -⟩ := statementDerives_iff.mp hderived
      have hthere : StatementDerives (other.after lead) statement.text _ :=
        statementDerives_iff.mpr ⟨statement, hvalid, rfl, rfl⟩
      exact ⟨_, .statement hlead hthere htrail⟩
  induction h generalizing other with
  | last hitem =>
    obtain ⟨trees, hthere⟩ := hitems hitem
    exact ⟨trees, .last hthere⟩
  | comment hitem =>
    obtain ⟨trees, hthere⟩ := hitems hitem
    exact ⟨trees, .comment hthere⟩
  | more hitem _ ih =>
    obtain ⟨trees, hthere⟩ := hitems hitem
    obtain ⟨others, hrest⟩ := ih _
    exact ⟨_, .more hthere hrest⟩

private theorem linesDerive_iff_forall {lines : List Bytes} (place : Location) :
    (∃ trees, LinesDerive place lines trees) ↔
      ∀ line ∈ lines, ∃ trees, LineDerives .start line trees := by
  induction lines generalizing place with
  | nil => exact ⟨fun _ => nofun, fun _ => ⟨[], .nil⟩⟩
  | cons line lines ih =>
    rw [List.forall_mem_cons, ← ih (place.after (line ++ [newline]))]
    constructor
    · rintro ⟨trees, hderived⟩
      cases hderived with
      | cons hfirst hrest => exact ⟨hfirst.relocate .start, _, hrest⟩
    · rintro ⟨⟨_, hfirst⟩, _, hrest⟩
      obtain ⟨_, hhere⟩ := hfirst.relocate place
      exact ⟨_, .cons hhere hrest⟩

/-- A source reads as statements exactly when each of its lines follows the grammar. -/
theorem exists_readsAs_iff (s : Bytes) : (∃ statements, ReadsAs .start s statements) ↔
    ∀ line ∈ s.splitOn newline, ∃ trees, LineDerives .start line trees := by
  rw [← linesDerive_iff_forall .start]
  constructor
  · rintro ⟨statements, hreads⟩
    exact ⟨_, hreads.linesDerive⟩
  · rintro ⟨trees, hderived⟩
    obtain ⟨statements, hreads, -⟩ := readsTrees_iff.mpr hderived
    exact ⟨statements, hreads⟩

private theorem parseTrees_eq_ok_iff_readsTrees : parseTrees s = .ok trees ↔
    ∃ statements, ReadsTrees .start s statements ∧ trees = statements ++ [endTree s] := by
  constructor
  · intro h
    rcases fault_or_readsAs s with ⟨fault, -, herror, -⟩ | ⟨statements, hreads⟩
    · cases herror.symm.trans h
    · cases hreads.parseTrees_eq.symm.trans h
      exact ⟨_, ⟨statements, hreads, rfl⟩, rfl⟩
  · rintro ⟨_, ⟨statements, hreads, rfl⟩, rfl⟩
    exact hreads.parseTrees_eq

/-- A source has parse trees exactly when the grammar derives each of its lines, wherever it
stands. The trees are then those of the statements, in their order and at their places, and one for
the end of the input. -/
theorem parseTrees_ok_iff_lines_derived (s : Bytes) :
    ((∃ trees, parseTrees s = .ok trees) ↔
      ∀ line ∈ s.splitOn newline, ∃ trees, LineDerives .start line trees) ∧
    ∀ trees, parseTrees s = .ok trees ↔
      ∃ statements, LinesDerive .start (s.splitOn newline) statements ∧
        trees = statements ++ [⟨.endOfInput, [], Location.start.after s, []⟩] := by
  have htrees : ∀ trees, parseTrees s = .ok trees ↔
      ∃ statements, LinesDerive .start (s.splitOn newline) statements ∧
        trees = statements ++ [endTree s] := by
    simp only [parseTrees_eq_ok_iff_readsTrees, readsTrees_iff, implies_true]
  refine ⟨?_, htrees⟩
  rw [← linesDerive_iff_forall .start]
  constructor
  · rintro ⟨trees, htree⟩
    obtain ⟨statements, hderived, -⟩ := (htrees trees).mp htree
    exact ⟨statements, hderived⟩
  · rintro ⟨statements, hderived⟩
    exact ⟨_, (htrees _).mpr ⟨statements, hderived, rfl⟩⟩

end EvmAssembly
