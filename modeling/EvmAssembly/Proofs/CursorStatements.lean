import EvmAssembly.Proofs.CursorWords
import EvmAssembly.Proofs.LineGrammar

/-!
# Statements under a cursor

The walk over a statement follows its reading, up to one difference: behind an operation without an
operand, the blanks have been gone over already, because a colon was looked for behind them.
-/

namespace EvmAssembly

variable {s rest gap : Bytes} {cursor first : Cursor} {place : Location} {limit : Nat}

/-- Reads a list of at least one argument. -/
def scanArguments (s : Bytes) : Scan (Actuals × Bytes) := do
  let (first, rest) ← scanActual s
  let (others, last) ← scanFurther (rest.dropWhile isBlank)
  return (⟨first, rest.takeWhile isBlank, others⟩, last)

/-- The trees of arguments behind others. -/
def treesBehind (given : List Tree) (actuals : Actuals) (place : Location) : List Tree :=
  given ++ actuals.trees place

/-- The second argument is the first of the list that begins there. -/
theorem treesBehind_cons (given : List Tree) (value : Actual) (trail lead : Bytes)
    (more : Actuals) : treesBehind given
      ⟨value, trail, ⟨lead, more.first, more.trail⟩ :: more.others⟩ place =
      treesBehind (given ++ [value.tree place]) more
        (place.after (value.text ++ trail ++ "," ++ lead)) := by
  simp [treesBehind, Actuals.trees_cons]

theorem scanActual_length_lt {actual : Actual} (h : scanActual s = .ok (actual, rest)) :
    rest.length < s.length := by
  have hbegins := (scanActual_valid h).startsWith_begins []
  rw [List.append_nil] at hbegins
  obtain ⟨c, tail, htext, -⟩ := startsWith_eq_true hbegins
  rw [scanActual_text h, htext, List.length_append, List.length_cons]
  omega

/-- Behind a comma, the further arguments are a list of their own. -/
theorem scanFurther_list (body : Bytes) : scanFurther (','.toUInt8 :: body) =
    (scanArguments (body.dropWhile isBlank)).map fun read =>
      (⟨body.takeWhile isBlank, read.1.first, read.1.trail⟩ :: read.1.others, read.2) := by
  rw [scanFurther_comma, scanArguments]
  simp only [scan_map_bind]
  rfl

theorem scanFurther_end (h : startsWith (· = ','.toUInt8) s = false) :
    scanFurther s = .ok ([], s) := by
  rw [scanFurther, dif_neg (Bool.eq_false_iff.mp h)]

theorem Follows.arguments (given : List Tree) {turns : Nat} (hlimit : s.length < limit)
    (hturns : rest.length < turns) (h : Stands s rest cursor) :
    Follows s (Walk.arguments s limit given turns) cursor
      ((scanArguments rest).map (shownAt (treesBehind given) cursor.place)) := by
  induction turns generalizing rest cursor given with
  | zero => exact absurd hturns (Nat.not_lt_zero _)
  | succ turns ih =>
    rw [scanArguments, scan_map_bind]
    refine .get ((argument hlimit h).piece fun value tail behind hread hbehind => ?_)
    refine (skipBlanks hlimit hbehind).andThen fun last hlast => .get ?_
    have hlt : (tail.dropWhile isBlank).length < rest.length :=
      Nat.lt_of_le_of_lt (length_dropWhile_le isBlank tail) (scanActual_length_lt hread)
    simp only [ne_eq, hlast.peek_iff (c := ','.toUInt8) (by decide), ite_not]
    split
    · rename_i hcomma
      have htail := List.takeWhile_append_dropWhile (p := isBlank) (l := tail)
      obtain ⟨body, hbody⟩ : ∃ body, tail.dropWhile isBlank = ','.toUInt8 :: body :=
        ⟨_, drop_one_of_startsWith hcomma⟩
      have hsplit := List.takeWhile_append_dropWhile (p := isBlank) (l := body)
      have hshort : (body.dropWhile isBlank).length < rest.length := by
        have hle := length_dropWhile_le isBlank body
        rw [hbody, List.length_cons] at hlt
        omega
      rw [hbody] at hlast
      refine (advance hlast).andThen fun inside hinside => ?_
      refine (skipBlanks hlimit hinside).andThen fun next hnext => ?_
      refine (noteTurn h hnext hshort).andThen fun noted hnoted => ?_
      have hplace : noted.place = cursor.place.after (value.text ++ tail.takeWhile isBlank ++
          "," ++ body.takeWhile isBlank) := by
        refine Stands.place_after ?_ hnoted
        rw [scanActual_text hread, ← htail, hbody, ← hsplit] at h
        simpa [utf8_comma] using h
      have hmore := ih (given ++ [value.tree cursor.place]) (by omega) hnoted
      rw [hbody, scanFurther_list]
      generalize scanArguments (body.dropWhile isBlank) = reading at hmore ⊢
      cases reading with
      | error fault => exact hmore
      | ok read =>
        rw [hplace] at hmore
        simp only [Except.map, shownAt, ← treesBehind_cons] at hmore
        exact hmore
    · rename_i hcomma
      rw [scanFurther_end (Bool.eq_false_iff.mpr hcomma)]
      exact (noteTurn h hlast hlt).andThen fun noted hnoted => .pure hnoted _

theorem scanActuals_eq (s : Bytes) : scanActuals s =
    if startsWith (· = ')'.toUInt8) s then .ok (none, s)
    else (scanArguments s).map fun read => (some read.1, read.2) := by
  simp only [scanActuals, scanArguments, scan_map_bind]
  rfl

/-- The trees of arguments, if there are any. -/
def actualTrees (actuals : Option Actuals) (place : Location) : List Tree :=
  match actuals with
  | none => []
  | some actuals => actuals.trees place

theorem argumentTrees_eq (name : Directive) (pad : Bytes) (actuals : Option Actuals) :
    Statement.argumentTrees name pad actuals place =
      actualTrees actuals (place.after (Statement.directiveOpening name ++ pad)) := by
  cases actuals <;> rfl

/-- Where the cursor stands when it has gone over a statement with the given text behind it. -/
def Statement.behind (statement : Statement) (rest : Bytes) : Bytes :=
  match statement with
  | plain _ => rest.dropWhile isBlank
  | _ => rest

/-- What a reading shows of a statement. -/
def statementAt (place : Location) (read : Statement × Bytes) : Tree × Bytes :=
  (read.1.tree place, read.1.behind read.2)

namespace Follows

theorem argumentList (hlimit : s.length < limit) (h : Stands s rest cursor) :
    Follows s (Walk.argumentList s limit) cursor
      ((scanActuals rest).map (shownAt actualTrees cursor.place)) := by
  refine .get ?_
  simp only [ne_eq, h.peek_iff (c := ')'.toUInt8) (by decide), ite_not, scanActuals_eq]
  split
  · exact .pure h _
  · have hlist := arguments [] hlimit (h.length_lt hlimit) h
    generalize scanArguments rest = reading at hlist ⊢
    cases reading <;> exact hlist

theorem directive (hlimit : s.length < limit) (h : Stands s rest cursor)
    (hmark : startsWith (· = '%'.toUInt8) rest = true) : Follows s (Walk.directive s limit) cursor
      ((scanDirective rest).map (statementAt cursor.place)) := by
  have hpercent := h
  rw [drop_one_of_startsWith hmark] at hpercent
  refine .get ((advance hpercent).andThen fun inner hinner => .get ?_)
  simp only [hinner.peek_class isNameStart (by decide), scanDirective]
  split
  · refine (name hlimit hinner).andThen fun behind hbehind => ?_
    cases hword : Directive.ofWord? ((rest.drop 1).takeWhile isNameChar) with
    | none => exact .faultAt h hbehind rfl
    | some directive =>
      simp only [scan_map_bind]
      refine (expect hbehind).seq fun list opened hopen hopened => ?_
      refine (skipBlanks hlimit hopened).andThen fun padded hpadded => ?_
      refine (argumentList hlimit hpadded).piece fun actuals tail last hread hlast => ?_
      refine (expect hlast).seq fun ending closed hclose hclosed => ?_
      have hopening : rest = Statement.directiveOpening directive ++ list := by
        rw [drop_one_of_startsWith hmark, ← List.takeWhile_append_dropWhile (p := isNameChar)
          (l := rest.drop 1), ← Directive.word_of_ofWord? hword, readByte_eq_ok.mp hopen]
        simp [Statement.directiveOpening]
      have hbody : Stands s ((Statement.directiveOpening directive ++ list.takeWhile isBlank) ++
          list.dropWhile isBlank) cursor := by
        rwa [List.append_assoc, List.takeWhile_append_dropWhile, ← hopening]
      have hwhole : Stands s ((Statement.directive directive (list.takeWhile isBlank)
          actuals).text ++ ending) cursor := by
        rw [scanActuals_text hread, readByte_eq_ok.mp hclose] at hbody
        simpa [Statement.text] using hbody
      have hplace := hbody.place_after hpadded
      refine (slice hwhole hclosed).andThen fun sliced hsliced => ?_
      rw [hplace, ← argumentTrees_eq]
      exact .pure hsliced _
  · exact .fault hinner

end Follows

/-- Whether a statement ends here is seen in the next byte. -/
theorem Stands.endsHere_eq (h : Stands s rest cursor) :
    (cursor.atEnd s || isSeparator (cursor.peek s 0) ||
      decide (cursor.peek s 0 = '#'.toUInt8)) = endsHere rest := by
  rw [endsHere, h.atEnd_eq, h.peek_class isSeparator (by decide),
    h.peek_class (· = '#'.toUInt8) (by decide)]

namespace Follows

theorem push {operation : Operation} (hlimit : s.length < limit)
    (hfirst : Stands s (operation.mnemonic ++ gap ++ rest) first) (h : Stands s rest cursor) :
    Follows s (Walk.push s limit operation.mnemonic first) cursor
      ((scanOperand rest >>= fun read => .ok (Statement.push operation gap read.1, read.2)).map
        (statementAt first.place)) := by
  have hplace := hfirst.place_after h
  rw [scan_map_bind]
  refine (operand hlimit h).piece fun value tail last hread hlast => ?_
  have hwhole : Stands s ((Statement.push operation gap value).text ++ tail) first := by
    rw [scanOperand_text hread] at hfirst
    simpa [Statement.text] using hfirst
  refine (slice hwhole hlast).andThen fun sliced hsliced => ?_
  rw [hplace]
  exact .pure hsliced _

theorem statement (hlimit : s.length < limit) (h : Stands s rest cursor) :
    Follows s (Walk.statement s limit) cursor
      ((scanStatement rest).map (statementAt cursor.place)) := by
  refine .get ?_
  simp only [h.peek_iff (c := '%'.toUInt8) (by decide), h.peek_class isNameStart (by decide),
    scanStatement]
  split
  · rename_i hmark
    exact directive hlimit h hmark
  · split
    · have hgap := List.takeWhile_append_dropWhile (p := isBlank) (l := rest.dropWhile isNameChar)
      have hword : Stands s (rest.takeWhile isNameChar ++
          (rest.dropWhile isNameChar).takeWhile isBlank ++
          (rest.dropWhile isNameChar).dropWhile isBlank) cursor := by
        rwa [List.append_assoc, hgap, List.takeWhile_append_dropWhile]
      refine (name hlimit h).andThen fun behind hbehind => .get ?_
      refine (skipBlanks hlimit hbehind).andThen fun last hlast => .get ?_
      simp only [hlast.peek_iff (c := ':'.toUInt8) (by decide)]
      split
      · rename_i hcolon
        have hbehindColon := hlast
        rw [drop_one_of_startsWith hcolon] at hbehindColon hword
        refine (advance hbehindColon).andThen fun ending hending => ?_
        have hwhole : Stands s ((Statement.label (rest.takeWhile isNameChar)
            ((rest.dropWhile isNameChar).takeWhile isBlank)).text ++
            ((rest.dropWhile isNameChar).dropWhile isBlank).drop 1) cursor := by
          simpa [Statement.text] using hword
        exact (slice hwhole hending).andThen fun sliced hsliced => .pure hsliced _
      · cases hoperation : Operation.ofMnemonic? (rest.takeWhile isNameChar) with
        | none => exact .faultAt h hlast rfl
        | some operation =>
          have hmnemonic := Operation.mnemonic_of_ofMnemonic? hoperation
          rw [← hgap] at hbehind
          simp only [hlast.endsHere_eq, hbehind.position_eq_iff hlast, scanPush]
          split
          · rw [← hmnemonic] at hword ⊢
            split
            · exact .fault hlast
            · split
              · exact .fault hlast
              · exact push hlimit hword hlast
          · rw [← hmnemonic]
            exact .pure hlast _
    · exact .fault h

end Follows

end EvmAssembly
