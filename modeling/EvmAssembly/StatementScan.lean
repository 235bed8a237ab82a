import EvmAssembly.WordScan

/-!
# Reading a statement

A name with a colon behind it is a label, even if it is a mnemonic; otherwise it has to be one.
A percent sign begins a directive.
-/

namespace EvmAssembly

/-- Reads the arguments behind the first one, each after a comma. -/
def scanFurther (s : Bytes) : Scan (List FurtherActual × Bytes) :=
  if _comma : startsWith (· = ','.toUInt8) s then
    let body := s.drop 1
    match _read : scanActual (body.dropWhile isBlank) with
    | .error fault => .error fault
    | .ok (value, rest) => do
      let (others, last) ← scanFurther (rest.dropWhile isBlank)
      return (⟨body.takeWhile isBlank, value, rest.takeWhile isBlank⟩ :: others, last)
  else .ok ([], s)
termination_by s.length
decreasing_by
  obtain ⟨c, tail, rfl, -⟩ := startsWith_eq_true _comma
  have h₁ := congrArg List.length (scanActual_text _read)
  have h₂ := (List.dropWhile_suffix isBlank (l := tail)).length_le
  have h₃ := (List.dropWhile_suffix isBlank (l := rest)).length_le
  simp only [body, List.drop_succ_cons, List.drop_zero, List.length_append, List.length_cons]
    at h₁ ⊢
  omega

/-- Reads the arguments of a directive up to the closing parenthesis. -/
def scanActuals (s : Bytes) : Scan (Option Actuals × Bytes) :=
  if startsWith (· = ')'.toUInt8) s then .ok (none, s)
  else do
    let (first, rest) ← scanActual s
    let (others, last) ← scanFurther (rest.dropWhile isBlank)
    return (some ⟨first, rest.takeWhile isBlank, others⟩, last)

/-- Reads a directive from its percent sign on. -/
def scanDirective (s : Bytes) : Scan (Statement × Bytes) :=
  let body := s.drop 1
  if startsWith isNameStart body then
    let word := body.takeWhile isNameChar
    match Directive.ofWord? word with
    | none => fail (.unknownDirective word) s
    | some directive => do
      let list ← readByte '('.toUInt8 (.argumentsOpening directive) (body.dropWhile isNameChar)
      let (actuals, rest) ← scanActuals (list.dropWhile isBlank)
      let rest ← readByte ')'.toUInt8 (.argumentsEnd directive) rest
      return (.directive directive (list.takeWhile isBlank) actuals, rest)
  else fail (.expected .directiveName) body

/-- A statement ends at the end of the text, at a separator or at a comment. -/
def endsHere (s : Bytes) : Bool :=
  s = [] || startsWith isSeparator s || startsWith (· = '#'.toUInt8) s

/-- Reads what stands behind a push operation, of which `gap` are the blanks. -/
def scanPush (operation : Operation) (gap s : Bytes) : Scan (Statement × Bytes) :=
  if endsHere s then fail (.operandMissing operation.mnemonic) s
  else if gap = [] then fail (.expected (.gap operation.mnemonic)) s
  else do
    let (operand, rest) ← scanOperand s
    return (.push operation gap operand, rest)

def scanStatement (s : Bytes) : Scan (Statement × Bytes) :=
  if startsWith (· = '%'.toUInt8) s then scanDirective s
  else if startsWith isNameStart s then
    let name := s.takeWhile isNameChar
    let behind := s.dropWhile isNameChar
    let gap := behind.takeWhile isBlank
    let rest := behind.dropWhile isBlank
    if startsWith (· = ':'.toUInt8) rest then .ok (.label name gap, rest.drop 1)
    else
      match Operation.ofMnemonic? name with
      | none => fail (.unknownInstruction name) s
      | some operation =>
        if operation.encoding.hasImmediate then scanPush operation gap rest
        else .ok (.plain operation, behind)
  else fail (.expected .statement) s

private theorem blanks_split {s rest : Bytes} (h : s.dropWhile isBlank = rest) :
    s = s.takeWhile isBlank ++ rest := by
  rw [← h, List.takeWhile_append_dropWhile]

theorem scanFurther_text {s rest : Bytes} {others : List FurtherActual}
    (h : scanFurther s = .ok (others, rest)) :
    s = others.flatMap FurtherActual.text ++ rest := by
  fun_induction scanFurther s generalizing others rest with
  | case1 => cases h
  | case2 s hs body value after hv =>
    rename_i ih
    obtain ⟨⟨more, last⟩, hmore, h⟩ := scan_bind_eq_ok.mp h
    cases h
    have hlead := blanks_split (scanActual_text hv)
    have htrail := blanks_split (ih hmore)
    calc s = ','.toUInt8 :: body := drop_one_of_startsWith hs
      _ = ','.toUInt8 :: (body.takeWhile isBlank ++ (value.text ++ after)) := by rw [← hlead]
      _ = ','.toUInt8 :: (body.takeWhile isBlank ++ (value.text ++ (after.takeWhile isBlank ++
          (more.flatMap FurtherActual.text ++ rest)))) := by rw [← htrail]
      _ = _ := by simp [FurtherActual.text]
  | case3 =>
    cases h
    rfl

theorem scanActuals_text {s rest : Bytes} {actuals : Option Actuals}
    (h : scanActuals s = .ok (actuals, rest)) : s = Statement.actualsText actuals ++ rest := by
  unfold scanActuals at h
  split at h
  · cases h
    rfl
  · obtain ⟨⟨first, after⟩, hfirst, h⟩ := scan_bind_eq_ok.mp h
    obtain ⟨⟨others, last⟩, hothers, h⟩ := scan_bind_eq_ok.mp h
    cases h
    have htrail := blanks_split (scanFurther_text hothers)
    calc s = first.text ++ after := scanActual_text hfirst
      _ = first.text ++ (after.takeWhile isBlank ++
          (others.flatMap FurtherActual.text ++ rest)) := by rw [← htrail]
      _ = _ := by simp [Statement.actualsText, Actuals.text]

theorem Directive.word_of_ofWord? {word : Bytes} {directive : Directive}
    (h : Directive.ofWord? word = some directive) : directive.word = word := by
  simpa using List.find?_some h

theorem scanDirective_text {s rest : Bytes} {statement : Statement}
    (hs : startsWith (· = '%'.toUInt8) s = true) (h : scanDirective s = .ok (statement, rest)) :
    s = statement.text ++ rest := by
  simp only [scanDirective] at h
  split at h
  · split at h
    · simp at h
    · rename_i directive hword
      obtain ⟨list, hlist, h⟩ := scan_bind_eq_ok.mp h
      obtain ⟨⟨actuals, s₂⟩, hactuals, h⟩ := scan_bind_eq_ok.mp h
      obtain ⟨s₃, hclose, h⟩ := scan_bind_eq_ok.mp h
      cases h
      have hpad := blanks_split (scanActuals_text hactuals)
      calc s = '%'.toUInt8 :: s.drop 1 := drop_one_of_startsWith hs
        _ = '%'.toUInt8 :: (directive.word ++ '('.toUInt8 :: list) := by
          rw [Directive.word_of_ofWord? hword, ← readByte_eq_ok.mp hlist,
            List.takeWhile_append_dropWhile]
        _ = '%'.toUInt8 :: (directive.word ++ '('.toUInt8 :: (list.takeWhile isBlank ++
            (Statement.actualsText actuals ++ ')'.toUInt8 :: rest))) := by
          rw [← readByte_eq_ok.mp hclose, ← hpad]
        _ = _ := by simp [Statement.text, Statement.directiveOpening]
  · simp at h

theorem Operation.mnemonic_of_ofMnemonic? {name : Bytes} {operation : Operation}
    (h : Operation.ofMnemonic? name = some operation) : operation.mnemonic = name := by
  simpa using List.find?_some h

theorem scanPush_text {operation : Operation} {gap s rest : Bytes} {statement : Statement}
    (h : scanPush operation gap s = .ok (statement, rest)) :
    operation.mnemonic ++ gap ++ s = statement.text ++ rest := by
  unfold scanPush at h
  split at h
  · simp at h
  · split at h
    · simp at h
    · obtain ⟨⟨operand, r⟩, hoperand, h⟩ := scan_bind_eq_ok.mp h
      cases h
      rw [scanOperand_text hoperand]
      simp [Statement.text]

theorem scanStatement_text {s rest : Bytes} {statement : Statement}
    (h : scanStatement s = .ok (statement, rest)) : s = statement.text ++ rest := by
  simp only [scanStatement] at h
  split at h
  · exact scanDirective_text (by assumption) h
  · split at h
    · have hname := List.takeWhile_append_dropWhile (p := isNameChar) (l := s)
      have hgap := List.takeWhile_append_dropWhile (p := isBlank)
        (l := s.dropWhile isNameChar)
      split at h
      · rename_i hcolon
        cases h
        have hcolon := blanks_split (drop_one_of_startsWith hcolon)
        calc s = s.takeWhile isNameChar ++ s.dropWhile isNameChar := hname.symm
          _ = s.takeWhile isNameChar ++ ((s.dropWhile isNameChar).takeWhile isBlank ++
              ':'.toUInt8 :: ((s.dropWhile isNameChar).dropWhile isBlank).drop 1) := by
            rw [← hcolon]
          _ = _ := by simp [Statement.text]
      · split at h
        · simp at h
        · rename_i operation hop
          have hm := Operation.mnemonic_of_ofMnemonic? hop
          split at h
          · rw [← scanPush_text h, List.append_assoc, hgap, hm, hname]
          · cases h
            rw [Statement.text, hm, hname]
    · simp at h

theorem takeWhile_isNameChar_ne_nil {s : Bytes} (h : startsWith isNameStart s = true) :
    s.takeWhile isNameChar ≠ [] := by
  obtain ⟨c, rest, rfl, hc⟩ := startsWith_eq_true h
  simp [isNameChar, hc]

theorem scanStatement_text_ne_nil {s rest : Bytes} {statement : Statement}
    (h : scanStatement s = .ok (statement, rest)) : statement.text ≠ [] := by
  simp only [scanStatement] at h
  split at h
  · simp only [scanDirective] at h
    split at h
    · split at h
      · simp at h
      · obtain ⟨list, -, h⟩ := scan_bind_eq_ok.mp h
        obtain ⟨actuals, -, h⟩ := scan_bind_eq_ok.mp h
        obtain ⟨last, -, h⟩ := scan_bind_eq_ok.mp h
        cases h
        simp [Statement.text]
    · simp at h
  · split at h
    · rename_i hstart
      split at h
      · cases h
        simp [Statement.text]
      · split at h
        · simp at h
        · rename_i operation hop
          split at h
          · simp only [scanPush] at h
            split at h
            · simp at h
            · split at h
              · simp at h
              · rename_i hgap
                obtain ⟨operand, -, h⟩ := scan_bind_eq_ok.mp h
                cases h
                simp [Statement.text, hgap]
          · cases h
            rw [Statement.text, Operation.mnemonic_of_ofMnemonic? hop]
            exact takeWhile_isNameChar_ne_nil hstart
    · simp at h

theorem scanStatement_length_lt {s rest : Bytes} {statement : Statement}
    (h : scanStatement s = .ok (statement, rest)) : rest.length < s.length := by
  have hs := congrArg List.length (scanStatement_text h)
  have ht := List.length_pos_iff.mpr (scanStatement_text_ne_nil h)
  simp only [List.length_append] at hs
  omega

end EvmAssembly
