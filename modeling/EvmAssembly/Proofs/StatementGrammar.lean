import EvmAssembly.Proofs.MnemonicLookup
import EvmAssembly.Proofs.WordGrammar

/-!
# Statements and the text behind them

What the reader gives for a statement is well formed, and it reads every well-formed statement that
ends where a statement may end: at a separator, a comment or the end of the text, blanks apart.
-/

namespace EvmAssembly

variable {s rest : Bytes}

structure FurtherActual.Valid (item : FurtherActual) : Prop where
  lead : item.lead.all isBlank = true
  value : item.value.Valid
  trail : item.trail.all isBlank = true

structure Actuals.Valid (actuals : Actuals) : Prop where
  first : actuals.first.Valid
  trail : actuals.trail.all isBlank = true
  others : ∀ item ∈ actuals.others, item.Valid

def Statement.Valid : Statement → Prop
  | label name gap => IsName name ∧ gap.all isBlank = true
  | plain operation => operation ∈ Operation.table ∧ operation.encoding.hasImmediate = false
  | push operation gap operand =>
    (operation ∈ Operation.table ∧ operation.encoding.hasImmediate = true) ∧
      (gap ≠ [] ∧ gap.all isBlank = true) ∧ operand.Valid
  | directive _ pad actuals => pad.all isBlank = true ∧ ∀ given ∈ actuals, given.Valid

theorem scanFurther_valid {others : List FurtherActual} (h : scanFurther s = .ok (others, rest)) :
    ∀ item ∈ others, item.Valid := by
  fun_induction scanFurther s generalizing others rest with
  | case1 => cases h
  | case2 s hs body value after hvalue =>
    rename_i ih
    obtain ⟨⟨more, last⟩, hmore, h⟩ := scan_bind_eq_ok.mp h
    cases h
    intro item hitem
    rcases List.mem_cons.mp hitem with rfl | hitem
    · exact ⟨List.all_takeWhile, scanActual_valid hvalue, List.all_takeWhile⟩
    · exact ih hmore item hitem
  | case3 =>
    cases h
    intro item hitem
    cases hitem

theorem scanActuals_valid {actuals : Option Actuals} (h : scanActuals s = .ok (actuals, rest)) :
    ∀ given ∈ actuals, given.Valid := by
  unfold scanActuals at h
  split at h
  · cases h
    nofun
  · obtain ⟨⟨first, after⟩, hfirst, h⟩ := scan_bind_eq_ok.mp h
    obtain ⟨⟨others, last⟩, hothers, h⟩ := scan_bind_eq_ok.mp h
    cases h
    rintro given ⟨⟩
    exact ⟨scanActual_valid hfirst, List.all_takeWhile, scanFurther_valid hothers⟩

theorem scanDirective_valid {statement : Statement}
    (h : scanDirective s = .ok (statement, rest)) : statement.Valid := by
  simp only [scanDirective] at h
  split at h
  · split at h
    · simp at h
    · obtain ⟨list, -, h⟩ := scan_bind_eq_ok.mp h
      obtain ⟨⟨actuals, after⟩, hactuals, h⟩ := scan_bind_eq_ok.mp h
      obtain ⟨last, -, h⟩ := scan_bind_eq_ok.mp h
      cases h
      exact ⟨List.all_takeWhile, scanActuals_valid hactuals⟩
  · simp at h

theorem scanPush_valid {operation : Operation} {gap : Bytes} {statement : Statement}
    (hop : operation ∈ Operation.table ∧ operation.encoding.hasImmediate = true)
    (hgap : gap.all isBlank = true) (h : scanPush operation gap s = .ok (statement, rest)) :
    statement.Valid := by
  unfold scanPush at h
  split at h
  · simp at h
  · split at h
    · simp at h
    · rename_i hne
      obtain ⟨⟨operand, after⟩, hoperand, h⟩ := scan_bind_eq_ok.mp h
      cases h
      exact ⟨hop, ⟨hne, hgap⟩, scanOperand_valid hoperand⟩

theorem scanStatement_valid {statement : Statement}
    (h : scanStatement s = .ok (statement, rest)) : statement.Valid := by
  simp only [scanStatement] at h
  split at h
  · exact scanDirective_valid h
  · split at h
    · rename_i hstart
      split at h
      · cases h
        exact ⟨isName_takeWhile hstart, List.all_takeWhile⟩
      · split at h
        · simp at h
        · rename_i operation hop
          have hmem := (Operation.ofMnemonic?_eq_some_iff.mp hop).1
          split at h
          · rename_i himm
            exact scanPush_valid ⟨hmem, himm⟩ List.all_takeWhile h
          · rename_i himm
            cases h
            exact ⟨hmem, by simpa using himm⟩
    · simp at h

theorem startsWith_blanks {gap : Bytes} (hgap : gap.all isBlank = true)
    (hr : startsWith isNameChar rest = false) : startsWith isNameChar (gap ++ rest) = false := by
  cases gap with
  | nil => exact hr
  | cons b gap => exact isNameChar_of_isBlank (List.all_eq_true.mp hgap b (by simp))

/-- What stands behind an argument: more of them, and the end of the list. -/
private def furtherText (others : List FurtherActual) (rest : Bytes) : Bytes :=
  others.flatMap FurtherActual.text ++ ')'.toUInt8 :: rest

private theorem furtherText_cons (item : FurtherActual) (others : List FurtherActual)
    (rest : Bytes) : furtherText (item :: others) rest = ','.toUInt8 ::
      (item.lead ++ (item.value.text ++ (item.trail ++ furtherText others rest))) := by
  simp [furtherText, FurtherActual.text]

private theorem furtherText_name (others : List FurtherActual) (rest : Bytes) :
    startsWith isNameChar (furtherText others rest) = false := by
  cases others <;> rfl

private theorem furtherText_blank (others : List FurtherActual) (rest : Bytes) :
    startsWith isBlank (furtherText others rest) = false := by
  cases others <;> rfl

/-- Behind a comma an argument is read, and then the arguments behind that one. -/
theorem scanFurther_comma (body : Bytes) : scanFurther (','.toUInt8 :: body) = (do
    let (value, after) ← scanActual (body.dropWhile isBlank)
    let (others, last) ← scanFurther (after.dropWhile isBlank)
    return (⟨body.takeWhile isBlank, value, after.takeWhile isBlank⟩ :: others, last)) := by
  rw [scanFurther, dif_pos (by rfl)]
  dsimp only
  split
  · rename_i hread
    change scanActual (body.dropWhile isBlank) = _ at hread
    rw [hread]
    rfl
  · rename_i hread
    change scanActual (body.dropWhile isBlank) = _ at hread
    rw [hread]
    rfl

theorem scanFurther_text_append {others : List FurtherActual} (h : ∀ item ∈ others, item.Valid)
    (rest : Bytes) : scanFurther (furtherText others rest) = .ok (others, ')'.toUInt8 :: rest) := by
  induction others with
  | nil =>
    rw [scanFurther, dif_neg]
    · rfl
    · exact Bool.false_ne_true
  | cons item others ih =>
    obtain ⟨hlead, hvalue, htrail⟩ := h item (by simp)
    have hothers := ih fun other hother => h other (by simp [hother])
    have hblank := furtherText_blank others rest
    have hstop := hvalue.startsWith_other (fun _ => beginsActual_of_isBlank)
      (item.trail ++ furtherText others rest)
    have hread := scanActual_text_append hvalue
      (startsWith_blanks htrail (furtherText_name others rest))
    rw [← dropWhile_run hlead hstop] at hread
    rw [← dropWhile_run htrail hblank] at hothers
    rw [furtherText_cons, scanFurther_comma, takeWhile_run hlead hstop]
    refine scan_bind_eq_ok.mpr ⟨_, hread, scan_bind_eq_ok.mpr ⟨_, hothers, ?_⟩⟩
    rw [takeWhile_run htrail hblank]
    rfl

theorem scanActuals_text_append {actuals : Option Actuals} (h : ∀ given ∈ actuals, given.Valid)
    (rest : Bytes) : scanActuals (Statement.actualsText actuals ++ ')'.toUInt8 :: rest) =
      .ok (actuals, ')'.toUInt8 :: rest) := by
  cases actuals with
  | none => rfl
  | some actuals =>
    obtain ⟨hfirst, htrail, hothers⟩ := h actuals rfl
    have hblank := furtherText_blank actuals.others rest
    have hsplit : Statement.actualsText (some actuals) ++ ')'.toUInt8 :: rest =
        actuals.first.text ++ (actuals.trail ++ furtherText actuals.others rest) := by
      simp [Statement.actualsText, Actuals.text, furtherText]
    have hclose : ∀ c : UInt8, decide (c = ')'.toUInt8) = true → beginsActual c = false := by
      intro c hc
      rw [of_decide_eq_true hc]
      rfl
    have hread := scanActual_text_append hfirst
      (startsWith_blanks htrail (furtherText_name actuals.others rest))
    have hmore := scanFurther_text_append hothers rest
    rw [← dropWhile_run htrail hblank] at hmore
    rw [hsplit, scanActuals, hfirst.startsWith_other hclose]
    refine scan_bind_eq_ok.mpr ⟨_, hread, scan_bind_eq_ok.mpr ⟨_, hmore, ?_⟩⟩
    rw [takeWhile_run htrail hblank]
    rfl

theorem Directive.ofWord?_word (directive : Directive) :
    Directive.ofWord? directive.word = some directive := by
  obtain (_ | _ | _) | _ := directive <;> decide

theorem Directive.isName_word (directive : Directive) : IsName directive.word := by
  obtain (_ | _ | _) | _ := directive <;> decide

private theorem actualsText_blank {actuals : Option Actuals} (h : ∀ given ∈ actuals, given.Valid)
    (rest : Bytes) :
    startsWith isBlank (Statement.actualsText actuals ++ ')'.toUInt8 :: rest) = false := by
  cases actuals with
  | none => rfl
  | some actuals =>
    rw [Statement.actualsText, Actuals.text, List.append_assoc, List.append_assoc]
    exact (h actuals rfl).first.startsWith_other (fun _ => beginsActual_of_isBlank) _

theorem scanDirective_text_append {directive : Directive} {pad : Bytes}
    {actuals : Option Actuals} (h : (Statement.directive directive pad actuals).Valid)
    (rest : Bytes) : scanDirective ((Statement.directive directive pad actuals).text ++ rest) =
      .ok (.directive directive pad actuals, rest) := by
  obtain ⟨hpad, hactuals⟩ := h
  have hname := directive.isName_word
  have hblank := actualsText_blank hactuals rest
  have hbody : ((Statement.directive directive pad actuals).text ++ rest).drop 1 =
      directive.word ++ '('.toUInt8 ::
        (pad ++ (Statement.actualsText actuals ++ ')'.toUInt8 :: rest)) := by
    simp [Statement.text, Statement.directiveOpening]
  have hstop : ∀ tail, startsWith isNameChar ('('.toUInt8 :: tail) = false := fun _ => rfl
  have hread := scanActuals_text_append hactuals rest
  rw [← dropWhile_run hpad hblank] at hread
  simp only [scanDirective, hbody, hname.startsWith_append, hname.takeWhile_append (hstop _),
    hname.dropWhile_append (hstop _), Directive.ofWord?_word, if_true]
  refine scan_bind_eq_ok.mpr ⟨_, rfl, scan_bind_eq_ok.mpr ⟨_, hread, ?_⟩⟩
  refine scan_bind_eq_ok.mpr ⟨rest, rfl, ?_⟩
  rw [takeWhile_run hpad hblank]
  rfl

/-- A statement may end before this text. -/
def mayFollow (rest : Bytes) : Bool := endsHere (rest.dropWhile isBlank)

theorem mayFollow_cons (c : UInt8) (s : Bytes) : mayFollow (c :: s) =
    if isBlank c then mayFollow s else isSeparator c || c = '#'.toUInt8 := by
  by_cases hc : isBlank c = true
  · rw [if_pos hc, mayFollow, List.dropWhile_cons_of_pos hc, mayFollow]
  · rw [if_neg hc, mayFollow, List.dropWhile_cons_of_neg hc]
    rfl

/-- Behind a statement stands nothing that could belong to it. -/
theorem endsWord_of_mayFollow (h : mayFollow rest = true) : endsWord rest := by
  cases rest with
  | nil => exact ⟨rfl, rfl⟩
  | cons c rest =>
    by_cases hc : isBlank c = true
    · refine ⟨isNameChar_of_isBlank hc, ?_⟩
      rw [startsWith_cons, decide_eq_false_iff_not]
      rintro rfl
      exact absurd hc (by decide)
    · simp only [mayFollow, endsHere, List.dropWhile_cons_of_neg hc, startsWith_cons,
        Bool.or_eq_true, decide_eq_true_eq, reduceCtorEq, false_or] at h
      obtain hsep | rfl := h
      · refine ⟨isNameChar_of_isSeparator hsep, ?_⟩
        rw [startsWith_cons, decide_eq_false_iff_not]
        rintro rfl
        exact absurd hsep (by decide)
      · exact ⟨rfl, rfl⟩

theorem startsWith_blank_of_endsHere (h : endsHere s = true) : startsWith isBlank s = false := by
  cases s with
  | nil => rfl
  | cons c s =>
    simp only [endsHere, startsWith_cons, Bool.or_eq_true, decide_eq_true_eq, reduceCtorEq,
      false_or] at h
    rcases h with hsep | rfl
    · exact isBlank_of_isSeparator hsep
    · rfl

private theorem startsWith_colon_of_endsHere (h : endsHere s = true) :
    startsWith (· = ':'.toUInt8) s = false := by
  cases s with
  | nil => rfl
  | cons c s =>
    rw [startsWith_cons, decide_eq_false_iff_not]
    rintro rfl
    exact Bool.false_ne_true h

theorem Operand.Valid.startsWith_word {operand : Operand} (h : operand.Valid) (rest : Bytes) :
    startsWith isNameChar (operand.text ++ rest) = true := by
  cases operand with
  | number value =>
    obtain ⟨c, tail, htext, hc⟩ := startsWith_eq_true (Number.Valid.startsWith_digit h rest)
    rw [Operand.text, htext]
    exact isNameChar_of_isDecimalDigit hc
  | label name =>
    obtain ⟨c, tail, htext, hc⟩ := startsWith_eq_true (IsName.startsWith_append h rest)
    rw [Operand.text, htext]
    exact isNameChar_of_isNameStart hc
  | selector signature => rfl

/-- The text of an operand is neither a colon nor the end of a statement. -/
private theorem not_endsHere_of_word (h : startsWith isNameChar s = true) :
    startsWith isBlank s = false ∧ startsWith (· = ':'.toUInt8) s = false ∧
      endsHere s = false := by
  obtain ⟨c, tail, rfl, hc⟩ := startsWith_eq_true h
  have hblank : isBlank c = false := by
    rw [← Bool.not_eq_true]
    intro hb
    rw [isNameChar_of_isBlank hb] at hc
    cases hc
  have hsep : isSeparator c = false := by
    rw [← Bool.not_eq_true]
    intro hb
    rw [isNameChar_of_isSeparator hb] at hc
    cases hc
  have hcolon : c ≠ ':'.toUInt8 := by
    rintro rfl
    cases hc
  have hcomment : c ≠ '#'.toUInt8 := by
    rintro rfl
    cases hc
  simp [endsHere, hblank, hsep, hcolon, hcomment]

/-- Reading a statement that begins with a name goes by what stands behind the name. -/
theorem scanStatement_name {name : Bytes} (hname : IsName name)
    (hr : startsWith isNameChar rest = false) :
    scanStatement (name ++ rest) =
      if startsWith (· = ':'.toUInt8) (rest.dropWhile isBlank) then
        .ok (.label name (rest.takeWhile isBlank), (rest.dropWhile isBlank).drop 1)
      else
        match Operation.ofMnemonic? name with
        | none => fail (.unknownInstruction name) (name ++ rest)
        | some operation =>
          if operation.encoding.hasImmediate then
            scanPush operation (rest.takeWhile isBlank) (rest.dropWhile isBlank)
          else .ok (.plain operation, rest) := by
  have hstart := hname.startsWith_append rest
  have hpercent : startsWith (· = '%'.toUInt8) (name ++ rest) = false := by
    obtain ⟨c, tail, htext, hc⟩ := startsWith_eq_true hstart
    rw [htext, startsWith_cons, decide_eq_false_iff_not]
    rintro rfl
    exact absurd hc (by decide)
  simp only [scanStatement, hpercent, hstart, hname.takeWhile_append hr, hname.dropWhile_append hr,
    if_true]
  rfl

/-- A label ends with its colon, so anything may stand behind it. -/
theorem scanStatement_label_append {name gap : Bytes} (hname : IsName name)
    (hgap : gap.all isBlank = true) (rest : Bytes) :
    scanStatement ((Statement.label name gap).text ++ rest) = .ok (.label name gap, rest) := by
  have hcolon : startsWith isBlank (':'.toUInt8 :: rest) = false := rfl
  have hstop := startsWith_blanks hgap (rfl : startsWith isNameChar (':'.toUInt8 :: rest) = false)
  have hsplit : (Statement.label name gap).text ++ rest =
      name ++ (gap ++ ':'.toUInt8 :: rest) := by
    simp [Statement.text]
  rw [hsplit, scanStatement_name hname hstop, takeWhile_run hgap hcolon, dropWhile_run hgap hcolon]
  rfl

/-- Behind a push and its blanks an operand is read, if a word begins there. -/
theorem scanStatement_push {operation : Operation} {gap : Bytes}
    (hknown : operation ∈ Operation.table ∧ operation.encoding.hasImmediate = true)
    (hgap : gap ≠ [] ∧ gap.all isBlank = true) (hword : startsWith isNameChar s = true) :
    scanStatement (operation.mnemonic ++ (gap ++ s)) = (do
      let (operand, rest) ← scanOperand s
      return (.push operation gap operand, rest)) := by
  obtain ⟨hmem, himm⟩ := hknown
  obtain ⟨hne, hgap⟩ := hgap
  have hfound := Operation.ofMnemonic?_eq_some_iff.mpr ⟨hmem, rfl⟩
  obtain ⟨hblank, hcolon, hends⟩ := not_endsHere_of_word hword
  have hstop : startsWith isNameChar (gap ++ s) = false := by
    obtain ⟨b, tail, rfl⟩ := List.exists_cons_of_ne_nil hne
    exact isNameChar_of_isBlank (List.all_eq_true.mp hgap b (by simp))
  rw [scanStatement_name (Operation.isName_mnemonic hmem) hstop, takeWhile_run hgap hblank,
    dropWhile_run hgap hblank, hcolon, hfound]
  simp only [himm, scanPush, hends, if_neg hne]
  rfl

/-- Every well-formed statement is read to its end. -/
theorem scanStatement_text_append {statement : Statement} (h : statement.Valid)
    (hr : mayFollow rest = true) :
    scanStatement (statement.text ++ rest) = .ok (statement, rest) := by
  cases statement with
  | label name gap => exact scanStatement_label_append h.1 h.2 rest
  | plain operation =>
    obtain ⟨hmem, himm⟩ := h
    have hfound := Operation.ofMnemonic?_eq_some_iff.mpr ⟨hmem, rfl⟩
    -- A colon behind the mnemonic would make it a label, but none may follow a statement.
    rw [Statement.text, scanStatement_name (Operation.isName_mnemonic hmem)
      (endsWord_of_mayFollow hr).1, startsWith_colon_of_endsHere hr, hfound]
    simp [himm]
  | push operation gap operand =>
    obtain ⟨hknown, hgap, hoperand⟩ := h
    have hread := scanOperand_text_append hoperand (endsWord_of_mayFollow hr)
    have hsplit : (Statement.push operation gap operand).text ++ rest =
        operation.mnemonic ++ (gap ++ (operand.text ++ rest)) := by
      simp [Statement.text]
    rw [hsplit, scanStatement_push hknown hgap (hoperand.startsWith_word rest)]
    exact scan_bind_eq_ok.mpr ⟨_, hread, rfl⟩
  | directive directive pad actuals => exact scanDirective_text_append h rest

/-- A statement begins with a percent sign or a letter. -/
theorem Statement.Valid.startsWith_begins {statement : Statement} (h : statement.Valid)
    (rest : Bytes) :
    startsWith (fun c => c = '%'.toUInt8 || isNameStart c) (statement.text ++ rest) = true := by
  have hname : ∀ name tail, IsName name →
      startsWith (fun c => c = '%'.toUInt8 || isNameStart c) (name ++ tail) = true := by
    intro name tail hname
    obtain ⟨c, more, htext, hc⟩ := startsWith_eq_true (hname.startsWith_append tail)
    rw [htext]
    simp [hc]
  cases statement with
  | label name gap =>
    rw [Statement.text, List.append_assoc, List.append_assoc]
    exact hname _ _ h.1
  | plain operation => exact hname _ _ (Operation.isName_mnemonic h.1)
  | push operation gap operand =>
    rw [Statement.text, List.append_assoc, List.append_assoc]
    exact hname _ _ (Operation.isName_mnemonic h.1.1)
  | directive directive pad actuals => rfl

theorem newline_notMem_of_all {inClass : UInt8 → Bool} {text : Bytes}
    (h : text.all inClass = true) (hn : inClass newline = false) : newline ∉ text := by
  intro hmem
  rw [List.all_eq_true.mp h newline hmem] at hn
  cases hn

private theorem newline_notMem_blanks {gap : Bytes} (h : gap.all isBlank = true) : newline ∉ gap :=
  newline_notMem_of_all h (by decide)

private theorem IsName.newline_notMem {name : Bytes} (h : IsName name) : newline ∉ name :=
  newline_notMem_of_all h.2 (by decide)

private theorem Number.Valid.newline_notMem {number : Number} (h : number.Valid) :
    newline ∉ number.text := by
  have hdigits : newline ∉ number.digits := by
    intro hmem
    have hchar := Base.isNameChar_of_accepts (List.all_eq_true.mp h.digits newline hmem)
    exact absurd hchar (by decide)
  have hmark : newline ∉ number.base.mark := by cases number.base <;> decide
  simp [Number.text, hmark, hdigits]

private theorem Operand.Valid.newline_notMem {operand : Operand} (h : operand.Valid) :
    newline ∉ operand.text := by
  cases operand with
  | number value => exact Number.Valid.newline_notMem h
  | label name => exact IsName.newline_notMem h
  | selector signature =>
    have hsignature := newline_notMem_of_all (IsSignature.all_chars h) (by decide)
    have hopening : newline ∉ Operand.selectorOpening := by decide
    have hclosing : newline ∉ ['"'.toUInt8, ')'.toUInt8] := by decide
    simp only [Operand.text, List.mem_append, not_or]
    exact ⟨⟨hopening, hsignature⟩, hclosing⟩

private theorem Actual.Valid.newline_notMem {actual : Actual} (h : actual.Valid) :
    newline ∉ actual.text := by
  cases actual with
  | string contents =>
    have hcontents := newline_notMem_of_all h (by decide)
    have hquote : newline ≠ '"'.toUInt8 := by decide
    simp [Actual.text, hcontents, hquote]
  | number value => exact Number.Valid.newline_notMem h
  | label name => exact IsName.newline_notMem h

private theorem FurtherActual.Valid.newline_notMem {item : FurtherActual} (h : item.Valid) :
    newline ∉ item.text := by
  have hcomma : newline ≠ ','.toUInt8 := by decide
  simp [FurtherActual.text, hcomma, newline_notMem_blanks h.lead, h.value.newline_notMem,
    newline_notMem_blanks h.trail]

private theorem actualsText_newline {actuals : Option Actuals}
    (h : ∀ given ∈ actuals, given.Valid) : newline ∉ Statement.actualsText actuals := by
  cases actuals with
  | none => nofun
  | some actuals =>
    obtain ⟨hfirst, htrail, hothers⟩ := h actuals rfl
    simp only [Statement.actualsText, Actuals.text, List.mem_append, List.mem_flatMap, not_or]
    refine ⟨⟨hfirst.newline_notMem, newline_notMem_blanks htrail⟩, ?_⟩
    rintro ⟨item, hitem, hmem⟩
    exact (hothers item hitem).newline_notMem hmem

theorem Statement.Valid.newline_notMem {statement : Statement} (h : statement.Valid) :
    newline ∉ statement.text := by
  cases statement with
  | label name gap =>
    have hcolon : newline ≠ ':'.toUInt8 := by decide
    simp [Statement.text, h.1.newline_notMem, newline_notMem_blanks h.2, hcolon]
  | plain operation => exact (Operation.isName_mnemonic h.1).newline_notMem
  | push operation gap operand =>
    obtain ⟨⟨hmem, -⟩, ⟨-, hgap⟩, hoperand⟩ := h
    simp [Statement.text, (Operation.isName_mnemonic hmem).newline_notMem,
      newline_notMem_blanks hgap, hoperand.newline_notMem]
  | directive directive pad actuals =>
    have hopening : newline ∉ directiveOpening directive := by
      rcases directive with (_ | _ | _) | _ <;> decide
    have hclosing : newline ∉ [')'.toUInt8] := by decide
    simp only [Statement.text, List.mem_append, not_or]
    exact ⟨⟨⟨hopening, newline_notMem_blanks h.1⟩, actualsText_newline h.2⟩, hclosing⟩

end EvmAssembly
