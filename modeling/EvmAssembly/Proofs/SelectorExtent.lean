import EvmAssembly.Proofs.LineComposition
import EvmAssembly.Proofs.SelectorPush

/-!
# Where the signature of a selector ends

The parentheses of a signature are balanced, and the one behind its name closes with its last byte.
Behind the opening of a selector there is one way to go on: with a signature, a quote and a
parenthesis. Which bytes are the signature is then settled, and every other text is a lexical error
of the program.
-/

namespace EvmAssembly

variable {n : Nat} {gap text signature rest before : Bytes} {first : List (Location × Statement)}

/-- How many parentheses a text opens without closing them. -/
def nesting (text : Bytes) : Int := text.count '('.toUInt8 - text.count ')'.toUInt8

theorem nesting_append (first second : Bytes) :
    nesting (first ++ second) = nesting first + nesting second := by
  simp only [nesting, List.count_append]
  omega

/-- Every parenthesis that closes has one before it that opens, and all are closed at the end. -/
structure Balanced (text : Bytes) : Prop where
  total : nesting text = 0
  within (k : Nat) : 0 ≤ nesting (text.take k)

/-- Balanced, and once a parenthesis is open, the last byte is the first that closes all. -/
structure Enclosed (text : Bytes) : Prop extends Balanced text where
  ending : text.getLast? = some ')'.toUInt8
  opened (k : Nat) : '('.toUInt8 ∈ text.take k → k < text.length → 0 < nesting (text.take k)

namespace Balanced

theorem of_plain (h : ∀ c ∈ text, c ≠ '('.toUInt8 ∧ c ≠ ')'.toUInt8) : Balanced text := by
  have hzero : ∀ part, (∀ c ∈ part, c ∈ text) → nesting part = 0 := by
    intro part hpart
    have hopen : part.count '('.toUInt8 = 0 :=
      List.count_eq_zero.mpr fun hmem => (h _ (hpart _ hmem)).1 rfl
    have hclose : part.count ')'.toUInt8 = 0 :=
      List.count_eq_zero.mpr fun hmem => (h _ (hpart _ hmem)).2 rfl
    rw [nesting, hopen, hclose]
    rfl
  exact ⟨hzero text fun _ => id, fun k => (hzero _ fun _ => List.mem_of_mem_take).ge⟩

theorem nil : Balanced [] := of_plain fun _ hc => absurd hc List.not_mem_nil

theorem single {c : UInt8} (hopen : c ≠ '('.toUInt8) (hclose : c ≠ ')'.toUInt8) : Balanced [c] := by
  apply of_plain
  intro b hb
  obtain rfl := List.mem_singleton.mp hb
  exact ⟨hopen, hclose⟩

theorem append {first second : Bytes} (hfirst : Balanced first) (hsecond : Balanced second) :
    Balanced (first ++ second) := by
  constructor
  · rw [nesting_append, hfirst.total, hsecond.total]
    rfl
  · intro k
    rw [List.take_append, nesting_append]
    exact Int.add_nonneg (hfirst.within k) (hsecond.within _)

/-- The first of two parentheses around a balanced text is open until the second one. -/
theorem open_within {inner : Bytes} (h : Balanced inner) {k : Nat} (hk : k ≤ inner.length) :
    0 < nesting (('('.toUInt8 :: inner ++ [')'.toUInt8]).take (k + 1)) := by
  have hsplit : ('('.toUInt8 :: inner ++ [')'.toUInt8]).take (k + 1) =
      ['('.toUInt8] ++ inner.take k := by
    rw [List.cons_append, List.take_succ_cons, List.take_append_of_le_length hk]
    rfl
  have hopening : nesting ['('.toUInt8] = 1 := by decide
  have hinner := h.within k
  rw [hsplit, nesting_append, hopening]
  omega

theorem wrap {inner : Bytes} (h : Balanced inner) :
    Balanced ('('.toUInt8 :: inner ++ [')'.toUInt8]) := by
  have htotal : nesting ('('.toUInt8 :: inner ++ [')'.toUInt8]) = 0 := by
    have hopening : nesting ['('.toUInt8] = 1 := by decide
    have hclosing : nesting [')'.toUInt8] = -1 := by decide
    change nesting (['('.toUInt8] ++ inner ++ [')'.toUInt8]) = 0
    rw [nesting_append, nesting_append, h.total, hopening, hclosing]
    rfl
  refine ⟨htotal, fun k => ?_⟩
  by_cases hk : k < inner.length + 2
  · cases k with
    | zero => exact le_rfl
    | succ k => exact (h.open_within (by omega)).le
  · rw [List.take_of_length_le (by simp; omega), htotal]

end Balanced

private theorem balanced_of_isNameChar (h : text.all isNameChar = true) : Balanced text := by
  apply Balanced.of_plain
  intro c hc
  have hchar := List.all_eq_true.mp h c hc
  constructor
  · rintro rfl
    exact absurd hchar (by decide)
  · rintro rfl
    exact absurd hchar (by decide)

theorem SignatureDerives.balanced {symbol : SignatureSymbol} (h : SignatureDerives symbol text) :
    Balanced text := by
  induction h with
  | empty => exact Balanced.nil.wrap
  | list _ ih => exact ih.wrap
  | last _ ih => exact ih
  | more _ _ ihfirst ihothers =>
    have hcomma : Balanced [','.toUInt8] := .single (by decide) (by decide)
    exact ihfirst.append (hcomma.append ihothers)
  | name hname => exact balanced_of_isNameChar hname.2
  | tuple _ ih => exact ih
  | @array type size _ hsize ih =>
    have hopening : Balanced ['['.toUInt8] := .single (by decide) (by decide)
    have hclosing : Balanced [']'.toUInt8] := .single (by decide) (by decide)
    have hdigits : Balanced size := by
      apply balanced_of_isNameChar
      rw [List.all_eq_true] at hsize ⊢
      exact fun c hc => isNameChar_of_isDecimalDigit (hsize c hc)
    rw [List.append_assoc]
    exact ih.append ((hopening.append hdigits).append hclosing)

/-- A list of parameters is a balanced text within parentheses. -/
theorem SignatureDerives.wrapped (h : SignatureDerives .parameters text) :
    ∃ inner, text = '('.toUInt8 :: inner ++ [')'.toUInt8] ∧ Balanced inner := by
  cases h with
  | empty => exact ⟨[], rfl, .nil⟩
  | list htypes => exact ⟨_, rfl, htypes.balanced⟩

theorem IsSignature.enclosed (h : IsSignature signature) : Enclosed signature := by
  obtain ⟨name, list, rfl, hname, hlist⟩ := h
  have hname := hname.2
  refine ⟨(balanced_of_isNameChar hname).append hlist.balanced, ?_, ?_⟩
  · obtain ⟨inner, rfl, -⟩ := hlist.wrapped
    rw [← List.append_assoc, List.getLast?_concat]
  · intro k hopen hk
    obtain ⟨inner, rfl, hinner⟩ := hlist.wrapped
    rw [List.take_append] at hopen ⊢
    -- No parenthesis opens within the name, so more than the name has been taken.
    have hbehind : k - name.length ≠ 0 := by
      intro hzero
      rw [hzero, List.take_zero, List.append_nil] at hopen
      exact absurd (List.all_eq_true.mp hname _ (List.mem_of_mem_take hopen)) (by decide)
    obtain ⟨j, hj⟩ := Nat.exists_eq_succ_of_ne_zero hbehind
    have hlist := hinner.open_within (k := j) (by simp at hk; omega)
    rw [nesting_append, hj]
    exact Int.add_pos_of_nonneg_of_pos ((balanced_of_isNameChar hname).within k) hlist

/-- No blank, quote or newline stands in a signature. -/
theorem IsSignature.visible (h : IsSignature signature) :
    ∀ c ∈ signature, isBlank c = false ∧ c ≠ '"'.toUInt8 ∧ c ≠ newline := by
  intro c hc
  have hchar := List.all_eq_true.mp h.all_chars c hc
  refine ⟨?_, ?_, ?_⟩
  · rw [← Bool.not_eq_true]
    intro hblank
    simp only [isBlank, Bool.or_eq_true, decide_eq_true_eq] at hblank
    obtain (rfl | rfl) | rfl := hblank <;> exact absurd hchar (by decide)
  · rintro rfl
    exact absurd hchar (by decide)
  · rintro rfl
    exact absurd hchar (by decide)

/-- The brackets of an array, one pair for each dimension. -/
def arrayBrackets (sizes : List Bytes) : Bytes :=
  sizes.flatMap fun size => '['.toUInt8 :: size ++ [']'.toUInt8]

/-- A type within as many tuples as there are layers, each with the brackets of an array. -/
def layeredType (type : Bytes) (layers : List (List Bytes)) : Bytes :=
  layers.foldr (fun sizes inner => '('.toUInt8 :: inner ++ [')'.toUInt8] ++ arrayBrackets sizes)
    type

theorem SignatureDerives.arrayOf {type : Bytes} {sizes : List Bytes}
    (h : SignatureDerives .type type) (hsizes : ∀ size ∈ sizes, size.all isDecimalDigit = true) :
    SignatureDerives .type (type ++ arrayBrackets sizes) := by
  induction sizes generalizing type with
  | nil => simpa [arrayBrackets] using h
  | cons size sizes ih =>
    have hfirst := h.array (hsizes size (by simp))
    have hothers := ih hfirst fun other hother => hsizes other (by simp [hother])
    simpa [arrayBrackets] using hothers

theorem SignatureDerives.layered {type : Bytes} {layers : List (List Bytes)}
    (h : SignatureDerives .type type)
    (hsizes : ∀ sizes ∈ layers, ∀ size ∈ sizes, size.all isDecimalDigit = true) :
    SignatureDerives .type (layeredType type layers) := by
  induction layers with
  | nil => exact h
  | cons sizes layers ih =>
    have hinner := ih fun other hother => hsizes other (by simp [hother])
    exact (tuple (list (last hinner))).arrayOf (hsizes sizes (by simp))

/-- A text goes on with a signature and the end of a selector, and then with the rest. -/
def HoldsSignature (text signature rest : Bytes) : Prop :=
  IsSignature signature ∧ text = signature ++ "\")" ++ rest

theorem scanOperand_selector_iff {operand : Operand} :
    scanOperand ("selector(\"" ++ text) = .ok (operand, rest) ↔
      ∃ signature, HoldsSignature text signature rest ∧ operand = .selector signature := by
  rw [utf8_selectorOpening, scanOperand_opening, scanSelector_eq_ok_iff]
  simp only [HoldsSignature, utf8_selectorEnd, List.append_assoc, List.cons_append, List.nil_append,
    List.cons.injEq, true_and]
  constructor
  · rintro ⟨signature, hsignature, rfl, htext⟩
    exact ⟨signature, ⟨hsignature, htext⟩, rfl⟩
  · rintro ⟨signature, ⟨hsignature, htext⟩, rfl⟩
    exact ⟨signature, hsignature, rfl, htext⟩

/-- A text holds one signature at most, since the reader finds it. -/
theorem HoldsSignature.unique {other behind : Bytes} (h : HoldsSignature text signature rest)
    (hother : HoldsSignature text other behind) : other = signature ∧ behind = rest := by
  have hread := scanOperand_selector_iff.mpr ⟨signature, h, rfl⟩
  have hagain := scanOperand_selector_iff.mpr ⟨other, hother, rfl⟩
  cases hagain.symm.trans hread
  exact ⟨rfl, rfl⟩

/-- What stands before a statement that begins a line: nothing, or lines that are read. -/
inductive LinesBefore : Bytes → List (Location × Statement) → Prop where
  | start : LinesBefore [] []
  | behind {lines : Bytes} {first : List (Location × Statement)}
      (reads : ReadsAs .start lines first) : LinesBefore (lines ++ [newline]) first

theorem LinesBefore.reads {s : Bytes} {second : List (Location × Statement)}
    (h : LinesBefore before first) (hs : ReadsAs (Location.start.after before) s second) :
    ReadsAs .start (before ++ s) (first ++ second) := by
  cases h with
  | start => exact hs
  | behind hlines =>
    rw [← List.append_cons]
    exact hlines.append_newline hs

theorem LinesBefore.fault {s : Bytes} {fault : LexicalFault} (h : LinesBefore before first)
    (hs : scanSource s = .error fault) : scanSource (before ++ s) = .error fault := by
  cases h with
  | start => exact hs
  | behind hlines =>
    obtain ⟨source, hvalid, rfl, -⟩ := hlines
    rw [← List.append_cons]
    exact hvalid.fault_behind hs

theorem LinesBefore.parseTrees_statement {statement : Statement}
    {others : List (Location × Statement)} (h : LinesBefore before first)
    (hstatement : statement.Valid) (hfollow : mayFollow rest = true)
    (hothers : ReadsAs (Location.start.after (before ++ statement.text)) rest others) :
    parseTrees (before ++ (statement.text ++ rest)) =
      .ok (locatedTrees first ++ statement.tree (Location.start.after before) ::
        (locatedTrees others ++ [endTree (before ++ (statement.text ++ rest))])) := by
  rw [Location.after_append] at hothers
  rw [(h.reads (hothers.statement hstatement hfollow)).parseTrees_eq]
  simp [locatedTrees]

/-- Behind lines that are read, a program goes on with a statement exactly if the text behind the
statement may stand there and is read. The tree of the statement is then between the others. -/
theorem LinesBefore.parseTrees_eq_ok_iff {statement : Statement} {trees : List Tree}
    (h : LinesBefore before first) (hstatement : statement.Valid)
    (hread : scanStatement (statement.text ++ rest) = .ok (statement, rest)) :
    parseTrees (before ++ (statement.text ++ rest)) = .ok trees ↔
      mayFollow rest = true ∧ ∃ others,
        ReadsAs (Location.start.after (before ++ statement.text)) rest others ∧
        trees = locatedTrees first ++ statement.tree (Location.start.after before) ::
          (locatedTrees others ++ [endTree (before ++ (statement.text ++ rest))]) := by
  have hfault : ∀ {fault}, scanSource (statement.text ++ rest) = .error fault →
      parseTrees (before ++ (statement.text ++ rest)) ≠ .ok trees := by
    intro fault hfault htrees
    cases htrees.symm.trans (parse_of_fault (h.fault hfault)).1
  constructor
  · intro htrees
    have hclosed : layoutEnd false [] = some false := rfl
    by_cases hfollow : mayFollow rest = true
    · cases hrest : scanSource rest with
      | error fault =>
        exact absurd htrees (hfault (scanSource_fault_behind hclosed hstatement hfollow hrest))
      | ok source =>
        obtain ⟨htext, hvalid⟩ := scanSource_eq_ok_iff.mp hrest
        have hothers : ReadsAs (Location.start.after (before ++ statement.text)) rest _ :=
          ⟨source, hvalid, htext.symm, rfl⟩
        have hagain := h.parseTrees_statement hstatement hfollow hothers
        exact ⟨hfollow, _, hothers, Except.ok.inj (htrees.symm.trans hagain)⟩
    · rw [Bool.not_eq_true] at hfollow
      have hstop := startsWith_beginsLayout hstatement rest
      have hne : statement.text ++ rest ≠ [] := by simp [scanStatement_text_ne_nil hread]
      have hmissing := (scanSource_eq_error_iff hclosed hne hstop).mpr
        (.inr ⟨statement, rest, hread, .inr ⟨hfollow, rfl⟩⟩)
      exact absurd htrees (hfault hmissing)
  · rintro ⟨hfollow, others, hothers, rfl⟩
    exact h.parseTrees_statement hstatement hfollow hothers

/-- The beginning of a push of `n` bytes, up to the signature of its selector. -/
def selectorLead (n : Nat) (gap : Bytes) : Bytes := "push" ++ decimal n ++ gap ++ "selector(\""

/-- The tree of a push of a selector that begins at a place. -/
def selectorTree (n : Nat) (gap signature : Bytes) (place : Location) : Tree :=
  ⟨.push, selectorText n gap signature, place,
    [.leaf .wordSize (decimal n) place,
      ⟨.selector, "selector(\"" ++ signature ++ "\")", place.after ("push" ++ decimal n ++ gap),
        [.leaf .signature signature (place.after (selectorLead n gap))]⟩]⟩

theorem tree_selectorPush (n : Nat) (gap signature : Bytes) (place : Location) :
    (Statement.push (.pushOf n) gap (.selector signature)).tree place =
      selectorTree n gap signature place := by
  have hplace : place.after (selectorLead n gap) =
      (place.after ("push" ++ decimal n ++ gap)).after Operand.selectorOpening := by
    rw [selectorLead, utf8_selectorOpening, Location.after_append]
  rw [selectorTree, selectorText_eq, hplace, utf8_selectorOpening, utf8_selectorEnd]
  rfl

theorem scanStatement_selectorLead (hlow : 1 ≤ n) (hhigh : n ≤ 32)
    (hgap : gap ≠ [] ∧ gap.all isBlank = true) (text : Bytes) :
    scanStatement (selectorLead n gap ++ text) = (do
      let (operand, rest) ← scanOperand ("selector(\"" ++ text)
      return (.push (.pushOf n) gap operand, rest)) := by
  have hknown := Operation.hasImmediate_iff_push.mpr ⟨n, hlow, hhigh, rfl⟩
  have hword : startsWith isNameChar (utf8 "selector(\"" ++ text) = true := rfl
  have hsplit : selectorLead n gap ++ text =
      (Operation.pushOf n).mnemonic ++ (gap ++ (utf8 "selector(\"" ++ text)) := by
    simp [selectorLead, Operation.pushOf]
  rw [hsplit, scanStatement_push hknown hgap hword]

/-- Behind the opening of a selector, a program is lost where no signature stands. -/
theorem LinesBefore.parse_selectorLead_error (h : LinesBefore before first) (hlow : 1 ≤ n)
    (hhigh : n ≤ 32) (hgap : gap ≠ [] ∧ gap.all isBlank = true)
    (hnone : ∀ signature rest, ¬ HoldsSignature text signature rest) :
    ∃ error, parseTrees (before ++ (selectorLead n gap ++ text)) = .error error ∧
      parse (before ++ (selectorLead n gap ++ text)) = .error error ∧
      error.fault.kind = .lexical := by
  cases hoperand : scanOperand ("selector(\"" ++ text) with
  | ok result =>
    obtain ⟨signature, hholds, -⟩ := scanOperand_selector_iff.mp hoperand
    exact absurd hholds (hnone signature _)
  | error fault =>
    have hclosed : layoutEnd false [] = some false := rfl
    have hne : selectorLead n gap ++ text ≠ [] := List.cons_ne_nil _ _
    have hstop : startsWith beginsLayout (selectorLead n gap ++ text) = false := rfl
    have hstatement : scanStatement (selectorLead n gap ++ text) = .error fault := by
      rw [scanStatement_selectorLead hlow hhigh hgap, hoperand]
      rfl
    have hsource := (scanSource_eq_error_iff hclosed hne hstop).mpr (.inl hstatement)
    obtain ⟨htrees, hparse⟩ := parse_of_fault (h.fault hsource)
    exact ⟨_, htrees, hparse, rfl⟩

/-- Behind the opening of a selector, a text is read exactly if it goes on with a signature and the
end of the selector. The signature is the only one that the text holds; it is the text of its tree,
and reading goes on behind the selector. Its parentheses are balanced and close with its last byte,
and no blank, quote or newline stands in it. Tuples may be nested to any depth and arrays have any
number of dimensions. Any other text is a lexical error of the program. -/
theorem selector_reads_signature (hlow : 1 ≤ n) (hhigh : n ≤ 32)
    (hgap : gap ≠ [] ∧ gap.all isBlank = true) (hbefore : LinesBefore before first)
    (text : Bytes) :
    (∀ operand rest, scanOperand ("selector(\"" ++ text) = .ok (operand, rest) ↔
      ∃ signature, HoldsSignature text signature rest ∧ operand = .selector signature) ∧
    (∀ signature rest, HoldsSignature text signature rest →
      (∀ other behind, HoldsSignature text other behind → other = signature ∧ behind = rest) ∧
      (∀ trees, parseTrees (before ++ (selectorLead n gap ++ text)) = .ok trees ↔
        mayFollow rest = true ∧ ∃ others,
          ReadsAs (Location.start.after (before ++ selectorText n gap signature)) rest others ∧
          trees = locatedTrees first ++
            selectorTree n gap signature (Location.start.after before) ::
              (locatedTrees others ++ [endTree (before ++ (selectorLead n gap ++ text))])) ∧
      Enclosed signature ∧
      ∀ c ∈ signature, isBlank c = false ∧ c ≠ '"'.toUInt8 ∧ c ≠ newline) ∧
    (∀ name type layers rest, IsName name → SignatureDerives .type type →
      (∀ sizes ∈ layers, ∀ size ∈ sizes, size.all isDecimalDigit = true) →
      text = name ++ "(" ++ layeredType type layers ++ ")" ++ "\")" ++ rest →
      HoldsSignature text (name ++ "(" ++ layeredType type layers ++ ")") rest) ∧
    ((∀ signature rest, ¬ HoldsSignature text signature rest) →
      ∃ error, parseTrees (before ++ (selectorLead n gap ++ text)) = .error error ∧
        parse (before ++ (selectorLead n gap ++ text)) = .error error ∧
        error.fault.kind = .lexical) := by
  refine ⟨fun operand rest => scanOperand_selector_iff, ?_, ?_,
    hbefore.parse_selectorLead_error hlow hhigh hgap⟩
  · intro signature rest h
    refine ⟨fun other behind => h.unique, ?_, h.1.enclosed, h.1.visible⟩
    intro trees
    have hknown := Operation.hasImmediate_iff_push.mpr ⟨n, hlow, hhigh, rfl⟩
    have hvalid : (Statement.push (.pushOf n) gap (.selector signature)).Valid :=
      ⟨hknown, hgap, h.1⟩
    have hsplit : selectorLead n gap ++ text =
        (Statement.push (.pushOf n) gap (.selector signature)).text ++ rest := by
      rw [← selectorText_eq, h.2]
      simp [selectorLead, selectorText]
    have hread : scanStatement (selectorLead n gap ++ text) =
        .ok (.push (.pushOf n) gap (.selector signature), rest) := by
      rw [scanStatement_selectorLead hlow hhigh hgap,
        scanOperand_selector_iff.mpr ⟨signature, h, rfl⟩]
      rfl
    rw [hsplit] at hread ⊢
    rw [hbefore.parseTrees_eq_ok_iff hvalid hread, tree_selectorPush, selectorText_eq]
  · intro name type layers rest hname htype hsizes htext
    have hlist := SignatureDerives.list (.last (htype.layered hsizes))
    have hopening : utf8 "(" = ['('.toUInt8] := by decide
    have hclosing : utf8 ")" = [')'.toUInt8] := by decide
    refine ⟨⟨name, _, ?_, hname, hlist⟩, htext⟩
    rw [hopening, hclosing]
    simp

/-- A signature with an array of pairs on the second line, one with arrays of two dimensions within
arrays, and one with a blank in its list of parameters. -/
theorem selector_reads_signature_second_line :
    (∃ trees, parseTrees "a:\npush4 selector(\"f((uint8,g[2])[],x)\");b:" = .ok trees ∧
      selectorTree 4 " " "f((uint8,g[2])[],x)" ⟨2, 1⟩ ∈ trees) ∧
    HoldsSignature "f(((x)[1][])[])\")" "f(((x)[1][])[])" [] ∧
    ∃ error, parse "a:\npush4 selector(\"f( )\")" = .error error ∧
      error.fault.kind = .lexical := by
  have hlabel : scanSource "a:" = .ok ⟨[⟨"", .label "a" ""⟩], ""⟩ := by decide +kernel
  have hlines := LinesBefore.behind (readsAs_of_scanSource hlabel)
  have hreads := @selector_reads_signature 4 " " _ _ (by decide) (by decide) (by decide) hlines
  refine ⟨?_, ?_, ?_⟩
  · have hscan : scanSignature "f((uint8,g[2])[],x)" = .ok (utf8 "f((uint8,g[2])[],x)", []) := by
      decide +kernel
    have hsource : scanSource ";b:" = .ok ⟨[⟨";", .label "b" ""⟩], ""⟩ := by decide +kernel
    obtain ⟨htext, hvalid⟩ := scanSource_eq_ok_iff.mp hsource
    have hholds : HoldsSignature "f((uint8,g[2])[],x)\");b:" "f((uint8,g[2])[],x)" ";b:" :=
      ⟨(scanSignature_eq_ok_iff.mp hscan).2, by decide +kernel⟩
    obtain ⟨-, htrees, -⟩ := (hreads _).2.1 _ _ hholds
    have hline : utf8 "a:\npush4 selector(\"f((uint8,g[2])[],x)\");b:" =
        (utf8 "a:" ++ [newline]) ++ (selectorLead 4 " " ++ utf8 "f((uint8,g[2])[],x)\");b:") := by
      decide +kernel
    rw [hline]
    refine ⟨_, (htrees _).mpr ⟨by decide, _, ⟨_, hvalid, htext.symm, rfl⟩, rfl⟩, ?_⟩
    exact List.mem_append_right _ List.mem_cons_self
  · exact (hreads _).2.2.1 "f" "x" [[""], ["1", ""]] [] (by decide) (.name (by decide)) (by decide)
      (by decide +kernel)
  · have hnone : ∀ signature rest, ¬ HoldsSignature "f( )\")" signature rest := by
      intro signature rest h
      have hread := ((hreads _).1 _ _).mpr ⟨signature, h, rfl⟩
      have hfault : scanOperand (utf8 "selector(\"" ++ utf8 "f( )\")") =
          fail (.expected .parameterType) (utf8 " )\")") := by
        decide +kernel
      cases hfault.symm.trans hread
    obtain ⟨error, -, hparse, hkind⟩ := (hreads _).2.2.2 hnone
    have hline : utf8 "a:\npush4 selector(\"f( )\")" =
        (utf8 "a:" ++ [newline]) ++ (selectorLead 4 " " ++ utf8 "f( )\")") := by
      decide +kernel
    rw [hline]
    exact ⟨error, hparse, hkind⟩

end EvmAssembly
