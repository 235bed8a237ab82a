import Mathlib.Data.List.TakeWhile
import EvmAssembly.Proofs.ErrorPlaces
import EvmAssembly.Proofs.HexadecimalText
import EvmAssembly.Proofs.LayoutIndependence
import EvmAssembly.Proofs.SourceStops
import EvmAssembly.Proofs.StatementNodes

/-!
# What messages and listings quote

Messages and listings are made of fixed words, digits and pieces of the source. So a control
character that a source does not have is neither in the message of its error nor in the listing of
its nodes. Without NUL, both can be handed on as text that a NUL byte ends.
-/

namespace EvmAssembly

variable {α β : Type} {s rest : Bytes}

/-- The word that a fault quotes, apart from the byte at its place. -/
def LexicalCause.word : LexicalCause → Bytes
  | .expected (.gap mnemonic) => mnemonic
  | .operandMissing mnemonic => mnemonic
  | .unknownInstruction name => name
  | .unknownDirective name => name
  | .oddDigits digits => digits
  | _ => []

/-- If reading fails, then the word that the fault quotes is made of name characters. -/
def QuotesName (result : Scan α) : Prop :=
  ∀ fault, result = .error fault → fault.cause.word.all isNameChar = true

namespace QuotesName

theorem ok (a : α) : QuotesName (.ok a : Scan α) := by
  intro fault h
  cases h

theorem fail {cause : LexicalCause} (h : cause.word.all isNameChar = true) (rest : Bytes) :
    QuotesName (EvmAssembly.fail cause rest : Scan α) := by
  intro fault hfault
  cases hfault
  exact h

theorem bind {step : Scan α} {next : α → Scan β} (hstep : QuotesName step)
    (hnext : ∀ a, QuotesName (next a)) : QuotesName (step >>= next) := by
  intro fault h
  rcases scan_bind_eq_error.mp h with hfirst | ⟨a, -, hsecond⟩
  · exact hstep fault hfirst
  · exact hnext a fault hsecond

theorem readByte {delimiter : UInt8} {what : Expectation}
    (h : (LexicalCause.expected what).word = []) (s : Bytes) :
    QuotesName (EvmAssembly.readByte delimiter what s) := by
  have hword : (LexicalCause.expected what).word.all isNameChar = true := by
    rw [h]
    rfl
  cases s with
  | nil => exact fail hword []
  | cons c rest =>
    rw [EvmAssembly.readByte]
    split
    · exact ok rest
    · exact fail hword _

theorem parameters (state : ParameterState) (depth : Nat) (s : Bytes) :
    QuotesName (scanParameters state depth s) := by
  have hword : ∀ state : ParameterState,
      (LexicalCause.expected state.expectation).word.all isNameChar = true := by
    intro state
    cases state <;> rfl
  fun_induction scanParameters state depth s with
  | case1 state => exact fail (hword state) []
  | case2 state => exact fail (hword state) _
  | case3 => assumption
  | case4 => assumption
  | case5 => exact ok _
  | case6 => assumption

theorem signature (s : Bytes) : QuotesName (scanSignature s) := by
  rw [scanSignature]
  split
  · refine (readByte rfl _).bind fun list => (parameters _ _ _).bind fun rest => ok _
  · exact fail rfl _

theorem number (s : Bytes) : QuotesName (scanNumber s) := by
  simp only [scanNumber]
  split
  · exact fail rfl _
  · split
    · exact fail rfl _
    · split
      · apply fail
        rw [LexicalCause.word, List.all_eq_true]
        intro c hc
        exact Base.isNameChar_of_accepts (List.all_eq_true.mp List.all_takeWhile c hc)
      · exact ok _

theorem selector (s : Bytes) : QuotesName (scanSelector s) := by
  rw [scanSelector]
  apply (readByte rfl _).bind
  intro parenthesised
  apply (readByte rfl _).bind
  intro opened
  apply (signature _).bind
  rintro ⟨text, behind⟩
  apply (readByte rfl _).bind
  intro closed
  exact (readByte rfl _).bind fun _ => ok _

theorem operand (s : Bytes) : QuotesName (scanOperand s) := by
  simp only [scanOperand]
  split
  · exact (number s).bind fun _ => ok _
  · split
    · split
      · exact selector _
      · exact ok _
    · exact fail rfl _

theorem actual (s : Bytes) : QuotesName (scanActual s) := by
  simp only [scanActual]
  split
  · simp only [scanString]
    split
    · exact ok _
    · exact fail rfl _
  · split
    · exact (number s).bind fun _ => ok _
    · split
      · exact ok _
      · exact fail rfl _

theorem further (s : Bytes) : QuotesName (scanFurther s) := by
  fun_induction scanFurther s with
  | case1 s hcomma body fault hfault =>
    intro other hother
    cases hother
    exact actual _ fault hfault
  | case2 s hcomma body value behind hvalue ih => exact ih.bind fun _ => ok _
  | case3 => exact ok _

theorem actuals (s : Bytes) : QuotesName (scanActuals s) := by
  rw [scanActuals]
  split
  · exact ok _
  · apply (actual s).bind
    rintro ⟨first, behind⟩
    exact (further _).bind fun _ => ok _

theorem directive (s : Bytes) : QuotesName (scanDirective s) := by
  simp only [scanDirective]
  split
  · split
    · apply fail
      exact List.all_takeWhile
    · apply (readByte rfl _).bind
      intro list
      apply (actuals _).bind
      rintro ⟨given, behind⟩
      exact (readByte rfl _).bind fun _ => ok _
  · exact fail rfl _

theorem push {operation : Operation} (h : operation.mnemonic.all isNameChar = true)
    (gap s : Bytes) : QuotesName (scanPush operation gap s) := by
  rw [scanPush]
  split
  · apply fail
    exact h
  · split
    · apply fail
      exact h
    · exact (operand s).bind fun _ => ok _

theorem statement (s : Bytes) : QuotesName (scanStatement s) := by
  simp only [scanStatement]
  split
  · exact directive s
  · split
    · split
      · exact ok _
      · split
        · apply fail
          exact List.all_takeWhile
        · rename_i operation hfound
          split
          · obtain ⟨hknown, -⟩ := Operation.ofMnemonic?_eq_some_iff.mp hfound
            exact push (Operation.isName_mnemonic hknown).2 _ _
          · exact ok _
    · exact fail rfl _

theorem source (s : Bytes) : QuotesName (scanSource s) := by
  fun_induction scanSource s with
  | case1 => exact ok _
  | case2 s rest layout fault hfault =>
    intro other hother
    cases hother
    exact statement _ fault hfault
  | case3 s rest layout hrest found behind hread hend ih => exact ih.bind fun _ => ok _
  | case4 => exact fail rfl _

end QuotesName

/-- A byte that is not a control character, or a newline. -/
def isPlain (c : UInt8) : Bool := ' '.toUInt8 ≤ c || c = newline

/-- Every byte of the text is plain or stands in the source. -/
def MadeFrom (s text : Bytes) : Prop := ∀ c ∈ text, isPlain c = true ∨ c ∈ s

section

variable {text first second : Bytes}

@[simp] theorem madeFrom_nil : MadeFrom s [] := by
  intro c hc
  cases hc

@[simp] theorem madeFrom_cons {c : UInt8} :
    MadeFrom s (c :: text) ↔ (isPlain c = true ∨ c ∈ s) ∧ MadeFrom s text :=
  List.forall_mem_cons

@[simp] theorem madeFrom_append :
    MadeFrom s (first ++ second) ↔ MadeFrom s first ∧ MadeFrom s second :=
  List.forall_mem_append

theorem madeFrom_of_all (h : text.all isPlain = true) : MadeFrom s text := by
  intro c hc
  exact .inl (List.all_eq_true.mp h c hc)

theorem madeFrom_of_subset (h : text ⊆ s) : MadeFrom s text := by
  intro c hc
  exact .inr (h hc)

theorem MadeFrom.mono {source : Bytes} (h : MadeFrom s text) (hsource : s ⊆ source) :
    MadeFrom source text := by
  intro c hc
  exact (h c hc).imp_right fun hmem => hsource hmem

/-- A control character that is not in the source is not in what is made from it. -/
theorem MadeFrom.notMem {c : UInt8} (h : MadeFrom s text) (hc : isPlain c = false) (hs : c ∉ s) :
    c ∉ text := by
  intro hmem
  rcases h c hmem with hplain | hmem
  · rw [hc] at hplain
    cases hplain
  · exact hs hmem

end

/-- The bytes of a character that is no control character are no control characters. -/
theorem le_of_mem_utf8EncodeChar {c : Char} (h : ' ' ≤ c) :
    ∀ b ∈ String.utf8EncodeChar c, 32 ≤ b.toNat := by
  have hc : 32 ≤ c.val.toNat := UInt32.le_iff_toNat_le.mp h
  have hhigh : ∀ n, 32 ≤ n % 256 → 32 ≤ (UInt8.ofNat n).toNat := by
    intro n hn
    rwa [UInt8.toNat_ofNat']
  intro b hb
  simp only [String.utf8EncodeChar] at hb
  split at hb
  · rename_i hascii
    obtain rfl := List.mem_singleton.mp hb
    exact hhigh _ (by omega)
  -- A character beyond ASCII is encoded in bytes that all have their highest bit set.
  · split at hb
    · simp only [List.mem_cons, List.not_mem_nil, or_false] at hb
      rcases hb with rfl | rfl <;> exact hhigh _ (by omega)
    · split at hb
      · simp only [List.mem_cons, List.not_mem_nil, or_false] at hb
        rcases hb with rfl | rfl | rfl <;> exact hhigh _ (by omega)
      · simp only [List.mem_cons, List.not_mem_nil, or_false] at hb
        rcases hb with rfl | rfl | rfl | rfl <;> exact hhigh _ (by omega)

section

variable {characters : List Char}

/-- Fixed words are plain. They are taken as lists of characters, as literals unfold to these. -/
theorem madeFrom_word (h : (characters.all fun c => ' ' ≤ c || c = '\n') = true) :
    MadeFrom s (utf8 (String.ofList characters)) := by
  intro b hb
  rw [utf8, String.toList_ofList, List.mem_flatMap] at hb
  obtain ⟨c, hc, hb⟩ := hb
  have hplain := List.all_eq_true.mp h c hc
  simp only [Bool.or_eq_true, decide_eq_true_eq] at hplain
  rcases hplain with hle | rfl
  · have hb : ' '.toUInt8 ≤ b := UInt8.le_iff_toNat_le.mpr (le_of_mem_utf8EncodeChar hle b hb)
    exact .inl (Bool.or_eq_true_iff.mpr (.inl (decide_eq_true hb)))
  · rw [List.mem_singleton.mp hb]
    exact .inl rfl

theorem newline_notMem_word (h : (characters.all (' ' ≤ ·)) = true) :
    newline ∉ utf8 (String.ofList characters) := by
  intro hb
  rw [utf8, String.toList_ofList, List.mem_flatMap] at hb
  obtain ⟨c, hc, hb⟩ := hb
  have hle := le_of_mem_utf8EncodeChar (of_decide_eq_true (List.all_eq_true.mp h c hc)) newline hb
  exact absurd hle (by decide)

end

theorem madeFrom_of_name {name : Bytes} (h : name.all isNameChar = true) : MadeFrom s name := by
  have hall : ∀ n < 256, isNameChar (UInt8.ofNat n) = true → isPlain (UInt8.ofNat n) = true := by
    decide +kernel
  intro c hc
  have hplain := hall c.toNat c.toNat_lt
  rw [UInt8.ofNat_toNat] at hplain
  exact .inl (hplain (List.all_eq_true.mp h c hc))

theorem madeFrom_of_digits {digits : Bytes} (h : digits.all isHexadecimalDigit = true) :
    MadeFrom s digits := by
  apply madeFrom_of_name
  rw [List.all_eq_true] at h ⊢
  intro c hc
  exact @Base.isNameChar_of_accepts .hex c (h c hc)

theorem madeFrom_decimal (n : Nat) : MadeFrom s (decimal n) :=
  madeFrom_of_digits (decimal_all_digits n)

theorem madeFrom_hexText (value : Bytes) : MadeFrom s (hexText value) :=
  madeFrom_of_digits (hexText_all_digits value)

theorem Location.madeFrom_text (place : Location) : MadeFrom s place.text := by
  rw [Location.text]
  split
  · simp only [madeFrom_append]
    exact ⟨⟨⟨madeFrom_word rfl, madeFrom_decimal _⟩, madeFrom_word rfl⟩, madeFrom_decimal _⟩
  · exact madeFrom_word rfl

theorem madeFrom_nextShown (h : rest ⊆ s) : MadeFrom s (nextShown rest) := by
  cases rest with
  | nil => exact madeFrom_word rfl
  | cons c rest =>
    have hc : MadeFrom s [c] := madeFrom_of_subset fun d hd => h (by simp_all)
    rw [nextShown]
    split
    · exact madeFrom_word rfl
    · simp only [madeFrom_append]
      exact ⟨⟨madeFrom_word rfl, hc⟩, madeFrom_word rfl⟩

theorem Rule.madeFrom_name (rule : Rule) : MadeFrom s rule.name := by
  cases rule <;> exact madeFrom_word rfl

theorem Expectation.madeFrom_text {what : Expectation}
    (h : (LexicalCause.expected what).word.all isNameChar = true) : MadeFrom s what.text := by
  have hdirective (directive : Directive) : MadeFrom s directive.word :=
    madeFrom_of_name directive.isName_word.2
  cases what with
  | gap mnemonic =>
    simp only [Expectation.text, madeFrom_append]
    exact ⟨⟨madeFrom_word rfl, madeFrom_of_name h⟩, madeFrom_word rfl⟩
  | digits base =>
    simp only [Expectation.text, madeFrom_append]
    exact ⟨madeFrom_word rfl, base.rule.madeFrom_name⟩
  | argumentsOpening directive =>
    simp only [Expectation.text, madeFrom_append]
    exact ⟨⟨madeFrom_word rfl, hdirective directive⟩, madeFrom_word rfl⟩
  | argumentsEnd directive =>
    simp only [Expectation.text, madeFrom_append]
    exact ⟨⟨madeFrom_word rfl, hdirective directive⟩, madeFrom_word rfl⟩
  | _ => exact madeFrom_word rfl

theorem LexicalFault.madeFrom_detail {fault : LexicalFault} (hrest : fault.rest ⊆ s)
    (hword : fault.cause.word.all isNameChar = true) : MadeFrom s fault.detail := by
  obtain ⟨cause, rest⟩ := fault
  have hshown := madeFrom_nextShown hrest
  have hquoted : MadeFrom s cause.word := madeFrom_of_name hword
  cases cause with
  | expected what =>
    simp only [LexicalFault.detail, madeFrom_append]
    exact ⟨⟨Expectation.madeFrom_text hword, madeFrom_word rfl⟩, hshown⟩
  | strayCharacter base =>
    simp only [LexicalFault.detail, madeFrom_append]
    exact ⟨⟨⟨madeFrom_word rfl, hshown⟩, madeFrom_word rfl⟩, base.rule.madeFrom_name⟩
  | unterminatedString => exact madeFrom_word rfl
  | operandMissing mnemonic =>
    simp only [LexicalFault.detail, madeFrom_append]
    exact ⟨⟨madeFrom_word rfl, hquoted⟩, madeFrom_word rfl⟩
  | unknownInstruction name =>
    simp only [LexicalFault.detail, madeFrom_append]
    exact ⟨⟨madeFrom_word rfl, hquoted⟩, madeFrom_word rfl⟩
  | unknownDirective name =>
    simp only [LexicalFault.detail, madeFrom_append]
    exact ⟨⟨madeFrom_word rfl, hquoted⟩, madeFrom_word rfl⟩
  | oddDigits digits =>
    simp only [LexicalFault.detail, madeFrom_append]
    exact ⟨⟨madeFrom_word rfl, hquoted⟩, madeFrom_word rfl⟩

private theorem madeFrom_tooLarge {literal : Bytes} (h : literal ⊆ s) (width : Nat) :
    MadeFrom s (Fault.immediateTooLarge literal width).description := by
  have hbytes : MadeFrom s (utf8 (if width = 1 then " byte" else " bytes")) := by
    split <;> exact madeFrom_word rfl
  simp only [Fault.description, madeFrom_append]
  exact ⟨⟨⟨⟨madeFrom_word rfl, madeFrom_of_subset h⟩, madeFrom_word rfl⟩, madeFrom_decimal _⟩,
    hbytes⟩

/-- The errors of arguments quote words and numbers only. -/
theorem checkFrom_madeFrom {expected got position : Nat} {given : List Tree}
    {kinds : List ArgumentKind} {error : ParseError}
    (h : checkFrom expected got position given kinds = .error error) :
    MadeFrom s error.fault.description := by
  fun_induction checkFrom expected got position given kinds with
  | case1 => cases h
  | case2 =>
    cases h
    simp only [Fault.unplaced, Fault.description, madeFrom_append]
    exact ⟨⟨⟨madeFrom_word rfl, madeFrom_decimal _⟩, madeFrom_word rfl⟩, madeFrom_decimal _⟩
  | case3 =>
    cases h
    simp only [Fault.description, madeFrom_append]
    exact ⟨⟨⟨madeFrom_word rfl, madeFrom_decimal _⟩, madeFrom_word rfl⟩, madeFrom_decimal _⟩
  | case4 position tree trees kind kinds hrule ih => exact ih (map_eq_error h)
  | case5 position tree trees kind =>
    cases h
    have hkind : MadeFrom s kind.name := by
      cases kind <;> exact madeFrom_word rfl
    simp only [Fault.description, Fault.detail, madeFrom_append]
    exact ⟨⟨⟨madeFrom_word rfl, madeFrom_decimal _⟩, madeFrom_word rfl⟩,
      ⟨⟨madeFrom_word rfl, hkind⟩, madeFrom_word rfl⟩, tree.rule.madeFrom_name⟩

theorem Directive.build_madeFrom {name : Directive} {given : List Tree} {place : Location}
    {error : ParseError} (h : name.build given place = .error error) :
    MadeFrom s error.fault.description := by
  unfold Directive.build at h
  split at h
  · rename_i inner hinner
    cases h
    have hfault : (inner.pin place).fault = inner.fault := by
      rw [ParseError.pin]
      split <;> rfl
    rw [hfault]
    exact checkFrom_madeFrom hinner
  · rename_i hchecked
    obtain ⟨tree, -, -, harguments⟩ := checkArguments_single hchecked
    cases harguments
  · cases h

theorem Statement.Valid.error_madeFrom {statement : Statement} {place : Location}
    {error : ParseError} (hvalid : statement.Valid) (h : statement.node place = .error error) :
    MadeFrom statement.text error.fault.description := by
  cases statement with
  | label name gap => cases h
  | plain operation => cases h
  | push operation gap operand =>
    obtain ⟨hop, -, hoperand⟩ := hvalid
    obtain ⟨n, hlow, hhigh, rfl⟩ := Operation.hasImmediate_iff_push.mp hop
    simp only [Statement.node, Operation.pushOf_width hhigh] at h
    split at h
    · cases h
    · rename_i fault hfault
      cases h
      rw [Operand.immediate_error hoperand hlow hfault]
      apply madeFrom_tooLarge
      exact List.subset_append_right _ _
  | directive name pad actuals => exact Directive.build_madeFrom h

/-- A statement stands in the text that it is read from. -/
theorem ReadsAs.text_subset {statements : List (Location × Statement)} {place there : Location}
    {statement : Statement} (h : ReadsAs place s statements)
    (hmem : (there, statement) ∈ statements) : statement.text ⊆ s := by
  obtain ⟨-, before, behind, rfl, -⟩ := h.mem hmem
  intro c hc
  exact List.mem_append_right _ (List.mem_append_left _ hc)

/-- The message of an error is made from the source. -/
theorem parse_error_madeFrom {error : ParseError} (h : parse s = .error error) :
    MadeFrom s error.message := by
  have hdescription : MadeFrom s error.fault.description := by
    rcases fault_or_readsAs s with ⟨fault, hscan, -, hparse⟩ | ⟨statements, hreads⟩
    · cases hparse.symm.trans h
      have hrest : fault.rest ⊆ s := by
        obtain @⟨read, word, rest, cause, -, -, -⟩ := scanSource_stops hscan
        exact List.subset_append_right _ _
      exact LexicalFault.madeFrom_detail hrest (QuotesName.source s fault hscan)
    · rw [hreads.parse_eq] at h
      obtain ⟨place, statement, hmem, hnode⟩ := exists_of_buildNodes_error h
      exact ((hreads.mem hmem).1.error_madeFrom hnode).mono (hreads.text_subset hmem)
  rw [ParseError.message]
  split
  · simp only [madeFrom_append]
    exact ⟨⟨error.location.madeFrom_text, madeFrom_word rfl⟩, hdescription⟩
  · exact hdescription

theorem Tree.Gives.madeFrom {operand : Tree} {width : Nat} {immediate : Immediate}
    (h : operand.Gives width immediate) : MadeFrom s immediate.text := by
  cases h with
  | label hname => exact madeFrom_of_name hname.2
  | bytes => exact madeFrom_append.mpr ⟨madeFrom_word rfl, madeFrom_hexText _⟩

/-- The listing of a node shows a path as its statement has it, and all else is words and digits. -/
theorem Tree.StandsFor.madeFrom {tree : Tree} {node : Node} (h : tree.StandsFor node) :
    MadeFrom tree.text node.text := by
  have hmarks : isPlain ':'.toUInt8 = true ∧ isPlain ' '.toUInt8 = true ∧
      isPlain ')'.toUInt8 = true ∧ isPlain '"'.toUInt8 = true := by
    decide
  cases h with
  | @label name gap place hname hblanks =>
    simp [Node.text, madeFrom_of_name hname.2, hmarks]
  | plain hfound =>
    obtain ⟨-, rfl⟩ := Operation.ofMnemonic?_eq_some_iff.mp hfound
    exact madeFrom_of_subset (List.Subset.refl _)
  | push hfound hread hderived hne hblanks hgiven =>
    obtain ⟨hknown, -⟩ := Operation.ofMnemonic?_eq_some_iff.mp hfound
    have hmnemonic := (Operation.isName_mnemonic hknown).2
    simp [Node.text, Instruction.text, madeFrom_of_name hmnemonic, hgiven.madeFrom, hmarks]
  | @pushLabel pad name trail text place there hwritten hname hblanks =>
    have hopening : (Statement.directiveOpening .push).all isPlain = true := by decide
    simp [Node.text, madeFrom_of_all hopening, madeFrom_of_name hname.2, hmarks]
  | @inclusion kind pad path trail text place there hwritten hquote hnewline hblanks =>
    have hpath : path ⊆ text := by
      intro c hc
      simp [hwritten, hc]
    have hopening : (Statement.directiveOpening (.inclusion kind)).all isPlain = true := by
      cases kind <;> decide
    simp [Node.text, Actual.text, madeFrom_of_all hopening, madeFrom_of_subset hpath, hmarks]

theorem ReadsAs.node_madeFrom {statements : List (Location × Statement)} {place : Location}
    {statement : Statement} {node : Node} (h : ReadsAs .start s statements)
    (hmem : (place, statement) ∈ statements) (hnode : statement.node place = .ok node) :
    MadeFrom s node.text := by
  have hstands := ((h.mem hmem).1.standsFor hnode).madeFrom
  rw [Statement.tree_text] at hstands
  exact hstands.mono (h.text_subset hmem)

/-- The listing of a source is made from it. -/
theorem parse_listing_madeFrom {nodes : List Node} (h : parse s = .ok nodes) :
    ∀ node ∈ nodes, MadeFrom s node.text := by
  intro node hmem
  rcases fault_or_readsAs s with ⟨fault, -, -, herror⟩ | ⟨statements, hreads⟩
  · cases herror.symm.trans h
  · obtain ⟨place, statement, hstatement, hnode⟩ :=
      exists_of_mem_buildNodes (hreads.parse_eq.symm.trans h) hmem
    exact hreads.node_madeFrom hstatement hnode

theorem beforeNul_eq_self {bytes : Bytes} (h : 0 ∉ bytes) : beforeNul bytes = bytes := by
  rw [beforeNul, List.takeWhile_eq_self_iff]
  intro c hc
  rw [decide_eq_true_eq]
  rintro rfl
  exact h hc

theorem zero_notMem_beforeNul (bytes : Bytes) : 0 ∉ beforeNul bytes := by
  intro h
  exact absurd (List.all_eq_true.mp List.all_takeWhile 0 h) (by decide)

/-- The message of an error in a source without NUL is shown as a whole. -/
theorem parse_error_report {error : ParseError} (hs : 0 ∉ s) (h : parse s = .error error) :
    error.report = error.message :=
  beforeNul_eq_self ((parse_error_madeFrom h).notMem rfl hs)

/-- The listing of a source without NUL has none. -/
theorem parse_listing_zero_notMem {nodes : List Node} (hs : 0 ∉ s) (h : parse s = .ok nodes) :
    ∀ node ∈ nodes, 0 ∉ node.text := by
  intro node hmem
  exact (parse_listing_madeFrom h node hmem).notMem rfl hs

end EvmAssembly
