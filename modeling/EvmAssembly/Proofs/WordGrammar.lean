import EvmAssembly.Proofs.SignatureGrammar

/-!
# Numbers, operands and arguments

A word is well formed if its digits, its name or its signature are. The readers give well-formed
words only, and read every well-formed word that is not followed by more of the same.
-/

namespace EvmAssembly

variable {s rest : Bytes}

structure Number.Valid (number : Number) : Prop where
  nonempty : number.digits ≠ []
  digits : number.digits.all number.base.accepts = true
  even : number.base = .hex → number.digits.length % 2 = 0

def Operand.Valid : Operand → Prop
  | number value => value.Valid
  | label name => IsName name
  | selector signature => IsSignature signature

def Actual.Valid : Actual → Prop
  | string contents => contents.all inString = true
  | number value => value.Valid
  | label name => IsName name

theorem all_inString {contents : Bytes} : contents.all inString = true ↔
    '"'.toUInt8 ∉ contents ∧ newline ∉ contents := by
  simp only [List.all_eq_true, inString, Bool.and_eq_true, decide_eq_true_eq]
  constructor
  · intro h
    exact ⟨fun hmem => (h _ hmem).1 rfl, fun hmem => (h _ hmem).2 rfl⟩
  · rintro ⟨hquote, hnewline⟩ c hc
    exact ⟨fun heq => hquote (heq ▸ hc), fun heq => hnewline (heq ▸ hc)⟩

/-- The digits of every base are characters that a name may have. -/
theorem Base.isNameChar_of_accepts {base : Base} {c : UInt8} (h : base.accepts c = true) :
    isNameChar c = true := by
  cases base with
  | binary =>
    simp only [accepts, isBinaryDigit, Bool.or_eq_true, decide_eq_true_eq] at h
    obtain rfl | rfl := h <;> decide
  | octal =>
    simp only [accepts, isOctalDigit, Bool.and_eq_true, decide_eq_true_eq] at h
    have hle : c ≤ '9'.toUInt8 := UInt8.le_trans h.2 (by decide)
    simp [isNameChar, isDecimalDigit, h.1, hle]
  | decimal => exact isNameChar_of_isDecimalDigit h
  | hex =>
    simp only [accepts, isHexadecimalDigit, Bool.or_eq_true, Bool.and_eq_true,
      decide_eq_true_eq] at h
    obtain (hd | ⟨hlow, hhigh⟩) | ⟨hlow, hhigh⟩ := h
    · exact isNameChar_of_isDecimalDigit hd
    · have hle : c ≤ 'z'.toUInt8 := UInt8.le_trans hhigh (by decide)
      simp [isNameChar, isNameStart, hlow, hle]
    · have hle : c ≤ 'Z'.toUInt8 := UInt8.le_trans hhigh (by decide)
      simp [isNameChar, isNameStart, hlow, hle]

/-- A zero and a letter do not stand at the beginning of decimal digits that end there. -/
private theorem not_isPrefixOf_digits {digits : Bytes} (letter : UInt8)
    (hletter : isNameStart letter = true) (hne : digits ≠ [])
    (hd : digits.all isDecimalDigit = true) (hr : startsWith isNameChar rest = false) :
    ['0'.toUInt8, letter].isPrefixOf (digits ++ rest) = false := by
  rw [Bool.eq_false_iff, Ne, List.isPrefixOf_iff_prefix]
  rintro ⟨tail, htail⟩
  match digits with
  | [] => exact hne rfl
  | [d] =>
    obtain ⟨-, rfl⟩ := List.cons.inj htail
    have hchar : isNameChar letter = false := hr
    rw [isNameChar_of_isNameStart hletter] at hchar
    cases hchar
  | d :: e :: digits =>
    have he : letter = e := (List.cons.inj (List.cons.inj htail).2).1
    have hdigit : isDecimalDigit e = true := List.all_eq_true.mp hd e (by simp)
    rw [he, isNameStart_of_isDecimalDigit hdigit] at hletter
    cases hletter

private theorem Base.ofText_text {number : Number} (h : number.Valid)
    (hr : startsWith isNameChar rest = false) :
    Base.ofText (number.text ++ rest) = number.base := by
  obtain ⟨base, digits⟩ := number
  obtain ⟨hne, hd, -⟩ := h
  cases base with
  | binary => rfl
  | octal => rfl
  | hex => rfl
  | decimal =>
    have hx := not_isPrefixOf_digits 'x'.toUInt8 (by decide) hne hd hr
    have ho := not_isPrefixOf_digits 'o'.toUInt8 (by decide) hne hd hr
    have hb := not_isPrefixOf_digits 'b'.toUInt8 (by decide) hne hd hr
    change (if ['0'.toUInt8, 'x'.toUInt8].isPrefixOf (digits ++ rest) = true then Base.hex
      else if ['0'.toUInt8, 'o'.toUInt8].isPrefixOf (digits ++ rest) = true then Base.octal
      else if ['0'.toUInt8, 'b'.toUInt8].isPrefixOf (digits ++ rest) = true then Base.binary
      else Base.decimal) = Base.decimal
    rw [hx, ho, hb]
    rfl

theorem scanNumber_valid {number : Number} (h : scanNumber s = .ok (number, rest)) :
    number.Valid := by
  simp only [scanNumber] at h
  split at h
  · simp at h
  · rename_i hne
    split at h
    · simp at h
    · split at h
      · simp at h
      · rename_i heven
        cases h
        refine ⟨hne, List.all_takeWhile, fun hhex => ?_⟩
        exact Decidable.not_not.mp fun hodd => heven ⟨hhex, hodd⟩

theorem scanNumber_text_append {number : Number} (h : number.Valid)
    (hr : startsWith isNameChar rest = false) :
    scanNumber (number.text ++ rest) = .ok (number, rest) := by
  have hstop : startsWith number.base.accepts rest = false :=
    startsWith_mono (fun _ => Base.isNameChar_of_accepts) hr
  have hbody : (number.text ++ rest).drop number.base.mark.length = number.digits ++ rest := by
    simp [Number.text]
  have heven : ¬(number.base = .hex ∧ number.digits.length % 2 ≠ 0) :=
    fun hodd => hodd.2 (h.even hodd.1)
  simp only [scanNumber, Base.ofText_text h hr, hbody, takeWhile_run h.digits hstop,
    dropWhile_run h.digits hstop, if_neg h.nonempty, hr, if_neg heven]
  rfl

theorem Number.Valid.startsWith_digit {number : Number} (h : number.Valid) (rest : Bytes) :
    startsWith isDecimalDigit (number.text ++ rest) = true := by
  obtain ⟨base, digits⟩ := number
  cases base with
  | binary => rfl
  | octal => rfl
  | hex => rfl
  | decimal =>
    obtain ⟨d, tail, rfl⟩ := List.exists_cons_of_ne_nil h.nonempty
    exact List.all_eq_true.mp h.digits d (by simp)

/-- No text goes on a word that stands before it. -/
def endsWord (rest : Bytes) : Prop :=
  startsWith isNameChar rest = false ∧ startsWith (· = '('.toUInt8) rest = false

theorem IsName.startsWith_digit {name : Bytes} (h : IsName name) (rest : Bytes) :
    startsWith isDecimalDigit (name ++ rest) = false := by
  obtain ⟨c, tail, rfl, hc⟩ := startsWith_eq_true h.1
  rw [List.cons_append, startsWith_cons, ← Bool.not_eq_true]
  intro hdigit
  rw [isNameStart_of_isDecimalDigit hdigit] at hc
  cases hc

theorem isName_selectorWord : IsName Operand.selectorWord := by decide

/-- A selector is read exactly where a signature stands between quotes and parentheses. -/
theorem scanSelector_eq_ok_iff {operand : Operand} : scanSelector s = .ok (operand, rest) ↔
    ∃ signature, IsSignature signature ∧ operand = .selector signature ∧
      s = '('.toUInt8 :: '"'.toUInt8 :: (signature ++ '"'.toUInt8 :: ')'.toUInt8 :: rest) := by
  constructor
  · intro h
    obtain ⟨s₁, hparenthesis, h⟩ := scan_bind_eq_ok.mp h
    obtain ⟨s₂, hopening, h⟩ := scan_bind_eq_ok.mp h
    obtain ⟨⟨signature, s₃⟩, hsignature, h⟩ := scan_bind_eq_ok.mp h
    obtain ⟨s₄, hquote, h⟩ := scan_bind_eq_ok.mp h
    obtain ⟨s₅, hclosing, h⟩ := scan_bind_eq_ok.mp h
    cases h
    obtain ⟨htext, hderives⟩ := scanSignature_eq_ok_iff.mp hsignature
    refine ⟨signature, hderives, rfl, ?_⟩
    rw [readByte_eq_ok.mp hparenthesis, readByte_eq_ok.mp hopening, htext,
      readByte_eq_ok.mp hquote, readByte_eq_ok.mp hclosing]
  · rintro ⟨signature, h, rfl, rfl⟩
    have hread := scanSignature_eq_ok_iff.mpr
      ⟨(rfl : signature ++ '"'.toUInt8 :: ')'.toUInt8 :: rest = _), h⟩
    refine scan_bind_eq_ok.mpr ⟨_, rfl, scan_bind_eq_ok.mpr ⟨_, rfl, ?_⟩⟩
    refine scan_bind_eq_ok.mpr ⟨_, hread, ?_⟩
    exact scan_bind_eq_ok.mpr ⟨_, rfl, scan_bind_eq_ok.mpr ⟨_, rfl, rfl⟩⟩

theorem scanOperand_valid {operand : Operand} (h : scanOperand s = .ok (operand, rest)) :
    operand.Valid := by
  simp only [scanOperand] at h
  split at h
  · obtain ⟨⟨number, after⟩, hnumber, h⟩ := scan_bind_eq_ok.mp h
    cases h
    exact scanNumber_valid hnumber
  · split at h
    · rename_i hstart
      split at h
      · obtain ⟨signature, hsignature, rfl, -⟩ := scanSelector_eq_ok_iff.mp h
        exact hsignature
      · cases h
        exact isName_takeWhile hstart
    · simp at h

/-- The opening of a selector is no label, whatever stands behind it. -/
theorem scanOperand_opening (text : Bytes) : scanOperand (Operand.selectorOpening ++ text) =
    scanSelector ('('.toUInt8 :: '"'.toUInt8 :: text) := by
  have hword := isName_selectorWord
  have hstop : startsWith isNameChar ('('.toUInt8 :: '"'.toUInt8 :: text) = false := rfl
  have hsplit : Operand.selectorOpening ++ text =
      Operand.selectorWord ++ '('.toUInt8 :: '"'.toUInt8 :: text := by
    simp [Operand.selectorOpening]
  rw [hsplit]
  simp only [scanOperand, hword.startsWith_digit, hword.startsWith_append,
    hword.takeWhile_append hstop, hword.dropWhile_append hstop, if_true]
  rfl

/-- A selector ends with its own parenthesis, so anything may stand behind it. -/
theorem scanOperand_selector_append {signature : Bytes} (h : IsSignature signature)
    (rest : Bytes) : scanOperand ((Operand.selector signature).text ++ rest) =
      .ok (.selector signature, rest) := by
  have hsplit : (Operand.selector signature).text ++ rest = Operand.selectorOpening ++
      (signature ++ '"'.toUInt8 :: ')'.toUInt8 :: rest) := by
    simp [Operand.text]
  rw [hsplit, scanOperand_opening]
  exact scanSelector_eq_ok_iff.mpr ⟨signature, h, rfl, rfl⟩

/-- A label named like the word of a selector is told apart by what follows it. -/
theorem scanOperand_text_append {operand : Operand} (h : operand.Valid) (hr : endsWord rest) :
    scanOperand (operand.text ++ rest) = .ok (operand, rest) := by
  cases operand with
  | number value =>
    have hread := scanNumber_text_append h hr.1
    simp only [scanOperand, Operand.text, Number.Valid.startsWith_digit h rest, if_true]
    exact scan_bind_eq_ok.mpr ⟨_, hread, rfl⟩
  | label name =>
    have hname : IsName name := h
    simp only [scanOperand, Operand.text, hname.startsWith_digit, hname.startsWith_append,
      hname.takeWhile_append hr.1, hname.dropWhile_append hr.1, hr.2, if_true]
    simp
  | selector signature => exact scanOperand_selector_append h rest

theorem scanString_valid {actual : Actual} (h : scanString s = .ok (actual, rest)) :
    actual.Valid := by
  simp only [scanString] at h
  split at h
  · cases h
    exact List.all_takeWhile
  · simp at h

theorem scanActual_valid {actual : Actual} (h : scanActual s = .ok (actual, rest)) :
    actual.Valid := by
  simp only [scanActual] at h
  split at h
  · exact scanString_valid h
  · split at h
    · obtain ⟨⟨number, after⟩, hnumber, h⟩ := scan_bind_eq_ok.mp h
      cases h
      exact scanNumber_valid hnumber
    · split at h
      · rename_i hstart
        cases h
        exact isName_takeWhile hstart
      · simp at h

/-- An argument begins with a quote, a digit or a letter. -/
def beginsActual (c : UInt8) : Bool := c = '"'.toUInt8 || isNameChar c

theorem Actual.Valid.startsWith_begins {actual : Actual} (h : actual.Valid) (rest : Bytes) :
    startsWith beginsActual (actual.text ++ rest) = true := by
  cases actual with
  | string contents => rfl
  | number value =>
    obtain ⟨c, tail, htext, hc⟩ := startsWith_eq_true (Number.Valid.startsWith_digit h rest)
    rw [Actual.text, htext]
    simp [beginsActual, isNameChar_of_isDecimalDigit hc]
  | label name =>
    obtain ⟨c, tail, htext, hc⟩ := startsWith_eq_true (IsName.startsWith_append h rest)
    rw [Actual.text, htext]
    simp [beginsActual, isNameChar_of_isNameStart hc]

/-- A class that no argument begins with. -/
theorem Actual.Valid.startsWith_other {actual : Actual} (h : actual.Valid)
    {inClass : UInt8 → Bool} (hclass : ∀ c, inClass c = true → beginsActual c = false)
    (rest : Bytes) : startsWith inClass (actual.text ++ rest) = false := by
  obtain ⟨c, tail, htext, hc⟩ := startsWith_eq_true (h.startsWith_begins rest)
  rw [htext, startsWith_cons, ← Bool.not_eq_true]
  intro hin
  rw [hclass c hin] at hc
  cases hc

theorem beginsActual_of_isBlank {c : UInt8} (h : isBlank c = true) : beginsActual c = false := by
  simp only [isBlank, Bool.or_eq_true, decide_eq_true_eq] at h
  obtain (rfl | rfl) | rfl := h <;> decide

private theorem startsWith_quote_of_digit (h : startsWith isDecimalDigit s = true) :
    startsWith (· = '"'.toUInt8) s = false := by
  obtain ⟨c, tail, rfl, hc⟩ := startsWith_eq_true h
  rw [startsWith_cons, decide_eq_false_iff_not]
  rintro rfl
  exact absurd hc (by decide)

private theorem startsWith_quote_of_name (h : startsWith isNameStart s = true) :
    startsWith (· = '"'.toUInt8) s = false := by
  obtain ⟨c, tail, rfl, hc⟩ := startsWith_eq_true h
  rw [startsWith_cons, decide_eq_false_iff_not]
  rintro rfl
  exact absurd hc (by decide)

theorem scanString_text_append {contents : Bytes} (h : contents.all inString = true) :
    scanString ((Actual.string contents).text ++ rest) = .ok (.string contents, rest) := by
  have hbody : ((Actual.string contents).text ++ rest).drop 1 =
      contents ++ '"'.toUInt8 :: rest := by
    simp [Actual.text]
  have hstop : startsWith inString ('"'.toUInt8 :: rest) = false := rfl
  simp only [scanString, hbody, takeWhile_run h hstop, dropWhile_run h hstop]
  rfl

theorem scanActual_text_append {actual : Actual} (h : actual.Valid)
    (hr : startsWith isNameChar rest = false) :
    scanActual (actual.text ++ rest) = .ok (actual, rest) := by
  cases actual with
  | string contents => exact scanString_text_append h
  | number value =>
    have hread := scanNumber_text_append h hr
    have hdigit := Number.Valid.startsWith_digit h rest
    simp only [scanActual, Actual.text, startsWith_quote_of_digit hdigit, hdigit, if_true]
    exact scan_bind_eq_ok.mpr ⟨_, hread, rfl⟩
  | label name =>
    have hname : IsName name := h
    have hstart := hname.startsWith_append rest
    simp only [scanActual, Actual.text, startsWith_quote_of_name hstart, hname.startsWith_digit,
      hstart, hname.takeWhile_append hr, hname.dropWhile_append hr, if_true]
    rfl

end EvmAssembly
