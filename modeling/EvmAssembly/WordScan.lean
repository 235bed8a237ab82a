import EvmAssembly.SignatureScan

/-!
# Reading numbers, operands and arguments

Each reader takes the longest piece of its form and gives it with the rest of the text. What it
gives, written out, is what it read.
-/

namespace EvmAssembly

/-- The base that the beginning of a number shows. -/
def Base.ofText (s : Bytes) : Base :=
  if hex.mark.isPrefixOf s then hex
  else if octal.mark.isPrefixOf s then octal
  else if binary.mark.isPrefixOf s then binary
  else decimal

/-- Reads a number. A character that could go on a name may not follow it. -/
def scanNumber (s : Bytes) : Scan (Number × Bytes) :=
  let base := Base.ofText s
  let body := s.drop base.mark.length
  let digits := body.takeWhile base.accepts
  let rest := body.dropWhile base.accepts
  if digits = [] then fail (.expected (.digits base)) rest
  else if startsWith isNameChar rest then fail (.strayCharacter base) rest
  else if base = .hex ∧ digits.length % 2 ≠ 0 then fail (.oddDigits digits) s
  else .ok (⟨base, digits⟩, rest)

/-- Reads a selector from its opening parenthesis on. -/
def scanSelector (s : Bytes) : Scan (Operand × Bytes) := do
  let s ← readByte '('.toUInt8 .selectorOpening s
  let s ← readByte '"'.toUInt8 .signatureOpening s
  let (signature, s) ← scanSignature s
  let s ← readByte '"'.toUInt8 .signatureEnd s
  let s ← readByte ')'.toUInt8 .selectorEnd s
  return (.selector signature, s)

def scanOperand (s : Bytes) : Scan (Operand × Bytes) :=
  if startsWith isDecimalDigit s then do
    let (number, rest) ← scanNumber s
    return (.number number, rest)
  else if startsWith isNameStart s then
    let name := s.takeWhile isNameChar
    let rest := s.dropWhile isNameChar
    if name = Operand.selectorWord ∧ startsWith (· = '('.toUInt8) rest then scanSelector rest
    else .ok (.label name, rest)
  else fail (.expected .operand) s

/-- A string holds any byte but a quote and a newline. -/
def inString (c : UInt8) : Bool := c ≠ '"'.toUInt8 && c ≠ newline

/-- Reads a string from its opening quote on. -/
def scanString (s : Bytes) : Scan (Actual × Bytes) :=
  let body := s.drop 1
  let rest := body.dropWhile inString
  if startsWith (· = '"'.toUInt8) rest then .ok (.string (body.takeWhile inString), rest.drop 1)
  else fail .unterminatedString s

def scanActual (s : Bytes) : Scan (Actual × Bytes) :=
  if startsWith (· = '"'.toUInt8) s then scanString s
  else if startsWith isDecimalDigit s then do
    let (number, rest) ← scanNumber s
    return (.number number, rest)
  else if startsWith isNameStart s then
    .ok (.label (s.takeWhile isNameChar), s.dropWhile isNameChar)
  else fail (.expected .argument) s

theorem startsWith_eq_true {inClass : UInt8 → Bool} {s : Bytes} (h : startsWith inClass s = true) :
    ∃ c rest, s = c :: rest ∧ inClass c = true := by
  cases s with
  | nil => simp [startsWith] at h
  | cons c rest => exact ⟨c, rest, rfl, h⟩

theorem drop_one_of_startsWith {c : UInt8} {s : Bytes}
    (h : startsWith (· = c) s = true) : s = c :: s.drop 1 := by
  obtain ⟨d, rest, rfl, hd⟩ := startsWith_eq_true h
  simp [of_decide_eq_true hd]

theorem Base.mark_ofText (s : Bytes) :
    s = (Base.ofText s).mark ++ s.drop (Base.ofText s).mark.length := by
  have key : ∀ base : Base, base.mark.isPrefixOf s = true →
      s = base.mark ++ s.drop base.mark.length := by
    intro base h
    obtain ⟨rest, rfl⟩ := List.isPrefixOf_iff_prefix.mp h
    simp
  unfold Base.ofText
  split
  · exact key _ (by assumption)
  · split
    · exact key _ (by assumption)
    · split
      · exact key _ (by assumption)
      · exact key _ (by simp [Base.mark, utf8])

theorem scanNumber_text {s rest : Bytes} {number : Number}
    (h : scanNumber s = .ok (number, rest)) : s = number.text ++ rest := by
  simp only [scanNumber] at h
  split at h
  · simp at h
  · split at h
    · simp at h
    · split at h
      · simp at h
      · cases h
        conv => lhs; rw [Base.mark_ofText s]
        simp [Number.text]

theorem scanSelector_text {s rest : Bytes} {operand : Operand}
    (h : scanSelector s = .ok (operand, rest)) :
    Operand.selectorWord ++ s = operand.text ++ rest := by
  obtain ⟨s₀, h₀, h⟩ := scan_bind_eq_ok.mp h
  obtain ⟨s₁, h₁, h⟩ := scan_bind_eq_ok.mp h
  obtain ⟨⟨signature, s₂⟩, h₂, h⟩ := scan_bind_eq_ok.mp h
  obtain ⟨s₃, h₃, h⟩ := scan_bind_eq_ok.mp h
  obtain ⟨s₄, h₄, h⟩ := scan_bind_eq_ok.mp h
  cases h
  rw [readByte_eq_ok.mp h₀, readByte_eq_ok.mp h₁, scanSignature_text h₂, readByte_eq_ok.mp h₃,
    readByte_eq_ok.mp h₄]
  simp [Operand.text, Operand.selectorOpening]

theorem scanOperand_text {s rest : Bytes} {operand : Operand}
    (h : scanOperand s = .ok (operand, rest)) : s = operand.text ++ rest := by
  simp only [scanOperand] at h
  split at h
  · obtain ⟨⟨number, r⟩, hn, h⟩ := scan_bind_eq_ok.mp h
    cases h
    exact scanNumber_text hn
  · split at h
    · split at h
      · rename_i hsel
        rw [← scanSelector_text h, ← hsel.1, List.takeWhile_append_dropWhile]
      · cases h
        simp [Operand.text]
    · simp at h

theorem scanString_text {s rest : Bytes} {actual : Actual}
    (hs : startsWith (· = '"'.toUInt8) s = true) (h : scanString s = .ok (actual, rest)) :
    s = actual.text ++ rest := by
  simp only [scanString] at h
  split at h
  · rename_i hq
    cases h
    have hbody := List.takeWhile_append_dropWhile (p := inString) (l := s.drop 1)
    rw [drop_one_of_startsWith hq] at hbody
    conv => lhs; rw [drop_one_of_startsWith hs, ← hbody]
    simp [Actual.text]
  · simp at h

theorem scanActual_text {s rest : Bytes} {actual : Actual}
    (h : scanActual s = .ok (actual, rest)) : s = actual.text ++ rest := by
  simp only [scanActual] at h
  split at h
  · exact scanString_text (by assumption) h
  · split at h
    · obtain ⟨⟨number, r⟩, hn, h⟩ := scan_bind_eq_ok.mp h
      cases h
      exact scanNumber_text hn
    · split at h
      · cases h
        simp [Actual.text]
      · simp at h

end EvmAssembly
