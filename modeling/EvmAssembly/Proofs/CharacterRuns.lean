import EvmAssembly.StatementScan

/-!
# Runs of characters

A reader takes the longest run of a class. When a run is known to stop where the next text begins,
what it takes and what it leaves are known as well.
-/

namespace EvmAssembly

variable {inClass : UInt8 → Bool} {text rest name s : Bytes} {c : UInt8}

@[simp] theorem startsWith_nil : startsWith inClass [] = false := rfl

@[simp] theorem startsWith_cons : startsWith inClass (c :: rest) = inClass c := rfl

theorem startsWith_append (h : startsWith inClass text = true) (rest : Bytes) :
    startsWith inClass (text ++ rest) = true := by
  obtain ⟨c, tail, rfl, hc⟩ := startsWith_eq_true h
  exact hc

theorem startsWith_mono {wider : UInt8 → Bool} (h : ∀ c, inClass c = true → wider c = true)
    (hs : startsWith wider s = false) : startsWith inClass s = false := by
  cases s with
  | nil => rfl
  | cons c s =>
    have hc : wider c ≠ true := by simpa using hs
    simpa using fun hin => hc (h c hin)

theorem startsWith_dropWhile (inClass : UInt8 → Bool) (s : Bytes) :
    startsWith inClass (s.dropWhile inClass) = false := by
  induction s with
  | nil => rfl
  | cons c s ih => by_cases h : inClass c = true <;> simp [h, ih]

private theorem takeWhile_of_startsWith (h : startsWith inClass rest = false) :
    rest.takeWhile inClass = [] := by
  cases rest with
  | nil => rfl
  | cons c rest =>
    have hc : ¬inClass c = true := by simpa using h
    simp [hc]

theorem dropWhile_of_startsWith (h : startsWith inClass rest = false) :
    rest.dropWhile inClass = rest := by
  cases rest with
  | nil => rfl
  | cons c rest =>
    have hc : ¬inClass c = true := by simpa using h
    simp [hc]

theorem takeWhile_run (ht : text.all inClass = true) (hr : startsWith inClass rest = false) :
    (text ++ rest).takeWhile inClass = text := by
  rw [List.takeWhile_append_of_pos (by simpa using ht), takeWhile_of_startsWith hr,
    List.append_nil]

theorem dropWhile_run (ht : text.all inClass = true) (hr : startsWith inClass rest = false) :
    (text ++ rest).dropWhile inClass = rest := by
  rw [List.dropWhile_append_of_pos (by simpa using ht), dropWhile_of_startsWith hr]

theorem isNameChar_of_isNameStart (h : isNameStart c = true) : isNameChar c = true := by
  simp [isNameChar, h]

theorem isNameChar_of_isDecimalDigit (h : isDecimalDigit c = true) : isNameChar c = true := by
  simp [isNameChar, h]

theorem isDecimalDigit_toNat (h : isDecimalDigit c = true) : 48 ≤ c.toNat ∧ c.toNat ≤ 57 := by
  simp only [isDecimalDigit, Bool.and_eq_true, decide_eq_true_eq, UInt8.le_iff_toNat_le] at h
  exact h

theorem isNameStart_of_isDecimalDigit (h : isDecimalDigit c = true) : isNameStart c = false := by
  have hc := isDecimalDigit_toNat h
  have ha : ¬ 'a'.toUInt8 ≤ c := by
    intro hle
    have hn : 97 ≤ c.toNat := UInt8.le_iff_toNat_le.mp hle
    omega
  have hA : ¬ 'A'.toUInt8 ≤ c := by
    intro hle
    have hn : 65 ≤ c.toNat := UInt8.le_iff_toNat_le.mp hle
    omega
  have hu : c ≠ '_'.toUInt8 := by
    rintro rfl
    exact absurd hc (by decide)
  simp [isNameStart, ha, hA, hu]

/-- A blank, a separator, a comma or the like is no part of a word. -/
theorem isNameChar_of_isBlank (h : isBlank c = true) : isNameChar c = false := by
  simp only [isBlank, Bool.or_eq_true, decide_eq_true_eq] at h
  obtain (rfl | rfl) | rfl := h <;> decide

theorem isNameChar_of_isSeparator (h : isSeparator c = true) : isNameChar c = false := by
  simp only [isSeparator, Bool.or_eq_true, decide_eq_true_eq] at h
  obtain rfl | rfl := h <;> decide

theorem isBlank_of_isSeparator (h : isSeparator c = true) : isBlank c = false := by
  simp only [isSeparator, Bool.or_eq_true, decide_eq_true_eq] at h
  obtain rfl | rfl := h <;> decide

namespace IsName

theorem startsWith_append (h : IsName name) (rest : Bytes) :
    startsWith isNameStart (name ++ rest) = true := EvmAssembly.startsWith_append h.1 rest

theorem takeWhile_append (h : IsName name) (hr : startsWith isNameChar rest = false) :
    (name ++ rest).takeWhile isNameChar = name := takeWhile_run h.2 hr

theorem dropWhile_append (h : IsName name) (hr : startsWith isNameChar rest = false) :
    (name ++ rest).dropWhile isNameChar = rest := dropWhile_run h.2 hr

end IsName

/-- The longest word that a text begins with is a name if it begins as one. -/
theorem isName_takeWhile (h : startsWith isNameStart s = true) :
    IsName (s.takeWhile isNameChar) := by
  obtain ⟨c, tail, rfl, hc⟩ := startsWith_eq_true h
  refine ⟨?_, List.all_takeWhile⟩
  simpa [isNameChar_of_isNameStart hc] using hc

end EvmAssembly
