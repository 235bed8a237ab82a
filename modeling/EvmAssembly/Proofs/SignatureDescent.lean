import EvmAssembly.Proofs.SignatureGrammar

/-!
# Parameter types one by one

The reader of parameter lists goes byte by byte and counts the lists still open. The same list can
be read type by type: a type is a name or a list of its own, with array brackets behind it, and a
comma or a closing parenthesis follows each.
-/

namespace EvmAssembly

variable {s rest : Bytes}

theorem readByte_length_lt {c : UInt8} {what : Expectation} (h : readByte c what s = .ok rest) :
    rest.length < s.length := by
  rw [readByte_eq_ok.mp h]
  exact Nat.lt_succ_self _

theorem length_dropWhile_le (inClass : UInt8 → Bool) (s : Bytes) :
    (s.dropWhile inClass).length ≤ s.length :=
  (List.dropWhile_suffix inClass).length_le

theorem length_dropWhile_isNameChar_lt (h : startsWith isNameStart s = true) :
    (s.dropWhile isNameChar).length < s.length := by
  obtain ⟨c, tail, rfl, hc⟩ := startsWith_eq_true h
  rw [List.dropWhile_cons_of_pos (isNameChar_of_isNameStart hc), List.length_cons]
  exact Nat.lt_succ_of_le (length_dropWhile_le isNameChar tail)

/-- Reads the inside of array brackets and the closing one. -/
def scanSize (s : Bytes) : Scan Bytes := readByte ']'.toUInt8 .arrayEnd (s.dropWhile isDecimalDigit)

theorem scanSize_length_lt (h : scanSize s = .ok rest) : rest.length < s.length :=
  Nat.lt_of_lt_of_le (readByte_length_lt h) (length_dropWhile_le isDecimalDigit s)

/-- Reads all array brackets behind a type. -/
def scanSuffixes (s : Bytes) : Scan Bytes :=
  if _bracket : startsWith (· = '['.toUInt8) s then
    match _read : scanSize (s.drop 1) with
    | .error fault => .error fault
    | .ok rest => scanSuffixes rest
  else .ok s
termination_by s.length
decreasing_by
  have hlt := scanSize_length_lt _read
  rw [List.length_drop] at hlt
  omega

/-- Reads a type up to its array brackets. -/
def scanElement (s : Bytes) : Scan Bytes :=
  if startsWith (· = '('.toUInt8) s then scanParameters .opened 0 (s.drop 1)
  else if startsWith isNameStart s then .ok (s.dropWhile isNameChar)
  else fail (.expected .parameterType) s

/-- Reads a type with its array brackets. -/
def scanType (s : Bytes) : Scan Bytes := scanElement s >>= scanSuffixes

/-- Reads a list of parameters from its opening parenthesis on. -/
def scanList (s : Bytes) : Scan Bytes :=
  readByte '('.toUInt8 .parameterList s >>= scanParameters .opened 0

theorem scanParameters_length_lt {state : ParameterState} {depth : Nat}
    (h : scanParameters state depth s = .ok rest) : rest.length < s.length := by
  induction s generalizing state depth with
  | nil => cases h
  | cons c s ih =>
    rw [List.length_cons]
    simp only [scanParameters] at h
    split at h
    · cases h
    · exact Nat.lt_succ_of_lt (ih h)
    · exact Nat.lt_succ_of_lt (ih h)
    · split at h
      · cases h
        exact Nat.lt_succ_self _
      · exact Nat.lt_succ_of_lt (ih h)

theorem scanSuffixes_length_le (h : scanSuffixes s = .ok rest) : rest.length ≤ s.length := by
  fun_induction scanSuffixes s with
  | case1 => cases h
  | case2 s _ tail hread ih =>
    have hlt := scanSize_length_lt hread
    rw [List.length_drop] at hlt
    have hle := ih h
    omega
  | case3 =>
    cases h
    exact Nat.le_refl _

theorem startsWith_of_scanSuffixes (h : scanSuffixes s = .ok rest) :
    startsWith (· = '['.toUInt8) rest = false := by
  fun_induction scanSuffixes s with
  | case1 => cases h
  | case2 s _ tail _ ih => exact ih h
  | case3 s hbracket =>
    cases h
    exact Bool.eq_false_iff.mpr hbracket

theorem scanElement_length_lt (h : scanElement s = .ok rest) : rest.length < s.length := by
  unfold scanElement at h
  split at h
  · have hlt := scanParameters_length_lt h
    rw [List.length_drop] at hlt
    omega
  · split at h
    · rename_i hstart
      cases h
      exact length_dropWhile_isNameChar_lt hstart
    · cases h

theorem scanType_length_lt (h : scanType s = .ok rest) : rest.length < s.length := by
  obtain ⟨behind, helement, hsuffixes⟩ := scan_bind_eq_ok.mp h
  exact Nat.lt_of_le_of_lt (scanSuffixes_length_le hsuffixes) (scanElement_length_lt helement)

theorem startsWith_of_scanType (h : scanType s = .ok rest) :
    startsWith (· = '['.toUInt8) rest = false := by
  obtain ⟨behind, -, hsuffixes⟩ := scan_bind_eq_ok.mp h
  exact startsWith_of_scanSuffixes hsuffixes

theorem scanList_length_lt (h : scanList s = .ok rest) : rest.length < s.length := by
  obtain ⟨body, hbody, hrest⟩ := scan_bind_eq_ok.mp h
  exact Nat.lt_trans (scanParameters_length_lt hrest) (readByte_length_lt hbody)

theorem scanList_suffix (h : scanList s = .ok rest) : ∃ text, s = text ++ rest := by
  obtain ⟨body, hbody, hrest⟩ := scan_bind_eq_ok.mp h
  obtain ⟨text, rfl⟩ := scanParameters_suffix hrest
  exact ⟨'('.toUInt8 :: text, readByte_eq_ok.mp hbody⟩

/-- A list within others is read as if it stood alone, and then the list around it is gone on
with. -/
theorem scanParameters_within (state : ParameterState) (inner depth : Nat) (s : Bytes) :
    scanParameters state (inner + depth + 1) s =
      scanParameters state inner s >>= scanParameters .complete depth := by
  induction s generalizing state inner with
  | nil => rfl
  | cons c s ih =>
    simp only [scanParameters]
    cases state.step c with
    | none => rfl
    | some move =>
      cases move with
      | within target => exact ih target inner
      | deeper =>
        have hdepth : inner + depth + 1 + 1 = (inner + 1) + depth + 1 := by omega
        rw [hdepth]
        exact ih .opened (inner + 1)
      | close =>
        cases inner with
        | zero =>
          rw [Nat.zero_add]
          rfl
        | succ inner =>
          have hdepth : inner + 1 + depth = inner + depth + 1 := by omega
          rw [hdepth]
          exact ih .complete inner

private theorem scan_size (depth : Nat) (s : Bytes) :
    scanParameters .size depth s = scanSize s >>= scanParameters .complete depth := by
  have hdigits : ∀ c ∈ s.takeWhile isDecimalDigit,
      ParameterState.step .size c = some (.within .size) := by
    intro c hc
    have hdigit := List.all_eq_true.mp List.all_takeWhile c hc
    simp [ParameterState.step, hdigit]
  have hrun := scan_run depth (s.dropWhile isDecimalDigit) hdigits
  rw [List.takeWhile_append_dropWhile] at hrun
  rw [hrun, scanSize]
  have hstop := startsWith_dropWhile isDecimalDigit s
  cases hs : s.dropWhile isDecimalDigit with
  | nil => rfl
  | cons c tail =>
    rw [hs, startsWith_cons] at hstop
    by_cases hc : c = ']'.toUInt8
    · subst hc
      rw [readByte, if_pos rfl]
      exact scan_within .complete depth tail (by decide)
    · simp [scanParameters, ParameterState.step, ParameterState.expectation, readByte, hstop, hc,
        fail, bind, Except.bind]

/-- Behind a type, its array brackets come first. -/
private theorem scan_suffixes (depth : Nat) (s : Bytes) :
    scanParameters .complete depth s = scanSuffixes s >>= scanParameters .complete depth := by
  fun_induction scanSuffixes s with
  | case1 s hbracket fault hread =>
    rw [drop_one_of_startsWith hbracket, scan_within .size _ _ (by decide), scan_size, hread]
  | case2 s hbracket tail hread ih =>
    rw [← ih]
    conv => lhs; rw [drop_one_of_startsWith hbracket]
    rw [scan_within .size _ _ (by decide), scan_size, hread]
    rfl
  | case3 => rfl

private theorem scan_element (depth : Nat) (s : Bytes) :
    scanParameters .next depth s = scanElement s >>= scanParameters .complete depth := by
  unfold scanElement
  split
  · rename_i hopen
    conv => lhs; rw [drop_one_of_startsWith hopen]
    rw [scan_deeper (.inr rfl), ← scanParameters_within, Nat.zero_add]
  · rename_i hopen
    split
    · rename_i hstart
      have hname : IsName (s.takeWhile isNameChar) := isName_takeWhile hstart
      have hread := scan_name (.inr rfl) hname (startsWith_dropWhile isNameChar s) depth
      rw [List.takeWhile_append_dropWhile] at hread
      exact hread
    · rename_i hstart
      cases s with
      | nil => rfl
      | cons c s =>
        have hc : ¬c = '('.toUInt8 := by simpa using hopen
        have hn : ¬isNameStart c = true := hstart
        simp [scanParameters, ParameterState.step, ParameterState.beginType,
          ParameterState.expectation, hc, hn, fail, bind, Except.bind]

/-- Where a type is expected, one is read. -/
theorem scan_type (depth : Nat) (s : Bytes) :
    scanParameters .next depth s = scanType s >>= scanParameters .complete depth := by
  rw [scan_element, scanType]
  cases scanElement s with
  | error fault => rfl
  | ok rest => exact scan_suffixes depth rest

/-- Behind the opening parenthesis, what does not close the list is a type. -/
theorem scan_opened (h : startsWith (· = ')'.toUInt8) s = false) (depth : Nat) :
    scanParameters .opened depth s = scanParameters .next depth s := by
  cases s with
  | nil => rfl
  | cons c s =>
    have hc : ¬c = ')'.toUInt8 := by simpa using h
    simp [scanParameters, ParameterState.step, ParameterState.expectation, hc]

/-- Behind a type and its array brackets, a list goes on or ends. -/
theorem scan_complete (h : startsWith (· = '['.toUInt8) s = false) (depth : Nat) :
    scanParameters .complete depth s =
      if startsWith (· = ','.toUInt8) s then scanParameters .next depth (s.drop 1)
      else if startsWith (· = ')'.toUInt8) s then afterList depth (s.drop 1)
      else fail (.expected .parameterEnd) s := by
  split
  · rename_i hcomma
    conv => lhs; rw [drop_one_of_startsWith hcomma]
    exact scan_within .next _ _ (by decide)
  · rename_i hcomma
    split
    · rename_i hclose
      conv => lhs; rw [drop_one_of_startsWith hclose]
      exact scan_close _ _ (by decide)
    · rename_i hclose
      cases s with
      | nil => rfl
      | cons c s =>
        have hb : ¬c = '['.toUInt8 := by simpa using h
        have hc : ¬c = ','.toUInt8 := by simpa using hcomma
        have hp : ¬c = ')'.toUInt8 := by simpa using hclose
        simp [scanParameters, ParameterState.step, ParameterState.endType,
          ParameterState.expectation, hb, hc, hp]

end EvmAssembly
