import EvmAssembly.LexicalFault

/-!
# Reading a function signature

A signature is a name and a list of parameter types. Types may be tuples of any depth, so the
reader keeps the number of lists still open around the one it is in.
-/

namespace EvmAssembly

/-- Where in a parameter list the reader is. -/
inductive ParameterState where
  /-- Behind an opening parenthesis. -/
  | opened
  /-- Behind a comma. -/
  | next
  /-- Within the name of a type. -/
  | name
  /-- Behind a complete type. -/
  | complete
  /-- Between the brackets of an array type. -/
  | size
deriving DecidableEq

/-- What one byte does: it goes on in the list, or it opens or closes one. -/
inductive ParameterMove where
  | within (state : ParameterState)
  | deeper
  | close
deriving DecidableEq

namespace ParameterState

def beginType (c : UInt8) : Option ParameterMove :=
  if c = '('.toUInt8 then some .deeper
  else if isNameStart c then some (.within .name)
  else none

def endType (c : UInt8) : Option ParameterMove :=
  if c = '['.toUInt8 then some (.within .size)
  else if c = ','.toUInt8 then some (.within .next)
  else if c = ')'.toUInt8 then some .close
  else none

def step : ParameterState → UInt8 → Option ParameterMove
  | opened, c => if c = ')'.toUInt8 then some .close else beginType c
  | next, c => beginType c
  | name, c => if isNameChar c then some (.within .name) else endType c
  | complete, c => endType c
  | size, c =>
    if isDecimalDigit c then some (.within .size)
    else if c = ']'.toUInt8 then some (.within .complete)
    else none

def expectation : ParameterState → Expectation
  | opened | next => .parameterType
  | name | complete => .parameterEnd
  | size => .arrayEnd

end ParameterState

/-- Reads to the end of a parameter list that stands within `depth` others. -/
def scanParameters : ParameterState → Nat → Bytes → Scan Bytes
  | state, _, [] => fail (.expected state.expectation) []
  | state, depth, c :: rest =>
    match state.step c with
    | none => fail (.expected state.expectation) (c :: rest)
    | some (.within state) => scanParameters state depth rest
    | some .deeper => scanParameters .opened (depth + 1) rest
    | some .close =>
      match depth with
      | 0 => .ok rest
      | depth + 1 => scanParameters .complete depth rest

/-- Reads a signature; gives its text and the rest. -/
def scanSignature (s : Bytes) : Scan (Bytes × Bytes) :=
  if startsWith isNameStart s then do
    let list ← readByte '('.toUInt8 .parameterList (s.dropWhile isNameChar)
    let rest ← scanParameters .opened 0 list
    return (consumed s rest, rest)
  else fail (.expected .functionName) s

theorem scanParameters_suffix {state : ParameterState} {depth : Nat} {s rest : Bytes}
    (h : scanParameters state depth s = .ok rest) : ∃ text, s = text ++ rest := by
  induction s generalizing state depth with
  | nil => simp [scanParameters] at h
  | cons c s ih =>
    simp only [scanParameters] at h
    split at h
    · simp at h
    · obtain ⟨text, rfl⟩ := ih h
      exact ⟨c :: text, rfl⟩
    · obtain ⟨text, rfl⟩ := ih h
      exact ⟨c :: text, rfl⟩
    · split at h
      · cases h
        exact ⟨[c], rfl⟩
      · obtain ⟨text, rfl⟩ := ih h
        exact ⟨c :: text, rfl⟩

theorem scanSignature_text {s text rest : Bytes} (h : scanSignature s = .ok (text, rest)) :
    s = text ++ rest := by
  unfold scanSignature at h
  split at h
  · obtain ⟨list, hlist, h⟩ := scan_bind_eq_ok.mp h
    obtain ⟨r, hrest, h⟩ := scan_bind_eq_ok.mp h
    cases h
    obtain ⟨middle, rfl⟩ := scanParameters_suffix hrest
    have hs : s = (s.takeWhile isNameChar ++ '('.toUInt8 :: middle) ++ rest := by
      rw [List.append_assoc, List.cons_append, ← readByte_eq_ok.mp hlist,
        List.takeWhile_append_dropWhile]
    have ht := consumed_append (s.takeWhile isNameChar ++ '('.toUInt8 :: middle) rest
    rw [← hs] at ht
    rw [ht]
    exact hs
  · simp at h

end EvmAssembly
