import EvmAssembly.ParseError

/-!
# Pinning errors to places

An error is made with a place or without one and may then be pinned any number of times, by each
construct that it passes on its way out. It keeps the first place that is known. Here an error also
carries its message, worded once when it is made and again each time that it is given a place; what
it carries is always the message of its fields.
-/

namespace EvmAssembly

/-- An error with the message that was worded for it. -/
structure Diagnostic where
  kind : FaultKind
  location : Location
  detail : Bytes
  expected : Nat
  got : Nat
  position : Nat
  message : Bytes

namespace Diagnostic

/-- The message of an error from its fields. A known place stands before the wording. -/
def describe (kind : FaultKind) (place : Location) (detail : Bytes)
    (expected got position : Nat) : Bytes :=
  (if place.line ≠ 0 then
    "line " ++ decimal place.line ++ ", column " ++ decimal place.column ++ ": " else []) ++
  match kind with
  | .lexical => detail
  | .immediateTooLarge =>
    "immediate " ++ detail ++ " does not fit in " ++ decimal expected ++
      (if expected = 1 then " byte" else " bytes")
  | .extraArgument =>
    "too many arguments: expected " ++ decimal expected ++ ", got " ++ decimal got
  | .missingArgument =>
    "missing argument: expected " ++ decimal expected ++ ", got " ++ decimal got
  | .argumentType =>
    "argument " ++ decimal ((position + 1) % UInt64.size) ++ " has the wrong type: " ++ detail

/-- Makes an error and words its message. -/
def make (kind : FaultKind) (place : Location) (detail : Bytes) (expected got position : Nat) :
    Diagnostic :=
  ⟨kind, place, detail, expected, got, position, describe kind place detail expected got position⟩

/-- A copy of the error if its place is known, and otherwise one that is made anew. -/
def pin (error : Diagnostic) (place : Location) : Diagnostic :=
  if error.location.known then error
  else make error.kind place error.detail error.expected error.got error.position

end Diagnostic

/-- The ways to make an error. Only a lexical one has a place from the start, and that may be
unknown. -/
inductive Origin where
  | lexical (place : Location) (detail : Bytes)
  | immediateTooLarge (literal : Bytes) (width : Nat)
  | extraArgument (expected got : Nat)
  | missingArgument (got expected : Nat)
  | argumentType (position : Nat) (wanted found : Bytes)

namespace Origin

def error : Origin → ParseError
  | lexical place detail => ⟨.lexical detail, place⟩
  | immediateTooLarge literal width => (Fault.immediateTooLarge literal width).unplaced
  | extraArgument expected got => (Fault.extraArgument expected got).unplaced
  | missingArgument got expected => (Fault.missingArgument expected got).unplaced
  | argumentType position wanted found => (Fault.argumentType position wanted found).unplaced

def diagnostic : Origin → Diagnostic
  | lexical place detail => .make .lexical place detail 0 0 0
  | immediateTooLarge literal width => .make .immediateTooLarge .unknown literal width 0 0
  | extraArgument expected got => .make .extraArgument .unknown [] expected got 0
  | missingArgument got expected => .make .missingArgument .unknown [] expected got 0
  | argumentType position wanted found =>
    .make .argumentType .unknown ("expected " ++ wanted ++ ", found " ++ found) 0 0 position

end Origin

namespace ParseError

variable {error : ParseError} {place : Location}

theorem pin_of_known (h : error.location.known = true) (place : Location) :
    error.pin place = error := if_pos h

theorem pin_of_unknown (h : error.location.known = false) (place : Location) :
    error.pin place = ⟨error.fault, place⟩ := by
  rw [pin, if_neg (Bool.eq_false_iff.mp h)]

theorem pin_fault (error : ParseError) (place : Location) :
    (error.pin place).fault = error.fault := by
  cases h : error.location.known with
  | true => rw [pin_of_known h]
  | false => rw [pin_of_unknown h]

theorem foldl_pin_fault (error : ParseError) (places : List Location) :
    (places.foldl pin error).fault = error.fault := by
  induction places generalizing error with
  | nil => rfl
  | cons place places ih => rw [List.foldl_cons, ih, pin_fault]

theorem foldl_pin_of_known (h : error.location.known = true) (places : List Location) :
    places.foldl pin error = error := by
  induction places with
  | nil => rfl
  | cons place places ih => rw [List.foldl_cons, pin_of_known h, ih]

/-- The first known place is kept; as long as there is none, the last one given is. -/
theorem foldl_pin_location (error : ParseError) (places : List Location) :
    (places.foldl pin error).location =
      ((error.location :: places).find? Location.known).getD
        (places.getLastD error.location) := by
  induction places generalizing error with
  | nil => cases h : error.location.known <;> simp [h]
  | cons place places ih =>
    cases h : error.location.known with
    | true => simp [foldl_pin_of_known h, h]
    | false =>
      have hskip : (error.location :: place :: places).find? Location.known =
          (place :: places).find? Location.known := List.find?_cons_of_neg (by simp [h])
      rw [List.foldl_cons, pin_of_unknown h, ih, hskip, List.getLastD_cons]

/-- The error with its message. -/
def diagnostic (error : ParseError) : Diagnostic :=
  ⟨error.fault.kind, error.location, error.fault.detail, error.fault.expected, error.fault.got,
    error.fault.position, error.message⟩

/-- The message is worded from the fields alone. -/
theorem message_eq_describe (error : ParseError) :
    error.message = Diagnostic.describe error.fault.kind error.location error.fault.detail
      error.fault.expected error.fault.got error.fault.position := by
  obtain ⟨fault, place⟩ := error
  have hlead : ∀ text : Bytes,
      (if place.known then place.text ++ ": " ++ text else text) =
        (if place.line ≠ 0 then
          "line " ++ decimal place.line ++ ", column " ++ decimal place.column ++ ": " else []) ++
          text := by
    intro text
    by_cases h : place.line = 0 <;> simp [Location.text, Location.known, h]
  rw [message, hlead]
  cases fault <;> rfl

theorem diagnostic_eq_make (error : ParseError) :
    error.diagnostic = .make error.fault.kind error.location error.fault.detail
      error.fault.expected error.fault.got error.fault.position := by
  rw [diagnostic, message_eq_describe]
  rfl

theorem pin_diagnostic (error : ParseError) (place : Location) :
    (error.pin place).diagnostic = error.diagnostic.pin place := by
  cases h : error.location.known with
  | true =>
    rw [pin_of_known h]
    exact (if_pos h).symm
  | false =>
    rw [pin_of_unknown h, diagnostic_eq_make]
    exact (if_neg (Bool.eq_false_iff.mp h)).symm

theorem foldl_pin_diagnostic (error : ParseError) (places : List Location) :
    (places.foldl pin error).diagnostic = places.foldl Diagnostic.pin error.diagnostic := by
  induction places generalizing error with
  | nil => rfl
  | cons place places ih => rw [List.foldl_cons, List.foldl_cons, ih, pin_diagnostic]

end ParseError

theorem Origin.error_diagnostic (made : Origin) : made.error.diagnostic = made.diagnostic := by
  rw [ParseError.diagnostic_eq_make]
  cases made <;> rfl

/-- However an error is made and however often it is pinned, it ends at the first known place among
its own and those given, or at the last of them if none is known. Its message is then that of its
fields and this place, and nothing else about it has changed. -/
theorem pinned_at_first_known (made : Origin) (places : List Location) :
    let place := ((made.error.location :: places).find? Location.known).getD
      (places.getLastD made.error.location)
    places.foldl ParseError.pin made.error = ⟨made.error.fault, place⟩ ∧
    (places.foldl ParseError.pin made.error).diagnostic =
      places.foldl Diagnostic.pin made.diagnostic ∧
    places.foldl Diagnostic.pin made.diagnostic =
      { made.diagnostic with
        location := place
        message := Diagnostic.describe made.diagnostic.kind place made.diagnostic.detail
          made.diagnostic.expected made.diagnostic.got made.diagnostic.position } := by
  intro place
  have hpinned : places.foldl ParseError.pin made.error = ⟨made.error.fault, place⟩ := by
    rw [← ParseError.foldl_pin_fault made.error places]
    exact congrArg (ParseError.mk _) (ParseError.foldl_pin_location made.error places)
  have hcarried := ParseError.foldl_pin_diagnostic made.error places
  rw [Origin.error_diagnostic] at hcarried
  refine ⟨hpinned, hcarried, ?_⟩
  rw [← hcarried, hpinned, ParseError.diagnostic_eq_make, ← Origin.error_diagnostic]
  rfl

end EvmAssembly
