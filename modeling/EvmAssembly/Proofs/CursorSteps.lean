import EvmAssembly.Proofs.CharacterRuns
import EvmAssembly.Proofs.CursorScan

/-!
# The steps of a cursor

A cursor in good order stands before a rest of the source, has its place, and has gone over every
byte before it once and in order. A walk follows a reading of that rest if it has an outcome, with
the cursor in good order again: where the reading gives a value and a rest, the walk returns the
value and the cursor stands before that rest, and where the reading stops at a fault, its error is
thrown. A limit beyond the length of the source leaves every loop enough turns.
-/

namespace EvmAssembly

variable {α β γ : Type} {s rest text word : Bytes} {cursor first : Cursor} {cause : LexicalCause}
variable {inClass : UInt8 → Bool} {limit : Nat}

/-- A turn gets on, or it leaves the statements at the end of the source. -/
def Turn.Advances (s : Bytes) (turn : Turn) : Prop :=
  turn.start < turn.stop ∨ turn.loop = .statements ∧ turn.last = true ∧ turn.stop = s.length

/-- The cursor is in good order, and a rest of the source is before it. -/
structure Stands (s rest : Bytes) (cursor : Cursor) : Prop where
  rest_eq : s.drop cursor.position = rest
  position_le : cursor.position ≤ s.length
  place_eq : cursor.place = Location.start.after (s.take cursor.position)
  passed_eq : cursor.passed = List.range cursor.position
  advances : ∀ turn ∈ cursor.turns, turn.Advances s

/-- From a cursor, a walk does what a reading does. -/
inductive Follows (s : Bytes) (walk : Walk α) (cursor : Cursor) : Scan (α × Bytes) → Prop where
  | returns {a : α} {rest : Bytes} {last : Cursor}
      (outcome : walk.outcome cursor = some (.ok a, last)) (stands : Stands s rest last) :
      Follows s walk cursor (.ok (a, rest))
  | throws {fault : LexicalFault} {rest : Bytes} {last : Cursor}
      (outcome : walk.outcome cursor = some (.error (fault.parseError s), last))
      (stands : Stands s rest last) : Follows s walk cursor (.error fault)

namespace Stands

theorem start (s : Bytes) : Stands s s .start where
  rest_eq := rfl
  position_le := Nat.zero_le _
  place_eq := rfl
  passed_eq := rfl
  advances := by simp [Cursor.start]

theorem position_add (h : Stands s rest cursor) : cursor.position + rest.length = s.length := by
  have hbound := h.position_le
  rw [← h.rest_eq, List.length_drop]
  omega

theorem length_lt (h : Stands s rest cursor) (hlimit : s.length < limit) :
    rest.length < limit := by
  have hadd := h.position_add
  omega

/-- A cursor that has less before it is further on. -/
theorem position_lt {rest' : Bytes} {cursor' : Cursor} (h : Stands s rest cursor)
    (h' : Stands s rest' cursor') (hlt : rest'.length < rest.length) :
    cursor.position < cursor'.position := by
  have hadd := h.position_add
  have hadd' := h'.position_add
  omega

theorem peek_eq (h : Stands s rest cursor) (ahead : Nat) :
    cursor.peek s ahead = rest.getD ahead 0 := by
  rw [Cursor.peek, ← h.rest_eq, List.getD_eq_getElem?_getD, List.getD_eq_getElem?_getD,
    List.getElem?_drop]

theorem atEnd_eq (h : Stands s rest cursor) : cursor.atEnd s = decide (rest = []) := by
  have hadd := h.position_add
  rw [Cursor.atEnd, decide_eq_decide, ← List.length_eq_zero_iff]
  omega

/-- A class that NUL is not in tells the end as well. -/
theorem peek_class (h : Stands s rest cursor) (inClass : UInt8 → Bool)
    (hclass : inClass 0 = false) :
    inClass (cursor.peek s 0) = startsWith inClass rest := by
  rw [h.peek_eq]
  cases rest with
  | nil => exact hclass
  | cons c rest => rfl

theorem peek_iff {c : UInt8} (h : Stands s rest cursor) (hc : c ≠ 0) :
    cursor.peek s 0 = c ↔ startsWith (· = c) rest = true := by
  rw [← h.peek_class (· = c) (by simpa using hc.symm)]
  exact (decide_eq_true_iff).symm

theorem sees_eq (h : Stands s rest cursor) : cursor.sees s inClass = startsWith inClass rest := by
  rw [Cursor.sees, h.atEnd_eq, h.peek_eq]
  cases rest with
  | nil => rfl
  | cons c rest => simp

theorem position_append (hfirst : Stands s (text ++ rest) first) (h : Stands s rest cursor) :
    cursor.position = first.position + text.length := by
  have hadd := h.position_add
  have hadd' := hfirst.position_add
  rw [List.length_append] at hadd'
  omega

/-- The cursor has not moved if nothing was read. -/
theorem position_eq_iff (hfirst : Stands s (text ++ rest) first) (h : Stands s rest cursor) :
    cursor.position = first.position ↔ text = [] := by
  rw [hfirst.position_append h, ← List.length_eq_zero_iff]
  omega

/-- The place behind a text follows from the place before it. -/
theorem place_after (hfirst : Stands s (text ++ rest) first) (h : Stands s rest cursor) :
    cursor.place = first.place.after text := by
  rw [h.place_eq, hfirst.place_eq, hfirst.position_append h, List.take_add, hfirst.rest_eq,
    List.take_left, Location.after_append]

theorem place_consumed {whole : Bytes} (hfirst : Stands s whole first) (h : Stands s rest cursor)
    (hle : rest.length ≤ whole.length) :
    cursor.place = first.place.after (consumed whole rest) := by
  have hposition : first.position + (whole.length - rest.length) = cursor.position := by
    have hadd := h.position_add
    have hadd' := hfirst.position_add
    omega
  have hrest : rest = whole.drop (whole.length - rest.length) := by
    calc rest = s.drop cursor.position := h.rest_eq.symm
      _ = (s.drop first.position).drop (whole.length - rest.length) := by
        rw [List.drop_drop, hposition]
      _ = whole.drop (whole.length - rest.length) := by rw [hfirst.rest_eq]
  have hsplit : consumed whole rest ++ rest = whole := by
    calc consumed whole rest ++ rest
        = whole.take (whole.length - rest.length) ++ whole.drop (whole.length - rest.length) :=
          congrArg (whole.take (whole.length - rest.length) ++ ·) hrest
      _ = whole := List.take_append_drop ..
  have hwhole : Stands s (consumed whole rest ++ rest) first := by rwa [hsplit]
  exact hwhole.place_after h

end Stands

namespace Follows

theorem pure (h : Stands s rest cursor) (a : α) : Follows s (pure a) cursor (.ok (a, rest)) :=
  .returns rfl h

theorem of_outcome {walk other : Walk α} {reading : Scan (α × Bytes)}
    (h : Follows s walk cursor reading) (heq : other.outcome first = walk.outcome cursor) :
    Follows s other first reading := by
  cases h with
  | returns outcome stands => exact .returns (heq.trans outcome) stands
  | throws outcome stands => exact .throws (heq.trans outcome) stands

theorem get {next : Cursor → Walk α} {reading : Scan (α × Bytes)}
    (h : Follows s (next cursor) cursor reading) : Follows s (get >>= next) cursor reading :=
  h.of_outcome rfl

/-- In a sequence, the second walk goes on from where the first one left the cursor. -/
theorem bind {walk : Walk α} {next : α → Walk β} {reading : Scan γ} {shows : γ → α × Bytes}
    {later : γ → Scan (β × Bytes)} (h : Follows s walk cursor (reading.map shows))
    (hnext : ∀ c last, reading = .ok c → Stands s (shows c).2 last →
      Follows s (next (shows c).1) last (later c)) :
    Follows s (walk >>= next) cursor (reading >>= later) := by
  have hrun : (walk >>= next).outcome cursor = (walk.outcome cursor).bind fun ending =>
      match ending with
      | (.ok a, last) => (next a).outcome last
      | (.error error, last) => some (.error error, last) := by
    change (walk.run.run cursor).bind _ = _
    refine congrArg _ (funext fun ending => ?_)
    obtain ⟨_ | _, last⟩ := ending <;> rfl
  cases reading with
  | error fault =>
    cases h with
    | throws outcome stands =>
      rw [outcome] at hrun
      exact .throws hrun stands
  | ok c =>
    have hread : Follows s walk cursor (.ok ((shows c).1, (shows c).2)) := h
    cases hread with
    | @returns _ _ last outcome stands =>
      rw [outcome] at hrun
      exact (hnext c last rfl stands).of_outcome hrun

theorem seq {walk : Walk Unit} {next : Unit → Walk β} {reading : Scan Bytes}
    {later : Bytes → Scan (β × Bytes)} (h : Follows s walk cursor (reading.map (Prod.mk ())))
    (hnext : ∀ rest last, reading = .ok rest → Stands s rest last →
      Follows s (next ()) last (later rest)) :
    Follows s (walk >>= next) cursor (reading >>= later) :=
  h.bind hnext

/-- A first walk that always returns leaves the reading to the second one. -/
theorem andThen {walk : Walk α} {next : α → Walk β} {a : α} {reading : Scan (β × Bytes)}
    (h : Follows s walk cursor (.ok (a, rest)))
    (hnext : ∀ last, Stands s rest last → Follows s (next a) last reading) :
    Follows s (walk >>= next) cursor reading := by
  have hfirst : Follows s walk cursor (Except.map id (.ok (a, rest))) := h
  have hboth : Follows s (walk >>= next) cursor
      ((.ok (a, rest) : Scan (α × Bytes)) >>= fun _ => reading) :=
    hfirst.bind fun _ last heq hlast => by
      cases heq
      exact hnext last hlast
  exact hboth

/-- A byte that is there is gone over. -/
theorem advance {c : UInt8} (h : Stands s (c :: rest) cursor) :
    Follows s (Walk.advance s) cursor (.ok ((), rest)) := by
  have hadd := h.position_add
  have htake : s.take (cursor.position + 1) = s.take cursor.position ++ [c] := by
    rw [List.take_add, h.rest_eq]
    rfl
  refine .returns rfl ⟨?_, ?_, ?_, ?_, h.advances⟩
  · change s.drop (cursor.position + 1) = rest
    rw [← List.drop_drop, h.rest_eq]
    rfl
  · change cursor.position + 1 ≤ s.length
    rw [List.length_cons] at hadd
    omega
  · change cursor.place.step (cursor.peek s 0) = _
    rw [h.peek_eq, htake, Location.after_append, ← h.place_eq]
    rfl
  · change cursor.passed ++ [cursor.position] = _
    rw [h.passed_eq, List.range_succ]

theorem note {loop : Loop} {start : Nat} {last : Bool} (h : Stands s rest cursor)
    (hturn : Turn.Advances s ⟨loop, start, cursor.position, last⟩) :
    Follows s (Walk.note loop start last) cursor (.ok ((), rest)) := by
  refine .returns rfl ⟨h.rest_eq, h.position_le, h.place_eq, h.passed_eq, fun turn hmem => ?_⟩
  obtain hmem | hmem := List.mem_append.mp hmem
  · exact h.advances turn hmem
  · rw [List.mem_singleton.mp hmem]
    exact hturn

theorem slice (hfirst : Stands s (text ++ rest) first) (h : Stands s rest cursor) :
    Follows s (Walk.slice s first.position) cursor (.ok (text, rest)) := by
  refine .returns ?_ h
  change some (Except.ok ((s.drop first.position).take (cursor.position - first.position)), cursor)
    = _
  rw [hfirst.rest_eq, hfirst.position_append h, Nat.add_sub_cancel_left, List.take_left]

/-- An error that points to an earlier place is the fault there if its text is. -/
private theorem throw (hfirst : Stands s word first) (h : Stands s rest cursor)
    (hdetail : (LexicalFault.mk cause rest).detail = (LexicalFault.mk cause word).detail) :
    Follows s (Walk.faultAt s first.place cause : Walk α) cursor (fail cause word) := by
  have hoffset : s.length - word.length = first.position := by
    have hadd := hfirst.position_add
    omega
  refine .throws ?_ h
  change some (Except.error (ParseError.mk (.lexical (LexicalFault.mk cause
    (s.drop cursor.position)).detail) first.place), cursor) = _
  rw [h.rest_eq, hdetail, hfirst.place_eq, LexicalFault.parseError, LexicalFault.offset, hoffset]
  rfl

/-- What is thrown here points to the cursor. -/
theorem fault (h : Stands s rest cursor) :
    Follows s (Walk.fault s cause : Walk α) cursor (fail cause rest) :=
  .get (throw h h rfl)

/-- What is wrong with a whole word is thrown behind it and points to its beginning. -/
theorem faultAt (hfirst : Stands s word first) (h : Stands s rest cursor)
    (hcause : cause.atWordStart = true) :
    Follows s (Walk.faultAt s first.place cause : Walk α) cursor (fail cause word) := by
  refine throw hfirst h ?_
  revert hcause
  cases cause <;> simp [LexicalCause.atWordStart, LexicalFault.detail]

theorem expect {c : UInt8} {what : Expectation} (h : Stands s rest cursor) :
    Follows s (Walk.expect s c what) cursor ((readByte c what rest).map (Prod.mk ())) := by
  have hmissed : (cursor.atEnd s || decide (cursor.peek s 0 ≠ c)) = !startsWith (· = c) rest := by
    rw [h.atEnd_eq, h.peek_eq]
    cases rest <;> simp
  refine .get ?_
  rw [hmissed]
  cases rest with
  | nil => exact .fault h
  | cons d rest =>
    by_cases hd : d = c
    · simpa [readByte, hd] using .advance h
    · simpa [readByte, hd] using .fault h

/-- A loop whose test sees a class goes over a run of the class. -/
theorem advanceWhile {test : Cursor → Bool} {turns : Nat}
    (htest : ∀ rest cursor, Stands s rest cursor → test cursor = startsWith inClass rest)
    (hturns : rest.length < turns) (h : Stands s rest cursor) :
    Follows s (Walk.advanceWhile s test turns) cursor (.ok ((), rest.dropWhile inClass)) := by
  induction turns generalizing rest cursor with
  | zero => exact absurd hturns (Nat.not_lt_zero _)
  | succ turns ih =>
    refine .get ?_
    rw [htest _ _ h]
    cases rest with
    | nil => exact .pure h ()
    | cons c rest =>
      rw [startsWith_cons]
      by_cases hc : inClass c = true
      · rw [if_pos hc, List.dropWhile_cons_of_pos hc]
        exact (advance h).andThen fun last hlast => ih (Nat.lt_of_succ_lt_succ hturns) hlast
      · rw [if_neg hc, List.dropWhile_cons_of_neg hc]
        exact .pure h ()

theorem run (inClass : UInt8 → Bool) (hlimit : s.length < limit) (h : Stands s rest cursor) :
    Follows s (Walk.advanceWhile s (Cursor.sees s inClass) limit) cursor
      (.ok ((), rest.dropWhile inClass)) :=
  .advanceWhile (fun _ _ h => h.sees_eq) (h.length_lt hlimit) h

theorem skipBlanks (hlimit : s.length < limit) (h : Stands s rest cursor) :
    Follows s (Walk.skipBlanks s limit) cursor (.ok ((), rest.dropWhile isBlank)) :=
  run isBlank hlimit h

theorem skipLine (hlimit : s.length < limit) (h : Stands s rest cursor) :
    Follows s (Walk.skipLine s limit) cursor (.ok ((), EvmAssembly.skipLine rest)) := by
  refine (skipBlanks hlimit h).andThen fun last hlast => .get ?_
  simp only [ne_eq, hlast.peek_iff (c := '#'.toUInt8) (by decide), ite_not, EvmAssembly.skipLine]
  split
  · exact run (· ≠ newline) hlimit hlast
  · exact .pure hlast ()

theorem name (hlimit : s.length < limit) (h : Stands s rest cursor) :
    Follows s (Walk.name s limit) cursor
      (.ok (rest.takeWhile isNameChar, rest.dropWhile isNameChar)) := by
  refine .get ((run isNameChar hlimit h).andThen fun last hlast => ?_)
  rw [← List.takeWhile_append_dropWhile (p := isNameChar) (l := rest)] at h
  exact .slice h hlast

end Follows

end EvmAssembly
