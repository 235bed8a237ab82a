import EvmAssembly.Proofs.CursorSteps
import EvmAssembly.Proofs.SignatureDescent

/-!
# Words under a cursor

Numbers, signatures, operands and arguments: each walk follows the reading of the same word. Lists
of parameters contain types and types contain lists; what the walk through a list does is shown by
induction on the turns it has left, and every turn and every call on the way is shown to get on.
-/

namespace EvmAssembly

variable {α β γ : Type} {s rest text body : Bytes} {cursor first : Cursor} {limit : Nat}

/-- What a reading shows of a piece that begins at a place. -/
def shownAt (shows : γ → Location → β) (place : Location) (read : γ × Bytes) : β × Bytes :=
  (shows read.1 place, read.2)

/-- In a sequence that begins with a piece, what is shown of the piece goes on. -/
theorem Follows.piece {walk : Walk β} {next : β → Walk α} {reading : Scan (γ × Bytes)}
    {shows : γ → Location → β} {place : Location} {later : γ × Bytes → Scan (α × Bytes)}
    (h : Follows s walk cursor (reading.map (shownAt shows place)))
    (hnext : ∀ piece rest last, reading = .ok (piece, rest) → Stands s rest last →
      Follows s (next (shows piece place)) last (later (piece, rest))) :
    Follows s (walk >>= next) cursor (reading >>= later) :=
  h.bind fun read last => hnext read.1 read.2 last

theorem scan_map_bind {step : Scan α} {next : α → Scan β} (f : β → γ) :
    (step >>= next).map f = step >>= fun a => (next a).map f := by
  cases step <;> rfl

theorem scan_map_eq_bind {step : Scan α} (f : α → γ) :
    step.map f = step >>= fun a => .ok (f a) := by
  cases step <;> rfl

/-- Reads the digits of a number behind its mark. -/
def scanDigits (base : Base) (body : Bytes) : Scan (Number × Bytes) :=
  let digits := body.takeWhile base.accepts
  let rest := body.dropWhile base.accepts
  if digits = [] then fail (.expected (.digits base)) rest
  else if startsWith isNameChar rest then fail (.strayCharacter base) rest
  else .ok (⟨base, digits⟩, rest)

theorem scanDigits_ok {base : Base} {number : Number}
    (h : scanDigits base body = .ok (number, rest)) :
    number = ⟨base, body.takeWhile base.accepts⟩ := by
  simp only [scanDigits] at h
  split at h
  · cases h
  · split at h
    · cases h
    · cases h
      rfl

theorem scanNumber_hex (h : Base.ofText s = .hex) :
    scanNumber s = scanDigits .hex (s.drop 2) >>= fun read =>
      if read.1.digits.length % 2 ≠ 0 then fail (.oddDigits read.1.digits) s else .ok read := by
  have hmark : Base.hex.mark.length = 2 := rfl
  simp only [scanNumber, h, scanDigits, hmark]
  split
  · rfl
  · split
    · rfl
    · simp [bind, Except.bind]

theorem scanNumber_of_ne_hex (h : Base.ofText s ≠ .hex) :
    scanNumber s = scanDigits (Base.ofText s) (s.drop (Base.ofText s).mark.length) := by
  simp [scanNumber, scanDigits, h]

theorem Stands.peek_pair {x y : UInt8} (h : Stands s rest cursor) (hx : x ≠ 0) (hy : y ≠ 0) :
    cursor.peek s 0 = x ∧ cursor.peek s 1 = y ↔ [x, y].isPrefixOf rest = true := by
  rw [h.peek_eq, h.peek_eq]
  match rest with
  | [] => simp [hx.symm]
  | [c] => simp [List.isPrefixOf, hy.symm]
  | c :: d :: rest => simp [List.isPrefixOf, @eq_comm _ c, @eq_comm _ d]

namespace Follows

theorem digits {base : Base} (hlimit : s.length < limit)
    (hfirst : Stands s (base.mark ++ body) first) (h : Stands s body cursor) :
    Follows s (Walk.digits s limit base first) cursor
      ((scanDigits base body).map (shownAt Number.tree first.place)) := by
  have hbody := List.takeWhile_append_dropWhile (p := base.accepts) (l := body)
  refine .get ((run base.accepts hlimit h).andThen fun last hlast => .get ?_)
  have hstart := hbody ▸ h
  simp only [hstart.position_eq_iff hlast, hlast.peek_class isNameChar (by decide), scanDigits]
  split
  · exact .fault hlast
  · split
    · exact .fault hlast
    · rw [← hbody, ← List.append_assoc] at hfirst
      exact (slice hfirst hlast).andThen fun last' hlast' => .pure hlast' _

theorem marked {base : Base} {x y : UInt8} (hlimit : s.length < limit)
    (hmark : base.mark = [x, y]) (h : Stands s (base.mark ++ body) first) :
    Follows s (Walk.marked s limit base first) first
      ((scanDigits base body).map (shownAt Number.tree first.place)) := by
  have hfirst := h
  rw [hmark] at h
  exact (advance h).andThen fun last hlast => (advance hlast).andThen fun last' hlast' =>
    digits hlimit hfirst hlast'

theorem number (hlimit : s.length < limit) (h : Stands s rest cursor) :
    Follows s (Walk.number s limit) cursor
      ((scanNumber rest).map (shownAt Number.tree cursor.place)) := by
  have hmark := Base.mark_ofText rest
  have hfirst := h
  rw [hmark] at hfirst
  refine .get ?_
  simp only [h.peek_pair (x := '0'.toUInt8) (y := 'x'.toUInt8) (by decide) (by decide),
    h.peek_pair (x := '0'.toUInt8) (y := 'o'.toUInt8) (by decide) (by decide),
    h.peek_pair (x := '0'.toUInt8) (y := 'b'.toUInt8) (by decide) (by decide)]
  by_cases hx : ['0'.toUInt8, 'x'.toUInt8].isPrefixOf rest = true
  · have hbase : Base.ofText rest = .hex := if_pos hx
    rw [hbase] at hfirst
    rw [if_pos hx, scanNumber_hex hbase, scan_map_bind]
    refine (marked hlimit rfl hfirst).piece fun number tail last hread hlast => ?_
    obtain rfl := scanDigits_ok hread
    have hsize (digits : Bytes) : (Base.hex.mark ++ digits).length - 2 = digits.length := by
      rw [List.length_append]
      exact Nat.add_sub_cancel_left ..
    simp only [Number.tree, Tree.leaf, Number.text, hsize]
    split
    · exact .faultAt h hlast rfl
    · exact .pure hlast _
  · rw [if_neg hx]
    by_cases ho : ['0'.toUInt8, 'o'.toUInt8].isPrefixOf rest = true
    · have hbase : Base.ofText rest = .octal := (if_neg hx).trans (if_pos ho)
      rw [hbase] at hfirst
      rw [if_pos ho, scanNumber_of_ne_hex (by simp [hbase]), hbase]
      exact marked hlimit rfl hfirst
    · rw [if_neg ho]
      by_cases hb : ['0'.toUInt8, 'b'.toUInt8].isPrefixOf rest = true
      · have hbase : Base.ofText rest = .binary :=
          (if_neg hx).trans ((if_neg ho).trans (if_pos hb))
        rw [hbase] at hfirst
        rw [if_pos hb, scanNumber_of_ne_hex (by simp [hbase]), hbase]
        exact marked hlimit rfl hfirst
      · have hbase : Base.ofText rest = .decimal :=
          (if_neg hx).trans ((if_neg ho).trans (if_neg hb))
        rw [hbase] at hfirst
        rw [if_neg hb, scanNumber_of_ne_hex (by simp [hbase]), hbase]
        exact digits hlimit hfirst h

end Follows

theorem scanSuffixes_eq (s : Bytes) : scanSuffixes s =
    if startsWith (· = '['.toUInt8) s then scanSize (s.drop 1) >>= scanSuffixes else .ok s := by
  rw [scanSuffixes]
  split
  · cases hread : scanSize (s.drop 1) <;> simp [bind, Except.bind]
  · rfl

/-- A signature is a name and a list. -/
theorem scanSignature_eq (s : Bytes) : scanSignature s =
    if startsWith isNameStart s then
      scanList (s.dropWhile isNameChar) >>= fun rest => .ok (consumed s rest, rest)
    else fail (.expected .functionName) s := by
  unfold scanSignature
  split
  · exact (bind_assoc ..).symm
  · rfl

namespace Follows

/-- A turn is noted where less of the source is left than before it. -/
theorem noteTurn {loop : Loop} {last : Bool} {before : Bytes} (hfirst : Stands s before first)
    (h : Stands s rest cursor) (hlt : rest.length < before.length) :
    Follows s (Walk.note loop first.position last) cursor (.ok ((), rest)) :=
  .note h (.inl (hfirst.position_lt h hlt))

theorem andNote {walk : Walk Unit} {reading : Scan Bytes} {loop : Loop} {last : Bool}
    {before : Bytes} (h : Follows s walk cursor (reading.map (Prod.mk ())))
    (hfirst : Stands s before first)
    (hlt : ∀ rest, reading = .ok rest → rest.length < before.length) :
    Follows s (walk >>= fun _ => Walk.note loop first.position last) cursor
      (reading.map (Prod.mk ())) := by
  rw [scan_map_eq_bind]
  exact h.seq fun tail _ hread hending => noteTurn hfirst hending (hlt tail hread)

theorem suffixes {turns : Nat} (hlimit : s.length < limit) (hturns : rest.length < turns)
    (h : Stands s rest cursor) :
    Follows s (Walk.suffixes s limit turns) cursor ((scanSuffixes rest).map (Prod.mk ())) := by
  induction turns generalizing rest cursor with
  | zero => exact absurd hturns (Nat.not_lt_zero _)
  | succ turns ih =>
    rw [scanSuffixes_eq]
    refine .get ?_
    simp only [h.peek_iff (c := '['.toUInt8) (by decide)]
    split
    · rename_i hbracket
      have hrest := h
      rw [drop_one_of_startsWith hbracket] at hrest
      rw [scan_map_bind]
      refine (advance hrest).andThen fun behind hbehind => ?_
      -- The test of this loop looks for no end, but NUL is no digit.
      have hdigits : Follows s (Walk.advanceWhile s
          (fun cursor => isDecimalDigit (cursor.peek s 0)) limit) behind
          (.ok ((), (rest.drop 1).dropWhile isDecimalDigit)) :=
        advanceWhile (fun _ _ h => h.peek_class isDecimalDigit (by decide))
          (hbehind.length_lt hlimit) hbehind
      refine hdigits.andThen fun last hlast => ?_
      refine (expect hlast).seq fun tail closed hread hclosed => ?_
      have hlt : tail.length < rest.length := by
        have hsize := scanSize_length_lt hread
        rw [List.length_drop] at hsize
        omega
      exact (noteTurn h hclosed hlt).andThen fun noted hnoted => ih (by omega) hnoted
    · exact .pure h ()

end Follows

/-- A walk goes through all lists shorter than a bound, from behind their opening parenthesis on. -/
def FollowsLists (s : Bytes) (inner : Walk Unit) (bound : Nat) : Prop :=
  ∀ body cursor, body.length < bound → Stands s body cursor →
    Follows s inner cursor ((scanParameters .next 0 body).map (Prod.mk ()))

namespace Follows

theorem parameterList {inner : Walk Unit} (hinner : FollowsLists s inner rest.length)
    (h : Stands s rest cursor) :
    Follows s (Walk.parameterList s inner) cursor ((scanList rest).map (Prod.mk ())) := by
  rw [scanList, scan_map_bind]
  refine .get ((expect h).seq fun body behind hread hbehind => .get ?_)
  have hlt := readByte_length_lt hread
  simp only [hbehind.peek_iff (c := ')'.toUInt8) (by decide)]
  split
  · rename_i hclose
    have hbody := drop_one_of_startsWith hclose
    rw [hbody] at hbehind
    rw [hbody, scan_close 0 _ (by decide)]
    refine (advance hbehind).andThen fun last hlast => noteTurn h hlast ?_
    rw [hbody, List.length_cons] at hlt
    omega
  · rename_i hclose
    rw [scan_opened (Bool.eq_false_iff.mpr hclose)]
    exact (hinner body behind hlt hbehind).andNote h fun tail hread' =>
      Nat.lt_trans (scanParameters_length_lt hread') hlt

theorem parameterType {inner : Walk Unit} (hlimit : s.length < limit)
    (hinner : FollowsLists s inner rest.length) (h : Stands s rest cursor) :
    Follows s (Walk.parameterType s limit inner) cursor ((scanType rest).map (Prod.mk ())) := by
  rw [scanType, scan_map_bind]
  refine .get ?_
  simp only [h.peek_iff (c := '('.toUInt8) (by decide), h.peek_class isNameStart (by decide),
    scanElement]
  have hsuffixes : ∀ behind last, behind.length < rest.length → Stands s behind last →
      Follows s (Walk.suffixes s limit limit >>= fun _ =>
        Walk.note .parameterType cursor.position true) last
        ((scanSuffixes behind).map (Prod.mk ())) := by
    intro behind last hlt hlast
    exact (suffixes hlimit (hlast.length_lt hlimit) hlast).andNote h fun tail hread =>
      Nat.lt_of_le_of_lt (scanSuffixes_length_le hread) hlt
  split
  · rename_i hopen
    have hlist : scanList rest = scanParameters .opened 0 (rest.drop 1) := by
      conv => lhs; rw [drop_one_of_startsWith hopen]
      rfl
    rw [← hlist]
    exact (parameterList hinner h).seq fun behind last hread hlast =>
      hsuffixes behind last (scanList_length_lt hread) hlast
  · split
    · rename_i hstart
      exact (name hlimit h).andThen fun last hlast =>
        hsuffixes _ last (length_dropWhile_isNameChar_lt hstart) hlast
    · exact .fault h

theorem parameters {turns : Nat} (hlimit : s.length < limit) (hturns : rest.length < turns)
    (h : Stands s rest cursor) : Follows s (Walk.parameters s limit turns) cursor
      ((scanParameters .next 0 rest).map (Prod.mk ())) := by
  induction turns generalizing rest cursor with
  | zero => exact absurd hturns (Nat.not_lt_zero _)
  | succ turns ih =>
    -- A list within this one is shorter, and so is what stands behind a comma.
    have hinner : FollowsLists s (Walk.parameters s limit turns) rest.length := by
      intro body cursor hlt hbody
      exact ih (by omega) hbody
    rw [scan_type, scan_map_bind]
    refine .get ((parameterType hlimit hinner h).seq fun behind last hread hlast => .get ?_)
    have hlt : (behind.drop 1).length < rest.length := by
      have htype := scanType_length_lt hread
      rw [List.length_drop]
      omega
    rw [scan_complete (startsWith_of_scanType hread)]
    simp only [hlast.peek_iff (c := ','.toUInt8) (by decide),
      hlast.peek_iff (c := ')'.toUInt8) (by decide)]
    split
    · rename_i hcomma
      rw [drop_one_of_startsWith hcomma] at hlast
      refine (advance hlast).andThen fun next hnext => ?_
      exact (noteTurn h hnext hlt).andThen fun noted hnoted => hinner _ noted hlt hnoted
    · split
      · rename_i hclose
        rw [drop_one_of_startsWith hclose] at hlast
        exact (advance hlast).andThen fun next hnext => noteTurn h hnext hlt
      · exact .fault hlast

theorem signature (hlimit : s.length < limit) (h : Stands s rest cursor) :
    Follows s (Walk.signature s limit) cursor
      ((scanSignature rest).map (shownAt (Tree.leaf .signature) cursor.place)) := by
  rw [scanSignature_eq]
  refine .get ?_
  simp only [h.peek_class isNameStart (by decide)]
  split
  · refine (name hlimit h).andThen fun behind hbehind => ?_
    rw [scan_map_bind]
    have hinner : FollowsLists s (Walk.parameters s limit limit)
        (rest.dropWhile isNameChar).length :=
      fun _ _ _ hbody => parameters hlimit (hbody.length_lt hlimit) hbody
    refine (parameterList hinner hbehind).seq fun tail last hread hlast => ?_
    obtain ⟨text, htext⟩ := scanList_suffix hread
    have hrest : rest = (rest.takeWhile isNameChar ++ text) ++ tail := by
      rw [List.append_assoc, ← htext, List.takeWhile_append_dropWhile]
    have hconsumed := consumed_append (rest.takeWhile isNameChar ++ text) tail
    rw [← hrest] at hconsumed
    rw [hrest] at h
    rw [hconsumed]
    exact (slice h hlast).andThen fun ending hending => .pure hending _
  · exact .fault h

theorem selector (hlimit : s.length < limit)
    (hfirst : Stands s (Operand.selectorWord ++ rest) first) (h : Stands s rest cursor) :
    Follows s (Walk.selector s limit first) cursor
      ((scanSelector rest).map (shownAt Operand.tree first.place)) := by
  simp only [scanSelector, scan_map_bind]
  refine (expect h).seq fun opened _ hopen hopened => ?_
  refine (expect hopened).seq fun body quoted hquote hquoted => ?_
  refine (signature hlimit hquoted).piece fun text tail behind hread hbehind => ?_
  refine (expect hbehind).seq fun unquoted _ hunquote hunquoted => ?_
  refine (expect hunquoted).seq fun closed last hclose hclosed => ?_
  have hbody : Stands s (Operand.selectorOpening ++ body) first := by
    rw [readByte_eq_ok.mp hopen, readByte_eq_ok.mp hquote] at hfirst
    simpa [Operand.selectorOpening] using hfirst
  have hwhole : Stands s ((Operand.selector text).text ++ closed) first := by
    rw [scanSignature_text hread, readByte_eq_ok.mp hunquote, readByte_eq_ok.mp hclose] at hbody
    simpa [Operand.text] using hbody
  refine (slice hwhole hclosed).andThen fun ending hending => ?_
  rw [hbody.place_after hquoted]
  exact .pure hending _

theorem operand (hlimit : s.length < limit) (h : Stands s rest cursor) :
    Follows s (Walk.operand s limit) cursor
      ((scanOperand rest).map (shownAt Operand.tree cursor.place)) := by
  refine .get ?_
  simp only [h.peek_class isDecimalDigit (by decide),
    h.peek_class isNameStart (by decide), scanOperand]
  split
  · have hnumber := number hlimit h
    generalize scanNumber rest = reading at hnumber ⊢
    cases reading <;> exact hnumber
  · split
    · have hword := h
      rw [← List.takeWhile_append_dropWhile (p := isNameChar) (l := rest)] at hword
      refine (name hlimit h).andThen fun behind hbehind => .get ?_
      simp only [hbehind.peek_iff (c := '('.toUInt8) (by decide)]
      split
      · rename_i hselector
        rw [hselector.1] at hword
        exact selector hlimit hword hbehind
      · exact .pure hbehind _
    · exact .fault h

theorem string (hlimit : s.length < limit) (h : Stands s rest cursor)
    (hquote : startsWith (· = '"'.toUInt8) rest = true) : Follows s (Walk.string s limit) cursor
      ((scanString rest).map (shownAt Actual.tree cursor.place)) := by
  have hopen := h
  rw [drop_one_of_startsWith hquote] at hopen
  refine .get ((advance hopen).andThen fun inner hinner => .get ?_)
  refine (run inString hlimit hinner).andThen fun behind hbehind => .get ?_
  simp only [ne_eq, hbehind.peek_iff (c := '"'.toUInt8) (by decide), ite_not, scanString]
  split
  · rename_i hclose
    rw [← List.takeWhile_append_dropWhile (p := inString) (l := rest.drop 1)] at hinner
    refine (slice hinner hbehind).andThen fun sliced hsliced => ?_
    rw [drop_one_of_startsWith hclose] at hsliced
    exact (advance hsliced).andThen fun last hlast => .pure hlast _
  · exact .faultAt h hbehind rfl

theorem argument (hlimit : s.length < limit) (h : Stands s rest cursor) :
    Follows s (Walk.argument s limit) cursor
      ((scanActual rest).map (shownAt Actual.tree cursor.place)) := by
  refine .get ?_
  simp only [h.peek_iff (c := '"'.toUInt8) (by decide),
    h.peek_class isDecimalDigit (by decide),
    h.peek_class isNameStart (by decide), scanActual]
  split
  · rename_i hquote
    exact string hlimit h hquote
  · split
    · have hnumber := number hlimit h
      generalize scanNumber rest = reading at hnumber ⊢
      cases reading <;> exact hnumber
    · split
      · exact (name hlimit h).andThen fun last hlast => .pure hlast _
      · exact .fault h

end Follows

end EvmAssembly
