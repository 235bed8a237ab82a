import EvmAssembly.Proofs.WordGrammar

/-!
# Where the reading of a word stops

A reader looks one byte ahead of what it has read, and it takes the end of the text for a newline.
So the text up to a fault and the byte that stands there decide the fault, whatever follows. What
was read up to there is the beginning of a well-formed word.
-/

namespace EvmAssembly

variable {α β : Type} {s rest other : Bytes} {fault : LexicalFault}

/-- The byte that a text begins with; the end of the text counts as a newline. -/
def nextByte (s : Bytes) : UInt8 := s.headD newline

@[simp] theorem nextByte_nil : nextByte [] = newline := rfl

@[simp] theorem nextByte_cons (c : UInt8) (s : Bytes) : nextByte (c :: s) = c := rfl

theorem startsWith_eq_nextByte {inClass : UInt8 → Bool} (h : inClass newline = false) (s : Bytes) :
    startsWith inClass s = inClass (nextByte s) := by
  cases s with
  | nil => exact h.symm
  | cons c s => rfl

theorem startsWith_congr {inClass : UInt8 → Bool} (h : inClass newline = false)
    (hn : nextByte other = nextByte rest) : startsWith inClass other = startsWith inClass rest := by
  rw [startsWith_eq_nextByte h, startsWith_eq_nextByte h, hn]

theorem nextByte_append (hn : nextByte other = nextByte rest) (lead : Bytes) :
    nextByte (lead ++ other) = nextByte (lead ++ rest) := by
  cases lead with
  | nil => exact hn
  | cons c lead => rfl

/-- A byte other than a newline stands in the text itself. -/
theorem eq_cons_of_nextByte {c : UInt8} (hc : c ≠ newline) (h : nextByte s = c) :
    ∃ tail, s = c :: tail := by
  cases s with
  | nil => exact absurd h.symm hc
  | cons d tail => exact ⟨tail, congrArg (· :: tail) h⟩

/-- The text is the beginning of a well-formed piece. -/
def Begins (valid : α → Prop) (text : α → Bytes) (read : Bytes) : Prop :=
  ∃ piece tail, valid piece ∧ text piece = read ++ tail

/-- How a reader stops: what stands before the fault can be gone on with, and the fault is decided
by that, by the offending word and by the byte behind it. A fault that is not reported at the
beginning of a word has none. -/
inductive Stops (reader : Bytes → Scan α) (viable : Bytes → Prop) :
    Bytes → LexicalFault → Prop where
  | intro {read word rest : Bytes} {cause : LexicalCause} (goesOn : viable read)
      (inPlace : cause.atWordStart = false → word = [])
      (decided : ∀ other, nextByte other = nextByte rest →
        reader (read ++ (word ++ other)) = .error ⟨cause, word ++ other⟩) :
      Stops reader viable (read ++ (word ++ rest)) ⟨cause, word ++ rest⟩

theorem Stops.here {reader : Bytes → Scan α} {viable : Bytes → Prop} {read : Bytes}
    {cause : LexicalCause} (goesOn : viable read)
    (decided : ∀ other, nextByte other = nextByte rest →
      reader (read ++ other) = .error ⟨cause, other⟩) :
    Stops reader viable (read ++ rest) ⟨cause, rest⟩ :=
  .intro goesOn (fun _ => rfl) decided

/-- The fault of a whole word points to where the word begins. -/
theorem Stops.atWord {reader : Bytes → Scan α} {viable : Bytes → Prop} {word : Bytes}
    {cause : LexicalCause} (hcause : cause.atWordStart = true) (goesOn : viable [])
    (decided : ∀ other, nextByte other = nextByte rest →
      reader (word ++ other) = .error ⟨cause, word ++ other⟩) :
    Stops reader viable (word ++ rest) ⟨cause, word ++ rest⟩ := by
  refine @Stops.intro _ _ _ [] word rest cause goesOn (fun hplace => ?_) decided
  rw [hcause] at hplace
  cases hplace

/-- A reader that goes over to another one behind a text stops where the other one does. -/
theorem Stops.behind {reader : Bytes → Scan α} {inner : Bytes → Scan β}
    {viable within : Bytes → Prop} {lead : Bytes} (h : Stops inner within s fault)
    (hv : ∀ read, within read → viable (lead ++ read))
    (hr : ∀ read other fault, within read → nextByte (read ++ other) = nextByte s →
      inner (read ++ other) = .error fault → reader (lead ++ (read ++ other)) = .error fault) :
    Stops reader viable (lead ++ s) fault := by
  obtain @⟨read, word, rest, cause, hgoes, hplace, hdecided⟩ := h
  rw [← List.append_assoc]
  refine .intro (hv read hgoes) hplace fun other hn => ?_
  rw [List.append_assoc]
  exact hr _ _ _ hgoes (nextByte_append (nextByte_append hn word) read) (hdecided other hn)

theorem Stops.lift {reader : Bytes → Scan α} {inner : Bytes → Scan β}
    {viable within : Bytes → Prop} (lead : Bytes) (h : Stops inner within s fault)
    (hv : ∀ read, within read → viable (lead ++ read))
    (hr : ∀ other fault, nextByte other = nextByte s → inner other = .error fault →
      reader (lead ++ other) = .error fault) : Stops reader viable (lead ++ s) fault :=
  h.behind hv fun _ _ _ _ hn herror => hr _ _ hn herror

/-- A sequence of two steps fails where the first one does, or else where the second one does. -/
theorem scan_bind_eq_error {step : Scan α} {next : α → Scan β} :
    (step >>= next) = .error fault ↔
      step = .error fault ∨ ∃ a, step = .ok a ∧ next a = .error fault := by
  cases step with
  | error e => simp [bind, Except.bind]
  | ok a => simp [bind, Except.bind]

theorem readByte_eq_error {delimiter : UInt8} {what : Expectation} (hd : delimiter ≠ newline) :
    readByte delimiter what s = .error fault ↔
      nextByte s ≠ delimiter ∧ fault = ⟨.expected what, s⟩ := by
  cases s with
  | nil => simp [readByte, fail, hd.symm, eq_comm]
  | cons c s => by_cases h : c = delimiter <;> simp [readByte, fail, h, eq_comm]

/-- A delimiter that is missed is missed at every text with the same next byte. -/
theorem readByte_error_congr {delimiter : UInt8} {what : Expectation} (hd : delimiter ≠ newline)
    (hn : nextByte other = nextByte rest) (h : readByte delimiter what rest = .error fault) :
    readByte delimiter what other = .error ⟨.expected what, other⟩ := by
  rw [readByte_eq_error hd] at h ⊢
  exact ⟨hn ▸ h.1, rfl⟩

/-- A reader that demands a delimiter stops there or behind it. -/
theorem Stops.readByte {delimiter : UInt8} {what : Expectation} {next : Bytes → Scan α}
    {viable : Bytes → Prop} (hd : delimiter ≠ newline) (hv : viable [])
    (h : (EvmAssembly.readByte delimiter what s >>= next) = .error fault)
    (hnext : ∀ rest, next rest = .error fault →
      Stops next (fun read => viable (delimiter :: read)) rest fault) :
    Stops (fun s => EvmAssembly.readByte delimiter what s >>= next) viable s fault := by
  rcases scan_bind_eq_error.mp h with hmissed | ⟨rest, hread, hrest⟩
  · obtain ⟨-, rfl⟩ := (readByte_eq_error hd).mp hmissed
    refine Stops.here hv fun other hn => ?_
    exact scan_bind_eq_error.mpr (.inl (readByte_error_congr hd hn hmissed))
  · obtain rfl := readByte_eq_ok.mp hread
    refine (hnext rest hrest).lift [delimiter] (fun _ hread => hread) ?_
    intro other fault _ herror
    exact scan_bind_eq_error.mpr (.inr ⟨other, readByte_eq_ok.mpr rfl, herror⟩)

/-- Two readers in a row stop where the first one does, or else where the second one does. -/
theorem Stops.bind {step : Bytes → Scan (β × Bytes)} {next : β × Bytes → Scan α}
    {within viable : Bytes → Prop} (text : β → Bytes) (h : (step s >>= next) = .error fault)
    (hstep : step s = .error fault → Stops step within s fault)
    (hv : ∀ read, within read → viable read)
    (hread : ∀ b rest, step s = .ok (b, rest) → s = text b ++ rest ∧
      ∀ other, nextByte other = nextByte rest → step (text b ++ other) = .ok (b, other))
    (hnext : ∀ b rest, step s = .ok (b, rest) → next (b, rest) = .error fault →
      Stops (fun rest => next (b, rest)) (fun read => viable (text b ++ read)) rest fault) :
    Stops (fun s => step s >>= next) viable s fault := by
  rcases scan_bind_eq_error.mp h with hfirst | ⟨⟨b, rest⟩, hfirst, hsecond⟩
  · refine (hstep hfirst).lift [] hv fun other fault _ herror => ?_
    exact scan_bind_eq_error.mpr (.inl herror)
  · obtain ⟨hs, hresumes⟩ := hread b rest hfirst
    rw [hs]
    refine (hnext b rest hfirst hsecond).lift (text b) (fun _ hgoes => hgoes) ?_
    intro other fault hn herror
    exact scan_bind_eq_error.mpr (.inr ⟨_, hresumes other hn, herror⟩)

theorem exists_name (h : startsWith isNameStart s = true) :
    ∃ name rest, s = name ++ rest ∧ IsName name ∧ startsWith isNameChar rest = false :=
  ⟨s.takeWhile isNameChar, s.dropWhile isNameChar, List.takeWhile_append_dropWhile.symm,
    isName_takeWhile h, startsWith_dropWhile isNameChar s⟩

namespace ParameterState

/-- From the state, the text leads to where all open lists can be closed. -/
def CanClose (state : ParameterState) (depth : Nat) (read : Bytes) : Prop :=
  ∃ tail, ∀ rest, scanParameters state depth (read ++ (tail ++ rest)) = .ok rest

private theorem afterList_closing (depth : Nat) (rest : Bytes) :
    afterList depth (List.replicate depth ')'.toUInt8 ++ rest) = .ok rest := by
  induction depth with
  | zero => rfl
  | succ depth ih =>
    rw [List.replicate_succ, List.cons_append, afterList,
      scan_close depth _ (by decide : step .complete ')'.toUInt8 = some .close), ih]

private theorem canClose_of_step {state : ParameterState} (depth : Nat)
    (h : state.step ')'.toUInt8 = some .close) : state.CanClose depth [] := by
  refine ⟨')'.toUInt8 :: List.replicate depth ')'.toUInt8, fun rest => ?_⟩
  exact (scan_close depth _ h).trans (afterList_closing depth rest)

/-- A byte that leads to another state leaves the lists as they can be closed from there. -/
theorem CanClose.step {state target : ParameterState} {depth inner : Nat} {read : Bytes} {c : UInt8}
    (hstep : ∀ s, scanParameters state depth (c :: s) = scanParameters target inner s)
    (h : target.CanClose inner read) : state.CanClose depth (c :: read) := by
  obtain ⟨tail, htail⟩ := h
  exact ⟨tail, fun rest => (hstep _).trans (htail rest)⟩

/-- Lists can be closed in every state: behind a comma once there is another type, within brackets
behind the bracket. -/
theorem canClose_nil (state : ParameterState) (depth : Nat) : state.CanClose depth [] := by
  have hdrop : ∀ {c : UInt8}, state.CanClose depth [c] → state.CanClose depth [] := by
    rintro c ⟨tail, htail⟩
    exact ⟨c :: tail, htail⟩
  cases state with
  | opened => exact canClose_of_step depth (by decide)
  | name => exact canClose_of_step depth (by decide)
  | complete => exact canClose_of_step depth (by decide)
  | next =>
    have hname : ParameterState.CanClose .name depth [] := canClose_of_step depth (by decide)
    have hstep : step .next 'a'.toUInt8 = some (.within .name) := by decide
    exact hdrop (hname.step fun s => scan_within .name depth s hstep)
  | size =>
    have hcomplete : ParameterState.CanClose .complete depth [] :=
      canClose_of_step depth (by decide)
    have hstep : step .size ']'.toUInt8 = some (.within .complete) := by decide
    exact hdrop (hcomplete.step fun s => scan_within .complete depth s hstep)

theorem step_newline (state : ParameterState) : state.step newline = none := by
  cases state <;> decide

end ParameterState

private theorem scanParameters_refused {state : ParameterState} {depth : Nat}
    (h : state.step (nextByte s) = none) :
    scanParameters state depth s = .error ⟨.expected state.expectation, s⟩ := by
  cases s with
  | nil => rfl
  | cons c s =>
    rw [nextByte_cons] at h
    simp only [scanParameters, h]
    rfl

private theorem Stops.parameter {state target : ParameterState} {depth inner : Nat} {c : UInt8}
    (h : Stops (scanParameters target inner) (target.CanClose inner) s fault)
    (hstep : ∀ s, scanParameters state depth (c :: s) = scanParameters target inner s) :
    Stops (scanParameters state depth) (state.CanClose depth) (c :: s) fault :=
  h.lift [c] (fun _ hread => hread.step hstep) fun other _ _ herror => (hstep other).trans herror

theorem scanParameters_stops {state : ParameterState} {depth : Nat}
    (h : scanParameters state depth s = .error fault) :
    Stops (scanParameters state depth) (state.CanClose depth) s fault := by
  have hrefused : ∀ {state : ParameterState} {depth : Nat} {s : Bytes},
      state.step (nextByte s) = none → Stops (scanParameters state depth) (state.CanClose depth) s
        ⟨.expected state.expectation, s⟩ := by
    intro state depth s hstep
    refine Stops.here (state.canClose_nil depth) fun other hn => ?_
    exact scanParameters_refused (hn ▸ hstep)
  induction s generalizing state depth with
  | nil =>
    cases h
    exact hrefused state.step_newline
  | cons c s ih =>
    simp only [scanParameters] at h
    split at h
    · rename_i hstep
      cases h
      exact hrefused hstep
    · rename_i target hstep
      exact (ih h).parameter fun s => scan_within target depth s hstep
    · rename_i hstep
      exact (ih h).parameter fun s => by simp only [scanParameters, hstep]
    · rename_i hstep
      split at h
      · cases h
      · exact (ih h).parameter fun s => by simp only [scanParameters, hstep]

private theorem scanSignature_name {name : Bytes} (hname : IsName name)
    (hr : startsWith isNameChar rest = false) :
    scanSignature (name ++ rest) = (do
      let list ← readByte '('.toUInt8 .parameterList rest
      let last ← scanParameters .opened 0 list
      return (consumed (name ++ rest) last, last)) := by
  rw [scanSignature, if_pos (hname.startsWith_append rest), hname.dropWhile_append hr]

/-- A name and a list that can be closed begin a signature. -/
private theorem begins_signature {name read : Bytes} (hname : IsName name)
    (h : ParameterState.CanClose .opened 0 read) :
    Begins IsSignature id (name ++ ['('.toUInt8] ++ read) := by
  obtain ⟨tail, htail⟩ := h
  have hlist : scanParameters .opened 0 (read ++ tail) = .ok [] := by simpa using htail []
  have hopen : startsWith isNameChar ('('.toUInt8 :: (read ++ tail)) = false := rfl
  have hread := (scanSignature_name hname hopen).trans
    (scan_bind_eq_ok.mpr ⟨_, rfl, scan_bind_eq_ok.mpr ⟨_, hlist, rfl⟩⟩)
  obtain ⟨htext, hsignature⟩ := scanSignature_eq_ok_iff.mp hread
  rw [List.append_nil] at htext
  refine ⟨_, tail, hsignature, ?_⟩
  rw [id, ← htext]
  simp

theorem scanSignature_stops (h : scanSignature s = .error fault) :
    Stops scanSignature (Begins IsSignature id) s fault := by
  have hbegins : ∀ name, IsName name → Begins IsSignature id name := by
    intro name hname
    obtain ⟨signature, tail, hvalid, htext⟩ :=
      begins_signature hname (ParameterState.canClose_nil .opened 0)
    exact ⟨signature, '('.toUInt8 :: tail, hvalid, by simpa using htext⟩
  by_cases hstart : startsWith isNameStart s = true
  · obtain ⟨name, after, rfl, hname, hafter⟩ := exists_name hstart
    rw [scanSignature_name hname hafter] at h
    rcases scan_bind_eq_error.mp h with hmissed | ⟨list, hlist, hrest⟩
    · obtain ⟨-, rfl⟩ := (readByte_eq_error (by decide)).mp hmissed
      refine Stops.here (hbegins name hname) fun other hn => ?_
      rw [scanSignature_name hname ((startsWith_congr (by decide) hn).trans hafter)]
      exact scan_bind_eq_error.mpr (.inl (readByte_error_congr (by decide) hn hmissed))
    · obtain rfl := readByte_eq_ok.mp hlist
      rcases scan_bind_eq_error.mp hrest with hinner | ⟨last, -, hdone⟩
      · rw [List.append_cons]
        refine (scanParameters_stops hinner).lift _ (fun read => begins_signature hname) ?_
        intro other fault _ herror
        rw [← List.append_cons, scanSignature_name hname rfl]
        exact scan_bind_eq_error.mpr (.inr ⟨other, rfl, scan_bind_eq_error.mpr (.inl herror)⟩)
      · cases hdone
  · rw [scanSignature, if_neg hstart] at h
    cases h
    obtain ⟨signature, tail, hvalid, htext⟩ := hbegins ['a'.toUInt8] (by decide)
    have hempty : Begins IsSignature id [] := ⟨signature, 'a'.toUInt8 :: tail, hvalid, htext⟩
    refine Stops.here hempty fun other hn => ?_
    have hother : ¬ startsWith isNameStart other = true := by
      rwa [startsWith_congr (by decide) hn]
    rw [List.nil_append, scanSignature, if_neg hother]
    rfl

private theorem isPrefixOf_pair {x y : UInt8} (hx : x ≠ newline) (hy : y ≠ newline) (s : Bytes) :
    [x, y].isPrefixOf s = (nextByte s == x && nextByte (s.drop 1) == y) := by
  match s with
  | [] => simp [hx.symm]
  | [c] => simp [List.isPrefixOf, hy.symm]
  | c :: d :: s => simp [List.isPrefixOf, Bool.beq_comm]

/-- The base of a number is shown by its first two bytes. -/
private theorem Base.ofText_eq (s : Bytes) : Base.ofText s =
    if nextByte s = '0'.toUInt8 then
      if nextByte (s.drop 1) = 'x'.toUInt8 then hex
      else if nextByte (s.drop 1) = 'o'.toUInt8 then octal
      else if nextByte (s.drop 1) = 'b'.toUInt8 then binary
      else decimal
    else decimal := by
  have hzero : '0'.toUInt8 ≠ newline := by decide
  have hx := isPrefixOf_pair hzero (by decide : 'x'.toUInt8 ≠ newline) s
  have ho := isPrefixOf_pair hzero (by decide : 'o'.toUInt8 ≠ newline) s
  have hb := isPrefixOf_pair hzero (by decide : 'b'.toUInt8 ≠ newline) s
  change (if ['0'.toUInt8, 'x'.toUInt8].isPrefixOf s = true then hex
    else if ['0'.toUInt8, 'o'.toUInt8].isPrefixOf s = true then octal
    else if ['0'.toUInt8, 'b'.toUInt8].isPrefixOf s = true then binary else decimal) = _
  rw [hx, ho, hb]
  by_cases hzero : nextByte s = '0'.toUInt8 <;> simp [hzero]

private theorem Base.ofText_of_not_digit (h : startsWith isDecimalDigit s = false) :
    Base.ofText s = decimal := by
  have hzero : nextByte s ≠ '0'.toUInt8 := by
    intro hzero
    rw [startsWith_eq_nextByte (by decide), hzero] at h
    exact absurd h (by decide)
  rw [Base.ofText_eq, if_neg hzero]

private theorem Base.ofText_congr {read : Bytes} (hread : read ≠ [])
    (hn : nextByte other = nextByte rest) :
    Base.ofText (read ++ other) = Base.ofText (read ++ rest) := by
  obtain ⟨c, tail, rfl⟩ := List.exists_cons_of_ne_nil hread
  simp only [Base.ofText_eq, List.cons_append, nextByte_cons, List.drop_succ_cons, List.drop_zero,
    nextByte_append hn]

/-- What the reader does with the digits that it finds behind the mark of a base. -/
private theorem scanNumber_eq {base : Base} {digits : Bytes}
    (hbase : Base.ofText (base.mark ++ (digits ++ rest)) = base)
    (hdigits : digits.all base.accepts = true) (hrest : startsWith base.accepts rest = false) :
    scanNumber (base.mark ++ (digits ++ rest)) =
      if digits = [] then .error ⟨.expected (.digits base), rest⟩
      else if startsWith isNameChar rest then .error ⟨.strayCharacter base, rest⟩
      else if base = .hex ∧ digits.length % 2 ≠ 0 then
        .error ⟨.oddDigits digits, base.mark ++ (digits ++ rest)⟩
      else .ok (⟨base, digits⟩, rest) := by
  simp only [scanNumber, hbase, List.drop_left, takeWhile_run hdigits hrest,
    dropWhile_run hdigits hrest]
  rfl

private theorem Base.accepts_newline (base : Base) : base.accepts newline = false := by
  cases base <;> decide

/-- The base of a number does not depend on what stands behind the byte that ends its digits. -/
private theorem Base.ofText_mark_congr {base : Base} {digits : Bytes}
    (hbase : Base.ofText (base.mark ++ (digits ++ rest)) = base)
    (hother : startsWith base.accepts other = false) (hn : nextByte other = nextByte rest) :
    Base.ofText (base.mark ++ (digits ++ other)) = base := by
  by_cases hread : base.mark ++ digits = []
  · -- Without a mark and digits the base is decimal and no digit comes next.
    obtain ⟨hmark, rfl⟩ := List.append_eq_nil_iff.mp hread
    obtain rfl : base = .decimal := by
      cases base with
      | decimal => rfl
      | binary => cases hmark
      | octal => cases hmark
      | hex => cases hmark
    exact Base.ofText_of_not_digit hother
  · rw [← List.append_assoc, Base.ofText_congr hread hn, List.append_assoc, hbase]

/-- The reader does the same wherever the same byte ends the digits. -/
private theorem scanNumber_congr {base : Base} {digits : Bytes}
    (hbase : Base.ofText (base.mark ++ (digits ++ rest)) = base)
    (hdigits : digits.all base.accepts = true) (hrest : startsWith base.accepts rest = false)
    (hn : nextByte other = nextByte rest) :
    scanNumber (base.mark ++ (digits ++ other)) =
      if digits = [] then .error ⟨.expected (.digits base), other⟩
      else if startsWith isNameChar rest then .error ⟨.strayCharacter base, other⟩
      else if base = .hex ∧ digits.length % 2 ≠ 0 then
        .error ⟨.oddDigits digits, base.mark ++ (digits ++ other)⟩
      else .ok (⟨base, digits⟩, other) := by
  have hother := (startsWith_congr base.accepts_newline hn).trans hrest
  rw [scanNumber_eq (Base.ofText_mark_congr hbase hother hn) hdigits hother,
    startsWith_congr (by decide) hn]

/-- The digits of a number can be made even in number, so they begin one in any case. -/
private theorem begins_number {base : Base} {digits : Bytes}
    (hdigits : digits.all base.accepts = true) :
    Begins Number.Valid Number.text (base.mark ++ digits) := by
  have hzero : base.accepts '0'.toUInt8 = true := by cases base <;> decide
  have hvalid : ∀ zeros : Bytes, zeros ≠ [] → zeros.all base.accepts = true →
      (digits ++ zeros).length % 2 = 0 → Begins Number.Valid Number.text (base.mark ++ digits) := by
    intro zeros hne hzeros heven
    refine ⟨⟨base, digits ++ zeros⟩, zeros, ⟨by simp [hne], ?_, fun _ => heven⟩, ?_⟩
    · rw [List.all_append, hdigits, hzeros]
      rfl
    · simp [Number.text]
  rcases Nat.mod_two_eq_zero_or_one digits.length with heven | hodd
  · apply hvalid ['0'.toUInt8, '0'.toUInt8] (by simp) (by simp [hzero])
    simp [heven]
  · apply hvalid ['0'.toUInt8] (by simp) (by simp [hzero])
    rw [List.length_append, List.length_singleton]
    omega

theorem scanNumber_stops (h : scanNumber s = .error fault) :
    Stops scanNumber (Begins Number.Valid Number.text) s fault := by
  obtain ⟨base, digits, rest, rfl, hbase, hdigits, hrest⟩ : ∃ base digits rest,
      s = base.mark ++ (digits ++ rest) ∧ Base.ofText s = base ∧
        digits.all base.accepts = true ∧ startsWith base.accepts rest = false := by
    have hsplit := Base.mark_ofText s
    rw [← List.takeWhile_append_dropWhile (p := (Base.ofText s).accepts)
      (l := s.drop (Base.ofText s).mark.length)] at hsplit
    exact ⟨_, _, _, hsplit, rfl, List.all_takeWhile, startsWith_dropWhile _ _⟩
  have hread := fun other => @scanNumber_congr rest other base digits hbase hdigits hrest
  rw [hread rest rfl] at h
  split at h
  · rename_i hnone
    subst hnone
    cases h
    have hbegins := begins_number hdigits
    rw [List.append_nil] at hbegins
    refine Stops.here hbegins fun other hn => ?_
    exact (hread other hn).trans (if_pos rfl)
  · rename_i hsome
    split at h
    · rename_i hstray
      cases h
      rw [← List.append_assoc]
      refine Stops.here (begins_number hdigits) fun other hn => ?_
      rw [List.append_assoc, hread other hn, if_neg hsome, if_pos hstray]
    · rename_i hstray
      split at h
      · rename_i hodd
        cases h
        have hzero : Begins Number.Valid Number.text [] :=
          ⟨⟨.decimal, "0"⟩, "0", ⟨by decide, by decide, Base.noConfusion⟩, rfl⟩
        rw [← List.append_assoc]
        refine Stops.atWord rfl hzero fun other hn => ?_
        rw [List.append_assoc, hread other hn, if_neg hsome, if_neg hstray, if_pos hodd]
      · cases h

/-- A number is read to where no character of a name follows. -/
theorem scanNumber_ends {number : Number} (h : scanNumber s = .ok (number, rest)) :
    startsWith isNameChar rest = false := by
  simp only [scanNumber] at h
  split at h
  · cases h
  · split at h
    · cases h
    · rename_i hstop
      split at h
      · cases h
      · cases h
        simpa using hstop

/-- What stands behind the word of a selector. -/
private def selectorTail (signature : Bytes) : Bytes :=
  '('.toUInt8 :: '"'.toUInt8 :: (signature ++ ['"'.toUInt8, ')'.toUInt8])

private theorem scanSelector_stops (h : scanSelector s = .error fault) :
    Stops scanSelector (Begins IsSignature selectorTail) s fault := by
  have hsome : IsSignature "f()" := ⟨"f", "()", rfl, by decide, .empty⟩
  refine Stops.readByte (by decide) ⟨"f()", _, hsome, rfl⟩ h fun s₀ h₀ => ?_
  refine Stops.readByte (by decide) ⟨"f()", _, hsome, rfl⟩ h₀ fun s₁ h₁ => ?_
  refine Stops.bind id h₁ scanSignature_stops ?_ ?_ fun signature s₂ hread h₂ => ?_
  · rintro read ⟨signature, tail, hvalid, htext⟩
    refine ⟨signature, tail ++ ['"'.toUInt8, ')'.toUInt8], hvalid, ?_⟩
    rw [id] at htext
    simp [selectorTail, htext]
  · intro signature s₂ hread
    obtain ⟨hs, hvalid⟩ := scanSignature_eq_ok_iff.mp hread
    exact ⟨hs, fun other _ => scanSignature_eq_ok_iff.mpr ⟨rfl, hvalid⟩⟩
  · obtain ⟨-, hvalid⟩ := scanSignature_eq_ok_iff.mp hread
    refine Stops.readByte (by decide) ⟨signature, _, hvalid, by simp [selectorTail]; rfl⟩ h₂
      fun s₃ h₃ => ?_
    refine Stops.readByte (by decide) ⟨signature, _, hvalid, by simp [selectorTail]; rfl⟩ h₃
      fun s₄ h₄ => ?_
    cases h₄

/-- Reading an operand that begins with a name goes by the name and what stands behind it. -/
private theorem scanOperand_name {name : Bytes} (hname : IsName name)
    (hr : startsWith isNameChar rest = false) : scanOperand (name ++ rest) =
      if name = Operand.selectorWord ∧ startsWith (· = '('.toUInt8) rest then scanSelector rest
      else .ok (.label name, rest) := by
  simp only [scanOperand, hname.startsWith_digit, hname.startsWith_append,
    hname.takeWhile_append hr, hname.dropWhile_append hr, if_true]
  rfl

theorem scanOperand_stops (h : scanOperand s = .error fault) :
    Stops scanOperand (Begins Operand.Valid Operand.text) s fault := by
  by_cases hdigit : startsWith isDecimalDigit s = true
  · rw [scanOperand, if_pos hdigit] at h
    rcases scan_bind_eq_error.mp h with h | ⟨number, -, h⟩
    · refine (scanNumber_stops h).lift [] ?_ ?_
      · rintro read ⟨number, tail, hvalid, htext⟩
        exact ⟨.number number, tail, hvalid, htext⟩
      · intro other fault hn herror
        rw [← startsWith_congr (by decide) hn] at hdigit
        rw [List.nil_append, scanOperand, if_pos hdigit]
        exact scan_bind_eq_error.mpr (.inl herror)
    · cases h
  · by_cases hstart : startsWith isNameStart s = true
    · obtain ⟨name, after, rfl, hname, hafter⟩ := exists_name hstart
      rw [scanOperand_name hname hafter] at h
      split at h
      · rename_i hselector
        obtain ⟨rfl, hopen⟩ := hselector
        refine (scanSelector_stops h).lift _ ?_ ?_
        · rintro read ⟨signature, tail, hvalid, htext⟩
          refine ⟨.selector signature, tail, hvalid, ?_⟩
          rw [List.append_assoc, ← htext]
          simp [Operand.text, Operand.selectorOpening, selectorTail]
        · intro other fault hn herror
          rw [← startsWith_congr (by decide) hn] at hafter hopen
          rw [scanOperand_name hname hafter, if_pos ⟨rfl, hopen⟩, herror]
      · cases h
    · rw [scanOperand, if_neg hdigit, if_neg hstart] at h
      cases h
      have hlabel : Begins Operand.Valid Operand.text [] :=
        ⟨.label "a", "a", (by decide : IsName "a"), rfl⟩
      refine Stops.here hlabel fun other hn => ?_
      rw [← startsWith_congr (by decide) hn] at hdigit hstart
      rw [List.nil_append, scanOperand, if_neg hdigit, if_neg hstart]
      rfl

/-- What is read as an operand is decided by its text and the byte behind it. -/
theorem scanOperand_resumes {operand : Operand} (h : scanOperand s = .ok (operand, rest))
    (hn : nextByte other = nextByte rest) :
    scanOperand (operand.text ++ other) = .ok (operand, other) := by
  by_cases hdigit : startsWith isDecimalDigit s = true
  · rw [scanOperand, if_pos hdigit] at h
    obtain ⟨⟨number, after⟩, hread, h⟩ := scan_bind_eq_ok.mp h
    cases h
    have hvalid := scanNumber_valid hread
    have hstop := (startsWith_congr (by decide) hn).trans (scanNumber_ends hread)
    rw [Operand.text, scanOperand, if_pos (hvalid.startsWith_digit other)]
    exact scan_bind_eq_ok.mpr ⟨_, scanNumber_text_append hvalid hstop, rfl⟩
  · by_cases hstart : startsWith isNameStart s = true
    · obtain ⟨name, after, rfl, hname, hafter⟩ := exists_name hstart
      rw [scanOperand_name hname hafter] at h
      split at h
      · obtain ⟨signature, hsignature, rfl, -⟩ := scanSelector_eq_ok_iff.mp h
        exact scanOperand_selector_append hsignature other
      · rename_i hselector
        cases h
        rw [← startsWith_congr (by decide) hn] at hafter hselector
        rw [Operand.text, scanOperand_name hname hafter, if_neg hselector]
    · rw [scanOperand, if_neg hdigit, if_neg hstart] at h
      cases h

private theorem begins_actual : Begins Actual.Valid Actual.text [] :=
  ⟨.label "a", "a", (by decide : IsName "a"), rfl⟩

/-- A string without its second quote is a fault at its first one. It ends where the line does. -/
private theorem scanString_stops (hs : startsWith (· = '"'.toUInt8) s = true)
    (h : scanString s = .error fault) :
    Stops scanString (Begins Actual.Valid Actual.text) s fault := by
  obtain ⟨contents, after, hbody, hcontents, hafter⟩ : ∃ contents after,
      s.drop 1 = contents ++ after ∧ contents.all inString = true ∧
        startsWith inString after = false :=
    ⟨_, _, List.takeWhile_append_dropWhile.symm, List.all_takeWhile, startsWith_dropWhile _ _⟩
  have hread : ∀ rest, startsWith inString rest = false →
      startsWith (· = '"'.toUInt8) rest = false →
      scanString ('"'.toUInt8 :: contents ++ rest) =
        .error ⟨.unterminatedString, '"'.toUInt8 :: contents ++ rest⟩ := by
    intro rest hrest hquote
    have hbody : ('"'.toUInt8 :: contents ++ rest).drop 1 = contents ++ rest := rfl
    simp only [scanString, hbody, dropWhile_run hcontents hrest, hquote]
    rfl
  rw [drop_one_of_startsWith hs, hbody, ← List.cons_append] at h ⊢
  have hquote : startsWith (· = '"'.toUInt8) after = false := by
    rw [← Bool.not_eq_true]
    intro hquote
    rw [drop_one_of_startsWith hquote, List.append_cons] at h
    cases (scanString_text_append hcontents).symm.trans h
  cases (hread after hafter hquote).symm.trans h
  refine Stops.atWord rfl begins_actual fun other hn => ?_
  apply hread
  · exact (startsWith_congr (by decide) hn).trans hafter
  · exact (startsWith_congr (by decide) hn).trans hquote

theorem scanActual_stops (h : scanActual s = .error fault) :
    Stops scanActual (Begins Actual.Valid Actual.text) s fault := by
  by_cases hquote : startsWith (· = '"'.toUInt8) s = true
  · rw [scanActual, if_pos hquote] at h
    refine (scanString_stops hquote h).lift [] (fun _ hread => hread) ?_
    intro other fault hn herror
    rw [← startsWith_congr (by decide) hn] at hquote
    rw [List.nil_append, scanActual, if_pos hquote, herror]
  · by_cases hdigit : startsWith isDecimalDigit s = true
    · rw [scanActual, if_neg hquote, if_pos hdigit] at h
      rcases scan_bind_eq_error.mp h with hnumber | ⟨number, -, hdone⟩
      · refine (scanNumber_stops hnumber).lift [] ?_ ?_
        · rintro read ⟨number, tail, hvalid, htext⟩
          exact ⟨.number number, tail, hvalid, htext⟩
        · intro other fault hn herror
          rw [← startsWith_congr (by decide) hn] at hquote hdigit
          rw [List.nil_append, scanActual, if_neg hquote, if_pos hdigit]
          exact scan_bind_eq_error.mpr (.inl herror)
      · cases hdone
    · by_cases hstart : startsWith isNameStart s = true
      · rw [scanActual, if_neg hquote, if_neg hdigit, if_pos hstart] at h
        cases h
      · rw [scanActual, if_neg hquote, if_neg hdigit, if_neg hstart] at h
        cases h
        refine Stops.here begins_actual fun other hn => ?_
        rw [← startsWith_congr (by decide) hn] at hquote hdigit hstart
        rw [List.nil_append, scanActual, if_neg hquote, if_neg hdigit, if_neg hstart]
        rfl

/-- What is read as an argument is decided by its text and the byte behind it. -/
theorem scanActual_resumes {actual : Actual} (h : scanActual s = .ok (actual, rest))
    (hn : nextByte other = nextByte rest) :
    scanActual (actual.text ++ other) = .ok (actual, other) := by
  have hvalid := scanActual_valid h
  by_cases hquote : startsWith (· = '"'.toUInt8) s = true
  · rw [scanActual, if_pos hquote] at h
    obtain ⟨contents, rfl⟩ : ∃ contents, actual = .string contents := by
      simp only [scanString] at h
      split at h
      · cases h
        exact ⟨_, rfl⟩
      · cases h
    exact scanString_text_append hvalid
  · -- A number or a name ends before the first byte that is no part of a name.
    have hstop : startsWith isNameChar rest = false := by
      rw [scanActual, if_neg hquote] at h
      split at h
      · obtain ⟨⟨number, after⟩, hread, h⟩ := scan_bind_eq_ok.mp h
        cases h
        exact scanNumber_ends hread
      · split at h
        · cases h
          exact startsWith_dropWhile _ _
        · cases h
    exact scanActual_text_append hvalid ((startsWith_congr (by decide) hn).trans hstop)

end EvmAssembly
