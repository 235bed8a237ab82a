import EvmAssembly.Proofs.CharacterRuns

/-!
# The language of function signatures

A signature is a name and a list of parameter types; a type is a name or a list again, and any
number of array brackets may follow it. The reader keeps only a depth where the grammar nests, so
what the lists still open demand of the text is written down as `Closes`.
-/

namespace EvmAssembly

/-- The nonterminal symbols of the grammar. -/
inductive SignatureSymbol where
  | parameters
  | types
  | type

inductive SignatureDerives : SignatureSymbol → Bytes → Prop where
  | empty : SignatureDerives .parameters ['('.toUInt8, ')'.toUInt8]
  | list {types : Bytes} (inner : SignatureDerives .types types) :
      SignatureDerives .parameters ('('.toUInt8 :: types ++ [')'.toUInt8])
  | last {type : Bytes} (only : SignatureDerives .type type) : SignatureDerives .types type
  | more {type types : Bytes} (first : SignatureDerives .type type)
      (others : SignatureDerives .types types) :
      SignatureDerives .types (type ++ ','.toUInt8 :: types)
  | name {name : Bytes} (isName : IsName name) : SignatureDerives .type name
  | tuple {list : Bytes} (inner : SignatureDerives .parameters list) : SignatureDerives .type list
  | array {type size : Bytes} (element : SignatureDerives .type type)
      (digits : size.all isDecimalDigit = true) :
      SignatureDerives .type (type ++ '['.toUInt8 :: size ++ [']'.toUInt8])

def IsSignature (text : Bytes) : Prop :=
  ∃ name list, text = name ++ list ∧ IsName name ∧ SignatureDerives .parameters list

/-- A signature is written with the characters of names and with brackets and commas. -/
def isSignatureChar (c : UInt8) : Bool :=
  isNameChar c || c = '('.toUInt8 || c = ')'.toUInt8 || c = ','.toUInt8 || c = '['.toUInt8 ||
    c = ']'.toUInt8

private theorem isSignatureChar_of_isNameChar {c : UInt8} (h : isNameChar c = true) :
    isSignatureChar c = true := by
  simp [isSignatureChar, h]

private theorem all_isSignatureChar {inClass : UInt8 → Bool} {text : Bytes}
    (h : text.all inClass = true) (hclass : ∀ c, inClass c = true → isNameChar c = true) :
    text.all isSignatureChar = true := by
  rw [List.all_eq_true] at h ⊢
  intro c hc
  exact isSignatureChar_of_isNameChar (hclass c (h c hc))

private theorem SignatureDerives.all_chars {symbol : SignatureSymbol} {text : Bytes}
    (h : SignatureDerives symbol text) : text.all isSignatureChar = true := by
  induction h with
  | empty => decide
  | list _ ih =>
    rw [List.all_append, List.all_cons, ih]
    rfl
  | last _ ih => exact ih
  | more _ _ ihfirst ihothers =>
    rw [List.all_append, List.all_cons, ihfirst, ihothers]
    rfl
  | name hname => exact all_isSignatureChar hname.2 fun _ => id
  | tuple _ ih => exact ih
  | array _ hsize ih =>
    have hdigits := all_isSignatureChar hsize fun _ => isNameChar_of_isDecimalDigit
    rw [List.all_append, List.all_append, List.all_cons, ih, hdigits]
    rfl

theorem IsSignature.all_chars {text : Bytes} (h : IsSignature text) :
    text.all isSignatureChar = true := by
  obtain ⟨name, list, rfl, hname, hlist⟩ := h
  rw [List.all_append, all_isSignatureChar hname.2 fun _ => id, hlist.all_chars]
  rfl

/-- What the reader does behind the closing parenthesis of a list. -/
def afterList (depth : Nat) (rest : Bytes) : Scan Bytes :=
  match depth with
  | 0 => .ok rest
  | depth + 1 => scanParameters .complete depth rest

/-- The states in which a type may begin. -/
def ParameterState.expectsType (state : ParameterState) : Prop := state = .opened ∨ state = .next

theorem scan_deeper {state : ParameterState} (h : state.expectsType) (depth : Nat)
    (s : Bytes) : scanParameters state depth ('('.toUInt8 :: s) =
      scanParameters .opened (depth + 1) s := by
  obtain rfl | rfl := h <;> rfl

theorem scan_close {state : ParameterState} (depth : Nat) (s : Bytes)
    (h : state.step ')'.toUInt8 = some .close) :
    scanParameters state depth (')'.toUInt8 :: s) = afterList depth s := by
  simp only [scanParameters, h]
  cases depth <;> rfl

theorem scan_within {state : ParameterState} {c : UInt8} (target : ParameterState)
    (depth : Nat) (s : Bytes) (h : state.step c = some (.within target)) :
    scanParameters state depth (c :: s) = scanParameters target depth s := by
  simp only [scanParameters, h]

theorem scan_run {state : ParameterState} {run : Bytes} (depth : Nat) (s : Bytes)
    (h : ∀ c ∈ run, state.step c = some (.within state)) :
    scanParameters state depth (run ++ s) = scanParameters state depth s := by
  induction run with
  | nil => rfl
  | cons c run ih =>
    rw [List.cons_append, scan_within state _ _ (h c (by simp))]
    exact ih fun d hd => h d (by simp [hd])

/-- A type ends before an array bracket, a comma or a closing parenthesis. -/
def endsType (s : Bytes) : Bool :=
  startsWith (fun c => c = '['.toUInt8 || c = ','.toUInt8 || c = ')'.toUInt8) s

/-- Where a name ends, it makes no difference whether a name or a bracket was read last. -/
private theorem scan_endsName {s : Bytes} (h : startsWith isNameChar s = false) (depth : Nat) :
    scanParameters .name depth s = scanParameters .complete depth s := by
  cases s with
  | nil => rfl
  | cons c s =>
    have hc : isNameChar c = false := h
    simp [scanParameters, ParameterState.step, ParameterState.expectation, hc]

private theorem startsWith_isNameChar_of_endsType {s : Bytes} (h : endsType s = true) :
    startsWith isNameChar s = false := by
  obtain ⟨c, rest, rfl, hc⟩ := startsWith_eq_true h
  simp only [Bool.or_eq_true, decide_eq_true_eq] at hc
  obtain (rfl | rfl) | rfl := hc <;> rfl

private theorem step_nameStart {state : ParameterState} {c : UInt8} (h : state.expectsType)
    (hc : isNameStart c = true) : state.step c = some (.within .name) := by
  have hopen : c ≠ '('.toUInt8 := by
    rintro rfl
    exact absurd hc (by decide)
  have hclose : c ≠ ')'.toUInt8 := by
    rintro rfl
    exact absurd hc (by decide)
  obtain rfl | rfl := h <;>
    simp [ParameterState.step, ParameterState.beginType, hopen, hclose, hc]

/-- A name read to its end leaves the reader as behind any other complete type. -/
theorem scan_name {state : ParameterState} {name s : Bytes} (hs : state.expectsType)
    (hname : IsName name) (hend : startsWith isNameChar s = false) (depth : Nat) :
    scanParameters state depth (name ++ s) = scanParameters .complete depth s := by
  obtain ⟨c, tail, rfl, hc⟩ := startsWith_eq_true hname.1
  have htail : ∀ b ∈ tail, ParameterState.step .name b = some (.within .name) := by
    intro b hb
    have hchar := List.all_eq_true.mp hname.2 b (by simp [hb])
    simp [ParameterState.step, hchar]
  rw [List.cons_append, scan_within .name _ _ (step_nameStart hs hc), scan_run _ _ htail]
  exact scan_endsName hend depth

/-- What reading a derived text comes to. -/
private def Reads : SignatureSymbol → Bytes → Prop
  | .parameters, text => ∃ body, text = '('.toUInt8 :: body ∧
      ∀ depth rest, scanParameters .opened depth (body ++ rest) = afterList depth rest
  | .types, text => ∀ state, ParameterState.expectsType state → ∀ depth rest,
      scanParameters state depth (text ++ ')'.toUInt8 :: rest) = afterList depth rest
  | .type, text => ∀ state, ParameterState.expectsType state → ∀ depth rest, endsType rest = true →
      scanParameters state depth (text ++ rest) = scanParameters .complete depth rest

private theorem scan_brackets {size : Bytes} (hsize : size.all isDecimalDigit = true)
    (depth : Nat) (rest : Bytes) :
    scanParameters .complete depth ('['.toUInt8 :: size ++ ']'.toUInt8 :: rest) =
      scanParameters .complete depth rest := by
  have hdigits : ∀ c ∈ size, ParameterState.step .size c = some (.within .size) := by
    intro c hc
    have hdigit := List.all_eq_true.mp hsize c hc
    simp [ParameterState.step, hdigit]
  rw [List.cons_append, scan_within .size _ _ (by decide), scan_run _ _ hdigits,
    scan_within .complete _ _ (by decide)]

/-- The reader follows every derivation, whatever stands behind it. -/
private theorem SignatureDerives.reads {symbol : SignatureSymbol} {text : Bytes}
    (h : SignatureDerives symbol text) : Reads symbol text := by
  induction h with
  | empty => exact ⟨[')'.toUInt8], rfl, fun depth rest => scan_close depth rest (by decide)⟩
  | @list types _ ih =>
    refine ⟨types ++ [')'.toUInt8], rfl, fun depth rest => ?_⟩
    rw [List.append_assoc]
    exact ih .opened (.inl rfl) depth rest
  | last _ ih =>
    intro state hs depth rest
    rw [ih state hs depth _ rfl]
    exact scan_close depth rest (by decide)
  | more _ _ ihfirst ihothers =>
    intro state hs depth rest
    rw [List.append_assoc, List.cons_append, ihfirst state hs depth _ rfl,
      scan_within .next _ _ (by decide)]
    exact ihothers .next (.inr rfl) depth rest
  | name hname =>
    intro state hs depth rest hend
    exact scan_name hs hname (startsWith_isNameChar_of_endsType hend) depth
  | tuple _ ih =>
    intro state hs depth rest _
    obtain ⟨body, rfl, hbody⟩ := ih
    rw [List.cons_append, scan_deeper hs, hbody]
    rfl
  | array _ hsize ih =>
    intro state hs depth rest _
    rw [List.append_assoc, List.append_assoc, List.singleton_append, ih state hs depth _ rfl]
    exact scan_brackets hsize depth rest

/-- What a text has to be for it to lead from a state to the end of the list. -/
private def Completes : ParameterState → Bytes → Prop
  | .opened, text => SignatureDerives .parameters ('('.toUInt8 :: text)
  | .next, text => ∃ types, SignatureDerives .types types ∧ text = types ++ [')'.toUInt8]
  | .name, text => ∀ name, IsName name →
      ∃ types, SignatureDerives .types types ∧ name ++ text = types ++ [')'.toUInt8]
  | .complete, text => ∀ type, SignatureDerives .type type →
      ∃ types, SignatureDerives .types types ∧ type ++ text = types ++ [')'.toUInt8]
  | .size, text => ∀ type size, SignatureDerives .type type → size.all isDecimalDigit = true →
      ∃ types, SignatureDerives .types types ∧
        type ++ '['.toUInt8 :: size ++ text = types ++ [')'.toUInt8]

/-- What the lists around the one being read demand of the text behind it. -/
private def Closes (state : ParameterState) : Nat → Bytes → Prop
  | 0, text => Completes state text
  | depth + 1, text => ∃ first others, text = first ++ others ∧ Completes state first ∧
      Closes .complete depth others

private theorem Completes.of_types {state : ParameterState} {text types : Bytes}
    (h : state.expectsType) (hd : SignatureDerives .types types)
    (ht : text = types ++ [')'.toUInt8]) : Completes state text := by
  subst ht
  obtain rfl | rfl := h
  · exact .list hd
  · exact ⟨types, hd, rfl⟩

private theorem beginType_eq_some {c : UInt8} {move : ParameterMove}
    (h : ParameterState.beginType c = some move) :
    (c = '('.toUInt8 ∧ move = .deeper) ∨ (isNameStart c = true ∧ move = .within .name) := by
  unfold ParameterState.beginType at h
  split at h
  · exact .inl ⟨‹_›, (Option.some.inj h).symm⟩
  · split at h
    · exact .inr ⟨‹_›, (Option.some.inj h).symm⟩
    · cases h

private theorem endType_eq_some {c : UInt8} {move : ParameterMove}
    (h : ParameterState.endType c = some move) :
    (c = '['.toUInt8 ∧ move = .within .size) ∨ (c = ','.toUInt8 ∧ move = .within .next) ∨
      (c = ')'.toUInt8 ∧ move = .close) := by
  unfold ParameterState.endType at h
  split at h
  · exact .inl ⟨‹_›, (Option.some.inj h).symm⟩
  · split at h
    · exact .inr (.inl ⟨‹_›, (Option.some.inj h).symm⟩)
    · split at h
      · exact .inr (.inr ⟨‹_›, (Option.some.inj h).symm⟩)
      · cases h

/-- What a byte demands of the text behind it. -/
private def StepMeans (state : ParameterState) (c : UInt8) : ParameterMove → Prop
  | .within target => ∀ text, Completes target text → Completes state (c :: text)
  | .deeper => ∀ list others, SignatureDerives .parameters ('('.toUInt8 :: list) →
      Completes .complete others → Completes state (c :: list ++ others)
  | .close => Completes state [c]

private theorem beginType_means {state : ParameterState} {c : UInt8} {move : ParameterMove}
    (hs : state.expectsType) (h : ParameterState.beginType c = some move) :
    StepMeans state c move := by
  obtain ⟨rfl, rfl⟩ | ⟨hc, rfl⟩ := beginType_eq_some h
  · intro list others hlist hothers
    obtain ⟨types, htypes, heq⟩ := hothers _ (.tuple hlist)
    exact .of_types hs htypes heq
  · intro text htext
    obtain ⟨types, htypes, heq⟩ := htext [c] ⟨hc, by simp [isNameChar_of_isNameStart hc]⟩
    exact .of_types hs htypes heq

private theorem endType_means {c : UInt8} {move : ParameterMove}
    (h : ParameterState.endType c = some move) : StepMeans .complete c move := by
  obtain ⟨rfl, rfl⟩ | ⟨rfl, rfl⟩ | ⟨rfl, rfl⟩ := endType_eq_some h
  · intro text htext type htype
    simpa using htext type [] htype rfl
  · rintro text ⟨types, htypes, rfl⟩ type htype
    exact ⟨_, .more htype htypes, by simp⟩
  · intro type htype
    exact ⟨type, .last htype, rfl⟩

private theorem StepMeans.of_complete {c : UInt8} {move : ParameterMove}
    (h : StepMeans .complete c move) : StepMeans .name c move := by
  cases move with
  | within target => exact fun text htext name hname => h text htext name (.name hname)
  | deeper =>
    exact fun list others hlist hothers name hname =>
      h list others hlist hothers name (.name hname)
  | close => exact fun name hname => h name (.name hname)

private theorem step_means {state : ParameterState} {c : UInt8} {move : ParameterMove}
    (h : state.step c = some move) : StepMeans state c move := by
  cases state with
  | opened =>
    simp only [ParameterState.step] at h
    split at h
    · cases h
      subst c
      exact .empty
    · exact beginType_means (.inl rfl) h
  | next => exact beginType_means (.inr rfl) h
  | name =>
    simp only [ParameterState.step] at h
    split at h
    · rename_i hc
      cases h
      intro text htext name hname
      have hlonger : IsName (name ++ [c]) :=
        ⟨startsWith_append hname.1 [c], by simpa [hc] using hname.2⟩
      simpa using htext _ hlonger
    · exact .of_complete (endType_means h)
  | complete => exact endType_means h
  | size =>
    simp only [ParameterState.step] at h
    split at h
    · rename_i hc
      cases h
      intro text htext type size htype hsize
      have hlonger : (size ++ [c]).all isDecimalDigit = true := by simpa [hc] using hsize
      simpa using htext type _ htype hlonger
    · split at h
      · cases h
        subst c
        intro text htext type size htype hsize
        simpa using htext _ (.array htype hsize)
      · cases h

/-- A step within a list leaves the lists around it alone. -/
private theorem Closes.mono {state target : ParameterState} (lead : Bytes)
    (h : ∀ text, Completes target text → Completes state (lead ++ text)) {depth : Nat}
    {text : Bytes} (hclose : Closes target depth text) : Closes state depth (lead ++ text) := by
  cases depth with
  | zero => exact h text hclose
  | succ depth =>
    obtain ⟨first, others, rfl, hfirst, hothers⟩ := hclose
    exact ⟨lead ++ first, others, by simp, h first hfirst, hothers⟩

private theorem scanParameters_closes {state : ParameterState} {depth : Nat} {s rest : Bytes}
    (h : scanParameters state depth s = .ok rest) :
    ∃ text, s = text ++ rest ∧ Closes state depth text := by
  induction s generalizing state depth with
  | nil => simp [scanParameters] at h
  | cons c s ih =>
    simp only [scanParameters] at h
    split at h
    · simp at h
    · rename_i target hstep
      obtain ⟨text, rfl, htext⟩ := ih h
      exact ⟨c :: text, rfl, htext.mono [c] (step_means hstep)⟩
    · rename_i hstep
      -- The text behind an opening parenthesis closes the inner list first, then this one.
      obtain ⟨text, rfl, list, others, rfl, hlist, hothers⟩ := ih h
      refine ⟨c :: (list ++ others), rfl, ?_⟩
      exact hothers.mono (c :: list) fun text htext => step_means hstep list text hlist htext
    · rename_i hstep
      split at h
      · cases h
        exact ⟨[c], rfl, step_means hstep⟩
      · obtain ⟨text, rfl, htext⟩ := ih h
        exact ⟨c :: text, rfl, [c], text, rfl, step_means hstep, htext⟩

/-- A signature is read exactly where one stands, and as a whole. -/
theorem scanSignature_eq_ok_iff {s text rest : Bytes} :
    scanSignature s = .ok (text, rest) ↔ s = text ++ rest ∧ IsSignature text := by
  constructor
  · intro h
    have hs := scanSignature_text h
    refine ⟨hs, ?_⟩
    unfold scanSignature at h
    split at h
    · rename_i hstart
      obtain ⟨list, hlist, h⟩ := scan_bind_eq_ok.mp h
      obtain ⟨after, hafter, h⟩ := scan_bind_eq_ok.mp h
      cases h
      obtain ⟨body, rfl, hbody⟩ := scanParameters_closes hafter
      have hsplit : s.takeWhile isNameChar ++ ('('.toUInt8 :: body) ++ rest = s := by
        rw [List.append_assoc, List.cons_append, ← readByte_eq_ok.mp hlist,
          List.takeWhile_append_dropWhile]
      refine ⟨_, _, List.append_cancel_right (hs.symm.trans hsplit.symm), ?_, hbody⟩
      exact isName_takeWhile hstart
    · simp at h
  · rintro ⟨rfl, name, list, rfl, hname, hlist⟩
    obtain ⟨body, rfl, hbody⟩ := hlist.reads
    have hstop : startsWith isNameChar ('('.toUInt8 :: body ++ rest) = false := rfl
    have hrest : scanParameters .opened 0 (body ++ rest) = .ok rest := hbody 0 rest
    unfold scanSignature
    rw [List.append_assoc, if_pos (hname.startsWith_append _), hname.dropWhile_append hstop]
    refine scan_bind_eq_ok.mpr ⟨body ++ rest, rfl, scan_bind_eq_ok.mpr ⟨rest, hrest, ?_⟩⟩
    rw [← List.append_assoc, consumed_append]
    rfl

end EvmAssembly
