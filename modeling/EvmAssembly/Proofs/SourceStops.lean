import EvmAssembly.Proofs.SourcePlaces
import EvmAssembly.Proofs.SourceReading
import EvmAssembly.Proofs.StatementStops

/-!
# Where the reading of a source stops

The text before the place of a lexical fault is the beginning of a source that is read, so the place
is never too late. It is not too early either: except for the faults of a whole word, which are
reported where the word begins, no source goes on with the byte at that place.
-/

namespace EvmAssembly

variable {s rest other : Bytes} {fault : LexicalFault}

abbrev BeginsSource : Bytes → Prop := Begins Source.Valid Source.text

/-- The fault of a source is that of its first statement, or of the source behind that one, or a
separator that is missed there. -/
theorem scanSource_eq_error_iff {layout : Bytes} (hl : layoutEnd false layout = some false)
    (hne : s ≠ []) (hstop : startsWith beginsLayout s = false) :
    scanSource (layout ++ s) = .error fault ↔ scanStatement s = .error fault ∨
      ∃ statement behind, scanStatement s = .ok (statement, behind) ∧
        (mayFollow behind = true ∧ scanSource behind = .error fault ∨
          mayFollow behind = false ∧
            fault = ⟨.expected .separator, behind.dropWhile isBlank⟩) := by
  rw [scanSource_step hl hne hstop, scan_bind_eq_error, Prod.exists]
  refine or_congr_right (exists_congr fun statement => exists_congr fun behind => ?_)
  refine and_congr_right fun _ => ?_
  dsimp only
  by_cases hfollow : mayFollow behind = true
  · rw [if_pos hfollow, scan_bind_eq_error]
    constructor
    · rintro (hinner | ⟨source, -, hdone⟩)
      · exact .inl ⟨hfollow, hinner⟩
      · cases hdone
    · rintro (⟨-, hinner⟩ | ⟨hnot, -⟩)
      · exact .inl hinner
      · exact absurd hfollow (Bool.eq_false_iff.mp hnot)
  · rw [if_neg hfollow]
    constructor
    · intro hmissed
      cases hmissed
      exact .inr ⟨Bool.eq_false_iff.mpr hfollow, rfl⟩
    · rintro (⟨hmay, -⟩ | ⟨-, rfl⟩)
      · exact absurd hmay hfollow
      · rfl

/-- What is not layout has a next byte of its own, and so have other texts with the same one. -/
theorem stops_layout_congr (hne : rest ≠ []) (hstop : startsWith beginsLayout rest = false)
    (hn : nextByte other = nextByte rest) :
    other ≠ [] ∧ startsWith beginsLayout other = false := by
  obtain ⟨c, tail, rfl⟩ := List.exists_cons_of_ne_nil hne
  have hc : c ≠ newline := by
    rintro rfl
    exact Bool.noConfusion hstop
  obtain ⟨more, rfl⟩ := eq_cons_of_nextByte hc hn
  exact ⟨List.cons_ne_nil _ _, hstop⟩

/-- Behind a statement, what may follow it has the fault that it has by itself. -/
theorem scanSource_fault_behind {layout : Bytes} {statement : Statement}
    (hl : layoutEnd false layout = some false) (hs : statement.Valid) (hf : mayFollow s = true)
    (h : scanSource s = .error fault) :
    scanSource (layout ++ (statement.text ++ s)) = .error fault := by
  have hread := scanStatement_text_append hs hf
  have hne : statement.text ++ s ≠ [] := by
    simp [scanStatement_text_ne_nil hread]
  rw [scanSource_eq_error_iff hl hne (startsWith_beginsLayout hs s)]
  exact .inr ⟨_, _, hread, .inl ⟨hf, h⟩⟩

/-- A source that is not read has something behind its layout. So if it may follow a statement, then
so does everything that begins with this layout. -/
private theorem mayFollow_of_prefix {read : Bytes} (herror : scanSource s = .error fault)
    (hfollow : mayFollow s = true) (hread : layoutText false s <+: read) (rest : Bytes) :
    mayFollow (read ++ rest) = true := by
  rcases layout_or_stop s with hlayout | ⟨layout, behind, rfl, hclosed, hne, hstop⟩
  · cases (scanSource_layout hlayout).symm.trans herror
  · rw [layoutText_append hclosed hstop] at hread
    obtain ⟨tail, rfl⟩ := hread
    rw [List.append_assoc]
    exact mayFollow_of_layout hne hstop hfollow _

/-- The beginning of a statement, behind layout, is the beginning of a source. -/
private theorem begins_entry {layout read : Bytes} (hl : layoutEnd false layout = some false)
    (h : BeginsStatement read) : BeginsSource (layout ++ read) := by
  obtain ⟨statement, tail, hvalid, htext⟩ := h
  refine ⟨_, tail, .entry hl hvalid rfl (@Source.Valid.ending [] rfl), ?_⟩
  rw [Source.text_cons, htext]
  simp [Source.text]

/-- Where a separator is missed, what stands before is a source in itself. -/
private theorem missed_separator_stops {layout behind : Bytes} {statement : Statement}
    (hl : layoutEnd false layout = some false)
    (hread : scanStatement s = .ok (statement, behind)) (hbehind : mayFollow behind = false) :
    Stops scanSource (fun read => BeginsSource read ∧ layout <+: read) (layout ++ s)
      ⟨.expected .separator, behind.dropWhile isBlank⟩ := by
  have hvalid := scanStatement_valid hread
  have hsplit := List.takeWhile_append_dropWhile (p := isBlank) (l := behind)
  have hgap : (behind.takeWhile isBlank).all isBlank = true := List.all_takeWhile
  have hblank := startsWith_dropWhile isBlank behind
  have hs : layout ++ s = layout ++ statement.text ++ behind.takeWhile isBlank ++
      behind.dropWhile isBlank := by
    rw [List.append_assoc, List.append_assoc, hsplit, ← scanStatement_text hread]
  have hending : mayFollow (behind.takeWhile isBlank) = true := by
    have hnil := dropWhile_run hgap (rfl : startsWith isBlank [] = false)
    rw [List.append_nil] at hnil
    rw [mayFollow, hnil]
    rfl
  have hlayout : (layoutEnd false (behind.takeWhile isBlank)).isSome = true := by
    rw [layoutEnd_blanks hgap]
    rfl
  have hsource : (Source.mk [⟨layout, statement⟩] (behind.takeWhile isBlank)).Valid :=
    @Source.Valid.entry _ _ ⟨[], _⟩ hl hvalid hending (.ending hlayout)
  rw [hs]
  refine Stops.here ⟨⟨_, [], hsource, ?_⟩, ?_⟩ ?_
  · simp [Source.text, Entry.text]
  · rw [List.append_assoc]
    exact List.prefix_append _ _
  · intro other hn
    have hstop : startsWith isBlank other = false := (startsWith_congr (by decide) hn).trans hblank
    rw [← hsplit] at hread
    -- The same statement is read, and the same byte behind its blanks is refused.
    have hagain := scanStatement_resumes hgap hblank hread hn
    have hne : statement.text ++ (behind.takeWhile isBlank ++ other) ≠ [] := by
      simp [scanStatement_text_ne_nil hagain]
    have hother : mayFollow (behind.takeWhile isBlank ++ other) = false := by
      rw [mayFollow] at hbehind ⊢
      rw [dropWhile_run hgap hstop, endsHere_congr hn, hbehind]
    rw [List.append_assoc, List.append_assoc,
      scanSource_eq_error_iff hl hne (startsWith_beginsLayout hvalid _)]
    exact .inr ⟨_, _, hagain, .inr ⟨hother, by rw [dropWhile_run hgap hstop]⟩⟩

/-- A source that is not read stops in a statement or behind one. The layout it begins with is read
by then, so that it can stand behind another statement whatever follows. -/
theorem scanSource_stops (h : scanSource s = .error fault) :
    Stops scanSource (fun read => BeginsSource read ∧ layoutText false s <+: read) s fault := by
  -- What stands behind the first statement is shorter, and it stops by itself.
  induction hlength : s.length using Nat.strongRecOn generalizing s with
  | _ length ih =>
    rcases layout_or_stop s with hlayout | ⟨layout, rest, rfl, hclosed, hne, hstop⟩
    · cases (scanSource_layout hlayout).symm.trans h
    · rw [layoutText_append hclosed hstop]
      rcases (scanSource_eq_error_iff hclosed hne hstop).mp h with
        hstatement | ⟨statement, behind, hread, ⟨hfollow, hinner⟩ | ⟨hfollow, rfl⟩⟩
      · refine (scanStatement_stops hstatement).lift layout ?_ fun other fault hn herror => ?_
        · intro read hbegins
          exact ⟨begins_entry hclosed hbegins, List.prefix_append _ _⟩
        · obtain ⟨hne, hstop⟩ := stops_layout_congr hne hstop hn
          exact (scanSource_eq_error_iff hclosed hne hstop).mpr (.inl herror)
      · have hvalid := scanStatement_valid hread
        have hshorter := scanStatement_length_lt hread
        have hstops := ih behind.length (by rw [← hlength, List.length_append]; omega) hinner rfl
        rw [scanStatement_text hread, ← List.append_assoc]
        -- The layout behind the statement has been read, so the statement ends there in any case.
        refine hstops.behind ?_ ?_
        · rintro read ⟨⟨source, tail, hsource, htext⟩, hprefix⟩
          have hmay : mayFollow source.text = true := by
            rw [htext]
            exact mayFollow_of_prefix hinner hfollow hprefix tail
          refine ⟨⟨_, tail, .entry hclosed hvalid hmay hsource, ?_⟩, ?_⟩
          · simp [Source.text_cons, htext]
          · rw [List.append_assoc]
            exact List.prefix_append _ _
        · rintro read other fault ⟨-, hprefix⟩ - herror
          have hmay := mayFollow_of_prefix hinner hfollow hprefix other
          rw [List.append_assoc]
          exact scanSource_fault_behind hclosed hvalid hmay herror
      · exact missed_separator_stops hclosed hread hfollow

/-- A fault is placed behind what stands before the text that it keeps. -/
theorem LexicalFault.parseError_append (cause : LexicalCause) (read rest : Bytes) :
    (LexicalFault.mk cause rest).parseError (read ++ rest) =
      ⟨.lexical (LexicalFault.mk cause rest).detail, Location.start.after read⟩ := by
  have hoffset : (LexicalFault.mk cause rest).offset (read ++ rest) = read.length := by
    simp [LexicalFault.offset]
  rw [LexicalFault.parseError, hoffset, Location.ofOffset, List.take_left]

/-- Of the text at its place, a fault shows no more than the first byte. -/
theorem LexicalFault.detail_cons (cause : LexicalCause) (c : UInt8) (rest other : Bytes) :
    (LexicalFault.mk cause (c :: rest)).detail = (LexicalFault.mk cause (c :: other)).detail := by
  cases cause <;> rfl

/-- The text before the place of a lexical error goes on to a source that is parsed. If the error is
not the one of a whole word, then no source that goes on with the byte at its place is parsed: all
of them have the same error. -/
theorem parseTrees_error_place {error : ParseError} (h : parseTrees s = .error error) :
    ∃ fault offset, scanSource s = .error fault ∧ error = fault.parseError s ∧
      offset ≤ s.length ∧ error.location = lineColumn s offset ∧
      (∀ other ≤ s.length, error.location = lineColumn s other → other = offset) ∧
      (∃ rest trees, parseTrees (s.take offset ++ rest) = .ok trees) ∧
      (offset < s.length → fault.cause.atWordStart = false →
        ∀ rest, parseTrees (s.take (offset + 1) ++ rest) = .error error) := by
  rcases fault_or_readsAs s with ⟨fault, hscan, htrees, -⟩ | ⟨statements, hreads⟩
  · cases htrees.symm.trans h
    obtain @⟨read, word, rest, cause, ⟨hgoes, -⟩, hplace, hdecided⟩ := scanSource_stops hscan
    have hlocation : (LexicalFault.parseError ⟨cause, word ++ rest⟩
        (read ++ (word ++ rest))).location = lineColumn (read ++ (word ++ rest)) read.length := by
      rw [LexicalFault.parseError_append, lineColumn_length_append]
    have hlength : read.length ≤ (read ++ (word ++ rest)).length := by simp
    refine ⟨_, read.length, hscan, rfl, hlength, hlocation, ?_, ?_, ?_⟩
    · intro other hother hsame
      exact lineColumn_injective hlength hother (hsame.symm.trans hlocation)
    · obtain ⟨source, tail, hvalid, htext⟩ := hgoes
      have hreads : ReadsAs .start (read ++ tail) source.located := ⟨source, hvalid, htext, rfl⟩
      rw [List.take_left]
      exact ⟨tail, _, hreads.parseTrees_eq⟩
    · intro hlt hcause other
      obtain rfl := hplace hcause
      rw [List.nil_append, List.length_append] at hlt
      obtain ⟨c, more, rfl⟩ := List.exists_cons_of_length_pos (Nat.lt_add_right_iff_pos.mp hlt)
      have htake : (read ++ c :: more).take (read.length + 1) ++ other = read ++ c :: other := by
        rw [List.take_length_add_append]
        simp
      have hagain : scanSource (read ++ c :: other) = .error ⟨cause, c :: other⟩ :=
        hdecided (c :: other) rfl
      rw [List.nil_append, htake, (parse_of_fault hagain).1, LexicalFault.parseError_append,
        LexicalFault.parseError_append, LexicalFault.detail_cons]
  · cases hreads.parseTrees_eq.symm.trans h

/-- Behind the digits of a binary number stands one that is not binary. -/
theorem parseTrees_error_place_binary :
    parseTrees "add\npush1 0b12" =
      .error ⟨.lexical "invalid character '2' in binary literal", ⟨2, 10⟩⟩ ∧
    (∃ rest trees, parseTrees ("add\npush1 0b1" ++ rest) = .ok trees) ∧
    ∀ rest, parseTrees ("add\npush1 0b12" ++ rest) =
      .error ⟨.lexical "invalid character '2' in binary literal", ⟨2, 10⟩⟩ := by
  have hscan : scanSource "add\npush1 0b12" = .error ⟨.strayCharacter .binary, "2"⟩ := by
    decide +kernel
  have htrees := (parse_of_fault hscan).1
  obtain ⟨fault, offset, hfault, -, -, -, hunique, hviable, hdecided⟩ :=
    parseTrees_error_place htrees
  cases hfault.symm.trans hscan
  obtain rfl := hunique 13 (by decide) (by decide)
  exact ⟨htrees, hviable, hdecided (by decide) rfl⟩

end EvmAssembly
