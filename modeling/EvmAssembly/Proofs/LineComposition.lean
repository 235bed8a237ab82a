import EvmAssembly.Proofs.Displacement
import EvmAssembly.Proofs.SourceStops

/-!
# Parsing line by line

A newline ends whatever stands before it, so two sources with a newline between them are parsed as
each of them is. The nodes are those of both, and the errors of the second one are moved down by the
lines of the first. A lexical error of the first one stays where it is.
-/

namespace EvmAssembly

variable {place : Location} {s : Bytes} {fault : LexicalFault}

theorem mayFollow_newline (h : mayFollow s = true) (rest : Bytes) :
    mayFollow (s ++ newline :: rest) = true := by
  induction s with
  | nil => rfl
  | cons c s ih =>
    rw [mayFollow_cons] at h
    rw [List.cons_append, mayFollow_cons]
    by_cases hc : isBlank c = true
    · rw [if_pos hc] at h ⊢
      exact ih h
    · rw [if_neg hc] at h ⊢
      exact h

/-- A newline ends the comment that layout may end with. -/
theorem layoutEnd_newline {layout : Bytes} (h : (layoutEnd false layout).isSome = true) :
    layoutEnd false (layout ++ [newline]) = some false := by
  obtain ⟨after, hafter⟩ := Option.isSome_iff_exists.mp h
  rw [layoutEnd_append hafter]
  cases after <;> rfl

/-- Two texts with a newline between them read as their statements in a row. -/
theorem ReadsAs.append_newline {behind : Bytes} {first second : List (Location × Statement)}
    (h : ReadsAs place s first) (hbehind : ReadsAs (place.after (s ++ [newline])) behind second) :
    ReadsAs place (s ++ newline :: behind) (first ++ second) := by
  obtain ⟨source, hvalid, rfl, rfl⟩ := h
  induction hvalid generalizing place with
  | @ending layout hlayout =>
    rw [List.append_cons]
    exact .layout (layoutEnd_newline hlayout) hbehind
  | @entry layout statement rest hclosed hstatement hfollow _ ih =>
    rw [Source.text_cons] at hbehind ⊢
    rw [List.append_assoc, List.append_assoc]
    refine .layout hclosed (.statement hstatement (mayFollow_newline hfollow _) ?_)
    have hrest : ReadsAs ((place.after layout).after statement.text)
        (rest.text ++ newline :: behind)
        (Entry.located rest.entries ((place.after layout).after statement.text) ++ second) := by
      apply ih
      simpa using hbehind
    simpa [Entry.text] using hrest

/-- Layout before a source does not change its fault. -/
theorem scanSource_layout_fault {layout : Bytes} (hl : layoutEnd false layout = some false)
    (h : scanSource s = .error fault) : scanSource (layout ++ s) = .error fault := by
  rcases layout_or_stop s with hlayout | ⟨inner, rest, rfl, hclosed, hne, hstop⟩
  · cases (scanSource_layout hlayout).symm.trans h
  · have hlonger : layoutEnd false (layout ++ inner) = some false := by
      rw [layoutEnd_append hl, hclosed]
    rw [← List.append_assoc, scanSource_eq_error_iff hlonger hne hstop]
    exact (scanSource_eq_error_iff hclosed hne hstop).mp h

/-- Behind a source that is read and a newline, a text has the fault that it has by itself. -/
theorem Source.Valid.fault_behind {source : Source} (hvalid : source.Valid)
    (h : scanSource s = .error fault) :
    scanSource (source.text ++ newline :: s) = .error fault := by
  induction hvalid with
  | @ending layout hlayout =>
    rw [List.append_cons]
    exact scanSource_layout_fault (layoutEnd_newline hlayout) h
  | @entry layout statement rest hclosed hstatement hfollow _ ih =>
    rw [Source.text_cons, List.append_assoc, List.append_assoc]
    exact scanSource_fault_behind hclosed hstatement (mayFollow_newline hfollow s) ih

/-- Before a newline, a text keeps its fault, as it takes its own end for one. -/
theorem scanSource_fault_newline (h : scanSource s = .error fault) (behind : Bytes) :
    ∃ detail, parseTrees (s ++ newline :: behind) =
        .error ⟨.lexical detail, (fault.parseError s).location⟩ ∧
      parse (s ++ newline :: behind) =
        .error ⟨.lexical detail, (fault.parseError s).location⟩ := by
  obtain @⟨read, word, rest, cause, -, -, hdecided⟩ := scanSource_stops h
  -- At its end a text is read as if a newline stood there, and now one does.
  have hnext : nextByte (rest ++ newline :: behind) = nextByte rest := by
    cases rest <;> rfl
  have hagain := hdecided _ hnext
  have hsplit : read ++ (word ++ rest) ++ newline :: behind =
      read ++ (word ++ (rest ++ newline :: behind)) := by
    simp
  obtain ⟨htrees, hparse⟩ := parse_of_fault hagain
  rw [LexicalFault.parseError_append] at htrees hparse
  rw [hsplit, LexicalFault.parseError_append]
  exact ⟨_, htrees, hparse⟩

theorem buildNodes_append (first second : List (Location × Statement)) :
    buildNodes (first ++ second) =
      match buildNodes first with
      | .error error => .error error
      | .ok nodes => (buildNodes second).map (nodes ++ ·) := by
  induction first with
  | nil =>
    rw [List.nil_append, buildNodes]
    cases buildNodes second <;> rfl
  | cons statement rest ih =>
    obtain ⟨place, statement⟩ := statement
    rw [List.cons_append, buildNodes, buildNodes, ih]
    cases statement.node place with
    | error error => rfl
    | ok node =>
      cases buildNodes rest with
      | error error => rfl
      | ok nodes => cases buildNodes second <;> rfl

/-- The place behind a first source and a newline. -/
theorem Location.start_after_newline (text : Bytes) :
    start.after (text ++ [newline]) = start.moved (1 + text.count newline) 0 := by
  rw [start_after_eq_moved]
  simp [Nat.add_comm]

/-- Two sources that are read, with a newline between them: their nodes are made one after another,
those of the second from places that are moved down. -/
theorem ReadsAs.parse_append_newline {behind : Bytes} {first second : List (Location × Statement)}
    (h : ReadsAs .start s first) (hbehind : ReadsAs .start behind second) :
    parse (s ++ newline :: behind) =
      match parse s with
      | .error error => .error error
      | .ok nodes => ((parse behind).mapError (ParseError.moved (1 + s.count newline) 0)).map
          (nodes ++ ·) := by
  have hmoved := hbehind.moved (1 + s.count newline)
  rw [← Location.start_after_newline] at hmoved
  rw [(h.append_newline hmoved).parse_eq, h.parse_eq, hbehind.parse_eq, buildNodes_append,
    buildNodes_movedLines (hbehind.one_line rfl)]

/-- The place of a fault moves down with the text. -/
theorem LexicalFault.parseError_behind (h : scanSource s = .error fault) (before : Bytes) :
    fault.parseError (before ++ newline :: s) =
      (fault.parseError s).moved (1 + before.count newline) 0 := by
  obtain @⟨read, word, rest, cause, -, -, -⟩ := scanSource_stops h
  have hsplit : before ++ newline :: (read ++ (word ++ rest)) =
      before ++ [newline] ++ read ++ (word ++ rest) := by
    simp
  rw [hsplit, LexicalFault.parseError_append, LexicalFault.parseError_append,
    Location.after_append, Location.start_after_newline, Location.after_moved_lines]
  rfl

/-- Behind a source that is parsed and a newline, every source is parsed as it is by itself. -/
theorem parse_append_of_ok {first : List Node} (h : parse s = .ok first) (behind : Bytes) :
    parse (s ++ newline :: behind) =
      ((parse behind).mapError (ParseError.moved (1 + s.count newline) 0)).map (first ++ ·) := by
  rcases fault_or_readsAs s with ⟨fault, -, -, herror⟩ | ⟨statements, hreads⟩
  · cases herror.symm.trans h
  · rcases fault_or_readsAs behind with ⟨fault, hscan, -, hparse⟩ | ⟨others, hothers⟩
    · obtain ⟨source, hvalid, rfl, -⟩ := hreads
      have hbehind := hvalid.fault_behind hscan
      rw [(parse_of_fault hbehind).2, hparse, LexicalFault.parseError_behind hscan]
      rfl
    · rw [hreads.parse_append_newline hothers, h]

/-- What stands behind a source does not mend its errors. -/
theorem parse_append_of_error {error : ParseError} (h : parse s = .error error) (behind : Bytes) :
    ∃ other, parse (s ++ newline :: behind) = .error other := by
  rcases fault_or_readsAs s with ⟨fault, hscan, -, -⟩ | ⟨statements, hreads⟩
  · obtain ⟨detail, -, hparse⟩ := scanSource_fault_newline hscan behind
    exact ⟨_, hparse⟩
  · rcases fault_or_readsAs behind with ⟨fault, hscan, -, -⟩ | ⟨others, hothers⟩
    · obtain ⟨source, hvalid, rfl, -⟩ := hreads
      exact ⟨_, (parse_of_fault (hvalid.fault_behind hscan)).2⟩
    · rw [hreads.parse_append_newline hothers, h]
      exact ⟨error, rfl⟩

/-- Two sources with a newline between them are parsed exactly if both are, and the nodes are then
those of both. If only the second one fails, its error is moved down by the lines before it. A
lexical error of the first one stays a lexical error at its place, whatever the second one is. -/
theorem parse_newline_compositional (a b : Bytes) :
    ((∃ nodes, parse (a ++ newline :: b) = .ok nodes) ↔
      (∃ first, parse a = .ok first) ∧ ∃ second, parse b = .ok second) ∧
    (∀ first second, parse a = .ok first → parse b = .ok second →
      parse (a ++ newline :: b) = .ok (first ++ second)) ∧
    (∀ first error, parse a = .ok first → parse b = .error error →
      parse (a ++ newline :: b) = .error ⟨error.fault,
        ⟨error.location.line + 1 + a.count newline, error.location.column⟩⟩) ∧
    ∀ error, parseTrees a = .error error → ∃ detail,
      parseTrees (a ++ newline :: b) = .error ⟨.lexical detail, error.location⟩ ∧
        parse (a ++ newline :: b) = .error ⟨.lexical detail, error.location⟩ := by
  have hboth : ∀ first second, parse a = .ok first → parse b = .ok second →
      parse (a ++ newline :: b) = .ok (first ++ second) := by
    intro first second hfirst hsecond
    rw [parse_append_of_ok hfirst, hsecond]
    rfl
  have hshifted : ∀ first error, parse a = .ok first → parse b = .error error →
      parse (a ++ newline :: b) = .error ⟨error.fault,
        ⟨error.location.line + 1 + a.count newline, error.location.column⟩⟩ := by
    intro first error hfirst herror
    rw [parse_append_of_ok hfirst, herror, Nat.add_assoc]
    rfl
  refine ⟨⟨?_, ?_⟩, hboth, hshifted, ?_⟩
  · rintro ⟨nodes, hnodes⟩
    cases hfirst : parse a with
    | error error =>
      obtain ⟨other, hother⟩ := parse_append_of_error hfirst b
      cases hother.symm.trans hnodes
    | ok first =>
      refine ⟨⟨first, rfl⟩, ?_⟩
      cases hsecond : parse b with
      | error error => cases (hshifted first error hfirst hsecond).symm.trans hnodes
      | ok second => exact ⟨second, rfl⟩
  · rintro ⟨⟨first, hfirst⟩, second, hsecond⟩
    exact ⟨_, hboth first second hfirst hsecond⟩
  · intro error herror
    rcases fault_or_readsAs a with ⟨fault, hscan, htrees, -⟩ | ⟨statements, hreads⟩
    · cases htrees.symm.trans herror
      exact scanSource_fault_newline hscan b
    · cases hreads.parseTrees_eq.symm.trans herror

/-- A literal that is too large for its push, behind two lines; and a string without its second
quote, before another line. -/
theorem parse_newline_compositional_errors :
    parse "a:\njump" = .ok [.label "a", .instruction ⟨⟨"jump", ⟨0x56, 0⟩⟩, none⟩] ∧
    parse " push1 256" = .error ⟨.immediateTooLarge "256" 1, ⟨1, 8⟩⟩ ∧
    parse "a:\njump\n push1 256" = .error ⟨.immediateTooLarge "256" 1, ⟨3, 8⟩⟩ ∧
    ∃ detail, parse "stop;%import(\"x)\nadd" = .error ⟨.lexical detail, ⟨1, 14⟩⟩ := by
  have hlines : scanSource "a:\njump" =
      .ok ⟨[⟨"", .label "a" ""⟩, ⟨"\n", .plain ⟨"jump", ⟨0x56, 0⟩⟩⟩], ""⟩ := by decide +kernel
  have hpush : scanSource " push1 256" =
      .ok ⟨[⟨" ", .push (.pushOf 1) " " (.number ⟨.decimal, "256"⟩)⟩], ""⟩ := by decide +kernel
  have hfault : scanSource "stop;%import(\"x)" = .error ⟨.unterminatedString, "\"x)"⟩ := by
    decide +kernel
  have hfirst := (readsAs_of_scanSource hlines).parse_eq
  have hsecond : parse " push1 256" = .error ⟨.immediateTooLarge "256" 1, ⟨1, 8⟩⟩ :=
    (readsAs_of_scanSource hpush).parse_eq.trans rfl
  have hbehind := (parse_newline_compositional "a:\njump" " push1 256").2.2.1 _ _ hfirst hsecond
  obtain ⟨detail, -, hlexical⟩ := (parse_newline_compositional "stop;%import(\"x)" "add").2.2.2 _
    (parse_of_fault hfault).1
  exact ⟨hfirst, hsecond, hbehind, detail, hlexical⟩

end EvmAssembly
