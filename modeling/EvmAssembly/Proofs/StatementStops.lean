import EvmAssembly.Proofs.StatementGrammar
import EvmAssembly.Proofs.WordStops

/-!
# Where the reading of a statement stops

As for words, the text up to a fault and the byte that stands there decide the fault, and the text
is the beginning of a well-formed statement. A statement that is read to its end is decided by its
text and by the byte that follows it, blanks apart.
-/

namespace EvmAssembly

variable {α : Type} {s rest other : Bytes} {fault : LexicalFault}

abbrev BeginsStatement : Bytes → Prop := Begins Statement.Valid Statement.text

/-- Blanks are skipped alike before texts with the same next byte. -/
private theorem blanks_resume (hn : nextByte other = nextByte (rest.dropWhile isBlank)) :
    (rest.takeWhile isBlank ++ other).takeWhile isBlank = rest.takeWhile isBlank ∧
      (rest.takeWhile isBlank ++ other).dropWhile isBlank = other ∧
      nextByte (rest.takeWhile isBlank ++ other) = nextByte rest := by
  have hstop : startsWith isBlank other = false :=
    (startsWith_congr (by decide) hn).trans (startsWith_dropWhile isBlank rest)
  refine ⟨takeWhile_run List.all_takeWhile hstop, dropWhile_run List.all_takeWhile hstop, ?_⟩
  have hnext := nextByte_append hn (rest.takeWhile isBlank)
  rwa [List.takeWhile_append_dropWhile] at hnext

abbrev BeginsFurther : Bytes → Prop :=
  Begins (fun others : List FurtherActual => ∀ item ∈ others, item.Valid)
    (List.flatMap FurtherActual.text)

/-- An argument and those behind it, given where the reading of the latter stops. -/
private theorem actuals_stops {make : Actual × Bytes → List FurtherActual × Bytes → α}
    (h : (scanActual s >>= fun first => scanFurther (first.2.dropWhile isBlank) >>= fun others =>
      pure (make first others)) = .error fault)
    (hfurther : ∀ value after, scanActual s = .ok (value, after) →
      scanFurther (after.dropWhile isBlank) = .error fault →
      Stops scanFurther BeginsFurther (after.dropWhile isBlank) fault) :
    Stops (fun s => scanActual s >>= fun first => scanFurther (first.2.dropWhile isBlank) >>=
      fun others => pure (make first others)) (Begins Actuals.Valid Actuals.text) s fault := by
  refine Stops.bind Actual.text h scanActual_stops ?_ ?_ fun value after hread hrest => ?_
  · rintro read ⟨actual, tail, hvalid, htext⟩
    refine ⟨⟨actual, [], []⟩, tail, ⟨hvalid, rfl, by simp⟩, ?_⟩
    simpa [Actuals.text] using htext
  · intro value after hread
    exact ⟨scanActual_text hread, fun other hn => scanActual_resumes hread hn⟩
  · rcases scan_bind_eq_error.mp hrest with hinner | ⟨others, -, hdone⟩
    · have hstops := hfurther value after hread hinner
      rw [← List.takeWhile_append_dropWhile (p := isBlank) (l := after)]
      refine hstops.lift (after.takeWhile isBlank) ?_ fun other fault hn herror => ?_
      · rintro read ⟨others, tail, hothers, htext⟩
        have hvalid := scanActual_valid hread
        refine ⟨⟨value, after.takeWhile isBlank, others⟩, tail,
          ⟨hvalid, List.all_takeWhile, hothers⟩, ?_⟩
        simp [Actuals.text, htext]
      · rw [← (blanks_resume hn).2.1] at herror
        exact scan_bind_eq_error.mpr (.inl herror)
    · cases hdone

theorem scanFurther_stops (h : scanFurther s = .error fault) :
    Stops scanFurther BeginsFurther s fault := by
  induction hlength : s.length using Nat.strongRecOn generalizing s with
  | _ length ih =>
    by_cases hcomma : startsWith (· = ','.toUInt8) s = true
    · obtain ⟨body, rfl⟩ : ∃ body, s = ','.toUInt8 :: body := ⟨_, drop_one_of_startsWith hcomma⟩
      rw [scanFurther_comma] at h
      have hstops := actuals_stops h fun value after hread herror => by
        apply ih (after.dropWhile isBlank).length ?_ herror rfl
        have htext := congrArg List.length (scanActual_text hread)
        have hbody := (List.dropWhile_suffix isBlank (l := body)).length_le
        have hafter := (List.dropWhile_suffix isBlank (l := after)).length_le
        simp only [List.length_append, List.length_cons] at htext hlength
        omega
      rw [← List.takeWhile_append_dropWhile (p := isBlank) (l := body)]
      refine hstops.lift (','.toUInt8 :: body.takeWhile isBlank) ?_ fun other fault hn herror => ?_
      · rintro read ⟨⟨first, trail, others⟩, tail, ⟨hfirst, htrail, hothers⟩, htext⟩
        have hitem : (FurtherActual.mk (body.takeWhile isBlank) first trail).Valid :=
          ⟨List.all_takeWhile, hfirst, htrail⟩
        refine ⟨⟨body.takeWhile isBlank, first, trail⟩ :: others, tail, by simpa [hitem], ?_⟩
        simpa [Actuals.text, FurtherActual.text] using htext
      · obtain ⟨htake, hdrop, -⟩ := blanks_resume hn
        rw [List.cons_append, scanFurther_comma, htake, hdrop]
        exact herror
    · rw [scanFurther, dif_neg hcomma] at h
      cases h

/-- An argument and those behind it are read again, given that the latter are. -/
private theorem actuals_resume {first : Actual} {after : Bytes} {others : List FurtherActual}
    (hfirst : scanActual s = .ok (first, after))
    (hothers : scanFurther (after.dropWhile isBlank) = .ok (others, rest))
    (hn : nextByte other = nextByte rest)
    (hagain : scanFurther (others.flatMap FurtherActual.text ++ other) = .ok (others, other)) :
    let behind := after.takeWhile isBlank ++ (others.flatMap FurtherActual.text ++ other)
    scanActual (first.text ++ behind) = .ok (first, behind) ∧
      scanFurther (behind.dropWhile isBlank) = .ok (others, other) ∧
      behind.takeWhile isBlank = after.takeWhile isBlank := by
  have hnext : nextByte (others.flatMap FurtherActual.text ++ other) =
      nextByte (after.dropWhile isBlank) := by
    rw [scanFurther_text hothers]
    exact nextByte_append hn _
  obtain ⟨htake, hdrop, hafter⟩ := blanks_resume hnext
  refine ⟨scanActual_resumes hfirst hafter, ?_, htake⟩
  rw [hdrop]
  exact hagain

/-- What is read as further arguments is decided by their text and the byte behind it. -/
theorem scanFurther_resumes {others : List FurtherActual} (h : scanFurther s = .ok (others, rest))
    (hn : nextByte other = nextByte rest) :
    scanFurther (others.flatMap FurtherActual.text ++ other) = .ok (others, other) := by
  fun_induction scanFurther s generalizing others rest with
  | case1 => cases h
  | case2 s hs body value after hread =>
    rename_i ih
    obtain ⟨⟨more, last⟩, hmore, h⟩ := scan_bind_eq_ok.mp h
    cases h
    obtain ⟨hvalue, hrest, htrail⟩ := actuals_resume hread hmore hn (ih hmore hn)
    have hlead : (body.takeWhile isBlank).all isBlank = true := List.all_takeWhile
    have hstop := (scanActual_valid hread).startsWith_other (fun _ => beginsActual_of_isBlank)
      (after.takeWhile isBlank ++ (more.flatMap FurtherActual.text ++ other))
    rw [← dropWhile_run hlead hstop] at hvalue
    simp only [List.flatMap_cons, FurtherActual.text, List.cons_append, List.append_assoc]
    rw [scanFurther_comma, takeWhile_run hlead hstop]
    refine scan_bind_eq_ok.mpr ⟨_, hvalue, scan_bind_eq_ok.mpr ⟨_, hrest, ?_⟩⟩
    rw [htrail]
    rfl
  | case3 s hs =>
    cases h
    have hcomma : ¬ startsWith (· = ','.toUInt8) other = true := by
      rwa [startsWith_congr (by decide) hn]
    rw [List.flatMap_nil, List.nil_append, scanFurther, dif_neg hcomma]

abbrev BeginsActuals : Bytes → Prop :=
  Begins (fun actuals : Option Actuals => ∀ given ∈ actuals, given.Valid) Statement.actualsText

theorem scanActuals_stops (h : scanActuals s = .error fault) :
    Stops scanActuals BeginsActuals s fault := by
  by_cases hclose : startsWith (· = ')'.toUInt8) s = true
  · rw [scanActuals, if_pos hclose] at h
    cases h
  · rw [scanActuals, if_neg hclose] at h
    have hstops := actuals_stops h fun value after _ => scanFurther_stops
    refine hstops.lift [] ?_ fun other fault hn herror => ?_
    · rintro read ⟨actuals, tail, hvalid, htext⟩
      exact ⟨some actuals, tail, by simpa using hvalid, htext⟩
    · rw [← startsWith_congr (by decide) hn] at hclose
      rw [List.nil_append, scanActuals, if_neg hclose]
      exact herror

theorem scanActuals_resumes {actuals : Option Actuals} (h : scanActuals s = .ok (actuals, rest))
    (hn : nextByte other = nextByte rest) :
    scanActuals (Statement.actualsText actuals ++ other) = .ok (actuals, other) := by
  have hnext := nextByte_append hn (Statement.actualsText actuals)
  rw [← scanActuals_text h] at hnext
  by_cases hclose : startsWith (· = ')'.toUInt8) s = true
  · rw [scanActuals, if_pos hclose] at h
    cases h
    rw [← startsWith_congr (by decide) hn] at hclose
    exact if_pos hclose
  · rw [scanActuals, if_neg hclose] at h
    obtain ⟨⟨first, after⟩, hfirst, h⟩ := scan_bind_eq_ok.mp h
    obtain ⟨⟨others, last⟩, hothers, h⟩ := scan_bind_eq_ok.mp h
    cases h
    obtain ⟨hvalue, hrest, htrail⟩ :=
      actuals_resume hfirst hothers hn (scanFurther_resumes hothers hn)
    have htext : Statement.actualsText (some ⟨first, after.takeWhile isBlank, others⟩) ++ other =
        first.text ++
          (after.takeWhile isBlank ++ (others.flatMap FurtherActual.text ++ other)) := by
      simp [Statement.actualsText, Actuals.text]
    rw [← startsWith_congr (by decide) hnext] at hclose
    rw [htext] at hclose ⊢
    rw [scanActuals, if_neg hclose]
    refine scan_bind_eq_ok.mpr ⟨_, hvalue, scan_bind_eq_ok.mpr ⟨_, hrest, ?_⟩⟩
    rw [htrail]
    rfl

/-- Reading a directive goes by the list of arguments behind its name. -/
private theorem scanDirective_word {word : Bytes} (hword : IsName word)
    (hr : startsWith isNameChar rest = false) : scanDirective ('%'.toUInt8 :: (word ++ rest)) =
      match Directive.ofWord? word with
      | none => .error ⟨.unknownDirective word, '%'.toUInt8 :: (word ++ rest)⟩
      | some directive => do
        let list ← readByte '('.toUInt8 (.argumentsOpening directive) rest
        let (actuals, last) ← scanActuals (list.dropWhile isBlank)
        let last ← readByte ')'.toUInt8 (.argumentsEnd directive) last
        return (.directive directive (list.takeWhile isBlank) actuals, last) := by
  have hbody : ('%'.toUInt8 :: (word ++ rest)).drop 1 = word ++ rest := rfl
  simp only [scanDirective, hbody, hword.startsWith_append, hword.takeWhile_append hr,
    hword.dropWhile_append hr, if_true]
  rfl

private theorem begins_statement : BeginsStatement [] :=
  ⟨.label "a" [], "a:", ⟨by decide, rfl⟩, rfl⟩

/-- A directive can be closed behind each part of its list of arguments. -/
private theorem begins_directive (directive : Directive) {pad read : Bytes}
    (hpad : pad.all isBlank = true) (h : BeginsActuals read) :
    BeginsStatement ('%'.toUInt8 :: directive.word ++ '('.toUInt8 :: (pad ++ read)) := by
  obtain ⟨actuals, tail, hvalid, htext⟩ := h
  refine ⟨.directive directive pad actuals, tail ++ [')'.toUInt8], ⟨hpad, hvalid⟩, ?_⟩
  simp [Statement.text, Statement.directiveOpening, htext]

/-- The arguments and the closing parenthesis, behind the opening one and blanks. -/
private theorem scanClosing_stops (directive : Directive) {pad : Bytes}
    (hpad : pad.all isBlank = true)
    (h : (do
      let (actuals, last) ← scanActuals s
      let last ← readByte ')'.toUInt8 (.argumentsEnd directive) last
      return (Statement.directive directive pad actuals, last)) = .error fault) :
    Stops (fun s => do
      let (actuals, last) ← scanActuals s
      let last ← readByte ')'.toUInt8 (.argumentsEnd directive) last
      return (Statement.directive directive pad actuals, last))
      (fun read => BeginsStatement ('%'.toUInt8 :: directive.word ++ '('.toUInt8 :: (pad ++ read)))
      s fault := by
  refine Stops.bind Statement.actualsText h scanActuals_stops
    (fun read => begins_directive directive hpad) ?_ fun actuals last hread hlast => ?_
  · intro actuals last hread
    exact ⟨scanActuals_text hread, fun other hn => scanActuals_resumes hread hn⟩
  · have hactuals : BeginsActuals (Statement.actualsText actuals) :=
      ⟨actuals, [], scanActuals_valid hread, by simp⟩
    refine Stops.readByte (by decide) ?_ hlast fun rest hdone => ?_
    · simpa using begins_directive directive hpad hactuals
    · cases hdone

private theorem scanArguments_stops (directive : Directive)
    (h : (do
      let list ← readByte '('.toUInt8 (.argumentsOpening directive) s
      let (actuals, last) ← scanActuals (list.dropWhile isBlank)
      let last ← readByte ')'.toUInt8 (.argumentsEnd directive) last
      return (Statement.directive directive (list.takeWhile isBlank) actuals, last)) =
        .error fault) :
    Stops (fun s => do
      let list ← readByte '('.toUInt8 (.argumentsOpening directive) s
      let (actuals, last) ← scanActuals (list.dropWhile isBlank)
      let last ← readByte ')'.toUInt8 (.argumentsEnd directive) last
      return (Statement.directive directive (list.takeWhile isBlank) actuals, last))
      (fun read => BeginsStatement ('%'.toUInt8 :: directive.word ++ read)) s fault := by
  refine Stops.readByte (by decide) ?_ h fun list hlist => ?_
  · exact ⟨.directive directive [] none, "()", ⟨rfl, by simp⟩,
      by simp [Statement.text, Statement.directiveOpening, Statement.actualsText]; rfl⟩
  · have hstops := scanClosing_stops directive List.all_takeWhile hlist
    have hsplit := List.takeWhile_append_dropWhile (p := isBlank) (l := list)
    rw [← hsplit]
    refine hstops.lift _ (fun _ hread => hread) fun other fault hn herror => ?_
    obtain ⟨htake, hdrop, -⟩ := blanks_resume hn
    rw [htake, hdrop]
    exact herror

theorem scanDirective_stops (hs : startsWith (· = '%'.toUInt8) s = true)
    (h : scanDirective s = .error fault) : Stops scanDirective BeginsStatement s fault := by
  rw [drop_one_of_startsWith hs] at h ⊢
  generalize s.drop 1 = body at h ⊢
  by_cases hstart : startsWith isNameStart body = true
  · obtain ⟨word, after, rfl, hword, hafter⟩ := exists_name hstart
    rw [scanDirective_word hword hafter] at h
    cases hdirective : Directive.ofWord? word with
    | none =>
      rw [hdirective] at h
      cases h
      refine @Stops.atWord _ _ _ _ ('%'.toUInt8 :: word) _ rfl begins_statement fun other hn => ?_
      rw [← startsWith_congr (by decide) hn] at hafter
      rw [List.cons_append, scanDirective_word hword hafter, hdirective]
    | some directive =>
      obtain rfl := Directive.word_of_ofWord? hdirective
      rw [hdirective] at h
      refine (scanArguments_stops directive h).lift ('%'.toUInt8 :: directive.word)
        (fun _ hread => hread) fun other fault hn herror => ?_
      rw [← startsWith_congr (by decide) hn] at hafter
      rw [List.cons_append, scanDirective_word hword hafter, hdirective]
      exact herror
  · have hread : ∀ body, ¬ startsWith isNameStart body = true →
        scanDirective ('%'.toUInt8 :: body) = .error ⟨.expected .directiveName, body⟩ := by
      intro body hbody
      exact if_neg hbody
    cases (hread body hstart).symm.trans h
    have hpercent : BeginsStatement ['%'.toUInt8] :=
      ⟨.directive .push [] none, "push()", ⟨rfl, by simp⟩, rfl⟩
    refine @Stops.here _ _ _ _ _ _ hpercent fun other hn => hread other ?_
    rwa [startsWith_congr (by decide) hn]

theorem endsHere_congr (hn : nextByte other = nextByte rest) : endsHere other = endsHere rest := by
  have heq : ∀ s, endsHere s = (isSeparator (nextByte s) || nextByte s = '#'.toUInt8) := by
    intro s
    cases s with
    | nil => rfl
    | cons c s => rfl
  rw [heq, heq, hn]

/-- What is missed behind a push operation can still be given, behind another blank. -/
private theorem scanPush_stops {operation : Operation} {gap : Bytes}
    (hop : operation ∈ Operation.table ∧ operation.encoding.hasImmediate = true)
    (hgap : gap.all isBlank = true) (h : scanPush operation gap s = .error fault) :
    Stops (scanPush operation gap)
      (fun read => BeginsStatement (operation.mnemonic ++ (gap ++ read))) s fault := by
  have hpush : BeginsStatement (operation.mnemonic ++ (gap ++ [])) := by
    have hlonger : (gap ++ [' '.toUInt8]).all isBlank = true := by
      rw [List.all_append, hgap]
      rfl
    refine ⟨.push operation (gap ++ [' '.toUInt8]) (.label "a"), " a",
      ⟨hop, ⟨by simp, hlonger⟩, (by decide : IsName "a")⟩, ?_⟩
    simp [Statement.text, Operand.text]
    rfl
  by_cases hends : endsHere s = true
  · rw [scanPush, if_pos hends] at h
    cases h
    refine @Stops.here _ _ _ _ [] _ hpush fun other hn => ?_
    rw [List.nil_append, scanPush, if_pos ((endsHere_congr hn).trans hends)]
    rfl
  · have hother : ∀ other, nextByte other = nextByte s → ¬ endsHere other = true := by
      intro other hn
      rwa [endsHere_congr hn]
    by_cases hempty : gap = []
    · rw [scanPush, if_neg hends, if_pos hempty] at h
      cases h
      refine @Stops.here _ _ _ _ [] _ hpush fun other hn => ?_
      rw [List.nil_append, scanPush, if_neg (hother other hn), if_pos hempty]
      rfl
    · rw [scanPush, if_neg hends, if_neg hempty] at h
      rcases scan_bind_eq_error.mp h with hoperand | ⟨operand, -, hdone⟩
      · refine (scanOperand_stops hoperand).lift [] ?_ fun other fault hn herror => ?_
        · rintro read ⟨operand, tail, hvalid, htext⟩
          refine ⟨.push operation gap operand, tail, ⟨hop, ⟨hempty, hgap⟩, hvalid⟩, ?_⟩
          simp [Statement.text, htext]
        · rw [List.nil_append, scanPush, if_neg (hother other hn), if_neg hempty]
          exact scan_bind_eq_error.mpr (.inl herror)
      · cases hdone

/-- Behind a name and blanks, the byte that comes next tells how reading goes on. -/
private theorem scanStatement_blanks {name after : Bytes} (hname : IsName name)
    (hafter : startsWith isNameChar after = false)
    (hn : nextByte other = nextByte (after.dropWhile isBlank)) :
    scanStatement (name ++ (after.takeWhile isBlank ++ other)) =
      if startsWith (· = ':'.toUInt8) (after.dropWhile isBlank) then
        .ok (.label name (after.takeWhile isBlank), other.drop 1)
      else
        match Operation.ofMnemonic? name with
        | none => fail (.unknownInstruction name) (name ++ (after.takeWhile isBlank ++ other))
        | some operation =>
          if operation.encoding.hasImmediate then
            scanPush operation (after.takeWhile isBlank) other
          else .ok (.plain operation, after.takeWhile isBlank ++ other) := by
  obtain ⟨htake, hdrop, hnext⟩ := blanks_resume hn
  rw [← startsWith_congr (by decide) hnext] at hafter
  have hread := scanStatement_name hname hafter
  rw [htake, hdrop, startsWith_congr (by decide) hn] at hread
  exact hread

theorem scanStatement_stops (h : scanStatement s = .error fault) :
    Stops scanStatement BeginsStatement s fault := by
  by_cases hpercent : startsWith (· = '%'.toUInt8) s = true
  · rw [scanStatement, if_pos hpercent] at h
    refine (scanDirective_stops hpercent h).lift [] (fun _ hread => hread) ?_
    intro other fault hn herror
    rw [← startsWith_congr (by decide) hn] at hpercent
    rw [List.nil_append, scanStatement, if_pos hpercent, herror]
  · by_cases hstart : startsWith isNameStart s = true
    · obtain ⟨name, after, rfl, hname, hafter⟩ := exists_name hstart
      have hsplit := List.takeWhile_append_dropWhile (p := isBlank) (l := after)
      have hread := fun other => @scanStatement_blanks other name after hname hafter
      rw [← hsplit, hread _ rfl] at h
      rw [← hsplit, ← List.append_assoc]
      split at h
      · cases h
      · rename_i hcolon
        cases hop : Operation.ofMnemonic? name with
        | none =>
          rw [hop] at h
          cases h
          rw [← List.append_assoc]
          refine Stops.atWord rfl begins_statement fun other hn => ?_
          rw [List.append_assoc, hread other hn, if_neg hcolon, hop]
          rfl
        | some operation =>
          obtain ⟨hmem, rfl⟩ := Operation.ofMnemonic?_eq_some_iff.mp hop
          rw [hop] at h
          dsimp only at h
          split at h
          · rename_i himm
            have hstops := scanPush_stops ⟨hmem, himm⟩ List.all_takeWhile h
            refine hstops.lift _ (fun _ hgoes => by rwa [List.append_assoc]) ?_
            intro other fault hn herror
            rw [List.append_assoc, hread other hn, if_neg hcolon, hop]
            dsimp only
            rw [if_pos himm, herror]
          · cases h
    · rw [scanStatement, if_neg hpercent, if_neg hstart] at h
      cases h
      refine Stops.here begins_statement fun other hn => ?_
      rw [← startsWith_congr (by decide) hn] at hpercent hstart
      rw [List.nil_append, scanStatement, if_neg hpercent, if_neg hstart]
      rfl

private theorem scanDirective_eq_ok {statement : Statement}
    (h : scanDirective s = .ok (statement, rest)) :
    ∃ directive pad actuals, statement = .directive directive pad actuals := by
  simp only [scanDirective] at h
  split at h
  · split at h
    · cases h
    · obtain ⟨list, -, h⟩ := scan_bind_eq_ok.mp h
      obtain ⟨⟨actuals, after⟩, -, h⟩ := scan_bind_eq_ok.mp h
      obtain ⟨last, -, h⟩ := scan_bind_eq_ok.mp h
      cases h
      exact ⟨_, _, _, rfl⟩
  · cases h

private theorem scanPush_resumes {operation : Operation} {gap : Bytes} {statement : Statement}
    (h : scanPush operation gap s = .ok (statement, rest)) :
    ∃ operand, s = operand.text ++ rest ∧ statement = .push operation gap operand ∧
      ∀ other, nextByte other = nextByte rest →
        scanPush operation gap (operand.text ++ other) = .ok (statement, other) := by
  by_cases hends : endsHere s = true
  · rw [scanPush, if_pos hends] at h
    cases h
  · by_cases hempty : gap = []
    · rw [scanPush, if_neg hends, if_pos hempty] at h
      cases h
    · rw [scanPush, if_neg hends, if_neg hempty] at h
      obtain ⟨⟨operand, after⟩, hread, h⟩ := scan_bind_eq_ok.mp h
      cases h
      have hs := scanOperand_text hread
      refine ⟨operand, hs, rfl, fun other hn => ?_⟩
      rw [hs, ← endsHere_congr (nextByte_append hn _)] at hends
      rw [scanPush, if_neg hends, if_neg hempty]
      exact scan_bind_eq_ok.mpr ⟨_, scanOperand_resumes hread hn, rfl⟩

/-- What is read as a statement is decided by its text and the byte behind it, blanks apart. -/
theorem scanStatement_resumes {statement : Statement} {gap : Bytes}
    (hgap : gap.all isBlank = true) (hblank : startsWith isBlank rest = false)
    (h : scanStatement s = .ok (statement, gap ++ rest)) (hn : nextByte other = nextByte rest) :
    scanStatement (statement.text ++ (gap ++ other)) = .ok (statement, gap ++ other) := by
  have hvalid := scanStatement_valid h
  by_cases hpercent : startsWith (· = '%'.toUInt8) s = true
  · obtain ⟨directive, pad, actuals, rfl⟩ : ∃ directive pad actuals,
        statement = .directive directive pad actuals := by
      rw [scanStatement, if_pos hpercent] at h
      exact scanDirective_eq_ok h
    exact scanDirective_text_append hvalid _
  · by_cases hstart : startsWith isNameStart s = true
    · obtain ⟨name, after, rfl, hname, hafter⟩ := exists_name hstart
      rw [scanStatement_name hname hafter] at h
      split at h
      · rw [Except.ok.injEq, Prod.mk.injEq] at h
        obtain ⟨rfl, -⟩ := h
        exact scanStatement_label_append hname List.all_takeWhile _
      · rename_i hcolon
        cases hop : Operation.ofMnemonic? name with
        | none =>
          rw [hop] at h
          cases h
        | some operation =>
          obtain ⟨hmem, rfl⟩ := Operation.ofMnemonic?_eq_some_iff.mp hop
          rw [hop] at h
          dsimp only at h
          split at h
          · rename_i himm
            obtain ⟨operand, hs, rfl, hpush⟩ := scanPush_resumes h
            have hnext := nextByte_append (nextByte_append hn gap) operand.text
            have hread := scanStatement_blanks hname hafter (hs ▸ hnext)
            rw [if_neg hcolon, hop] at hread
            dsimp only at hread
            rw [if_pos himm, hpush _ (nextByte_append hn gap)] at hread
            rw [← hread]
            simp [Statement.text]
          · rename_i himm
            rw [Except.ok.injEq, Prod.mk.injEq] at h
            obtain ⟨rfl, rfl⟩ := h
            have htake := takeWhile_run hgap hblank
            have hdrop := dropWhile_run hgap hblank
            have hread := scanStatement_blanks hname hafter (hdrop.symm ▸ hn)
            rw [htake, if_neg hcolon, hop] at hread
            rw [Statement.text, hread]
            exact if_neg himm
    · rw [scanStatement, if_neg hpercent, if_neg hstart] at h
      cases h

end EvmAssembly
