import EvmAssembly.Proofs.ListingRoundTrip
import EvmAssembly.Proofs.ShownBoxes
import EvmAssembly.Proofs.WrittenNumbers

/-!
# Lines of the outputs

The lines of a listing are told from those of the usage box and of a trace by what they begin with,
in colours or without. The lines of the usage box are written out.
-/

namespace EvmAssembly

namespace CommandLine

/-- What the rows of the box begin with that ends a listing. -/
def summaryLabels : List Bytes :=
  [utf8 "Parse successful", utf8 "Source: ", utf8 "Nodes:  ", utf8 "Size:   "]

/-- A line that a listing shows: that of a node behind its offset, or one of the box that ends the
listing. -/
inductive OfListing (line : Bytes) : Prop where
  | node {offset : Bytes} {node : Node}
      (located : offset = utf8 "????" ∨ ∃ n, IsWritten 16 4 n offset)
      (shown : line = offset ++ utf8 "  " ++ node.text)
  | summary {label : Bytes} (labelled : label ∈ summaryLabels)
      (shown : utf8 "║ " ++ label <+: line)

example : OfListing "????  add" :=
  @OfListing.node _ "????" (.instruction ⟨⟨"add", ⟨0x01, 0⟩⟩, none⟩) (.inl rfl) (by decide)

example : OfListing "║ Parse successful   ║" :=
  @OfListing.summary _ "Parse successful" (by simp [summaryLabels]) (by decide)

/-- What the line of a node can begin with. -/
def opensListing (c : UInt8) : Bool := isHexadecimalDigit c || c = '?'.toUInt8

/-- What the labels of the box begin with that ends a listing. -/
def opensSummary (c : UInt8) : Bool :=
  c = 'P'.toUInt8 || c = 'S'.toUInt8 || c = 'N'.toUInt8

theorem startsWith_offset {offset : Bytes}
    (h : offset = utf8 "????" ∨ ∃ n, IsWritten 16 4 n offset) :
    startsWith opensListing offset = true := by
  rcases h with rfl | ⟨n, hwritten⟩
  · rfl
  · cases offset with
    | nil => exact absurd hwritten.length (by decide)
    | cons c digits =>
      have hdigits : ((utf8 "0123456789abcdef").take 16).all isHexadecimalDigit = true := by decide
      have hdigit := List.all_eq_true.mp hdigits c (hwritten.digits c List.mem_cons_self)
      simp [opensListing, hdigit]

theorem offsetText_located (offset : Option UInt32) :
    offsetText offset = utf8 "????" ∨ ∃ n, IsWritten 16 4 n (offsetText offset) := by
  cases offset with
  | none => exact .inl rfl
  | some offset => exact .inr ⟨_, hexNumber_isWritten (by decide) _⟩

theorem startsWith_summaryLabels :
    ∀ label ∈ summaryLabels, startsWith opensSummary label = true := by
  decide

theorem OfListing.beginning {line : Bytes} (h : OfListing line) :
    startsWith opensListing line = true ∨
      ∃ label ∈ summaryLabels, utf8 "║ " ++ label <+: line := by
  cases h with
  | node located shown =>
    rw [shown, List.append_assoc]
    exact .inl (startsWith_append (startsWith_offset located) _)
  | summary labelled shown => exact .inr ⟨_, labelled, shown⟩

theorem not_ofListing_nil : ¬ OfListing [] := by
  intro h
  rcases h.beginning with hstarts | ⟨label, -, hprefix⟩
  · cases hstarts
  · simp [utf8] at hprefix

/-- A line is told from those of listings by its beginning. -/
theorem not_ofListing {beginning line : Bytes} (h : beginning <+: line)
    (hopens : startsWith (fun c => !opensListing c) beginning = true)
    (hlabels : ∀ label ∈ summaryLabels,
      ¬ beginning <+: utf8 "║ " ++ label ∧ ¬ utf8 "║ " ++ label <+: beginning) :
    ¬ OfListing line := by
  intro hlisting
  rcases hlisting.beginning with hstarts | ⟨label, hlabel, hshown⟩
  · obtain ⟨c, tail, rfl, hc⟩ := startsWith_eq_true hopens
    obtain ⟨rest, rfl⟩ := h
    have hopen : opensListing c = true := hstarts
    simp [hopen] at hc
  · obtain ⟨hshort, hlong⟩ := hlabels label hlabel
    exact (List.prefix_or_prefix_of_prefix h hshown).elim hshort hlong

theorem not_ofListing_row {text line : Bytes} (h : utf8 "║ " ++ text <+: line)
    (htext : startsWith (fun c => !opensSummary c) text = true) : ¬ OfListing line := by
  obtain ⟨c, tail, rfl, hc⟩ := startsWith_eq_true htext
  refine not_ofListing h rfl ?_
  intro label hlabel
  obtain ⟨d, rest, rfl, hd⟩ := startsWith_eq_true (startsWith_summaryLabels label hlabel)
  have hne : c ≠ d := by
    rintro rfl
    simp [hd] at hc
  rw [List.prefix_append_right_inj, List.prefix_append_right_inj, List.cons_prefix_cons,
    List.cons_prefix_cons]
  exact ⟨fun hprefix => hne hprefix.1, fun hprefix => hne hprefix.1.symm⟩

theorem startsWith_word {inClass : UInt8 → Bool} {c : Char} {characters : List Char}
    (h : startsWith inClass (String.utf8EncodeChar c) = true) :
    startsWith inClass (utf8 (String.ofList (c :: characters))) = true := by
  rw [utf8, String.toList_ofList, List.flatMap_cons]
  exact startsWith_append h _

/-- The title of the usage box. -/
def usageTitle : Bytes := "evmasm 0.3.0 Usage"

/-- The lines of the usage box. -/
def usageTexts : List Bytes :=
  ["Usage: evmasm [options] [mode] <argument>",
    "Modes:",
    "  -p <file>        Parse a source file and list its nodes (default).",
    "  -s <signature>   Print the selector of a function signature.",
    "  -t               Print the opcode table.",
    "Options:",
    "  -d, --debug      Trace every parsed node.",
    "  --no-color       Disable ANSI colors.",
    "Examples:",
    "  evmasm contract.etk",
    "  evmasm -s \"transfer(address,uint256)\""]

theorem usage_eq : usage = box usageTitle usageTexts := by
  have htitle : utf8 "evmasm " ++ version ++ utf8 " Usage" = usageTitle := by decide +kernel
  rw [usage, htitle]
  rfl

theorem usage_texts : ∀ text ∈ usageTitle :: usageTexts,
    IsOneLine text ∧ startsWith (fun c => !opensSummary c) text = true := by
  have htext {c : Char} {characters : List Char}
      (hline : ((c :: characters).all (' ' ≤ ·)) = true)
      (hfirst : startsWith (fun c => !opensSummary c) (String.utf8EncodeChar c) = true) :
      IsOneLine (utf8 (String.ofList (c :: characters))) ∧
        startsWith (fun c => !opensSummary c) (utf8 (String.ofList (c :: characters))) = true :=
    ⟨isOneLine_word hline, startsWith_word hfirst⟩
  simp only [usageTexts, List.forall_mem_cons]
  exact ⟨htext rfl rfl, htext rfl rfl, htext rfl rfl, htext rfl rfl, htext rfl rfl, htext rfl rfl,
    htext rfl rfl, htext rfl rfl, htext rfl rfl, htext rfl rfl, htext rfl rfl, htext rfl rfl,
    List.forall_mem_nil _⟩

/-- The usage has no line of a listing. -/
theorem usage_lines {colours : Bool} {rows : List Bytes}
    (h : IsBox colours usageTitle usageTexts rows) :
    ∀ line ∈ (rows.flatMap (· ++ [newline])).splitOn newline,
      ¬ OfListing (withoutEscapes line) := by
  intro line hline
  rcases h.lines_begin (fun text htext => (usage_texts text htext).1) line hline with
    rfl | ⟨beginning, hbeginning, hbegins⟩
  · rw [withoutEscapes_nil]
    exact not_ofListing_nil
  · rcases List.mem_append.mp hbeginning with hcorner | hrow
    · have hcorners : ∀ corner ∈ [utf8 "╔", utf8 "╠", utf8 "╚"],
          startsWith (fun c => !opensListing c) corner = true ∧ ∀ label ∈ summaryLabels,
            ¬ corner <+: utf8 "║ " ++ label ∧ ¬ utf8 "║ " ++ label <+: corner := by
        decide
      obtain ⟨hopens, hlabels⟩ := hcorners beginning hcorner
      exact not_ofListing hbegins hopens hlabels
    · obtain ⟨text, htext, rfl⟩ := List.mem_map.mp hrow
      exact not_ofListing_row hbegins (usage_texts text htext).2

/-- The lines of a trace. -/
theorem traceOf_lines (debug : Bool) (source : Bytes) :
    ∃ lines : List Bytes, traceOf debug source = lines.flatMap (Parser.mk debug).say ∧
      ∀ line ∈ lines, newline ∉ line := by
  obtain ⟨lines, hprinted, hlines⟩ := (Parser.mk debug).parse_lines source
  have hdecimal (n : Nat) : newline ∉ decimal n :=
    newline_notMem_of_all (decimal_all_digits n) (by decide)
  refine ⟨utf8 "Debug mode enabled." :: lines, ?_, ?_⟩
  · rw [traceOf, hprinted]
    rfl
  · refine List.forall_mem_cons.mpr ⟨newline_notMem_word rfl, ?_⟩
    intro line hline
    rcases hlines line hline with rfl | ⟨nodes, rfl⟩ |
      ⟨place, node, ⟨statements, statement, hreads, hstatement, hnode⟩, rfl⟩
    · simp only [Parser.header, List.mem_append, not_or]
      exact ⟨⟨newline_notMem_word rfl, hdecimal _⟩, newline_notMem_word rfl⟩
    · simp only [Parser.footer, List.mem_append, not_or]
      exact ⟨⟨newline_notMem_word rfl, hdecimal _⟩, newline_notMem_word rfl⟩
    · have hplace : newline ∉ place.text := by
        rw [Location.text]
        split
        · simp only [List.mem_append, not_or]
          exact ⟨⟨⟨newline_notMem_word rfl, hdecimal _⟩, newline_notMem_word rfl⟩, hdecimal _⟩
        · exact newline_notMem_word rfl
      have hnode := ((hreads.mem hstatement).1.node_wellFormed hnode).statement_valid.newline_notMem
      rw [Node.statement_text] at hnode
      simp only [Parser.nodeLine, List.mem_append, not_or]
      exact ⟨⟨⟨newline_notMem_word rfl, hplace⟩, newline_notMem_word rfl⟩, hnode⟩

/-- A trace has no line of a listing. -/
theorem traceOf_splitOn (debug : Bool) (source : Bytes) :
    ∀ line ∈ (traceOf debug source).splitOn newline, ¬ OfListing (withoutEscapes line) := by
  have hlast : ¬ OfListing (withoutEscapes []) := by
    rw [withoutEscapes_nil]
    exact not_ofListing_nil
  obtain ⟨lines, htrace, hlines⟩ := traceOf_lines debug source
  cases debug with
  | false =>
    have hquiet : lines.flatMap (Parser.mk false).say = [] := by
      simp [Parser.say]
    rw [htrace, hquiet]
    simpa using hlast
  | true =>
    have hshown : traceOf true source =
        (lines.map (utf8 "[Debug][Parser] " ++ ·)).flatMap (· ++ [newline]) := by
      rw [htrace, List.flatMap_map]
      rfl
    have hnewline : ∀ line ∈ lines.map (utf8 "[Debug][Parser] " ++ ·), newline ∉ line := by
      intro line hline
      obtain ⟨line, hmem, rfl⟩ := List.mem_map.mp hline
      simp only [List.mem_append, not_or]
      exact ⟨newline_notMem_word rfl, hlines line hmem⟩
    rw [hshown, splitOn_lines hnewline]
    intro line hline
    rcases List.mem_append.mp hline with hline | hline
    · obtain ⟨line, -, rfl⟩ := List.mem_map.mp hline
      have hescape : escape ∉ utf8 "[Debug][Parser] " := by decide
      rw [withoutEscapes_append hescape]
      exact not_ofListing (List.prefix_append _ _) rfl (by decide)
    · rw [List.mem_singleton.mp hline]
      exact hlast

end CommandLine
end EvmAssembly
