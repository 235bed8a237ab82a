import EvmAssembly.Proofs.ColourRemoval
import EvmAssembly.Proofs.LineDerivation

/-!
# Boxes as they are shown

A box is shown as rows of text, each of them a line of the output if its text is one. Without the
escape sequences a row is the text between two bars, filled up with blanks.
-/

namespace EvmAssembly

variable {colours : Bool} {title text first last parameters : Bytes} {lines rows : List Bytes}

theorem splitOn_lines {lines : List Bytes} (h : ∀ line ∈ lines, newline ∉ line) :
    (lines.flatMap (· ++ [newline])).splitOn newline = lines ++ [[]] := by
  induction lines with
  | nil => rfl
  | cons line lines ih =>
    obtain ⟨hline, hlines⟩ := List.forall_mem_cons.mp h
    rw [List.flatMap_cons, List.append_assoc, splitOn_append_of_notMem hline,
      List.singleton_append, splitOn_newline, ih hlines]
    simp

theorem Printout.render_append (colours : Bool) (first second : Printout) :
    Printout.render colours (first ++ second) =
      Printout.render colours first ++ Printout.render colours second := List.flatMap_append

/-- A line that is not the first can be found behind any text. -/
theorem mem_splitOn_lines {front back : List Bytes} {line : Bytes} (hfront : front ≠ [])
    (hline : newline ∉ line) (before : Bytes) :
    line ∈ (before ++ (front ++ line :: back).flatMap (· ++ [newline])).splitOn newline := by
  obtain ⟨first, last, rfl⟩ := (List.eq_nil_or_concat front).resolve_left hfront
  have htext : before ++ (first.concat last ++ line :: back).flatMap (· ++ [newline]) =
      (before ++ first.flatMap (· ++ [newline]) ++ last) ++
        newline :: (line ++ newline :: back.flatMap (· ++ [newline])) := by
    simp
  rw [htext, List.splitOn_append_cons_self, splitOn_append_of_notMem hline, splitOn_newline]
  exact List.mem_append_right _ (by simp)

theorem newline_notMem_shade {parameters : Bytes} (h : newline ∉ parameters) (colours : Bool) :
    newline ∉ shade colours parameters := by
  cases colours with
  | false => exact List.not_mem_nil
  | true =>
    simp only [shade, if_true, List.mem_append, not_or]
    exact ⟨⟨by decide, h⟩, by decide⟩

/-- A rule of a box, between two corners. -/
def ruleText (colours : Bool) (width : Nat) (first last : Bytes) : Bytes :=
  shade colours "1;35" ++ first ++ (List.replicate (width + 2) (utf8 "═")).flatten ++ last ++
    shade colours "0"

/-- A text in a box, filled up with blanks to its width. -/
def rowText (colours : Bool) (width : Nat) (parameters text : Bytes) : Bytes :=
  shade colours "1;35" ++ "║ " ++ shade colours parameters ++ text ++
    List.replicate (width - text.length) ' '.toUInt8 ++ shade colours "1;35" ++ " ║" ++
    shade colours "0"

/-- The rows of a box with a title, lines below it and a rule around each part. It is as wide as the
widest of its texts. -/
inductive IsBox (colours : Bool) (title : Bytes) (lines : List Bytes) : List Bytes → Prop where
  | rows {width : Nat} (fits : ∀ text ∈ title :: lines, text.length ≤ width)
      (reached : ∃ text ∈ title :: lines, text.length = width) :
      IsBox colours title lines
        (ruleText colours width "╔" "╗" :: rowText colours width "1;36" title ::
          ruleText colours width "╠" "╣" ::
          (lines.map (rowText colours width "1;32") ++ [ruleText colours width "╚" "╝"]))

theorem widest_spec (title : Bytes) (lines : List Bytes) :
    (∀ text ∈ title :: lines, text.length ≤ widest (title :: lines)) ∧
      ∃ text ∈ title :: lines, text.length = widest (title :: lines) := by
  obtain ⟨width, hwidth⟩ : ∃ width, ((title :: lines).map List.length).max? = some width :=
    Option.isSome_iff_exists.mp (by simp)
  have hwidest : widest (title :: lines) = width := by
    rw [widest, List.foldl_max, hwidth, Option.getD_some, Nat.zero_max]
  obtain ⟨hmem, hle⟩ := List.max?_eq_some_iff.mp hwidth
  obtain ⟨text, htext, hlength⟩ := List.mem_map.mp hmem
  rw [hwidest]
  exact ⟨fun text htext => hle _ (List.mem_map_of_mem htext), text, htext, hlength⟩

theorem utf8_newline : utf8 "\n" = [newline] := rfl

theorem render_colouredLine (colours : Bool) (colour : Colour) (text : Bytes) :
    (colouredLine colour text).render colours =
      shade colours colour.parameters ++ text ++ shade colours "0" ++ [newline] := by
  simp [colouredLine, Printout.render, Piece.render_colour, Piece.render_text, Colour.parameters,
    utf8_newline]

theorem render_boxLine (colours : Bool) (width : Nat) (colour : Colour) (line : Bytes) :
    (boxLine width colour line).render colours =
      rowText colours width colour.parameters line ++ [newline] := by
  simp [boxLine, rowText, blanksTo, Printout.render, Piece.render_colour, Piece.render_text,
    Colour.parameters, utf8_newline]

/-- What is shown of a box. -/
theorem render_box (colours : Bool) (title : Bytes) (lines : List Bytes) :
    ∃ rows, IsBox colours title lines rows ∧
      (box title lines).render colours = rows.flatMap (· ++ [newline]) := by
  obtain ⟨hfits, hreached⟩ := widest_spec title lines
  refine ⟨_, .rows hfits hreached, ?_⟩
  have hlines (width : Nat) : Printout.render colours (lines.flatMap (boxLine width .operand)) =
      (lines.map (rowText colours width "1;32")).flatMap (· ++ [newline]) := by
    rw [Printout.render, List.flatMap_assoc, List.flatMap_map]
    exact congrArg (List.flatMap · lines) (funext (render_boxLine colours width .operand))
  simp only [box, Printout.render_append, render_colouredLine, render_boxLine, hlines]
  simp [ruleText, Colour.parameters]

/-- A text that takes one line and holds no escape character. -/
def IsOneLine (text : Bytes) : Prop := newline ∉ text ∧ MadeFrom [] text

theorem isOneLine_append {first second : Bytes} (hfirst : IsOneLine first)
    (hsecond : IsOneLine second) : IsOneLine (first ++ second) :=
  ⟨fun hmem => (List.mem_append.mp hmem).elim hfirst.1 hsecond.1,
    madeFrom_append.mpr ⟨hfirst.2, hsecond.2⟩⟩

theorem isOneLine_word {characters : List Char} (h : (characters.all (' ' ≤ ·)) = true) :
    IsOneLine (utf8 (String.ofList characters)) := by
  refine ⟨newline_notMem_word h, madeFrom_word ?_⟩
  rw [List.all_eq_true] at h ⊢
  intro c hc
  rw [h c hc, Bool.true_or]

theorem isOneLine_decimal (n : Nat) : IsOneLine (decimal n) :=
  ⟨newline_notMem_of_all (decimal_all_digits n) (by decide), madeFrom_decimal n⟩

theorem isOneLine_bar (n : Nat) : IsOneLine (List.replicate n (utf8 "═")).flatten := by
  refine ⟨?_, madeFrom_bar n⟩
  intro hmem
  obtain ⟨mark, hmark, hmem⟩ := List.mem_flatten.mp hmem
  rw [List.eq_of_mem_replicate hmark] at hmem
  exact newline_notMem_word rfl hmem

theorem isOneLine_blanks (n : Nat) : IsOneLine (List.replicate n ' '.toUInt8) := by
  constructor
  · intro hmem
    exact absurd (List.eq_of_mem_replicate hmem) (by decide)
  · intro c hc
    rw [List.eq_of_mem_replicate hc]
    exact .inl rfl

theorem IsOneLine.escape_notMem {text : Bytes} (h : IsOneLine text) : escape ∉ text :=
  h.2.notMem rfl List.not_mem_nil

theorem IsOneLine.withoutEscapes_append {text : Bytes} (h : IsOneLine text) (s : Bytes) :
    withoutEscapes (text ++ s) = text ++ withoutEscapes s :=
  EvmAssembly.withoutEscapes_append h.escape_notMem s

theorem withoutEscapes_reset (colours : Bool) : withoutEscapes (shade colours "0") = [] := by
  have hreset := @withoutEscapes_shade (utf8 "0") (by decide) colours []
  rwa [List.append_nil, withoutEscapes_nil] at hreset

theorem withoutEscapes_ruleText (hfirst : IsOneLine first) (hlast : IsOneLine last)
    (colours : Bool) (width : Nat) :
    withoutEscapes (ruleText colours width first last) =
      first ++ ((List.replicate (width + 2) (utf8 "═")).flatten ++ last) := by
  have hframe : (utf8 "1;35").all isParameter = true := by decide
  simp only [ruleText, List.append_assoc]
  rw [withoutEscapes_shade hframe, hfirst.withoutEscapes_append,
    (isOneLine_bar _).withoutEscapes_append, hlast.withoutEscapes_append, withoutEscapes_reset,
    List.append_nil]

theorem withoutEscapes_rowText (hparameters : parameters.all isParameter = true)
    (htext : IsOneLine text) (colours : Bool) (width : Nat) :
    withoutEscapes (rowText colours width parameters text) =
      utf8 "║ " ++ text ++ List.replicate (width - text.length) ' '.toUInt8 ++ utf8 " ║" := by
  have hframe : (utf8 "1;35").all isParameter = true := by decide
  have hleft : IsOneLine (utf8 "║ ") := isOneLine_word rfl
  have hright : IsOneLine (utf8 " ║") := isOneLine_word rfl
  simp only [rowText, List.append_assoc]
  rw [withoutEscapes_shade hframe, hleft.withoutEscapes_append, withoutEscapes_shade hparameters,
    htext.withoutEscapes_append, (isOneLine_blanks _).withoutEscapes_append,
    withoutEscapes_shade hframe, hright.withoutEscapes_append, withoutEscapes_reset,
    List.append_nil]

theorem newline_notMem_ruleText (hfirst : IsOneLine first) (hlast : IsOneLine last)
    (colours : Bool) (width : Nat) : newline ∉ ruleText colours width first last := by
  simp only [ruleText, List.mem_append, not_or]
  exact ⟨⟨⟨⟨newline_notMem_shade (by decide) _, hfirst.1⟩, (isOneLine_bar _).1⟩, hlast.1⟩,
    newline_notMem_shade (by decide) _⟩

theorem newline_notMem_rowText (hparameters : newline ∉ parameters) (htext : IsOneLine text)
    (colours : Bool) (width : Nat) : newline ∉ rowText colours width parameters text := by
  simp only [rowText, List.mem_append, not_or]
  exact ⟨⟨⟨⟨⟨⟨⟨newline_notMem_shade (by decide) _, newline_notMem_word rfl⟩,
    newline_notMem_shade hparameters _⟩, htext.1⟩, (isOneLine_blanks _).1⟩,
    newline_notMem_shade (by decide) _⟩, newline_notMem_word rfl⟩,
    newline_notMem_shade (by decide) _⟩

/-- What the rows of a box begin with. -/
def rowBeginnings (texts : List Bytes) : List Bytes :=
  [utf8 "╔", utf8 "╠", utf8 "╚"] ++ texts.map (utf8 "║ " ++ ·)

/-- A row takes one line, and begins as given when its escape sequences are taken out. -/
structure IsRow (beginning row : Bytes) : Prop where
  oneLine : newline ∉ row
  begins : beginning <+: withoutEscapes row

theorem ruleText_isRow (hfirst : IsOneLine first) (hlast : IsOneLine last) (colours : Bool)
    (width : Nat) : IsRow first (ruleText colours width first last) where
  oneLine := newline_notMem_ruleText hfirst hlast colours width
  begins := by
    rw [withoutEscapes_ruleText hfirst hlast]
    exact List.prefix_append _ _

theorem rowText_isRow (hparameters : parameters.all isParameter = true) (htext : IsOneLine text)
    (colours : Bool) (width : Nat) :
    IsRow (utf8 "║ " ++ text) (rowText colours width parameters text) where
  oneLine := by
    refine newline_notMem_rowText ?_ htext colours width
    intro hmem
    exact absurd (List.all_eq_true.mp hparameters newline hmem) (by decide)
  begins := by
    rw [withoutEscapes_rowText hparameters htext, List.append_assoc]
    exact List.prefix_append _ _

theorem IsBox.isRow (h : IsBox colours title lines rows)
    (htexts : ∀ text ∈ title :: lines, IsOneLine text) :
    ∀ row ∈ rows, ∃ beginning ∈ rowBeginnings (title :: lines), IsRow beginning row := by
  obtain ⟨htitle, hlines⟩ := List.forall_mem_cons.mp htexts
  cases h with
  | @rows width fits reached =>
    intro row hrow
    simp only [List.mem_cons, List.mem_append, List.mem_map, List.not_mem_nil, or_false] at hrow
    rcases hrow with rfl | rfl | rfl | ⟨line, hline, rfl⟩ | rfl
    · exact ⟨_, by simp [rowBeginnings],
        ruleText_isRow (isOneLine_word rfl) (isOneLine_word rfl) _ _⟩
    · exact ⟨_, by simp [rowBeginnings], rowText_isRow (by decide) htitle _ _⟩
    · exact ⟨_, by simp [rowBeginnings],
        ruleText_isRow (isOneLine_word rfl) (isOneLine_word rfl) _ _⟩
    · exact ⟨_, by simp [rowBeginnings, hline], rowText_isRow (by decide) (hlines line hline) _ _⟩
    · exact ⟨_, by simp [rowBeginnings],
        ruleText_isRow (isOneLine_word rfl) (isOneLine_word rfl) _ _⟩

/-- The lines of a box, without their colours. -/
theorem IsBox.lines_begin (h : IsBox colours title lines rows)
    (htexts : ∀ text ∈ title :: lines, IsOneLine text) :
    ∀ line ∈ (rows.flatMap (· ++ [newline])).splitOn newline,
      line = [] ∨ ∃ beginning ∈ rowBeginnings (title :: lines),
        beginning <+: withoutEscapes line := by
  have hrows := h.isRow htexts
  have hnewline : ∀ row ∈ rows, newline ∉ row := by
    intro row hrow
    obtain ⟨beginning, -, hrow⟩ := hrows row hrow
    exact hrow.oneLine
  rw [splitOn_lines hnewline]
  intro line hline
  rcases List.mem_append.mp hline with hline | hline
  · obtain ⟨beginning, hbeginning, hrow⟩ := hrows line hline
    exact .inr ⟨beginning, hbeginning, hrow.begins⟩
  · exact .inl (List.mem_singleton.mp hline)

/-- A line of the output shows the text between two bars, with nothing but blanks behind it. -/
def ShowsRow (output text : Bytes) : Prop :=
  ∃ line ∈ output.splitOn newline, ∃ blanks : Nat,
    withoutEscapes line = utf8 "║ " ++ text ++ List.replicate blanks ' '.toUInt8 ++ utf8 " ║"

theorem showsRow_of_row {front back : List Bytes} (hfront : front ≠ [])
    (hparameters : parameters.all isParameter = true) (htext : IsOneLine text) (colours : Bool)
    (width : Nat) (before : Bytes) :
    ShowsRow (before ++ (front ++ rowText colours width parameters text :: back).flatMap
      (· ++ [newline])) text :=
  ⟨_, mem_splitOn_lines hfront (rowText_isRow hparameters htext colours width).oneLine before, _,
    withoutEscapes_rowText hparameters htext colours width⟩

/-- Each text of a box that takes one line is shown. -/
theorem IsBox.showsRow (h : IsBox colours title lines rows) (htext : text ∈ title :: lines)
    (honeLine : IsOneLine text) (before : Bytes) :
    ShowsRow (before ++ rows.flatMap (· ++ [newline])) text := by
  cases h with
  | @rows width fits reached =>
    rcases List.mem_cons.mp htext with rfl | hline
    · exact showsRow_of_row (List.cons_ne_nil (ruleText colours width "╔" "╗") []) (by decide)
        honeLine colours width before
    · obtain ⟨above, below, rfl⟩ := List.append_of_mem hline
      have hrow : ShowsRow (before ++ ((ruleText colours width "╔" "╗" ::
          rowText colours width "1;36" title :: ruleText colours width "╠" "╣" ::
            above.map (rowText colours width "1;32")) ++ rowText colours width "1;32" text ::
            (below.map (rowText colours width "1;32") ++
              [ruleText colours width "╚" "╝"])).flatMap (· ++ [newline])) text :=
        showsRow_of_row (List.cons_ne_nil _ _) (by decide) honeLine colours width before
      simpa using hrow

end EvmAssembly
