import EvmAssembly.ProgramSession
import EvmAssembly.Proofs.ListingOffsets
import EvmAssembly.Proofs.PathNames

/-!
# Equality of programs

Programs are the same if their nodes are, one by one: instructions by their encoding and immediate,
labels by their names, and files by the way they are brought in and their paths, in which slashes in
a row are one. This is an equivalence, and programs with the same listing are the same.
-/

namespace EvmAssembly

variable {node other : Node} {nodes others : List Node}

/-- Neither has an immediate, or both have the same bytes, or the address of the same label. -/
inductive SameImmediate : Option Immediate → Option Immediate → Prop where
  | none : SameImmediate none none
  | bytes (value : Bytes) : SameImmediate (some (.bytes value)) (some (.bytes value))
  | label (name : Bytes) : SameImmediate (some (.label name)) (some (.label name))

theorem sameImmediate_iff {first second : Option Immediate} :
    SameImmediate first second ↔ first = second := by
  constructor
  · intro h
    cases h <;> rfl
  · rintro rfl
    cases first with
    | none => exact .none
    | some immediate =>
      cases immediate with
      | bytes value => exact .bytes value
      | label name => exact .label name

/-- The nodes stand for the same code. -/
inductive Node.Equivalent : Node → Node → Prop where
  | instruction {first second : Instruction}
      (encoding : first.operation.encoding = second.operation.encoding)
      (immediate : SameImmediate first.immediate second.immediate) :
      Equivalent (.instruction first) (.instruction second)
  | label (name : Bytes) : Equivalent (.label name) (.label name)
  | pushLabel (name : Bytes) : Equivalent (.pushLabel name) (.pushLabel name)
  | inclusion {kind : Inclusion} {path another : Bytes}
      (collapsed : collapseSlashes path = collapseSlashes another) :
      Equivalent (.inclusion kind path) (.inclusion kind another)

theorem Node.same_iff : node.same other = true ↔ node.Equivalent other := by
  constructor
  · intro h
    unfold same at h
    split at h
    · rw [Bool.and_eq_true, decide_eq_true_eq, decide_eq_true_eq] at h
      exact .instruction h.1 (sameImmediate_iff.mpr h.2)
    · obtain rfl := of_decide_eq_true h
      exact .label _
    · obtain rfl := of_decide_eq_true h
      exact .pushLabel _
    · rw [Bool.and_eq_true, decide_eq_true_eq, samePath_iff] at h
      obtain ⟨rfl, hpath⟩ := h
      exact .inclusion hpath
    · cases h
  · intro h
    cases h with
    | instruction hencoding himmediate =>
      simp [same, hencoding, sameImmediate_iff.mp himmediate]
    | label => simp [same]
    | pushLabel => simp [same]
    | inclusion hpath => simp [same, samePath_iff, hpath]

theorem Node.equivalent_equivalence : Equivalence Node.Equivalent where
  refl node := by
    cases node with
    | instruction value => exact .instruction rfl (sameImmediate_iff.mpr rfl)
    | label name => exact .label name
    | pushLabel name => exact .pushLabel name
    | inclusion kind path => exact .inclusion rfl
  symm h := by
    cases h with
    | instruction hencoding himmediate =>
      have hsame := (sameImmediate_iff.mp himmediate).symm
      exact .instruction hencoding.symm (sameImmediate_iff.mpr hsame)
    | label name => exact .label name
    | pushLabel name => exact .pushLabel name
    | inclusion hpath => exact .inclusion hpath.symm
  trans h h' := by
    cases h with
    | instruction hencoding himmediate =>
      cases h' with
      | instruction hencoding' himmediate' =>
        have hsame := (sameImmediate_iff.mp himmediate).trans (sameImmediate_iff.mp himmediate')
        exact .instruction (hencoding.trans hencoding') (sameImmediate_iff.mpr hsame)
    | label => exact h'
    | pushLabel => exact h'
    | inclusion hpath =>
      cases h' with
      | inclusion hpath' => exact .inclusion (hpath.trans hpath')

/-- As many nodes, and at each position two that stand for the same code. -/
def EquivalentPrograms (nodes others : List Node) : Prop :=
  nodes.length = others.length ∧
    ∀ (i : Nat) (node other : Node), nodes[i]? = some node → others[i]? = some other →
      node.Equivalent other

theorem equivalentPrograms_cons :
    EquivalentPrograms (node :: nodes) (other :: others) ↔
      node.Equivalent other ∧ EquivalentPrograms nodes others := by
  constructor
  · rintro ⟨hlength, hnodes⟩
    refine ⟨hnodes 0 node other rfl rfl, Nat.succ.inj hlength, ?_⟩
    intro i first second hfirst hsecond
    exact hnodes (i + 1) first second hfirst hsecond
  · rintro ⟨hnode, hlength, hnodes⟩
    refine ⟨congrArg Nat.succ hlength, ?_⟩
    intro i first second hfirst hsecond
    cases i with
    | zero =>
      cases hfirst
      cases hsecond
      exact hnode
    | succ i => exact hnodes i first second hfirst hsecond

theorem sameProgram_iff :
    Node.sameProgram nodes others = true ↔ EquivalentPrograms nodes others := by
  induction nodes generalizing others with
  | nil =>
    cases others with
    | nil => simp [Node.sameProgram, EquivalentPrograms]
    | cons other others => simp [Node.sameProgram, EquivalentPrograms]
  | cons node nodes ih =>
    cases others with
    | nil => simp [Node.sameProgram, EquivalentPrograms]
    | cons other others =>
      rw [Node.sameProgram, Bool.and_eq_true, Node.same_iff, ih, equivalentPrograms_cons]

theorem equivalentPrograms_equivalence : Equivalence EquivalentPrograms where
  refl nodes := by
    refine ⟨rfl, ?_⟩
    intro i node other hnode hother
    cases hnode.symm.trans hother
    exact Node.equivalent_equivalence.refl node
  symm h := by
    refine ⟨h.1.symm, ?_⟩
    intro i node other hnode hother
    exact Node.equivalent_equivalence.symm (h.2 i other node hother hnode)
  trans {nodes others _} h h' := by
    refine ⟨h.1.trans h'.1, ?_⟩
    intro i node third hnode hthird
    have hi : i < others.length := h.1 ▸ (List.getElem?_eq_some_iff.mp hnode).1
    have hother := List.getElem?_eq_getElem hi
    exact Node.equivalent_equivalence.trans (h.2 i node _ hnode hother)
      (h'.2 i _ third hother hthird)

/-- A well-formed node is told by its text. -/
theorem Node.WellFormed.text_injective (h : node.WellFormed) (hother : other.WellFormed)
    (htext : node.text = other.text) : node = other := by
  rw [← node.statement_text, ← other.statement_text] at htext
  have hsame := h.statement_valid.text_injective hother.statement_valid htext
  have hnode := h.statement_node .start
  rw [hsame, hother.statement_node] at hnode
  exact (Except.ok.inj hnode).symm

theorem eq_of_map_text (h : ∀ node ∈ nodes, node.WellFormed)
    (hothers : ∀ node ∈ others, node.WellFormed)
    (htexts : nodes.map Node.text = others.map Node.text) : nodes = others := by
  induction nodes generalizing others with
  | nil => exact (List.map_eq_nil_iff.mp htexts.symm).symm
  | cons node nodes ih =>
    cases others with
    | nil => cases htexts
    | cons other others =>
      obtain ⟨hnode, hnodes⟩ := List.forall_mem_cons.mp h
      obtain ⟨hother, hrest⟩ := List.forall_mem_cons.mp hothers
      obtain ⟨htext, htexts⟩ := List.cons.inj htexts
      rw [hnode.text_injective hother htext, ih hnodes hrest htexts]

namespace CommandLine

variable {colours : Bool} {offset : Option UInt32}

theorem append_newline_inj {line another rest more : Bytes} (hline : newline ∉ line)
    (hanother : newline ∉ another) (h : line ++ newline :: rest = another ++ newline :: more) :
    line = another ∧ rest = more := by
  have hall {text : Bytes} (htext : newline ∉ text) : text.all (· ≠ newline) = true := by
    rw [List.all_eq_true]
    intro c hc
    exact decide_eq_true fun heq => htext (heq ▸ hc)
  have hends (s : Bytes) : startsWith (· ≠ newline) (newline :: s) = false := by simp
  have hfirst := congrArg (List.takeWhile (· ≠ newline)) h
  have hsecond := congrArg (List.dropWhile (· ≠ newline)) h
  rw [takeWhile_run (hall hline) (hends _), takeWhile_run (hall hanother) (hends _)] at hfirst
  rw [dropWhile_run (hall hline) (hends _), dropWhile_run (hall hanother) (hends _)] at hsecond
  exact ⟨hfirst, List.tail_eq_of_cons_eq hsecond⟩

theorem text_eq_of_listingLine {shown : Bytes}
    (h : listingLine colours shown node = listingLine colours shown other) :
    node.text = other.text := by
  simp only [listingLine, List.append_assoc, List.append_cancel_left_eq] at h
  exact List.append_cancel_right h

/-- A box does not begin as the line of a node does. -/
theorem box_ne_listingLine (title : Bytes) (lines : List Bytes) (rest : Bytes) :
    (box title lines).render colours ≠ listingLine colours (offsetText offset) node ++ rest := by
  obtain ⟨frame, hframe⟩ : ∃ frame, (box title lines).render colours =
      (if colours then Colour.hex.code else []) ++ 0xe2 :: frame := ⟨_, rfl⟩
  rw [hframe]
  intro h
  simp only [listingLine, List.append_assoc] at h
  cases colours with
  | true =>
    have hcodes : Colour.hex.code.length = (shade true "1;33").length := by decide
    exact absurd (List.append_inj_left h hcodes) (by decide)
  | false =>
    obtain ⟨c, digits, hoffset, hopens⟩ :=
      startsWith_eq_true (startsWith_offset (offsetText_located offset))
    rw [hoffset] at h
    have hframe : (0xe2 : UInt8) = c := (List.cons.inj h).1
    rw [← hframe] at hopens
    exact absurd hopens (by decide)

/-- The lines of a listing tell its nodes. -/
theorem eq_of_nodeLines {title another : Bytes} {lines more : List Bytes}
    (h : ∀ node ∈ nodes, node.WellFormed) (hothers : ∀ node ∈ others, node.WellFormed)
    (hlines : (nodeLines offset nodes).render colours ++ (box title lines).render colours =
      (nodeLines offset others).render colours ++ (box another more).render colours) :
    nodes = others := by
  induction nodes generalizing others offset with
  | nil =>
    cases others with
    | nil => rfl
    | cons other others =>
      rw [nodeLines, nodeLines, Printout.render_append, render_nodeLine, List.append_assoc,
        List.append_assoc] at hlines
      exact absurd hlines (box_ne_listingLine title lines _)
  | cons node nodes ih =>
    obtain ⟨hnode, hnodes⟩ := List.forall_mem_cons.mp h
    rw [nodeLines, Printout.render_append, render_nodeLine, List.append_assoc,
      List.append_assoc] at hlines
    cases others with
    | nil => exact absurd hlines.symm (box_ne_listingLine another more _)
    | cons other others =>
      obtain ⟨hother, hrest⟩ := List.forall_mem_cons.mp hothers
      rw [nodeLines, Printout.render_append, render_nodeLine, List.append_assoc,
        List.append_assoc] at hlines
      obtain ⟨hline, hlines⟩ := append_newline_inj (newline_notMem_listingLine hnode colours offset)
        (newline_notMem_listingLine hother colours offset) hlines
      obtain rfl := hnode.text_injective hother (text_eq_of_listingLine hline)
      rw [ih hnodes hrest hlines]

theorem eq_of_listing {file another : Bytes} (h : ∀ node ∈ nodes, node.WellFormed)
    (hothers : ∀ node ∈ others, node.WellFormed)
    (hlisting : (listing file nodes).render colours = (listing another others).render colours) :
    nodes = others := by
  rw [listing, listing, Printout.render_append, Printout.render_append] at hlisting
  exact eq_of_nodeLines h hothers hlisting

end CommandLine

/-- Programs of parsed sources are the same exactly if they have as many nodes and those at each
position stand for the same code. This is an equivalence, and it holds between programs with the
same lines or with the same printed listing. -/
theorem sameProgram_of_sources {a b : Bytes} (ha : parse a = .ok nodes)
    (hb : parse b = .ok others) :
    (Node.sameProgram nodes others = true ↔
      nodes.length = others.length ∧
        ∀ (i : Nat) (node other : Node), nodes[i]? = some node → others[i]? = some other →
          node.Equivalent other) ∧
    Node.sameProgram nodes nodes = true ∧
    (Node.sameProgram nodes others = true → Node.sameProgram others nodes = true) ∧
    (∀ c more, parse c = .ok more → Node.sameProgram nodes others = true →
      Node.sameProgram others more = true → Node.sameProgram nodes more = true) ∧
    ((Loaded.ofNodes nodes).listing = (Loaded.ofNodes others).listing →
      Node.sameProgram nodes others = true) ∧
    ∀ file another colours, (CommandLine.listing file nodes).render colours =
      (CommandLine.listing another others).render colours →
        Node.sameProgram nodes others = true := by
  have hequivalence := equivalentPrograms_equivalence
  have hnodes := parse_wellFormed ha
  have hothers := parse_wellFormed hb
  have hrefl : Node.sameProgram nodes nodes = true := sameProgram_iff.mpr (hequivalence.refl nodes)
  refine ⟨sameProgram_iff, hrefl, ?_, ?_, ?_, ?_⟩
  · intro h
    exact sameProgram_iff.mpr (hequivalence.symm (sameProgram_iff.mp h))
  · intro c more _ h h'
    exact sameProgram_iff.mpr (hequivalence.trans (sameProgram_iff.mp h) (sameProgram_iff.mp h'))
  · intro hlisting
    rwa [← eq_of_map_text hnodes hothers hlisting]
  · intro file another colours hlisting
    rwa [← CommandLine.eq_of_listing hnodes hothers hlisting]

/-- A file is imported before a push. -/
def importing (path : Bytes) : List Node :=
  [.inclusion .importFile path, .instruction ⟨.pushOf 1, some (.bytes [1])⟩]

/-- Slashes in a row are one, and how a number is written makes no difference; a slash at the end
does. -/
theorem sameProgram_of_sources_importing :
    parse "%import(\"//x///y\");push1 1" = .ok (importing "//x///y") ∧
    parse "%import(\"/x/y\")\npush1 0x01" = .ok (importing "/x/y") ∧
    parse "%import(\"/x/y/\")\npush1 0x01" = .ok (importing "/x/y/") ∧
    Node.sameProgram (importing "//x///y") (importing "/x/y") = true ∧
    Node.sameProgram (importing "/x/y") (importing "//x///y") = true ∧
    ¬ Node.sameProgram (importing "/x/y") (importing "/x/y/") = true := by
  have hfirst : parse "%import(\"//x///y\");push1 1" = .ok (importing "//x///y") := by
    decide +kernel
  have hsecond : parse "%import(\"/x/y\")\npush1 0x01" = .ok (importing "/x/y") := by
    decide +kernel
  have hthird : parse "%import(\"/x/y/\")\npush1 0x01" = .ok (importing "/x/y/") := by
    decide +kernel
  obtain ⟨hiff, -, hsymm, -⟩ := sameProgram_of_sources hfirst hsecond
  have hsame := hiff.mpr (equivalentPrograms_cons.mpr ⟨.inclusion (by decide),
    equivalentPrograms_equivalence.refl _⟩)
  refine ⟨hfirst, hsecond, hthird, hsame, hsymm hsame, ?_⟩
  intro hother
  have hnodes := ((sameProgram_of_sources hsecond hthird).1.mp hother).2 0 _ _ rfl rfl
  cases hnodes with
  | inclusion hpath => exact absurd hpath (by decide)

end EvmAssembly
