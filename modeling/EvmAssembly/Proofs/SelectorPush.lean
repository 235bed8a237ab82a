import EvmAssembly.Proofs.ColourRemoval
import EvmAssembly.Proofs.ListingRoundTrip

/-!
# Pushed selectors

A selector is the beginning of the hash of a signature, whatever the width of the push. The listing
of a push and the command line show the same digits of it.
-/

namespace EvmAssembly

variable {n m : Nat} {gap signature : Bytes}

/-- The text of a push of `n` bytes with the selector of a signature behind a gap. -/
def selectorText (n : Nat) (gap signature : Bytes) : Bytes :=
  "push" ++ decimal n ++ gap ++ "selector(\"" ++ signature ++ "\")"

/-- The node of a push of `n` bytes. -/
def pushNode (n : Nat) (value : Bytes) : Node := .instruction ⟨.pushOf n, some (.bytes value)⟩

theorem pushNode_text (n : Nat) (value : Bytes) :
    (pushNode n value).text = "push" ++ decimal n ++ " 0x" ++ hexText value := by
  have hmark : utf8 " 0x" = ' '.toUInt8 :: utf8 "0x" := by decide
  simp [pushNode, Node.text, Instruction.text, Immediate.text, Operation.pushOf, hmark]

theorem utf8_selectorOpening : utf8 "selector(\"" = Operand.selectorOpening := by decide

theorem utf8_selectorEnd : utf8 "\")" = ['"'.toUInt8, ')'.toUInt8] := by decide

theorem selectorText_eq (n : Nat) (gap signature : Bytes) : selectorText n gap signature =
    (Statement.push (.pushOf n) gap (.selector signature)).text := by
  simp [selectorText, Statement.text, Operand.text, Operation.pushOf, utf8_selectorOpening,
    utf8_selectorEnd]

/-- A selector always fits, since it is cut to the width of the push. -/
theorem parse_selectorText (hlow : 1 ≤ n) (hhigh : n ≤ 32)
    (hgap : gap ≠ [] ∧ gap.all isBlank = true) (h : IsSignature signature) :
    parse (selectorText n gap signature) =
      .ok [pushNode n ((Keccak.keccak256 signature).take n)] := by
  have hknown := Operation.hasImmediate_iff_push.mpr ⟨n, hlow, hhigh, rfl⟩
  have hvalid : (Statement.push (.pushOf n) gap (.selector signature)).Valid := ⟨hknown, hgap, h⟩
  have hlength : (functionSelector signature n).length = n := by
    rw [length_functionSelector, Nat.min_eq_left hhigh]
  rw [selectorText_eq, hvalid.parse_text, Statement.node, Operation.pushOf_width hhigh,
    Operand.immediate, widen_of_length hlength]
  rfl

namespace CommandLine

/-- A signature is no flag, as it begins with a name. -/
theorem operands_signature (h : IsSignature signature) :
    operands [utf8 "-s", signature] = [utf8 "-s", signature] := by
  obtain ⟨name, list, rfl, hname, -⟩ := h
  have hstarts := hname.startsWith_append list
  have hne : ∀ flag, startsWith isNameStart flag = false → name ++ list ≠ flag := by
    rintro flag hflag rfl
    cases hflag.symm.trans hstarts
  have hmode : isDebugFlag (utf8 "-s") = false ∧ isColourFlag (utf8 "-s") = false := by decide
  have hdebug : isDebugFlag (name ++ list) = false := by
    simp [isDebugFlag, hne (utf8 "-d") rfl, hne (utf8 "--debug") rfl]
  have hcolour : isColourFlag (name ++ list) = false := by
    simp [isColourFlag, hne (utf8 "--no-color") rfl]
  simp [operands, hmode, hdebug, hcolour]

theorem shown_selector {arguments rest : List Bytes}
    (h : operands arguments = utf8 "-s" :: signature :: rest) (files : Bytes → Option Bytes) :
    (shown files arguments).withoutEscapes =
      ⟨0, "selector 0x" ++ hexText ((Keccak.keccak256 signature).take 4) ++ "\nkeccak256 0x" ++
        hexText (Keccak.keccak256 signature) ++ "\n", []⟩ := by
  have hrun : run files arguments = selectorRun signature := by
    rw [run, h, ← Asks.selector.request_eq]
    rfl
  have hfrom : (selectorRun signature).From [] := ⟨selector_textsFrom signature, textsFrom_nil⟩
  have hfirst : utf8 "selector 0x" = utf8 "selector " ++ utf8 "0x" := by decide
  have hsecond : utf8 "\nkeccak256 0x" = utf8 "\n" ++ utf8 "keccak256 0x" := by decide
  rw [shown, hrun, hfrom.withoutEscapes_shown List.not_mem_nil, hfirst, hsecond]
  simp [Run.shown, selectorRun, selectorLine, colouredLine, Printout.render, Piece.render,
    functionSelector]

end CommandLine

/-- The selector of a signature is the beginning of its hash for every push, of which a wider push
has more. The digits that a push of four bytes and one of all 32 are listed with are those that the
command line shows for the signature. -/
theorem selector_paths_agree (h : IsSignature signature)
    (hgap : gap ≠ [] ∧ gap.all isBlank = true) :
    (∀ n, 1 ≤ n → n ≤ 32 →
      parse (selectorText n gap signature) =
        .ok [pushNode n ((Keccak.keccak256 signature).take n)] ∧
      ((Keccak.keccak256 signature).take n).length = n) ∧
    (∀ n m, 1 ≤ n → n ≤ m → m ≤ 32 → ∃ first second : Bytes,
      parse (selectorText n gap signature) = .ok [pushNode n first] ∧
      parse (selectorText m gap signature) = .ok [pushNode m second] ∧ first <+: second) ∧
    ∃ short long : Bytes,
      hexDecode? short = some ((Keccak.keccak256 signature).take 4) ∧
      hexDecode? long = some (Keccak.keccak256 signature) ∧
      (∃ node, parse (selectorText 4 gap signature) = .ok [node] ∧
        node.text = "push4 0x" ++ short) ∧
      (∃ node, parse (selectorText 32 gap signature) = .ok [node] ∧
        node.text = "push32 0x" ++ long) ∧
      CommandLine.operands [utf8 "-s", signature] = [utf8 "-s", signature] ∧
      ∀ files arguments rest, CommandLine.operands arguments = utf8 "-s" :: signature :: rest →
        (CommandLine.shown files arguments).withoutEscapes =
          ⟨0, "selector 0x" ++ short ++ "\nkeccak256 0x" ++ long ++ "\n", []⟩ := by
  have hlength := Keccak.length_keccak256 signature
  have hwhole : (Keccak.keccak256 signature).take 32 = Keccak.keccak256 signature :=
    List.take_of_length_le hlength.le
  refine ⟨?_, ?_, hexText ((Keccak.keccak256 signature).take 4),
    hexText (Keccak.keccak256 signature), hexDecode?_hexText _, hexDecode?_hexText _, ?_, ?_,
    CommandLine.operands_signature h, ?_⟩
  · intro n hlow hhigh
    refine ⟨parse_selectorText hlow hhigh hgap h, ?_⟩
    rw [List.length_take, hlength, Nat.min_eq_left hhigh]
  · intro n m hlow hle hhigh
    exact ⟨_, _, parse_selectorText hlow (hle.trans hhigh) hgap h,
      parse_selectorText (hlow.trans hle) hhigh hgap h, List.take_prefix_take_left hle⟩
  · refine ⟨_, parse_selectorText (by decide) (by decide) hgap h, ?_⟩
    have hword : utf8 "push4 0x" = utf8 "push" ++ decimal 4 ++ utf8 " 0x" := by decide
    rw [pushNode_text, hword]
  · refine ⟨_, parse_selectorText (by decide) (by decide) hgap h, ?_⟩
    have hword : utf8 "push32 0x" = utf8 "push" ++ decimal 32 ++ utf8 " 0x" := by decide
    rw [pushNode_text, hword, hwhole]
  · intro files arguments rest harguments
    exact CommandLine.shown_selector harguments files

/-- A signature with a list of pairs, pushed and given to the command line behind a flag. -/
theorem selector_paths_agree_nested :
    parse "push8 selector(\"f((address,uint8)[],bool)\")" =
      .ok [pushNode 8 ((Keccak.keccak256 "f((address,uint8)[],bool)").take 8)] ∧
    ∃ short long node, parse "push4 selector(\"f((address,uint8)[],bool)\")" = .ok [node] ∧
      node.text = "push4 0x" ++ short ∧
      (CommandLine.shown (fun _ => none)
        [utf8 "-s", utf8 "-d", utf8 "f((address,uint8)[],bool)"]).withoutEscapes =
        ⟨0, "selector 0x" ++ short ++ "\nkeccak256 0x" ++ long ++ "\n", []⟩ := by
  have hscan : scanSignature "f((address,uint8)[],bool)" =
      .ok (utf8 "f((address,uint8)[],bool)", []) := by
    decide +kernel
  have hsignature : IsSignature "f((address,uint8)[],bool)" := (scanSignature_eq_ok_iff.mp hscan).2
  have height : selectorText 8 " " "f((address,uint8)[],bool)" =
      utf8 "push8 selector(\"f((address,uint8)[],bool)\")" := by
    decide +kernel
  have hfour : selectorText 4 " " "f((address,uint8)[],bool)" =
      utf8 "push4 selector(\"f((address,uint8)[],bool)\")" := by
    decide +kernel
  have hoperands : CommandLine.operands [utf8 "-s", utf8 "-d", utf8 "f((address,uint8)[],bool)"] =
      [utf8 "-s", utf8 "f((address,uint8)[],bool)"] := by
    decide +kernel
  obtain ⟨hparse, -, short, long, -, -, ⟨node, hnode, htext⟩, -, -, hshown⟩ :=
    @selector_paths_agree " " "f((address,uint8)[],bool)" hsignature (by decide)
  rw [← height, ← hfour]
  exact ⟨(hparse 8 (by decide) (by decide)).1, short, long, node, hnode, htext,
    hshown _ _ [] hoperands⟩

end EvmAssembly
