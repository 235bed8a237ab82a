import EvmAssembly.CommandLine
import EvmAssembly.Proofs.TracedRuns

/-!
# What the command line asks for and how its runs end

The arguments that are not flags determine a request. A request to list a file ends in one of three
ways; the other requests do not look at the files.
-/

namespace EvmAssembly.CommandLine

variable {files : Bytes → Option Bytes} {operands : List Bytes} {file : Bytes}

/-- The arguments name a file to be listed: the first one, unless it begins with a dash, or the one
behind `-p`. -/
inductive NamesFile : List Bytes → Bytes → Prop where
  | alone {file : Bytes} {rest : List Bytes} (plain : ¬ utf8 "-" <+: file) :
      NamesFile (file :: rest) file
  | behindMode {file : Bytes} {rest : List Bytes} : NamesFile (utf8 "-p" :: file :: rest) file

/-- What the arguments that are not flags ask for. -/
inductive Asks : List Bytes → Request → Prop where
  | nothing : Asks [] .nothing
  | table {rest : List Bytes} : Asks (utf8 "-t" :: rest) .table
  | selector {signature : Bytes} {rest : List Bytes} :
      Asks (utf8 "-s" :: signature :: rest) (.selector signature)
  | list {operands : List Bytes} {file : Bytes} (named : NamesFile operands file) :
      Asks operands (.list file)
  | needsArgument {mode : Bytes} (known : mode = utf8 "-s" ∨ mode = utf8 "-p") :
      Asks [mode] (.needsArgument mode)
  | unknownMode {mode : Bytes} {rest : List Bytes} (dashed : utf8 "-" <+: mode)
      (unknown : mode ∉ [utf8 "-t", utf8 "-s", utf8 "-p"]) :
      Asks (mode :: rest) (.unknownMode mode)

theorem startsWith_dash_iff {mode : Bytes} :
    startsWith (· = '-'.toUInt8) mode = true ↔ utf8 "-" <+: mode := by
  have hdash : utf8 "-" = ['-'.toUInt8] := by decide
  rw [hdash]
  cases mode with
  | nil => simp
  | cons c mode => simp [eq_comm]

theorem Asks.of_operands (operands : List Bytes) : Asks operands (.of operands) := by
  cases operands with
  | nil => exact .nothing
  | cons mode rest =>
    unfold Request.of
    dsimp only
    split
    · rename_i htable
      subst htable
      exact .table
    · rename_i htable
      split
      · rename_i hselector
        subst hselector
        cases rest with
        | nil => exact .needsArgument (.inl rfl)
        | cons signature rest => exact .selector
      · rename_i hselector
        split
        · rename_i hlist
          subst hlist
          cases rest with
          | nil => exact .needsArgument (.inr rfl)
          | cons file rest => exact .list .behindMode
        · rename_i hlist
          split
          · rename_i hdash
            exact .unknownMode (startsWith_dash_iff.mp hdash) (by simp [htable, hselector, hlist])
          · rename_i hdash
            exact .list (.alone (startsWith_dash_iff.not.mp hdash))

theorem Asks.request_eq {request : Request} (h : Asks operands request) :
    request = .of operands := by
  have hmodes : utf8 "-s" ≠ utf8 "-t" ∧ utf8 "-p" ≠ utf8 "-t" ∧ utf8 "-p" ≠ utf8 "-s" := by
    decide
  cases h with
  | nothing => rfl
  | table => simp [Request.of]
  | selector => simp [Request.of, hmodes]
  | @list _ file named =>
    cases named with
    | alone plain =>
      have hdash : startsWith (· = '-'.toUInt8) file = false :=
        Bool.eq_false_iff.mpr (startsWith_dash_iff.not.mpr plain)
      have hother : ∀ mode, utf8 "-" <+: mode → file ≠ mode := by
        rintro mode hmode rfl
        exact plain hmode
      simp [Request.of, hdash, hother (utf8 "-t") (by decide), hother (utf8 "-s") (by decide),
        hother (utf8 "-p") (by decide)]
    | behindMode => simp [Request.of, hmodes]
  | needsArgument known => rcases known with rfl | rfl <;> simp [Request.of, hmodes]
  | unknownMode dashed unknown =>
    have hdash := startsWith_dash_iff.mpr dashed
    simp only [List.mem_cons, List.not_mem_nil, or_false, not_or] at unknown
    simp [Request.of, hdash, unknown]

/-- What is printed while a file is parsed: nothing unless the parser traces. -/
def traceOf (debug : Bool) (source : Bytes) : Bytes :=
  (Parser.fresh.setDebug debug).2 ++ ((Parser.mk debug).parse source).2

/-- How listing a file can end. -/
inductive Lists (files : Bytes → Option Bytes) (debug : Bool) (file : Bytes) : Run → Prop where
  | unreadable (missing : files file = none) :
      Lists files debug file ⟨1, [], [Colour.error, "Error: ", Colour.reset,
        .text ("Could not open source file: " ++ file), "\n"]⟩
  | unparsed {content : Bytes} {error : ParseError} (found : files file = some content)
      (fails : parse content = .error error) :
      Lists files debug file ⟨1, [.text (traceOf debug content)],
        [Colour.error, .text ("Parse Error (" ++ error.fault.kind.name ++ "): "), Colour.reset,
          .text (file ++ ": " ++ error.report), "\n"]⟩
  | listed {content : Bytes} {nodes : List Node} (found : files file = some content)
      (accepts : parse content = .ok nodes) :
      Lists files debug file ⟨0, .text (traceOf debug content) :: listing file nodes, []⟩

theorem listFile_lists (files : Bytes → Option Bytes) (debug : Bool) (file : Bytes) :
    Lists files debug file (listFile files debug file) := by
  rw [listFile]
  cases hfound : files file with
  | none => exact .unreadable hfound
  | some content =>
    have hresult := (Parser.mk debug).parse_result content
    have hsetDebug : Parser.fresh.setDebug debug = (⟨debug⟩, (Parser.fresh.setDebug debug).2) := rfl
    rcases hparse : (Parser.mk debug).parse content with ⟨error | nodes, trace⟩
    · rw [hparse] at hresult
      have hlists : Lists files debug file _ := .unparsed hfound hresult.symm
      rw [traceOf, hparse] at hlists
      rw [hsetDebug]
      simpa only [hparse] using hlists
    · rw [hparse] at hresult
      have hlists : Lists files debug file _ := .listed hfound hresult.symm
      rw [traceOf, hparse] at hlists
      rw [hsetDebug]
      simpa only [hparse] using hlists

/-- A file that is parsed is listed. -/
theorem Lists.eq_listed {debug : Bool} {content : Bytes} {nodes : List Node} {run : Run}
    (h : Lists files debug file run) (hfound : files file = some content)
    (haccepts : parse content = .ok nodes) :
    run = ⟨0, .text (traceOf debug content) :: listing file nodes, []⟩ := by
  cases h with
  | unreadable missing => cases missing.symm.trans hfound
  | unparsed found fails =>
    cases found.symm.trans hfound
    cases fails.symm.trans haccepts
  | listed found accepts =>
    cases found.symm.trans hfound
    cases accepts.symm.trans haccepts
    rfl

end EvmAssembly.CommandLine
