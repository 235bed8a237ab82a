import EvmAssembly.ProgramSession
import EvmAssembly.Proofs.QuotedBytes
import EvmAssembly.Proofs.TracedRuns

/-!
# Runs of a session

Whatever calls are made, the error that a session has recorded is that of the last call, calls that
only ask for it apart, and a slot holds the program that was last written to it. So no error
outlives the next call, and what is done to one slot has no effect on another. What a caller is
given are numbers: one for each outcome, and one for each kind of node.
-/

namespace EvmAssembly

variable {session : Session} {call : Call} {slot : Nat} {nodes : List Node} {error : ParseError}

/-- The error of the source, if the call is a parse that fails by one. -/
def Call.error? : Call → Option ParseError
  | .parse (some _) (some source) _ =>
    match EvmAssembly.parse (beforeNul source) with
    | .ok _ => none
    | .error error => some error
  | _ => none

/-- The slot that a call writes, with the program that it puts there. -/
def Call.writes : Call → Option (Nat × Option (List Node))
  | .parse (some slot) (some source) _ =>
    some (slot, (EvmAssembly.parse (beforeNul source)).toOption)
  | .parse (some slot) none _ => some (slot, none)
  | .destroy (some slot) => some (slot, none)
  | _ => none

/-- The number that reports a fault of a source. -/
inductive Fault.HasCode : Fault → Int → Prop where
  | lexical {detail : Bytes} : HasCode (.lexical detail) (-4)
  | immediateTooLarge {literal : Bytes} {width : Nat} :
      HasCode (.immediateTooLarge literal width) (-5)
  | extraArgument {expected got : Nat} : HasCode (.extraArgument expected got) (-6)
  | missingArgument {expected got : Nat} : HasCode (.missingArgument expected got) (-7)
  | argumentType {position : Nat} {wanted found : Bytes} :
      HasCode (.argumentType position wanted found) (-8)

/-- The number of the kind of a node. -/
inductive Node.HasKind : Node → Nat → Prop where
  | instruction {value : Instruction} : HasKind (.instruction value) 0
  | label {name : Bytes} : HasKind (.label name) 1
  | pushLabel {name : Bytes} : HasKind (.pushLabel name) 2
  | importFile {path : Bytes} : HasKind (.inclusion .importFile path) 3
  | includeSource {path : Bytes} : HasKind (.inclusion .includeSource path) 4
  | includeHex {path : Bytes} : HasKind (.inclusion .includeHex path) 5

theorem Fault.hasCode (fault : Fault) : fault.HasCode (Outcome.ofKind fault.kind).code := by
  cases fault with
  | lexical detail => exact .lexical
  | immediateTooLarge literal width => exact .immediateTooLarge
  | extraArgument expected got => exact .extraArgument
  | missingArgument expected got => exact .missingArgument
  | argumentType position wanted found => exact .argumentType

theorem Fault.HasCode.unique {fault : Fault} {code other : Int} (h : fault.HasCode code)
    (hother : fault.HasCode other) : code = other := by
  cases h <;> cases hother <;> rfl

/-- The numbers of faults are apart from those of success, misuse and other failures. -/
theorem Fault.HasCode.le {fault : Fault} {code : Int} (h : fault.HasCode code) : code ≤ -4 := by
  cases h <;> decide

theorem Misuse.code_eq (misuse : Misuse) :
    misuse.outcome.code = -2 ∨ misuse.outcome.code = -3 := by
  cases misuse <;> decide

theorem Node.hasKind (node : Node) : node.HasKind (NodeKind.ofNode node).number := by
  cases node with
  | instruction value => exact .instruction
  | label name => exact .label
  | pushLabel name => exact .pushLabel
  | inclusion kind path =>
    cases kind with
    | importFile => exact .importFile
    | includeSource => exact .includeSource
    | includeHex => exact .includeHex

theorem Node.HasKind.unique {node : Node} {number other : Nat} (h : node.HasKind number)
    (hother : node.HasKind other) : number = other := by
  cases h <;> cases hother <;> rfl

/-- The slots after a call. -/
def Call.update (call : Call) (slots : Nat → Option Loaded) : Nat → Option Loaded :=
  match call.writes with
  | some (slot, program) => fun n => if n = slot then program.map .ofNodes else slots n
  | none => slots

namespace Session

/-- The session that calls leave. -/
def after (session : Session) (calls : List Call) : Session :=
  calls.foldl (fun session call => (session.step call).1) session

theorem after_append (session : Session) (first second : List Call) :
    session.after (first ++ second) = (session.after first).after second :=
  List.foldl_append

/-- What a call leaves and replies that does not ask for the last error: it is done, it is refused,
or it is a parse of a source with an error. -/
inductive Does (session : Session) (call : Call) : Session × Reply → Prop where
  | done (answer : Option Answer) (printed : Bytes) (sound : call.error? = none) :
      Does session call
        (⟨call.update session.slots, [], none⟩, ⟨.ok, answer, printed, none⟩)
  | refused (misuse : Misuse) (sound : call.error? = none) :
      Does session call
        (⟨call.update session.slots, misuse.message, none⟩, ⟨misuse.outcome, none, [], none⟩)
  | failed {error : ParseError} (printed : Bytes) (fails : call.error? = some error) :
      Does session call
        (⟨call.update session.slots, error.report, some error.errorDetail⟩,
          ⟨.ofKind error.fault.kind, none, printed, none⟩)

theorem parse_does (session : Session) (slot : Nat) (source : Bytes) (debug : Bool) :
    session.Does (.parse (some slot) (some source) debug) (session.parse slot source debug) := by
  have hresult := (Parser.fresh.setDebug debug).1.parse_result (beforeNul source)
  have hslots : (Call.parse (some slot) (some source) debug).update session.slots =
      (session.write slot
        ((EvmAssembly.parse (beforeNul source)).toOption.map .ofNodes)).slots := rfl
  cases hparse : EvmAssembly.parse (beforeNul source) with
  | ok nodes =>
    rw [hparse] at hresult hslots
    simp only [Session.parse, hresult]
    have hleft : session.clear.write slot (some (.ofNodes nodes)) =
        ⟨(Call.parse (some slot) (some source) debug).update session.slots, [], none⟩ := by
      rw [hslots]
      rfl
    rw [hleft]
    exact .done _ _ (by simp only [Call.error?, hparse])
  | error error =>
    rw [hparse] at hresult hslots
    simp only [Session.parse, hresult]
    have hleft : (session.write slot none).slots =
        (Call.parse (some slot) (some source) debug).update session.slots := hslots.symm
    rw [hleft]
    exact .failed _ (by simp only [Call.error?, hparse])

/-- A question writes no slot. -/
theorem ask_does (session : Session) (call : Call) (asked : Option Nat) (wanted : Bool)
    (noPlace : Misuse) (answer : Loaded → Option Answer) (herror : call.error? = none)
    (hwrites : call.writes = none) :
    session.Does call (session.ask asked wanted noPlace answer) := by
  have hslots : session.slots = call.update session.slots := by rw [Call.update, hwrites]
  rw [ask, clear, refuse, refuse, refuse, hslots]
  split
  · exact .refused _ herror
  · split
    · split
      · exact .refused _ herror
      · exact .done _ _ herror
    · exact .refused _ herror

theorem step_does (session : Session) (hcall : ∀ wanted, call ≠ .detail wanted) :
    session.Does call (session.step call) := by
  cases call with
  | parse out source debug =>
    cases out with
    | none => exact .refused .noProgramPlace rfl
    | some slot =>
      cases source with
      | none => exact .refused .noSource rfl
      | some source => exact session.parse_does slot source debug
  | destroy slot =>
    cases slot with
    | none => exact .done none [] rfl
    | some slot => exact .done none [] rfl
  | count slot wanted =>
    rw [step]
    exact session.ask_does _ slot wanted _ _ rfl rfl
  | kind slot index wanted =>
    rw [step]
    exact session.ask_does _ slot wanted _ _ rfl rfl
  | text slot index wanted =>
    rw [step]
    exact session.ask_does _ slot wanted _ _ rfl rfl
  | detail wanted => exact absurd rfl (hcall wanted)

/-- Asking for the last error changes nothing. -/
theorem after_details (session : Session) (asked : List Bool) :
    session.after (asked.map .detail) = session := by
  induction asked with
  | nil => rfl
  | cons wanted asked ih => exact ih

theorem Does.slots_eq {left : Session} {reply : Reply} (h : session.Does call (left, reply)) :
    left.slots = call.update session.slots := by
  cases h <;> rfl

theorem step_slots (session : Session) (call : Call) :
    (session.step call).1.slots = call.update session.slots := by
  by_cases hcall : ∃ wanted, call = .detail wanted
  · obtain ⟨wanted, rfl⟩ := hcall
    rfl
  · exact (session.step_does fun wanted heq => hcall ⟨wanted, heq⟩).slots_eq

end Session

theorem Misuse.message_ne_nil (misuse : Misuse) : misuse.message ≠ [] := by
  cases misuse <;> decide

/-- No call fails in a way that has no number of its own. -/
theorem Session.Does.code_ne_general {left : Session} {reply : Reply}
    (h : session.Does call (left, reply)) : reply.outcome.code ≠ -1 := by
  cases h with
  | done answer printed sound => exact (by decide : Outcome.ok.code ≠ -1)
  | refused misuse sound => rcases misuse.code_eq with hcode | hcode <;> rw [hcode] <;> decide
  | @failed error printed fails =>
    have hle := error.fault.hasCode.le
    have hcode : (Outcome.ofKind error.fault.kind).code ≠ -1 := by omega
    exact hcode

theorem Call.eq_parse_of_error? (h : call.error? = some error) :
    ∃ slot source debug, call = .parse (some slot) (some source) debug ∧
      EvmAssembly.parse (beforeNul source) = .error error := by
  cases call with
  | parse out source debug =>
    cases out with
    | none => cases h
    | some slot =>
      cases source with
      | none => cases h
      | some source =>
        refine ⟨slot, source, debug, rfl, ?_⟩
        cases hparse : EvmAssembly.parse (beforeNul source) with
        | ok nodes =>
          simp only [Call.error?, hparse] at h
          cases h
        | error found =>
          simp only [Call.error?, hparse] at h
          exact congrArg Except.error (Option.some.inj h)
  | _ => cases h

/-- The error of a source has a place, so its message is not empty. -/
theorem parse_error_known {s : Bytes} (h : parse s = .error error) :
    1 ≤ error.location.line ∧ error.message ≠ [] := by
  obtain ⟨offset, -, hplace⟩ := (parse_error_within h).1.line_column
  have hline : 1 ≤ error.location.line := by
    rw [hplace]
    exact Nat.le_add_right 1 _
  have hknown : error.location.known = true := by
    rw [hplace]
    simp [Location.known]
  refine ⟨hline, ?_⟩
  rw [ParseError.message, if_pos hknown]
  simp [utf8]

/-- What a session tells of the last call, which was answered with this number: there is a message
if the call failed, and there is a detail if it failed by an error of the source, whose detail and
message they are. -/
structure Session.TellsOf (session : Session) (call : Call) (code : Int) : Prop where
  message_iff : session.lastError.isSome = true ↔ code ≠ 0
  detail_iff : (session.step (.detail true)).2.outcome.code = 0 ↔
    ∃ error, call.error? = some error
  no_detail : call.error? = none → (session.step (.detail true)).2.outcome.code = -3
  error_told : ∀ error, call.error? = some error → error.fault.HasCode code ∧
    (session.step (.detail true)).2.detail = some ⟨error.location.line, error.location.column,
      error.fault.expected, error.fault.got, error.fault.position⟩ ∧
    1 ≤ error.location.line ∧ session.lastError = some error.message

theorem Session.Does.tellsOf {left : Session} {reply : Reply}
    (h : session.Does call (left, reply)) : left.TellsOf call reply.outcome.code := by
  cases h with
  | done answer printed sound =>
    refine ⟨by simp [lastError, Outcome.code], by simp [step, sound, Outcome.code],
      fun _ => rfl, ?_⟩
    intro error herror
    cases sound.symm.trans herror
  | refused misuse sound =>
    have hcode : misuse.outcome.code ≠ 0 := by
      rcases misuse.code_eq with hcode | hcode <;> rw [hcode] <;> decide
    refine ⟨by simp [lastError, misuse.message_ne_nil, hcode], by simp [step, sound, Outcome.code],
      fun _ => rfl, ?_⟩
    intro error herror
    cases sound.symm.trans herror
  | @failed error printed fails =>
    obtain ⟨slot, source, debug, rfl, hparse⟩ := Call.eq_parse_of_error? fails
    obtain ⟨hline, hmessage⟩ := parse_error_known hparse
    have hreport := parse_error_report (zero_notMem_beforeNul source) hparse
    have hcode : (Outcome.ofKind error.fault.kind).code ≠ 0 := by
      have hle := error.fault.hasCode.le
      omega
    refine ⟨by simp [lastError, hreport, hmessage, hcode], by simp [step, fails, Outcome.code], ?_,
      ?_⟩
    · intro hnone
      cases fails.symm.trans hnone
    · intro found hfound
      cases fails.symm.trans hfound
      exact ⟨error.fault.hasCode, rfl, hline, by simp [lastError, hreport, hmessage]⟩

/-- The number that reports how a parse ends in which every check is made. A breach is a failure
that has no number of its own. -/
inductive Checked.HasCode : Checked (List Node) → Int → Prop where
  | parsed {nodes : List Node} : HasCode (.ok nodes) 0
  | reported {error : ParseError} {code : Int} (reports : error.fault.HasCode code) :
      HasCode (.error (.reported error)) code
  | breached {what : Breach} : HasCode (.error (.breach what)) (-1)

/-- The number that reports how a source is parsed: zero if it is accepted, and otherwise that of
its error, also if every check is made. -/
structure ParseCode (s : Bytes) (code : Int) : Prop where
  accepted : (∃ nodes, parse s = .ok nodes) ↔ code = 0
  rejected : ∀ error, parse s = .error error → error.fault.HasCode code
  checked : Checked.HasCode (Checked.parse s) code

theorem ParseCode.of_ok {s : Bytes} (h : parse s = .ok nodes) : ParseCode s 0 where
  accepted := ⟨fun _ => rfl, fun _ => ⟨nodes, h⟩⟩
  rejected error herror := by cases h.symm.trans herror
  checked := by
    rw [Checked.parse_eq, h]
    exact .parsed

theorem ParseCode.of_error {s : Bytes} (h : parse s = .error error) :
    ParseCode s (Outcome.ofKind error.fault.kind).code where
  accepted := by
    have hle := error.fault.hasCode.le
    refine ⟨?_, fun hzero => by omega⟩
    rintro ⟨nodes, hnodes⟩
    cases h.symm.trans hnodes
  rejected found hfound := by
    cases h.symm.trans hfound
    exact error.fault.hasCode
  checked := by
    rw [Checked.parse_eq, h]
    exact .reported error.fault.hasCode

namespace Session

theorem step_parse_code (session : Session) (slot : Nat) (source : Bytes) (debug : Bool) :
    ParseCode (beforeNul source)
      (session.step (.parse (some slot) (some source) debug)).2.outcome.code := by
  have hresult := (Parser.fresh.setDebug debug).1.parse_result (beforeNul source)
  simp only [step, Session.parse, hresult]
  cases hparse : EvmAssembly.parse (beforeNul source) with
  | ok nodes => exact .of_ok hparse
  | error error => exact .of_error hparse

/-- In every run that starts without a recorded error, the session tells of the last call that does
not ask for the error, and asking changes nothing. A parse ends with the number of its error. -/
theorem error_state_of_run (start : Session) (earlier : List Call) :
    (∀ wanted, ((start.clear.after earlier).step (.detail wanted)).1 =
      start.clear.after earlier) ∧
    ((start.clear.after earlier).step (.detail false)).2.outcome.code = -3 ∧
    (∀ asked : List Bool, (start.clear.after (asked.map .detail)).lastError = none ∧
      ((start.clear.after (asked.map .detail)).step (.detail true)).2.outcome.code = -3) ∧
    (∀ call, (∀ wanted, call ≠ .detail wanted) → ∀ asked : List Bool,
      (start.clear.after (earlier ++ call :: asked.map .detail)).TellsOf call
        ((start.clear.after earlier).step call).2.outcome.code) ∧
    (∀ slot, ((start.clear.after earlier).step (.destroy slot)).2.outcome.code = 0) ∧
    (∀ out source debug,
      ((start.clear.after earlier).step (.parse out source debug)).2.outcome.code ≠ -1) ∧
    (∀ out source debug, out = none ∨ source = none →
      ((start.clear.after earlier).step (.parse out source debug)).2.outcome.code = -3) ∧
    ∀ slot source debug,
      ParseCode (beforeNul source)
        ((start.clear.after earlier).step
          (.parse (some slot) (some source) debug)).2.outcome.code := by
  refine ⟨fun wanted => rfl, rfl, ?_, ?_, ?_, ?_, ?_, step_parse_code _⟩
  · intro asked
    rw [after_details]
    exact ⟨rfl, rfl⟩
  · intro call hcall asked
    have hdoes := (start.clear.after earlier).step_does hcall
    have hafter : start.clear.after (earlier ++ call :: asked.map .detail) =
        ((start.clear.after earlier).step call).1 := by
      rw [after_append]
      exact after_details _ asked
    rw [hafter]
    exact hdoes.tellsOf
  · intro slot
    cases slot <;> rfl
  · intro out source debug
    have hcall : ∀ wanted, Call.parse out source debug ≠ .detail wanted :=
      fun wanted => Call.noConfusion
    exact ((start.clear.after earlier).step_does hcall).code_ne_general
  · rintro out source debug (rfl | rfl)
    · rfl
    · cases out <;> rfl

private theorem parse_too_large : EvmAssembly.parse (beforeNul "push1 256\x00add") =
    .error ⟨.immediateTooLarge "256" 1, ⟨1, 7⟩⟩ := by
  have hscan : scanSource "push1 256" =
      .ok ⟨[⟨"", .push (.pushOf 1) " " (.number ⟨.decimal, "256"⟩)⟩], ""⟩ := by
    decide +kernel
  have hsource : beforeNul "push1 256\x00add" = "push1 256" := by decide
  rw [hsource]
  exact (readsAs_of_scanSource hscan).parse_eq.trans rfl

/-- A parse that fails after a failed parse and a refused question, and is asked about twice. -/
theorem error_state_of_run_failing :
    let earlier : List Call := [.parse (some 0) (some "?") false, .count none true]
    let call : Call := .parse (some 0) (some "push1 256\x00add") true
    let left := fresh.clear.after (earlier ++ call :: [false, true].map .detail)
    ((fresh.clear.after earlier).step call).2.outcome.code = -5 ∧
    left.lastError = some "line 1, column 7: immediate 256 does not fit in 1 byte" ∧
    (left.step (.detail true)).2.outcome.code = 0 ∧
    (left.step (.detail true)).2.detail = some ⟨1, 7, 1, 0, 0⟩ := by
  intro earlier call left
  have herror : call.error? = some ⟨.immediateTooLarge "256" 1, ⟨1, 7⟩⟩ := by
    simp only [call, Call.error?, parse_too_large]
  have hcall : ∀ wanted, call ≠ .detail wanted := fun wanted => Call.noConfusion
  obtain ⟨-, -, -, htells, -, -, -, hparses⟩ := error_state_of_run fresh earlier
  have htold := htells call hcall [false, true]
  obtain ⟨-, hdetail, -, hmessage⟩ := htold.error_told _ herror
  have hcode := (hparses 0 "push1 256\x00add" true).rejected _ parse_too_large
  refine ⟨hcode.unique .immediateTooLarge, hmessage.trans ?_, htold.detail_iff.mpr ⟨_, herror⟩,
    hdetail⟩
  decide +kernel

end Session

/-- The program that was last written to a slot, if one was. -/
def programIn (calls : List Call) (slot : Nat) : Option (List Node) :=
  ((calls.filterMap Call.writes).reverse.lookup slot).join

/-- The call writes another slot, or none. -/
def Call.Spares (call : Call) (slot : Nat) : Prop := ∀ program, call.writes ≠ some (slot, program)

theorem programIn_concat (calls : List Call) (call : Call) :
    (fun slot => (programIn (calls ++ [call]) slot).map Loaded.ofNodes) =
      call.update fun slot => (programIn calls slot).map Loaded.ofNodes := by
  funext slot
  cases hwrites : call.writes with
  | none => simp [programIn, Call.update, hwrites]
  | some written =>
    obtain ⟨there, program⟩ := written
    by_cases hslot : slot = there
    · simp [programIn, Call.update, hwrites, hslot]
    · have hne : (slot == there) = false := beq_false_of_ne hslot
      simp [programIn, Call.update, hwrites, List.lookup_cons, hslot, hne]

theorem programIn_append_of_spares {others : List Call} (calls : List Call)
    (h : ∀ call ∈ others, call.Spares slot) :
    programIn (calls ++ others) slot = programIn calls slot := by
  have hnone : (others.filterMap Call.writes).reverse.lookup slot = none := by
    rw [List.lookup_eq_none_iff]
    intro written hmem
    obtain ⟨call, hcall, hwrites⟩ := List.mem_filterMap.mp (List.mem_reverse.mp hmem)
    have hne : written.1 ≠ slot := by
      rintro rfl
      exact h call hcall written.2 hwrites
    simpa using hne.symm
  rw [programIn, List.filterMap_append, List.reverse_append, List.lookup_append, hnone]
  rfl

theorem Call.eq_parse_of_writes (h : call.writes = some (slot, some nodes)) :
    ∃ source debug, call = .parse (some slot) (some source) debug ∧
      EvmAssembly.parse (beforeNul source) = .ok nodes := by
  cases call with
  | parse out source debug =>
    cases out with
    | none => cases h
    | some there =>
      cases source with
      | none => cases h
      | some source =>
        obtain ⟨rfl, hprogram⟩ := Prod.mk.inj (Option.some.inj h)
        refine ⟨source, debug, rfl, ?_⟩
        cases hparse : EvmAssembly.parse (beforeNul source) with
        | ok found =>
          rw [hparse] at hprogram
          exact congrArg Except.ok (Option.some.inj hprogram)
        | error error =>
          rw [hparse] at hprogram
          cases hprogram
  | destroy there => cases there <;> cases h
  | _ => cases h

/-- A program in a slot is that of a source. -/
theorem exists_of_programIn {calls : List Call} (h : programIn calls slot = some nodes) :
    ∃ source, parse (beforeNul source) = .ok nodes := by
  obtain ⟨before, behind, hsplit, -⟩ := List.lookup_eq_some_iff.mp (Option.join_eq_some_iff.mp h)
  have hmem : (slot, some nodes) ∈ calls.filterMap Call.writes := by
    rw [← List.mem_reverse, hsplit]
    exact List.mem_append_right _ List.mem_cons_self
  obtain ⟨call, -, hwrites⟩ := List.mem_filterMap.mp hmem
  obtain ⟨source, -, -, hparse⟩ := Call.eq_parse_of_writes hwrites
  exact ⟨source, hparse⟩

namespace Session

/-- The slots hold the programs that the calls last wrote to them. -/
theorem after_slots (calls : List Call) (slot : Nat) :
    (fresh.after calls).slots slot = (programIn calls slot).map .ofNodes := by
  revert slot
  rw [← funext_iff]
  induction calls using List.reverseRecOn with
  | nil => rfl
  | append_singleton calls call ih =>
    rw [programIn_concat, ← ih, after_append]
    exact (fresh.after calls).step_slots call

/-- The reply is this answer, with the number of success, and nothing is printed. -/
structure Gives (reply : Reply) (answer : Answer) : Prop where
  code : reply.outcome.code = 0
  answer : reply.answer = some answer
  printed : reply.printed = []
  detail : reply.detail = none

/-- Every question about a slot is answered from the program that the map has for it. -/
structure Shows (session : Session) (programs : Nat → Option (List Node)) : Prop where
  handle : ∀ slot, (session.slots slot).isSome = (programs slot).isSome
  count : ∀ slot nodes, programs slot = some nodes →
    Gives (session.step (.count (some slot) true)).2 (.count nodes.length)
  kind : ∀ slot nodes index node, programs slot = some nodes → nodes[index]? = some node →
    ∃ kind, Gives (session.step (.kind (some slot) index true)).2 (.kind kind) ∧
      node.HasKind kind.number
  text : ∀ slot nodes index node, programs slot = some nodes → nodes[index]? = some node →
    Gives (session.step (.text (some slot) index true)).2 (.text node.text)
  outside : ∀ slot nodes index wanted, programs slot = some nodes → nodes.length ≤ index →
    (session.step (.kind (some slot) index wanted)).2.outcome.code = -3 ∧
    (session.step (.text (some slot) index wanted)).2.outcome.code = -3
  noHandle : ∀ (slot : Option Nat) (index : Nat) (wanted : Bool), slot.bind programs = none →
    (session.step (.count slot wanted)).2.outcome.code = -2 ∧
    (session.step (.kind slot index wanted)).2.outcome.code = -2 ∧
    (session.step (.text slot index wanted)).2.outcome.code = -2

theorem ask_of_none {asked : Option Nat} (h : session.read asked = none) (wanted : Bool)
    (noPlace : Misuse) (answer : Loaded → Option Answer) :
    session.ask asked wanted noPlace answer = session.refuse .noHandle := by
  rw [ask, h]

theorem ask_of_some {asked : Option Nat} {program : Loaded} {answer : Loaded → Option Answer}
    {found : Answer} (h : session.read asked = some program) (hanswer : answer program = some found)
    (noPlace : Misuse) : Gives (session.ask asked true noPlace answer).2 found := by
  rw [ask, h]
  simp only [hanswer, if_true]
  exact ⟨rfl, rfl, rfl, rfl⟩

/-- A question that the program has no answer to is refused, with a place for the answer or
without. -/
theorem ask_unanswered {asked : Option Nat} {program : Loaded} {answer : Loaded → Option Answer}
    {noPlace : Misuse} (h : session.read asked = some program) (hanswer : answer program = none)
    (hplace : noPlace.outcome = .invalidArgument) (wanted : Bool) :
    (session.ask asked wanted noPlace answer).2.outcome.code = -3 := by
  rw [ask, h]
  cases wanted with
  | true =>
    simp only [hanswer, if_true]
    rfl
  | false => exact congrArg Outcome.code hplace

theorem shows_of_slots {programs : Nat → Option (List Node)}
    (h : ∀ slot, session.slots slot = (programs slot).map .ofNodes) : session.Shows programs := by
  have hread {slot : Nat} {nodes : List Node} (hnodes : programs slot = some nodes) :
      session.read (some slot) = some (.ofNodes nodes) := by
    simp [read, h, hnodes]
  constructor
  · intro slot
    simp [h]
  · intro slot nodes hnodes
    exact ask_of_some (hread hnodes) rfl _
  · intro slot nodes index node hnodes hindex
    refine ⟨.ofNode node, ask_of_some (hread hnodes) ?_ _, node.hasKind⟩
    simp [Loaded.ofNodes, hindex]
  · intro slot nodes index node hnodes hindex
    refine ask_of_some (hread hnodes) ?_ _
    simp [Loaded.ofNodes, hindex]
  · intro slot nodes index wanted hnodes hindex
    have houtside : nodes[index]? = none := List.getElem?_eq_none hindex
    refine ⟨ask_unanswered (hread hnodes) ?_ rfl wanted,
      ask_unanswered (hread hnodes) ?_ rfl wanted⟩
    · simp [Loaded.ofNodes, houtside]
    · simp [Loaded.ofNodes, houtside]
  · intro slot index wanted hslot
    have hnone : session.read slot = none := by
      cases slot with
      | none => rfl
      | some slot => simpa [read, h] using hslot
    simp only [step, ask_of_none hnone]
    exact ⟨rfl, rfl, rfl⟩

/-- In every run the slots are a map to the programs that were last written to them: it answers each
question, its texts are complete, and calls that spare a slot leave it as it is. -/
theorem slots_of_run (calls : List Call) :
    (fresh.after calls).Shows (programIn calls) ∧
    (∀ slot nodes, programIn calls slot = some nodes → ∀ node ∈ nodes, 0 ∉ node.text) ∧
    ∀ slot others, (∀ call ∈ others, call.Spares slot) →
      programIn (calls ++ others) slot = programIn calls slot ∧
      (fresh.after (calls ++ others)).slots slot = (fresh.after calls).slots slot := by
  refine ⟨shows_of_slots (after_slots calls), ?_, ?_⟩
  · intro slot nodes hnodes
    obtain ⟨source, hparse⟩ := exists_of_programIn hnodes
    exact parse_listing_zero_notMem (zero_notMem_beforeNul source) hparse
  · intro slot others hspares
    have hsame := programIn_append_of_spares calls hspares
    exact ⟨hsame, by rw [after_slots, after_slots, hsame]⟩

/-- A slot with a program beside one whose parse failed, before and after calls that spare it. -/
theorem slots_of_run_beside_failure :
    let calls : List Call := [.parse (some 1) (some "a:;%push(a);%include_hex(\"b\")") false,
      .parse (some 0) (some "push1 256\x00add") false]
    let others : List Call :=
      [.parse (some 0) (some "b:") true, .destroy none, .count (some 1) true]
    (fresh.after calls).slots 0 = none ∧
    Gives ((fresh.after calls).step (.count (some 1) true)).2 (.count 3) ∧
    (∃ kind, Gives ((fresh.after calls).step (.kind (some 1) 1 true)).2 (.kind kind) ∧
      kind.number = 2) ∧
    (∃ kind, Gives ((fresh.after calls).step (.kind (some 1) 2 true)).2 (.kind kind) ∧
      kind.number = 5) ∧
    Gives ((fresh.after calls).step (.text (some 1) 0 true)).2 (.text "a:") ∧
    ((fresh.after calls).step (.kind (some 1) 3 true)).2.outcome.code = -3 ∧
    ((fresh.after calls).step (.count (some 0) false)).2.outcome.code = -2 ∧
    (fresh.after (calls ++ others)).slots 1 = (fresh.after calls).slots 1 := by
  intro calls others
  have hparse : EvmAssembly.parse (beforeNul "a:;%push(a);%include_hex(\"b\")") =
      .ok [.label "a", .pushLabel "a", .inclusion .includeHex "b"] := by
    decide +kernel
  have hwritten : calls.filterMap Call.writes =
      [(1, some [.label "a", .pushLabel "a", .inclusion .includeHex "b"]), (0, none)] := by
    simp [calls, Call.writes, hparse, parse_too_large, Except.toOption]
  have hprogram : programIn calls 1 =
      some [.label "a", .pushLabel "a", .inclusion .includeHex "b"] := by
    rw [programIn, hwritten]
    rfl
  have hnone : programIn calls 0 = none := by
    rw [programIn, hwritten]
    rfl
  have hspares : ∀ call ∈ others, call.Spares 1 := by
    simp [others, Call.Spares, Call.writes]
  obtain ⟨hshows, -, hspared⟩ := slots_of_run calls
  have hempty : (fresh.after calls).slots 0 = none := by
    have hhandle := hshows.handle 0
    rwa [hnone, Option.isSome_none, Option.isSome_eq_false_iff,
      Option.isNone_iff_eq_none] at hhandle
  obtain ⟨push, hpush, hpushKind⟩ := hshows.kind 1 _ 1 _ hprogram rfl
  obtain ⟨inclusion, hinclusion, hinclusionKind⟩ := hshows.kind 1 _ 2 _ hprogram rfl
  exact ⟨hempty, hshows.count 1 _ hprogram, ⟨push, hpush, hpushKind.unique .pushLabel⟩,
    ⟨inclusion, hinclusion, hinclusionKind.unique .includeHex⟩, hshows.text 1 _ 0 _ hprogram rfl,
    (hshows.outside 1 _ 3 true hprogram (by decide)).1, (hshows.noHandle (some 0) 0 false hnone).1,
    (hspared 1 others hspares).2⟩

end Session
end EvmAssembly
