import Mathlib.Data.List.Forall2
import WorkflowControl.Proofs.Document.Failure
import WorkflowControl.Proofs.LineContinuation
import WorkflowControl.Proofs.Outcome

/-!
Reading with other line numbers. Where lines of a text are continued on further ones, its logical
lines only change their numbers, and numbers only enter messages. So the outcome is the same, and
so are the warnings, but for the numbers in those messages that are about the text itself
(`readText_continues`).

A message about the text is told from one about a file that it includes by the name of the file,
and that file may have the same name. The readings are therefore compared for all names that the
file of the text may have at once: a message about the text names the file whatever its name is,
and all others stay the same whatever that is (`Renumbers`).
-/

namespace WorkflowControl

/-! ## Messages -/

/-- The file that a warning is about. -/
def Warning.file : Warning → Text
  | unmatchedLine file _ _ => file
  | missingArgument file _ _ _ => file

/-- The warning with another line number. -/
def Warning.renumbered (renumber : Nat → Nat) : Warning → Warning
  | unmatchedLine file line text => unmatchedLine file (renumber line) text
  | missingArgument file line function argument =>
    missingArgument file (renumber line) function argument

/-- The file that an error names a place in. -/
def Error.file? : Error → Option Text
  | structural file _ _ _ => some file
  | _ => none

/-- The error with another line number, if it has one. -/
def Error.renumbered (renumber : Nat → Nat) : Error → Error
  | structural file line fault stack => structural file (line.map renumber) fault stack
  | e => e

/-- How messages change with the numbers of lines, given for each name that the file may have: what
names the file is renumbered, and what is the same for each name stays. -/
def Renumbers {M : Type} (file? : M → Option Text) (renumbered : M → M) (m m' : Text → M) : Prop :=
  (∀ file, file? (m file) = some file ∧ m' file = renumbered (m file))
    ∨ ∃ other, ∀ file, m file = other ∧ m' file = other

namespace Reading

variable {α β : Type} {renumber : Nat → Nat}

/-- Whether two readings, given for each name that the file may have, have the same outcome and
warnings but for the line numbers in messages about the file. -/
structure Renumbered (renumber : Nat → Nat) (r r' : Text → Reading α) : Prop where
  warnings : ∃ ws ws' : List (Text → Warning),
    (∀ file, (r file).warnings = ws.map (· file) ∧ (r' file).warnings = ws'.map (· file))
      ∧ List.Forall₂ (Renumbers (fun w => some w.file) (Warning.renumbered renumber)) ws ws'
  outcome : (∃ a, ∀ file, (r file).outcome = .ok a ∧ (r' file).outcome = .ok a)
    ∨ ∃ e e' : Text → Error,
      (∀ file, (r file).outcome = .error (e file) ∧ (r' file).outcome = .error (e' file))
        ∧ Renumbers Error.file? (Error.renumbered renumber) e e'

namespace Renumbered

/-- What does not depend on the file stays. -/
theorem const (r : Reading α) : Renumbered renumber (fun _ => r) fun _ => r where
  warnings := by
    refine ⟨r.warnings.map fun w _ => w, r.warnings.map fun w _ => w, fun file => ?_, ?_⟩
    · rw [List.map_map]
      exact ⟨(List.map_id _).symm, (List.map_id _).symm⟩
    · refine List.forall₂_same.mpr fun w hw => ?_
      obtain ⟨other, -, rfl⟩ := List.mem_map.mp hw
      exact .inr ⟨other, fun _ => ⟨rfl, rfl⟩⟩
  outcome := by
    cases houtcome : r.outcome with
    | ok a => exact .inl ⟨a, fun _ => ⟨rfl, rfl⟩⟩
    | error e =>
      exact .inr ⟨fun _ => e, fun _ => e, fun _ => ⟨rfl, rfl⟩, .inr ⟨e, fun _ => ⟨rfl, rfl⟩⟩⟩

theorem fail {e e' : Text → Error} (h : Renumbers Error.file? (Error.renumbered renumber) e e') :
    Renumbered (α := α) renumber (fun file => .fail (e file)) fun file => .fail (e' file) where
  warnings := ⟨[], [], fun _ => ⟨rfl, rfl⟩, .nil⟩
  outcome := .inr ⟨e, e', fun _ => ⟨rfl, rfl⟩, h⟩

theorem warn {w w' : Text → Warning}
    (h : Renumbers (fun w => some w.file) (Warning.renumbered renumber) w w') :
    Renumbered renumber (fun file => .warn (w file)) fun file => .warn (w' file) where
  warnings := ⟨[w], [w'], fun _ => ⟨rfl, rfl⟩, .cons h .nil⟩
  outcome := .inl ⟨(), fun _ => ⟨rfl, rfl⟩⟩

theorem bind {r r' : Text → Reading α} {next next' : Text → α → Reading β}
    (h : Renumbered renumber r r')
    (hnext : ∀ a, Renumbered renumber (fun file => next file a) fun file => next' file a) :
    Renumbered renumber (fun file => r file >>= next file) fun file => r' file >>= next' file := by
  obtain ⟨ws, ws', hws, hrel⟩ := h.warnings
  obtain ⟨a, ha⟩ | ⟨e, e', he, hrenumbers⟩ := h.outcome
  · obtain ⟨more, more', hmore, hrelMore⟩ := (hnext a).warnings
    have hbind : ∀ file, r file >>= next file
          = ⟨(r file).warnings ++ (next file a).warnings, (next file a).outcome⟩
        ∧ r' file >>= next' file
          = ⟨(r' file).warnings ++ (next' file a).warnings, (next' file a).outcome⟩ := by
      intro file
      constructor
      · show (r file).andThen (next file) = _
        rw [andThen, (ha file).1]
      · show (r' file).andThen (next' file) = _
        rw [andThen, (ha file).2]
    refine ⟨⟨ws ++ more, ws' ++ more', fun file => ?_, List.rel_append hrel hrelMore⟩, ?_⟩
    · rw [(hbind file).1, (hbind file).2, (hws file).1, (hws file).2, (hmore file).1,
        (hmore file).2, List.map_append, List.map_append]
      exact ⟨rfl, rfl⟩
    · simp only [hbind]
      exact (hnext a).outcome
  · have hbind : ∀ file, r file >>= next file = ⟨(r file).warnings, .error (e file)⟩
        ∧ r' file >>= next' file = ⟨(r' file).warnings, .error (e' file)⟩ := by
      intro file
      constructor
      · show (r file).andThen (next file) = _
        rw [andThen, (he file).1]
      · show (r' file).andThen (next' file) = _
        rw [andThen, (he file).2]
    refine ⟨⟨ws, ws', fun file => ?_, hrel⟩, .inr ⟨e, e', fun file => ?_, hrenumbers⟩⟩
    · rw [(hbind file).1, (hbind file).2]
      exact hws file
    · rw [(hbind file).1, (hbind file).2]
      exact ⟨rfl, rfl⟩

end Renumbered

end Reading

/-! ## Reading the lines -/

namespace DocumentReader

open Reading ReadState

variable {renumber : Nat → Nat} (reader : DocumentReader) (nested : Option TreeReader)

/-- A fault at a line is one of the line with its other number. -/
theorem renumbers_fault (n : Nat) (fault : StructuralFault) (stack : List Text) :
    Renumbers Error.file? (Error.renumbered renumber)
      (fun file => .structural file (some n) fault stack)
      fun file => .structural file (some (renumber n)) fault stack :=
  .inl fun _ => ⟨rfl, rfl⟩

theorem renumbered_of_reports {α : Type} {step : Position → Except Error α} {stack : List Text}
    (h : Reports stack step) (n : Nat) :
    Renumbered renumber (fun file => .ofExcept (step ⟨file, n⟩))
      fun file => .ofExcept (step ⟨file, renumber n⟩) := by
  obtain ⟨a, ha⟩ | ⟨fault, hfault⟩ := h
  · simp only [ha]
    exact .const _
  · simp only [hfault]
    exact .fail (renumbers_fault n fault stack)

theorem renumbered_includeFile (n : Nat) (target : Text) (st : ReadState) :
    Renumbered renumber (fun file => reader.includeFile nested ⟨file, n⟩ target st)
      fun file => reader.includeFile nested ⟨file, renumber n⟩ target st := by
  cases nested with
  | none => exact .fail (renumbers_fault n _ st.path)
  | some nested => exact .const _

theorem renumbered_callArguments (n : Nat) (name : Text) (doc : Document) (keys : List Text)
    (args : SectionArguments) :
    Renumbered renumber (fun file => reader.callArguments ⟨file, n⟩ name doc keys args)
      fun file => reader.callArguments ⟨file, renumber n⟩ name doc keys args := by
  induction keys generalizing args with
  | nil => exact .const _
  | cons key rest ih =>
    refine (Renumbered.const (.ofExcept (doc.resolvedValue? key {} reader.services))).bind ?_
    intro found
    cases found with
    | some value => exact ih (args.put key value)
    | none => exact (Renumbered.warn (.inl fun _ => ⟨rfl, rfl⟩)).bind fun _ => ih args

theorem renumbered_includeCall (n : Nat) (body : Text) (st : ReadState) :
    Renumbered renumber (fun file => reader.includeCall ⟨file, n⟩ body st)
      fun file => reader.includeCall ⟨file, renumber n⟩ body st := by
  unfold includeCall
  cases splitCall? body with
  | none => exact .fail (renumbers_fault n _ st.path)
  | some call =>
    refine (reader.renumbered_callArguments n _ _ _ _).bind fun args => ?_
    exact .const _

/-- A line with another number is read in the same way. -/
theorem renumbered_readLine (line : LogicalLine) (st : ReadState) :
    Renumbered renumber (fun file => reader.readLine nested file line st)
      fun file => reader.readLine nested file (line.renumbered renumber) st := by
  unfold readLine LogicalLine.renumbered
  dsimp only
  cases Line.classify line.text with
  | includeFile target => exact reader.renumbered_includeFile nested line.number target st
  | includeCall body => exact reader.renumbered_includeCall line.number body st
  | close key => exact renumbered_of_reports (st.reports_closeTag key) line.number
  | openSection key label => exact renumbered_of_reports (st.reports_openTag key label) line.number
  | pair key value => exact renumbered_of_reports (st.reports_insertPair key value) line.number
  | unmatched => exact (Renumbered.warn (.inl fun _ => ⟨rfl, rfl⟩)).bind fun _ => .const _

theorem renumbered_readLines (ls : List LogicalLine) (st : ReadState) :
    Renumbered renumber (fun file => reader.readLines nested file ls st)
      fun file => reader.readLines nested file (ls.map (·.renumbered renumber)) st := by
  induction ls generalizing st with
  | nil => exact .const _
  | cons line rest ih =>
    exact (reader.renumbered_readLine nested line st).bind fun next => ih next

theorem renumbered_readWhole {text text' : Text}
    (h : LogicalLine.ofText text' = (LogicalLine.ofText text).map (·.renumbered renumber))
    (mode : KeyCase) :
    Renumbered renumber (fun file => reader.readWhole nested file mode text)
      fun file => reader.readWhole nested file mode text' := by
  unfold readWhole
  rw [h]
  refine (reader.renumbered_readLines nested _ _).bind fun st => ?_
  by_cases hopen : st.openSections.isEmpty
  · simp only [if_pos hopen]
    exact .const _
  · simp only [if_neg hopen]
    exact .fail (.inl fun _ => ⟨rfl, rfl⟩)

/-- A text whose lines are continued on further ones, any number of times, is read as it was: the
document or the error is the same and so are the warnings, where messages about a line of the text
give its number in the continued text. -/
theorem readText_continues {text continued : Text} (h : Continues renumber text continued)
    (mode : KeyCase) :
    Renumbered renumber (fun file => reader.readText file mode text)
      fun file => reader.readText file mode continued := by
  -- Included files are read by the same reader in both texts, so this is no induction on the depth.
  have hwithin : ∀ depth, Renumbered renumber
      (fun file => reader.readWithin depth file mode text)
      fun file => reader.readWithin depth file mode continued := by
    intro depth
    cases depth with
    | zero => exact reader.renumbered_readWhole none h.ofText mode
    | succ depth =>
      exact reader.renumbered_readWhole (some (reader.readWithin depth)) h.ofText mode
  exact (hwithin reader.services.limit).bind fun root => .const _

/-- A directive continued within its keyword, with a comment behind it. -/
def includeContinuation : Continuation where
  before := "<<inc".toList
  after := "lude f>> # lost\n\nwo\\#rd\n</y>\n".toList
  blanks := [' ', '\t']
  last := ⟨'c', rfl, rfl⟩
  first := ⟨'l', rfl, rfl⟩
  blank := by decide

/-- The included file has the name of the text itself. Its message keeps its number, and those of
the text do not. -/
theorem readText_continues_include :
    let reader : DocumentReader := ⟨{ limit := 1 }, {}, fun _ => .ok "lost\n".toList⟩
    let read : Text → Reading Document := reader.readText ['f'] .fold
    Renumbered (includeContinuation.renumber ∘ id)
        (fun file => reader.readText file .fold includeContinuation.text)
        (fun file => reader.readText file .fold includeContinuation.continued)
      ∧ (read includeContinuation.text).warnings
        = [.unmatchedLine ['f'] 1 "lost".toList, .unmatchedLine ['f'] 3 "wo#rd".toList]
      ∧ (read includeContinuation.text).outcome
        = .error (.structural ['f'] (some 4) (.closeOutside ['y']) [])
      ∧ (read includeContinuation.continued).warnings
        = [.unmatchedLine ['f'] 1 "lost".toList, .unmatchedLine ['f'] 4 "wo#rd".toList]
      ∧ (read includeContinuation.continued).outcome
        = .error (.structural ['f'] (some 5) (.closeOutside ['y']) []) := by
  intro reader read
  have hcontinues : Continues (includeContinuation.renumber ∘ id) includeContinuation.text
      includeContinuation.continued := .continued includeContinuation (.refl _)
  have htext : (read includeContinuation.text).outcome.map (fun _ => ())
      = .error (.structural ['f'] (some 4) (.closeOutside ['y']) []) := by
    decide +kernel
  have hcontinued : (read includeContinuation.continued).outcome.map (fun _ => ())
      = .error (.structural ['f'] (some 5) (.closeOutside ['y']) []) := by
    decide +kernel
  exact ⟨reader.readText_continues hcontinues .fold, by decide +kernel,
    Outcome.map_eq_error_iff.mp htext, by decide +kernel, Outcome.map_eq_error_iff.mp hcontinued⟩

end DocumentReader

end WorkflowControl
