import WorkflowControl.Proofs.Document.Reading
import WorkflowControl.Proofs.LineForms

/-!
The trees that reading makes. Where no line is a directive, every entry of the tree was said by a
line: a scalar by a pair, a child section by an opening tag. So a tree follows a rule if what its
lines say does (`readLines_follows`). For the lines of a text this gives what is known about any
tree that was read from one (`readText_follows`): keys are stored words, values are trimmed, have
no line end and no directive, and a child section has the mode that it gets where it stands.
-/

namespace WorkflowControl

namespace Line

/-- Whether a line includes a file or calls a function. -/
def IsDirective : Line → Prop
  | includeFile _ => True
  | includeCall _ => True
  | _ => False

instance : DecidablePred IsDirective := fun line => by
  cases line <;> unfold IsDirective <;> infer_instance

end Line

namespace Section

/-- Whether entries that a line writes obey a rule, in any section. -/
def Rule.Admits (rule : Rule) (line : Line) : Prop :=
  (∀ key value, line = .pair key value →
    ∀ mode : KeyCase, rule.scalar mode (mode.stored key) value)
  ∧ ∀ key label, line = .openSection key label →
    ∀ name, name = key ∨ label = some name →
      ∀ own (mode : KeyCase), rule.child own mode name.lower (mode.ofChild name.lower)

end Section

namespace Reading

theorem andThen_eq_ok {α β : Type} {r : Reading α} {next : α → Reading β} {b : β}
    (h : (r.andThen next).outcome = .ok b) : ∃ a, r.outcome = .ok a ∧ (next a).outcome = .ok b := by
  obtain ⟨ws, outcome⟩ := r
  cases outcome with
  | error e => cases h
  | ok a => exact ⟨a, rfl, h⟩

theorem andThen_eq_error {α β : Type} {r : Reading α} {next : α → Reading β} {e : Error}
    (h : (r.andThen next).outcome = .error e) :
    r.outcome = .error e ∨ ∃ a, r.outcome = .ok a ∧ (next a).outcome = .error e := by
  obtain ⟨ws, outcome⟩ := r
  cases outcome with
  | error e' =>
    obtain rfl := Except.error.inj h
    exact .inl rfl
  | ok a => exact .inr ⟨a, rfl, h⟩

end Reading

namespace ReadState

open Section

theorem insertPair_eq_ok {st st' : ReadState} {pos : Position} {key value : Text}
    (h : st.insertPair pos key value = .ok st') :
    ∃ cur, st.current? = some cur ∧ st' = st.put (cur.insert key (.scalar value)) := by
  unfold insertPair at h
  cases hcur : st.root.at? st.path with
  | none =>
    rw [modifyAt?_of_none hcur] at h
    cases h
  | some cur =>
    rw [modifyAt?_eq hcur, Option.map_some] at h
    exact ⟨cur, hcur, (Except.ok.inj h).symm⟩

theorem enter_eq_ok {st st' : ReadState} {pos : Position} {opened : OpenSection}
    (h : st.enter pos opened = .ok st') :
    ∃ cur new, st.current? = some cur ∧ cur.withSection? opened.key = some new
      ∧ st' = ⟨(st.put new).root, opened :: st.openSections⟩ := by
  unfold enter at h
  cases hcur : st.current? with
  | none =>
    rw [hcur] at h
    cases h
  | some cur =>
    rw [hcur] at h
    dsimp only at h
    rw [modifyAt?_eq hcur] at h
    cases hnew : cur.withSection? opened.key with
    | none =>
      rw [hnew] at h
      cases h
    | some new =>
      rw [hnew] at h
      exact ⟨cur, new, rfl, hnew, (Except.ok.inj h).symm⟩

theorem openTag_eq_ok {st st' : ReadState} {pos : Position} {key : Text} {label : Option Text}
    (h : st.openTag pos key label = .ok st') :
    st.openSections.head?.map OpenSection.key ≠ some key ∧
      ∃ opened, st.enter pos ⟨key, false⟩ = .ok opened ∧
        match label with
        | none => st' = opened
        | some label => opened.enter pos ⟨label, true⟩ = .ok st' := by
  unfold openTag at h
  split at h
  · cases h
  · rename_i hname
    refine ⟨hname, ?_⟩
    cases henter : st.enter pos ⟨key, false⟩ with
    | error e =>
      rw [henter] at h
      cases h
    | ok opened =>
      rw [henter] at h
      refine ⟨opened, rfl, ?_⟩
      cases label with
      | none => exact (Except.ok.inj h).symm
      | some label => exact h

theorem closeTag_root {st st' : ReadState} {pos : Position} {key : Text}
    (h : st.closeTag pos key = .ok st') : st'.root = st.root := by
  unfold closeTag at h
  split at h
  · cases h
  · split at h
    · rw [← Except.ok.inj h]
    · cases h
  · split at h
    · rw [← Except.ok.inj h]
    · split at h
      · split at h
        · rw [← Except.ok.inj h]
        · cases h
      · cases h

/-- Whether the tree of a state follows a rule under a top level of the given mode. -/
def Keeps (rule : Rule) (mode : KeyCase) (st : ReadState) : Prop :=
  st.root.Follows rule none ∧ st.root.mode = mode

section

variable {rule : Rule} {mode : KeyCase} {st st' : ReadState} {pos : Position}

theorem Keeps.put {cur new : Section} (h : st.Keeps rule mode) (hcur : st.current? = some cur)
    (hmode : new.mode = cur.mode) (hnew : new.Follows rule (st.path.getLast?.or none)) :
    (st.put new).Keeps rule mode :=
  ⟨h.1.replaceAt hcur hmode hnew, (mode_replaceAt hcur hmode).trans h.2⟩

theorem Keeps.insertPair {key value : Text} (h : st.Keeps rule mode)
    (hrule : ∀ mode : KeyCase, rule.scalar mode (mode.stored key) value)
    (hok : st.insertPair pos key value = .ok st') : st'.Keeps rule mode := by
  obtain ⟨cur, hcur, rfl⟩ := insertPair_eq_ok hok
  have hfollows : cur.Follows rule (st.path.getLast?.or none) := h.1.at hcur
  exact h.put hcur rfl (hfollows.put_scalar (hrule cur.mode))

theorem Keeps.enter {opened : OpenSection} (h : st.Keeps rule mode)
    (hrule : ∀ own (mode : KeyCase),
      rule.child own mode opened.key.lower (mode.ofChild opened.key.lower))
    (hok : st.enter pos opened = .ok st') : st'.Keeps rule mode := by
  obtain ⟨cur, new, hcur, hnew, rfl⟩ := enter_eq_ok hok
  have hfollows : cur.Follows rule (st.path.getLast?.or none) := h.1.at hcur
  obtain ⟨hmode, hnew⟩ := hfollows.withSection? (hrule _ cur.mode) hnew
  exact h.put hcur hmode hnew

theorem Keeps.openTag {key : Text} {label : Option Text} (h : st.Keeps rule mode)
    (hrule : ∀ name, name = key ∨ label = some name → ∀ own (mode : KeyCase),
      rule.child own mode name.lower (mode.ofChild name.lower))
    (hok : st.openTag pos key label = .ok st') : st'.Keeps rule mode := by
  obtain ⟨-, opened, henter, hlabel⟩ := openTag_eq_ok hok
  have hopened : opened.Keeps rule mode := h.enter (hrule key (.inl rfl)) henter
  cases label with
  | none => rwa [hlabel]
  | some label => exact hopened.enter (hrule label (.inr rfl)) hlabel

theorem Keeps.closeTag {key : Text} (h : st.Keeps rule mode)
    (hok : st.closeTag pos key = .ok st') : st'.Keeps rule mode := by
  rw [Keeps, closeTag_root hok]
  exact h

end

end ReadState

namespace DocumentReader

open Section

variable {reader : DocumentReader} {nested : Option TreeReader} {file : Text} {rule : Rule}
  {mode : KeyCase}

/-- Reading a line that a rule admits keeps a tree to the rule. -/
theorem readLine_keeps {line : LogicalLine} {st st' : ReadState}
    (hdirective : ¬ (Line.classify line.text).IsDirective)
    (hrule : rule.Admits (Line.classify line.text)) (h : st.Keeps rule mode)
    (hok : (reader.readLine nested file line st).outcome = .ok st') : st'.Keeps rule mode := by
  unfold readLine at hok
  cases hline : Line.classify line.text with
  | includeFile target =>
    rw [hline] at hdirective
    exact absurd trivial hdirective
  | includeCall body =>
    rw [hline] at hdirective
    exact absurd trivial hdirective
  | close key =>
    rw [hline] at hok
    exact h.closeTag hok
  | openSection key label =>
    rw [hline] at hok hrule
    exact h.openTag (hrule.2 key label rfl) hok
  | pair key value =>
    rw [hline] at hok hrule
    exact h.insertPair (hrule.1 key value rfl) hok
  | unmatched =>
    rw [hline] at hok
    obtain rfl := Except.ok.inj hok
    exact h

/-- Reading lines that a rule admits keeps a tree to the rule. -/
theorem readLines_keeps {ls : List LogicalLine} {st st' : ReadState}
    (hdirective : ∀ l ∈ ls, ¬ (Line.classify l.text).IsDirective)
    (hrule : ∀ l ∈ ls, rule.Admits (Line.classify l.text)) (h : st.Keeps rule mode)
    (hok : (reader.readLines nested file ls st).outcome = .ok st') : st'.Keeps rule mode := by
  induction ls generalizing st with
  | nil =>
    obtain rfl := Except.ok.inj hok
    exact h
  | cons line rest ih =>
    rw [readLines_cons] at hok
    obtain ⟨next, hline, hrest⟩ := Reading.andThen_eq_ok hok
    have hnext := readLine_keeps (hdirective line (by simp)) (hrule line (by simp)) h hline
    exact ih (fun l hl => hdirective l (List.mem_cons_of_mem _ hl))
      (fun l hl => hrule l (List.mem_cons_of_mem _ hl)) hnext hrest

/-- The reader of the files that a file includes, where `depth` levels may follow. -/
def included? (reader : DocumentReader) : (depth : Nat) → Option TreeReader
  | 0 => none
  | depth + 1 => some (reader.readWithin depth)

theorem readWithin_eq (reader : DocumentReader) (depth : Nat) :
    reader.readWithin depth = reader.readWhole (reader.included? depth) := by
  cases depth <;> rfl

/-- A tree is made only of a state without open sections, so the root is all there is. -/
theorem readWhole_eq_ok_iff {text : Text} {root : Section} :
    (reader.readWhole nested file mode text).outcome = .ok root
      ↔ (reader.readLines nested file (LogicalLine.ofText text)
          { root := { mode := mode } }).outcome = .ok { root := root } := by
  unfold readWhole
  constructor
  · intro h
    obtain ⟨st, hst, hend⟩ := Reading.andThen_eq_ok h
    rw [hst]
    split at hend
    · rename_i hclosed
      obtain ⟨built, opened⟩ := st
      obtain rfl : opened = [] := List.isEmpty_iff.mp hclosed
      rw [← Except.ok.inj hend]
    · cases hend
  · intro h
    show (Reading.andThen _ _).outcome = _
    rw [Reading.andThen, h]
    rfl

theorem readText_eq_ok_iff {text : Text} {doc : Document} :
    (reader.readText file mode text).outcome = .ok doc
      ↔ doc.searchOrder = []
        ∧ (reader.readLines (reader.included? reader.services.limit) file (LogicalLine.ofText text)
          { root := { mode := mode } }).outcome = .ok { root := doc.root } := by
  rw [← readWhole_eq_ok_iff, ← readWithin_eq, readText]
  constructor
  · intro h
    obtain ⟨root, hroot, hdoc⟩ := Reading.andThen_eq_ok h
    obtain rfl := Except.ok.inj hdoc
    exact ⟨rfl, hroot⟩
  · intro hgiven
    obtain ⟨horder, hroot⟩ := hgiven
    show (Reading.andThen _ _).outcome = _
    rw [Reading.andThen, hroot]
    obtain ⟨root, order⟩ := doc
    obtain rfl : order = [] := horder
    rfl

/-- A text that is accepted was read line by line, and all sections are closed in the end. -/
theorem readText_eq_ok {text : Text} {doc : Document}
    (h : (reader.readText file mode text).outcome = .ok doc) :
    ∃ nested, (reader.readLines nested file (LogicalLine.ofText text)
      { root := { mode := mode } }).outcome = .ok { root := doc.root } :=
  ⟨reader.included? reader.services.limit, (readText_eq_ok_iff.mp h).2⟩

/-- A tree follows a rule that the lines of its text are admitted by. -/
theorem readText_follows {text : Text} {doc : Document}
    (hdirective : ∀ l ∈ LogicalLine.ofText text, ¬ (Line.classify l.text).IsDirective)
    (hrule : ∀ l ∈ LogicalLine.ofText text, rule.Admits (Line.classify l.text))
    (hread : (reader.readText file mode text).outcome = .ok doc) :
    doc.root.Follows rule none ∧ doc.root.mode = mode := by
  obtain ⟨nested, hlines⟩ := readText_eq_ok hread
  exact readLines_keeps hdirective hrule ⟨follows_empty rule none mode, rfl⟩ hlines

/-- Whether a reader has no file to include and no function to call. -/
structure IncludesNothing (reader : DocumentReader) : Prop where
  file : ∀ path, ∃ e, reader.readInclude path = .error e
  call : ∀ name, reader.services.functions.sectionFunction? name = none

/-- A directive is an error for a reader that includes nothing. -/
theorem IncludesNothing.readLine {line : LogicalLine} {st st' : ReadState}
    (h : reader.IncludesNothing)
    (hok : (reader.readLine nested file line st).outcome = .ok st') :
    ¬ (Line.classify line.text).IsDirective := by
  unfold DocumentReader.readLine at hok
  cases hline : Line.classify line.text with
  | includeFile target =>
    rw [hline] at hok
    unfold includeFile at hok
    cases nested with
    | none => cases hok
    | some nested =>
      obtain ⟨expanded, -, hexpanded⟩ := Reading.andThen_eq_ok hok
      obtain ⟨text, htext, -⟩ := Reading.andThen_eq_ok hexpanded
      obtain ⟨e, he⟩ := h.file (reader.environment.expandPath expanded)
      rw [he] at htext
      cases htext
  | includeCall body =>
    rw [hline] at hok
    unfold includeCall at hok
    dsimp only at hok
    split at hok
    · cases hok
    · obtain ⟨args, -, hargs⟩ := Reading.andThen_eq_ok hok
      obtain ⟨added, hadded, -⟩ := Reading.andThen_eq_ok hargs
      rw [FunctionTable.callSection, h.call] at hadded
      cases hadded
  | close key => exact not_false
  | openSection key label => exact not_false
  | pair key value => exact not_false
  | unmatched => exact not_false

theorem IncludesNothing.readLines {ls : List LogicalLine} {st st' : ReadState}
    (h : reader.IncludesNothing) (hok : (reader.readLines nested file ls st).outcome = .ok st') :
    ∀ l ∈ ls, ¬ (Line.classify l.text).IsDirective := by
  induction ls generalizing st with
  | nil => exact fun _ hl => absurd hl List.not_mem_nil
  | cons line rest ih =>
    rw [readLines_cons] at hok
    obtain ⟨next, hline, hrest⟩ := Reading.andThen_eq_ok hok
    intro l hl
    rcases List.mem_cons.mp hl with rfl | hl
    · exact h.readLine hline
    · exact ih hrest l hl

/-- What holds of every entry of a tree that is read from a text without directives. -/
def asRead : Rule where
  scalar mode key value :=
    Text.IsWord key ∧ mode.stored key = key ∧ value.trim = value ∧ '\n' ∉ value
      ∧ Line.firstSome? Line.includeHere? value = none
      ∧ Line.firstSome? Line.callHere? value = none
      ∧ ¬ (key = ['<', '/'] ∧ value = ['>'])
  child _ mode key childMode :=
    Text.IsWord key ∧ key.lower = key ∧ childMode = mode.ofChild key

theorem isWord_stored (mode : KeyCase) {key : Text} (h : Text.IsWord key) :
    Text.IsWord (mode.stored key) := by
  cases mode with
  | fold => exact Line.isWord_lower h
  | preserve => exact h

theorem stored_stored (mode : KeyCase) (key : Text) :
    mode.stored (mode.stored key) = mode.stored key := by
  cases mode with
  | fold => exact Text.lower_lower key
  | preserve => rfl

theorem stored_eq_tag (mode : KeyCase) {key : Text} (h : mode.stored key = ['<', '/']) :
    key = ['<', '/'] := by
  cases mode with
  | fold =>
    have hlower : key.lower = ['<', '/'] := h
    have hsigns : ∀ d ∈ key.lower, Text.IsSign d := by
      rw [hlower]
      decide
    rwa [Text.lower_eq_self_of_signs hsigns] at hlower
  | preserve => exact h

theorem asRead_admits {line : Text} (hnewline : '\n' ∉ line) :
    asRead.Admits (Line.classify line) := by
  constructor
  · intro key value hline mode
    obtain ⟨hword, htrim, hsuffix, hinclude, hcall, htag⟩ := Line.classify_pair_form hline
    refine ⟨isWord_stored mode hword, stored_stored mode key, htrim, ?_, hinclude, hcall, ?_⟩
    · exact fun hmem => hnewline ((Text.trim_infix_self line).subset (hsuffix.subset hmem))
    · exact fun ⟨hkey, hvalue⟩ => htag ⟨stored_eq_tag mode hkey, hvalue⟩
  · intro key label hline name hname own mode
    obtain ⟨hkey, hlabel⟩ := Line.isWord_of_classify_openSection hline
    refine ⟨?_, Text.lower_lower name, rfl⟩
    rcases hname with rfl | hname
    · exact hkey
    · exact hlabel name hname

end DocumentReader

end WorkflowControl
