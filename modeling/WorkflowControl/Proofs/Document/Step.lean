import WorkflowControl.Proofs.Document.ReadTree
import WorkflowControl.Proofs.Outcome

/-!
What a line that is no directive does to the state of reading, apart from where it stands and how it
is reported if it is refused (`ReadState.after?`). Reading lines without a directive is going through
these steps (`readLines_toOption`), so whether they are accepted, and what they build, depends on
what they say and on the state before them only.

Keys of tags are lowered, so an open section is at the place that the open keys name, and it stays
there: the section that is written into is always found (`isSome_current?_of_after?`). And what is
open after some lines does not depend on the tree (`openSections_after?`).
-/

namespace WorkflowControl

namespace Line

/-- What the logical lines of a text say. -/
def ofText (t : Text) : List Line := (LogicalLine.ofText t).map fun l => classify l.text

theorem ofText_eq (t : Text) : ofText t = (LogicalLine.textsOf t.lines).map classify := by
  rw [LogicalLine.textsOf, ← LogicalLine.texts_ofText, ofText, List.map_map]
  rfl

/-- Whether the keys of an opening tag are lowered. -/
def Lowered : Line → Prop
  | openSection key label => key.lower = key ∧ ∀ name ∈ label, name.lower = name
  | _ => True

theorem lowered_classify (line : Text) : (classify line).Lowered := by
  unfold classify
  split
  · exact trivial
  split
  · exact trivial
  split
  · exact trivial
  split
  · rename_i name label _
    refine ⟨Text.lower_lower name, fun lowered hmem => ?_⟩
    obtain ⟨name, -, rfl⟩ := Option.map_eq_some_iff.mp hmem
    exact Text.lower_lower name
  split
  · exact trivial
  · exact trivial

theorem lowered_of_mem_ofText {t : Text} {line : Line} (h : line ∈ ofText t) : line.Lowered := by
  obtain ⟨l, -, rfl⟩ := List.mem_map.mp h
  exact lowered_classify l.text

end Line

namespace ReadState

open Section

/-- The state with a section opened inside the innermost open one. -/
def entered? (st : ReadState) (opened : OpenSection) : Option ReadState :=
  st.current?.bind fun cur => (cur.withSection? opened.key).map fun new =>
    ⟨st.root.replaceAt st.path new, opened :: st.openSections⟩

/-- The state with the section of a label opened as well, if there is one. -/
def labelled? (st : ReadState) : Option Text → Option ReadState
  | none => some st
  | some label => st.entered? ⟨label, true⟩

/-- The sections that are open after a closing tag. -/
def closed? (key : Text) : List OpenSection → Option (List OpenSection)
  | [] => none
  | [top] => if top.key = key then some [] else none
  | top :: below :: rest =>
    if top.key = key then some (below :: rest)
    else if top.isLabel ∧ below.key = key then some rest else none

/-- The state after a line that is no directive, if the line is accepted. -/
def after? (st : ReadState) : Line → Option ReadState
  | .pair key value => st.current?.map fun cur => st.put (cur.insert key (.scalar value))
  | .openSection key label =>
    if st.path.getLast? = some key then none
    else (st.entered? ⟨key, false⟩).bind fun opened => opened.labelled? label
  | .close key => (closed? key st.openSections).map fun rest => { st with openSections := rest }
  | .unmatched => some st
  | .includeFile _ => none
  | .includeCall _ => none

/-- The state after lines that are no directives. -/
def afterAll? (st : ReadState) : List Line → Option ReadState
  | [] => some st
  | line :: rest => (st.after? line).bind fun next => next.afterAll? rest

theorem after?_openSection_eq_some_iff {st st' : ReadState} {key : Text} {label : Option Text} :
    st.after? (.openSection key label) = some st' ↔ st.path.getLast? ≠ some key
      ∧ ∃ opened, st.entered? ⟨key, false⟩ = some opened ∧ opened.labelled? label = some st' := by
  dsimp only [after?]
  by_cases hname : st.path.getLast? = some key
  · rw [if_pos hname]
    exact ⟨fun h => absurd h nofun, fun h => absurd hname h.1⟩
  · rw [if_neg hname, Option.bind_eq_some_iff]
    exact (and_iff_right hname).symm

theorem afterAll?_append (st : ReadState) (lines more : List Line) :
    st.afterAll? (lines ++ more) = (st.afterAll? lines).bind fun next => next.afterAll? more := by
  induction lines generalizing st with
  | nil => rfl
  | cons line rest ih =>
    rw [List.cons_append, afterAll?, afterAll?, Option.bind_assoc]
    exact congrArg _ (funext fun next => ih next)

/-! ## Steps and operations -/

variable {st st' : ReadState} (pos : Position)

theorem insertPair_toOption (st : ReadState) (key value : Text) :
    (st.insertPair pos key value).toOption = st.after? (.pair key value) := by
  unfold insertPair after?
  cases hcur : st.current? with
  | none =>
    rw [modifyAt?_of_none hcur]
    rfl
  | some cur =>
    rw [modifyAt?_eq hcur]
    rfl

theorem enter_toOption (st : ReadState) (opened : OpenSection) :
    (st.enter pos opened).toOption = st.entered? opened := by
  unfold enter entered?
  cases hcur : st.current? with
  | none => rfl
  | some cur =>
    dsimp only [Option.bind_some]
    rw [modifyAt?_eq hcur]
    cases cur.withSection? opened.key <;> rfl

theorem openTag_toOption (st : ReadState) (key : Text) (label : Option Text) :
    (st.openTag pos key label).toOption = st.after? (.openSection key label) := by
  unfold openTag
  dsimp only [after?]
  rw [getLast?_path]
  split
  · rfl
  · rw [← enter_toOption pos]
    cases st.enter pos ⟨key, false⟩ with
    | error e => rfl
    | ok opened =>
      cases label with
      | none => rfl
      | some label => exact enter_toOption pos opened ⟨label, true⟩

theorem closeTag_toOption (st : ReadState) (key : Text) :
    (st.closeTag pos key).toOption = st.after? (.close key) := by
  unfold closeTag after?
  cases st.openSections with
  | nil => rfl
  | cons top rest =>
    cases rest with
    | nil =>
      dsimp only [closed?]
      split <;> rfl
    | cons below rest =>
      dsimp only [closed?]
      by_cases htop : top.key = key
      · rw [if_pos htop, if_pos htop]
        rfl
      · rw [if_neg htop, if_neg htop]
        cases top.isLabel with
        | false => rfl
        | true =>
          by_cases hbelow : below.key = key <;> simp [hbelow, Except.toOption]

/-! ## The place of the innermost open section -/

theorem entered?_eq_some_iff {opened : OpenSection} :
    st.entered? opened = some st' ↔ ∃ cur new, st.current? = some cur
      ∧ cur.withSection? opened.key = some new
      ∧ st' = ⟨st.root.replaceAt st.path new, opened :: st.openSections⟩ := by
  unfold entered?
  constructor
  · intro h
    obtain ⟨cur, hcur, h⟩ := Option.bind_eq_some_iff.mp h
    obtain ⟨new, hnew, rfl⟩ := Option.map_eq_some_iff.mp h
    exact ⟨cur, new, hcur, hnew, rfl⟩
  · intro hgiven
    obtain ⟨cur, new, hcur, hnew, rfl⟩ := hgiven
    rw [hcur, Option.bind_some, hnew]
    rfl

theorem closed?_suffix {key : Text} {opened rest : List OpenSection}
    (h : closed? key opened = some rest) : rest <:+ opened := by
  unfold closed? at h
  split at h
  · cases h
  · split at h
    · obtain rfl := Option.some.inj h
      exact List.nil_suffix
    · cases h
  · rename_i top below others
    split at h
    · obtain rfl := Option.some.inj h
      exact List.suffix_cons top _
    · split at h
      · obtain rfl := Option.some.inj h
        exact ⟨[top, below], rfl⟩
      · cases h

/-- What is found with some sections open is found with fewer of them open. -/
theorem isSome_current?_of_suffix {rest : List OpenSection} (h : rest <:+ st.openSections)
    (hcur : st.current?.isSome) : (current? { st with openSections := rest }).isSome := by
  obtain ⟨closed, hclosed⟩ := h
  have hpath : st.path = path { st with openSections := rest }
      ++ (closed.map OpenSection.key).reverse := by
    simp [path, ← hclosed]
  rw [current?, hpath, at?_append] at hcur
  exact Option.isSome_of_isSome_bind hcur

/-- A section that was opened is there. -/
theorem exists_getSection?_of_withSection? {s new : Section} {key : Text} (hkey : key.lower = key)
    (h : s.withSection? key = some new) : ∃ child, new.getSection? key = some child := by
  rcases withSection?_cases h with ⟨hchild, rfl⟩ | ⟨-, rfl⟩
  · rwa [hkey] at hchild
  · rw [hkey]
    exact ⟨_, getSection?_put s ⟨s.mode.ofChild key, []⟩ key⟩

theorem isSome_current?_of_entered? {opened : OpenSection} (hkey : opened.key.lower = opened.key)
    (h : st.entered? opened = some st') : st'.current?.isSome := by
  obtain ⟨cur, new, hcur, hnew, rfl⟩ := entered?_eq_some_iff.mp h
  obtain ⟨child, hchild⟩ := exists_getSection?_of_withSection? hkey hnew
  have hroot : (st.root.replaceAt st.path new).at? st.path = some new := at?_replaceAt hcur new
  rw [current?, path_cons]
  show ((st.root.replaceAt st.path new).at? (st.path ++ [opened.key])).isSome
  rw [at?_concat, hroot, Option.bind_some, hchild]
  rfl

/-- The section to write into is there after every line. -/
theorem isSome_current?_of_after? {line : Line} (hline : line.Lowered) (hcur : st.current?.isSome)
    (h : st.after? line = some st') : st'.current?.isSome := by
  cases line with
  | includeFile target => cases h
  | includeCall body => cases h
  | unmatched =>
    obtain rfl := Option.some.inj h
    exact hcur
  | close key =>
    obtain ⟨rest, hrest, rfl⟩ := Option.map_eq_some_iff.mp h
    exact isSome_current?_of_suffix (closed?_suffix hrest) hcur
  | pair key value =>
    obtain ⟨cur, hcur, rfl⟩ := Option.map_eq_some_iff.mp h
    rw [current?_put hcur]
    rfl
  | openSection key label =>
    obtain ⟨-, opened, hopened, h⟩ := after?_openSection_eq_some_iff.mp h
    cases label with
    | none =>
      obtain rfl := Option.some.inj h
      exact isSome_current?_of_entered? hline.1 hopened
    | some label => exact isSome_current?_of_entered? (hline.2 label rfl) h

/-! ## The open sections -/

theorem openSections_entered? {opened : OpenSection} (h : st.entered? opened = some st') :
    st'.openSections = opened :: st.openSections := by
  obtain ⟨cur, new, -, -, rfl⟩ := entered?_eq_some_iff.mp h
  rfl

/-- Which sections are open after a line depends on those that were open only. -/
theorem openSections_after? {other other' : ReadState} {line : Line}
    (h : st.after? line = some st') (ho : other.after? line = some other')
    (hopen : st.openSections = other.openSections) : st'.openSections = other'.openSections := by
  cases line with
  | includeFile target => cases h
  | includeCall body => cases h
  | unmatched =>
    obtain rfl := Option.some.inj h
    obtain rfl := Option.some.inj ho
    exact hopen
  | close key =>
    obtain ⟨rest, hrest, rfl⟩ := Option.map_eq_some_iff.mp h
    obtain ⟨rest', hrest', rfl⟩ := Option.map_eq_some_iff.mp ho
    rw [hopen, hrest'] at hrest
    exact (Option.some.inj hrest).symm
  | pair key value =>
    obtain ⟨cur, -, rfl⟩ := Option.map_eq_some_iff.mp h
    obtain ⟨cur', -, rfl⟩ := Option.map_eq_some_iff.mp ho
    exact hopen
  | openSection key label =>
    obtain ⟨-, opened, hopened, h⟩ := after?_openSection_eq_some_iff.mp h
    obtain ⟨-, opened', hopened', ho⟩ := after?_openSection_eq_some_iff.mp ho
    have hone : opened.openSections = opened'.openSections := by
      rw [openSections_entered? hopened, openSections_entered? hopened', hopen]
    cases label with
    | none =>
      obtain rfl := Option.some.inj h
      obtain rfl := Option.some.inj ho
      exact hone
    | some label => rw [openSections_entered? h, openSections_entered? ho, hone]

theorem openSections_afterAll? {other other' : ReadState} {lines : List Line}
    (h : st.afterAll? lines = some st') (ho : other.afterAll? lines = some other')
    (hopen : st.openSections = other.openSections) : st'.openSections = other'.openSections := by
  induction lines generalizing st other with
  | nil =>
    obtain rfl := Option.some.inj h
    obtain rfl := Option.some.inj ho
    exact hopen
  | cons line rest ih =>
    obtain ⟨next, hnext, h⟩ := Option.bind_eq_some_iff.mp h
    obtain ⟨next', hnext', ho⟩ := Option.bind_eq_some_iff.mp ho
    exact ih h ho (openSections_after? hnext hnext' hopen)

/-- What a rule asks of an entry that a line writes is all there is to check for the tree. -/
theorem Keeps.after? {rule : Rule} {mode : KeyCase} {line : Line} (h : st.Keeps rule mode)
    (hrule : rule.Admits line) (hst : st.after? line = some st') : st'.Keeps rule mode := by
  cases line with
  | includeFile target => cases hst
  | includeCall body => cases hst
  | unmatched =>
    obtain rfl := Option.some.inj hst
    exact h
  | close key =>
    rw [← closeTag_toOption ⟨[], 0⟩] at hst
    exact h.closeTag (Outcome.toOption_eq_some_iff.mp hst)
  | pair key value =>
    rw [← insertPair_toOption ⟨[], 0⟩] at hst
    exact h.insertPair (hrule.1 key value rfl) (Outcome.toOption_eq_some_iff.mp hst)
  | openSection key label =>
    rw [← openTag_toOption ⟨[], 0⟩] at hst
    exact h.openTag (hrule.2 key label rfl) (Outcome.toOption_eq_some_iff.mp hst)

/-- The tree that lines without a directive build, if they are accepted and close all sections. -/
def treeOf? (mode : KeyCase) (lines : List Line) : Option Section :=
  (afterAll? { root := { mode := mode } } lines).bind fun st =>
    if st.openSections.isEmpty then some st.root else none

theorem treeOf?_eq_some_iff {mode : KeyCase} {lines : List Line} {root : Section} :
    treeOf? mode lines = some root
      ↔ afterAll? { root := { mode := mode } } lines = some { root := root } := by
  unfold treeOf?
  constructor
  · intro h
    obtain ⟨st, hst, h⟩ := Option.bind_eq_some_iff.mp h
    split at h
    · rename_i hclosed
      obtain ⟨built, opened⟩ := st
      obtain rfl : opened = [] := List.isEmpty_iff.mp hclosed
      rw [hst, ← Option.some.inj h]
    · cases h
  · intro h
    rw [h]
    rfl

end ReadState

namespace DocumentReader

open ReadState

variable {reader : DocumentReader} {nested : Option TreeReader} {file : Text}

theorem readLine_toOption {line : LogicalLine} (h : ¬ (Line.classify line.text).IsDirective)
    (st : ReadState) :
    (reader.readLine nested file line st).outcome.toOption
      = st.after? (Line.classify line.text) := by
  unfold readLine
  cases hline : Line.classify line.text with
  | includeFile target =>
    rw [hline] at h
    exact absurd trivial h
  | includeCall body =>
    rw [hline] at h
    exact absurd trivial h
  | close key => exact closeTag_toOption _ st key
  | openSection key label => exact openTag_toOption _ st key label
  | pair key value => exact insertPair_toOption _ st key value
  | unmatched => rfl

/-- Reading lines without a directive is going through their steps. -/
theorem readLines_toOption {ls : List LogicalLine}
    (h : ∀ l ∈ ls, ¬ (Line.classify l.text).IsDirective) (st : ReadState) :
    (reader.readLines nested file ls st).outcome.toOption
      = st.afterAll? (ls.map fun l => Line.classify l.text) := by
  induction ls generalizing st with
  | nil => rfl
  | cons line rest ih =>
    have hfirst : (reader.readLine nested file line st).outcome.toOption = _ :=
      readLine_toOption (h line (by simp)) st
    rw [readLines_cons, List.map_cons, afterAll?, ← hfirst, Reading.andThen]
    cases (reader.readLine nested file line st).outcome with
    | error e => rfl
    | ok next => exact ih (fun l hl => h l (List.mem_cons_of_mem _ hl)) next

/-- Lines that are read behind others are read in the state behind these. -/
theorem readLines_append (ls more : List LogicalLine) (st : ReadState) :
    reader.readLines nested file (ls ++ more) st
      = (reader.readLines nested file ls st).andThen (reader.readLines nested file more) := by
  induction ls generalizing st with
  | nil => exact (Reading.pure_andThen st _).symm
  | cons line rest ih =>
    rw [List.cons_append, readLines_cons, readLines_cons, Reading.andThen_assoc]
    exact congrArg _ (funext fun next => ih next)

/-- A text without a directive is accepted if its lines build a tree, by every reader. -/
theorem readText_eq_ok_iff_treeOf? {mode : KeyCase} {text : Text} {doc : Document}
    (h : ∀ line ∈ Line.ofText text, ¬ line.IsDirective) :
    (reader.readText file mode text).outcome = .ok doc
      ↔ doc.searchOrder = [] ∧ treeOf? mode (Line.ofText text) = some doc.root := by
  have hls : ∀ l ∈ LogicalLine.ofText text, ¬ (Line.classify l.text).IsDirective :=
    fun l hl => h _ (List.mem_map_of_mem hl)
  rw [readText_eq_ok_iff, ← Outcome.toOption_eq_some_iff, readLines_toOption hls,
    treeOf?_eq_some_iff]
  rfl

end DocumentReader

end WorkflowControl
