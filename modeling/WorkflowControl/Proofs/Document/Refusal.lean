import WorkflowControl.Proofs.Document.Failure
import WorkflowControl.Proofs.Document.Grammar
import WorkflowControl.Proofs.LineSpan

/-!
Where a text is refused, and where it need not be. A text without directives is refused at the first
logical line that its tags are wrong at: the lines before it are accepted, and no text that begins
with the same physical lines is (`refusedAt_of_error`). Whatever lines are accepted can be
completed: with a closing tag for each section that is open behind them, the innermost first, they
are a text that is accepted (`readText_closed`).

The first is said of one line and followed to the end of a text. The second rests on what is open:
the keys of open sections are words, in the form that a closing tag is read in
(`namesWords_afterAll?`), so each tag closes the section that it is written for.
-/

namespace WorkflowControl

open LogicalLine

namespace ReadState

variable {st st' : ReadState}

/-! ## The keys of open sections -/

/-- Whether the keys of the open sections are words as they are stored, so that closing tags can be
written for them. -/
def NamesWords (st : ReadState) : Prop :=
  ∀ opened ∈ st.openSections, Text.IsWord opened.key ∧ opened.key.lower = opened.key

theorem namesWords_nil (root : Section) : NamesWords { root := root } := by
  intro opened hopened
  cases hopened

theorem namesWords_entered? {opened : OpenSection} (h : st.NamesWords)
    (hkey : Text.IsWord opened.key ∧ opened.key.lower = opened.key)
    (hst : st.entered? opened = some st') : st'.NamesWords := by
  rw [NamesWords, openSections_entered? hst]
  exact List.forall_mem_cons.mpr ⟨hkey, h⟩

/-- A line opens no section but by a word. -/
theorem namesWords_after? {text : Text} (h : st.NamesWords)
    (hst : st.after? (Line.classify text) = some st') : st'.NamesWords := by
  have hlowered := Line.lowered_classify text
  cases hline : Line.classify text with
  | includeFile target =>
    rw [hline] at hst
    cases hst
  | includeCall body =>
    rw [hline] at hst
    cases hst
  | unmatched =>
    rw [hline] at hst
    obtain rfl := Option.some.inj hst
    exact h
  | pair key value =>
    rw [hline] at hst
    obtain ⟨cur, -, rfl⟩ := Option.map_eq_some_iff.mp hst
    exact h
  | close key =>
    rw [hline] at hst
    obtain ⟨rest, hrest, rfl⟩ := Option.map_eq_some_iff.mp hst
    exact fun opened hopened => h opened ((closed?_suffix hrest).subset hopened)
  | openSection key label =>
    rw [hline] at hst hlowered
    obtain ⟨hkey, hlabel⟩ := Line.isWord_of_classify_openSection hline
    rw [hlowered.1] at hkey
    obtain ⟨-, opened, hopened, hst⟩ := after?_openSection_eq_some_iff.mp hst
    have hopen : opened.NamesWords := namesWords_entered? h ⟨hkey, hlowered.1⟩ hopened
    cases label with
    | none =>
      obtain rfl := Option.some.inj hst
      exact hopen
    | some label =>
      have hname := hlowered.2 label rfl
      have hword := hlabel label rfl
      rw [hname] at hword
      exact namesWords_entered? hopen ⟨hword, hname⟩ hst

theorem namesWords_afterAll? {texts : List Text} (h : st.NamesWords)
    (hst : st.afterAll? (texts.map Line.classify) = some st') : st'.NamesWords := by
  induction texts generalizing st with
  | nil =>
    obtain rfl := Option.some.inj hst
    exact h
  | cons text rest ih =>
    obtain ⟨next, hnext, hst⟩ := Option.bind_eq_some_iff.mp hst
    exact ih (namesWords_after? h hnext) hst

/-- A tag for each open section, the innermost first, leaves none open. -/
theorem afterAll?_closes (root : Section) (opened : List OpenSection) :
    afterAll? ⟨root, opened⟩ (opened.map fun top => .close top.key) = some { root := root } := by
  induction opened with
  | nil => rfl
  | cons top rest ih =>
    have hclose := after?_close_top { root := root } top rest
    show (ReadState.after? (Document.reading { root := root } (top :: rest)) _).bind _ = _
    rw [hclose, Option.bind_some]
    exact ih

end ReadState

namespace Line

/-- The lines that close sections are read as their tags, with hash signs in the keys. -/
theorem textsOf_closeTags {opened : List OpenSection}
    (h : ∀ top ∈ opened, Text.IsWord top.key) :
    textsOf (opened.map fun top => (closeTag top.key).escapeHash)
      = opened.map fun top => closeTag top.key := by
  have htrim : ∀ top ∈ opened, ((closeTag top.key).escapeHash).trim
      = (closeTag top.key).escapeHash := by
    intro top htop
    rw [Text.trim_escapeHash, Text.trim_of_blank_free (blank_free_closeTag (h top htop))]
  have hlast : ∀ l ∈ opened.map fun top => (closeTag top.key).escapeHash,
      l.trim.getLast? ≠ some '\\' := by
    intro l hl
    obtain ⟨top, htop, rfl⟩ := List.mem_map.mp hl
    rw [htrim top htop, Text.getLast_escapeHash, getLast_closeTag]
    decide
  have htexts : ((opened.map fun top => (closeTag top.key).escapeHash).map Text.trim).map
      withoutComment = opened.map fun top => closeTag top.key := by
    rw [List.map_map, List.map_map]
    refine List.map_congr_left fun top htop => ?_
    rw [Function.comp_apply, Function.comp_apply, htrim top htop, withoutComment_escapeHash]
  rw [textsOf, texts_join _ 0 hlast, htexts, List.filter_eq_self]
  intro l hl
  obtain ⟨top, htop, rfl⟩ := List.mem_map.mp hl
  rw [Text.trim_of_blank_free (blank_free_closeTag (h top htop))]
  rfl

end Line

namespace DocumentReader

open ReadState

variable {reader : DocumentReader} {nested : Option TreeReader} {file : Text} {mode : KeyCase}
  {text : Text}

/-! ## Reading up to a line -/

theorem readLine_eq_error {l : LogicalLine} {st : ReadState} {e : Error}
    (hdirective : ¬ (Line.classify l.text).IsDirective)
    (h : (reader.readLine nested file l st).outcome = .error e) :
    ∃ fault, e = .structural file (some l.number) fault
      (st.refusalPath (Line.classify l.text)) := by
  unfold readLine at h
  cases hline : Line.classify l.text with
  | includeFile target =>
    rw [hline] at hdirective
    exact absurd trivial hdirective
  | includeCall body =>
    rw [hline] at hdirective
    exact absurd trivial hdirective
  | close key =>
    rw [hline] at h
    exact (st.reports_closeTag key).eq_error h
  | openSection key label =>
    rw [hline] at h
    exact (st.reports_openTag key label).eq_error h
  | pair key value =>
    rw [hline] at h
    exact (st.reports_insertPair key value).eq_error h
  | unmatched =>
    rw [hline] at h
    cases h

/-- Reading that fails has come to a line that it fails at. -/
theorem exists_refused {ls : List LogicalLine} {st : ReadState} {e : Error}
    (h : (reader.readLines nested file ls st).outcome = .error e) :
    ∃ before l after st', ls = before ++ l :: after
      ∧ (reader.readLines nested file before st).outcome = .ok st'
      ∧ (reader.readLine nested file l st').outcome = .error e := by
  induction ls generalizing st with
  | nil => cases h
  | cons line rest ih =>
    rw [readLines_cons] at h
    rcases Reading.andThen_eq_error h with hfirst | ⟨next, hfirst, hrest⟩
    · exact ⟨[], line, rest, st, rfl, rfl, hfirst⟩
    · obtain ⟨before, l, after, st', rfl, hbefore, hline⟩ := ih hrest
      refine ⟨line :: before, l, after, st', rfl, ?_, hline⟩
      rw [readLines_cons, Reading.andThen, hfirst]
      exact hbefore

/-- Where reading fails at a line, it fails whatever follows. -/
theorem readLines_refused {before : List LogicalLine} {l : LogicalLine} {st st' : ReadState}
    {e : Error} (hbefore : (reader.readLines nested file before st).outcome = .ok st')
    (hline : (reader.readLine nested file l st').outcome = .error e) (after : List LogicalLine) :
    (reader.readLines nested file (before ++ l :: after) st).outcome = .error e := by
  rw [readLines_append, Reading.andThen, hbefore]
  dsimp only
  rw [readLines_cons, Reading.andThen, hline]

/-- What reading a text ends in behind its lines. -/
def ended (file : Text) (st : ReadState) : Except Error Document :=
  if st.openSections.isEmpty then .ok { root := st.root }
  else .error (.structural file none .unclosed st.path)

theorem readText_outcome (reader : DocumentReader) (file : Text) (mode : KeyCase) (text : Text) :
    (reader.readText file mode text).outcome
      = (reader.readLines (reader.included? reader.services.limit) file (LogicalLine.ofText text)
          { root := { mode := mode } }).outcome.bind (ended file) := by
  unfold readText
  rw [readWithin_eq]
  unfold readWhole
  show (Reading.andThen (Reading.andThen _ _) _).outcome = _
  rw [Reading.andThen_assoc, Reading.andThen]
  cases (reader.readLines (reader.included? reader.services.limit) file (LogicalLine.ofText text)
    { root := { mode := mode } }).outcome with
  | error e => rfl
  | ok st =>
    dsimp only [Except.bind]
    rw [ended]
    split
    · rfl
    · rfl

/-- Whether physical line number `n` of a text ends a logical line that is refused: the lines before
it are accepted, and behind them it is not, with the keys in `stack` named. -/
def RefusedAt (mode : KeyCase) (text : Text) (n : Nat) (stack : List Text) : Prop :=
  ∃ (front physical : List Text) (l : LogicalLine) (st : ReadState),
    text.lines.take n = front ++ physical ∧ Complete front ∧ Spans front.length physical l
      ∧ l.number = n
      ∧ afterAll? { root := { mode := mode } } ((textsOf front).map Line.classify) = some st
      ∧ st.after? (Line.classify l.text) = none
      ∧ stack = st.refusalPath (Line.classify l.text)

/-- An error with a line number is one of the line that ends there, and of all texts that begin
so. -/
theorem refusedAt_of_error (hdirective : ∀ line ∈ Line.ofText text, ¬ line.IsDirective)
    (hcomplete : Complete text.lines) {f : Text} {n : Nat} {fault : StructuralFault}
    {stack : List Text}
    (h : (reader.readText file mode text).outcome = .error (.structural f (some n) fault stack)) :
    f = file ∧ RefusedAt mode text n stack
      ∧ ∀ other : Text, text.lines.take n <+: other.lines →
        (reader.readText file mode other).outcome
          = .error (.structural f (some n) fault stack) := by
  rw [readText_outcome] at h
  cases hlines : (reader.readLines (reader.included? reader.services.limit) file
      (LogicalLine.ofText text) { root := { mode := mode } }).outcome with
  | ok st =>
    rw [hlines] at h
    change ended file st = _ at h
    rw [ended] at h
    split at h
    · cases h
    · cases h
  | error e =>
    rw [hlines] at h
    obtain rfl := Except.error.inj h
    obtain ⟨before, l, after, st, hsplit, hbefore, hline⟩ := exists_refused hlines
    obtain ⟨front, physical, hstart, hfront, hown, hspans⟩ := exists_spans hcomplete hsplit
    have hls : ∀ l ∈ LogicalLine.ofText text, ¬ (Line.classify l.text).IsDirective :=
      fun l hl => hdirective _ (List.mem_map_of_mem hl)
    rw [hsplit] at hls
    have hplain : ¬ (Line.classify l.text).IsDirective :=
      hls l (List.mem_append_right _ List.mem_cons_self)
    obtain ⟨_, heq⟩ := readLine_eq_error hplain hline
    obtain ⟨rfl, hnumber, rfl, rfl⟩ := Error.structural.inj heq
    obtain rfl := Option.some.inj hnumber
    have htake : text.lines.take l.number = front ++ physical := by
      obtain ⟨back, hback⟩ := hstart
      rw [← hback, hspans.number]
      exact List.take_left' List.length_append
    have hafterAll : afterAll? { root := { mode := mode } } ((textsOf front).map Line.classify)
        = some st := by
      rw [← texts_uncommented, hown, List.map_map]
      have hsteps : (reader.readLines (reader.included? reader.services.limit) f before
          { root := { mode := mode } }).outcome.toOption = _ :=
        readLines_toOption (fun l hl => hls l (List.mem_append_left _ hl)) _
      rw [hbefore] at hsteps
      exact hsteps.symm
    have hafter : st.after? (Line.classify l.text) = none := by
      rw [← readLine_toOption hplain, hline]
      rfl
    refine ⟨rfl, ⟨front, physical, l, st, htake, hfront, hspans, rfl, hafterAll, hafter, rfl⟩, ?_⟩
    -- What is behind the line is never read, so another text may have anything there.
    intro other hother
    rw [htake] at hother
    obtain ⟨after', hafter'⟩ := hspans.ofText_eq hfront hother
    rw [readText_outcome, hafter', hown, readLines_refused hbefore hline]
    rfl

/-! ## Completing a text -/

/-- Lines at which nothing is refused are accepted. -/
theorem exists_afterAll? (hdirective : ∀ line ∈ Line.ofText text, ¬ line.IsDirective)
    (h : ∀ f n fault stack,
      (reader.readText file mode text).outcome ≠ .error (.structural f (some n) fault stack)) :
    ∃ st, afterAll? { root := { mode := mode } } (Line.ofText text) = some st
      ∧ (reader.readText file mode text).outcome = ended file st := by
  have hls : ∀ l ∈ LogicalLine.ofText text, ¬ (Line.classify l.text).IsDirective :=
    fun l hl => hdirective _ (List.mem_map_of_mem hl)
  rw [readText_outcome] at h ⊢
  have hsteps : (reader.readLines (reader.included? reader.services.limit) file
      (LogicalLine.ofText text) { root := { mode := mode } }).outcome.toOption = _ :=
    readLines_toOption hls _
  cases hlines : (reader.readLines (reader.included? reader.services.limit) file
      (LogicalLine.ofText text) { root := { mode := mode } }).outcome with
  | ok st =>
    rw [hlines] at hsteps
    exact ⟨st, hsteps.symm, rfl⟩
  | error e =>
    obtain ⟨before, l, after, st, hsplit, -, hline⟩ := exists_refused hlines
    have hmem : l ∈ LogicalLine.ofText text := by
      rw [hsplit]
      exact List.mem_append_right _ List.mem_cons_self
    obtain ⟨fault, rfl⟩ := readLine_eq_error (hls l hmem) hline
    rw [hlines] at h
    exact absurd rfl (h _ _ _ _)

/-- Accepted lines are a text that is accepted, with the tags that close what is open behind
them. -/
theorem readText_closed {front : List Text} (hfront : Complete front)
    (hdirective : ∀ line ∈ (textsOf front).map Line.classify, ¬ line.IsDirective) {st : ReadState}
    (hst : afterAll? { root := { mode := mode } } ((textsOf front).map Line.classify) = some st)
    {closed : Text} (hclosed : closed.lines
      = front ++ st.openSections.map fun top => (Line.closeTag top.key).escapeHash) :
    (reader.readText file mode closed).outcome = .ok { root := st.root } := by
  have hwords : st.NamesWords := namesWords_afterAll? (namesWords_nil _) hst
  have hmeaning : Line.ofText closed = (textsOf front).map Line.classify
      ++ st.openSections.map fun top => .close top.key := by
    rw [Line.ofText_eq, hclosed, textsOf_append hfront,
      Line.textsOf_closeTags fun top htop => (hwords top htop).1, List.map_append, List.map_map]
    refine congrArg _ (List.map_congr_left fun top htop => ?_)
    obtain ⟨hword, hlower⟩ := hwords top htop
    rw [Function.comp_apply, Line.classify_closeTag hword, hlower]
  have hplain : ∀ line ∈ Line.ofText closed, ¬ line.IsDirective := by
    intro line hline
    rw [hmeaning] at hline
    rcases List.mem_append.mp hline with hline | hline
    · exact hdirective line hline
    · obtain ⟨top, -, rfl⟩ := List.mem_map.mp hline
      exact id
  rw [readText_eq_ok_iff_treeOf? hplain, treeOf?_eq_some_iff, hmeaning, afterAll?_append, hst]
  exact ⟨rfl, afterAll?_closes st.root st.openSections⟩

/-- A text without directives is refused at a line only if the line is wrong behind the lines before
it, and no text that begins with the same physical lines is accepted then. Lines at which nothing is
refused are the beginning of a text that is accepted: it goes on with a closing tag for each open
section. -/
theorem readText_refusals (reader : DocumentReader) (file : Text) (mode : KeyCase)
    (hdirective : ∀ line ∈ Line.ofText text, ¬ line.IsDirective) (hcomplete : Complete text.lines) :
    (∀ f n fault stack,
      (reader.readText file mode text).outcome = .error (.structural f (some n) fault stack) →
        f = file ∧ RefusedAt mode text n stack
          ∧ ∀ other : Text, text.lines.take n <+: other.lines →
            (reader.readText file mode other).outcome
              = .error (.structural f (some n) fault stack))
      ∧ ∀ front, front <+: text.lines → Complete front →
        (∀ f n fault stack, (reader.readText file mode (Text.unlines front)).outcome
          ≠ .error (.structural f (some n) fault stack)) →
        ∃ st, afterAll? { root := { mode := mode } } ((textsOf front).map Line.classify) = some st
          ∧ (reader.readText file mode (Text.unlines front)).outcome = ended file st
          ∧ ∀ closed : Text, closed.lines
              = front ++ st.openSections.map (fun top => (Line.closeTag top.key).escapeHash) →
            (reader.readText file mode closed).outcome = .ok { root := st.root } := by
  refine ⟨fun f n fault stack => refusedAt_of_error hdirective hcomplete, ?_⟩
  intro front hstart hfront haccepted
  have hnewline : ∀ l ∈ front, '\n' ∉ l :=
    fun l hl => newline_not_mem_lines (hstart.subset hl)
  have hmeaning : Line.ofText (Text.unlines front) = (textsOf front).map Line.classify := by
    rw [Line.ofText_eq, Text.lines_unlines hnewline]
  have hplain : ∀ line ∈ (textsOf front).map Line.classify, ¬ line.IsDirective := by
    obtain ⟨back, hback⟩ := hstart
    intro line hline
    refine hdirective line ?_
    rw [Line.ofText_eq, ← hback, textsOf_append hfront, List.map_append]
    exact List.mem_append_left _ hline
  obtain ⟨st, hst, hended⟩ := exists_afterAll? (by rwa [hmeaning]) haccepted
  rw [hmeaning] at hst
  exact ⟨st, hst, hended, fun closed => readText_closed hfront hplain hst⟩

/-- A text in which the label of a tag is taken by a value, and the tag is continued on a further
line. -/
def takenLabelText : Text :=
  "<a \\#b>\n<c>\nd = \\\n1\n</c>\n<c \\\nd>\n</a>\n".toList

/-- The text is refused at the line that ends the tag, with the key of the tag behind those of the
open sections, and it could have been completed before that line. -/
theorem readText_refusals_takenLabel :
    let reader : DocumentReader := ⟨{}, {}, fun _ => .error .notFound⟩
    let fault : Error := .structural [] (some 7) (.nameTaken ['d']) [['a'], ['#', 'b'], ['c']]
    let front : List Text := takenLabelText.lines.take 5
    RefusedAt .fold takenLabelText 7 [['a'], ['#', 'b'], ['c']]
      ∧ (∀ other : Text, takenLabelText.lines.take 7 <+: other.lines →
        (reader.readText [] .fold other).outcome = .error fault)
      ∧ (reader.readText [] .fold (Text.unlines front)).outcome
        = .error (.structural [] none .unclosed [['a'], ['#', 'b']])
      ∧ (reader.readText [] .fold
          (Text.unlines (front ++ ["</\\#b>".toList, "</a>".toList]))).outcome
        = .ok { root := { entries := [(['a'], .subsection .fold [(['#', 'b'], .subsection .fold
            [(['c'], .subsection .fold [(['d'], .scalar ['1'])])])])] } } := by
  intro reader fault front
  have hplain : ∀ line ∈ Line.ofText takenLabelText, ¬ line.IsDirective := by decide +kernel
  have hcomplete : Complete takenLabelText.lines := by decide +kernel
  obtain ⟨hrefused, hcompleted⟩ := readText_refusals reader [] .fold hplain hcomplete
  have hread : (reader.readText [] .fold takenLabelText).outcome = .error fault := rfl
  have hopen : (reader.readText [] .fold (Text.unlines front)).outcome
      = .error (.structural [] none .unclosed [['a'], ['#', 'b']]) := rfl
  obtain ⟨-, hat, hothers⟩ := hrefused _ _ _ _ hread
  obtain ⟨st, hst, -, hclosed⟩ := hcompleted front (List.take_prefix 5 _) (by decide +kernel)
    (by rw [hopen]; nofun)
  obtain rfl := Option.some.inj (hst.symm.trans (show _ = some _ from rfl))
  exact ⟨hat, hothers, hopen, hclosed _ (by decide +kernel)⟩

end DocumentReader

end WorkflowControl
