import WorkflowControl.Proofs.Document.Step
import WorkflowControl.Proofs.Section.Mode
import WorkflowControl.Proofs.Substitution.Sweep
import WorkflowControl.Proofs.Token.Template

/-!
An include directive at the top level stands for the lines of the file: where the text with these
lines in place of the directive is accepted, the text with the directive is accepted too and gives
the same document (`readText_including`).

The two readings go different ways. One writes the lines of the file into the tree that is there;
the other builds a tree of its own from them and merges it. The states on both ways are related
step by step: the one tree is always the other one merged over the tree at the directive (`Over`).

The lines in front of the directive and those of the file have to end with a logical line. A blank
line behind a line with a backslash at its end need not do that: what is joined with it may end in
a backslash again (`not_readText_including_continued`).
-/

namespace WorkflowControl

namespace Section

theorem conforming_admits (line : Line) : conforming.Admits line :=
  ⟨fun _ _ _ _ => trivial, fun _ _ _ _ _ _ _ => rfl⟩

end Section

namespace ReadState

open Section

/-- Whether a state has the tree of another one merged over `base`, and the same sections open. The
innermost of them is there in the other tree too. -/
structure Over (base : Section) (own st : ReadState) : Prop where
  root : st.root = base.merge own.root
  opened : st.openSections = own.openSections
  keeps : own.Keeps conforming base.mode
  found : own.current?.isSome

variable {base : Section} {own st st' : ReadState}

theorem Over.path (h : Over base own st) : st.path = own.path := by
  rw [ReadState.path, h.opened]
  rfl

/-- What is open in a merged tree is what is open in the tree that is merged in, merged itself. -/
theorem Over.current? (h : Over base own st) {cur : Section} (hcur : own.current? = some cur) :
    st.current? = some ((base.under own.path).merge cur) := by
  rw [ReadState.current?, h.root, h.path]
  exact at?_merge h.keeps.1.distinct hcur

/-- A change of the open section of a merged tree is one of the tree that is merged in. -/
theorem Over.replaceAt (hbase : base.Distinct) (h : Over base own st) {cur : Section}
    (hcur : own.current? = some cur) (new : Section) :
    st.root.replaceAt st.path ((base.under own.path).merge new)
      = base.merge (own.root.replaceAt own.path new) := by
  rw [h.root, h.path]
  exact (merge_replaceAt hbase h.keeps.1.distinct hcur new).symm

theorem Over.entered? (hbase : base.Follows conforming none) (h : Over base own st)
    {opened : OpenSection} (hkey : opened.key.lower = opened.key)
    (hst : st.entered? opened = some st') :
    ∃ own', own.entered? opened = some own' ∧ Over base own' st' := by
  obtain ⟨cur, hcur⟩ := Option.isSome_iff_exists.mp h.found
  obtain ⟨merged, new, hmerged, hnew, rfl⟩ := entered?_eq_some_iff.mp hst
  rw [h.current? hcur] at hmerged
  obtain rfl := Option.some.inj hmerged
  have hnodup : cur.keys.Nodup := (h.keeps.1.distinct) own.path cur hcur
  obtain ⟨ownNew, hownNew, rfl⟩ :=
    withSection?_merge (hbase.distinct.under own.path).nodup hnodup hnew
  have hown : own.entered? opened
      = some ⟨own.root.replaceAt own.path ownNew, opened :: own.openSections⟩ :=
    entered?_eq_some_iff.mpr ⟨cur, ownNew, hcur, hownNew, rfl⟩
  refine ⟨_, hown, ?_⟩
  constructor
  · exact h.replaceAt hbase.distinct hcur ownNew
  · exact congrArg (opened :: ·) h.opened
  · rw [← enter_toOption ⟨[], 0⟩, Outcome.toOption_eq_some_iff] at hown
    exact h.keeps.enter (fun _ _ => rfl) hown
  · exact isSome_current?_of_entered? hkey hown

/-- A line that the merged state accepts is accepted by the other one, and the states stay related.
-/
theorem Over.after? (hbase : base.Follows conforming none) (h : Over base own st) {line : Line}
    (hline : line.Lowered) (hst : st.after? line = some st') :
    ∃ own', own.after? line = some own' ∧ Over base own' st' := by
  -- The rule of modes and the place of the open section are kept by any accepted line.
  have hrest : ∀ own', own.after? line = some own' → st'.root = base.merge own'.root →
      st'.openSections = own'.openSections → ∃ own', own.after? line = some own' ∧ Over base own' st' :=
    fun own' hown hroot hopened => ⟨own', hown, hroot, hopened,
      h.keeps.after? (conforming_admits line) hown, isSome_current?_of_after? hline h.found hown⟩
  obtain ⟨cur, hcur⟩ := Option.isSome_iff_exists.mp h.found
  cases line with
  | includeFile target => cases hst
  | includeCall body => cases hst
  | unmatched =>
    obtain rfl := Option.some.inj hst
    exact hrest own rfl h.root h.opened
  | close key =>
    obtain ⟨rest, hclosed, rfl⟩ := Option.map_eq_some_iff.mp hst
    rw [h.opened] at hclosed
    refine hrest { own with openSections := rest } ?_ h.root rfl
    rw [ReadState.after?, hclosed]
    rfl
  | pair key value =>
    obtain ⟨merged, hmerged, rfl⟩ := Option.map_eq_some_iff.mp hst
    rw [h.current? hcur] at hmerged
    obtain rfl := Option.some.inj hmerged
    have hnodup : cur.keys.Nodup := (h.keeps.1.distinct) own.path cur hcur
    have hmode : (base.under own.path).mode = cur.mode :=
      mode_under hbase h.keeps.1 h.keeps.2.symm hcur
    refine hrest (own.put (cur.insert key (.scalar value))) ?_ ?_ h.opened
    · rw [ReadState.after?, hcur]
      rfl
    · rw [insert_merge (hbase.distinct.under own.path).nodup hnodup hmode]
      exact h.replaceAt hbase.distinct hcur _
  | openSection key label =>
    obtain ⟨hname, opened, hopened, hst⟩ := after?_openSection_eq_some_iff.mp hst
    obtain ⟨ownOpened, hownOpened, hover⟩ := h.entered? hbase hline.1 hopened
    rw [h.path] at hname
    cases label with
    | none =>
      obtain rfl := Option.some.inj hst
      exact ⟨ownOpened, after?_openSection_eq_some_iff.mpr ⟨hname, _, hownOpened, rfl⟩, hover⟩
    | some label =>
      obtain ⟨own', hown', hover'⟩ := hover.entered? hbase (hline.2 label rfl) hst
      exact ⟨own', after?_openSection_eq_some_iff.mpr ⟨hname, _, hownOpened, hown'⟩, hover'⟩

theorem Over.afterAll? (hbase : base.Follows conforming none) (h : Over base own st)
    {lines : List Line} (hlines : ∀ line ∈ lines, line.Lowered)
    (hst : st.afterAll? lines = some st') :
    ∃ own', own.afterAll? lines = some own' ∧ Over base own' st' := by
  induction lines generalizing own st with
  | nil =>
    obtain rfl := Option.some.inj hst
    exact ⟨own, rfl, h⟩
  | cons line rest ih =>
    obtain ⟨next, hnext, hst⟩ := Option.bind_eq_some_iff.mp hst
    obtain ⟨ownNext, hownNext, hover⟩ := h.after? hbase (hlines line (by simp)) hnext
    obtain ⟨own', hown', hover'⟩ := ih hover (fun l hl => hlines l (List.mem_cons_of_mem _ hl)) hst
    refine ⟨own', ?_, hover'⟩
    rw [ReadState.afterAll?, hownNext]
    exact hown'

theorem Keeps.afterAll? {rule : Rule} {mode : KeyCase} {lines : List Line} (h : st.Keeps rule mode)
    (hrule : ∀ line ∈ lines, rule.Admits line) (hst : st.afterAll? lines = some st') :
    st'.Keeps rule mode := by
  induction lines generalizing st with
  | nil =>
    obtain rfl := Option.some.inj hst
    exact h
  | cons line rest ih =>
    obtain ⟨next, hnext, hst⟩ := Option.bind_eq_some_iff.mp hst
    exact ih (h.after? (hrule line (by simp)) hnext)
      (fun l hl => hrule l (List.mem_cons_of_mem _ hl)) hst

/-- Lines that build a tree on their own change a state without open sections as the merging of that
tree does, if they are accepted there. -/
theorem afterAll?_eq_merge {lines : List Line} (hlines : ∀ line ∈ lines, line.Lowered)
    {mode : KeyCase} {base built : Section} (hbase : base.Follows conforming none)
    (hbuilt : treeOf? mode lines = some built)
    (hst : afterAll? { root := base } lines = some st') :
    ∃ own, treeOf? base.mode lines = some own ∧ st' = { root := base.merge own } := by
  have hstart : Over base { root := { mode := base.mode } } { root := base } :=
    ⟨(merge_empty base base.mode).symm, rfl, ⟨follows_empty conforming none base.mode, rfl⟩, rfl⟩
  obtain ⟨own, hown, hover⟩ := hstart.afterAll? hbase hlines hst
  have hclosed : own.openSections = [] :=
    openSections_afterAll? hown (treeOf?_eq_some_iff.mp hbuilt) rfl
  obtain ⟨root, opened⟩ := own
  obtain rfl : opened = [] := hclosed
  refine ⟨root, treeOf?_eq_some_iff.mpr hown, ?_⟩
  obtain ⟨root', opened'⟩ := st'
  obtain rfl : opened' = [] := hover.opened
  obtain rfl : root' = base.merge root := hover.root
  rfl

/-- Where lines between others build a tree on their own, and so do those in front of them, the tree
of all is built from these two trees merged. -/
theorem treeOf?_inlined {before included behind : List Line}
    (hincluded : ∀ line ∈ included, line.Lowered) {mode beforeMode includedMode : KeyCase}
    {root first second : Section} (hfirst : treeOf? beforeMode before = some first)
    (hsecond : treeOf? includedMode included = some second)
    (h : treeOf? mode (before ++ (included ++ behind)) = some root) :
    ∃ base own, treeOf? mode before = some base ∧ treeOf? base.mode included = some own
      ∧ afterAll? { root := base.merge own } behind = some { root := root } := by
  rw [treeOf?_eq_some_iff, afterAll?_append] at h
  obtain ⟨base, hbase, h⟩ := Option.bind_eq_some_iff.mp h
  rw [afterAll?_append] at h
  obtain ⟨merged, hmerged, h⟩ := Option.bind_eq_some_iff.mp h
  have hkeeps : base.Keeps conforming mode :=
    Keeps.afterAll? ⟨follows_empty conforming none mode, rfl⟩
      (fun line _ => conforming_admits line) hbase
  -- No section is open behind the first lines, as on their own.
  have hclosed : base.openSections = [] :=
    openSections_afterAll? hbase (treeOf?_eq_some_iff.mp hfirst) rfl
  obtain ⟨built, opened⟩ := base
  obtain rfl : opened = [] := hclosed
  obtain ⟨own, hown, rfl⟩ := afterAll?_eq_merge hincluded hkeeps.1 hsecond hmerged
  exact ⟨built, own, treeOf?_eq_some_iff.mpr hbase, hown, h⟩

end ReadState

namespace Line

/-- Whether a path is written as it is meant: a word that has no character with a meaning to
include lines, comments and tokens, and does not begin with the sign of the home directory. -/
def IsLiteralPath (path : Text) : Prop :=
  Text.IsWord path ∧ (∀ c ∈ ['$', '#', '>', '\\'], c ∉ path) ∧ path.head? ≠ some '~'

instance (path : Text) : Decidable (IsLiteralPath path) :=
  inferInstanceAs (Decidable ((path ≠ [] ∧ ∀ c ∈ path, Text.isBlank c = false) ∧ _ ∧ _))

/-- The line that includes the file at a path. -/
def includeLine (path : Text) : Text := includeOpening ++ (path ++ ['>', '>'])

theorem upToLastClose?_append {path : Text} (h : '>' ∉ path) :
    upToLastClose? (path ++ ['>', '>']) = some path := by
  induction path with
  | nil => decide
  | cons c cs ih =>
    rw [List.cons_append, upToLastClose?, ih fun hmem => h (List.mem_cons_of_mem _ hmem)]

theorem classify_includeLine {path : Text} (h : IsLiteralPath path) :
    classify (includeLine path) = .includeFile path := by
  obtain ⟨⟨hne, hblank⟩, hsigns, -⟩ := h
  have hword : ∀ c ∈ path ++ ['>', '>'], (fun c => !Text.isBlank c) c = true := by
    intro c hc
    rcases List.mem_append.mp hc with hc | hc
    · simp [hblank c hc]
    · obtain rfl : c = '>' := by simpa using hc
      rfl
  have hall := Text.takeWhile_append_stop hword
    (show ∀ c ∈ List.head? ([] : Text), (!Text.isBlank c) = false from nofun)
  rw [List.append_nil] at hall
  have hhere : includeHere? (includeLine path) = some path := by
    rw [includeHere?, includeLine, Text.behind?_append]
    dsimp only
    rw [hall, upToLastClose?_append (hsigns '>' (by decide))]
    cases path with
    | nil => exact absurd rfl hne
    | cons c cs => rfl
  have hcons : ∃ rest, includeLine path = '<' :: rest := ⟨_, rfl⟩
  have hfirst : firstSome? includeHere? (includeLine path) = some path := by
    obtain ⟨rest, hrest⟩ := hcons
    rw [hrest] at hhere ⊢
    rw [firstSome?, hhere]
  rw [classify, hfirst]

end Line

namespace LogicalLine

open Line

/-- An include line is a logical line of its own. -/
theorem textsOf_includeLine {path : Text} (h : IsLiteralPath path) :
    Complete [includeLine path] ∧ textsOf [includeLine path] = [includeLine path] := by
  obtain ⟨⟨-, hblank⟩, hsigns, -⟩ := h
  have hend : includeLine path = (includeOpening ++ (path ++ ['>'])) ++ ['>'] := by
    simp [includeLine]
  have hlast : (includeLine path).getLast? = some '>' := by
    rw [hend, List.getLast?_concat]
  have htrim : (includeLine path).trim = includeLine path := by
    refine Text.trim_of_ends ?_ ?_
    · rintro c ⟨⟩
      decide
    · rw [hlast]
      rintro c ⟨⟩
      decide
  have hhash : '#' ∉ includeLine path := by
    have hpath : '#' ∉ path := hsigns '#' (by decide)
    simp [includeLine, includeOpening, hpath]
  have hcomment : withoutComment (includeLine path) = includeLine path := by
    have h := withoutComment_escapeHash (includeLine path)
    rwa [Text.escapeHash_of_not_mem hhash] at h
  have hnot : ¬ (includeLine path).getLast? = some '\\' := by
    rw [hlast]
    decide
  constructor
  · rw [Complete, pendingAfter, Option.getD_none, List.nil_append, htrim, if_neg hnot]
    rfl
  · rw [textsOf, join, Option.getD_none, List.nil_append, htrim, if_neg hnot, join]
    simp only [List.map_cons, List.map_nil, hcomment, List.filter_cons, htrim]
    rfl

end LogicalLine

namespace Environment

theorem expandFrom_of_not_mem (env : Environment) {path : Text} (h : '$' ∉ path) :
    env.expandFrom 0 path = path := by
  induction path with
  | nil => rfl
  | cons c cs ih =>
    simp only [List.mem_cons, not_or] at h
    rw [expandFrom, if_neg (Ne.symm h.1), ih h.2]

/-- A path without `$` that does not begin with `~` stands for itself. -/
theorem expandPath_of_plain (env : Environment) {path : Text} (h : '$' ∉ path)
    (hhome : path.head? ≠ some '~') : env.expandPath path = path := by
  have hhere : env.expandHome path = path := by
    unfold expandHome
    split
    · exact absurd rfl hhome
    · rfl
  rw [expandPath, hhere]
  exact env.expandFrom_of_not_mem h

theorem expandPath_of_literal (env : Environment) {path : Text} (h : Line.IsLiteralPath path) :
    env.expandPath path = path :=
  env.expandPath_of_plain (h.2.1 '$' (by decide)) h.2.2

end Environment

/-- A text without a token stands for itself. -/
theorem substituteOne_of_not_mem {source : Source} {services : Services} {expand : Bool}
    {text : Text} (h : '$' ∉ text) (hlimit : services.limit ≠ 0) :
    substituteOne source services expand text = .ok text := by
  have hnone : ∀ kind, Token.first? kind text = none := fun kind =>
    Token.first?_eq_none_of_not_mem h
  have hsettle : ∀ sweeps,
      (Substitution.Context.outermost source services expand).settleSweeps sweeps ⟨text, []⟩
        = .ok ⟨text, []⟩ :=
    fun sweeps => Substitution.Context.settleSweeps_of_none (fun p _ => hnone p.1) hlimit
  have hloop : Token.hasToken .loop text = false :=
    Token.hasToken_eq_false_iff.mpr (hnone .loop)
  rw [substituteOne, substitute_eq_outermost, Substitution.Context.substitute, hsettle]
  show (do
    let called ← (Substitution.Context.outermost source services expand).settleSweeps
      Substitution.Context.callSweeps ⟨text, []⟩
    _ : Except Error Substitution.Result) >>= _ = _
  rw [hsettle]
  show (if Token.hasToken .loop text then _ else _ : Except Error Substitution.Result) >>= _ = _
  rw [hloop]
  rfl

namespace DocumentReader

open ReadState Section

variable {reader : DocumentReader} {file : Text} {mode : KeyCase}

/-- An include line at the top level merges what the nested reader makes of the file. -/
theorem readLine_includeLine {nested : TreeReader} {line : LogicalLine} {path content : Text}
    {root included : Section} (hline : line.text = Line.includeLine path)
    (hpath : Line.IsLiteralPath path) (hlimit : reader.services.limit ≠ 0)
    (hfile : reader.readInclude path = .ok content)
    (hnested : (nested path root.mode content).outcome = .ok included) :
    (reader.readLine (some nested) file line { root := root }).outcome
      = .ok { root := root.merge included } := by
  have hdollar : '$' ∉ path := hpath.2.1 '$' (by decide)
  have hread : reader.readInclude (reader.environment.expandPath path) = .ok content := by
    rw [reader.environment.expandPath_of_literal hpath, hfile]
  rw [readLine, hline, Line.classify_includeLine hpath]
  show (reader.includeFile (some nested) _ path { root := root }).outcome = _
  unfold includeFile
  rw [substituteOne_of_not_mem hdollar hlimit]
  show (Reading.andThen (.ofExcept ((reader.readInclude (reader.environment.expandPath path)).mapError
    _)) _).outcome = _
  rw [hread, reader.environment.expandPath_of_literal hpath]
  show (Reading.andThen (nested path root.mode content) _).outcome = _
  rw [Reading.andThen, hnested]
  rfl

/-- Whether some reader accepts a text on its own. -/
def Accepted (text : Text) : Prop :=
  ∃ (reader : DocumentReader) (file : Text) (mode : KeyCase) (doc : Document),
    (reader.readText file mode text).outcome = .ok doc

theorem Accepted.exists_treeOf? {text : Text} (h : Accepted text)
    (hdirective : ∀ line ∈ Line.ofText text, ¬ line.IsDirective) :
    ∃ mode built, treeOf? mode (Line.ofText text) = some built := by
  obtain ⟨reader, file, mode, doc, hdoc⟩ := h
  exact ⟨mode, doc.root, ((readText_eq_ok_iff_treeOf? hdirective).mp hdoc).2⟩

/-- Lines that say what a text says are read like it. -/
theorem readLines_toOption_of_texts {nested : Option TreeReader} {ls : List LogicalLine}
    {text : Text} (htexts : ls.map LogicalLine.text = LogicalLine.textsOf text.lines)
    (h : ∀ line ∈ Line.ofText text, ¬ line.IsDirective) (st : ReadState) :
    (reader.readLines nested file ls st).outcome.toOption = st.afterAll? (Line.ofText text) := by
  have hsaid : (ls.map fun l => Line.classify l.text) = Line.ofText text := by
    rw [Line.ofText_eq, ← htexts, List.map_map]
    rfl
  rw [← hsaid] at h ⊢
  exact readLines_toOption (fun l hl => h _ (List.mem_map_of_mem hl)) st

/-- The lines of a text that has an include line between two parts. -/
theorem exists_parts_of_including {before behind including path : Text}
    (hpath : Line.IsLiteralPath path) (hcomplete : LogicalLine.Complete before.lines)
    (hincluding : including.lines = before.lines ++ [Line.includeLine path] ++ behind.lines) :
    ∃ first line last, LogicalLine.ofText including = first ++ line :: last
      ∧ first.map LogicalLine.text = LogicalLine.textsOf before.lines
      ∧ line.text = Line.includeLine path
      ∧ last.map LogicalLine.text = LogicalLine.textsOf behind.lines := by
  obtain ⟨hlineComplete, hline⟩ := LogicalLine.textsOf_includeLine hpath
  have htexts : (LogicalLine.ofText including).map LogicalLine.text
      = LogicalLine.textsOf before.lines
        ++ Line.includeLine path :: LogicalLine.textsOf behind.lines := by
    rw [LogicalLine.texts_ofText, ← LogicalLine.textsOf, hincluding, List.append_assoc,
      LogicalLine.textsOf_append hcomplete, LogicalLine.textsOf_append hlineComplete, hline]
    rfl
  obtain ⟨first, others, hls, hfirst, hothers⟩ := List.map_eq_append_iff.mp htexts
  obtain ⟨line, last, rfl, hline, hlast⟩ := List.map_eq_cons_iff.mp hothers
  exact ⟨first, line, last, hls, hfirst, hline, hlast⟩

/-- A file that is included at the top level by a literal path can as well be written out there: the
document is the same in all its entries, their order and the key case of all sections. -/
theorem readText_including (hlimit : 1 ≤ reader.services.limit) {path : Text}
    (hpath : Line.IsLiteralPath path) {before content behind inlined including : Text}
    (hfile : reader.readInclude path = .ok content)
    (hinlined : inlined.lines = before.lines ++ content.lines ++ behind.lines)
    (hincluding : including.lines = before.lines ++ [Line.includeLine path] ++ behind.lines)
    (hdirective : ∀ text ∈ [before, content, behind], ∀ line ∈ Line.ofText text, ¬ line.IsDirective)
    (hbefore : Accepted before) (hcontent : Accepted content)
    (hcomplete : LogicalLine.Complete before.lines ∧ LogicalLine.Complete content.lines)
    {doc : Document} (hread : (reader.readText file mode inlined).outcome = .ok doc) :
    (reader.readText file mode including).outcome = .ok doc := by
  obtain ⟨hbeforeComplete, hcontentComplete⟩ := hcomplete
  have hbeforeLines := hdirective before (by simp)
  have hcontentLines := hdirective content (by simp)
  have hbehindLines := hdirective behind (by simp)
  have hparts : Line.ofText inlined
      = Line.ofText before ++ (Line.ofText content ++ Line.ofText behind) := by
    rw [Line.ofText_eq, hinlined, List.append_assoc, LogicalLine.textsOf_append hbeforeComplete,
      LogicalLine.textsOf_append hcontentComplete, List.map_append, List.map_append,
      Line.ofText_eq, Line.ofText_eq, Line.ofText_eq]
  have hall : ∀ line ∈ Line.ofText inlined, ¬ line.IsDirective := by
    intro line hline
    rw [hparts, List.mem_append, List.mem_append] at hline
    rcases hline with hline | hline | hline
    · exact hbeforeLines line hline
    · exact hcontentLines line hline
    · exact hbehindLines line hline
  obtain ⟨horder, htree⟩ := (readText_eq_ok_iff_treeOf? hall).mp hread
  rw [hparts] at htree
  obtain ⟨_, _, hfirstBuilt⟩ := hbefore.exists_treeOf? hbeforeLines
  obtain ⟨_, _, hcontentBuilt⟩ := hcontent.exists_treeOf? hcontentLines
  obtain ⟨base, own, hbase, hown, hrest⟩ := treeOf?_inlined
    (fun line hline => Line.lowered_of_mem_ofText hline) hfirstBuilt hcontentBuilt htree
  obtain ⟨depth, hdepth⟩ := Nat.exists_eq_succ_of_ne_zero (Nat.one_le_iff_ne_zero.mp hlimit)
  have hnested : (reader.readWithin depth path base.mode content).outcome = .ok own := by
    rw [readWithin_eq, readWhole_eq_ok_iff, ← Outcome.toOption_eq_some_iff,
      readLines_toOption_of_texts (LogicalLine.texts_ofText content) hcontentLines]
    exact treeOf?_eq_some_iff.mp hown
  -- The reading of the directive goes from the tree in front of it to the merged one.
  obtain ⟨first, line, last, hls, hfirst, hline, hlast⟩ :=
    exists_parts_of_including hpath hbeforeComplete hincluding
  have hstart : (reader.readLines (reader.included? (depth + 1)) file first
      { root := { mode := mode } }).outcome = .ok { root := base } := by
    rw [← Outcome.toOption_eq_some_iff, readLines_toOption_of_texts hfirst hbeforeLines]
    exact treeOf?_eq_some_iff.mp hbase
  have hinclude : (reader.readLine (reader.included? (depth + 1)) file line
      { root := base }).outcome = .ok { root := base.merge own } :=
    readLine_includeLine hline hpath (Nat.one_le_iff_ne_zero.mp hlimit) hfile hnested
  have hend : (reader.readLines (reader.included? (depth + 1)) file last
      { root := base.merge own }).outcome = .ok { root := doc.root } := by
    rw [← Outcome.toOption_eq_some_iff, readLines_toOption_of_texts hlast hbehindLines]
    exact hrest
  refine readText_eq_ok_iff.mpr ⟨horder, ?_⟩
  rw [hdepth, hls, readLines_append, Reading.andThen, hstart]
  dsimp only
  rw [readLines_cons, Reading.andThen, hinclude]
  exact hend

/-- A text with a section. -/
def sectionStart : Text := "<a>\nj = 1\n</a>\n".toList

/-- A file that writes into that section. -/
def sectionFile : Text := "<a>\nK = 2\nj = 3\n</a>\n".toList

theorem readText_including_sectionFile :
    let reader : DocumentReader := ⟨{}, {}, fun _ => .ok sectionFile⟩
    (reader.readText [] .preserve
        (Text.unlines (sectionStart.lines ++ [Line.includeLine ['p']]
          ++ Text.lines "z = 0".toList))).outcome
      = .ok { root := ⟨.preserve, [
          (['a'], .subsection .preserve [(['j'], .scalar ['3']), (['K'], .scalar ['2'])]),
          (['z'], .scalar ['0'])]⟩ } := by
  intro reader
  have hpath : Line.IsLiteralPath ['p'] := by decide
  have hstart : Accepted sectionStart := ⟨reader, [], .fold, _, rfl⟩
  have hfile : Accepted sectionFile := ⟨reader, [], .fold, _, rfl⟩
  have hinlined : (Text.unlines (sectionStart.lines ++ sectionFile.lines
      ++ Text.lines "z = 0".toList)).lines
    = sectionStart.lines ++ sectionFile.lines ++ Text.lines "z = 0".toList := rfl
  exact readText_including (by decide) hpath rfl hinlined rfl (by decide) hstart hfile (by decide)
    rfl

/-- A line with two backslashes at its end, and a blank line that is joined to it. -/
def continuedStart : Text := "x = a\\\\\n\n".toList

/-- The line that the two make ends in a backslash still, and the next line is joined to it as well:
written out, the file is a part of the value, and its directive is one in the middle of a line. -/
theorem not_readText_including_continued :
    let content : Text := "y = 1\n".toList
    let reader : DocumentReader := ⟨{}, {}, fun _ => .ok content⟩
    Line.IsLiteralPath ['p']
      ∧ (∀ text ∈ [continuedStart, content],
          (∃ doc, (reader.readText [] .fold text).outcome = .ok doc)
            ∧ (∀ line ∈ Line.ofText text, ¬ line.IsDirective)
            ∧ ∀ last ∈ text.lines.getLast?, last.trim.getLast? ≠ some '\\')
      ∧ (reader.readText [] .fold (Text.unlines (continuedStart.lines ++ content.lines))).outcome
          = .ok { root := { entries := [(['x'], .scalar "ay = 1".toList)] } }
      ∧ (reader.readText [] .fold
          (Text.unlines (continuedStart.lines ++ [Line.includeLine ['p']]))).outcome
          = .ok { root := { entries := [(['y'], .scalar ['1'])] } } := by
  intro content reader
  refine ⟨by decide, ?_, rfl, rfl⟩
  intro text htext
  rcases List.mem_cons.mp htext with rfl | htext
  · exact ⟨⟨_, rfl⟩, by decide, by decide⟩
  · obtain rfl := List.mem_singleton.mp htext
    exact ⟨⟨_, rfl⟩, by decide, by decide⟩

end DocumentReader

end WorkflowControl
