import WorkflowControl.Proofs.Document.FoldedKeys
import WorkflowControl.Proofs.Document.Inclusion

/-!
The key case of the sections of a document. Every line keeps the sections of the tree to the modes
that their places give them: a tag opens its section with the mode of a child, and a directive
merges a tree into the root, where the modes of that tree do not count
(`readLine_keeps_conforming`). So in the tree of any text, and in the one behind each of its lines,
a section preserves case exactly if the top level does or if its path goes through a `cmdline` or a
`replace` section (`modesByPath_of_reading`).
-/

namespace WorkflowControl.DocumentReader

open Section

variable {reader : DocumentReader} {nested : Option TreeReader} {file : Text} {mode : KeyCase}
  {st st' : ReadState}

/-- A directive merges a tree into the root and keeps the trees to the modes of their places. -/
theorem keeps_of_merged {tree : Reading Section} (h : st.Keeps conforming mode)
    (hok : (tree.andThen fun added =>
      (pure { st with root := st.root.merge added } : Reading ReadState)).outcome = .ok st') :
    st'.Keeps conforming mode := by
  obtain ⟨added, -, hmerged⟩ := Reading.andThen_eq_ok hok
  obtain rfl := Except.ok.inj hmerged
  exact ⟨h.1.merge_anything added, h.2⟩

theorem readLine_keeps_conforming {line : LogicalLine} (h : st.Keeps conforming mode)
    (hok : (reader.readLine nested file line st).outcome = .ok st') :
    st'.Keeps conforming mode := by
  cases hline : Line.classify line.text with
  | includeFile target =>
    rw [readLine_includeFile hline] at hok
    exact keeps_of_merged h hok
  | includeCall body =>
    rw [readLine_includeCall hline] at hok
    exact keeps_of_merged h hok
  | _ =>
    have hdirective : ¬ (Line.classify line.text).IsDirective := by
      rw [hline]
      exact not_false
    exact readLine_keeps hdirective (conforming_admits _) h hok

theorem readLines_keeps_conforming {ls : List LogicalLine} (h : st.Keeps conforming mode)
    (hok : (reader.readLines nested file ls st).outcome = .ok st') : st'.Keeps conforming mode := by
  induction ls generalizing st with
  | nil =>
    obtain rfl := Except.ok.inj hok
    exact h
  | cons line rest ih =>
    rw [readLines_cons] at hok
    obtain ⟨next, hline, hrest⟩ := Reading.andThen_eq_ok hok
    exact ih (readLine_keeps_conforming h hline) hrest

/-- Behind any lines that are read from the start of a text, the modes follow the paths. -/
theorem modesByPath_of_readLines {ls : List LogicalLine}
    (hok : (reader.readLines nested file ls { root := { mode := mode } }).outcome = .ok st) :
    st.root.ModesByPath mode := by
  have hstart : ReadState.Keeps conforming mode { root := { mode := mode } } :=
    ⟨follows_empty conforming none mode, rfl⟩
  obtain ⟨hfollows, hmode⟩ := readLines_keeps_conforming hstart hok
  exact hmode ▸ modesByPath_of_follows hfollows

/-- In the document of a text the modes follow the paths. So they do behind every line of it, and of
the files that it includes, whatever trees the includes give (`nested`) and the functions. -/
theorem modesByPath_of_reading (reader : DocumentReader) (file : Text) (mode : KeyCase)
    (text : Text) :
    (∀ doc, (reader.readText file mode text).outcome = .ok doc → doc.root.ModesByPath mode)
      ∧ ∀ nested root, (reader.readWhole nested file mode text).outcome = .ok root →
          ∀ before behind, LogicalLine.ofText text = before ++ behind →
            ∃ st,
              (reader.readLines nested file before { root := { mode := mode } }).outcome = .ok st
              ∧ st.root.ModesByPath mode := by
  constructor
  · intro doc hread
    obtain ⟨nested, hlines⟩ := readText_eq_ok hread
    exact modesByPath_of_readLines hlines
  · intro nested root hread before behind hparts
    have hlines := readWhole_eq_ok_iff.mp hread
    rw [hparts, readLines_append] at hlines
    obtain ⟨st, hst, -⟩ := Reading.andThen_eq_ok hlines
    exact ⟨st, hst, modesByPath_of_readLines hst⟩

/-- A text that includes a file while a section that preserves case is open. -/
def openFlagsText : Text :=
  Text.unlines ['<' :: KeyCase.cmdline ++ ['>'], Line.includeOpening ++ ['f', '>', '>'],
    ['X', '=', '1'], '<' :: '/' :: KeyCase.cmdline ++ ['>']]

/-- A file with a section. -/
def plainSectionFile : Text := Text.unlines [['<', 'b', '>'], ['Z', '=', '3'], ['<', '/', 'b', '>']]

/-- The file is read with a section that preserves case, but the one that comes of it folds. -/
theorem modesByPath_openFlagsText :
    let reader : DocumentReader := ⟨{}, {}, fun _ => .ok plainSectionFile⟩
    let doc : Document := { root := { entries := [
      (KeyCase.cmdline, .subsection .preserve [(['X'], .scalar ['1'])]),
      (['b'], .subsection .fold [(['Z'], .scalar ['3'])])] } }
    (reader.readText [] .preserve plainSectionFile).outcome
        = .ok { root := ⟨.preserve, [(['b'], .subsection .preserve [(['Z'], .scalar ['3'])])]⟩ }
      ∧ (reader.readText [] .fold openFlagsText).outcome = .ok doc
      ∧ doc.root.ModesByPath .fold := by
  intro reader doc
  have hread : (reader.readText [] .fold openFlagsText).outcome = .ok doc := rfl
  exact ⟨rfl, hread, (modesByPath_of_reading reader [] .fold openFlagsText).1 doc hread⟩

end WorkflowControl.DocumentReader
