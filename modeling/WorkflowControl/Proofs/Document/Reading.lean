import WorkflowControl.Document.Reader
import WorkflowControl.Proofs.Document.TreeLines

/-!
How the lines of a tree are read. Reading a line that says what it was written for does to the
innermost open section what the line is about (`readLine_pair`, `readLine_opening`,
`readLine_closing`). If all lines of a tree say what they were written for, and its section types
fit where they stand (`legible`), then reading them writes the entries of the tree behind those of
the innermost open section, and nothing else changes (`Adds`, `adds_lines`).
-/

namespace WorkflowControl

namespace ReadState

theorem path_cons (root : Section) (top : OpenSection) (rest : List OpenSection) :
    path ⟨root, top :: rest⟩ = path ⟨root, rest⟩ ++ [top.key] := by
  simp [path]

theorem getLast?_path (st : ReadState) :
    st.path.getLast? = st.openSections.head?.map OpenSection.key := by
  rw [path, List.getLast?_reverse, List.head?_map]

/-- The state with `s` in the place of the innermost open section. -/
def put (st : ReadState) (s : Section) : ReadState :=
  { st with root := st.root.replaceAt st.path s }

theorem current?_put {st : ReadState} {cur : Section} (h : st.current? = some cur) (s : Section) :
    (st.put s).current? = some s :=
  Section.at?_replaceAt h s

theorem put_put (st : ReadState) (s t : Section) : (st.put s).put t = st.put t := by
  have hroot : (st.root.replaceAt st.path s).replaceAt st.path t = st.root.replaceAt st.path t :=
    Section.replaceAt_replaceAt s t st.path st.root
  simp only [put]
  exact congrArg (ReadState.mk · st.openSections) hroot

theorem put_self {st : ReadState} {cur : Section} (h : st.current? = some cur) :
    st.put cur = st := by
  have hroot : st.root.replaceAt st.path cur = st.root := Section.replaceAt_self h
  exact congrArg (ReadState.mk · st.openSections) hroot

/-- The state with the child section `key` of the innermost open one open as well. -/
def down (st : ReadState) (key : Text) : ReadState :=
  ⟨st.root, ⟨key, false⟩ :: st.openSections⟩

theorem path_down (st : ReadState) (key : Text) : (st.down key).path = st.path ++ [key] :=
  path_cons st.root ⟨key, false⟩ st.openSections

theorem current?_down {st : ReadState} {cur : Section} (h : st.current? = some cur) (key : Text) :
    (st.down key).current? = cur.getSection? key := by
  have hat : st.root.at? st.path = some cur := h
  rw [current?, path_down]
  show st.root.at? (st.path ++ [key]) = _
  rw [Section.at?_concat, hat, Option.bind_some]

/-- What is put in the place of a child section is put there with the section around it. -/
theorem put_down {st : ReadState} {cur child : Section} {key : Text} (h : st.current? = some cur)
    (hchild : cur.getSection? key = some child) (new : Section) :
    (st.down key).put new
      = (st.put { cur with entries := cur.entries.put key new.toNode }).down key := by
  have hroot : st.root.replaceAt (st.path ++ [key]) new = _ :=
    Section.replaceAt_concat h hchild new
  rw [put, path_down]
  exact congrArg (ReadState.mk · (⟨key, false⟩ :: st.openSections)) hroot

end ReadState

namespace DocumentReader

open ReadState

variable {reader : DocumentReader} {nested : Option TreeReader} {file : Text}

theorem readLines_cons (line : LogicalLine) (rest : List LogicalLine) (st : ReadState) :
    reader.readLines nested file (line :: rest) st
      = (reader.readLine nested file line st).andThen (reader.readLines nested file rest) := rfl

theorem readLine_pair {line : LogicalLine} {st : ReadState} {cur : Section} {key value : Text}
    (hline : Line.classify line.text = .pair key value) (hcur : st.current? = some cur) :
    reader.readLine nested file line st = pure (st.put (cur.insert key (.scalar value))) := by
  have hmodify := Section.modifyAt?_eq (f := fun s => some (s.insert key (.scalar value))) hcur
  rw [readLine, hline]
  simp only [insertPair, hmodify, Option.map_some]
  rfl

theorem readLine_opening {line : LogicalLine} {st : ReadState} {cur opened : Section} {key : Text}
    (hline : Line.classify line.text = .openSection key none) (hcur : st.current? = some cur)
    (hname : st.path.getLast? ≠ some key) (hopen : cur.withSection? key = some opened) :
    reader.readLine nested file line st = pure ((st.put opened).down key) := by
  have hmodify := Section.modifyAt?_eq (f := fun s => s.withSection? key) hcur
  rw [getLast?_path] at hname
  rw [readLine, hline]
  simp only [openTag, if_neg hname, enter, hcur, hmodify, hopen, Option.map_some]
  rfl

theorem readLine_closing {line : LogicalLine} {st : ReadState} {key : Text}
    (hline : Line.classify line.text = .close key) :
    reader.readLine nested file line (st.down key) = pure st := by
  rw [readLine, hline]
  cases h : st.openSections with
  | nil =>
    simp only [closeTag, down, h, if_true]
    rw [← h]
    rfl
  | cons below rest =>
    simp only [closeTag, down, h, if_true]
    rw [← h]
    rfl

/-- What makes the lines of a tree build the tree up again: each line says what it was written for,
keys are stored as they are, and a child has the mode that it gets where it stands and another key
than the section around it. -/
def legible : Section.Rule where
  scalar mode key value :=
    mode.stored key = key ∧ Line.classify (Line.pairText key value) = .pair key value
  child own mode key childMode :=
    key.lower = key ∧ own ≠ some key ∧ childMode = mode.ofChild key
      ∧ Line.classify (Line.openTag key) = .openSection key none
      ∧ Line.classify (Line.closeTag key) = .close key

theorem insert_eq {cur : Section} {key value : Text} (hkey : cur.mode.stored key = key)
    (hnew : key ∉ cur.keys) :
    cur.insert key (.scalar value)
      = { cur with entries := cur.entries ++ [(key, .scalar value)] } := by
  rw [Section.insert, hkey, Entries.put_of_not_mem hnew]

theorem withSection?_eq {cur : Section} {key : Text} (hkey : key.lower = key)
    (hnew : key ∉ cur.keys) :
    cur.withSection? key
      = some { cur with
          entries := cur.entries ++ [(key, .subsection (cur.mode.ofChild key) [])] } := by
  have hget : cur.get? key = none := Entries.get?_eq_none_iff.mpr hnew
  simp only [Section.withSection?, hkey, hget, Entries.put_of_not_mem hnew]

/-- A child section at the end of a section is the child of its key. -/
theorem getSection?_concat {cur : Section} (child : Section) {key : Text} (hnew : key ∉ cur.keys) :
    Section.getSection? { cur with entries := cur.entries ++ [(key, child.toNode)] } key
      = some child := by
  rw [← Entries.put_of_not_mem hnew]
  exact Section.getSection?_put cur child key

/-- Whether lines with these texts, read where a section with the given mode and key is the innermost
open one, write entries with new keys behind its own, and change nothing else. -/
def Adds (reader : DocumentReader) (nested : Option TreeReader) (file : Text) (mode : KeyCase)
    (own : Option Text) (texts : List Text) (entries : Entries Node) : Prop :=
  ∀ (st : ReadState) (cur : Section) (ls rest : List LogicalLine),
    st.current? = some cur → cur.mode = mode → st.path.getLast? = own →
    (∀ key ∈ entries.keys, key ∉ cur.keys) → ls.map LogicalLine.text = texts →
    reader.readLines nested file (ls ++ rest) st
      = reader.readLines nested file rest
          (st.put { cur with entries := cur.entries ++ entries })

section

variable {mode : KeyCase} {own : Option Text} {key : Text}

theorem Adds.nil : Adds reader nested file mode own [] [] := by
  intro st cur ls rest hcur _ _ _ htext
  obtain rfl : ls = [] := List.map_eq_nil_iff.mp htext
  rw [List.nil_append, List.append_nil, put_self hcur]

theorem Adds.append {texts more : List Text} {entries others : Entries Node}
    (hfirst : Adds reader nested file mode own texts entries)
    (hsecond : Adds reader nested file mode own more others)
    (hapart : ∀ key ∈ others.keys, key ∉ entries.keys) :
    Adds reader nested file mode own (texts ++ more) (entries ++ others) := by
  intro st cur ls rest hcur hmode hown hnew htext
  obtain ⟨front, back, rfl, hfront, hback⟩ := List.map_eq_append_iff.mp htext
  rw [Entries.keys_append] at hnew
  have hstep := hfirst st cur front (back ++ rest) hcur hmode hown
    (fun key hkey => hnew key (List.mem_append_left _ hkey)) hfront
  have hkeys : ∀ key ∈ others.keys,
      key ∉ Section.keys { cur with entries := cur.entries ++ entries } := by
    intro key hkey
    rw [Section.keys, Entries.keys_append, List.mem_append, not_or]
    exact ⟨hnew key (List.mem_append_right _ hkey), hapart key hkey⟩
  have hthen := hsecond _ { cur with entries := cur.entries ++ entries } back rest
    (current?_put hcur _) hmode hown hkeys hback
  rw [List.append_assoc, hstep, hthen, put_put, List.append_assoc]

theorem adds_scalar {value : Text} (hrule : legible.scalar mode key value) (level : Nat) :
    Adds reader nested file mode own
      (((Node.scalar value).lines level key).map fun l => l.2.spelled) [(key, .scalar value)] := by
  intro st cur ls rest hcur hmode _ hnew htext
  subst hmode
  obtain ⟨hstored, hclass⟩ := hrule
  obtain ⟨line, rfl, hspelled⟩ := List.map_eq_singleton_iff.mp htext
  have hline : Line.classify line.text = .pair key value := hspelled ▸ hclass
  rw [List.singleton_append, readLines_cons, readLine_pair hline hcur,
    insert_eq hstored (hnew key List.mem_cons_self)]
  rfl

/-- Below the tag of a new child section, the child is open and empty, and filling it fills the entry
that the tag has made. -/
theorem put_down_new {st : ReadState} {cur : Section} (child : Section)
    (hcur : st.current? = some cur) (hnew : key ∉ cur.keys) :
    let opened := (st.put { cur with
      entries := cur.entries ++ [(key, (⟨child.mode, []⟩ : Section).toNode)] }).down key
    opened.current? = some ⟨child.mode, []⟩
      ∧ opened.put child
        = (st.put { cur with entries := cur.entries ++ [(key, child.toNode)] }).down key := by
  have hfound := getSection?_concat ⟨child.mode, []⟩ hnew
  have hentries : ∀ empty : Node, Entries.put key child.toNode (cur.entries ++ [(key, empty)])
      = cur.entries ++ [(key, child.toNode)] := by
    intro empty
    rw [← Entries.put_of_not_mem hnew, Entries.put_put, Entries.put_of_not_mem hnew]
  constructor
  · rw [current?_down (current?_put hcur _), hfound]
  · rw [put_down (current?_put hcur _) hfound, put_put]
    exact congrArg (fun es => (st.put { cur with entries := es }).down key) (hentries _)

/-- A child section is added if its own lines add its entries. -/
theorem adds_child (child : Section) {level : Nat} (hrule : legible.child own mode key child.mode)
    (hinner : Adds reader nested file child.mode (some key)
      ((child.lines (level + 1)).map fun l => l.2.spelled) child.entries) :
    Adds reader nested file mode own
      ((child.toNode.lines level key).map fun l => l.2.spelled) [(key, child.toNode)] := by
  intro st cur ls rest hcur hmode hown hnew htext
  subst hmode hown
  obtain ⟨hkey, hname, hmode, hopening, hclosing⟩ := hrule
  have hnew : key ∉ cur.keys := hnew key List.mem_cons_self
  rw [Section.lines_toNode, List.map_cons, List.map_append, List.map_singleton] at htext
  obtain ⟨opening, ls, rfl, hfirst, htext⟩ := List.map_eq_cons_iff.mp htext
  obtain ⟨inner, last, rfl, hbetween, hlast⟩ := List.map_eq_append_iff.mp htext
  obtain ⟨closing, rfl, hend⟩ := List.map_eq_singleton_iff.mp hlast
  have hlineOpening : Line.classify opening.text = .openSection key none := hfirst ▸ hopening
  have hlineClosing : Line.classify closing.text = .close key := hend ▸ hclosing
  have hopen := withSection?_eq hkey hnew
  rw [← hmode] at hopen
  -- The tag makes the child, its lines fill it, and the closing tag goes back up.
  obtain ⟨hdown, hput⟩ := put_down_new child hcur hnew
  have hpath : ∀ s : Section, ((st.put s).down key).path.getLast? = some key := by
    intro s
    rw [path_down, List.getLast?_concat]
  have hfill := hinner _ _ inner ([closing] ++ rest) hdown rfl (hpath _)
    (fun _ _ => List.not_mem_nil) hbetween
  rw [List.nil_append] at hfill
  rw [List.cons_append, readLines_cons, readLine_opening hlineOpening hcur hname hopen]
  show reader.readLines nested file (inner ++ [closing] ++ rest) _ = _
  rw [List.append_assoc]
  refine hfill.trans ?_
  rw [hput, List.singleton_append, readLines_cons, readLine_closing hlineClosing]
  rfl

/-- Entries are added if each of them is. -/
theorem adds_entries {level : Nat} {entries : Entries Node} (hnodup : entries.keys.Nodup)
    (h : ∀ key node, (key, node) ∈ entries → Adds reader nested file mode own
      ((node.lines level key).map fun l => l.2.spelled) [(key, node)]) :
    Adds reader nested file mode own
      ((Node.entriesLines level entries).map fun l => l.2.spelled) entries := by
  induction entries with
  | nil => exact Adds.nil
  | cons e rest ih =>
    obtain ⟨key, node⟩ := e
    rw [Entries.keys_cons, List.nodup_cons] at hnodup
    obtain ⟨hkey, hnodup⟩ := hnodup
    have hfirst := h key node List.mem_cons_self
    have hrest := ih hnodup fun k n hmem => h k n (List.mem_cons_of_mem _ hmem)
    rw [Node.entriesLines, List.map_append]
    refine hfirst.append hrest fun k hk hmem => hkey ?_
    obtain rfl : k = key := List.mem_singleton.mp hmem
    exact hk

/-- The lines of a tree add its entries. -/
theorem adds_lines {s : Section} (h : s.Follows legible own) (level : Nat) :
    Adds reader nested file s.mode own ((s.lines level).map fun l => l.2.spelled) s.entries := by
  induction s using Section.induct generalizing own level with
  | step s ih =>
    refine adds_entries h.obeys.nodup fun key node hmem => ?_
    have hget : s.get? key = some node := (Entries.get?_eq_some_iff h.obeys.nodup).mpr hmem
    cases node with
    | scalar value =>
      exact adds_scalar (h.obeys.scalar key value (Section.getScalar?_eq_some_iff.mpr hget)) level
    | subsection mode entries =>
      have hsection : s.getSection? key = some ⟨mode, entries⟩ :=
        Section.getSection?_eq_some_iff.mpr hget
      exact adds_child ⟨mode, entries⟩ (h.obeys.child key _ hsection)
        (ih key ⟨mode, entries⟩ hmem (h.child hsection) (level + 1))

end

/-- A tree whose lines are clean and say what they were written for is read back from its text. -/
theorem readText_print {s : Section} (hmode : s.mode = .fold) (hlegible : s.Follows legible none)
    (hclean : ∀ l ∈ s.lines 0, l.2.Clean) (indent : Nat) :
    reader.readText file .fold (s.print false indent) = ⟨[], .ok { root := s }⟩ := by
  have htext := TreeLine.texts_ofText_physical hclean indent
  rw [← Section.print_eq_unlines] at htext
  have hlines : ∀ nested, reader.readLines nested file
      (LogicalLine.ofText (s.print false indent)) { root := { mode := .fold } }
        = pure { root := s } := by
    intro nested
    have hcur : current? { root := { mode := .fold } } = some { mode := .fold } := rfl
    have h : reader.readLines nested file
        (LogicalLine.ofText (s.print false indent) ++ []) { root := { mode := .fold } }
          = reader.readLines nested file [] { root := { mode := .fold, entries := s.entries } } :=
      adds_lines hlegible 0 _ _ _ [] hcur hmode.symm rfl (fun _ _ => List.not_mem_nil) htext
    rw [List.append_nil, ← hmode] at h
    rw [← hmode, h]
    rfl
  have hwhole : ∀ nested, reader.readWhole nested file .fold (s.print false indent) = pure s := by
    intro nested
    rw [readWhole, hlines]
    rfl
  rw [readText]
  cases reader.services.limit with
  | zero => rw [readWithin, hwhole]; rfl
  | succ depth => rw [readWithin, hwhole]; rfl

end DocumentReader

end WorkflowControl
