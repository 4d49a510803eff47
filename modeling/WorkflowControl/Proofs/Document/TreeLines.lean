import WorkflowControl.Proofs.Document.Arrangement
import WorkflowControl.Proofs.Line
import WorkflowControl.Proofs.LogicalLine

/-!
The lines that a tree is written in. A tree that is printed as it stands is the text of these lines,
each behind the margin of its level (`print_eq_unlines`). Where every line is clean, the logical
lines of that text are the lines as they were before hash signs were escaped
(`texts_ofText_physical`).
-/

namespace WorkflowControl

/-- A line of a printed tree. -/
inductive TreeLine where
  | pair (key value : Text)
  | opening (key : Text)
  | closing (key : Text)

namespace TreeLine

open Line Text

/-- The key that the line is about. -/
def key : TreeLine → Text
  | pair key _ => key
  | opening key => key
  | closing key => key

/-- The line before hash signs are escaped. -/
def spelled : TreeLine → Text
  | pair key value => pairText key value
  | opening key => openTag key
  | closing key => closeTag key

/-- The line with the hash signs of its value escaped. -/
def escaped : TreeLine → TreeLine
  | pair key value => pair key value.escapeHash
  | opening key => opening key
  | closing key => closing key

/-- The line as it is written behind its margin. -/
def written (l : TreeLine) : Text := l.escaped.spelled

/-- A line at its level of nesting, as it is written. -/
def physical (indent : Nat) (l : Nat × TreeLine) : Text :=
  List.replicate (indent * l.1) ' ' ++ l.2.written

/-- Whether a line is read back as it was spelled: what is written is one logical line, has no
comment and loses nothing at its ends. -/
structure Clean (l : TreeLine) : Prop where
  hash_not_mem_key : '#' ∉ l.key
  newline_not_mem : '\n' ∉ l.spelled
  trimmed : l.spelled.trim = l.spelled
  ne_nil : l.spelled ≠ []
  not_continued : l.spelled.getLast? ≠ some '\\'

theorem written_eq_escapeHash {l : TreeLine} (h : '#' ∉ l.key) :
    l.written = l.spelled.escapeHash := by
  cases l with
  | pair key value =>
    have hmargin : ∀ t : Text, pairText key t = (key ++ [' ', '=', ' ']) ++ t := by
      intro t
      simp [pairText]
    have hkey : '#' ∉ key ++ [' ', '=', ' '] := by simpa [TreeLine.key] using h
    show pairText key value.escapeHash = (pairText key value).escapeHash
    rw [hmargin, hmargin, escapeHash_append, escapeHash_of_not_mem hkey]
  | opening key =>
    have hkey : '#' ∉ openTag key := by simpa [openTag, TreeLine.key] using h
    exact (escapeHash_of_not_mem hkey).symm
  | closing key =>
    have hkey : '#' ∉ closeTag key := by simpa [closeTag, TreeLine.key] using h
    exact (escapeHash_of_not_mem hkey).symm

theorem trim_physical (indent : Nat) (l : Nat × TreeLine) :
    (physical indent l).trim = l.2.written.trim :=
  trim_blanks_append (fun c hc => by rw [List.eq_of_mem_replicate hc]; rfl) _

/-- A clean line is trimmed and whole as it is written. -/
theorem Clean.trim_physical {l : Nat × TreeLine} (h : l.2.Clean) (indent : Nat) :
    (physical indent l).trim = l.2.spelled.escapeHash := by
  rw [TreeLine.trim_physical, written_eq_escapeHash h.hash_not_mem_key, trim_escapeHash, h.trimmed]

theorem newline_not_mem_physical {l : Nat × TreeLine} (h : l.2.Clean) (indent : Nat) :
    '\n' ∉ physical indent l := by
  rw [physical, List.mem_append, written_eq_escapeHash h.hash_not_mem_key,
    mem_escapeHash (by decide), not_or]
  exact ⟨fun hmem => absurd (List.eq_of_mem_replicate hmem) (by decide), h.newline_not_mem⟩

theorem clean_pair {key value : Text} (hk : IsWord key) (hhash : '#' ∉ key) (hv : value ≠ [])
    (htrim : value.trim = value) (hnewline : '\n' ∉ value) (hlast : value.getLast? ≠ some '\\') :
    Clean (pair key value) where
  hash_not_mem_key := hhash
  newline_not_mem := by
    intro hmem
    simp only [spelled, pairText, List.mem_append, List.mem_cons] at hmem
    rcases hmem with hmem | hmem | hmem | hmem | hmem
    · exact absurd (hk.2 _ hmem) (by decide)
    · exact absurd hmem (by decide)
    · exact absurd hmem (by decide)
    · exact absurd hmem (by decide)
    · exact hnewline hmem
  trimmed := trim_pairText hk hv htrim
  ne_nil := by simp [spelled, pairText]
  not_continued := by
    rw [spelled, getLast_pairText key hv]
    exact hlast

/-- A line without blanks that ends in `>` is clean if its key has no hash sign. -/
theorem clean_of_blank_free {l : TreeLine} (hhash : '#' ∉ l.key)
    (hlast : l.spelled.getLast? = some '>') (hblank : ∀ c ∈ l.spelled, isBlank c = false) :
    Clean l where
  hash_not_mem_key := hhash
  newline_not_mem := fun hmem => absurd (hblank _ hmem) (by decide)
  trimmed := trim_of_blank_free hblank
  ne_nil := by
    intro hnil
    rw [hnil] at hlast
    cases hlast
  not_continued := by
    rw [hlast]
    decide

theorem clean_opening {key : Text} (hk : IsWord key) (hhash : '#' ∉ key) : Clean (opening key) :=
  clean_of_blank_free hhash (getLast_openTag key) (blank_free_openTag hk)

theorem clean_closing {key : Text} (hk : IsWord key) (hhash : '#' ∉ key) : Clean (closing key) :=
  clean_of_blank_free hhash (getLast_closeTag key) (blank_free_closeTag hk)

/-- The logical lines of clean lines are these lines as they are spelled. -/
theorem texts_ofText_physical {ls : List (Nat × TreeLine)} (h : ∀ l ∈ ls, l.2.Clean)
    (indent : Nat) :
    (LogicalLine.ofText (unlines (ls.map (physical indent)))).map LogicalLine.text
      = ls.map fun l => l.2.spelled := by
  have hlines : lines (unlines (ls.map (physical indent))) = ls.map (physical indent) := by
    refine lines_unlines fun t ht => ?_
    obtain ⟨l, hl, rfl⟩ := List.mem_map.mp ht
    exact newline_not_mem_physical (h l hl) indent
  -- No line is continued, so each physical line is a logical line.
  have hwhole : ∀ t ∈ ls.map (physical indent), t.trim.getLast? ≠ some '\\' := by
    intro t ht
    obtain ⟨l, hl, rfl⟩ := List.mem_map.mp ht
    rw [(h l hl).trim_physical, getLast_escapeHash]
    exact (h l hl).not_continued
  have hspelled : ((ls.map (physical indent)).map trim).map LogicalLine.withoutComment
      = ls.map fun l => l.2.spelled := by
    rw [List.map_map, List.map_map]
    refine List.map_congr_left fun l hl => ?_
    show LogicalLine.withoutComment (physical indent l).trim = _
    rw [(h l hl).trim_physical, LogicalLine.withoutComment_escapeHash]
  rw [LogicalLine.texts_ofText, hlines, LogicalLine.texts_join _ 0 hwhole, hspelled]
  refine List.filter_eq_self.mpr fun t ht => ?_
  obtain ⟨l, hl, rfl⟩ := List.mem_map.mp ht
  rw [(h l hl).trimmed]
  simpa using (h l hl).ne_nil

end TreeLine

namespace Node

mutual

/-- The lines of one entry at a level of nesting. -/
def lines (level : Nat) (key : Text) : Node → List (Nat × TreeLine)
  | scalar value => [(level, .pair key value)]
  | subsection _ entries =>
    (level, .opening key) :: (entriesLines (level + 1) entries ++ [(level, .closing key)])
termination_by structural n => n

/-- The lines of entries at a level of nesting. -/
def entriesLines (level : Nat) : List (Text × Node) → List (Nat × TreeLine)
  | [] => []
  | (key, node) :: rest => lines level key node ++ entriesLines level rest
termination_by structural es => es

end

theorem entriesLines_eq_flatMap (level : Nat) (entries : Entries Node) :
    entriesLines level entries = entries.flatMap fun e => lines level e.1 e.2 := by
  induction entries with
  | nil => rfl
  | cons e rest ih => rw [entriesLines, ih, List.flatMap_cons]

end Node

namespace Section

/-- The lines of a section at a level of nesting, without its own tags. -/
def lines (level : Nat) (s : Section) : List (Nat × TreeLine) := Node.entriesLines level s.entries

theorem lines_toNode (level : Nat) (key : Text) (s : Section) :
    s.toNode.lines level key
      = (level, .opening key) :: (s.lines (level + 1) ++ [(level, .closing key)]) := rfl

/-- The text of a printed section is that of its lines. -/
theorem joinPrinted_eq_unlines (indent level : Nat) (s : Section) :
    Node.joinPrinted false (Node.printEntries false indent level s.entries)
      = Text.unlines ((s.lines level).map (TreeLine.physical indent)) := by
  induction s using induct generalizing level with
  | step s ih =>
    have hentry : ∀ e ∈ s.entries, Node.printEntry false indent level e.1 e.2
        = Text.unlines ((Node.lines level e.1 e.2).map (TreeLine.physical indent)) := by
      intro e he
      obtain ⟨key, node⟩ := e
      cases node with
      | scalar value =>
        simp [Node.printEntry, Node.lines, TreeLine.physical, TreeLine.written, TreeLine.escaped,
          TreeLine.spelled, Line.pairText, Text.unlines]
      | subsection mode entries =>
        have hchild := ih key ⟨mode, entries⟩ he (level + 1)
        rw [lines] at hchild
        rw [Node.printEntry]
        simp only [Bool.false_and, hchild]
        simp [Node.lines, TreeLine.physical, TreeLine.written, TreeLine.escaped, TreeLine.spelled,
          Line.openTag, Line.closeTag, Text.unlines]
    rw [Node.joinPrinted, Node.printEntries_eq_map, lines, Node.entriesLines_eq_flatMap]
    generalize s.entries = es at hentry
    induction es with
    | nil => rfl
    | cons e es ih =>
      have hrest := ih fun e he => hentry e (List.mem_cons_of_mem _ he)
      simp only [Bool.false_eq_true, if_false] at hrest ⊢
      rw [List.map_cons, List.flatMap_cons, List.flatMap_cons, List.map_append,
        Text.unlines_append, hrest, hentry e (by simp)]

theorem print_eq_unlines (indent : Nat) (s : Section) :
    s.print false indent = Text.unlines ((s.lines 0).map (TreeLine.physical indent)) :=
  joinPrinted_eq_unlines indent 0 s

theorem mem_lines_iff {level : Nat} {s : Section} {l : Nat × TreeLine} :
    l ∈ s.lines level ↔ ∃ key node, (key, node) ∈ s.entries ∧ l ∈ node.lines level key := by
  rw [lines, Node.entriesLines_eq_flatMap, List.mem_flatMap]
  constructor
  · intro ⟨e, he, hl⟩
    exact ⟨e.1, e.2, he, hl⟩
  · intro ⟨key, node, he, hl⟩
    exact ⟨(key, node), he, hl⟩

section

variable {rule : Rule} {own : Option Text} {s : Section}

/-- What the entries of a tree are asked for makes all its lines have a property. -/
theorem Follows.lines {P : TreeLine → Prop} (h : s.Follows rule own)
    (hscalar : ∀ mode key value, rule.scalar mode key value → P (.pair key value))
    (hchild : ∀ own mode key childMode, rule.child own mode key childMode →
      P (.opening key) ∧ P (.closing key)) (level : Nat) : ∀ l ∈ s.lines level, P l.2 := by
  induction s using induct generalizing own level with
  | step s ih =>
    intro l hl
    obtain ⟨key, node, hmem, hl⟩ := mem_lines_iff.mp hl
    have hget := (Entries.get?_eq_some_iff h.obeys.nodup).mpr hmem
    cases node with
    | scalar value =>
      obtain rfl := List.mem_singleton.mp hl
      exact hscalar _ _ _ (h.obeys.scalar key value (getScalar?_eq_some_iff.mpr hget))
    | subsection mode entries =>
      have hsection : s.getSection? key = some ⟨mode, entries⟩ := getSection?_eq_some_iff.mpr hget
      obtain ⟨hopening, hclosing⟩ := hchild _ _ _ _ (h.obeys.child key _ hsection)
      rcases List.mem_cons.mp hl with rfl | hl
      · exact hopening
      rcases List.mem_append.mp hl with hl | hl
      · exact ih key ⟨mode, entries⟩ hmem (h.child hsection) (level + 1) l hl
      · obtain rfl := List.mem_singleton.mp hl
        exact hclosing

/-- What the scalars of a tree are asked for is true of what its pair lines say. -/
theorem Follows.pair_lines {P : Text → Text → Prop} (h : s.Follows rule own)
    (hscalar : ∀ mode key value, rule.scalar mode key value → P key value) (level : Nat) :
    ∀ l ∈ s.lines level, ∀ key value, l.2 = .pair key value → P key value := by
  refine h.lines (P := fun l => ∀ key value, l = .pair key value → P key value) ?_ ?_ level
  · intro mode key value hrule _ _ hline
    cases hline
    exact hscalar mode key value hrule
  · exact fun _ _ _ _ _ => ⟨nofun, nofun⟩

/-- Every scalar of a tree and every child section has its lines. -/
theorem mem_lines_of_at {path : List Text} {t : Section} (hat : s.at? path = some t)
    {key : Text} {node : Node} (hget : t.get? key = some node) (level : Nat) :
    ∃ inner, ∀ l ∈ node.lines inner key, l ∈ s.lines level := by
  induction path generalizing s level with
  | nil =>
    obtain rfl := Option.some.inj hat
    exact ⟨level, fun l hl => mem_lines_iff.mpr ⟨key, node, Entries.mem_of_get? hget, hl⟩⟩
  | cons k path ih =>
    rw [at?_cons] at hat
    obtain ⟨child, hchild, hat⟩ := Option.bind_eq_some_iff.mp hat
    obtain ⟨inner, hinner⟩ := ih hat (level + 1)
    have hmem := Entries.mem_of_get? (getSection?_eq_some_iff.mp hchild)
    refine ⟨inner, fun l hl => mem_lines_iff.mpr ⟨k, child.toNode, hmem, ?_⟩⟩
    rw [lines_toNode]
    simp [hinner l hl]

/-- A tree follows a rule that its lines make its entries obey. -/
theorem follows_of_lines {base : Rule} {P : TreeLine → Prop} {level : Nat}
    (hbase : s.Follows base own) (h : ∀ l ∈ s.lines level, P l.2)
    (hscalar : ∀ mode key value, P (.pair key value) → rule.scalar mode key value)
    (hchild : ∀ own mode key childMode, P (.opening key) → rule.child own mode key childMode) :
    s.Follows rule own := by
  intro path t ht
  refine ⟨(hbase path t ht).nodup, fun key value hv => ?_, fun key child hc => ?_⟩
  · obtain ⟨inner, hmem⟩ := mem_lines_of_at ht (getScalar?_eq_some_iff.mp hv) level
    exact hscalar _ _ _ (h (inner, .pair key value) (hmem _ (List.mem_singleton.mpr rfl)))
  · obtain ⟨inner, hmem⟩ := mem_lines_of_at ht (getSection?_eq_some_iff.mp hc) level
    exact hchild _ _ _ _ (h (inner, .opening key) (hmem _ List.mem_cons_self))

end

end Section

end WorkflowControl
