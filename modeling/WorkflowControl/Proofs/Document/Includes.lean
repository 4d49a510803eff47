import WorkflowControl.File.Memory
import WorkflowControl.Proofs.Document.FoldedKeys
import WorkflowControl.Proofs.Document.Inclusion

/-!
The includes that a reading performs. `Performs` says how lines are read when nothing bounds how
deep includes are nested, and which includes that takes, as trees. The reader that stops at a depth
is this reading for trees that are not higher than the depth (`readLines_eq_ok_iff`), so a document
comes with the trees of its includes, and the limit bounds their height.

A file on a cycle of includes has no such tree, however long the cycle is and whatever else its
files include (`not_performs_of_cycle`). So a text that leads into a cycle is refused, whatever the
limit.
-/

namespace WorkflowControl

/-- An include that was performed: the path that was read, and the includes of the file there. -/
inductive IncludeTree where
  | node (path : Text) (inner : List IncludeTree)

namespace IncludeTree

mutual

/-- The number of files that are read inside one another, from the file of the include on. -/
def height : IncludeTree → Nat
  | node _ inner => heights inner + 1

/-- The greatest height of some trees. -/
def heights : List IncludeTree → Nat
  | [] => 0
  | tree :: rest => max tree.height (heights rest)

end

theorem heights_cons_le_iff {path : Text} {inner rest : List IncludeTree} {depth : Nat} :
    heights (node path inner :: rest) ≤ depth
      ↔ heights inner + 1 ≤ depth ∧ heights rest ≤ depth := by
  rw [heights, height, Nat.max_le]

end IncludeTree

theorem Path.same_congr {a b : Text} (h : same a b = true) (c : Text) : same c a = same c b := by
  rw [same, Bool.and_eq_true, beq_iff_eq, beq_iff_eq] at h
  rw [same, same, h.1, h.2]

/-- Two spellings of a path lead to the same file in memory. -/
theorem MemoryFiles.read_eq_ok_of_same {memory : MemoryFiles} {a b text : Text}
    (h : Path.same a b = true) (hread : memory.read a = .ok text) : memory.read b = .ok text := by
  have hfind : memory.files.find? (fun file => Path.same file.1 b)
      = memory.files.find? fun file => Path.same file.1 a := by
    simp only [Path.same_congr h]
  unfold read at hread ⊢
  rw [hfind]
  cases hfile : memory.files.find? fun file => Path.same file.1 a with
  | none => rw [hfile] at hread; cases hread
  | some file => rw [hfile] at hread; exact hread

/-- What a text without `$` is substituted by is the text. -/
theorem eq_of_substituteOne {source : Source} {services : Services} {expand : Bool}
    {text out : Text} (h : '$' ∉ text)
    (hout : substituteOne source services expand text = .ok out) : out = text := by
  by_cases hlimit : services.limit = 0
  · -- With a limit of 0 there is no first round, and the substitution fails.
    rw [substituteOne, substitute_eq_outermost, Substitution.Context.substitute,
      Substitution.Context.settleSweeps] at hout
    have hnone : (Substitution.Context.outermost source services expand).services.limit = 0 :=
      hlimit
    rw [hnone] at hout
    cases hout
  · rw [substituteOne_of_not_mem h hlimit] at hout
    exact (Except.ok.inj hout).symm

namespace DocumentReader

open IncludeTree

/-- The path that the target of an include stands for, and the text of the file there. -/
def fileAt (reader : DocumentReader) (st : ReadState) (target : Text) :
    Except Error (Text × Text) := do
  let expanded ← substituteOne (.ofDocument st.document {}) reader.services false target
  let path := reader.environment.expandPath expanded
  let text ← (reader.readInclude path).mapError (.read path)
  return (path, text)

/-- How lines are read when nothing bounds the depth of includes: the state behind them, and the
includes that are performed on the way, in order. -/
inductive Performs (reader : DocumentReader) :
    (file : Text) → List LogicalLine → (st last : ReadState) → List IncludeTree → Prop
  | done {file : Text} {st : ReadState} : Performs reader file [] st st []
  | other {file : Text} {line : LogicalLine} {rest : List LogicalLine} {st next last : ReadState}
      {includes : List IncludeTree}
      (hline : ∀ target, Line.classify line.text ≠ .includeFile target)
      (hnext : (reader.readLine none file line st).outcome = .ok next)
      (hrest : Performs reader file rest next last includes) :
      Performs reader file (line :: rest) st last includes
  | included {file path target text : Text} {line : LogicalLine} {rest : List LogicalLine}
      {st last : ReadState} {tree : Section} {inner includes : List IncludeTree}
      (hline : Line.classify line.text = .includeFile target)
      (hfile : reader.fileAt st target = .ok (path, text))
      (hinner : Performs reader path (LogicalLine.ofText text)
        { root := { mode := (st.current?.map Section.mode).getD .fold } } { root := tree } inner)
      (hrest : Performs reader file rest { st with root := st.root.merge tree } last includes) :
      Performs reader file (line :: rest) st last (.node path inner :: includes)

variable {reader : DocumentReader} {file : Text} {st last : ReadState} {ls : List LogicalLine}
  {includes : List IncludeTree}

theorem includedTree_some (nested : TreeReader) (pos : Position) (target : Text) (st : ReadState) :
    reader.includedTree (some nested) pos target st
      = (Reading.ofExcept (reader.fileAt st target)).andThen fun found =>
          nested found.1 ((st.current?.map Section.mode).getD .fold) found.2 := by
  unfold includedTree fileAt
  cases substituteOne (.ofDocument st.document {}) reader.services false target with
  | error e => rfl
  | ok expanded =>
    show Reading.andThen (.ofExcept (Except.mapError _ (reader.readInclude _))) _
      = (Reading.ofExcept (Except.mapError _ (reader.readInclude _) >>= _)).andThen _
    cases reader.readInclude (reader.environment.expandPath expanded) with
    | error e => rfl
    | ok text => rfl

/-- What an include line does, where its file is found and read. -/
theorem readLine_includeFile_eq_ok_iff {nested : TreeReader} {line : LogicalLine} {target : Text}
    {next : ReadState} (hline : Line.classify line.text = .includeFile target) :
    (reader.readLine (some nested) file line st).outcome = .ok next
      ↔ ∃ path text tree, reader.fileAt st target = .ok (path, text)
        ∧ (nested path ((st.current?.map Section.mode).getD .fold) text).outcome = .ok tree
        ∧ next = { st with root := st.root.merge tree } := by
  rw [readLine_includeFile hline, includedTree_some]
  constructor
  · intro h
    obtain ⟨tree, htree, h⟩ := Reading.andThen_eq_ok h
    obtain ⟨⟨path, text⟩, hfile, htree⟩ := Reading.andThen_eq_ok htree
    exact ⟨path, text, tree, hfile, htree, (Except.ok.inj h).symm⟩
  · rintro ⟨path, text, tree, hfile, htree, rfl⟩
    rw [hfile]
    show (Reading.andThen (nested path _ text) _).outcome = _
    rw [Reading.andThen, htree]
    rfl

/-- A line that includes no file is read in the same way at every depth. -/
theorem readLine_eq_of_not_includeFile {nested : Option TreeReader} {line : LogicalLine}
    (hline : ∀ target, Line.classify line.text ≠ .includeFile target) (st : ReadState) :
    reader.readLine nested file line st = reader.readLine none file line st := by
  unfold readLine
  cases h : Line.classify line.text with
  | includeFile target => exact absurd h (hline target)
  | _ => rfl

/-- Lines that are read perform their includes, given that the files that they include do. -/
theorem exists_performs_of_readLines {nested : Option TreeReader} {depth : Nat}
    (hnested : ∀ read ∈ nested, ∀ path mode text tree, (read path mode text).outcome = .ok tree →
      ∃ inner, reader.Performs path (LogicalLine.ofText text) { root := { mode := mode } }
        { root := tree } inner ∧ heights inner + 1 ≤ depth)
    (h : (reader.readLines nested file ls st).outcome = .ok last) :
    ∃ includes, reader.Performs file ls st last includes ∧ heights includes ≤ depth := by
  induction ls generalizing st with
  | nil =>
    obtain rfl := Except.ok.inj h
    exact ⟨[], .done, Nat.zero_le depth⟩
  | cons line rest ih =>
    obtain ⟨next, hnext, h⟩ := Reading.andThen_eq_ok h
    obtain ⟨includes, hrest, hheight⟩ := ih h
    by_cases hline : ∃ target, Line.classify line.text = .includeFile target
    · obtain ⟨target, hline⟩ := hline
      cases nested with
      | none =>
        rw [readLine, hline] at hnext
        cases hnext
      | some read =>
        obtain ⟨path, text, tree, hfile, htree, rfl⟩ :=
          (readLine_includeFile_eq_ok_iff hline).mp hnext
        obtain ⟨inner, hinner, hdeep⟩ := hnested read rfl path _ text tree htree
        exact ⟨_, .included hline hfile hinner hrest, heights_cons_le_iff.mpr ⟨hdeep, hheight⟩⟩
    · have hother := not_exists.mp hline
      rw [readLine_eq_of_not_includeFile hother] at hnext
      exact ⟨includes, .other hother hnext hrest, hheight⟩

/-- Within a depth, lines are read as they are without a bound, as long as the includes that this
takes are not nested deeper. -/
theorem readLines_eq_ok_iff {depth : Nat} :
    (reader.readLines (reader.included? depth) file ls st).outcome = .ok last
      ↔ ∃ includes, reader.Performs file ls st last includes ∧ heights includes ≤ depth := by
  constructor
  · intro h
    induction depth generalizing file ls st last with
    | zero =>
      refine exists_performs_of_readLines ?_ h
      intro read hread
      cases hread
    | succ depth ih =>
      refine exists_performs_of_readLines ?_ h
      rintro _ ⟨⟩ path mode text tree htree
      rw [readWithin_eq] at htree
      obtain ⟨inner, hinner, hheight⟩ := ih (readWhole_eq_ok_iff.mp htree)
      exact ⟨inner, hinner, Nat.succ_le_succ hheight⟩
  · rintro ⟨includes, h, hheight⟩
    induction h generalizing depth with
    | done => rfl
    | other hline hnext _ ih =>
      rw [readLines_cons, Reading.andThen, readLine_eq_of_not_includeFile hline, hnext]
      exact ih hheight
    | @included file path target text line rest st last tree inner includes hline hfile _ _
        ihinner ihrest =>
      obtain ⟨hinner, hrest⟩ := heights_cons_le_iff.mp hheight
      obtain ⟨less, rfl⟩ : ∃ less, depth = less + 1 := ⟨depth - 1, by omega⟩
      have htree := readWhole_eq_ok_iff.mpr (ihinner (Nat.le_of_succ_le_succ hinner))
      rw [← readWithin_eq] at htree
      have hnext : (reader.readLine (reader.included? (less + 1)) file line st).outcome
          = .ok { st with root := st.root.merge tree } :=
        (readLine_includeFile_eq_ok_iff hline).mpr ⟨path, text, tree, hfile, htree, rfl⟩
      rw [readLines_cons, Reading.andThen, hnext]
      exact ihrest hrest

/-- Reading without a bound has one outcome and performs the includes of one list of trees. -/
theorem Performs.unique {last' : ReadState} {includes' : List IncludeTree}
    (h : reader.Performs file ls st last includes)
    (h' : reader.Performs file ls st last' includes') :
    last' = last ∧ includes' = includes := by
  induction h generalizing last' includes' with
  | done =>
    cases h'
    exact ⟨rfl, rfl⟩
  | other hline hnext _ ih =>
    cases h' with
    | other _ hnext' hrest' =>
      obtain rfl := Except.ok.inj (hnext.symm.trans hnext')
      exact ih hrest'
    | included hline' => exact absurd hline' (hline _)
  | included hline hfile _ _ ihinner ihrest =>
    cases h' with
    | other hline' => exact absurd hline (hline' _)
    | included hline' hfile' hinner' hrest' =>
      obtain rfl := Line.includeFile.inj (hline.symm.trans hline')
      obtain ⟨rfl, rfl⟩ := Prod.mk.inj (Except.ok.inj (hfile.symm.trans hfile'))
      obtain ⟨hstate, rfl⟩ := ihinner hinner'
      obtain rfl := congrArg ReadState.root hstate
      obtain ⟨rfl, rfl⟩ := ihrest hrest'
      exact ⟨rfl, rfl⟩

/-- Whether one of the lines includes a file at one of the paths, by a spelling of the path in which
nothing is to be put in. -/
def IncludesOneOf (paths : Text → Prop) (ls : List LogicalLine) : Prop :=
  ∃ line ∈ ls, ∃ target, Line.classify line.text = .includeFile target
    ∧ '$' ∉ target ∧ target.head? ≠ some '~' ∧ ∃ path, paths path ∧ Path.same path target = true

/-- A path in which nothing is to be put in leads to the file there. -/
theorem fileAt_of_literal {target path text : Text} (hdollar : '$' ∉ target)
    (hhome : target.head? ≠ some '~') (h : reader.fileAt st target = .ok (path, text)) :
    reader.readInclude target = .ok text := by
  obtain ⟨expanded, hexpanded, hrest⟩ := Outcome.bind_eq_ok_iff.mp h
  obtain ⟨found, hfound, hpair⟩ := Outcome.bind_eq_ok_iff.mp hrest
  obtain ⟨-, rfl⟩ := Prod.mk.inj (Except.ok.inj hpair)
  rw [eq_of_substituteOne hdollar hexpanded, Environment.expandPath_of_plain _ hdollar hhome]
    at hfound
  cases hread : reader.readInclude target with
  | error e =>
    rw [hread] at hfound
    cases hfound
  | ok text =>
    rw [hread] at hfound
    exact congrArg Except.ok (Except.ok.inj hfound)

/-- Lines that lead into a cycle of includes cannot be read at any depth: each include of a file on
the cycle takes the tree of another one. -/
theorem not_performs_of_cycle {memory : MemoryFiles} {paths : Text → Prop}
    (hmemory : reader.readInclude = memory.read)
    (hcycle : ∀ path, paths path → ∃ content, memory.read path = .ok content
      ∧ IncludesOneOf paths (LogicalLine.ofText content))
    (hls : IncludesOneOf paths ls) : ¬ reader.Performs file ls st last includes := by
  intro h
  induction h with
  | done =>
    obtain ⟨line, hline, -⟩ := hls
    cases hline
  | other hother _ _ ih =>
    obtain ⟨line, hmem, target, hline, hleads⟩ := hls
    rcases List.mem_cons.mp hmem with rfl | hmem
    · exact hother target hline
    · exact ih ⟨line, hmem, target, hline, hleads⟩
  | included hincludes hfile _ _ ihinner ihrest =>
    obtain ⟨line, hmem, target, hline, hleads⟩ := hls
    rcases List.mem_cons.mp hmem with rfl | hmem
    · obtain rfl := Line.includeFile.inj (hincludes.symm.trans hline)
      obtain ⟨hdollar, hhome, path, hpath, hsame⟩ := hleads
      obtain ⟨content, hcontent, hagain⟩ := hcycle path hpath
      have hread := fileAt_of_literal hdollar hhome hfile
      rw [hmemory, MemoryFiles.read_eq_ok_of_same hsame hcontent] at hread
      obtain rfl := Except.ok.inj hread
      exact ihinner hagain
    · exact ihrest ⟨line, hmem, target, hline, hleads⟩

/-- A text that leads into a cycle of files in memory is refused, whatever the limit. And a document
is read exactly if its includes come to an end within the limit: then the reading is the one without
a bound, and the trees of the includes that it performs are at most as high as the limit. -/
theorem includes_end :
    (∀ (memory : MemoryFiles) (services : Services) (environment : Environment)
        (paths : Text → Prop) (file : Text) (mode : KeyCase) (text : Text),
      (∀ path, paths path → ∃ content, memory.read path = .ok content
        ∧ IncludesOneOf paths (LogicalLine.ofText content)) →
      IncludesOneOf paths (LogicalLine.ofText text) →
      ∃ e, (readText ⟨services, environment, memory.read⟩ file mode text).outcome = .error e)
    ∧ ∀ (reader : DocumentReader) (file : Text) (mode : KeyCase) (text : Text) (doc : Document),
      (reader.readText file mode text).outcome = .ok doc
        ↔ doc.searchOrder = []
          ∧ ∃ includes,
            reader.Performs file (LogicalLine.ofText text) { root := { mode := mode } }
              { root := doc.root } includes
            ∧ heights includes ≤ reader.services.limit
            ∧ ∀ last others, reader.Performs file (LogicalLine.ofText text)
                { root := { mode := mode } } last others → others = includes := by
  constructor
  · intro memory services environment paths file mode text hcycle htext
    cases hread : (readText ⟨services, environment, memory.read⟩ file mode text).outcome with
    | error e => exact ⟨e, rfl⟩
    | ok doc =>
      obtain ⟨includes, hperforms, -⟩ := readLines_eq_ok_iff.mp (readText_eq_ok_iff.mp hread).2
      exact absurd hperforms (not_performs_of_cycle rfl hcycle htext)
  · intro reader file mode text doc
    rw [readText_eq_ok_iff, readLines_eq_ok_iff]
    constructor
    · rintro ⟨horder, includes, hperforms, hheight⟩
      exact ⟨horder, includes, hperforms, hheight,
        fun _ _ hother => (hperforms.unique hother).2⟩
    · rintro ⟨horder, includes, hperforms, hheight, -⟩
      exact ⟨horder, includes, hperforms, hheight⟩

/-- A text that includes the file `a`. -/
def entryText : Text := Text.unlines [Line.includeLine ['a']]

/-- Two files that include one another, one of them by another spelling of the path. -/
def circularFiles : MemoryFiles :=
  ⟨[(['a'], Text.unlines [Line.includeLine ['b', '/']]),
    (['b'], Text.unlines [['X', '=', '1'], Line.includeLine ['a']])]⟩

/-- Two files of which one includes the other one. -/
def nestedFiles : MemoryFiles :=
  ⟨[(['a'], Text.unlines [Line.includeLine ['b']]), (['b'], Text.unlines [['X', '=', '1']])]⟩

/-- From the one pair of files no document is read, and from the other one a document is. -/
theorem includes_end_entryText :
    let paths := fun path => path = ['a'] ∨ path = ['b']
    let reader : DocumentReader := ⟨{ limit := 2 }, {}, nestedFiles.read⟩
    let doc : Document := { root := { entries := [(['x'], .scalar ['1'])] } }
    (∀ path, paths path → ∃ content, circularFiles.read path = .ok content
        ∧ IncludesOneOf paths (LogicalLine.ofText content))
      ∧ IncludesOneOf paths (LogicalLine.ofText entryText)
      ∧ (∃ e, (readText ⟨{}, {}, circularFiles.read⟩ [] .fold entryText).outcome = .error e)
      ∧ (reader.readText [] .fold entryText).outcome = .ok doc
      ∧ ∃ includes, reader.Performs [] (LogicalLine.ofText entryText) { root := {} }
            { root := doc.root } includes
          ∧ heights includes ≤ 2
          ∧ ∀ last others,
              reader.Performs [] (LogicalLine.ofText entryText) { root := {} } last others →
              others = includes := by
  intro paths reader doc
  have hcycle : ∀ path, paths path → ∃ content, circularFiles.read path = .ok content
      ∧ IncludesOneOf paths (LogicalLine.ofText content) := by
    rintro path (rfl | rfl)
    · exact ⟨_, rfl, ⟨1, Line.includeLine ['b', '/']⟩, by decide, ['b', '/'], rfl, by decide,
        by decide, ['b'], .inr rfl, rfl⟩
    · exact ⟨_, rfl, ⟨2, Line.includeLine ['a']⟩, by decide, ['a'], rfl, by decide, by decide,
        ['a'], .inl rfl, rfl⟩
  have hentry : IncludesOneOf paths (LogicalLine.ofText entryText) :=
    ⟨⟨1, Line.includeLine ['a']⟩, by decide, ['a'], rfl, by decide, by decide, ['a'], .inl rfl, rfl⟩
  have hread : (reader.readText [] .fold entryText).outcome = .ok doc := rfl
  exact ⟨hcycle, hentry, includes_end.1 circularFiles {} {} paths [] .fold entryText hcycle hentry,
    hread, ((includes_end.2 reader [] .fold entryText doc).mp hread).2⟩

end DocumentReader

end WorkflowControl
