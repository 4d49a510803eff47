import WorkflowControl.Proofs.Document.Grammar
import WorkflowControl.Proofs.Section.Folded

/-!
Whether the folding sections of a document hold lowered keys only, along any sequence of operations.
All operations but merging keep a tree folded, and a merge keeps it so exactly if the keys that come
into folding sections are lowered already (`folded_apply_iff`). Reading a text is a sequence of
operations on the empty document (`performAll?_operations`), in which each directive is an update:
it merges a tree into the root, whatever the key case is that the tree was read with. So what is
said of operations is said of texts with any directives (`folded_operations_iff`).
-/

namespace WorkflowControl

open Section

namespace Operation

/-- The node that is written. -/
def written? : Operation → Option Node
  | .insert _ _ node => some node
  | .set _ node => some node
  | _ => none

/-- The section that is merged, with the place of the one that it is merged into. -/
def merged? : Operation → Option (List Text × Section)
  | .merge path added => some (path, added)
  | .update added => some ([], added)
  | _ => none

/-- Whether the sections that are given to an operation have distinct keys, and those that it writes
as they are have lowered keys where they fold. -/
structure Proper (op : Operation) : Prop where
  written : ∀ t : Section, op.written? = some t.toNode → t.Distinct ∧ t.Folded
  merged : ∀ path added, op.merged? = some (path, added) → added.Distinct

theorem proper_insert_scalar (path : List Text) (key value : Text) :
    (insert path key (.scalar value)).Proper where
  written _ ht := by cases ht
  merged _ _ hadded := by cases hadded

theorem proper_enter (path : List Text) (name : Text) : (enter path name).Proper where
  written _ ht := by cases ht
  merged _ _ hadded := by cases hadded

theorem proper_update {added : Section} (h : added.Distinct) : (update added).Proper where
  written _ ht := by cases ht
  merged _ _ hadded := by
    obtain ⟨-, rfl⟩ := Prod.mk.inj (Option.some.inj hadded)
    exact h

end Operation

namespace Document

/-- Whether an operation merges only what the section at its place takes. -/
def Fits (doc : Document) (op : Operation) : Prop :=
  ∀ path added s, op.merged? = some (path, added) → doc.root.at? path = some s → s.Takes added

/-- Whether operations in turn merge only what the sections that are there then take. -/
def FitsAll (doc : Document) : List Operation → Prop
  | [] => True
  | op :: rest => doc.Fits op ∧ (doc.apply op).FitsAll rest

variable {doc next : Document} {op : Operation} {ops : List Operation}

/-! ## One operation -/

/-- Writing at a dotted path is writing at a place. -/
theorem perform?_set (doc : Document) (key : Text) (node : Node) :
    ∃ path leaf, doc.perform? (.set key node) = doc.perform? (.insert path leaf node) := by
  refine ⟨(Text.splitOn '.' key).dropLast.map Text.lower, (Text.splitOn '.' key).getLast?.getD [],
    ?_⟩
  dsimp only [perform?, set, change?]
  split
  · rename_i hnone
    rw [hnone]
    rfl
  · rename_i root hroot
    rw [hroot]
    rfl

theorem perform?_bindCurrent (doc : Document) (key value : Text) :
    doc.perform? (.bindCurrent key value)
      = (doc.perform? (.enter [] currentName)).bind fun opened =>
          opened.perform? (.insert [currentName] key (.scalar value)) := by
  rw [perform?, perform?, bindCurrent, change?, modifyAt?]
  cases doc.root.withSection? currentName with
  | none => rfl
  | some root =>
    dsimp only [Option.bind_some, Option.map_some, perform?, change?]
    cases root.modifyAt? _ _ <;> rfl

theorem perform?_of_merged? {path : List Text} {added s : Section}
    (hop : op.merged? = some (path, added)) (hat : doc.root.at? path = some s) :
    doc.perform? op = some { doc with root := doc.root.replaceAt path (s.merge added) } := by
  cases op with
  | merge place other =>
    obtain ⟨rfl, rfl⟩ := Prod.mk.inj (Option.some.inj hop)
    rw [perform?, change?_eq hat]
    rfl
  | update other =>
    obtain ⟨rfl, rfl⟩ := Prod.mk.inj (Option.some.inj hop)
    obtain rfl := Option.some.inj hat
    rfl
  | _ => cases hop

theorem follows_change? {rule : Rule} {path : List Text} {f : Section → Option Section}
    (h : doc.root.Follows rule none)
    (hf : ∀ s new, doc.root.at? path = some s → s.Follows rule (path.getLast?.or none) →
      f s = some new → new.mode = s.mode ∧ new.Follows rule (path.getLast?.or none))
    (hnext : doc.change? path f = some next) : next.root.Follows rule none := by
  cases hat : doc.root.at? path with
  | none =>
    rw [change?_of_none hat] at hnext
    cases hnext
  | some s =>
    rw [change?_eq hat] at hnext
    obtain ⟨new, hnew, rfl⟩ := Option.map_eq_some_iff.mp hnext
    obtain ⟨hmode, hfollows⟩ := hf s new hat (h.at hat) hnew
    exact h.replaceAt hat hmode hfollows

section

variable {asked : KeyCase → Text → Prop} (hstored : ∀ (mode : KeyCase) key, asked mode (mode.stored key))
  (hlower : ∀ (mode : KeyCase) (name : Text), asked mode name.lower)

include hstored in
theorem follows_insert {path : List Text} {key : Text} {node : Node}
    (h : doc.root.Follows (.ofKeys asked) none)
    (hnode : ∀ t : Section, node = t.toNode → t.Follows (.ofKeys asked) none)
    (hnext : doc.perform? (.insert path key node) = some next) :
    next.root.Follows (.ofKeys asked) none := by
  refine follows_change? h (fun s new _ hs hnew => ?_) hnext
  obtain rfl := Option.some.inj hnew
  refine ⟨rfl, ?_⟩
  cases node with
  | scalar value => exact hs.put_scalar (hstored s.mode key)
  | subsection mode entries =>
    have hbelow := hnode ⟨mode, entries⟩ rfl
    exact hs.put_section (hstored s.mode key) (hbelow.anywhere _)

include hlower in
theorem follows_enter {path : List Text} {name : Text} (h : doc.root.Follows (.ofKeys asked) none)
    (hnext : doc.perform? (.enter path name) = some next) :
    next.root.Follows (.ofKeys asked) none :=
  follows_change? h (fun s _ _ hs hnew => hs.withSection? (hlower s.mode name) hnew) hnext

include hstored hlower in
/-- A rule for keys that holds of the keys that are written has to be checked for what is merged
only. -/
theorem follows_perform? (h : doc.root.Follows (.ofKeys asked) none)
    (hwritten : ∀ t : Section, op.written? = some t.toNode → t.Follows (.ofKeys asked) none)
    (hmerged : ∀ path added s, op.merged? = some (path, added) → doc.root.at? path = some s →
      (s.merge added).Follows (.ofKeys asked) none)
    (hnext : doc.perform? op = some next) : next.root.Follows (.ofKeys asked) none := by
  cases op with
  | insert path key node =>
    exact follows_insert hstored h (fun t ht => hwritten t (congrArg some ht)) hnext
  | enter path name => exact follows_enter hlower h hnext
  | merge path added =>
    refine follows_change? h (fun s new hat _ hnew => ?_) hnext
    obtain rfl := Option.some.inj hnew
    exact ⟨rfl, (hmerged path added s rfl hat).anywhere _⟩
  | erase path key =>
    refine follows_change? h (fun s new _ hs hnew => ?_) hnext
    obtain rfl := Option.some.inj hnew
    exact ⟨rfl, hs.erase key⟩
  | set key node =>
    obtain ⟨path, leaf, hset⟩ := perform?_set doc key node
    rw [hset] at hnext
    exact follows_insert hstored h (fun t ht => hwritten t (congrArg some ht)) hnext
  | bindCurrent key value =>
    rw [perform?_bindCurrent] at hnext
    obtain ⟨opened, hopened, hnext⟩ := Option.bind_eq_some_iff.mp hnext
    have hopened := follows_enter hlower h hopened
    refine follows_insert hstored hopened (fun t ht => ?_) hnext
    cases ht
  | update added =>
    obtain rfl := Option.some.inj hnext
    exact hmerged [] added doc.root rfl rfl

end

theorem distinct_apply (h : doc.root.Distinct) (hop : op.Proper) :
    (doc.apply op).root.Distinct := by
  rw [apply]
  cases hnext : doc.perform? op with
  | none => exact h
  | some next =>
    refine (follows_perform? (fun _ _ => trivial) (fun _ _ => trivial) (h.follows none)
      (fun t ht => (hop.written t ht).1.follows none) ?_ hnext).distinct
    intro path added s hmerged hat
    exact (((h.follows none).at hat).distinct.merge (hop.merged path added hmerged)).follows none

/-- An operation keeps a tree folded exactly if it merges only what is taken. -/
theorem folded_apply_iff (h : doc.root.Follows (.ofKeys LoweredIfFold) none) (hop : op.Proper) :
    (doc.apply op).root.Folded ↔ doc.Fits op := by
  constructor
  · intro hfolded path added s hmerged hat
    rw [apply_of_perform? (perform?_of_merged? hmerged hat)] at hfolded
    have hplace := hfolded.at (at?_replaceAt hat (s.merge added))
    exact (folded_merge_iff (h.at hat) (hop.merged path added hmerged)).mp hplace
  · intro hfits
    rw [apply]
    cases hnext : doc.perform? op with
    | none => exact (follows_loweredIfFold_iff.mp h).2
    | some next =>
      refine (follows_loweredIfFold_iff.mp (follows_perform? loweredIfFold_stored
        loweredIfFold_lower h (fun t ht => follows_loweredIfFold_iff.mpr (hop.written t ht)) ?_
        hnext)).2
      intro path added s hmerged hat
      have hmerge := follows_merge_ofKeys (h.at hat) (hop.merged path added hmerged)
        (hfits path added s hmerged hat)
      exact hmerge.anywhere none

/-! ## Sequences of operations -/

theorem distinct_applyAll (h : doc.root.Distinct) (hops : ∀ op ∈ ops, op.Proper) :
    (doc.applyAll ops).root.Distinct := by
  induction ops generalizing doc with
  | nil => exact h
  | cons op rest ih =>
    exact ih (distinct_apply h (hops op (by simp)))
      fun later hlater => hops later (List.mem_cons_of_mem _ hlater)

/-- A tree is folded all along some operations exactly if each of them merges only what is taken. -/
theorem folded_applyAll_iff (h : doc.root.Follows (.ofKeys LoweredIfFold) none)
    (hops : ∀ op ∈ ops, op.Proper) :
    (∀ n, (doc.applyAll (ops.take n)).root.Folded) ↔ doc.FitsAll ops := by
  induction ops generalizing doc with
  | nil =>
    refine ⟨fun _ => trivial, fun _ n => ?_⟩
    rw [List.take_nil]
    exact (follows_loweredIfFold_iff.mp h).2
  | cons op rest ih =>
    have hop := hops op (by simp)
    have hrest := fun later hlater => hops later (List.mem_cons_of_mem _ hlater)
    have hnext (hfirst : (doc.apply op).root.Folded) :
        (doc.apply op).root.Follows (.ofKeys LoweredIfFold) none :=
      follows_loweredIfFold_iff.mpr ⟨distinct_apply h.distinct hop, hfirst⟩
    rw [FitsAll, ← folded_apply_iff h hop]
    constructor
    · intro hfolded
      have hfirst : (doc.apply op).root.Folded := hfolded 1
      exact ⟨hfirst, (ih (hnext hfirst) hrest).mp fun n => hfolded (n + 1)⟩
    · intro hgiven n
      obtain ⟨hfirst, hfits⟩ := hgiven
      cases n with
      | zero => exact (follows_loweredIfFold_iff.mp h).2
      | succ n => exact (ih (hnext hfirst) hrest).mpr hfits n

end Document

/-! ## Reading as operations -/

/-- What a line that is no directive asks for inside the section at a place. -/
def Line.operations (path : List Text) : Line → List Operation
  | .pair key value => [.insert path key (.scalar value)]
  | .openSection key label => tagOperations path key label
  | _ => []

namespace ReadState

open Document

theorem document_reading {doc : Document} (horder : doc.searchOrder = [])
    (opened : List OpenSection) : (doc.reading opened).document = doc := by
  obtain ⟨root, order⟩ := doc
  obtain rfl : order = [] := horder
  rfl

/-- A line that is accepted performs its operations. -/
theorem performAll?_of_after? {st st' : ReadState} {line : Line} (h : st.after? line = some st') :
    st.document.performAll? (line.operations st.path) = some st'.document := by
  cases line with
  | includeFile target => cases h
  | includeCall body => cases h
  | unmatched =>
    obtain rfl := Option.some.inj h
    rfl
  | close key =>
    obtain ⟨rest, -, rfl⟩ := Option.map_eq_some_iff.mp h
    rfl
  | pair key value =>
    obtain ⟨next, hnext, rfl⟩ := Option.map_eq_some_iff.mp
      ((after?_pair st.document st.openSections key value).symm.trans h)
    rw [document_reading (searchOrder_perform? hnext)]
    exact Option.bind_eq_some_iff.mpr ⟨next, hnext, rfl⟩
  | openSection key label =>
    obtain ⟨hname, -⟩ := after?_openSection_eq_some_iff.mp h
    have hall : st.afterAll? [.openSection key label] = some st' := by
      rw [afterAll?, h]
      rfl
    obtain ⟨next, hnext, hst⟩ := Option.bind_eq_some_iff.mp
      ((afterAll?_openSection hname st.document label []).symm.trans hall)
    obtain rfl := Option.some.inj hst
    have horder : next.searchOrder = [] := by
      rw [← applyAll_of_performAll? hnext, searchOrder_applyAll]
      rfl
    rw [document_reading horder]
    exact hnext

end ReadState

namespace DocumentReader

open Document ReadState

/-- The tree of the file that an include names. -/
def includedTree (reader : DocumentReader) (nested : Option TreeReader) (pos : Position)
    (target : Text) (st : ReadState) : Reading Section :=
  match nested with
  | none => .fail (st.failure pos (.includeTooDeep reader.services.limit target))
  | some nested => do
    let expanded ← .ofExcept
      (substituteOne (.ofDocument st.document {}) reader.services false target)
    let path := reader.environment.expandPath expanded
    let text ← .ofExcept ((reader.readInclude path).mapError (.read path))
    nested path ((st.current?.map Section.mode).getD .fold) text

/-- The tree that the function of a directive gives. -/
def calledTree (reader : DocumentReader) (pos : Position) (body : Text) (st : ReadState) :
    Reading Section :=
  match splitCall? body with
  | none => .fail (st.failure pos (.invalidCall body))
  | some (name, args) => do
    let args ← reader.callArguments pos name.trim st.document (ItemList.split args ',') []
    .ofExcept (reader.services.functions.callSection name.trim args)

/-- What a directive does with its tree, if there is one. -/
def updates : Except Error Section → List Operation
  | .ok added => [.update added]
  | .error _ => []

/-- What a line asks for in a state of reading. -/
def lineOperations (reader : DocumentReader) (nested : Option TreeReader) (file : Text)
    (line : LogicalLine) (st : ReadState) : List Operation :=
  match Line.classify line.text with
  | .includeFile target =>
    updates (reader.includedTree nested ⟨file, line.number⟩ target st).outcome
  | .includeCall body => updates (reader.calledTree ⟨file, line.number⟩ body st).outcome
  | said => said.operations st.path

/-- What lines in turn ask for, as far as they are accepted. -/
def linesOperations (reader : DocumentReader) (nested : Option TreeReader) (file : Text) :
    List LogicalLine → ReadState → List Operation
  | [], _ => []
  | line :: rest, st =>
    reader.lineOperations nested file line st ++
      match (reader.readLine nested file line st).outcome with
      | .ok next => reader.linesOperations nested file rest next
      | .error _ => []

/-- What the lines of a text ask for. -/
def operations (reader : DocumentReader) (file : Text) (mode : KeyCase) (text : Text) :
    List Operation :=
  reader.linesOperations (reader.included? reader.services.limit) file (LogicalLine.ofText text)
    { root := { mode := mode } }

variable {reader : DocumentReader} {nested : Option TreeReader} {file : Text} {st st' : ReadState}

theorem includeFile_eq (pos : Position) (target : Text) (st : ReadState) :
    reader.includeFile nested pos target st
      = (reader.includedTree nested pos target st).andThen fun added =>
          pure { st with root := st.root.merge added } := by
  cases nested with
  | none => rfl
  | some nested =>
    rw [includedTree]
    show Reading.andThen _ _ = Reading.andThen (Reading.andThen _ _) _
    rw [Reading.andThen_assoc]
    refine congrArg _ (funext fun expanded => ?_)
    show Reading.andThen _ _ = Reading.andThen (Reading.andThen _ _) _
    rw [Reading.andThen_assoc]
    rfl

theorem includeCall_eq (pos : Position) (body : Text) (st : ReadState) :
    reader.includeCall pos body st
      = (reader.calledTree pos body st).andThen fun added =>
          pure { st with root := st.root.merge added } := by
  rw [includeCall, calledTree]
  cases splitCall? body with
  | none => rfl
  | some call =>
    show Reading.andThen _ _ = Reading.andThen (Reading.andThen _ _) _
    rw [Reading.andThen_assoc]
    rfl

/-- An include line merges the tree of its file into the root. -/
theorem readLine_includeFile {line : LogicalLine} {target : Text}
    (hline : Line.classify line.text = .includeFile target) (st : ReadState) :
    reader.readLine nested file line st
      = (reader.includedTree nested ⟨file, line.number⟩ target st).andThen fun added =>
          pure { st with root := st.root.merge added } := by
  rw [readLine, hline]
  exact includeFile_eq _ target st

/-- A call merges the tree of its function into the root. -/
theorem readLine_includeCall {line : LogicalLine} {body : Text}
    (hline : Line.classify line.text = .includeCall body) (st : ReadState) :
    reader.readLine nested file line st
      = (reader.calledTree ⟨file, line.number⟩ body st).andThen fun added =>
          pure { st with root := st.root.merge added } := by
  rw [readLine, hline]
  exact includeCall_eq _ body st

/-- A directive that is accepted updates the document with its tree. -/
theorem performAll?_updates {tree : Reading Section}
    (h : (tree.andThen fun added =>
      (pure { st with root := st.root.merge added } : Reading ReadState)).outcome = .ok st') :
    st.document.performAll? (updates tree.outcome) = some st'.document := by
  obtain ⟨added, hadded, h⟩ := Reading.andThen_eq_ok h
  obtain rfl := Except.ok.inj h
  rw [hadded]
  rfl

theorem performAll?_lineOperations {line : LogicalLine}
    (h : (reader.readLine nested file line st).outcome = .ok st') :
    st.document.performAll? (reader.lineOperations nested file line st) = some st'.document := by
  by_cases hdirective : (Line.classify line.text).IsDirective
  · unfold lineOperations
    cases hline : Line.classify line.text with
    | includeFile target =>
      rw [readLine_includeFile hline] at h
      exact performAll?_updates h
    | includeCall body =>
      rw [readLine_includeCall hline] at h
      exact performAll?_updates h
    | _ =>
      rw [hline] at hdirective
      exact absurd hdirective not_false
  · have hafter : st.after? (Line.classify line.text) = some st' := by
      rw [← readLine_toOption hdirective, h]
      rfl
    have hsaid : reader.lineOperations nested file line st
        = (Line.classify line.text).operations st.path := by
      unfold lineOperations
      split
      · rename_i target hline
        rw [hline] at hdirective
        exact absurd trivial hdirective
      · rename_i body hline
        rw [hline] at hdirective
        exact absurd trivial hdirective
      · rfl
    rw [hsaid]
    exact performAll?_of_after? hafter

/-- Lines that are accepted perform their operations. -/
theorem performAll?_linesOperations {ls : List LogicalLine}
    (h : (reader.readLines nested file ls st).outcome = .ok st') :
    st.document.performAll? (reader.linesOperations nested file ls st) = some st'.document := by
  induction ls generalizing st with
  | nil =>
    obtain rfl := Except.ok.inj h
    rfl
  | cons line rest ih =>
    rw [readLines_cons] at h
    obtain ⟨next, hline, hrest⟩ := Reading.andThen_eq_ok h
    rw [linesOperations, performAll?_append, performAll?_lineOperations hline, hline]
    exact ih hrest

/-- The document of a text is what the operations of its lines make of the empty one. -/
theorem performAll?_operations {mode : KeyCase} {text : Text} {doc : Document}
    (h : (reader.readText file mode text).outcome = .ok doc) :
    performAll? { root := { mode := mode } } (reader.operations file mode text) = some doc := by
  obtain ⟨horder, hlines⟩ := readText_eq_ok_iff.mp h
  have hdoc : (ReadState.mk doc.root []).document = doc := document_reading horder []
  rw [← hdoc]
  exact performAll?_linesOperations hlines

/-! ## Distinct keys of trees that are read -/

/-- Whether the trees that a reader of files gives have distinct keys. -/
def ReadsDistinct (nested : Option TreeReader) : Prop :=
  ∀ read, nested = some read → ∀ file mode text tree,
    (read file mode text).outcome = .ok tree → tree.Distinct

/-- Whether the sections that functions give have distinct keys. -/
def CallsDistinct (reader : DocumentReader) : Prop :=
  ∀ name f args added, reader.services.functions.sectionFunction? name = some f →
    f args = .ok added → added.Distinct

theorem distinct_includedTree (hnested : ReadsDistinct nested) {pos : Position} {target : Text}
    {tree : Section} (h : (reader.includedTree nested pos target st).outcome = .ok tree) :
    tree.Distinct := by
  cases nested with
  | none => cases h
  | some read =>
    obtain ⟨expanded, -, h⟩ := Reading.andThen_eq_ok h
    obtain ⟨text, -, h⟩ := Reading.andThen_eq_ok h
    exact hnested read rfl _ _ _ tree h

theorem distinct_calledTree (hcalls : reader.CallsDistinct) {pos : Position} {body : Text}
    {tree : Section} (h : (reader.calledTree pos body st).outcome = .ok tree) : tree.Distinct := by
  unfold calledTree at h
  split at h
  · cases h
  · rename_i name args _
    obtain ⟨args, -, h⟩ := Reading.andThen_eq_ok h
    have hcall : reader.services.functions.callSection name.trim args = .ok tree := h
    unfold FunctionTable.callSection at hcall
    split at hcall
    · rename_i f hf
      exact hcalls name.trim f args tree hf hcall
    · cases hcall

theorem proper_of_mem_updates {outcome : Except Error Section} {op : Operation}
    (h : ∀ tree, outcome = .ok tree → tree.Distinct) (hop : op ∈ updates outcome) : op.Proper := by
  cases outcome with
  | error e => cases hop
  | ok added =>
    obtain rfl := List.mem_singleton.mp hop
    exact Operation.proper_update (h added rfl)

theorem proper_of_mem_operations {line : Line} {path : List Text} {op : Operation}
    (hop : op ∈ line.operations path) : op.Proper := by
  cases line with
  | pair key value =>
    obtain rfl := List.mem_singleton.mp hop
    exact Operation.proper_insert_scalar path key value
  | openSection key label =>
    cases label with
    | none =>
      obtain rfl := List.mem_singleton.mp hop
      exact Operation.proper_enter path key
    | some label =>
      rcases List.mem_cons.mp hop with rfl | hop
      · exact Operation.proper_enter path key
      · obtain rfl := List.mem_singleton.mp hop
        exact Operation.proper_enter (path ++ [key]) label
  | _ => cases hop

theorem proper_of_mem_linesOperations (hnested : ReadsDistinct nested)
    (hcalls : reader.CallsDistinct) {ls : List LogicalLine} {op : Operation}
    (hop : op ∈ reader.linesOperations nested file ls st) : op.Proper := by
  induction ls generalizing st with
  | nil => cases hop
  | cons line rest ih =>
    rcases List.mem_append.mp hop with hhere | hlater
    · unfold lineOperations at hhere
      split at hhere
      · exact proper_of_mem_updates (fun _ => distinct_includedTree hnested) hhere
      · exact proper_of_mem_updates (fun _ => distinct_calledTree hcalls) hhere
      · exact proper_of_mem_operations hhere
    · split at hlater
      · exact ih hlater
      · cases hlater

theorem distinct_readWhole (hnested : ReadsDistinct nested) (hcalls : reader.CallsDistinct)
    {mode : KeyCase} {text : Text} {tree : Section}
    (h : (reader.readWhole nested file mode text).outcome = .ok tree) : tree.Distinct := by
  have hlines := performAll?_linesOperations (readWhole_eq_ok_iff.mp h)
  have hempty : (ReadState.mk ⟨mode, []⟩ []).document.root.Distinct :=
    (follows_empty (.ofKeys fun _ _ => True) none mode).distinct
  have hproper : ∀ op ∈ reader.linesOperations nested file (LogicalLine.ofText text)
      { root := { mode := mode } }, op.Proper :=
    fun op hop => proper_of_mem_linesOperations hnested hcalls hop
  have hread := distinct_applyAll hempty hproper
  rw [applyAll_of_performAll? hlines] at hread
  exact hread

/-- Trees that are read have distinct keys, whatever they include. -/
theorem readsDistinct_included? (hcalls : reader.CallsDistinct) (depth : Nat) :
    ReadsDistinct (reader.included? depth) := by
  induction depth with
  | zero =>
    intro read hread
    cases hread
  | succ depth ih =>
    intro read hread file mode text tree h
    obtain rfl := Option.some.inj hread
    rw [readWithin_eq] at h
    exact distinct_readWhole ih hcalls h

/-- A text and then some operations on its document: the folding sections hold lowered keys only all
the way exactly if each merge, those of the directives in the text among them, brings lowered keys
only into the sections that fold. -/
theorem folded_operations_iff {mode : KeyCase} {text : Text} {doc : Document}
    {more : List Operation} (hcalls : reader.CallsDistinct) (hmore : ∀ op ∈ more, op.Proper)
    (hread : (reader.readText file mode text).outcome = .ok doc) :
    let start : Document := { root := { mode := mode } }
    let ops := reader.operations file mode text ++ more
    start.applyAll (reader.operations file mode text) = doc
      ∧ ((∀ n, (start.applyAll (ops.take n)).root.Folded) ↔ start.FitsAll ops) := by
  intro start ops
  have hempty : start.root.Follows (.ofKeys LoweredIfFold) none := follows_empty _ none mode
  refine ⟨applyAll_of_performAll? (performAll?_operations hread),
    folded_applyAll_iff hempty fun op hop => ?_⟩
  rcases List.mem_append.mp hop with hop | hop
  · exact proper_of_mem_linesOperations (readsDistinct_included? hcalls _) hcalls hop
  · exact hmore op hop

/-- A text that includes a file while a section that preserves case is open. -/
def flagsText : Text :=
  Text.unlines ['<' :: KeyCase.cmdline ++ ['>'],
    ['<', '<', 'i', 'n', 'c', 'l', 'u', 'd', 'e', ' ', 'f', '>', '>'],
    '<' :: '/' :: KeyCase.cmdline ++ ['>']]

/-- The file is read with the key case of that section, but its key comes into the root, which
folds. Dropping the key afterwards does not undo that. -/
theorem not_fitsAll_flagsText :
    let functions : FunctionTable := { sectionFunction? := fun _ => some fun _ => .ok {} }
    let reader : DocumentReader := ⟨{ functions := functions }, {}, fun _ => .ok "F = 1".toList⟩
    let doc : Document := { root := { entries := [
      (KeyCase.cmdline, .subsection .preserve []), (['F'], .scalar ['1'])] } }
    (reader.readText [] .fold flagsText).outcome = .ok doc
      ∧ ¬ doc.root.Folded
      ∧ ¬ FitsAll { root := {} } (reader.operations [] .fold flagsText ++ [.erase [] ['F']]) := by
  intro functions reader doc
  have hread : (reader.readText [] .fold flagsText).outcome = .ok doc := rfl
  have hkey : ¬ doc.root.Folded := by
    intro hfolded
    have hlowered : Text.lower ['F'] = ['F'] := hfolded [] doc.root rfl ['F'] (by decide) rfl
    revert hlowered
    decide
  have hcalls : reader.CallsDistinct := by
    intro name f args added hf hadded
    obtain rfl := Option.some.inj hf
    obtain rfl := Except.ok.inj hadded
    exact (follows_empty (.ofKeys fun _ _ => True) none .fold).distinct
  have hmore : ∀ op ∈ [Operation.erase [] ['F']], op.Proper := by
    intro op hop
    obtain rfl := List.mem_singleton.mp hop
    exact { written := fun _ ht => (by cases ht), merged := fun _ _ hadded => (by cases hadded) }
  obtain ⟨hdoc, hiff⟩ := folded_operations_iff hcalls hmore hread
  refine ⟨hread, hkey, fun hfits => hkey ?_⟩
  have hend := hiff.mpr hfits (reader.operations [] .fold flagsText).length
  rwa [List.take_left, hdoc] at hend

end DocumentReader

end WorkflowControl
