import WorkflowControl.Proofs.Document.Operation
import WorkflowControl.Proofs.Document.Step

/-!
The grammar of sections. What may stand inside a section is a sequence of pairs, of lines that say
nothing, and of whole sections (`Body`); a section whose tag has a label is closed by its key at
once, or by the label first and by its key later. A derivation gives the operations that its lines
ask for, each with the place that it is at.

A text without directives is accepted exactly if its lines have a derivation and no section is
opened in the place of a scalar, and its document is what the operations make of the empty one
(`readText_eq_ok_iff_body`). That a derivation is read as its operations is an induction on the
derivation (`Body.afterAll?_eq`). That accepted lines have one is an induction on the lines, for
what is left of a derivation when some sections are open (`Completes`).
-/

namespace WorkflowControl

/-- What the tag of a section opens inside the section at a place. -/
def tagOperations (path : List Text) (key : Text) : Option Text → List Operation
  | none => [.enter path key]
  | some label => [.enter path key, .enter (path ++ [key]) label]

/-- What may stand inside the section at a place, with the operations that the lines ask for. -/
inductive Body : (path : List Text) → List Line → List Operation → Prop
  | nil (path : List Text) : Body path [] []
  | pair {path : List Text} {rest : List Line} {ops : List Operation} (key value : Text)
      (hrest : Body path rest ops) :
      Body path (.pair key value :: rest) (.insert path key (.scalar value) :: ops)
  | unmatched {path : List Text} {rest : List Line} {ops : List Operation}
      (hrest : Body path rest ops) : Body path (.unmatched :: rest) ops
  /-- A section that is opened without a label. -/
  | plain {path : List Text} {inner rest : List Line} {innerOps ops : List Operation} (key : Text)
      (hname : path.getLast? ≠ some key) (hinner : Body (path ++ [key]) inner innerOps)
      (hrest : Body path rest ops) :
      Body path (.openSection key none :: (inner ++ .close key :: rest))
        (tagOperations path key none ++ (innerOps ++ ops))
  /-- A section with a label that is closed together with the one of the label. -/
  | keyClosed {path : List Text} {inner rest : List Line} {innerOps ops : List Operation}
      (key label : Text) (hname : path.getLast? ≠ some key) (hlabel : label ≠ key)
      (hinner : Body (path ++ [key] ++ [label]) inner innerOps) (hrest : Body path rest ops) :
      Body path (.openSection key (some label) :: (inner ++ .close key :: rest))
        (tagOperations path key (some label) ++ (innerOps ++ ops))
  /-- A section with a label in which more follows behind the one of the label. -/
  | labelClosed {path : List Text} {inner outer rest : List Line}
      {innerOps outerOps ops : List Operation} (key label : Text)
      (hname : path.getLast? ≠ some key) (hinner : Body (path ++ [key] ++ [label]) inner innerOps)
      (houter : Body (path ++ [key]) outer outerOps) (hrest : Body path rest ops) :
      Body path
        (.openSection key (some label)
          :: (inner ++ .close label :: (outer ++ .close key :: rest)))
        (tagOperations path key (some label) ++ (innerOps ++ (outerOps ++ ops)))

/-- The keys of open sections, outermost first. -/
def OpenSection.path (opened : List OpenSection) : List Text :=
  (opened.map OpenSection.key).reverse

theorem OpenSection.path_cons (top : OpenSection) (opened : List OpenSection) :
    path (top :: opened) = path opened ++ [top.key] := by
  simp [path]

/-- The state of reading that has the tree of a document and some sections open. -/
def Document.reading (doc : Document) (opened : List OpenSection) : ReadState := ⟨doc.root, opened⟩

namespace ReadState

open Document

/-! ## Lines as operations -/

theorem after?_pair (doc : Document) (opened : List OpenSection) (key value : Text) :
    (doc.reading opened).after? (.pair key value)
      = (doc.perform? (.insert (OpenSection.path opened) key (.scalar value))).map fun next =>
          next.reading opened := by
  rw [after?, perform?]
  cases hcur : (doc.reading opened).current? with
  | none =>
    have hat : doc.root.at? (OpenSection.path opened) = none := hcur
    rw [change?_of_none hat]
    rfl
  | some cur =>
    have hat : doc.root.at? (OpenSection.path opened) = some cur := hcur
    rw [change?_eq hat]
    rfl

theorem entered?_reading (doc : Document) (opened : List OpenSection) (top : OpenSection) :
    (doc.reading opened).entered? top
      = (doc.perform? (.enter (OpenSection.path opened) top.key)).map fun next =>
          next.reading (top :: opened) := by
  rw [entered?, perform?]
  cases hcur : (doc.reading opened).current? with
  | none =>
    have hat : doc.root.at? (OpenSection.path opened) = none := hcur
    rw [change?_of_none hat]
    rfl
  | some cur =>
    have hat : doc.root.at? (OpenSection.path opened) = some cur := hcur
    rw [change?_eq hat, Option.bind_some, Option.map_map]
    rfl

/-- The sections that a tag opens, outermost first. -/
def tagged (key : Text) : Option Text → List OpenSection → List OpenSection
  | none, opened => ⟨key, false⟩ :: opened
  | some label, opened => ⟨label, true⟩ :: ⟨key, false⟩ :: opened

/-- The place that is open behind a tag. -/
def tagPath (path : List Text) (key : Text) : Option Text → List Text
  | none => path ++ [key]
  | some label => path ++ [key] ++ [label]

theorem path_tagged (key : Text) (label : Option Text) (opened : List OpenSection) :
    OpenSection.path (tagged key label opened) = tagPath (OpenSection.path opened) key label := by
  cases label with
  | none => exact OpenSection.path_cons _ _
  | some label => rw [tagged, OpenSection.path_cons, OpenSection.path_cons, tagPath]

theorem afterAll?_openSection {opened : List OpenSection} {key : Text}
    (hname : (OpenSection.path opened).getLast? ≠ some key) (doc : Document) (label : Option Text)
    (rest : List Line) :
    (doc.reading opened).afterAll? (.openSection key label :: rest)
      = (doc.performAll? (tagOperations (OpenSection.path opened) key label)).bind fun next =>
          (next.reading (tagged key label opened)).afterAll? rest := by
  have hopen : (doc.reading opened).after? (.openSection key label)
      = (doc.perform? (.enter (OpenSection.path opened) key)).bind fun next =>
          (next.reading (⟨key, false⟩ :: opened)).labelled? label := by
    rw [after?, entered?_reading, Option.bind_map]
    exact if_neg hname
  rw [afterAll?, hopen, Option.bind_assoc]
  cases label with
  | none =>
    rw [tagOperations, performAll?, Option.bind_assoc]
    rfl
  | some label =>
    rw [tagOperations, performAll?, Option.bind_assoc]
    refine congrArg _ (funext fun next => ?_)
    rw [labelled?, entered?_reading, OpenSection.path_cons, performAll?, Option.bind_assoc,
      Option.bind_map]
    rfl

theorem after?_close_top (doc : Document) (top : OpenSection) (opened : List OpenSection) :
    (doc.reading (top :: opened)).after? (.close top.key) = some (doc.reading opened) := by
  cases opened with
  | nil => simp [after?, closed?, reading]
  | cons below rest => simp [after?, closed?, reading]

theorem after?_close_tagged (key : Text) (opened : List OpenSection) (doc : Document) :
    (doc.reading (tagged key none opened)).after? (.close key) = some (doc.reading opened) :=
  after?_close_top doc ⟨key, false⟩ opened

theorem after?_close_label (key label : Text) (opened : List OpenSection) (doc : Document) :
    (doc.reading (tagged key (some label) opened)).after? (.close label)
      = some (doc.reading (tagged key none opened)) :=
  after?_close_top doc ⟨label, true⟩ (⟨key, false⟩ :: opened)

/-- The key of a tag with a label closes both of its sections. -/
theorem after?_close_key {key label : Text} (hlabel : label ≠ key) (opened : List OpenSection)
    (doc : Document) :
    (doc.reading (tagged key (some label) opened)).after? (.close key)
      = some (doc.reading opened) := by
  simp [after?, closed?, reading, tagged, hlabel]

/-- Lines up to a closing tag and behind it, given what is done inside. -/
theorem afterAll?_upToClose {inner rest : List Line} {innerOps : List Operation}
    {opened closed : List OpenSection} {key : Text}
    (hinner : ∀ doc : Document, (doc.reading opened).afterAll? inner
      = (doc.performAll? innerOps).map fun next => next.reading opened)
    (hclose : ∀ doc : Document,
      (doc.reading opened).after? (.close key) = some (doc.reading closed)) (doc : Document) :
    (doc.reading opened).afterAll? (inner ++ .close key :: rest)
      = (doc.performAll? innerOps).bind fun next => (next.reading closed).afterAll? rest := by
  rw [afterAll?_append, hinner, Option.bind_map]
  refine congrArg _ (funext fun next => ?_)
  show (next.reading opened).afterAll? (.close key :: rest) = _
  rw [afterAll?, hclose, Option.bind_some]

end ReadState

open ReadState Document

variable {path : List Text} {lines : List Line} {ops : List Operation}

/-- Going through the lines of a derivation is performing its operations. -/
theorem Body.afterAll?_eq (h : Body path lines ops) {opened : List OpenSection}
    (hpath : OpenSection.path opened = path) (doc : Document) :
    (doc.reading opened).afterAll? lines
      = (doc.performAll? ops).map fun next => next.reading opened := by
  induction h generalizing opened doc with
  | nil => rfl
  | pair key value _ ih =>
    subst hpath
    rw [afterAll?, after?_pair, performAll?, Option.bind_map, Option.map_bind]
    exact congrArg _ (funext fun next => ih rfl next)
  | unmatched _ ih => exact ih hpath doc
  | plain key hname _ _ ihinner ihrest =>
    subst hpath
    have hbelow := path_tagged key none opened
    rw [afterAll?_openSection hname, performAll?_append, Option.map_bind]
    refine congrArg _ (funext fun next => ?_)
    rw [Function.comp_apply, performAll?_append, Option.map_bind,
      afterAll?_upToClose (ihinner hbelow) (after?_close_tagged key opened)]
    exact congrArg _ (funext fun next => ihrest rfl next)
  | keyClosed key label hname hlabel _ _ ihinner ihrest =>
    subst hpath
    have hinside := path_tagged key (some label) opened
    rw [afterAll?_openSection hname, performAll?_append, Option.map_bind]
    refine congrArg _ (funext fun next => ?_)
    rw [Function.comp_apply, performAll?_append, Option.map_bind,
      afterAll?_upToClose (ihinner hinside) (after?_close_key hlabel opened)]
    exact congrArg _ (funext fun next => ihrest rfl next)
  | labelClosed key label hname _ _ _ ihinner ihouter ihrest =>
    subst hpath
    have hbelow := path_tagged key none opened
    have hinside := path_tagged key (some label) opened
    rw [afterAll?_openSection hname, performAll?_append, Option.map_bind]
    refine congrArg _ (funext fun next => ?_)
    rw [Function.comp_apply, performAll?_append, Option.map_bind,
      afterAll?_upToClose (ihinner hinside)
        (after?_close_label key label opened)]
    refine congrArg _ (funext fun next => ?_)
    rw [Function.comp_apply, performAll?_append, Option.map_bind,
      afterAll?_upToClose (ihouter hbelow) (after?_close_tagged key opened)]
    exact congrArg _ (funext fun next => ihrest rfl next)

/-! ## Operations that can be done -/

/-- Whether operations can all be done, and the section at a place is there behind them. -/
def Document.Reaches (doc : Document) (ops : List Operation) (path : List Text) : Prop :=
  ∃ next, doc.performAll? ops = some next ∧ (next.root.at? path).isSome

theorem Document.Reaches.append {doc : Document} {first second : List Operation}
    {here there : List Text} (hfree : doc.Unobstructed (first ++ second))
    (hfirst : doc.Unobstructed first → doc.Reaches first here)
    (hsecond : ∀ next : Document, (next.root.at? here).isSome → next.Unobstructed second →
      next.Reaches second there) : doc.Reaches (first ++ second) there := by
  obtain ⟨hfree, hrest⟩ := unobstructed_append.mp hfree
  obtain ⟨next, hnext, hhere⟩ := hfirst hfree
  rw [applyAll_of_performAll? hnext] at hrest
  obtain ⟨last, hlast, hthere⟩ := hsecond next hhere hrest
  refine ⟨last, ?_, hthere⟩
  rw [performAll?_append, hnext]
  exact hlast

theorem reaches_insert {doc : Document} (hat : (doc.root.at? path).isSome) (key : Text)
    (node : Node) : doc.Reaches [.insert path key node] path := by
  obtain ⟨s, hs⟩ := Option.isSome_iff_exists.mp hat
  refine ⟨{ doc with root := doc.root.replaceAt path (s.insert key node) }, ?_, ?_⟩
  · rw [performAll?, perform?, change?_eq hs]
    rfl
  · rw [Section.at?_replaceAt hs]
    rfl

theorem reaches_enter {doc : Document} (hat : (doc.root.at? path).isSome) {name : Text}
    (hname : name.lower = name) (hfree : doc.Unobstructed [.enter path name]) :
    doc.Reaches [.enter path name] (path ++ [name]) := by
  obtain ⟨s, hs⟩ := Option.isSome_iff_exists.mp hat
  cases hnew : s.withSection? name with
  | none => exact absurd (hfree.1 s hs) (Section.withSection?_eq_none_iff.mp hnew)
  | some new =>
    obtain ⟨child, hchild⟩ := exists_getSection?_of_withSection? hname hnew
    refine ⟨{ doc with root := doc.root.replaceAt path new }, ?_, ?_⟩
    · rw [performAll?, perform?, change?_eq hs, hnew]
      rfl
    · rw [Section.at?_concat, Section.at?_replaceAt hs, Option.bind_some, hchild]
      rfl

theorem reaches_tagOperations {doc : Document} (hat : (doc.root.at? path).isSome) {key : Text}
    {label : Option Text} (hlowered : (Line.openSection key label).Lowered)
    (hfree : doc.Unobstructed (tagOperations path key label)) :
    doc.Reaches (tagOperations path key label) (tagPath path key label) := by
  cases label with
  | none => exact reaches_enter hat hlowered.1 hfree
  | some label =>
    have hfree : doc.Unobstructed ([.enter path key] ++ [.enter (path ++ [key]) label]) := hfree
    exact .append hfree (reaches_enter hat hlowered.1) fun next hnext hfree =>
      reaches_enter hnext (hlowered.2 label rfl) hfree

theorem isSome_at?_of_append {s : Section} {path rest : List Text}
    (h : (s.at? (path ++ rest)).isSome) : (s.at? path).isSome := by
  rw [Section.at?_append] at h
  exact Option.isSome_of_isSome_bind h

/-- The operations of a derivation can be done if no section is opened in the place of a scalar. -/
theorem Body.reaches (h : Body path lines ops) (hlines : ∀ line ∈ lines, line.Lowered)
    {doc : Document} (hat : (doc.root.at? path).isSome) (hfree : doc.Unobstructed ops) :
    doc.Reaches ops path := by
  induction h generalizing doc with
  | nil => exact ⟨doc, rfl, hat⟩
  | @pair path rest ops key value _ ih =>
    have hrest := fun line hline => hlines line (List.mem_cons_of_mem _ hline)
    have hfree : doc.Unobstructed ([.insert path key (.scalar value)] ++ ops) := hfree
    exact .append hfree (fun _ => reaches_insert hat key _) fun next hnext hfree =>
      ih hrest hnext hfree
  | unmatched _ ih =>
    exact ih (fun line hline => hlines line (List.mem_cons_of_mem _ hline)) hat hfree
  | plain key _ _ _ ihinner ihrest =>
    simp only [List.mem_cons, List.mem_append, or_imp, forall_and, forall_eq] at hlines
    refine .append hfree (reaches_tagOperations hat hlines.1) fun next hnext hfree => ?_
    refine .append hfree (ihinner hlines.2.1 hnext) fun next hnext hfree => ?_
    exact ihrest hlines.2.2.2 (isSome_at?_of_append hnext) hfree
  | keyClosed key label _ _ _ _ ihinner ihrest =>
    simp only [List.mem_cons, List.mem_append, or_imp, forall_and, forall_eq] at hlines
    refine .append hfree (reaches_tagOperations hat hlines.1) fun next hnext hfree => ?_
    refine .append hfree (ihinner hlines.2.1 hnext) fun next hnext hfree => ?_
    exact ihrest hlines.2.2.2 (isSome_at?_of_append (isSome_at?_of_append hnext)) hfree
  | labelClosed key label _ _ _ _ ihinner ihouter ihrest =>
    simp only [List.mem_cons, List.mem_append, or_imp, forall_and, forall_eq] at hlines
    refine .append hfree (reaches_tagOperations hat hlines.1) fun next hnext hfree => ?_
    refine .append hfree (ihinner hlines.2.1 hnext) fun next hnext hfree => ?_
    refine .append hfree (ihouter hlines.2.2.2.1 (isSome_at?_of_append hnext))
      fun next hnext hfree => ?_
    exact ihrest hlines.2.2.2.2.2 (isSome_at?_of_append hnext) hfree

/-! ## Accepted lines -/

/-- What is left of a derivation where some sections are open: the rest of the innermost one, a tag
that closes it, and what is left behind that. -/
inductive Completes : List OpenSection → List Line → Prop
  | done {lines : List Line} {ops : List Operation} (h : Body [] lines ops) : Completes [] lines
  | close {opened closed : List OpenSection} {inner after : List Line} {ops : List Operation}
      {key : Text} (hinner : Body (OpenSection.path opened) inner ops)
      (hclose : closed? key opened = some closed) (hafter : Completes closed after) :
      Completes opened (inner ++ .close key :: after)

/-- Lines that may stand in front of a body may stand in front of what is left of one. -/
theorem Completes.prepend {opened : List OpenSection} {rest : List Line} (part : List Line)
    (hpart : ∀ lines ops, Body (OpenSection.path opened) lines ops →
      ∃ ops', Body (OpenSection.path opened) (part ++ lines) ops')
    (h : Completes opened rest) : Completes opened (part ++ rest) := by
  cases h with
  | done h =>
    obtain ⟨ops', hops⟩ := hpart _ _ h
    exact .done hops
  | close hinner hclose hafter =>
    obtain ⟨ops', hops⟩ := hpart _ _ hinner
    rw [← List.append_assoc]
    exact .close hops hclose hafter

theorem closed?_plain {key other : Text} {opened closed : List OpenSection}
    (h : closed? other (⟨key, false⟩ :: opened) = some closed) : other = key ∧ closed = opened := by
  cases opened with
  | nil =>
    rw [closed?] at h
    split at h
    · rename_i hkey
      exact ⟨hkey.symm, (Option.some.inj h).symm⟩
    · cases h
  | cons below rest =>
    rw [closed?] at h
    split at h
    · rename_i hkey
      exact ⟨hkey.symm, (Option.some.inj h).symm⟩
    · cases h

theorem closed?_label {key label other : Text} {opened closed : List OpenSection}
    (h : closed? other (⟨label, true⟩ :: ⟨key, false⟩ :: opened) = some closed) :
    (other = label ∧ closed = ⟨key, false⟩ :: opened)
      ∨ (other = key ∧ label ≠ key ∧ closed = opened) := by
  rw [closed?] at h
  split at h
  · rename_i hlabel
    exact .inl ⟨hlabel.symm, (Option.some.inj h).symm⟩
  · rename_i hlabel
    split at h
    · rename_i hkey
      refine .inr ⟨hkey.2.symm, fun heq => hlabel ?_, (Option.some.inj h).symm⟩
      exact heq.trans hkey.2
    · cases h

/-- What is left behind a tag makes the tag a section, or the beginning of what is left. -/
theorem Completes.openSection {opened : List OpenSection} {key : Text} {label : Option Text}
    {rest : List Line} (hname : (OpenSection.path opened).getLast? ≠ some key)
    (h : Completes (tagged key label opened) rest) :
    Completes opened (.openSection key label :: rest) := by
  cases label with
  | none =>
    cases h with
    | @close _ _ inner after _ _ hinner hclose hafter =>
      obtain ⟨rfl, rfl⟩ := closed?_plain hclose
      rw [path_tagged] at hinner
      have hsection := hafter.prepend (.openSection _ none :: (inner ++ [.close _]))
        fun lines ops hlines => ⟨_, by simpa using Body.plain _ hname hinner hlines⟩
      simpa using hsection
  | some label =>
    cases h with
    | @close _ _ inner after _ _ hinner hclose hafter =>
      rw [path_tagged] at hinner
      rcases closed?_label hclose with ⟨rfl, rfl⟩ | ⟨rfl, hlabel, rfl⟩
      · -- The section around the one of the label goes on up to a tag of its own.
        cases hafter with
        | @close _ _ outer after _ _ houter hclose hafter =>
          obtain ⟨rfl, rfl⟩ := closed?_plain hclose
          rw [OpenSection.path_cons] at houter
          have hsection := hafter.prepend
            (.openSection _ (some _) :: (inner ++ .close _ :: (outer ++ [.close _])))
            fun lines ops hlines =>
              ⟨_, by simpa using Body.labelClosed _ _ hname hinner houter hlines⟩
          simpa using hsection
      · have hsection := hafter.prepend (.openSection _ (some _) :: (inner ++ [.close _]))
          fun lines ops hlines => ⟨_, by simpa using Body.keyClosed _ _ hname hlabel hinner hlines⟩
        simpa using hsection

/-- Lines that are accepted and close all sections are what is left of a derivation. -/
theorem completes_of_afterAll? {st st' : ReadState} {lines : List Line}
    (h : st.afterAll? lines = some st') (hclosed : st'.openSections = []) :
    Completes st.openSections lines := by
  induction lines generalizing st with
  | nil =>
    obtain rfl := Option.some.inj h
    rw [hclosed]
    exact .done (.nil [])
  | cons line rest ih =>
    obtain ⟨next, hnext, h⟩ := Option.bind_eq_some_iff.mp h
    have hrest : Completes next.openSections rest := ih h
    cases line with
    | includeFile target => cases hnext
    | includeCall body => cases hnext
    | unmatched =>
      obtain rfl := Option.some.inj hnext
      exact hrest.prepend [.unmatched] fun lines ops hlines => ⟨_, .unmatched hlines⟩
    | pair key value =>
      obtain ⟨cur, -, rfl⟩ := Option.map_eq_some_iff.mp hnext
      exact hrest.prepend [.pair key value] fun lines ops hlines => ⟨_, .pair key value hlines⟩
    | close key =>
      obtain ⟨closed, hclose, rfl⟩ := Option.map_eq_some_iff.mp hnext
      exact .close (.nil _) hclose hrest
    | openSection key label =>
      obtain ⟨hname, opened, hopened, hlabel⟩ := after?_openSection_eq_some_iff.mp hnext
      have hopen : next.openSections = tagged key label st.openSections := by
        cases label with
        | none =>
          obtain rfl := Option.some.inj hlabel
          exact openSections_entered? hopened
        | some label =>
          rw [openSections_entered? hlabel, openSections_entered? hopened]
          rfl
      rw [hopen] at hrest
      exact hrest.openSection hname

/-- Lines build a tree exactly if they have a derivation and open no section in the place of a
scalar, and the tree is what its operations make of the empty one. -/
theorem treeOf?_eq_some_iff_body {mode : KeyCase} {lines : List Line} {root : Section}
    (hlines : ∀ line ∈ lines, line.Lowered) :
    treeOf? mode lines = some root
      ↔ ∃ ops, Body [] lines ops ∧ Unobstructed { root := { mode := mode } } ops
          ∧ root = (applyAll { root := { mode := mode } } ops).root := by
  rw [treeOf?_eq_some_iff]
  constructor
  · intro h
    have hcompletes : Completes [] lines := completes_of_afterAll? h rfl
    cases hcompletes with
    | close hinner hclose hafter => cases hclose
    | @done _ ops hbody =>
      have hall : afterAll? { root := { mode := mode } } lines = _ :=
        hbody.afterAll?_eq rfl { root := { mode := mode } }
      obtain ⟨doc, hdoc, hroot⟩ := Option.map_eq_some_iff.mp (hall.symm.trans h)
      refine ⟨ops, hbody, unobstructed_of_performAll? hdoc, ?_⟩
      rw [applyAll_of_performAll? hdoc]
      exact (congrArg ReadState.root hroot).symm
  · intro hgiven
    obtain ⟨ops, hbody, hfree, rfl⟩ := hgiven
    obtain ⟨doc, hdoc, -⟩ := hbody.reaches hlines rfl hfree
    have hall : afterAll? { root := { mode := mode } } lines = _ :=
      hbody.afterAll?_eq rfl { root := { mode := mode } }
    rw [hdoc] at hall
    rw [applyAll_of_performAll? hdoc]
    exact hall

/-! ## Refused lines -/

/-- Whether a fault is one of the tags of a text: of their nesting, or of a name that is taken. -/
def StructuralFault.IsOfTags : StructuralFault → Prop
  | sameName _ | nameTaken _ | closeOutside _ | closeMismatch _ _ | unclosed => True
  | sectionLost | includeTooDeep _ _ | invalidCall _ => False

/-- Whether an error says that the tags of a file are at fault. -/
def Error.IsOfTags (file : Text) : Error → Prop
  | .structural f _ fault _ => f = file ∧ fault.IsOfTags
  | _ => False

namespace ReadState

variable {st : ReadState} {pos : Position} {e : Error}

theorem isOfTags_of_enter {opened : OpenSection} (hcur : st.current?.isSome)
    (h : st.enter pos opened = .error e) : e.IsOfTags pos.file := by
  unfold enter at h
  split at h
  · rename_i hnone
    rw [hnone] at hcur
    cases hcur
  · split at h
    · cases h
    · obtain rfl := Except.error.inj h
      exact ⟨rfl, trivial⟩

theorem isOfTags_of_openTag {key : Text} {label : Option Text} (hcur : st.current?.isSome)
    (hkey : key.lower = key) (h : st.openTag pos key label = .error e) : e.IsOfTags pos.file := by
  unfold openTag at h
  split at h
  · obtain rfl := Except.error.inj h
    exact ⟨rfl, trivial⟩
  · cases hopen : st.enter pos ⟨key, false⟩ with
    | error e' =>
      rw [hopen] at h
      obtain rfl := Except.error.inj h
      exact isOfTags_of_enter hcur hopen
    | ok opened =>
      rw [hopen] at h
      cases label with
      | none => cases h
      | some label =>
        have hentered : st.entered? ⟨key, false⟩ = some opened := by
          rw [← enter_toOption pos, hopen]
          rfl
        exact isOfTags_of_enter (isSome_current?_of_entered? hkey hentered) h

theorem isOfTags_of_closeTag {key : Text} (h : st.closeTag pos key = .error e) :
    e.IsOfTags pos.file := by
  unfold closeTag at h
  split at h
  · obtain rfl := Except.error.inj h
    exact ⟨rfl, trivial⟩
  · split at h
    · cases h
    · obtain rfl := Except.error.inj h
      exact ⟨rfl, trivial⟩
  · split at h
    · cases h
    · split at h
      · split at h
        · cases h
        · obtain rfl := Except.error.inj h
          exact ⟨rfl, trivial⟩
      · obtain rfl := Except.error.inj h
        exact ⟨rfl, trivial⟩

/-- A value can be written wherever the section to write into is there. -/
theorem insertPair_ne_error {key value : Text} (hcur : st.current?.isSome) :
    st.insertPair pos key value ≠ .error e := by
  obtain ⟨cur, hcur⟩ := Option.isSome_iff_exists.mp hcur
  rw [insertPair, Section.modifyAt?_eq hcur]
  intro h
  cases h

end ReadState

namespace DocumentReader

variable {reader : DocumentReader} {nested : Option TreeReader} {file : Text} {mode : KeyCase}

theorem isOfTags_of_readLine {line : LogicalLine} {st : ReadState} {e : Error}
    (hdirective : ¬ (Line.classify line.text).IsDirective) (hcur : st.current?.isSome)
    (h : (reader.readLine nested file line st).outcome = .error e) : e.IsOfTags file := by
  have hlowered := Line.lowered_classify line.text
  unfold readLine at h
  cases hline : Line.classify line.text with
  | includeFile target =>
    rw [hline] at hdirective
    exact absurd trivial hdirective
  | includeCall body =>
    rw [hline] at hdirective
    exact absurd trivial hdirective
  | close key =>
    rw [hline] at h
    exact isOfTags_of_closeTag h
  | openSection key label =>
    rw [hline] at h hlowered
    exact isOfTags_of_openTag hcur hlowered.1 h
  | pair key value =>
    rw [hline] at h
    exact absurd h (insertPair_ne_error hcur)
  | unmatched =>
    rw [hline] at h
    cases h

/-- Lines without a directive are refused only because of their tags. -/
theorem isOfTags_of_readLines {ls : List LogicalLine} {st : ReadState} {e : Error}
    (hdirective : ∀ l ∈ ls, ¬ (Line.classify l.text).IsDirective) (hcur : st.current?.isSome)
    (h : (reader.readLines nested file ls st).outcome = .error e) : e.IsOfTags file := by
  induction ls generalizing st with
  | nil => cases h
  | cons line rest ih =>
    have hhere := hdirective line (by simp)
    rw [readLines_cons] at h
    rcases Reading.andThen_eq_error h with hfirst | ⟨next, hfirst, hrest⟩
    · exact isOfTags_of_readLine hhere hcur hfirst
    · have hnext : st.after? (Line.classify line.text) = some next := by
        rw [← readLine_toOption hhere, hfirst]
        rfl
      exact ih (fun l hl => hdirective l (List.mem_cons_of_mem _ hl))
        (isSome_current?_of_after? (Line.lowered_classify line.text) hcur hnext) hrest

theorem isOfTags_of_readText {text : Text} {e : Error}
    (hdirective : ∀ line ∈ Line.ofText text, ¬ line.IsDirective)
    (h : (reader.readText file mode text).outcome = .error e) : e.IsOfTags file := by
  have hls : ∀ l ∈ LogicalLine.ofText text, ¬ (Line.classify l.text).IsDirective :=
    fun l hl => hdirective _ (List.mem_map_of_mem hl)
  unfold readText at h
  rcases Reading.andThen_eq_error h with hwhole | ⟨root, -, hend⟩
  · rw [readWithin_eq] at hwhole
    unfold readWhole at hwhole
    rcases Reading.andThen_eq_error hwhole with hlines | ⟨st, -, hend⟩
    · exact isOfTags_of_readLines hls rfl hlines
    · split at hend
      · cases hend
      · obtain rfl := Except.error.inj hend
        exact ⟨rfl, trivial⟩
  · cases hend

/-- A text without directives is accepted exactly if its lines have a derivation and open no section
in the place of a scalar. Its document is then what the operations of the derivation make of the
empty one; and if it is refused, it is because of its tags. -/
theorem readText_eq_ok_iff_body {text : Text}
    (hdirective : ∀ line ∈ Line.ofText text, ¬ line.IsDirective) :
    (∀ doc, (reader.readText file mode text).outcome = .ok doc
      ↔ ∃ ops, Body [] (Line.ofText text) ops
          ∧ Unobstructed { root := { mode := mode } } ops
          ∧ doc = applyAll { root := { mode := mode } } ops)
    ∧ ∀ e, (reader.readText file mode text).outcome = .error e → e.IsOfTags file := by
  refine ⟨fun doc => ?_, fun e => isOfTags_of_readText hdirective⟩
  rw [readText_eq_ok_iff_treeOf? hdirective,
    treeOf?_eq_some_iff_body fun line hline => Line.lowered_of_mem_ofText hline]
  constructor
  · intro hgiven
    obtain ⟨horder, ops, hbody, hfree, hroot⟩ := hgiven
    refine ⟨ops, hbody, hfree, ?_⟩
    have hsame : (applyAll { root := { mode := mode } } ops).searchOrder = [] :=
      searchOrder_applyAll _ ops
    obtain ⟨root, order⟩ := doc
    obtain rfl : order = [] := horder
    obtain rfl : root = _ := hroot
    exact congrArg (Document.mk _) hsame.symm
  · intro hgiven
    obtain ⟨ops, hbody, hfree, rfl⟩ := hgiven
    exact ⟨searchOrder_applyAll _ ops, ops, hbody, hfree, rfl⟩

/-- A text with a section in one with a label, both closed by the same tag. -/
def labelledText : Text := "<a B>\nK = 1\n<c>\n</c>\n</a>\nj = 2\n".toList

theorem readText_labelledText :
    ∃ ops, Body [] (Line.ofText labelledText) ops
      ∧ Unobstructed { root := {} } ops
      ∧ ({ root := { entries := [
            (['a'], .subsection .fold [
              (['b'], .subsection .fold [(['k'], .scalar ['1']), (['c'], .subsection .fold [])])]),
            (['j'], .scalar ['2'])] } } : Document) = applyAll { root := {} } ops := by
  have hread : ((⟨{}, {}, fun _ => .error .notFound⟩ : DocumentReader).readText [] .fold
    labelledText).outcome = .ok _ := rfl
  exact ((readText_eq_ok_iff_body (by decide)).1 _).mp hread

end DocumentReader

end WorkflowControl
