import WorkflowControl.Proofs.Document.Cells
import WorkflowControl.Proofs.Document.ReadTree

/-!
The names that instances are selected by. The name in a tag is lowered when it is read, so all
sections of a document that comes from a text have lowered keys (`lower_of_getSection?`). The name
that a binding holds is taken as it is. So a name that is not lowered selects no instance, and a
search with it is one without the section type; it agrees with the search for the lowered name
exactly if the instance has no say in that one (`search_bind_spelling`).
-/

namespace WorkflowControl

namespace Document

/-- The document searched without a section type. -/
def withoutType (doc : Document) (sectionType : Text) : Document :=
  { doc with searchOrder := doc.searchOrder.filter (· ≠ sectionType) }

variable {doc : Document} {search : Search} {key sectionType name : Text}

/-! ## Bindings -/

theorem lower_instanceBinding (h : sectionType.lower = sectionType) :
    (instanceBinding sectionType).lower = instanceBinding sectionType := by
  refine Text.lowerFrom_of_isLower (fun c hc => ?_) false
  rcases List.mem_append.mp hc with hc | hc
  · have hsigns : ∀ c ∈ ['c', 'u', 'r', 'r', '_'], Text.IsLower c := by decide
    exact hsigns c hc
  · rw [← h] at hc
    exact Text.isLower_of_mem_lowerFrom c hc

theorem instanceBinding_inj {sectionType other : Text} :
    instanceBinding sectionType = instanceBinding other ↔ sectionType = other :=
  List.append_right_inj _

/-- A binding of a search goes before what the document binds. -/
theorem bound?_bind (doc : Document) (search : Search) (value : Text) {bound : Text}
    (h : bound.lower = bound) (key : Text) :
    doc.bound? (search.bind bound value) key
      = if key = bound then some (.scalar value) else doc.bound? search key := by
  have hstored : search.bindings.mode.stored bound = bound := by
    cases search.bindings.mode with
    | fold => exact h
    | preserve => rfl
  have hget : (search.bind bound value).bindings.get? key
      = if key = bound then some (.scalar value) else search.bindings.get? key := by
    show Entries.get? key (search.bindings.entries.put (search.bindings.mode.stored bound) _) = _
    rw [hstored, Entries.get?_put]
    rfl
  rw [bound?, hget, bound?]
  by_cases hkey : key = bound
  · rw [if_pos hkey, if_pos hkey]
  · rw [if_neg hkey, if_neg hkey]

/-- A binding for one section type has no say in the instance of another one. -/
theorem instanceValue?_bind_of_ne (htype : sectionType.lower = sectionType) {other : Text}
    (h : other ≠ sectionType) (name key : Text) :
    doc.instanceValue? (search.bind (instanceBinding sectionType) name) key other
      = doc.instanceValue? search key other := by
  rw [instanceValue?, bound?_bind doc search name (lower_instanceBinding htype),
    if_neg (mt instanceBinding_inj.mp h), instanceValue?]

/-- The name that is bound for a section type is looked for as it is. -/
theorem instanceValue?_bind_self (htype : sectionType.lower = sectionType) (name key : Text) :
    doc.instanceValue? (search.bind (instanceBinding sectionType) name) key sectionType
      = ((doc.root.getSection? sectionType).bind fun s => s.getSection? name).bind
          fun s => s.get? key := by
  rw [instanceValue?, bound?_bind doc search name (lower_instanceBinding htype), if_pos rfl]

/-! ## Searches with a binding -/

/-- A key with dots leads to its node whatever is bound. -/
theorem search_bind_of_mem (h : '.' ∈ key) (bound name other : Text) :
    doc.search key (search.bind bound name) = doc.search key (search.bind bound other) := by
  rw [search_eq_of_mem h, search_eq_of_mem h]
  rfl

/-- A search for a binding of its own finds what it binds. -/
theorem search_bind_self (hdot : '.' ∉ key) {bound : Text} (h : key.lower = bound)
    (name : Text) : doc.search key (search.bind bound name) = .ok (some (.scalar name)) := by
  have hlower : bound.lower = bound := by
    rw [← h, Text.lower_lower]
  rw [search_eq_answer, find?_undotted hdot, findInLayers?, bound?_bind doc search name hlower,
    if_pos h]
  rfl

/-- A section type whose instance does not have the key has no say. -/
theorem search_withoutType (h : doc.instanceValue? search key.lower sectionType = none) :
    (doc.withoutType sectionType).search key search = doc.search key search := by
  refine search_of_order (findSome?_filter_of_none fun other _ hdropped => ?_)
  obtain rfl : other = sectionType := by simpa using hdropped
  exact h

/-- What is bound for a section type has no say in a search without it, other than for the binding
itself. -/
theorem search_withoutType_bind (htype : sectionType.lower = sectionType) (hdot : '.' ∉ key)
    (hkey : key.lower ≠ instanceBinding sectionType) (name : Text) :
    (doc.withoutType sectionType).search key (search.bind (instanceBinding sectionType) name)
      = (doc.withoutType sectionType).search key search := by
  have hvalue : (doc.withoutType sectionType).searchOrder.findSome?
        ((doc.withoutType sectionType).instanceValue?
          (search.bind (instanceBinding sectionType) name) key.lower)
      = (doc.withoutType sectionType).searchOrder.findSome?
        ((doc.withoutType sectionType).instanceValue? search key.lower) := by
    refine findSome?_congr_of_mem fun other hother => ?_
    have hne : other ≠ sectionType := of_decide_eq_true (List.mem_filter.mp hother).2
    exact instanceValue?_bind_of_ne htype hne name key.lower
  rw [search_eq_answer, search_eq_answer, find?_undotted hdot, find?_undotted hdot, findInLayers?,
    findInLayers?, hvalue, bound?_bind _ search name (lower_instanceBinding htype), if_neg hkey]
  rfl

/-- A name that the section type has no instance of says as much as no section type. -/
theorem search_bind_eq_iff (htype : sectionType.lower = sectionType)
    (hmissing : ((doc.root.getSection? sectionType).bind fun s => s.getSection? name) = none)
    {other : Text} (hne : name ≠ other) :
    doc.search key (search.bind (instanceBinding sectionType) name)
        = doc.search key (search.bind (instanceBinding sectionType) other)
      ↔ '.' ∈ key ∨ key.lower ≠ instanceBinding sectionType
          ∧ (doc.withoutType sectionType).search key
              (search.bind (instanceBinding sectionType) other)
            = doc.search key (search.bind (instanceBinding sectionType) other) := by
  by_cases hdot : '.' ∈ key
  · exact iff_of_true (search_bind_of_mem hdot _ name other) (.inl hdot)
  by_cases hkey : key.lower = instanceBinding sectionType
  · rw [search_bind_self hdot hkey, search_bind_self hdot hkey]
    refine iff_of_false (fun heq => hne ?_) ?_
    · simpa using heq
    · rintro (hmem | ⟨hnot, -⟩)
      · exact hdot hmem
      · exact hnot hkey
  · have hnone : doc.instanceValue? (search.bind (instanceBinding sectionType) name) key.lower
        sectionType = none := by
      rw [instanceValue?_bind_self htype, hmissing]
      rfl
    rw [← search_withoutType hnone, search_withoutType_bind htype hdot hkey,
      ← search_withoutType_bind htype hdot hkey other]
    exact ⟨fun heq => .inr ⟨hkey, heq⟩, fun h => (h.resolve_left hdot).2⟩

end Document

namespace DocumentReader

variable {reader : DocumentReader} {file text : Text} {mode : KeyCase} {doc : Document}

/-- All sections of a document that comes from a text have lowered keys. -/
theorem lower_of_getSection?
    (hdirective : ∀ l ∈ LogicalLine.ofText text, ¬ (Line.classify l.text).IsDirective)
    (hread : (reader.readText file mode text).outcome = .ok doc) {path : List Text}
    {s child : Section} {key : Text} (hat : doc.root.at? path = some s)
    (hchild : s.getSection? key = some child) : key.lower = key := by
  obtain ⟨hfollows, -⟩ := readText_follows hdirective
    (fun l hl => asRead_admits (LogicalLine.newline_not_mem_text hl)) hread
  exact ((hfollows.at hat).obeys.child key child hchild).2.1

/-- A name that is not lowered is the name of no instance in a document that comes from a text. -/
theorem instance_eq_none
    (hdirective : ∀ l ∈ LogicalLine.ofText text, ¬ (Line.classify l.text).IsDirective)
    (hread : (reader.readText file mode text).outcome = .ok doc) {name : Text}
    (h : name.lower ≠ name) (sectionType : Text) :
    ((doc.root.getSection? sectionType).bind fun s => s.getSection? name) = none := by
  refine Option.eq_none_iff_forall_ne_some.mpr fun child hchild => h ?_
  obtain ⟨s, hs, hchild⟩ := Option.bind_eq_some_iff.mp hchild
  have hat : doc.root.at? [sectionType] = some s := by
    rw [← List.nil_append [sectionType], Section.at?_concat]
    exact hs
  exact lower_of_getSection? hdirective hread hat hchild

/-- For a document that comes from a text without directives, a search that selects an instance by a
name that is not lowered is one without the section type. It agrees with the search for the lowered
name exactly if that one finds the same without the section type, unless its key has dots, which no
binding has a say in, or is that of the binding itself. -/
theorem search_bind_spelling
    (hdirective : ∀ l ∈ LogicalLine.ofText text, ¬ (Line.classify l.text).IsDirective)
    (hread : (reader.readText file mode text).outcome = .ok doc) {order : List Text}
    {sectionType : Text} (htype : sectionType ∈ order.map Text.lower) (search : Search)
    (key spelling : Text) :
    let searched := doc.withSearchOrder order
    let bound : Text → Search := search.bind (Document.instanceBinding sectionType)
    (spelling.lower ≠ spelling →
      searched.search key (bound spelling)
        = (searched.withoutType sectionType).search key (bound spelling))
    ∧ (searched.search key (bound spelling) = searched.search key (bound spelling.lower)
      ↔ '.' ∈ key ∨ spelling.lower = spelling
        ∨ key.lower ≠ Document.instanceBinding sectionType
          ∧ (searched.withoutType sectionType).search key (bound spelling.lower)
            = searched.search key (bound spelling.lower)) := by
  intro searched bound
  have hlower : sectionType.lower = sectionType := by
    obtain ⟨given, -, rfl⟩ := List.mem_map.mp htype
    exact Text.lower_lower given
  have hmissing (h : spelling.lower ≠ spelling) :
      ((searched.root.getSection? sectionType).bind fun s => s.getSection? spelling) = none :=
    instance_eq_none hdirective hread h sectionType
  constructor
  · intro h
    refine (Document.search_withoutType ?_).symm
    rw [Document.instanceValue?_bind_self hlower, hmissing h]
    rfl
  · by_cases h : spelling.lower = spelling
    · rw [h]
      exact iff_of_true rfl (.inr (.inl rfl))
    · rw [Document.search_bind_eq_iff hlower (hmissing h) (Ne.symm h), or_iff_right h]

/-- An instance that is spelled with a capital in its tag: a binding with capitals selects nothing,
and the search goes on to the top level. -/
theorem not_search_bind_spelling :
    let reader : DocumentReader := ⟨{}, {}, fun _ => .error .notFound⟩
    let band : Text := "band".toList
    let exec : Text := "exec".toList
    let instances : List (Text × Node) :=
      [("exec_1".toList, .subsection .fold [(band, .scalar ['r'])])]
    let text : Text := Text.unlines ["band = g".toList, "<exec>".toList, "<Exec_1>".toList,
      "band = r".toList, "</Exec_1>".toList, "</exec>".toList]
    let doc : Document :=
      { root := { entries := [(band, .scalar ['g']), (exec, .subsection .fold instances)] } }
    let spelling : Text := "EXEC_1".toList
    let found := fun name : Text =>
      (doc.withSearchOrder [exec]).search band
        (({} : Search).bind (Document.instanceBinding exec) name)
    (reader.readText [] .fold text).outcome = .ok doc
      ∧ found spelling = .ok (some (.scalar ['g']))
      ∧ found spelling.lower = .ok (some (.scalar ['r']))
      ∧ found spelling ≠ found spelling.lower := by
  intro reader band exec instances text doc spelling found
  have hread : (reader.readText [] .fold text).outcome = .ok doc := rfl
  have hdirective : ∀ l ∈ LogicalLine.ofText text, ¬ (Line.classify l.text).IsDirective := by
    decide +kernel
  have htype : exec ∈ [exec].map Text.lower := by decide
  obtain ⟨hwithout, hiff⟩ :=
    search_bind_spelling hdirective hread htype {} band spelling
  refine ⟨hread, hwithout (by decide), rfl, ?_⟩
  intro heq
  rcases hiff.mp heq with hdot | hlower | ⟨-, hsame⟩
  · exact absurd hdot (by decide)
  · exact absurd hlower (by decide)
  · have hnodes : (.ok (some (.scalar ['g'])) : Except Error (Option Node))
        = .ok (some (.scalar ['r'])) := hsame
    simp at hnodes

end DocumentReader

end WorkflowControl
