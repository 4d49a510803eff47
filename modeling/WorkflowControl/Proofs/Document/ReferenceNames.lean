import Mathlib.Data.List.Basic
import WorkflowControl.Proofs.Token.All

/-!
The names that a document is said to refer to, and the tokens that are substituted in it. The names
are those of the references, each once and in order (`referenceNames_eq`), and each reference has
one token or none (`tokens_eq_filterMap`). A reference without `$` is the token that it has. In one
with a `$` the token is another one: where a token is nested in another one, the list has what is
read of the outer content up to the first closing brace, and the inner name, which is looked up, is
missing. So the list is that of the tokens exactly if the names of references and those of the
tokens in them come to the same (`listsTokens_iff`).
-/

namespace WorkflowControl

/-! ## Each name once -/

theorem foldl_of_not_contains (names seen : List Text) :
    names.foldl (fun seen name => if seen.contains name then seen else seen ++ [name]) seen
      = seen ++ (names.filter fun name => !seen.contains name).eraseDups := by
  induction names generalizing seen with
  | nil => simp
  | cons name names ih =>
    rw [List.foldl_cons, ih, List.filter_cons]
    by_cases hseen : seen.contains name = true
    · rw [if_pos hseen, hseen]
      rfl
    · have hnew : seen.contains name = false := eq_false_of_ne_true hseen
      rw [if_neg hseen, hnew, Bool.not_false, if_pos rfl, List.eraseDups_cons, List.filter_filter,
        List.append_assoc, List.singleton_append]
      -- From here on the name is seen, and `eraseDups` drops it from the rest as well.
      refine congrArg (fun rest => seen ++ name :: List.eraseDups rest)
        (List.filter_congr fun other _ => ?_)
      by_cases hother : other = name
      · simp [hother]
      · simp [hother]

/-- Collecting names that were not seen before leaves each name once, where it comes up first. -/
theorem foldl_eq_eraseDups (names : List Text) :
    names.foldl (fun seen name => if seen.contains name then seen else seen ++ [name]) []
      = names.eraseDups := by
  rw [foldl_of_not_contains, List.nil_append]
  exact congrArg List.eraseDups (List.filter_true names)

/-! ## The scalars of a document -/

namespace Node

mutual

/-- The scalars at and below a node, in order. -/
def scalars : Node → List Text
  | scalar value => [value]
  | subsection _ entries => entriesScalars entries
termination_by structural n => n

/-- The scalars of the entries of a section and below, in order. -/
def entriesScalars : List (Text × Node) → List Text
  | [] => []
  | (_, node) :: rest => scalars node ++ entriesScalars rest
termination_by structural es => es

end

mutual

theorem referenceNames_eq_flatMap : ∀ node : Node,
    node.referenceNames = node.scalars.flatMap Text.referenceNames
  | scalar _ => (List.append_nil _).symm
  | subsection _ entries => entriesReferenceNames_eq_flatMap entries
termination_by structural n => n

theorem entriesReferenceNames_eq_flatMap : ∀ entries : List (Text × Node),
    entriesReferenceNames entries = (entriesScalars entries).flatMap Text.referenceNames
  | [] => rfl
  | (_, node) :: rest => by
    rw [entriesReferenceNames, entriesScalars, List.flatMap_append, referenceNames_eq_flatMap node,
      entriesReferenceNames_eq_flatMap rest]
termination_by structural es => es

end

end Node

namespace Token

/-- The name in the content of a token or a reference. -/
def name (content : Text) : Text := (nameAndWidth content).1

/-- The name of the token in a reference, if there is one. -/
def nameOfReference? (content : Text) : Option Text := (ofReference? content).map name

theorem dollar_not_mem_name {content : Text} (h : '$' ∉ content) : '$' ∉ name content :=
  fun hmem => h (List.takeWhile_subset _ hmem)

end Token

namespace Document

open Token

/-- The scalars of a document, in order. -/
def scalars (doc : Document) : List Text := Node.entriesScalars doc.root.entries

/-- The contents of the references in the scalars of a document, in order. -/
def references (doc : Document) : List Text := doc.scalars.flatMap (Text.referencesFrom 0)

/-- The contents of the required tokens in the scalars of a document, in order. -/
def tokens (doc : Document) : List Text := doc.scalars.flatMap (Token.all .required)

/-- What is asked of the names that a document is said to refer to. -/
structure ListsTokens (doc : Document) : Prop where
  /-- They are the names of the tokens, each once, in the order in which they come up. -/
  names : doc.referenceNames = (doc.tokens.map name).eraseDups
  plain : ∀ name ∈ doc.referenceNames, '$' ∉ name
  /-- The variable that is looked up first in a scalar is among them. -/
  first : ∀ t ∈ doc.scalars, ∀ content, Token.first? .required t = some content →
    name content ∈ doc.referenceNames

variable {doc : Document}

theorem referenceNames_eq (doc : Document) :
    doc.referenceNames = (doc.references.map name).eraseDups := by
  rw [referenceNames, foldl_eq_eraseDups, Node.entriesReferenceNames_eq_flatMap, references,
    List.map_flatMap]
  rfl

theorem tokens_eq_filterMap (doc : Document) :
    doc.tokens = doc.references.filterMap ofReference? := by
  rw [tokens, references, List.filterMap_flatMap]
  exact congrArg (List.flatMap · doc.scalars) (funext all_eq_filterMap)

theorem isContent_of_mem_tokens {content : Text} (h : content ∈ doc.tokens) :
    Piece.IsContent content := by
  rw [tokens_eq_filterMap] at h
  obtain ⟨reference, -, hcontent⟩ := List.mem_filterMap.mp h
  exact isContent_of_first? (by decide) hcontent

/-- The token that is found first in a scalar is one of the tokens. -/
theorem mem_tokens_of_first? {t content : Text} (ht : t ∈ doc.scalars)
    (h : Token.first? .required t = some content) : content ∈ doc.tokens := by
  rw [← head?_all] at h
  exact List.mem_flatMap.mpr ⟨t, ht, List.mem_of_head? h⟩

/-- If the names listed are those of the tokens, all that is asked of them holds. -/
theorem listsTokens_of_names (h : doc.referenceNames = (doc.tokens.map name).eraseDups) :
    doc.ListsTokens where
  names := h
  plain listed hlisted := by
    rw [h, List.mem_eraseDups] at hlisted
    obtain ⟨content, hcontent, rfl⟩ := List.mem_map.mp hlisted
    exact dollar_not_mem_name (isContent_of_mem_tokens hcontent).2.1
  first t ht content hfirst := by
    rw [h, List.mem_eraseDups]
    exact List.mem_map_of_mem (mem_tokens_of_first? ht hfirst)

/-- References without `$` are the tokens of the document. -/
theorem tokens_eq_references (h : ∀ content ∈ doc.references, '$' ∉ content) :
    doc.tokens = doc.references := by
  rw [tokens_eq_filterMap]
  refine (List.filterMap_congr (g := some) fun content hcontent => ?_).trans List.filterMap_some
  obtain ⟨t, -, hmem⟩ := List.mem_flatMap.mp hcontent
  obtain ⟨hne, hclose⟩ := mem_referencesFrom hmem
  exact ofReference?_of_isContent ⟨hne, h content hcontent, hclose⟩

/-- The names listed are those of the tokens exactly if the names of the references come to the same
as those of the tokens in them. They do if no reference has a `$`, and they do not if there is one
in a name. -/
theorem listsTokens_iff (doc : Document) :
    (doc.ListsTokens
      ↔ (doc.references.map name).eraseDups
        = (doc.references.filterMap nameOfReference?).eraseDups)
    ∧ ((∀ content ∈ doc.references, '$' ∉ content) → doc.ListsTokens)
    ∧ ((∃ content ∈ doc.references, '$' ∈ name content) → ¬ doc.ListsTokens) := by
  have hnames : doc.tokens.map name = doc.references.filterMap nameOfReference? := by
    rw [tokens_eq_filterMap, List.map_filterMap]
    rfl
  refine ⟨⟨fun h => ?_, fun h => ?_⟩, fun h => ?_, fun h hlists => ?_⟩
  · rw [← referenceNames_eq, ← hnames]
    exact h.names
  · refine listsTokens_of_names ?_
    rw [referenceNames_eq, hnames, h]
  · refine listsTokens_of_names ?_
    rw [referenceNames_eq, tokens_eq_references h]
  · obtain ⟨content, hcontent, hdollar⟩ := h
    refine hlists.plain (name content) ?_ hdollar
    rw [referenceNames_eq, List.mem_eraseDups]
    exact List.mem_map_of_mem hcontent

/-- A token nested in another one: the name that is listed is that of neither. -/
theorem not_listsTokens_nested :
    let nested : Text := "$\x7brms_$\x7bband\x7d\x7d".toList
    let listed : Text := "rms_$\x7bband".toList
    let doc : Document := { root := { entries := [(['a'], .scalar nested)] } }
    doc.referenceNames = [listed] ∧ doc.tokens = ["band".toList] ∧ ¬ doc.ListsTokens := by
  intro nested listed doc
  obtain ⟨-, -, hnot⟩ := listsTokens_iff doc
  exact ⟨rfl, rfl, hnot ⟨listed, by decide, by decide⟩⟩

end Document

end WorkflowControl
