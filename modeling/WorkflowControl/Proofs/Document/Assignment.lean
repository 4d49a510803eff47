import WorkflowControl.Proofs.Document.Cells
import WorkflowControl.Proofs.Document.Operation
import WorkflowControl.Proofs.Text.Ascii
import WorkflowControl.Proofs.Text.Split

/-!
Writing a node at a dotted key. The writer lowers the parts in front of the last dot one by one and
leaves the last one to the section that it writes into; the search lowers the key as a whole. For
keys in ASCII this is the same (`splitOn_lower`). So what was written is found if its section folds
keys or its name is lowered already, everything beside it stays, and a new name comes last
(`set_dotted`).
-/

namespace WorkflowControl

namespace Text

/-- In ASCII the pieces of a text in lower case are its pieces, each in lower case. -/
theorem splitOn_lower {delim : Char} (hdelim : IsCaseless delim) {t : Text} (h : IsAscii t) :
    splitOn delim t.lower = (splitOn delim t).map lower := by
  have hself (c : Char) : foldChar c = delim ↔ c = delim := by
    constructor
    · intro hc
      exact eq_of_foldChar_eq hdelim (hc.trans (foldChar_of_isCaseless hdelim).symm)
    · intro hc
      rw [hc, foldChar_of_isCaseless hdelim]
  rw [lower_eq_map h, splitOn_map hself]
  refine List.map_congr_left fun piece hpiece => ?_
  exact (lower_eq_map (h.subset fun c hc => mem_of_mem_splitOn hpiece hc)).symm

end Text

namespace Section

variable {s t root holder : Section} {place path : List Text} {key name : Text}

/-! ## Writing into a section at a place -/

theorem node?_cons_congr (h : s.get? key = t.get? key) (path : List Text) :
    s.node? (key :: path) = t.node? (key :: path) := by
  rw [node?, node?, h]

/-- What a key holds depends on what is written under this key only. -/
theorem get?_put_of_ne (h : key ≠ name) (s : Section) (node : Node) :
    get? { s with entries := s.entries.put name node } key = s.get? key :=
  Entries.get?_put_ne h node s.entries

theorem keys_put_of_section {child : Section} (h : s.getSection? key = some child) (node : Node) :
    keys { s with entries := s.entries.put key node } = s.keys := by
  have hmem : key ∈ s.entries.keys :=
    Entries.mem_keys_of_mem (Entries.mem_of_get? (getSection?_eq_some_iff.mp h))
  rw [keys, Entries.keys_put, if_pos hmem]
  rfl

/-- The tree with a node written under a name in the section at a place. -/
def writeAt (root : Section) (place : List Text) (holder : Section) (name : Text) (node : Node) :
    Section :=
  root.replaceAt place { holder with entries := holder.entries.put name node }

variable {child : Section} {node : Node}

theorem writeAt_cons (h : s.getSection? key = some child) (place : List Text) (holder : Section)
    (name : Text) (node : Node) :
    s.writeAt (key :: place) holder name node
      = { s with entries := s.entries.put key (child.writeAt place holder name node).toNode } := by
  rw [writeAt, replaceAt, h]
  rfl

/-- What was written is there. -/
theorem node?_writeAt_self (hat : root.at? place = some holder) (name : Text) (node : Node) :
    (root.writeAt place holder name node).node? (place ++ [name]) = some node := by
  rw [node?_concat, writeAt, at?_replaceAt hat]
  exact Entries.get?_put_self name node holder.entries

/-- What is neither on the way to what was written nor at or below it stays. -/
theorem node?_writeAt (hat : root.at? place = some holder) (name : Text) (node : Node)
    (habove : ¬ path <+: place ++ [name]) (hbelow : ¬ place ++ [name] <+: path) :
    (root.writeAt place holder name node).node? path = root.node? path := by
  induction place generalizing root path with
  | nil =>
    obtain rfl := Option.some.inj hat
    cases path with
    | nil => exact absurd List.nil_prefix habove
    | cons key path =>
      have hne : key ≠ name := fun heq => hbelow (by simp [heq])
      exact node?_cons_congr (get?_put_of_ne hne root node) path
  | cons first place ih =>
    rw [at?_cons] at hat
    obtain ⟨child, hchild, hat⟩ := Option.bind_eq_some_iff.mp hat
    rw [writeAt_cons hchild]
    cases path with
    | nil => exact absurd List.nil_prefix habove
    | cons key path =>
      -- The two paths go on together, or they part here.
      by_cases hkey : key = first
      · rw [hkey, List.cons_append, List.prefix_cons_inj] at habove hbelow
        rw [hkey, node?_cons_of_section (getSection?_put root _ first),
          node?_cons_of_section hchild]
        exact ih hat habove hbelow
      · exact node?_cons_congr (get?_put_of_ne hkey root _) path

/-- A section on the way has what was written further on in it. -/
theorem at?_writeAt_append (ht : root.at? path = some t) (rest : List Text) (holder : Section)
    (name : Text) (node : Node) :
    (root.writeAt (path ++ rest) holder name node).at? path
      = some (t.writeAt rest holder name node) := by
  rw [writeAt, replaceAt_append ht]
  exact at?_replaceAt ht _

/-- A section keeps its keys in their order when something is written in it, and a new name in the
section itself comes last. -/
theorem keys_writeAt (hat : s.at? place = some holder) (name : Text) (node : Node) :
    (s.writeAt place holder name node).keys
      = if place = [] ∧ name ∉ s.keys then s.keys ++ [name] else s.keys := by
  cases place with
  | nil =>
    obtain rfl := Option.some.inj hat
    simp only [true_and, ite_not]
    exact Entries.keys_put name node s.entries
  | cons key place =>
    rw [at?_cons] at hat
    obtain ⟨child, hchild, -⟩ := Option.bind_eq_some_iff.mp hat
    rw [writeAt_cons hchild, keys_put_of_section hchild, if_neg (by simp)]

/-- A section that is not at or below what was written stays, with its keys in their order; the
section that was written into gets the name behind them if it is new. -/
theorem at?_writeAt (hat : root.at? place = some holder) (name : Text) (node : Node)
    (ht : root.at? path = some t) (hbelow : ¬ place ++ [name] <+: path) :
    ∃ u, (root.writeAt place holder name node).at? path = some u ∧ u.mode = t.mode
      ∧ u.keys = if path = place ∧ name ∉ t.keys then t.keys ++ [name] else t.keys := by
  by_cases habove : path <+: place
  · obtain ⟨rest, rfl⟩ := habove
    rw [at?_append, ht, Option.bind_some] at hat
    refine ⟨_, at?_writeAt_append ht rest holder name node, mode_replaceAt hat rfl, ?_⟩
    rw [keys_writeAt hat]
    simp only [List.self_eq_append_right]
  · -- Neither on the way nor at or below, so it is what it was.
    have hapart : ¬ path <+: place ++ [name] := by
      rw [List.prefix_concat_iff, not_or]
      exact ⟨fun heq => hbelow (heq ▸ List.prefix_rfl), habove⟩
    have hne : ¬ (path = place ∧ name ∉ t.keys) := fun h => habove (h.1 ▸ List.prefix_rfl)
    refine ⟨t, ?_, rfl, (if_neg hne).symm⟩
    rw [← node?_eq_toNode_iff, node?_writeAt hat name node hapart hbelow]
    exact node?_eq_toNode_iff.mpr ht

end Section

namespace Document

open Section

/-- The keys on the way to what a dotted key names: its parts in front of the last dot, lowered. -/
def parentPath (key : Text) : List Text := (Text.splitOn '.' key).dropLast.map Text.lower

/-- The name of what a dotted key names in its section: the part behind the last dot. -/
def leafName (key : Text) : Text := (Text.splitOn '.' key).getLast?.getD []

/-- What is asked of a document after a node was written under a name in a section of it. -/
structure Writes (doc next : Document) (place : List Text) (holder : Section) (name : Text)
    (node : Node) : Prop where
  at_place : doc.root.at? place = some holder
  order : next.searchOrder = doc.searchOrder
  /-- What is neither on the way to the new node nor at or below it stays. -/
  kept : ∀ path, ¬ path <+: place ++ [name] → ¬ place ++ [name] <+: path →
    next.root.node? path = doc.root.node? path
  /-- Every section that is not at or below the new node stays, with its keys in their order; a new
  name comes last. -/
  keys : ∀ path t, doc.root.at? path = some t → ¬ place ++ [name] <+: path →
    ∃ u, next.root.at? path = some u ∧ u.mode = t.mode
      ∧ u.keys = if path = place ∧ name ∉ t.keys then t.keys ++ [name] else t.keys

variable {doc next : Document} {key start last : Text} {node : Node}

/-! ## The parts of a dotted key -/

theorem splitOn_of_last (hlast : '.' ∉ last) (start : Text) :
    Text.splitOn '.' (start ++ '.' :: last) = Text.splitOn '.' start ++ [last] := by
  rw [Text.splitOn_append, Text.splitOn_of_not_mem hlast]

theorem parentPath_of_last (hlast : '.' ∉ last) (start : Text) :
    parentPath (start ++ '.' :: last) = (Text.splitOn '.' start).map Text.lower := by
  rw [parentPath, splitOn_of_last hlast, List.dropLast_concat]

theorem leafName_of_last (hlast : '.' ∉ last) (start : Text) :
    leafName (start ++ '.' :: last) = last := by
  rw [leafName, splitOn_of_last hlast, List.getLast?_concat]
  rfl

/-- What stands before a dot names a start of the way, lowered as a whole or part by part. -/
theorem parentPath_append {rest : Text} (hascii : (start ++ '.' :: rest).IsAscii) :
    ∃ further, parentPath (start ++ '.' :: rest)
      = Text.splitOn '.' start.lower ++ further := by
  have hstart : start.IsAscii := hascii.subset (List.subset_append_left _ _)
  refine ⟨(Text.splitOn '.' rest).dropLast.map Text.lower, ?_⟩
  rw [parentPath, Text.splitOn_append,
    List.dropLast_append_of_ne_nil (Text.splitOn_ne_nil '.' rest), List.map_append,
    Text.splitOn_lower (by decide) hstart]

/-- The way leads to a section exactly if all that stands before a dot does. -/
theorem exists_at?_parentPath_iff (hascii : key.IsAscii) (hdot : '.' ∈ key) {root : Section} :
    (∃ holder, root.at? (parentPath key) = some holder)
      ↔ ∀ start rest, key = start ++ '.' :: rest →
          ∃ s, root.at? (Text.splitOn '.' start.lower) = some s := by
  constructor
  · rintro ⟨holder, hholder⟩ start rest rfl
    obtain ⟨further, hpath⟩ := parentPath_append hascii
    rw [hpath, at?_append] at hholder
    obtain ⟨s, hs, -⟩ := Option.bind_eq_some_iff.mp hholder
    exact ⟨s, hs⟩
  · intro h
    -- What stands before the last dot is the whole way.
    obtain ⟨start, last, rfl, hlast⟩ := Text.exists_last_of_mem hdot
    have hstart : start.IsAscii := hascii.subset (List.subset_append_left _ _)
    rw [parentPath_of_last hlast, ← Text.splitOn_lower (by decide) hstart]
    exact h start last rfl

/-! ## Writing and searching -/

theorem set_of_holder {holder : Section} (h : doc.root.at? (parentPath key) = some holder)
    (node : Node) :
    doc.set key node = .ok
      { doc with
        root := doc.root.writeAt (parentPath key) holder (holder.mode.stored (leafName key))
          node } := by
  unfold Document.set
  dsimp only
  rw [← parentPath, modifyAt?_eq h]
  rfl

theorem set_of_none (h : doc.root.at? (parentPath key) = none) (node : Node) :
    doc.set key node = .error (.lookup key) := by
  unfold Document.set
  dsimp only
  rw [← parentPath, modifyAt?_of_none h]

theorem set_eq_ok_iff :
    (∃ next, doc.set key node = .ok next)
      ↔ ∃ holder, doc.root.at? (parentPath key) = some holder := by
  constructor
  · rintro ⟨next, hnext⟩
    cases hholder : doc.root.at? (parentPath key) with
    | none =>
      rw [set_of_none hholder] at hnext
      cases hnext
    | some holder => exact ⟨holder, rfl⟩
  · rintro ⟨holder, hholder⟩
    exact ⟨_, set_of_holder hholder node⟩

theorem findAt?_eq_node? {path : List Text} (h : path ≠ []) (s : Section) :
    findAt? s path = s.node? path := by
  induction path generalizing s with
  | nil => exact absurd rfl h
  | cons key path ih =>
    cases path with
    | nil => exact (s.node?_concat [] key).symm
    | cons next path =>
      rw [findAt?, node?]
      · cases s.get? key with
        | none => rfl
        | some node =>
          cases node with
          | scalar value => rfl
          | subsection mode entries => exact ih (List.cons_ne_nil next path) ⟨mode, entries⟩
      · exact List.cons_ne_nil next path

/-- A dotted key leads to what stands under its last part in lower case. -/
theorem search_dotted (hascii : key.IsAscii) (hdot : '.' ∈ key) (doc : Document)
    (search : Search) :
    doc.search key search
      = answer search key.lower
          (doc.root.node? (parentPath key ++ [(leafName key).lower])) := by
  obtain ⟨start, last, rfl, hlast⟩ := Text.exists_last_of_mem hdot
  have hparts : Text.splitOn '.' (Text.lower (start ++ '.' :: last))
      = (Text.splitOn '.' start).map Text.lower ++ [Text.lower last] := by
    rw [Text.splitOn_lower (by decide) hascii, splitOn_of_last hlast, List.map_append]
    rfl
  rw [search_eq_of_mem hdot, findAt?_eq_node? (Text.splitOn_ne_nil '.' _), hparts,
    parentPath_of_last hlast, leafName_of_last hlast]

theorem writes_writeAt {place : List Text} {holder : Section}
    (h : doc.root.at? place = some holder) (name : Text) (node : Node) :
    doc.Writes { doc with root := doc.root.writeAt place holder name node } place holder name
      node where
  at_place := h
  order := rfl
  kept _ habove hbelow := node?_writeAt h name node habove hbelow
  keys _ _ ht hbelow := at?_writeAt h name node ht hbelow

/-- A node can be written at a dotted key exactly if what stands before each dot leads to a section,
and otherwise the document stays as it is. Everything beside the node stays, and a search for the
key finds it if the section folds keys or the last part of the key is lowered. -/
theorem set_dotted (hascii : key.IsAscii) (hdot : '.' ∈ key) (doc : Document) (node : Node) :
    ((∃ next, doc.set key node = .ok next)
      ↔ ∀ start rest, key = start ++ '.' :: rest →
          ∃ s, doc.root.at? (Text.splitOn '.' start.lower) = some s)
    ∧ ((¬ ∃ next, doc.set key node = .ok next) →
        doc.set key node = .error (.lookup key) ∧ doc.apply (.set key node) = doc)
    ∧ ∀ next, doc.set key node = .ok next →
        ∃ holder : Section,
          doc.Writes next (parentPath key) holder (holder.mode.stored (leafName key)) node
          ∧ (holder.mode = .fold ∨ (leafName key).lower = leafName key →
              ∀ order search, ({ next with searchOrder := order } : Document).search key search
                = .ok (some node)) := by
  refine ⟨set_eq_ok_iff.trans (exists_at?_parentPath_iff hascii hdot), fun h => ?_,
    fun next hnext => ?_⟩
  · have hnone : doc.root.at? (parentPath key) = none :=
      Option.eq_none_iff_forall_ne_some.mpr fun holder hholder =>
        h (set_eq_ok_iff.mpr ⟨holder, hholder⟩)
    have herror : doc.set key node = .error (.lookup key) := set_of_none hnone node
    refine ⟨herror, ?_⟩
    rw [apply, perform?, herror]
    rfl
  · obtain ⟨holder, hholder⟩ := set_eq_ok_iff.mp ⟨next, hnext⟩
    rw [set_of_holder hholder] at hnext
    obtain rfl := Except.ok.inj hnext
    refine ⟨holder, writes_writeAt hholder _ node, fun hlowered order search => ?_⟩
    -- The name is stored lowered either way, and so the search comes upon it.
    have hstored : holder.mode.stored (leafName key) = (leafName key).lower := by
      cases hmode : holder.mode with
      | fold => rfl
      | preserve =>
        rw [hmode] at hlowered
        exact (hlowered.resolve_left (by decide)).symm
    rw [search_dotted hascii hdot, ← hstored, node?_writeAt_self hholder]
    rfl

/-- A key with capitals that names a new entry of a section that folds. -/
theorem set_dotted_capitals :
    let doc : Document :=
      { root := { entries := [(['a'], .subsection .fold [(['x'], .scalar ['1'])]),
          (['b'], .scalar ['2'])] } }
    let next : Document :=
      { root := { entries :=
          [(['a'], .subsection .fold [(['x'], .scalar ['1']), (['y'], .scalar ['3'])]),
            (['b'], .scalar ['2'])] } }
    let key : Text := ['A', '.', 'Y']
    key.IsAscii ∧ '.' ∈ key ∧ doc.set key (.scalar ['3']) = .ok next
      ∧ (∀ order search, ({ next with searchOrder := order } : Document).search key search
          = .ok (some (.scalar ['3'])))
      ∧ next.root.node? [['b']] = doc.root.node? [['b']]
      ∧ ∃ u, next.root.at? [['a']] = some u ∧ u.keys = [['x'], ['y']] := by
  intro doc next key
  have hascii : key.IsAscii := by decide
  have hdot : '.' ∈ key := by decide
  have hset : doc.set key (.scalar ['3']) = .ok next := rfl
  obtain ⟨-, -, hdone⟩ := set_dotted hascii hdot doc (.scalar ['3'])
  obtain ⟨holder, hwrites, hfound⟩ := hdone next hset
  obtain rfl : (⟨.fold, [(['x'], .scalar ['1'])]⟩ : Section) = holder :=
    Option.some.inj hwrites.at_place
  refine ⟨hascii, hdot, hset, hfound (.inl rfl), hwrites.kept _ (by decide) (by decide), ?_⟩
  obtain ⟨u, hu, -, hkeys⟩ := hwrites.keys [['a']] _ rfl (by decide)
  exact ⟨u, hu, hkeys⟩

end Document

end WorkflowControl
