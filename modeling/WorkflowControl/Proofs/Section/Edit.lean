import WorkflowControl.Proofs.Section.DeepMerge

/-!
Sections as ordered maps. An edit is one of the operations that write into a section, done at a place
of a tree (`edited`). It leaves the keys of every section distinct, the keys that stay in the order
that they had, and puts new keys behind them; and it does not touch what is neither on the way to
its place nor below it. This holds of all trees that edits make of an empty section, with the
sections that they bring in made in the same way (`Built.isOrderedEdit`).
-/

namespace WorkflowControl

/-- An operation that writes into a section. -/
inductive Edit where
  | insert (key : Text) (node : Node)
  | erase (key : Text)
  /-- Creates a section if it is missing. -/
  | enter (name : Text)
  | merge (added : Section)

namespace Edit

/-- The section after an edit. A scalar can stand in the way of a section. -/
def perform? (edit : Edit) (s : Section) : Option Section :=
  match edit with
  | insert key node => some (s.insert key node)
  | erase key => some (s.erase key)
  | enter name => s.withSection? name
  | merge added => some (s.merge added)

/-- The section that an edit brings in. -/
def part? : Edit → Option Section
  | insert _ node => node.section?
  | merge added => some added
  | _ => none

end Edit

namespace Section

/-- The tree after an edit of the section at a place. Where there is no section, or a scalar stands in
the way, the tree is left as it is. -/
def edited (s : Section) (place : List Text) (edit : Edit) : Section :=
  (s.modifyAt? edit.perform? place).getD s

/-- The trees that edits make of an empty section, with sections that are built so brought in. -/
inductive Built : Section → Prop
  | empty (mode : KeyCase) : Built ⟨mode, []⟩
  | edited {s : Section} (place : List Text) (edit : Edit) (hs : Built s)
      (hparts : ∀ part, edit.part? = some part → Built part) : Built (s.edited place edit)

/-- Whether keys stand in the order that they had before, those that are new behind the others. -/
structure KeepsOrder (old new : List Text) : Prop where
  kept : ∀ a b, [a, b].Sublist old → a ∈ new → b ∈ new → [a, b].Sublist new
  behind : ∀ a b, a ∈ old → a ∈ new → b ∉ old → b ∈ new → [a, b].Sublist new

/-- Whether what stands at a path is at or below a node that an edit puts in the place of another. -/
def Replaced (s : Section) (place : List Text) (edit : Edit) (path : List Text) : Prop :=
  ∃ t key node, s.at? place = some t ∧ edit = .insert key node
    ∧ place ++ [t.mode.stored key] <+: path

/-- What is asked of the tree after an edit at a place of a tree. -/
structure IsOrderedEdit (s : Section) (place : List Text) (edit : Edit) (after : Section) :
    Prop where
  /-- No section has a key twice. -/
  distinct : after.Distinct
  /-- A section that was there and was not replaced by an inserted one has its keys in order. -/
  order : ∀ path t u, s.at? path = some t → after.at? path = some u →
    ¬ s.Replaced place edit path → KeepsOrder t.keys u.keys
  /-- A node that is inserted stands there as it is given. -/
  inserted : ∀ t key node, s.at? place = some t → edit = .insert key node →
    after.node? (place ++ [t.mode.stored key]) = some node
  /-- What is neither on the way to the place nor below it is left as it is. -/
  elsewhere : ∀ path, ¬ place <+: path → ¬ path <+: place → after.node? path = s.node? path

variable {s t u below : Section} {place path : List Text} {edit : Edit} {key : Text}

/-! ## Order -/

/-- Keys are in order where some of the old ones are left and new ones are behind them. -/
theorem keepsOrder_filter_append (old : List Text) (p : Text → Bool) {fresh : List Text}
    (hfresh : ∀ key ∈ fresh, key ∉ old) : KeepsOrder old (old.filter p ++ fresh) := by
  have hold : ∀ key ∈ old, key ∈ old.filter p ++ fresh → key ∈ old.filter p := by
    intro key hkey hmem
    rcases List.mem_append.mp hmem with hleft | hnew
    · exact hleft
    · exact absurd hkey (hfresh key hnew)
  constructor
  · intro a b hbefore ha hb
    have hpa := (List.mem_filter.mp (hold a (hbefore.subset (by simp)) ha)).2
    have hpb := (List.mem_filter.mp (hold b (hbefore.subset (by simp)) hb)).2
    have hfilter := hbefore.filter p
    rw [List.filter_cons_of_pos hpa, List.filter_cons_of_pos hpb, List.filter_nil] at hfilter
    exact hfilter.trans (List.sublist_append_left _ _)
  · intro a b haold ha hbold hb
    have hbfresh : b ∈ fresh := by
      rcases List.mem_append.mp hb with hleft | hnew
      · exact absurd (List.mem_filter.mp hleft).1 hbold
      · exact hnew
    exact (List.singleton_sublist.mpr (hold a haold ha)).append (List.singleton_sublist.mpr hbfresh)

theorem keepsOrder_append (old : List Text) {fresh : List Text} (hfresh : ∀ key ∈ fresh, key ∉ old) :
    KeepsOrder old (old ++ fresh) := by
  have h := keepsOrder_filter_append old (fun _ => true) hfresh
  rwa [List.filter_eq_self.mpr fun _ _ => rfl] at h

theorem KeepsOrder.refl (keys : List Text) : KeepsOrder keys keys := by
  have h := keepsOrder_append keys (List.forall_mem_nil fun key => key ∉ keys)
  rwa [List.append_nil] at h

theorem keepsOrder_put (mode : KeyCase) (entries : Entries Node) (key : Text) (node : Node) :
    KeepsOrder entries.keys (keys ⟨mode, entries.put key node⟩) := by
  show KeepsOrder entries.keys (entries.put key node).keys
  rw [Entries.keys_put]
  split
  · exact .refl _
  · rename_i hkey
    exact keepsOrder_append _ (by simpa using hkey)

theorem keepsOrder_erase (h : s.keys.Nodup) (key : Text) :
    KeepsOrder s.keys (s.erase key).keys := by
  have hkeys : (s.erase key).keys = s.keys.filter (· != key) := by
    rw [← h.erase_eq_filter]
    exact Entries.keys_erase key s.entries
  have hfilter := keepsOrder_filter_append s.keys (· != key)
    (List.forall_mem_nil fun key => key ∉ s.keys)
  rwa [List.append_nil, ← hkeys] at hfilter

/-- The keys at and below a section are in order if its own are and only one of its children is another
one, where that child is not on the path or is missing before or afterwards. -/
theorem KeepsOrder.at?_of_others {below' : Section} (hkeys : KeepsOrder t.keys u.keys)
    (hothers : ∀ other, other ≠ key → u.getSection? other = t.getSection? other)
    (hkey : ¬ [key] <+: path ∨ t.getSection? key = none ∨ u.getSection? key = none)
    (ht : t.at? path = some below) (hu : u.at? path = some below') :
    KeepsOrder below.keys below'.keys := by
  cases path with
  | nil =>
    obtain rfl := Option.some.inj ht
    obtain rfl := Option.some.inj hu
    exact hkeys
  | cons first rest =>
    rw [at?_cons] at ht hu
    have hne : first ≠ key := by
      rintro rfl
      rcases hkey with hnot | hnone | hnone
      · exact hnot (List.cons_prefix_cons.mpr ⟨rfl, List.nil_prefix⟩)
      · rw [hnone] at ht
        cases ht
      · rw [hnone] at hu
        cases hu
    rw [hothers first hne, ht] at hu
    rw [Option.some.inj hu]
    exact .refl _

/-! ## One section -/

theorem getSection?_erase_self (h : s.keys.Nodup) (key : Text) :
    (s.erase key).getSection? key = none := by
  rw [getSection?, get?, erase, Entries.get?_erase_self h]
  rfl

theorem getSection?_erase_ne {other : Text} (h : other ≠ key) :
    (s.erase key).getSection? other = s.getSection? other := by
  rw [getSection?, get?, erase, Entries.get?_erase_ne h]
  rfl

/-- The sections at and below the one that is edited keep the order of their keys. -/
theorem keepsOrder_perform? {below' : Section} (ht : t.Distinct)
    (hparts : ∀ part, edit.part? = some part → part.Distinct) (hu : edit.perform? t = some u)
    (hpath : ∀ key node, edit = .insert key node → ¬ [t.mode.stored key] <+: path)
    (hbelow : t.at? path = some below) (hbelow' : u.at? path = some below') :
    KeepsOrder below.keys below'.keys := by
  cases edit with
  | insert key node =>
    obtain rfl : t.insert key node = u := Option.some.inj hu
    have hkeys := keepsOrder_put t.mode t.entries (t.mode.stored key) node
    refine hkeys.at?_of_others ?_ (.inl (hpath key node rfl)) hbelow hbelow'
    exact fun other hne => (getSection?_put_node t _ other node).trans (if_neg hne)
  | erase key =>
    obtain rfl : t.erase key = u := Option.some.inj hu
    have hgone := getSection?_erase_self ht.nodup key
    refine (keepsOrder_erase ht.nodup key).at?_of_others ?_ (.inr (.inr hgone)) hbelow hbelow'
    exact fun other hne => getSection?_erase_ne hne
  | enter name =>
    rcases withSection?_cases hu with ⟨-, rfl⟩ | ⟨hnone, rfl⟩
    · rw [Option.some.inj (hbelow.symm.trans hbelow')]
      exact .refl _
    · have hkeys := keepsOrder_put t.mode t.entries name.lower
        (toNode ⟨t.mode.ofChild name.lower, []⟩)
      refine hkeys.at?_of_others ?_ (.inr (.inl (getSection?_of_none hnone))) hbelow hbelow'
      exact fun other hne => (getSection?_put_node t _ other _).trans (if_neg hne)
  | merge added =>
    obtain rfl : t.merge added = u := Option.some.inj hu
    obtain ⟨-, hkeys⟩ := at?_merge_of_at? (hparts added rfl) hbelow hbelow'
    rw [hkeys]
    exact keepsOrder_append _ fun key hkey => by simpa using (List.mem_filter.mp hkey).2

theorem Distinct.perform? (ht : t.Distinct)
    (hparts : ∀ part, edit.part? = some part → part.Distinct) (hu : edit.perform? t = some u) :
    u.mode = t.mode ∧ u.Distinct := by
  have hfollows := ht.follows none
  cases edit with
  | insert key node =>
    obtain rfl : t.insert key node = u := Option.some.inj hu
    refine ⟨rfl, ?_⟩
    cases node with
    | scalar value => exact (hfollows.put_scalar trivial).distinct
    | subsection mode entries =>
      have hpart := hparts ⟨mode, entries⟩ rfl
      exact (hfollows.put_section trivial (hpart.follows _)).distinct
  | erase key =>
    obtain rfl : t.erase key = u := Option.some.inj hu
    exact ⟨rfl, (hfollows.erase key).distinct⟩
  | enter name =>
    obtain ⟨hmode, hnew⟩ := hfollows.withSection? trivial hu
    exact ⟨hmode, hnew.distinct⟩
  | merge added =>
    obtain rfl : t.merge added = u := Option.some.inj hu
    exact ⟨rfl, ht.merge (hparts added rfl)⟩

/-! ## The tree -/

/-- An edit puts the edited section in its place, or changes nothing. -/
theorem edited_cases (s : Section) (place : List Text) (edit : Edit) :
    (∃ t u, s.at? place = some t ∧ edit.perform? t = some u
        ∧ s.edited place edit = s.replaceAt place u)
      ∨ (∀ t, s.at? place = some t → edit.perform? t = none) ∧ s.edited place edit = s := by
  rw [edited]
  cases hat : s.at? place with
  | none =>
    rw [modifyAt?_of_none hat]
    exact .inr ⟨by simp, rfl⟩
  | some t =>
    rw [modifyAt?_eq hat]
    cases hu : edit.perform? t with
    | none => exact .inr ⟨by simp [hu], rfl⟩
    | some u => exact .inl ⟨t, u, rfl, hu, rfl⟩

/-- What stands neither on the way to a place nor below it is not touched when a section is put
there. -/
theorem node?_replaceAt_elsewhere (hbelow : ¬ place <+: path) (habove : ¬ path <+: place)
    (s new : Section) : (s.replaceAt place new).node? path = s.node? path := by
  induction place generalizing s path with
  | nil => exact absurd List.nil_prefix hbelow
  | cons key place ih =>
    cases path with
    | nil => exact absurd List.nil_prefix habove
    | cons k path =>
      cases hchild : s.getSection? key with
      | none => simp only [replaceAt, hchild]
      | some child =>
        simp only [replaceAt, hchild]
        by_cases hk : k = key
        · subst hk
          rw [List.cons_prefix_cons, and_iff_right rfl] at hbelow habove
          rw [node?_cons_of_section (getSection?_put _ _ _), node?_cons_of_section hchild]
          exact ih hbelow habove child
        · rw [node?, node?, get?, Entries.get?_put_ne hk]
          rfl

theorem at?_replaceAt_elsewhere (hbelow : ¬ place <+: path) (habove : ¬ path <+: place)
    (s new : Section) : (s.replaceAt place new).at? path = s.at? path := by
  apply Option.ext
  intro t
  rw [← node?_eq_toNode_iff, ← node?_eq_toNode_iff, node?_replaceAt_elsewhere hbelow habove]

/-- A section on the way to a place has the same keys when another one is put there. -/
theorem keys_replaceAt_cons (s : Section) (key : Text) (rest : List Text) (new : Section) :
    (s.replaceAt (key :: rest) new).keys = s.keys := by
  cases hchild : s.getSection? key with
  | none => simp only [replaceAt, hchild]
  | some child =>
    have hmem := Entries.mem_keys_of_mem (Entries.mem_of_get? (getSection?_eq_some_iff.mp hchild))
    simp only [replaceAt, hchild]
    exact Entries.keys_put_of_mem hmem _

/-- The sections of a tree keep the order of their keys when one of them is replaced by one that does
so at and below its place. -/
theorem keepsOrder_replaceAt {below' : Section} (hat : s.at? place = some t)
    (horder : ∀ rest, path = place ++ rest → t.at? rest = some below → u.at? rest = some below' →
      KeepsOrder below.keys below'.keys)
    (hs : s.at? path = some below) (hafter : (s.replaceAt place u).at? path = some below') :
    KeepsOrder below.keys below'.keys := by
  by_cases hbelow : place <+: path
  · obtain ⟨rest, rfl⟩ := hbelow
    rw [at?_append, hat, Option.bind_some] at hs
    rw [at?_append, at?_replaceAt hat, Option.bind_some] at hafter
    exact horder rest rfl hs hafter
  · by_cases habove : path <+: place
    · obtain ⟨rest, rfl⟩ := habove
      cases rest with
      | nil => exact absurd (by simp) hbelow
      | cons key rest =>
        rw [replaceAt_append hs, at?_replaceAt hs] at hafter
        rw [← Option.some.inj hafter, keys_replaceAt_cons]
        exact .refl _
    · rw [at?_replaceAt_elsewhere hbelow habove, hs] at hafter
      obtain rfl := Option.some.inj hafter
      exact .refl _

/-- An edit that brings in a tree with distinct keys keeps a tree with distinct keys in order. -/
theorem isOrderedEdit_of_distinct (hs : s.Distinct) (place : List Text)
    (hparts : ∀ part, edit.part? = some part → part.Distinct) :
    IsOrderedEdit s place edit (s.edited place edit) := by
  rcases edited_cases s place edit with ⟨t, u, hat, hu, hedited⟩ | ⟨hnone, hedited⟩
  · have ht : t.Distinct := ((hs.follows none).at hat).distinct
    obtain ⟨hmode, hnew⟩ := ht.perform? hparts hu
    rw [hedited]
    constructor
    · exact ((hs.follows none).replaceAt hat hmode (hnew.follows _)).distinct
    · intro path below below' hbelow hbelow' hreplaced
      refine keepsOrder_replaceAt hat ?_ hbelow hbelow'
      intro rest hpath
      refine keepsOrder_perform? ht hparts hu ?_
      intro key node hinsert hprefix
      refine hreplaced ⟨t, key, node, hat, hinsert, ?_⟩
      rw [hpath]
      exact (List.prefix_append_right_inj place).mpr hprefix
    · intro t' key node hat' hinsert
      obtain rfl := Option.some.inj (hat.symm.trans hat')
      subst hinsert
      obtain rfl : t.insert key node = u := Option.some.inj hu
      rw [node?_concat, at?_replaceAt hat, Option.bind_some]
      exact Entries.get?_put_self (t.mode.stored key) node t.entries
    · intro path hbelow habove
      exact node?_replaceAt_elsewhere hbelow habove s u
  · rw [hedited]
    constructor
    · exact hs
    · intro path below below' hbelow hbelow' _
      obtain rfl := Option.some.inj (hbelow.symm.trans hbelow')
      exact .refl _
    · intro t key node hat hinsert
      subst hinsert
      cases hnone t hat
    · intro path _ _
      rfl

theorem Built.distinct (h : s.Built) : s.Distinct := by
  induction h with
  | empty mode => exact (follows_empty (.ofKeys fun _ _ => True) none mode).distinct
  | edited place edit _ _ hs hparts => exact (isOrderedEdit_of_distinct hs place hparts).distinct

/-- An edit of a tree that edits made of an empty section leaves all sections of it in order. -/
theorem Built.isOrderedEdit (hs : s.Built) (place : List Text) (edit : Edit)
    (hparts : ∀ part, edit.part? = some part → part.Built) :
    IsOrderedEdit s place edit (s.edited place edit) :=
  isOrderedEdit_of_distinct hs.distinct place fun part hpart => (hparts part hpart).distinct

/-- A tree with a section between two scalars. -/
def betweenTree : Section :=
  ((((⟨.fold, []⟩ : Section).edited [] (.insert ['X'] (.scalar ['1']))).edited []
    (.enter ['F'])).edited [['f']] (.insert ['n'] (.scalar ['a']))).edited []
    (.insert ['y'] (.scalar ['2']))

/-- A tree with the same section behind a scalar of another key. -/
def behindTree : Section :=
  ((((⟨.fold, []⟩ : Section).edited [] (.insert ['z'] (.scalar ['3']))).edited []
    (.enter ['f'])).edited [['f']] (.insert ['d'] (.scalar ['c']))).edited [['f']]
    (.insert ['n'] (.scalar ['b']))

theorem built_betweenTree : betweenTree.Built := by
  apply Built.edited [] _ _ (by rintro part ⟨⟩)
  apply Built.edited [['f']] _ _ (by rintro part ⟨⟩)
  apply Built.edited [] _ _ (by rintro part ⟨⟩)
  apply Built.edited [] _ _ (by rintro part ⟨⟩)
  exact .empty .fold

theorem built_behindTree : behindTree.Built := by
  apply Built.edited [['f']] _ _ (by rintro part ⟨⟩)
  apply Built.edited [['f']] _ _ (by rintro part ⟨⟩)
  apply Built.edited [] _ _ (by rintro part ⟨⟩)
  apply Built.edited [] _ _ (by rintro part ⟨⟩)
  exact .empty .fold

/-- The section is merged where it stands, and the other key comes behind all that were there. -/
theorem isOrderedEdit_merge_behindTree :
    betweenTree.Built ∧ behindTree.Built
      ∧ IsOrderedEdit betweenTree [] (.merge behindTree)
        ⟨.fold, [(['x'], .scalar ['1']),
          (['f'], .subsection .fold [(['n'], .scalar ['b']), (['d'], .scalar ['c'])]),
          (['y'], .scalar ['2']),
          (['z'], .scalar ['3'])]⟩ := by
  refine ⟨built_betweenTree, built_behindTree, ?_⟩
  apply built_betweenTree.isOrderedEdit [] (.merge behindTree)
  rintro part ⟨⟩
  exact built_behindTree

end Section

end WorkflowControl
