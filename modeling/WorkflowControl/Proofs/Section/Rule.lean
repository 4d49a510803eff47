import WorkflowControl.Proofs.Section.Place

/-!
Rules for the entries of a section, and trees all of whose sections follow one. A rule looks at one
entry and at what stands around it, but not at what is inside a child. So a tree goes on to follow
a rule when a section in it is replaced by one that follows it (`Follows.replaceAt`), and writing
into a section has to be checked for the entry that is written only (`Follows.put_scalar`,
`Follows.put_section`).
-/

namespace WorkflowControl

namespace Section

/-- What is asked of the entries of a section. -/
structure Rule where
  /-- What is asked of a scalar: by the mode of its section, its key and its value. -/
  scalar : KeyCase → Text → Text → Prop
  /-- What is asked of a child section: by the key of the section it stands in, if that is not the
  root, the mode of that section, its own key and its own mode. -/
  child : Option Text → KeyCase → Text → KeyCase → Prop

/-- Whether the entries of a section that has the key `own` obey a rule under distinct keys. -/
structure Obeys (rule : Rule) (own : Option Text) (s : Section) : Prop where
  nodup : s.keys.Nodup
  scalar : ∀ key value, s.getScalar? key = some value → rule.scalar s.mode key value
  child : ∀ key child, s.getSection? key = some child → rule.child own s.mode key child.mode

/-- Whether a section that has the key `own` and all sections below it obey a rule. -/
def Follows (rule : Rule) (own : Option Text) (s : Section) : Prop :=
  ∀ path t, s.at? path = some t → t.Obeys rule (path.getLast?.or own)

/-- What holds of a section if it holds of its children holds of every section. -/
theorem induct {motive : Section → Prop}
    (step : ∀ s : Section, (∀ key child, (key, child.toNode) ∈ s.entries → motive child) → motive s)
    (s : Section) : motive s :=
  step s fun key child hmem =>
    have hlt : sizeOf child < sizeOf s := by
      have hentry := List.sizeOf_lt_of_mem hmem
      obtain ⟨mode, entries⟩ := child
      obtain ⟨mode', entries'⟩ := s
      simp only [toNode, Prod.mk.sizeOf_spec, Node.subsection.sizeOf_spec, mk.sizeOf_spec]
        at hentry ⊢
      omega
    induct step child
termination_by sizeOf s
decreasing_by exact hlt

section

variable {rule : Rule} {own : Option Text} {s : Section}

theorem getLast?_cons_or (key : Text) (path : List Text) (own : Option Text) :
    (key :: path).getLast?.or own = path.getLast?.or (some key) := by
  rw [List.getLast?_cons]
  cases path.getLast? <;> rfl

theorem follows_iff :
    s.Follows rule own
      ↔ s.Obeys rule own ∧ ∀ key child, s.getSection? key = some child →
          child.Follows rule (some key) := by
  constructor
  · intro h
    refine ⟨h [] s rfl, fun key child hchild path t ht => ?_⟩
    rw [← getLast?_cons_or key path own]
    refine h (key :: path) t ?_
    rw [at?_cons, hchild, Option.bind_some, ht]
  · intro ⟨hroot, hbelow⟩ path t ht
    cases path with
    | nil =>
      obtain rfl := Option.some.inj ht
      exact hroot
    | cons key path =>
      rw [at?_cons] at ht
      obtain ⟨child, hchild, ht⟩ := Option.bind_eq_some_iff.mp ht
      rw [getLast?_cons_or]
      exact hbelow key child hchild path t ht

theorem Follows.obeys (h : s.Follows rule own) : s.Obeys rule own := (follows_iff.mp h).1

theorem Follows.child {key : Text} {child : Section} (h : s.Follows rule own)
    (hchild : s.getSection? key = some child) : child.Follows rule (some key) :=
  (follows_iff.mp h).2 key child hchild

theorem Follows.at {path : List Text} {t : Section} (h : s.Follows rule own)
    (ht : s.at? path = some t) : t.Follows rule (path.getLast?.or own) := by
  induction path generalizing s own with
  | nil =>
    obtain rfl := Option.some.inj ht
    exact h
  | cons key path ih =>
    rw [at?_cons] at ht
    obtain ⟨child, hchild, ht⟩ := Option.bind_eq_some_iff.mp ht
    rw [getLast?_cons_or]
    exact ih (h.child hchild) ht

/-- A tree that follows a rule follows every one that asks for less. -/
theorem Follows.mono {weaker : Rule} (h : s.Follows rule own)
    (hscalar : ∀ mode key value, rule.scalar mode key value → weaker.scalar mode key value)
    (hchild : ∀ own mode key childMode, rule.child own mode key childMode →
      weaker.child own mode key childMode) : s.Follows weaker own := by
  intro path t ht
  obtain ⟨hnodup, hs, hc⟩ := h path t ht
  exact ⟨hnodup, fun key value hv => hscalar _ _ _ (hs key value hv),
    fun key child hk => hchild _ _ _ _ (hc key child hk)⟩

/-- A tree that follows two rules follows the one that asks for what they ask for together. -/
theorem Follows.and {other both : Rule} (h : s.Follows rule own) (ho : s.Follows other own)
    (hscalar : ∀ mode key value, rule.scalar mode key value → other.scalar mode key value →
      both.scalar mode key value)
    (hchild : ∀ own mode key childMode, rule.child own mode key childMode →
      other.child own mode key childMode → both.child own mode key childMode) :
    s.Follows both own := by
  intro path t ht
  obtain ⟨hnodup, hs, hc⟩ := h path t ht
  obtain ⟨-, hs', hc'⟩ := ho path t ht
  exact ⟨hnodup, fun key value hv => hscalar _ _ _ (hs key value hv) (hs' key value hv),
    fun key child hk => hchild _ _ _ _ (hc key child hk) (hc' key child hk)⟩

theorem follows_empty (rule : Rule) (own : Option Text) (mode : KeyCase) :
    Follows rule own ⟨mode, []⟩ := by
  refine follows_iff.mpr ⟨⟨List.nodup_nil, ?_, ?_⟩, ?_⟩
  · intro key value h
    cases h
  · intro key child h
    cases h
  · intro key child h
    cases h

/-! ## Checking -/

end

section

variable (rule : Rule) [∀ mode key value, Decidable (rule.scalar mode key value)]
  [∀ own mode key childMode, Decidable (rule.child own mode key childMode)]

mutual

/-- Whether the node under `key` and what is below it obeys a rule, in a section with the key `own`
and the given mode. -/
def nodeFollows (own : Option Text) (mode : KeyCase) (key : Text) : Node → Bool
  | .scalar value => decide (rule.scalar mode key value)
  | .subsection childMode entries =>
    decide (rule.child own mode key childMode) && decide (Entries.keys entries).Nodup
      && entriesFollow (some key) childMode entries
termination_by structural n => n

/-- Whether entries and what is below them obey a rule. -/
def entriesFollow (own : Option Text) (mode : KeyCase) : List (Text × Node) → Bool
  | [] => true
  | (key, node) :: rest => nodeFollows own mode key node && entriesFollow own mode rest
termination_by structural es => es

end

theorem entriesFollow_iff {own : Option Text} {mode : KeyCase} {entries : Entries Node} :
    entriesFollow rule own mode entries = true
      ↔ ∀ key node, (key, node) ∈ entries → nodeFollows rule own mode key node = true := by
  induction entries with
  | nil => simp [entriesFollow]
  | cons e rest ih =>
    obtain ⟨k, n⟩ := e
    rw [entriesFollow, Bool.and_eq_true, ih]
    constructor
    · intro ⟨hfirst, hrest⟩ key node hmem
      rcases List.mem_cons.mp hmem with heq | hmem
      · obtain ⟨rfl, rfl⟩ := Prod.mk.inj heq
        exact hfirst
      · exact hrest key node hmem
    · intro h
      exact ⟨h k n (by simp), fun key node hmem => h key node (List.mem_cons_of_mem _ hmem)⟩

/-- Following a rule can be checked entry by entry. -/
theorem follows_iff_check {own : Option Text} {s : Section} :
    s.keys.Nodup ∧ entriesFollow rule own s.mode s.entries = true ↔ s.Follows rule own := by
  induction s using induct generalizing own with
  | step s ih =>
    rw [follows_iff, entriesFollow_iff]
    constructor
    · intro h
      obtain ⟨hnodup, hcheck⟩ := h
      refine ⟨⟨hnodup, fun key value hv => ?_, fun key child hc => ?_⟩, fun key child hc => ?_⟩
      · have hmem := Entries.mem_of_get? (getScalar?_eq_some_iff.mp hv)
        simpa [nodeFollows] using hcheck key _ hmem
      · have hmem := Entries.mem_of_get? (getSection?_eq_some_iff.mp hc)
        have hnode := hcheck key _ hmem
        simp only [toNode, nodeFollows, Bool.and_eq_true, decide_eq_true_eq] at hnode
        exact hnode.1.1
      · have hmem := Entries.mem_of_get? (getSection?_eq_some_iff.mp hc)
        have hnode := hcheck key _ hmem
        simp only [toNode, nodeFollows, Bool.and_eq_true, decide_eq_true_eq] at hnode
        exact (ih key child hmem).mp ⟨hnode.1.2, hnode.2⟩
    · intro h
      obtain ⟨⟨hnodup, hscalar, hchild⟩, hbelow⟩ := h
      refine ⟨hnodup, fun key node hmem => ?_⟩
      have hget := (Entries.get?_eq_some_iff hnodup).mpr hmem
      cases node with
      | scalar value =>
        exact decide_eq_true (hscalar key value (getScalar?_eq_some_iff.mpr hget))
      | subsection mode entries =>
        have hsection : s.getSection? key = some ⟨mode, entries⟩ :=
          getSection?_eq_some_iff.mpr hget
        obtain ⟨hkeys, hentries⟩ := (ih key ⟨mode, entries⟩ hmem).mpr (hbelow key _ hsection)
        simp only [nodeFollows, Bool.and_eq_true, decide_eq_true_eq]
        exact ⟨⟨hchild key _ hsection, hkeys⟩, hentries⟩

instance (own : Option Text) (s : Section) : Decidable (s.Follows rule own) :=
  decidable_of_iff _ (follows_iff_check rule)

end

section

variable {rule : Rule} {own : Option Text} {s : Section}

/-! ## Writing -/

theorem getScalar?_put (s : Section) (key other : Text) (node : Node) :
    getScalar? { s with entries := s.entries.put key node } other
      = if other = key then node.scalar? else s.getScalar? other := by
  rw [getScalar?, get?, Entries.get?_put]
  split <;> rfl

theorem getSection?_put_node (s : Section) (key other : Text) (node : Node) :
    getSection? { s with entries := s.entries.put key node } other
      = if other = key then node.section? else s.getSection? other := by
  rw [getSection?, get?, Entries.get?_put]
  split <;> rfl

/-- An entry that is written asks the rule about that entry only. -/
theorem Follows.put_node {key : Text} {node : Node} (h : s.Follows rule own)
    (hscalar : ∀ value, node.scalar? = some value → rule.scalar s.mode key value)
    (hsection : ∀ new, node.section? = some new →
      rule.child own s.mode key new.mode ∧ new.Follows rule (some key)) :
    Follows rule own { s with entries := s.entries.put key node } := by
  obtain ⟨⟨hnodup, hscalars, hchild⟩, hbelow⟩ := follows_iff.mp h
  have hsections : ∀ other child,
      getSection? { s with entries := s.entries.put key node } other = some child →
      rule.child own s.mode other child.mode ∧ child.Follows rule (some other) := by
    intro other child hc
    rw [getSection?_put_node] at hc
    split at hc
    · rename_i hkey
      exact hkey ▸ hsection child hc
    · exact ⟨hchild other child hc, hbelow other child hc⟩
  refine follows_iff.mpr ⟨⟨Entries.nodup_keys_put hnodup key _, ?_,
    fun other child hc => (hsections other child hc).1⟩,
    fun other child hc => (hsections other child hc).2⟩
  intro other value hv
  rw [getScalar?_put] at hv
  split at hv
  · rename_i hkey
    exact hkey ▸ hscalar value hv
  · exact hscalars other value hv

theorem Follows.put_scalar {key value : Text} (h : s.Follows rule own)
    (hentry : rule.scalar s.mode key value) :
    Follows rule own { s with entries := s.entries.put key (.scalar value) } := by
  refine h.put_node (fun v hv => ?_) nofun
  obtain rfl := Option.some.inj hv
  exact hentry

theorem Follows.put_section {key : Text} {new : Section} (h : s.Follows rule own)
    (hentry : rule.child own s.mode key new.mode) (hnew : new.Follows rule (some key)) :
    Follows rule own { s with entries := s.entries.put key new.toNode } := by
  refine h.put_node nofun fun child hc => ?_
  obtain rfl := Option.some.inj hc
  exact ⟨hentry, hnew⟩

theorem Follows.withSection? {name : Text} {new : Section} (h : s.Follows rule own)
    (hentry : rule.child own s.mode name.lower (s.mode.ofChild name.lower))
    (hnew : s.withSection? name = some new) : new.mode = s.mode ∧ new.Follows rule own := by
  rcases withSection?_cases hnew with ⟨-, rfl⟩ | ⟨-, rfl⟩
  · exact ⟨rfl, h⟩
  · exact ⟨rfl, h.put_section hentry (follows_empty rule _ _)⟩

/-- Dropping an entry leaves nothing that the rule was not checked for. -/
theorem Follows.erase (h : s.Follows rule own) (key : Text) : (s.erase key).Follows rule own := by
  obtain ⟨⟨hnodup, hscalar, hchild⟩, hbelow⟩ := follows_iff.mp h
  have hkept : ∀ other node, (s.erase key).get? other = some node → s.get? other = some node := by
    intro other node hnode
    have hmem := Entries.mem_of_mem_erase (Entries.mem_of_get? hnode)
    exact (Entries.get?_eq_some_iff hnodup).mpr hmem
  have hsection : ∀ other child, (s.erase key).getSection? other = some child →
      s.getSection? other = some child := fun other child hc =>
    getSection?_eq_some_iff.mpr (hkept other _ (getSection?_eq_some_iff.mp hc))
  refine follows_iff.mpr ⟨⟨Entries.nodup_keys_erase hnodup key, ?_, ?_⟩, ?_⟩
  · intro other value hv
    exact hscalar other value (getScalar?_eq_some_iff.mpr
      (hkept other _ (getScalar?_eq_some_iff.mp hv)))
  · exact fun other child hc => hchild other child (hsection other child hc)
  · exact fun other child hc => hbelow other child (hsection other child hc)

theorem mode_replaceAt {path : List Text} {root new : Section} (hat : root.at? path = some s)
    (hmode : new.mode = s.mode) : (root.replaceAt path new).mode = root.mode := by
  cases path with
  | nil =>
    obtain rfl := Option.some.inj hat
    exact hmode
  | cons key path =>
    rw [replaceAt]
    split <;> rfl

/-- A section in a tree can be replaced by one that follows the rule of the tree. -/
theorem Follows.replaceAt {path : List Text} {root new : Section} (h : root.Follows rule own)
    (hat : root.at? path = some s) (hmode : new.mode = s.mode)
    (hnew : new.Follows rule (path.getLast?.or own)) :
    (root.replaceAt path new).Follows rule own := by
  induction path generalizing root own with
  | nil => exact hnew
  | cons key path ih =>
    rw [at?_cons] at hat
    obtain ⟨child, hchild, hat⟩ := Option.bind_eq_some_iff.mp hat
    rw [getLast?_cons_or] at hnew
    have hbelow := ih (h.child hchild) hat hnew
    simp only [Section.replaceAt, hchild]
    refine h.put_section ?_ hbelow
    rw [mode_replaceAt hat hmode]
    exact h.obeys.child key child hchild

end

end Section

end WorkflowControl
