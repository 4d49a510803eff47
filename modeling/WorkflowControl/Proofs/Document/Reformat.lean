import WorkflowControl.Proofs.Document.Reread

/-!
Printing a document that was read. The text is read as the same document if and only if the tree
follows the rule `reformattable` (`readText_print_iff`). What has to be shown besides the
restrictions on keys and values is that tags nest. A section whose key begins with a slash is
printed as two closing tags, so one tag too many is closed (`not_slashed_of_readLines`). A section in one
of its own name is refused when its tag is read (`shows_notNested`).
-/

namespace WorkflowControl

namespace Line

/-- How many sections a line opens. -/
def opens : Line → Nat
  | openSection _ none => 1
  | openSection _ (some _) => 2
  | _ => 0

/-- How many tags a line closes. -/
def closes : Line → Nat
  | close _ => 1
  | _ => 0

/-- What is counted in the lines together. -/
def total (count : Line → Nat) : List Line → Nat
  | [] => 0
  | l :: ls => count l + total count ls

end Line

namespace ReadState

variable {st st' : ReadState} {pos : Position}

theorem openSections_of_enter {opened : OpenSection} (h : st.enter pos opened = .ok st') :
    st'.openSections = opened :: st.openSections := by
  obtain ⟨cur, new, -, -, rfl⟩ := enter_eq_ok h
  rfl

theorem length_of_openTag {key : Text} {label : Option Text}
    (h : st.openTag pos key label = .ok st') :
    st'.openSections.length = st.openSections.length + (Line.openSection key label).opens := by
  obtain ⟨-, opened, henter, hlabel⟩ := openTag_eq_ok h
  have hopened := openSections_of_enter henter
  cases label with
  | none =>
    rw [hlabel, hopened]
    rfl
  | some label =>
    rw [openSections_of_enter hlabel, hopened]
    rfl

theorem length_of_closeTag {key : Text} (h : st.closeTag pos key = .ok st') :
    st'.openSections.length < st.openSections.length := by
  unfold closeTag at h
  split at h
  · cases h
  · rename_i top hopen
    split at h
    · rw [← Except.ok.inj h, hopen]
      exact Nat.zero_lt_one
    · cases h
  · rename_i top below rest hopen
    rw [hopen, List.length_cons, List.length_cons]
    split at h
    · rw [← Except.ok.inj h]
      exact Nat.lt_succ_self _
    · split at h
      · split at h
        · rw [← Except.ok.inj h]
          show rest.length < _
          omega
        · cases h
      · cases h

/-- The tag of the innermost open section closes that section only. -/
theorem openSections_of_closeTag {key : Text} {rest : List OpenSection}
    (hopen : st.openSections = ⟨key, false⟩ :: rest) (h : st.closeTag pos key = .ok st') :
    st'.openSections = rest := by
  unfold closeTag at h
  rw [hopen] at h
  cases rest with
  | nil =>
    simp only [if_true] at h
    rw [← Except.ok.inj h]
  | cons below rest =>
    simp only [if_true] at h
    rw [← Except.ok.inj h]

end ReadState

namespace DocumentReader

open Line Section Text TreeLine

variable {reader : DocumentReader} {nested : Option TreeReader} {file : Text} {indent : Nat}
  {s : Section} {again : Document}

/-! ## Tags that are closed -/

/-- Each closing tag that is read closes a section that a line opened. -/
theorem closes_le_of_readLine {line : LogicalLine} {st st' : ReadState}
    (hdirective : ¬ (classify line.text).IsDirective)
    (hok : (reader.readLine nested file line st).outcome = .ok st') :
    st'.openSections.length + (classify line.text).closes
      ≤ st.openSections.length + (classify line.text).opens := by
  unfold readLine at hok
  cases hline : classify line.text with
  | includeFile target =>
    rw [hline] at hdirective
    exact absurd trivial hdirective
  | includeCall body =>
    rw [hline] at hdirective
    exact absurd trivial hdirective
  | close key =>
    rw [hline] at hok
    have hlt := ReadState.length_of_closeTag hok
    show _ + 1 ≤ _ + 0
    omega
  | openSection key label =>
    rw [hline] at hok
    rw [ReadState.length_of_openTag hok]
    exact Nat.le_refl _
  | pair key value =>
    rw [hline] at hok
    obtain ⟨cur, -, rfl⟩ := ReadState.insertPair_eq_ok hok
    exact Nat.le_refl _
  | unmatched =>
    rw [hline] at hok
    obtain rfl := Except.ok.inj hok
    exact Nat.le_refl _

theorem closes_le_of_readLines {ls : List LogicalLine} {st st' : ReadState}
    (hdirective : ∀ l ∈ ls, ¬ (classify l.text).IsDirective)
    (hok : (reader.readLines nested file ls st).outcome = .ok st') :
    st'.openSections.length + total closes (ls.map fun l => classify l.text)
      ≤ st.openSections.length + total opens (ls.map fun l => classify l.text) := by
  induction ls generalizing st with
  | nil =>
    obtain rfl := Except.ok.inj hok
    exact Nat.le_refl _
  | cons line rest ih =>
    rw [readLines_cons] at hok
    obtain ⟨next, hline, hrest⟩ := Reading.andThen_eq_ok hok
    have hfirst := closes_le_of_readLine (hdirective line (by simp)) hline
    have hothers := ih (fun l hl => hdirective l (List.mem_cons_of_mem _ hl)) hrest
    rw [List.map_cons, total, total]
    omega

end DocumentReader

namespace TreeLine

open Line Text

/-- Whether a line opens a section. -/
def isOpening : TreeLine → Bool
  | opening _ => true
  | _ => false

/-- Whether a line closes a section. -/
def isClosing : TreeLine → Bool
  | closing _ => true
  | _ => false

/-- Whether a line opens a section whose key is a slash and more. -/
def slashed : TreeLine → Bool
  | opening key => key.head? == some '/' && !key.tail.isEmpty
  | _ => false

/-- What a line is read as. An opening tag whose key is a slash and more is a closing one. -/
def said : TreeLine → Line
  | pair key value => .pair key value
  | opening key =>
    if slashed (opening key) then .close (Text.lower key.tail) else .openSection key.lower none
  | closing key => .close key.lower

theorem said_of_slashed {key : Text} (h : slashed (opening key) = true) :
    (opening key).said = .close (Text.lower key.tail) := if_pos h

theorem said_of_not_slashed {key : Text} (h : slashed (opening key) = false) :
    (opening key).said = .openSection key.lower none := by
  show (if slashed (opening key) then _ else _) = _
  rw [h]
  rfl

theorem slashed_opening_iff {key : Text} :
    slashed (opening key) = true ↔ key.head? = some '/' ∧ key.tail ≠ [] := by
  simp [slashed]

theorem classify_opening {key : Text} (hk : IsWord key) :
    classify (openTag key) = (opening key).said := by
  cases hslashed : slashed (opening key) with
  | true =>
    obtain ⟨hhead, htail⟩ := slashed_opening_iff.mp hslashed
    rw [said_of_slashed hslashed]
    exact classify_openTag_slash hk hhead htail
  | false =>
    rw [said_of_not_slashed hslashed]
    refine classify_openTag hk fun hhead => ?_
    by_cases htail : key.tail = []
    · exact htail
    · rw [slashed_opening_iff.mpr ⟨hhead, htail⟩] at hslashed
      cases hslashed

theorem closes_said (l : TreeLine) :
    l.said.closes = l.isClosing.toNat + l.slashed.toNat := by
  cases l with
  | pair key value => rfl
  | opening key =>
    cases hslashed : slashed (opening key) with
    | true => rw [said_of_slashed hslashed]; rfl
    | false => rw [said_of_not_slashed hslashed]; rfl
  | closing key => rfl

theorem opens_said (l : TreeLine) :
    l.said.opens + l.slashed.toNat = l.isOpening.toNat := by
  cases l with
  | pair key value => rfl
  | opening key =>
    cases hslashed : slashed (opening key) with
    | true => rw [said_of_slashed hslashed]; rfl
    | false => rw [said_of_not_slashed hslashed]; rfl
  | closing key => rfl

/-- Lines that open as many sections as they close are read as more closing tags than opening ones
if a key is a slash and more. -/
theorem total_said (ls : List TreeLine) :
    total closes (ls.map said) = ls.countP isClosing + ls.countP slashed
      ∧ total opens (ls.map said) + ls.countP slashed = ls.countP isOpening := by
  induction ls with
  | nil => exact ⟨rfl, rfl⟩
  | cons l ls ih =>
    obtain ⟨hcloses, hopens⟩ := ih
    have hone : ∀ p : TreeLine → Bool, (l :: ls).countP p = ls.countP p + (p l).toNat := by
      intro p
      rw [List.countP_cons]
      cases p l <;> rfl
    have hclose := closes_said l
    have hopen := opens_said l
    rw [List.map_cons, total, total, hone, hone, hone]
    omega

end TreeLine

namespace Section

/-- A tree has as many opening tags as closing tags. -/
theorem countP_isOpening_lines (s : Section) (level : Nat) :
    ((s.lines level).map Prod.snd).countP TreeLine.isOpening
      = ((s.lines level).map Prod.snd).countP TreeLine.isClosing := by
  induction s using Section.induct generalizing level with
  | step s ih =>
    rw [lines, Node.entriesLines_eq_flatMap, List.map_flatMap, List.countP_flatMap,
      List.countP_flatMap]
    refine congrArg List.sum (List.map_congr_left fun e he => ?_)
    obtain ⟨key, node⟩ := e
    cases node with
    | scalar value => rfl
    | subsection mode entries =>
      have hinner := ih key ⟨mode, entries⟩ he (level + 1)
      show (((⟨mode, entries⟩ : Section).toNode.lines level key).map Prod.snd).countP _
        = (((⟨mode, entries⟩ : Section).toNode.lines level key).map Prod.snd).countP _
      rw [lines_toNode, List.map_cons, List.map_append, List.countP_cons, List.countP_cons,
        List.countP_append, List.countP_append, hinner]
      rfl

end Section

namespace DocumentReader

open Line Section Text TreeLine

variable {reader : DocumentReader} {nested : Option TreeReader} {file : Text} {indent : Nat}
  {s : Section} {again : Document}

/-- A tree whose lines are read until all sections are closed has no key that is a slash and more.
-/
theorem not_slashed_of_readLines {ls : List LogicalLine} {st : ReadState} {root : Section}
    (hclosed : st.openSections = [])
    (htext : ls.map LogicalLine.text = (s.lines 0).map fun l => l.2.spelled)
    (hsaid : ∀ l ∈ s.lines 0, classify l.2.spelled = l.2.said)
    (hdirective : ∀ l ∈ ls, ¬ (classify l.text).IsDirective)
    (hok : (reader.readLines nested file ls st).outcome = .ok { root := root }) :
    ∀ l ∈ s.lines 0, l.2.slashed = false := by
  have hlines : ls.map (fun l => classify l.text) = ((s.lines 0).map Prod.snd).map said := by
    have hleft : ls.map (fun l => classify l.text) = (ls.map LogicalLine.text).map classify := by
      rw [List.map_map]
      rfl
    rw [hleft, htext, List.map_map, List.map_map]
    exact List.map_congr_left hsaid
  have hle := closes_le_of_readLines hdirective hok
  rw [hlines, hclosed] at hle
  obtain ⟨hcloses, hopens⟩ := total_said ((s.lines 0).map Prod.snd)
  have hbalanced := s.countP_isOpening_lines 0
  -- Each slashed key would close one tag more and open one less than the tree has.
  have hnone : ((s.lines 0).map Prod.snd).countP slashed = 0 := by
    simp only [List.length_nil] at hle
    omega
  intro l hl
  have hnot := List.countP_eq_zero.mp hnone l.2 (List.mem_map_of_mem hl)
  exact eq_false_of_ne_true hnot

/-! ## Sections in one of their own name -/

/-- No section stands in one of its own key. -/
def notNested : Rule where
  scalar _ _ _ := True
  child own _ key _ := own ≠ some key

/-- The lines of every entry say what they were written for. -/
def spoken : Rule where
  scalar _ key value := classify (pairText key value) = .pair key value
  child _ _ key _ :=
    classify (openTag key) = .openSection key none ∧ classify (closeTag key) = .close key

/-- Whether lines show a fact when they are read to the end in a section of the key `own`: if reading
goes on to `final`, the fact holds, and the lines leave the open sections as they were. -/
def Shows (reader : DocumentReader) (nested : Option TreeReader) (file : Text) (final : ReadState)
    (own : Option Text) (texts : List Text) (fact : Prop) : Prop :=
  ∀ (st : ReadState) (ls rest : List LogicalLine),
    st.openSections.head?.map OpenSection.key = own → ls.map LogicalLine.text = texts →
    (reader.readLines nested file (ls ++ rest) st).outcome = .ok final →
    fact ∧ ∃ mid, mid.openSections = st.openSections
      ∧ (reader.readLines nested file rest mid).outcome = .ok final

section

variable {final : ReadState} {own : Option Text} {fact other : Prop}

theorem Shows.nil : Shows reader nested file final own [] True := by
  intro st ls rest _ htext hok
  obtain rfl : ls = [] := List.map_eq_nil_iff.mp htext
  exact ⟨trivial, st, rfl, hok⟩

theorem Shows.append {texts more : List Text} (h : Shows reader nested file final own texts fact)
    (hmore : Shows reader nested file final own more other) :
    Shows reader nested file final own (texts ++ more) (fact ∧ other) := by
  intro st ls rest hown htext hok
  obtain ⟨first, others, rfl, hfirst, hothers⟩ := List.map_eq_append_iff.mp htext
  rw [List.append_assoc] at hok
  obtain ⟨hfact, mid, hmid, hrest⟩ := h st first _ hown hfirst hok
  obtain ⟨hother, left, hleft, hend⟩ := hmore mid others rest (by rw [hmid, hown]) hothers hrest
  exact ⟨⟨hfact, hother⟩, left, hleft.trans hmid, hend⟩

theorem Shows.mono {texts : List Text} (h : Shows reader nested file final own texts fact)
    (himp : fact → other) : Shows reader nested file final own texts other := by
  intro st ls rest hown htext hok
  obtain ⟨hfact, hmid⟩ := h st ls rest hown htext hok
  exact ⟨himp hfact, hmid⟩

theorem shows_pair {text key value : Text} (hline : classify text = .pair key value) :
    Shows reader nested file final own [text] True := by
  intro st ls rest _ htext hok
  obtain ⟨line, rfl, heq⟩ := List.map_eq_singleton_iff.mp htext
  have hline : classify line.text = .pair key value := heq ▸ hline
  rw [List.singleton_append, readLines_cons] at hok
  obtain ⟨next, hpair, hrest⟩ := Reading.andThen_eq_ok hok
  unfold readLine at hpair
  rw [hline] at hpair
  obtain ⟨cur, -, rfl⟩ := ReadState.insertPair_eq_ok hpair
  exact ⟨trivial, st.put (cur.insert key (.scalar value)), rfl, hrest⟩

/-- The tags of a child show that it does not stand in a section of its own key. -/
theorem shows_child {key : Text} {inside : List Text}
    (hopening : classify (openTag key) = .openSection key none)
    (hclosing : classify (closeTag key) = .close key)
    (hinside : Shows reader nested file final (some key) inside fact) :
    Shows reader nested file final own (openTag key :: (inside ++ [closeTag key]))
      (own ≠ some key ∧ fact) := by
  intro st ls rest hown htext hok
  obtain ⟨opening, others, rfl, hopened, hothers⟩ := List.map_eq_cons_iff.mp htext
  obtain ⟨inner, last, rfl, hbetween, hlast⟩ := List.map_eq_append_iff.mp hothers
  obtain ⟨closing, rfl, hclosed⟩ := List.map_eq_singleton_iff.mp hlast
  have hopenLine : classify opening.text = .openSection key none := hopened ▸ hopening
  have hcloseLine : classify closing.text = .close key := hclosed ▸ hclosing
  -- The opening tag puts the child on top of the open sections.
  rw [List.cons_append, readLines_cons] at hok
  obtain ⟨entered, hopen, hrest⟩ := Reading.andThen_eq_ok hok
  unfold readLine at hopen
  rw [hopenLine] at hopen
  have hopen : st.openTag ⟨file, opening.number⟩ key none = .ok entered := hopen
  obtain ⟨hname, opened, henter, rfl⟩ := ReadState.openTag_eq_ok hopen
  have hstack := ReadState.openSections_of_enter henter
  -- The lines of the child leave it there, and its closing tag takes it off.
  rw [List.append_assoc] at hrest
  obtain ⟨hfact, mid, hmid, hrest⟩ := hinside _ inner _ (by rw [hstack]; rfl) hbetween hrest
  rw [List.singleton_append, readLines_cons] at hrest
  obtain ⟨left, hclose, hrest⟩ := Reading.andThen_eq_ok hrest
  unfold readLine at hclose
  rw [hcloseLine] at hclose
  have hleft : left.openSections = st.openSections :=
    ReadState.openSections_of_closeTag (hmid.trans hstack) hclose
  exact ⟨⟨hown ▸ hname, hfact⟩, left, hleft, hrest⟩

/-- The entries of a section show what the lines of each of them show. -/
theorem shows_entries {level : Nat} {facts : Text → Node → Prop} {entries : Entries Node}
    (h : ∀ key node, (key, node) ∈ entries → Shows reader nested file final own
      ((node.lines level key).map fun l => l.2.spelled) (facts key node)) :
    Shows reader nested file final own
      ((Node.entriesLines level entries).map fun l => l.2.spelled)
      (∀ key node, (key, node) ∈ entries → facts key node) := by
  induction entries with
  | nil => exact Shows.nil.mono fun _ key node hmem => absurd hmem List.not_mem_nil
  | cons e rest ih =>
    obtain ⟨key, node⟩ := e
    have hfirst := h key node List.mem_cons_self
    have hrest := ih fun key node hmem => h key node (List.mem_cons_of_mem _ hmem)
    rw [Node.entriesLines, List.map_append]
    refine (hfirst.append hrest).mono fun hboth k n hmem => ?_
    rcases List.mem_cons.mp hmem with heq | hmem
    · obtain ⟨rfl, rfl⟩ := Prod.mk.inj heq
      exact hboth.1
    · exact hboth.2 k n hmem

/-- The lines of a tree, read to the end, show that no section of it stands in one of its own key. -/
theorem shows_notNested (h : s.Follows spoken own) (level : Nat) :
    Shows reader nested file final own ((s.lines level).map fun l => l.2.spelled)
      (s.Follows notNested own) := by
  induction s using Section.induct generalizing own level with
  | step s ih =>
    -- A pair shows nothing, and a child shows its own name and what its entries show.
    have hentry : ∀ key node, (key, node) ∈ s.entries → Shows reader nested file final own
        ((node.lines level key).map fun l => l.2.spelled)
        (∀ child, s.getSection? key = some child →
          own ≠ some key ∧ child.Follows notNested (some key)) := by
      intro key node hmem
      have hget : s.get? key = some node :=
        (Entries.get?_eq_some_iff h.obeys.nodup).mpr hmem
      cases node with
      | scalar value =>
        have hrule := h.obeys.scalar key value (Section.getScalar?_eq_some_iff.mpr hget)
        refine (shows_pair hrule).mono fun _ child hchild => ?_
        rw [Section.getSection?_eq_some_iff, hget] at hchild
        cases hchild
      | subsection mode entries =>
        have hsection : s.getSection? key = some ⟨mode, entries⟩ :=
          Section.getSection?_eq_some_iff.mpr hget
        obtain ⟨hopening, hclosing⟩ := h.obeys.child key _ hsection
        have hlines : ((Node.subsection mode entries).lines level key).map (fun l => l.2.spelled)
            = openTag key :: (((⟨mode, entries⟩ : Section).lines (level + 1)).map
                (fun l => l.2.spelled) ++ [closeTag key]) := by
          show ((⟨mode, entries⟩ : Section).toNode.lines level key).map _ = _
          rw [Section.lines_toNode, List.map_cons, List.map_append]
          rfl
        have hinside := ih key ⟨mode, entries⟩ hmem (h.child hsection) (level + 1)
        rw [hlines]
        refine (shows_child hopening hclosing hinside).mono fun hfact child hchild => ?_
        rw [hsection] at hchild
        obtain rfl := Option.some.inj hchild
        exact hfact
    refine (shows_entries hentry).mono fun hall => ?_
    have hchild : ∀ key child, s.getSection? key = some child →
        own ≠ some key ∧ child.Follows notNested (some key) := fun key child hget =>
      hall key _ (Entries.mem_of_get? (Section.getSection?_eq_some_iff.mp hget)) child hget
    refine Section.follows_iff.mpr ⟨⟨h.obeys.nodup, fun _ _ _ => trivial, ?_⟩, ?_⟩
    · exact fun key child hget => (hchild key child hget).1
    · exact fun key child hget => (hchild key child hget).2

end

/-! ## Trees whose text is read as the same tree -/

/-- No entry is written like something else: no pair spells a function directive, and no opening
tag is a closing one. -/
def unambiguous : Rule where
  scalar _ key value := ¬ SpellsCall key value
  child _ _ key _ := key.head? = some '/' → key.tail = []

theorem spoken_scalar {mode : KeyCase} {key value : Text} (h : asRead.scalar mode key value)
    (hcall : ¬ SpellsCall key value) : classify (pairText key value) = .pair key value := by
  obtain ⟨hword, -, htrim, -, hinclude, hcallHere, htag⟩ := h
  exact classify_pair hword htrim hinclude hcallHere hcall htag

theorem spoken_child {own : Option Text} {mode childMode : KeyCase} {key : Text}
    (h : asRead.child own mode key childMode) (hslash : key.head? = some '/' → key.tail = []) :
    classify (openTag key) = .openSection key none ∧ classify (closeTag key) = .close key := by
  obtain ⟨hword, hlower, -⟩ := h
  have hopening := classify_openTag hword hslash
  have hclosing := classify_closeTag hword
  rw [hlower] at hopening hclosing
  exact ⟨hopening, hclosing⟩

/-- A tree whose spelled lines are read to the end is unambiguous. -/
theorem follows_unambiguous {ls : List LogicalLine} {st : ReadState} {root : Section}
    (h : s.Follows asRead none) (hclosed : st.openSections = [])
    (htext : ls.map LogicalLine.text = (s.lines 0).map fun l => l.2.spelled)
    (hdirective : ∀ l ∈ ls, ¬ (classify l.text).IsDirective)
    (hok : (reader.readLines nested file ls st).outcome = .ok { root := root }) :
    s.Follows unambiguous none := by
  have hspelled : ∀ l ∈ s.lines 0, ¬ (classify l.2.spelled).IsDirective := by
    intro l hl
    have hmem : l.2.spelled ∈ ls.map LogicalLine.text := htext ▸ List.mem_map_of_mem hl
    obtain ⟨line, hline, heq⟩ := List.mem_map.mp hmem
    rw [← heq]
    exact hdirective line hline
  -- What is said of a line by the rule that it was read under and by its form.
  have hline : ∀ l ∈ s.lines 0, ¬ (classify l.2.spelled).IsDirective →
      classify l.2.spelled = l.2.said ∧ ∀ key value, l.2 = .pair key value → ¬ SpellsCall key value := by
    refine h.lines (P := fun l => ¬ (classify l.spelled).IsDirective → classify l.spelled = l.said
      ∧ ∀ key value, l = .pair key value → ¬ SpellsCall key value) ?_ ?_ 0
    · intro mode key value hrule hnot
      have hcall : ¬ SpellsCall key value := by
        intro hspells
        obtain ⟨hword, -, -, -, hinclude, -⟩ := hrule
        obtain ⟨body, hbody⟩ := classify_of_spellsCall hword hinclude hspells
        refine hnot ?_
        show IsDirective (classify (pairText key value))
        rw [hbody]
        exact trivial
      refine ⟨spoken_scalar hrule hcall, ?_⟩
      intro _ _ hsome
      cases hsome
      exact hcall
    · intro own mode key childMode ⟨hword, _⟩
      exact ⟨fun _ => ⟨classify_opening hword, nofun⟩, fun _ => ⟨classify_closeTag hword, nofun⟩⟩
  have hslashed := not_slashed_of_readLines hclosed htext
    (fun l hl => (hline l hl (hspelled l hl)).1) hdirective hok
  refine follows_of_lines (P := fun l => l.slashed = false
    ∧ ∀ key value, l = .pair key value → ¬ SpellsCall key value) h
    (fun l hl => ⟨hslashed l hl, (hline l hl (hspelled l hl)).2⟩) ?_ ?_
  · exact fun mode key value hP => hP.2 key value rfl
  · intro own mode key childMode hP hhead
    by_cases htail : key.tail = []
    · exact htail
    · rw [slashed_opening_iff.mpr ⟨hhead, htail⟩] at hP
      cases hP.1

/-- What is asked of the entries of a tree that was read so that its text is read as the same tree
again. -/
def reformattable : Rule where
  scalar _ key value :=
    '#' ∉ key ∧ value ≠ [] ∧ value.getLast? ≠ some '\\' ∧ ¬ SpellsCall key value
  child own _ key _ := '#' ∉ key ∧ (key.head? = some '/' → key.tail = []) ∧ own ≠ some key

instance (mode : KeyCase) (key value : Text) : Decidable (reformattable.scalar mode key value) :=
  inferInstanceAs (Decidable (_ ∧ _))

instance (own : Option Text) (mode : KeyCase) (key : Text) (childMode : KeyCase) :
    Decidable (reformattable.child own mode key childMode) :=
  inferInstanceAs (Decidable (_ ∧ (_ → _) ∧ _))

theorem Rereads.reformattable (hread : reader.Rereads file indent s again)
    (h : s.Follows asRead none) : s.Follows DocumentReader.reformattable none := by
  have hfree := hread.hashFree h
  have hended := hread.notContinued h hfree
  have hfilled := hread.filled h hfree hended
  have htext := texts_ofText_spelled h hfree hended hfilled indent
  obtain ⟨nested, hlines⟩ := readText_eq_ok hread.read
  -- With keys and values settled, the lines are read as spelled, and reading them shows the rest.
  have hunambiguous := follows_unambiguous h rfl htext hread.directive_free hlines
  have hspoken : s.Follows spoken none := h.and hunambiguous
    (fun _ _ _ hrule hcall => spoken_scalar hrule hcall)
    (fun _ _ _ _ hrule hslash => spoken_child hrule hslash)
  rw [← List.append_nil (LogicalLine.ofText _)] at hlines
  obtain ⟨hnotNested, -⟩ := shows_notNested hspoken 0 _ _ [] rfl htext hlines
  intro path t hat
  have hobeys := hfree path t hat
  refine ⟨hobeys.nodup, fun key value hget => ?_, fun key child hget => ?_⟩
  · exact ⟨hobeys.scalar key value hget, (hfilled path t hat).scalar key value hget,
      (hended path t hat).scalar key value hget, (hunambiguous path t hat).scalar key value hget⟩
  · exact ⟨hobeys.child key child hget, (hunambiguous path t hat).child key child hget,
      (hnotNested path t hat).child key child hget⟩

/-- A reformattable tree that was read is read back from its text. -/
theorem readText_print_of_reformattable (h : s.Follows asRead none) (hmode : s.mode = .fold)
    (hrule : s.Follows reformattable none) (reader : DocumentReader) (file : Text) (indent : Nat) :
    reader.readText file .fold (s.print false indent) = ⟨[], .ok { root := s }⟩ := by
  have hlegible : s.Follows legible none := by
    refine h.and hrule ?_ ?_
    · intro mode key value hread ⟨_, _, _, hcall⟩
      exact ⟨hread.2.1, spoken_scalar hread hcall⟩
    · intro own mode key childMode hread ⟨_, hslash, hname⟩
      exact ⟨hread.2.1, hname, hread.2.2, spoken_child hread hslash⟩
  have hclean : ∀ l ∈ s.lines 0, l.2.Clean := by
    have hboth : s.Follows
        ⟨fun mode key value => asRead.scalar mode key value ∧ reformattable.scalar mode key value,
          fun own mode key childMode =>
            asRead.child own mode key childMode ∧ reformattable.child own mode key childMode⟩ none :=
      h.and hrule (fun _ _ _ hread hform => ⟨hread, hform⟩)
        (fun _ _ _ _ hread hform => ⟨hread, hform⟩)
    refine hboth.lines ?_ ?_ 0
    · intro mode key value hgiven
      obtain ⟨⟨hword, -, htrim, hnewline, -⟩, hhash, hne, hlast, -⟩ := hgiven
      exact clean_pair hword hhash hne htrim hnewline hlast
    · intro own mode key childMode hgiven
      obtain ⟨⟨hword, -⟩, hhash, -⟩ := hgiven
      exact ⟨clean_opening hword hhash, clean_closing hword hhash⟩
  exact readText_print hmode hlegible hclean indent

/-- Printing a document that was read from a text without directives gives a text that is read as
the same document if and only if its tree is reformattable. Reading back a reformattable document
works with every reader and gives no warning. That others are not read back is said for readers that
include nothing, since a directive that only appears in the printed text could fetch anything. -/
theorem readText_print_iff {reader : DocumentReader} {file text : Text} {doc : Document}
    (hdirective : ∀ l ∈ LogicalLine.ofText text, ¬ (classify l.text).IsDirective)
    (hread : (reader.readText file .fold text).outcome = .ok doc) (sort : Bool) (indent : Nat) :
    (doc.root.Follows reformattable none → ∀ (other : DocumentReader) (name : Text),
        ∃ again, other.readText name .fold (doc.print sort indent) = ⟨[], .ok again⟩
          ∧ doc.root.same again.root = true)
    ∧ ∀ (other : DocumentReader) (name : Text), other.IncludesNothing →
        ((∃ again, (other.readText name .fold (doc.print sort indent)).outcome = .ok again
            ∧ doc.root.same again.root = true)
          ↔ doc.root.Follows reformattable none) := by
  have hadmits : ∀ l ∈ LogicalLine.ofText text, asRead.Admits (classify l.text) :=
    fun l hl => asRead_admits (LogicalLine.newline_not_mem_text hl)
  obtain ⟨hasRead, hmode⟩ := readText_follows hdirective hadmits hread
  have harranged := hasRead.arranged sort
  have hprint : doc.print sort indent = (doc.root.arranged sort).print false indent :=
    Section.print_arranged sort indent doc.root
  have hback : doc.root.Follows reformattable none → ∀ (other : DocumentReader) (name : Text),
      ∃ again, other.readText name .fold (doc.print sort indent) = ⟨[], .ok again⟩
        ∧ doc.root.same again.root = true := by
    intro hrule other name
    refine ⟨{ root := doc.root.arranged sort }, ?_, Section.same_arranged hasRead sort⟩
    rw [hprint]
    exact readText_print_of_reformattable harranged hmode (hrule.arranged sort) other name indent
  refine ⟨hback, fun other name hnothing => ⟨?_, fun hrule => ?_⟩⟩
  · -- The text is that of the arranged tree, which is reformattable if and only if the tree is.
    intro hgiven
    obtain ⟨again, hagain, hsame⟩ := hgiven
    rw [hprint] at hagain
    obtain ⟨nested, hlines⟩ := readText_eq_ok hagain
    have hrereads : other.Rereads name indent (doc.root.arranged sort) again :=
      ⟨hnothing.readLines hlines, hagain, Section.arranged_same hsame sort⟩
    exact Section.Follows.of_arranged hasRead (hrereads.reformattable harranged)
  · obtain ⟨again, hagain, hsame⟩ := hback hrule other name
    exact ⟨again, by rw [hagain], hsame⟩

/-- A pair with nothing but a comment behind the `=`, which is read with an empty value. -/
def commentedPair : Text := ['a', ' ', '=', ' ', '#', 'c']

/-- The empty value is printed, but its line is not read as a pair. -/
theorem not_readText_print_commentedPair :
    let reader : DocumentReader := ⟨{}, {}, fun _ => .error .notFound⟩
    let doc : Document := { root := { entries := [(['a'], .scalar [])] } }
    (reader.readText [] .fold commentedPair).outcome = .ok doc
      ∧ ¬ ∃ again, (reader.readText [] .fold (doc.print false 4)).outcome = .ok again
          ∧ doc.root.same again.root = true := by
  intro reader doc
  have hread : (reader.readText [] .fold commentedPair).outcome = .ok doc := rfl
  have hnothing : reader.IncludesNothing := ⟨fun _ => ⟨.notFound, rfl⟩, fun _ => rfl⟩
  obtain ⟨-, hiff⟩ := readText_print_iff (by decide) hread false 4
  have hnot : ¬ doc.root.Follows reformattable none := by decide
  exact ⟨hread, fun hagain => hnot ((hiff reader [] hnothing).mp hagain)⟩

end DocumentReader

end WorkflowControl
