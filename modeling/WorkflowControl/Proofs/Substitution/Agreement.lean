import WorkflowControl.Proofs.Substitution.Markers
import WorkflowControl.Proofs.Substitution.Variables

/-!
Whether the branches of an expansion agree with the values that they keep. A branch agrees if it is
the text with the kept values in place of the variables, with zeros in front where a variable has a
width. Every branch keeps a value for each variable of the text. But a list that the text has with
two different widths has two markers, which are unrolled one after the other, so they may stand for
different items, and only the item of the last marker is kept. So all branches agree exactly if the
other markers of a list read the same with each of its items (`agrees_branches_iff`).
-/

namespace WorkflowControl

open Text Token

/-! ## Concatenations -/

theorem length_flatMap_le {α : Type} {f g : α → Text} {xs : List α}
    (h : ∀ x ∈ xs, (f x).length ≤ (g x).length) :
    (xs.flatMap f).length ≤ (xs.flatMap g).length := by
  induction xs with
  | nil => exact Nat.le_refl _
  | cons x xs ih =>
    have hfirst := h x List.mem_cons_self
    have hrest := ih fun y hy => h y (List.mem_cons_of_mem _ hy)
    rw [List.flatMap_cons, List.flatMap_cons, List.length_append, List.length_append]
    omega

/-- Texts that are put together to the same text are equal if none of the first ones is longer. -/
theorem eq_of_flatMap_eq {α : Type} {f g : α → Text} {xs : List α}
    (h : ∀ x ∈ xs, (f x).length ≤ (g x).length) (heq : xs.flatMap f = xs.flatMap g) :
    ∀ x ∈ xs, f x = g x := by
  induction xs with
  | nil => exact fun x hx => absurd hx List.not_mem_nil
  | cons y xs ih =>
    have hfirst := h y List.mem_cons_self
    have htail : ∀ x ∈ xs, (f x).length ≤ (g x).length :=
      fun x hx => h x (List.mem_cons_of_mem _ hx)
    have hrest := length_flatMap_le htail
    rw [List.flatMap_cons, List.flatMap_cons] at heq
    have hlengths := congrArg List.length heq
    rw [List.length_append, List.length_append] at hlengths
    -- Neither part can be shorter, since the other one cannot make up for it.
    have hsame : (f y).length = (g y).length := by omega
    obtain ⟨hy, hxs⟩ := List.append_inj heq hsame
    intro x hx
    rcases List.mem_cons.mp hx with rfl | hx
    · exact hy
    · exact ih htail hxs x hx

/-- Texts that are put together to the same text are equal if they differ at most in parts that are
one text here and another one there. -/
theorem eq_of_flatMap_eq_of_cases {α : Type} {f g : α → Text} {xs : List α} {here there : Text}
    (h : ∀ x ∈ xs, f x = g x ∨ f x = here ∧ g x = there) (heq : xs.flatMap f = xs.flatMap g) :
    ∀ x ∈ xs, f x = g x := by
  rcases Nat.le_total here.length there.length with hle | hle
  · refine eq_of_flatMap_eq (fun x hx => ?_) heq
    rcases h x hx with hsame | ⟨hf, hg⟩
    · exact Nat.le_of_eq (congrArg List.length hsame)
    · rw [hf, hg]
      exact hle
  · intro x hx
    refine (eq_of_flatMap_eq (fun y hy => ?_) heq.symm x hx).symm
    rcases h y hy with hsame | ⟨hf, hg⟩
    · exact Nat.le_of_eq (congrArg List.length hsame.symm)
    · rw [hf, hg]
      exact hle

theorem nodup_eraseDups {ts : List Text} : ts.eraseDups.Nodup := by
  generalize hn : ts.length = n
  induction n using Nat.strongRecOn generalizing ts with
  | ind n ih =>
    cases ts with
    | nil => exact List.nodup_nil
    | cons t ts =>
      have hshorter : (ts.filter fun u => !u == t).length < n := by
        have hle := List.length_filter_le (fun u => !u == t) ts
        rw [List.length_cons] at hn
        omega
      rw [List.eraseDups_cons, List.nodup_cons]
      refine ⟨fun hmem => ?_, ih _ hshorter rfl⟩
      have hkept := (List.mem_filter.mp (List.mem_eraseDups.mp hmem)).2
      simp at hkept

theorem pairwise_true (ts : List Text) : ts.Pairwise fun _ _ => True :=
  List.pairwise_of_forall fun _ _ => trivial

/-! ## Kept values put in -/

/-- The text of a piece with the kept value in place of a variable. -/
def Piece.filled (keep : Entries Text) : Piece → Except Error Text
  | .literal text => .ok text
  | .token _ _ content =>
    match keep.get? (nameAndWidth content).1 with
    | some value => Substitution.Context.rendering content value
    | none => .error (.lookup (nameAndWidth content).1)

/-- The text of a template with the kept values in place of its variables. -/
def filledText (keep : Entries Text) (ps : List Piece) : Except Error Text :=
  (ps.mapM (Piece.filled keep)).map List.flatten

/-- Whether a branch is the template with the values that it keeps. -/
def Branch.Agrees (ps : List Piece) (b : Branch) : Prop := filledText b.keep ps = .ok b.value

theorem filledText_eq {keep : Entries Text} {ps : List Piece} {shown : Piece → Text}
    (h : ∀ p ∈ ps, p.filled keep = .ok (shown p)) : filledText keep ps = .ok (ps.flatMap shown) := by
  have hmap : ps.map (Piece.filled keep) = (ps.map shown).map .ok := by
    rw [List.map_map]
    exact List.map_congr_left h
  rw [filledText, Outcome.mapM_eq_ok_iff.mpr hmap, List.flatMap_def]
  rfl

namespace Substitution

/-- The items that a marker can stand for. -/
def itemsOf (source : Source) (content : Text) : List Text :=
  ItemList.split (valueOf source content) ','

/-- The markers of a text, in the order in which they first occur. -/
def markers (source : Source) (ps : List Piece) : List Text :=
  ((contents .required ps).filter (isMarker source)).eraseDups

/-- Whether the items of a list read the same in a marker. -/
def ReadsAlike (source : Source) (content : Text) : Prop :=
  ∀ item ∈ itemsOf source content, ∀ other ∈ itemsOf source content,
    Context.rendering content item = Context.rendering content other

/-- Whether a marker reads the same with each item if another one of its list comes after it. -/
def FirstReadsAlike (source : Source) (content later : Text) : Prop :=
  (nameAndWidth content).1 = (nameAndWidth later).1 → ReadsAlike source content

/-- What a variable is read as: the item of its marker if it is a list, and its value if not. -/
def readAs (source : Source) (items : Text → Text) (content : Text) : Text :=
  if isMarker source content then items content else valueOf source content

end Substitution

open Substitution

/-- The text of a piece with an item for each marker. -/
def Piece.shown (source : Source) (items : Text → Text) : Piece → Text
  | .literal text => text
  | .token _ _ content => textOf content (readAs source items content)

namespace Substitution

variable {source : Source} {services : Services} {ps : List Piece} {items : Text → Text}

theorem mem_markers {content : Text} : content ∈ markers source ps
    ↔ content ∈ contents .required ps ∧ isMarker source content = true := by
  rw [markers, List.mem_eraseDups, List.mem_filter]

/-- The choice of an item for a marker. -/
def choiceOf (items : Text → Text) (content : Text) : Choice :=
  ⟨content, textOf content (items content), items content⟩

/-- The branch with an item for each marker. -/
def branchOf (source : Source) (ps : List Piece) (keep : Entries Text) (items : Text → Text) :
    Branch :=
  ⟨ps.flatMap (Piece.shown source items),
    Context.keepPicked (choiceOf items) keep (markers source ps)⟩

theorem rendering_eq_textOf {content item rendered : Text}
    (h : Context.rendering content item = .ok rendered) :
    Context.rendering content item = .ok (textOf content item) := by
  rw [textOf_of_rendering h, h]

/-! ## The branches -/

namespace IsBound

theorem contents_settled (h : IsBound source ps) :
    contents .loop (ps.map (Piece.settled source))
      = (contents .required ps).filter (isMarker source) := by
  have hsimple := h.simple
  clear h
  unfold contents
  induction ps with
  | nil => rfl
  | cons p ps ih =>
    have hrest := ih fun q hq => hsimple q (List.mem_cons_of_mem _ hq)
    rw [List.map_cons, List.filterMap_cons, List.filterMap_cons, hrest]
    cases p with
    | literal text => rfl
    | token kind tag content =>
      obtain ⟨rfl, -⟩ := hsimple _ List.mem_cons_self
      rw [Piece.settled, contentOf?_standIn, Piece.contentOf?, if_pos rfl]
      by_cases hmarker : isMarker source content = true
      · rw [if_pos ⟨rfl, hmarker⟩, List.filter_cons_of_pos hmarker]
      · rw [if_neg fun hboth => hmarker hboth.2, List.filter_cons_of_neg hmarker]

theorem plain_settled (h : IsBound source ps) : ∀ p ∈ ps.map (Piece.settled source), p.Plain := by
  have hall : ps.map (Piece.sweptFor source (contents .required ps))
      = ps.map (Piece.settled source) := h.map_sweptFor_eq fun _ hc => hc
  rw [← hall]
  exact h.plain_sweptFor

/-- A piece that is settled and filled is shown with the item of its marker. -/
theorem text_fill_settled (h : IsBound source ps) {p : Piece} (hp : p ∈ ps) :
    ((p.settled source).fill (choiceOf items)).text = p.shown source items := by
  cases p with
  | literal text => rfl
  | token kind tag content =>
    obtain ⟨rfl, -⟩ := h.simple _ hp
    rw [Piece.settled, Piece.shown, standIn, readAs]
    split
    · rfl
    · rfl

theorem markerList_eq (h : IsBound source ps) {content : Text}
    (hcontent : content ∈ contents .required ps) :
    (Context.outermost source services true).markerList content = .ok (valueOf source content) :=
  markerList_eq_valueOf (h.source_eq hcontent) (h.dollar_not_mem_valueOf hcontent)

theorem render_fill_settled (h : IsBound source ps) :
    render ((ps.map (Piece.settled source)).map (Piece.fill (choiceOf items)))
      = ps.flatMap (Piece.shown source items) := by
  rw [render, List.flatMap_map, List.flatMap_map, List.flatMap_def, List.flatMap_def]
  refine congrArg List.flatten (List.map_congr_left fun p hp => ?_)
  exact h.text_fill_settled hp

end IsBound

/-- Whether branches are those with an item for each marker, on top of values that are kept for the
other variables. -/
structure Expands (source : Source) (ps : List Piece) (keep : Entries Text)
    (branches : List Branch) : Prop where
  faithful : Faithful source keep
  kept : ∀ content ∈ contents .required ps, IsKept source keep.keys content
  renders : ∀ content ∈ markers source ps, ∀ item ∈ itemsOf source content,
    Context.rendering content item = .ok (textOf content item)
  nonempty : ∀ content ∈ markers source ps, itemsOf source content ≠ []
  mem_iff : ∀ b, b ∈ branches ↔ ∃ items : Text → Text,
    (∀ content ∈ markers source ps, items content ∈ itemsOf source content)
      ∧ b = branchOf source ps keep items

/-- The choices for a marker are those of its items. -/
theorem IsBound.choices_eq_ok (h : IsBound source ps) {content : Text} {options : List Choice}
    (hcontent : content ∈ contents .required ps)
    (hoptions : (Context.outermost source services true).choices content = .ok options) :
    (∀ item ∈ itemsOf source content,
        Context.rendering content item = .ok (textOf content item))
      ∧ ∀ choice, choice ∈ options ↔ ∃ item ∈ itemsOf source content,
          choice = ⟨content, textOf content item, item⟩ := by
  obtain ⟨raw, hraw, hrenders, hmem⟩ := Context.choices_eq_ok hoptions
  rw [h.markerList_eq hcontent] at hraw
  obtain rfl := Except.ok.inj hraw
  have hall : ∀ item ∈ itemsOf source content,
      Context.rendering content item = .ok (textOf content item) := by
    intro item hitem
    obtain ⟨rendered, hrendered⟩ := hrenders item hitem
    exact rendering_eq_textOf hrendered
  refine ⟨hall, fun choice => ?_⟩
  rw [hmem]
  constructor
  · intro hgiven
    obtain ⟨item, hitem, rendered, hrendered, rfl⟩ := hgiven
    exact ⟨item, hitem, by rw [textOf_of_rendering hrendered]⟩
  · intro hgiven
    obtain ⟨item, hitem, rfl⟩ := hgiven
    exact ⟨item, hitem, _, hall item hitem, rfl⟩

theorem IsBound.mem_contents_settled (h : IsBound source ps) {content : Text} :
    content ∈ contents .loop (ps.map (Piece.settled source)) ↔ content ∈ markers source ps := by
  rw [h.contents_settled, mem_markers, List.mem_filter]

/-- The branches of an expansion are the fillings of the settled text. -/
theorem IsBound.exists_fillings (h : IsBound source ps) {result : Result}
    (hok : substitute source services true (render ps) = .ok result) :
    ∃ keep, Faithful source keep
      ∧ (∀ content ∈ contents .required ps, IsKept source keep.keys content)
      ∧ ∀ b, b ∈ result.branches ↔ ∃ pick : Text → Choice,
          (Context.outermost source services true).IsPick (ps.map (Piece.settled source)) pick
            ∧ b = Context.filling (ps.map (Piece.settled source)) keep pick := by
  rw [substitute_eq_outermost] at hok
  obtain ⟨⟨value, keep⟩, hsettled, hmem⟩ := Context.substitute_eq_ok hok
  obtain ⟨hvalue, hfaithful, hkept⟩ := h.settleText_render hsettled
  have hvalue : value = render (ps.map (Piece.settled source)) := hvalue
  refine ⟨keep, hfaithful, hkept, fun b => ?_⟩
  rw [hmem b, hvalue]
  apply Context.unrolls_render_iff h.plain_settled
  · intro content hcontent
    exact (h.eq_required (mem_markers.mp (h.mem_contents_settled.mp hcontent)).1).2.1
  · intro content hcontent raw hraw
    have hrequired := (mem_markers.mp (h.mem_contents_settled.mp hcontent)).1
    rw [h.markerList_eq hrequired] at hraw
    obtain rfl := Except.ok.inj hraw
    exact h.dollar_not_mem_valueOf hrequired

/-- A filling is determined by the items that are picked. -/
theorem IsBound.filling_choiceOf (h : IsBound source ps) (keep : Entries Text)
    (items : Text → Text) :
    Context.filling (ps.map (Piece.settled source)) keep (choiceOf items)
      = branchOf source ps keep items := by
  rw [Context.filling, h.render_fill_settled, h.contents_settled]
  rfl

theorem IsBound.filling_eq_branchOf (h : IsBound source ps) {pick : Text → Choice}
    (hpick : (Context.outermost source services true).IsPick (ps.map (Piece.settled source)) pick)
    (keep : Entries Text) :
    (∀ content ∈ markers source ps, (pick content).item ∈ itemsOf source content)
      ∧ Context.filling (ps.map (Piece.settled source)) keep pick
        = branchOf source ps keep fun content => (pick content).item := by
  have hitems : ∀ content ∈ markers source ps, (pick content).item ∈ itemsOf source content
      ∧ pick content = choiceOf (fun c => (pick c).item) content := by
    intro content hcontent
    obtain ⟨options, hoptions, hin⟩ := hpick content (h.mem_contents_settled.mpr hcontent)
    obtain ⟨item, hitem, heq⟩ :=
      ((h.choices_eq_ok (mem_markers.mp hcontent).1 hoptions).2 _).mp hin
    refine ⟨by rw [heq]; exact hitem, ?_⟩
    show pick content = ⟨content, textOf content (pick content).item, (pick content).item⟩
    rw [heq]
  have hsame : ∀ content ∈ contents .loop (ps.map (Piece.settled source)),
      pick content = choiceOf (fun c => (pick c).item) content :=
    fun content hcontent => (hitems content (h.mem_contents_settled.mp hcontent)).2
  refine ⟨fun content hcontent => (hitems content hcontent).1, ?_⟩
  rw [← h.filling_choiceOf, Context.filling_congr hsame]

/-- If an expansion has a branch, its branches are those with an item for each marker. -/
theorem IsBound.expands (h : IsBound source ps) {result : Result} {present : Branch}
    (hok : substitute source services true (render ps) = .ok result)
    (hpresent : present ∈ result.branches) : ∃ keep, Expands source ps keep result.branches := by
  obtain ⟨keep, hfaithful, hkept, hmem⟩ := h.exists_fillings hok
  -- The branch that there is shows that the choices for each marker are found.
  obtain ⟨first, hfirst, -⟩ := (hmem present).mp hpresent
  refine ⟨keep, hfaithful, hkept, fun content hcontent => ?_, fun content hcontent => ?_,
    fun b => ?_⟩
  · obtain ⟨options, hoptions, -⟩ := hfirst content (h.mem_contents_settled.mpr hcontent)
    exact (h.choices_eq_ok (mem_markers.mp hcontent).1 hoptions).1
  · exact List.ne_nil_of_mem ((h.filling_eq_branchOf hfirst keep).1 content hcontent)
  · rw [hmem b]
    constructor
    · intro hpicked
      obtain ⟨pick, hpick, hb⟩ := hpicked
      obtain ⟨hitems, heq⟩ := h.filling_eq_branchOf hpick keep
      exact ⟨_, hitems, hb.trans heq⟩
    · intro hchosen
      obtain ⟨items, hitems, hb⟩ := hchosen
      refine ⟨choiceOf items, fun content hcontent => ?_, ?_⟩
      · obtain ⟨options, hoptions, -⟩ := hfirst content hcontent
        have hmarker := h.mem_contents_settled.mp hcontent
        refine ⟨options, hoptions, ?_⟩
        exact ((h.choices_eq_ok (mem_markers.mp hmarker).1 hoptions).2 _).mpr
          ⟨items content, hitems content hmarker, rfl⟩
      · rw [hb, h.filling_choiceOf]

/-! ## The values that a branch keeps -/

namespace Expands

variable {keep : Entries Text} {branches : List Branch}

/-- The value that a branch keeps for the variable of a content. -/
def keptFor (b : Branch) (content : Text) : Text := (b.keep.get? (nameAndWidth content).1).getD []

/-- What a branch keeps for a list is the item of its last marker. -/
theorem get?_of_marker {R : Text → Text → Prop} (hR : (markers source ps).Pairwise R)
    (keep : Entries Text) (items : Text → Text) {content : Text}
    (hcontent : content ∈ markers source ps) :
    ∃ last ∈ markers source ps, (nameAndWidth last).1 = (nameAndWidth content).1
      ∧ (last = content ∨ R content last)
      ∧ (branchOf source ps keep items).keep.get? (nameAndWidth content).1 = some (items last) :=
  Context.exists_last_marker hR (choiceOf items) keep hcontent

/-- What a branch keeps for a variable that is no list is its value. -/
theorem get?_of_scalar (h : Expands source ps keep branches) (hbound : IsBound source ps)
    (items : Text → Text) {content : Text} (hcontent : content ∈ contents .required ps)
    (hscalar : isMarker source content = false) :
    (branchOf source ps keep items).keep.get? (nameAndWidth content).1
        = some (valueOf source content)
      ∧ Context.rendering content (valueOf source content)
        = .ok (textOf content (valueOf source content)) := by
  rcases h.kept content hcontent with hmarker | ⟨hname, rendered, hrendered⟩
  · rw [hscalar] at hmarker
    cases hmarker
  · -- A marker of the name would make the value a list.
    have hnone : ∀ c ∈ markers source ps, (nameAndWidth c).1 ≠ (nameAndWidth content).1 := by
      intro c hc heq
      have hmarker := (mem_markers.mp hc).2
      rw [isMarker, valueOf_congr heq] at hmarker
      rw [isMarker, hmarker] at hscalar
      cases hscalar
    refine ⟨?_, rendering_eq_textOf hrendered⟩
    show (Context.keepPicked _ keep (markers source ps)).get? _ = _
    rw [Context.get?_keepPicked_of_not_mem hnone]
    exact h.faithful.get?_eq hname (hbound.source_eq hcontent)

/-- A branch keeps one of the items for a list. -/
theorem keptFor_mem_itemsOf (keep : Entries Text)
    (hitems : ∀ c ∈ markers source ps, items c ∈ itemsOf source c)
    {content : Text} (hcontent : content ∈ markers source ps) :
    keptFor (branchOf source ps keep items) content ∈ itemsOf source content := by
  obtain ⟨last, hlast, hname, -, hget⟩ := get?_of_marker (pairwise_true _) keep items hcontent
  rw [keptFor, hget]
  have hlistEq : itemsOf source last = itemsOf source content := by
    rw [itemsOf, itemsOf, valueOf_congr hname]
  rw [← hlistEq]
  exact hitems last hlast

/-- A branch keeps a value for each variable. -/
theorem get?_eq (h : Expands source ps keep branches) (hbound : IsBound source ps)
    {content : Text} (hcontent : content ∈ contents .required ps) :
    (branchOf source ps keep items).keep.get? (nameAndWidth content).1
      = some (readAs source (keptFor (branchOf source ps keep items)) content) := by
  cases hmarker : isMarker source content with
  | true =>
    obtain ⟨last, -, -, -, hget⟩ := get?_of_marker (pairwise_true _) keep items
      (mem_markers.mpr ⟨hcontent, hmarker⟩)
    rw [readAs, if_pos hmarker, keptFor, hget]
    rfl
  | false =>
    rw [readAs, if_neg (by simp [hmarker])]
    exact (h.get?_of_scalar hbound items hcontent hmarker).1

/-- A branch agrees if the items that were picked read as the ones that are kept. -/
theorem agrees_branchOf_iff (h : Expands source ps keep branches) (hbound : IsBound source ps)
    (hitems : ∀ c ∈ markers source ps, items c ∈ itemsOf source c) :
    (branchOf source ps keep items).Agrees ps
      ↔ ps.flatMap (Piece.shown source items)
        = ps.flatMap (Piece.shown source (keptFor (branchOf source ps keep items))) := by
  have hfilled : filledText (branchOf source ps keep items).keep ps
      = .ok (ps.flatMap (Piece.shown source (keptFor (branchOf source ps keep items)))) := by
    refine filledText_eq fun p hp => ?_
    cases p with
    | literal text => rfl
    | token kind tag content =>
      obtain ⟨rfl, -⟩ := hbound.simple _ hp
      have hcontent : content ∈ contents .required ps := mem_contents_iff.mpr ⟨tag, hp⟩
      rw [Piece.filled, h.get?_eq hbound hcontent]
      show Context.rendering content (readAs source _ content) = .ok (textOf content _)
      cases hmarker : isMarker source content with
      | true =>
        have hin := mem_markers.mpr ⟨hcontent, hmarker⟩
        rw [readAs, if_pos hmarker]
        exact h.renders content hin _ (keptFor_mem_itemsOf keep hitems hin)
      | false =>
        rw [readAs, if_neg (by simp [hmarker])]
        exact (h.get?_of_scalar hbound items hcontent hmarker).2
  rw [Branch.Agrees, hfilled, Except.ok.injEq]
  exact eq_comm

/-! ## When all branches agree -/

theorem agrees_of_pairwise (h : Expands source ps keep branches) (hbound : IsBound source ps)
    (hpairs : (markers source ps).Pairwise (FirstReadsAlike source))
    (hitems : ∀ c ∈ markers source ps, items c ∈ itemsOf source c) :
    (branchOf source ps keep items).Agrees ps := by
  rw [h.agrees_branchOf_iff hbound hitems, List.flatMap_def, List.flatMap_def]
  refine congrArg List.flatten (List.map_congr_left fun p hp => ?_)
  cases p with
  | literal text => rfl
  | token kind tag content =>
    obtain ⟨rfl, -⟩ := hbound.simple _ hp
    rw [Piece.shown, Piece.shown]
    cases hmarker : isMarker source content with
    | false => rw [readAs, readAs, if_neg (by simp [hmarker]), if_neg (by simp [hmarker])]
    | true =>
      have hin := mem_markers.mpr ⟨mem_contents_iff.mpr ⟨tag, hp⟩, hmarker⟩
      have hkept := keptFor_mem_itemsOf keep hitems hin
      obtain ⟨last, -, hname, hlast, hget⟩ := get?_of_marker hpairs keep items hin
      rw [readAs, readAs, if_pos hmarker, if_pos hmarker]
      rcases hlast with rfl | halike
      · rw [keptFor, hget]
        rfl
      · rw [textOf, textOf, halike hname.symm _ (hitems content hin) _ hkept]

/-- If another marker of its list comes after a marker, the item of the marker is not kept. -/
theorem get?_of_later (keep : Entries Text) (items : Text → Text) {content later : Text}
    (horder : [content, later].Sublist (markers source ps))
    (hname : (nameAndWidth content).1 = (nameAndWidth later).1) :
    ∃ last ∈ markers source ps, last ≠ content
      ∧ (nameAndWidth last).1 = (nameAndWidth content).1
      ∧ (branchOf source ps keep items).keep.get? (nameAndWidth content).1 = some (items last) := by
  obtain ⟨before, behind, hsplit, hbefore, hbehind⟩ := List.cons_sublist_iff.mp horder
  have hlater : later ∈ behind := List.singleton_sublist.mp hbehind
  obtain ⟨last, hlast, hlastName, -, hget⟩ := Context.exists_last_marker
    (pairwise_true behind) (choiceOf items)
    (Context.keepPicked (choiceOf items) keep before) hlater
  rw [← hname] at hlastName hget
  refine ⟨last, hsplit ▸ List.mem_append_right _ hlast, ?_, hlastName, ?_⟩
  · -- The markers are distinct, so what comes behind is another one.
    have hnodup : (before ++ behind).Nodup := hsplit ▸ nodup_eraseDups
    intro heq
    exact (List.nodup_append.mp hnodup).2.2 content hbefore last hlast heq.symm
  · show (Context.keepPicked _ keep (markers source ps)).get? _ = _
    rw [hsplit, Context.keepPicked, List.foldl_append]
    exact hget

/-- One item for a marker, another one for the other markers of its list, and the first one for the
markers of other lists. -/
def itemsWith (source : Source) (content item other : Text) : Text → Text := fun c =>
  if c = content then item
  else if (nameAndWidth c).1 = (nameAndWidth content).1 then other
  else (itemsOf source c).headD []

theorem itemsWith_mem_itemsOf (h : Expands source ps keep branches) {content item other : Text}
    (hitem : item ∈ itemsOf source content) (hother : other ∈ itemsOf source content) :
    ∀ c ∈ markers source ps, itemsWith source content item other c ∈ itemsOf source c := by
  intro c hc
  unfold itemsWith
  split
  · rename_i heq
    rwa [heq]
  · split
    · rename_i hname
      rwa [itemsOf, valueOf_congr hname]
    · cases hitems : itemsOf source c with
      | nil => exact absurd hitems (h.nonempty c hc)
      | cons first rest => exact List.mem_cons_self

theorem keptFor_congr (b : Branch) {content other : Text}
    (h : (nameAndWidth content).1 = (nameAndWidth other).1) : keptFor b content = keptFor b other := by
  unfold keptFor
  rw [h]

section

variable {content later item other : Text}

/-- The item that is picked for a marker before the last one of its list is not the one kept. -/
theorem keptFor_itemsWith (keep : Entries Text)
    (horder : [content, later].Sublist (markers source ps))
    (hname : (nameAndWidth content).1 = (nameAndWidth later).1) :
    keptFor (branchOf source ps keep (itemsWith source content item other)) content = other := by
  obtain ⟨last, -, hne, hlast, hget⟩ :=
    get?_of_later keep (itemsWith source content item other) horder hname
  rw [keptFor, hget, itemsWith, if_neg hne, if_pos hlast]
  rfl

theorem keptFor_itemsWith_of_ne (keep : Entries Text)
    (horder : [content, later].Sublist (markers source ps))
    (hname : (nameAndWidth content).1 = (nameAndWidth later).1) {c : Text}
    (hc : c ∈ markers source ps) (hne : c ≠ content) :
    keptFor (branchOf source ps keep (itemsWith source content item other)) c
      = itemsWith source content item other c := by
  by_cases hsame : (nameAndWidth c).1 = (nameAndWidth content).1
  · rw [keptFor_congr _ hsame, keptFor_itemsWith keep horder hname, itemsWith, if_neg hne,
      if_pos hsame]
  · obtain ⟨last, -, hlast, -, hget⟩ :=
      get?_of_marker (pairwise_true _) keep (itemsWith source content item other) hc
    have hother : (nameAndWidth last).1 ≠ (nameAndWidth content).1 := by rwa [hlast]
    have hlastNe : last ≠ content := fun heq => hother (by rw [heq])
    rw [keptFor, hget, itemsWith, itemsWith, if_neg hne, if_neg hsame, if_neg hlastNe,
      if_neg hother, itemsOf, itemsOf, valueOf_congr hlast]
    rfl

/-- Only the occurrences of the marker read differently with what is kept, and all of them do in
the same way. -/
theorem shown_itemsWith (hbound : IsBound source ps) (keep : Entries Text)
    (horder : [content, later].Sublist (markers source ps))
    (hname : (nameAndWidth content).1 = (nameAndWidth later).1) {p : Piece} (hp : p ∈ ps) :
    p.shown source (itemsWith source content item other)
        = p.shown source
          (keptFor (branchOf source ps keep (itemsWith source content item other)))
      ∨ p.shown source (itemsWith source content item other) = textOf content item
        ∧ p.shown source (keptFor (branchOf source ps keep (itemsWith source content item other)))
          = textOf content other := by
  cases p with
  | literal text => exact .inl rfl
  | token kind tag c =>
    obtain ⟨rfl, -⟩ := hbound.simple _ hp
    rw [Piece.shown, Piece.shown, readAs, readAs]
    by_cases hmarker : isMarker source c = true
    · rw [if_pos hmarker, if_pos hmarker]
      by_cases heq : c = content
      · subst heq
        rw [keptFor_itemsWith keep horder hname, itemsWith, if_pos rfl]
        exact .inr ⟨rfl, rfl⟩
      · have hc := mem_markers.mpr ⟨mem_contents_iff.mpr ⟨tag, hp⟩, hmarker⟩
        rw [keptFor_itemsWith_of_ne keep horder hname hc heq]
        exact .inl rfl
    · rw [if_neg hmarker, if_neg hmarker]
      exact .inl rfl

end

/-- If all branches agree, a marker that another one of its list comes after reads the same with all
items: its item would not be the one that is kept. -/
theorem readsAlike_of_agrees (h : Expands source ps keep branches) (hbound : IsBound source ps)
    (hagree : ∀ b ∈ branches, b.Agrees ps) {content later : Text}
    (horder : [content, later].Sublist (markers source ps)) : FirstReadsAlike source content later := by
  intro hname item hitem other hother
  have hcontent : content ∈ markers source ps := horder.subset List.mem_cons_self
  have hitems := h.itemsWith_mem_itemsOf hitem hother
  have hbranch := hagree _ ((h.mem_iff _).mpr ⟨_, hitems, rfl⟩)
  have hconcat := (h.agrees_branchOf_iff hbound hitems).mp hbranch
  obtain ⟨hrequired, hmarker⟩ := mem_markers.mp hcontent
  obtain ⟨tag, hp⟩ := mem_contents_iff.mp hrequired
  have hequal := eq_of_flatMap_eq_of_cases
    (fun p hp => shown_itemsWith hbound keep horder hname hp) hconcat _ hp
  rw [Piece.shown, Piece.shown, readAs, readAs, if_pos hmarker, if_pos hmarker,
    keptFor_itemsWith keep horder hname, itemsWith, if_pos rfl] at hequal
  rw [h.renders content hcontent item hitem, h.renders content hcontent other hother, hequal]

end Expands

/-- Every branch of an expansion keeps a value for each variable of the text. All branches agree with
the values that they keep if and only if there are none, or each marker that another one of its list
comes after reads the same with all items of the list. -/
theorem agrees_branches_iff (h : IsBound source ps) {result : Result}
    (hok : substitute source services true (render ps) = .ok result) :
    (∀ b ∈ result.branches, ∀ content ∈ contents .required ps,
        ∃ value, b.keep.get? (nameAndWidth content).1 = some value)
      ∧ ((∀ b ∈ result.branches, b.Agrees ps)
        ↔ result.branches = [] ∨ (markers source ps).Pairwise (FirstReadsAlike source)) := by
  refine ⟨fun b hb content hcontent => ?_, fun hagree => ?_, fun hpairs b hb => ?_⟩
  · obtain ⟨keep, hexpands⟩ := h.expands hok hb
    obtain ⟨items, -, rfl⟩ := (hexpands.mem_iff b).mp hb
    exact ⟨_, hexpands.get?_eq h hcontent⟩
  · cases hbranches : result.branches with
    | nil => exact .inl rfl
    | cons b rest =>
      have hb : b ∈ result.branches := by
        rw [hbranches]
        exact List.mem_cons_self
      obtain ⟨keep, hexpands⟩ := h.expands hok hb
      refine .inr (List.pairwise_iff_forall_sublist.mpr fun horder => ?_)
      exact hexpands.readsAlike_of_agrees h hagree horder
  · obtain ⟨keep, hexpands⟩ := h.expands hok hb
    obtain ⟨items, hitems, rfl⟩ := (hexpands.mem_iff b).mp hb
    rcases hpairs with hnone | hpairs
    · rw [hnone] at hb
      cases hb
    · exact hexpands.agrees_of_pairwise h hpairs hitems

/-- A list of two numbers. -/
def countDocument : Document where
  root := { entries := [(['x'], .scalar ['1', ',', '2'])] }

/-- A variable that is written without and with a width. -/
def countPieces : List Piece := [
  .token .required [] ['x'],
  .literal [' '],
  .token .required [] ['x', ':', '2']]

def countBranches : List Branch := [
  ⟨['1', ' ', '0', '1'], [(['x'], ['1'])]⟩,
  ⟨['1', ' ', '0', '2'], [(['x'], ['2'])]⟩,
  ⟨['2', ' ', '0', '1'], [(['x'], ['1'])]⟩,
  ⟨['2', ' ', '0', '2'], [(['x'], ['2'])]⟩]

/-- The two markers of one list are expanded independently, so a branch mixes two items. -/
theorem not_agrees_countBranches :
    IsBound (.ofDocument countDocument {}) countPieces
      ∧ substitute (.ofDocument countDocument {}) {} true (render countPieces)
        = .ok (.multi countBranches)
      ∧ ¬ ∀ b ∈ countBranches, b.Agrees countPieces := by
  have hbound : IsBound (.ofDocument countDocument {}) countPieces := by
    refine ⟨by decide, fun content hcontent => ⟨['1', ',', '2'], ?_, by decide⟩⟩
    have hcontents : contents .required countPieces = [['x'], ['x', ':', '2']] := by decide
    rw [hcontents] at hcontent
    rcases List.mem_cons.mp hcontent with rfl | hwidth
    · rfl
    · obtain rfl := List.mem_singleton.mp hwidth
      rfl
  have hok : substitute (.ofDocument countDocument {}) {} true (render countPieces)
      = .ok (.multi countBranches) := rfl
  refine ⟨hbound, hok, fun hagree => ?_⟩
  rcases (agrees_branches_iff hbound hok).2.mp hagree with hnone | hpairs
  · cases hnone
  · have hmarkers : markers (.ofDocument countDocument {}) countPieces = [['x'], ['x', ':', '2']] := by
      decide
    have hitems : itemsOf (.ofDocument countDocument {}) ['x'] = [['1'], ['2']] := by decide
    rw [hmarkers, List.pairwise_cons] at hpairs
    have halike := hpairs.1 ['x', ':', '2'] List.mem_cons_self (by decide)
    have hsame := halike ['1'] (by simp [hitems]) ['2'] (by simp [hitems])
    have hequal : ['1'] = ['2'] := Except.ok.inj hsame
    cases hequal

end Substitution

end WorkflowControl
