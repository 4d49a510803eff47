import WorkflowControl.Proofs.Substitution.VariableText

/-!
Texts of references to the scalars of a document, in ASCII. They are substituted at once: each
reference gives the value of its own variable, and a text that cannot be substituted fails with the
first reference that fails (`substitute_references`). References that differ in case at most are
replaced together, and it does not matter which of them is read: a document takes names in any case,
and a width has no case (`read_of_alike`).
-/

namespace WorkflowControl

open Outcome Text Token

/-! ## Documents of scalars -/

namespace Document

section

variable {root : Section} (hroot : ∀ e ∈ root.entries, ∃ value, e.2 = .scalar value)
include hroot

theorem getSection?_of_scalars (key : Text) : root.getSection? key = none := by
  rw [Section.getSection?]
  cases hnode : root.get? key with
  | none => rfl
  | some node =>
    obtain ⟨value, rfl⟩ := hroot _ (Entries.mem_of_get? hnode)
    rfl

/-- A path leads to a scalar of the top level or nowhere. -/
theorem mem_of_findAt? {path : List Text} {node : Node} (h : findAt? root path = some node) :
    ∃ key, (key, node) ∈ root.entries := by
  cases path with
  | nil => cases h
  | cons key path =>
    cases path with
    | nil => exact ⟨key, Entries.mem_of_get? h⟩
    | cons next path =>
      unfold findAt? at h
      cases hnode : root.get? key with
      | none =>
        rw [hnode] at h
        cases h
      | some inner =>
        obtain ⟨value, rfl⟩ := hroot _ (Entries.mem_of_get? hnode)
        rw [hnode] at h
        cases h

theorem findInLayers?_of_scalars (key : Text) :
    ({ root } : Document).findInLayers? {} key = root.get? key := by
  have hbound : ({ root } : Document).bound? {} key = none := by
    show (root.getSection? currentName).bind _ = none
    rw [getSection?_of_scalars hroot]
    rfl
  rw [findInLayers?, hbound]
  rfl

theorem mem_of_find? {key : Text} {node : Node}
    (h : ({ root } : Document).find? {} key = some node) :
    ∃ key, (key, node) ∈ root.entries := by
  unfold find? at h
  split at h
  · exact mem_of_findAt? hroot h
  · exact ⟨key, Entries.mem_of_get? ((findInLayers?_of_scalars hroot key).symm.trans h)⟩

end

end Document

/-! ## Documents as sources -/

namespace Source

theorem ofDocument_eq_ok_iff {doc : Document} {search : Search} {name : Text}
    {found : Option Text} :
    ofDocument doc search name = .ok found
      ↔ (found = none ∧ doc.find? search name.lower = none)
        ∨ ∃ value, found = some value ∧ doc.find? search name.lower = some (.scalar value) := by
  unfold ofDocument
  cases doc.find? search name.lower with
  | none =>
    simp [ofNode, eq_comm]
  | some node =>
    cases node with
    | scalar value => simp [ofNode, eq_comm]
    | subsection case entries => simp [ofNode]

/-- A document is asked for a name in any case. -/
theorem ofDocument_congr {doc : Document} {search : Search} {name other : Text}
    (h : name.lower = other.lower) {found : Option Text}
    (hfound : ofDocument doc search name = .ok found) :
    ofDocument doc search other = .ok found := by
  rw [ofDocument_eq_ok_iff] at hfound ⊢
  rwa [← h]

/-- A document of scalars alone finds nothing but them. -/
theorem mem_of_ofDocument {root : Section} (hroot : ∀ e ∈ root.entries, ∃ value, e.2 = .scalar value)
    {name value : Text} (h : ofDocument { root } {} name = .ok (some value)) :
    ∃ key, (key, Node.scalar value) ∈ root.entries := by
  rcases ofDocument_eq_ok_iff.mp h with ⟨hnone, -⟩ | ⟨found, heq, hfind⟩
  · cases hnone
  · obtain rfl := Option.some.inj heq
    exact Document.mem_of_find? hroot hfind

end Source

/-! ## References -/

/-- Whether a piece is a literal without `$`, or a reference to a variable in ASCII. -/
def Piece.IsReference : Piece → Prop
  | .literal text => '$' ∉ text
  | .token kind tag content => (kind = .required ∨ kind = .optional) ∧ Alike kind.tag tag
      ∧ Piece.IsContent content ∧ IsAscii content

instance : DecidablePred Piece.IsReference
  | .literal text => inferInstanceAs (Decidable ('$' ∉ text))
  | .token kind tag content => inferInstanceAs (Decidable ((kind = .required ∨ kind = .optional)
      ∧ Alike kind.tag tag ∧ Piece.IsContent content ∧ IsAscii content))

theorem Piece.IsReference.plain {p : Piece} (h : p.IsReference) : p.Plain := by
  cases p with
  | literal text => exact h
  | token kind tag content =>
    obtain ⟨-, htag, hcontent, -⟩ := h
    exact ⟨htag, hcontent⟩

/-- A literal as it is, and a reference as the value of its own variable: with zeros in front if the
reference has a width, and empty if the variable has no value. -/
def Piece.ownText (source : Source) : Piece → Text
  | .literal text => text
  | .token _ _ content =>
    match source (nameAndWidth content).1 with
    | .ok (some value) => Substitution.textOf content value
    | _ => []

namespace Substitution

/-- A text of references to scalars without `$`, some of which may be missing. -/
structure RefersToScalars (source : Source) (ps : List Piece) : Prop where
  references : ∀ p ∈ ps, p.IsReference
  scalars : ∀ kind, ∀ content ∈ contents kind ps,
    ∃ found, source (nameAndWidth content).1 = .ok found ∧ ∀ value ∈ found, '$' ∉ value

/-- Why the references of a text fail: the first one that cannot be read, where all optional ones go
before the required ones. -/
def Context.firstFault? (ctx : Context) (ps : List Piece) : Option Error :=
  ((contents .optional ps).findSome? (ctx.fault? .optional false)).or
    ((contents .required ps).findSome? (ctx.fault? .required true))

/-- Whether what a reference asks for can be given: it has a value if it is required, and if it has
a value and a width, the width is a number of 16 bits and the value an integer. -/
structure IsResolvable (source : Source) (kind : TokenKind) (content : Text) : Prop where
  resolves : kind = .required → ∃ value, source (nameAndWidth content).1 = .ok (some value)
  widths : ∀ value, source (nameAndWidth content).1 = .ok (some value) →
    ∀ w, (nameAndWidth content).2 = some w →
      (∃ n, unsigned? 16 w.trim = some n) ∧ ∃ z, signed? value.trim = some z

/-! ## Alike references -/

theorem isCaseless_colon : IsCaseless ':' := by decide

/-- Alike contents have names with one lower case. -/
theorem lower_name_of_alike {content other : Text} (hcontent : IsAscii content)
    (hother : IsAscii other) (h : Alike content other) :
    (nameAndWidth content).1.lower = (nameAndWidth other).1.lower :=
  (alike_iff_lower_eq (hcontent.upTo ':') (hother.upTo ':')).mp (h.upTo isCaseless_colon)

/-- Alike contents that ask for a width ask for the same one. -/
theorem rendering_of_alike {content other value put : Text} (hcontent : IsAscii content)
    (h : Alike content other) (hput : Context.rendering content value = .ok put) :
    Context.rendering other value = .ok put := by
  rcases h.after? isCaseless_colon with ⟨hnone, hnone'⟩ | ⟨behind, behind', hsome, hsome', hbehind⟩
  · have hwidth : (nameAndWidth content).2 = none := congrArg (Option.map (Text.upTo ':')) hnone
    have hwidth' : (nameAndWidth other).2 = none := congrArg (Option.map (Text.upTo ':')) hnone'
    rwa [Context.rendering_of_none hwidth', ← Context.rendering_of_none hwidth]
  · have hwidth : (nameAndWidth content).2 = some (behind.upTo ':') :=
      congrArg (Option.map (Text.upTo ':')) hsome
    have hwidth' : (nameAndWidth other).2 = some (behind'.upTo ':') :=
      congrArg (Option.map (Text.upTo ':')) hsome'
    have hascii : IsAscii (behind.upTo ':') := (hcontent.subset (after?_subset hsome)).upTo ':'
    rw [Context.rendering_of_some hwidth] at hput
    obtain ⟨n, hn, hdigits⟩ := bind_eq_ok_iff.mp hput
    have heq := eq_of_width hascii hn (hbehind.upTo isCaseless_colon)
    rw [Context.rendering_of_some hwidth', heq]
    exact bind_eq_ok_iff.mpr ⟨n, width_of_unsigned? (unsigned?_of_width hn) other, hdigits⟩

variable {doc : Document} {search : Search} {services : Services} {ps : List Piece}

/-- What a reference is read as is what every alike one is read as. -/
theorem read_of_alike {expand required : Bool} {kind : TokenKind} {content other put : Text}
    (hkind : Context.IsVariable kind) (hcontent : IsAscii content) (hother : IsAscii other)
    (hsearch : services.searchFault? (kind.token other) = none) (h : Alike content other)
    (hread : (Context.outermost (.ofDocument doc search) services expand).read kind required content
      = .ok put) :
    (Context.outermost (.ofDocument doc search) services expand).read kind required other
      = .ok put := by
  obtain ⟨found, hfound, hput, -⟩ := Context.read_eq_ok_iff.mp hread
  rw [Context.resolve_of_isVariable hkind] at hfound
  refine Context.read_eq_ok_iff.mpr ⟨found, ?_, ?_, hsearch⟩
  · rw [Context.resolve_of_isVariable hkind]
    exact Source.ofDocument_congr (lower_name_of_alike hcontent hother h) hfound
  · cases found with
    | some value => exact rendering_of_alike hcontent h hput
    | none =>
      cases required with
      | true => cases hput
      | false => exact hput

namespace RefersToScalars

variable {source : Source} {content : Text} {kind : TokenKind}

theorem plain (h : RefersToScalars source ps) : ∀ p ∈ ps, p.Plain :=
  fun p hp => (h.references p hp).plain

theorem isVariable (h : RefersToScalars source ps) (hc : content ∈ contents kind ps) :
    Context.IsVariable kind ∧ IsAscii content := by
  obtain ⟨tag, hp⟩ := mem_contents_iff.mp hc
  obtain ⟨hkind, -, -, hascii⟩ := h.references _ hp
  exact ⟨hkind, hascii⟩

theorem found?_eq_some_iff (h : RefersToScalars source ps) (hc : content ∈ contents kind ps)
    {expand : Bool} {value : Text} :
    (Context.outermost source services expand).found? kind content = some value
      ↔ source (nameAndWidth content).1 = .ok (some value) := by
  rw [Context.found?, Context.resolve_of_isVariable (h.isVariable hc).1]
  show (source (nameAndWidth content).1).toOption.join = some value ↔ _
  cases source (nameAndWidth content).1 with
  | error e => simp [Except.toOption]
  | ok found => simp [Except.toOption]

theorem readsPlain (h : RefersToScalars source ps) (kind : TokenKind) :
    (Context.outermost source services false).ReadsPlain kind ps where
  plain := h.plain
  values content hc value hvalue := by
    obtain ⟨found, hfound, hplain⟩ := h.scalars kind content hc
    rw [h.found?_eq_some_iff hc, hfound] at hvalue
    exact hplain value (Except.ok.inj hvalue)

/-- A reference can be read if it can be resolved, since a search can be built for it. -/
theorem fault?_eq_none_iff (h : RefersToScalars source ps) (hfinds : FindsTokens services ps)
    (hc : content ∈ contents kind ps) {expand required : Bool}
    (hrequired : required = true ↔ kind = .required) :
    (Context.outermost source services expand).fault? kind required content = none
      ↔ IsResolvable source kind content := by
  rw [Context.fault?_eq_none_iff]
  constructor
  · intro hgiven
    obtain ⟨put, hread⟩ := hgiven
    obtain ⟨found, hfound, hput, -⟩ := Context.read_eq_ok_iff.mp hread
    rw [Context.resolve_of_isVariable (h.isVariable hc).1] at hfound
    have hsource : source (nameAndWidth content).1 = .ok found := hfound
    refine ⟨fun hkind => ?_, fun value hvalue => ?_⟩
    · obtain rfl := hrequired.mpr hkind
      cases found with
      | none => cases hput
      | some value => exact ⟨value, hsource⟩
    · obtain rfl := Except.ok.inj (hsource.symm.trans hvalue)
      exact Context.exists_rendering_iff.mp ⟨put, hput⟩
  · intro hresolvable
    have hsearch : services.searchFault? (kind.token content) = none := hfinds kind content hc
    obtain ⟨found, hfound, -⟩ := h.scalars kind content hc
    have hresolve : (Context.outermost source services expand).resolve kind (nameAndWidth content).1
        = .ok found := (Context.resolve_of_isVariable (h.isVariable hc).1 _).trans hfound
    cases found with
    | some value =>
      obtain ⟨put, hput⟩ := Context.exists_rendering_iff.mpr (hresolvable.widths value hfound)
      exact ⟨put, Context.read_eq_ok_iff.mpr ⟨_, hresolve, hput, hsearch⟩⟩
    | none =>
      cases required with
      | true =>
        obtain ⟨value, hvalue⟩ := hresolvable.resolves (hrequired.mp rfl)
        cases hfound.symm.trans hvalue
      | false => exact ⟨[], Context.read_eq_ok_iff.mpr ⟨_, hresolve, rfl, hsearch⟩⟩

/-- A sweep fails with the first reference that cannot be read, since alike ones can be read together.
-/
theorem sweepFault?_eq (h : RefersToScalars (.ofDocument doc search) ps)
    (hfinds : FindsTokens services ps) (kind : TokenKind) (required : Bool) :
    (Context.outermost (.ofDocument doc search) services false).sweepFault? kind required ps
      = (contents kind ps).findSome?
        ((Context.outermost (.ofDocument doc search) services false).fault? kind required) := by
  refine findSome?_distinctContents _ fun c hc d hd halike hnone => ?_
  obtain ⟨hkind, hcontent⟩ := h.isVariable hc
  obtain ⟨-, hother⟩ := h.isVariable hd
  obtain ⟨put, hput⟩ := Context.fault?_eq_none_iff.mp hnone
  exact Context.fault?_eq_none_iff.mpr
    ⟨put, read_of_alike hkind hcontent hother (hfinds kind d hd) halike hput⟩

theorem variablesFault?_eq (h : RefersToScalars (.ofDocument doc search) ps)
    (hfinds : FindsTokens services ps) :
    (Context.outermost (.ofDocument doc search) services false).variablesFault? ps
      = (Context.outermost (.ofDocument doc search) services false).firstFault? ps := by
  rw [Context.variablesFault?, h.sweepFault?_eq hfinds, h.sweepFault?_eq hfinds]
  rfl

/-- What a reference is read as is its own text, if it can be read. -/
theorem readText_eq (h : RefersToScalars source ps) (hc : content ∈ contents kind ps)
    {expand required : Bool}
    (hread : (Context.outermost source services expand).fault? kind required content = none)
    (tag : Text) :
    (Context.outermost source services expand).readText kind required content
      = (Piece.token kind tag content).ownText source := by
  obtain ⟨put, hput⟩ := Context.fault?_eq_none_iff.mp hread
  obtain ⟨found, hfound, hreadFound, -⟩ := Context.read_eq_ok_iff.mp hput
  rw [Context.resolve_of_isVariable (h.isVariable hc).1] at hfound
  have hsource : source (nameAndWidth content).1 = .ok found := hfound
  rw [Context.readText, hput, Piece.ownText, hsource]
  cases found with
  | some value => exact (textOf_of_rendering hreadFound).symm
  | none =>
    cases required with
    | true => cases hreadFound
    | false => exact (Except.ok.inj hreadFound).symm

theorem isVariableText (h : RefersToScalars (.ofDocument doc search) ps)
    (hdistinct : ∀ kind, (distinctContents (contents kind ps)).length ≤ services.limit) :
    (Context.outermost (.ofDocument doc search) services false).IsVariableText ps where
  kinds kind hoptional hrequired := by
    refine List.eq_nil_iff_forall_not_mem.mpr fun content hc => ?_
    exact (h.isVariable hc).1.elim hrequired hoptional
  reads := h.readsPlain
  limit := hdistinct

/-- No reference fails if and only if all can be resolved. -/
theorem firstFault?_eq_none_iff (h : RefersToScalars source ps) (hfinds : FindsTokens services ps)
    {expand : Bool} :
    (Context.outermost source services expand).firstFault? ps = none
      ↔ ∀ kind, ∀ c ∈ contents kind ps, IsResolvable source kind c := by
  rw [Context.firstFault?, Option.or_eq_none_iff, List.findSome?_eq_none_iff,
    List.findSome?_eq_none_iff]
  constructor
  · intro hgiven kind c hc
    obtain ⟨hoptional, hrequired⟩ := hgiven
    rcases (h.isVariable hc).1 with rfl | rfl
    · exact (h.fault?_eq_none_iff hfinds hc (by decide)).mp (hrequired c hc)
    · exact (h.fault?_eq_none_iff hfinds hc (by decide)).mp (hoptional c hc)
  · intro hall
    exact ⟨fun c hc => (h.fault?_eq_none_iff hfinds hc (by decide)).mpr (hall .optional c hc),
      fun c hc => (h.fault?_eq_none_iff hfinds hc (by decide)).mpr (hall .required c hc)⟩

/-- Reading the first alike reference is reading the reference itself. -/
theorem readText_firstAlike (h : RefersToScalars (.ofDocument doc search) ps)
    (hfinds : FindsTokens services ps) (hc : content ∈ contents kind ps) {required : Bool}
    (hread : ∀ c ∈ contents kind ps,
      (Context.outermost (.ofDocument doc search) services false).fault? kind required c = none) :
    (Context.outermost (.ofDocument doc search) services false).readText kind required
        (firstAlike (contents kind ps) content)
      = (Context.outermost (.ofDocument doc search) services false).readText kind required
        content := by
  obtain ⟨hfirst, halike⟩ := firstAlike_spec _ hc
  have hmem := mem_of_mem_distinctContents _ hfirst
  obtain ⟨hkind, hother⟩ := h.isVariable hc
  obtain ⟨put, hput⟩ := Context.fault?_eq_none_iff.mp (hread _ hmem)
  have hsearch := hfinds kind content hc
  have hsame := read_of_alike hkind (h.isVariable hmem).2 hother hsearch halike hput
  rw [Context.readText, Context.readText, hput, hsame]

theorem shownAs_eq (h : RefersToScalars (.ofDocument doc search) ps)
    (hfinds : FindsTokens services ps)
    (hnone : (Context.outermost (.ofDocument doc search) services false).firstFault? ps = none)
    {p : Piece} (hp : p ∈ ps) :
    (Context.outermost (.ofDocument doc search) services false).shownAs ps p
      = p.ownText (.ofDocument doc search) := by
  rw [Context.firstFault?, Option.or_eq_none_iff, List.findSome?_eq_none_iff,
    List.findSome?_eq_none_iff] at hnone
  cases p with
  | literal text => rfl
  | token kind tag c =>
    have hc : c ∈ contents kind ps := mem_contents_iff.mpr ⟨tag, hp⟩
    rcases (h.isVariable hc).1 with rfl | rfl
    · exact (h.readText_firstAlike hfinds hc hnone.2).trans (h.readText_eq hc (hnone.2 c hc) tag)
    · exact (h.readText_firstAlike hfinds hc hnone.1).trans (h.readText_eq hc (hnone.1 c hc) tag)

/-- Each reference with a value has it kept, under its name in some case. -/
theorem exists_key (h : RefersToScalars (.ofDocument doc search) ps)
    (hc : content ∈ contents kind ps) {value : Text}
    (hvalue : Source.ofDocument doc search (nameAndWidth content).1 = .ok (some value)) :
    ∃ key ∈ ((Context.outermost (.ofDocument doc search) services false).keepVariables ps).keys,
      key.lower = (nameAndWidth content).1.lower := by
  obtain ⟨hfirst, halike⟩ := firstAlike_spec _ hc
  have hmem := mem_of_mem_distinctContents _ hfirst
  have hlower := lower_name_of_alike (h.isVariable hmem).2 (h.isVariable hc).2 halike
  have hsame : (Context.outermost (.ofDocument doc search) services false).found? kind
      (firstAlike (contents kind ps) content) = some value :=
    (h.found?_eq_some_iff hmem).mpr (Source.ofDocument_congr hlower.symm hvalue)
  have hfound := Context.mem_keys_keepRead hfirst (Option.isSome_iff_exists.mpr ⟨value, hsame⟩)
  refine ⟨_, Context.mem_keys_keepVariables ?_, hlower⟩
  rcases (h.isVariable hc).1 with rfl | rfl
  · exact .inr hfound
  · exact .inl hfound

end RefersToScalars

/-- A text of references to scalars is substituted at once, if a search can be built for each of
them. If each reference can be resolved, it gives its own text, and the values that are kept are the
ones of the variables, those of all references with a value among them. If not, the substitution
fails with the first reference that fails, where all optional ones go before the required ones. -/
theorem substitute_references (h : RefersToScalars (.ofDocument doc search) ps)
    (hfinds : FindsTokens services ps) (hlimit : 2 ≤ services.limit)
    (hdistinct : ∀ kind, (distinctContents (contents kind ps)).length ≤ services.limit) :
    ((∀ kind, ∀ c ∈ contents kind ps, IsResolvable (.ofDocument doc search) kind c) →
      ∃ keep, substitute (.ofDocument doc search) services false (render ps)
          = .ok (.single ⟨ps.flatMap (Piece.ownText (.ofDocument doc search)), keep⟩)
        ∧ (∀ e ∈ keep, Source.ofDocument doc search e.1 = .ok (some e.2))
        ∧ ∀ kind, ∀ c ∈ contents kind ps, ∀ value,
          Source.ofDocument doc search (nameAndWidth c).1 = .ok (some value) →
            ∃ key ∈ keep.keys, key.lower = (nameAndWidth c).1.lower)
    ∧ ((¬ ∀ kind, ∀ c ∈ contents kind ps, IsResolvable (.ofDocument doc search) kind c) →
      ∃ e, (Context.outermost (.ofDocument doc search) services false).firstFault? ps = some e
        ∧ substitute (.ofDocument doc search) services false (render ps) = .error e) := by
  have hresult := (Context.putsIn_outermost (.ofDocument doc search) services).substitute_variables
    (h.isVariableText hdistinct) hlimit
  rw [← substitute_eq_outermost, h.variablesFault?_eq hfinds] at hresult
  rw [← h.firstFault?_eq_none_iff hfinds]
  constructor
  · intro hnone
    rw [hnone] at hresult
    have htext : render ((Context.outermost (.ofDocument doc search) services false).readVariables ps)
        = ps.flatMap (Piece.ownText (.ofDocument doc search)) := by
      rw [Context.render_readVariables, List.flatMap_def, List.flatMap_def]
      exact congrArg List.flatten (List.map_congr_left fun p hp => h.shownAs_eq hfinds hnone hp)
    refine ⟨(Context.outermost (.ofDocument doc search) services false).keepVariables ps, ?_,
      fun e he => ?_, fun kind c hc value hvalue => h.exists_key hc hvalue⟩
    · rw [hresult, ← htext]
      rfl
    · obtain ⟨kind, c, hc, hname, hfound⟩ := Context.mem_keepVariables he
      rw [← hname]
      exact (h.found?_eq_some_iff hc).mp hfound
  · intro hsome
    obtain ⟨e, he⟩ := Option.ne_none_iff_exists'.mp hsome
    rw [he] at hresult
    exact ⟨e, he, hresult⟩

/-- One variable, an integer. -/
def integerDocument : Document where
  root := { entries := [(['a'], .scalar ['7'])] }

/-- A reference that may be missing, and one with a width and a capital. -/
def paddedText : List Piece :=
  [.ofKind .optional ['b'], .literal ['x'], .ofKind .required ['A', ':', '2']]

theorem substitute_paddedText :
    ∃ keep, substitute (.ofDocument integerDocument {}) {} false (render paddedText)
        = .ok (.single ⟨['x', '0', '7'], keep⟩)
      ∧ ∃ key ∈ keep.keys, key.lower = ['a'] := by
  have hmem : ∀ kind, ∀ c ∈ contents kind paddedText,
      kind = .optional ∧ c = ['b'] ∨ kind = .required ∧ c = ['A', ':', '2'] := by
    intro kind
    cases kind <;> decide
  have htext : RefersToScalars (.ofDocument integerDocument {}) paddedText := by
    refine ⟨by decide, fun kind c hc => ?_⟩
    rcases hmem kind c hc with ⟨-, rfl⟩ | ⟨-, rfl⟩
    · exact ⟨none, rfl, by decide⟩
    · exact ⟨some ['7'], rfl, by decide⟩
  have hresult := substitute_references htext (fun _ _ _ => rfl)
    (by decide : 2 ≤ ({} : Services).limit) (by
      intro kind
      cases kind <;> decide)
  obtain ⟨keep, hkeep, -, hkeys⟩ := hresult.1 (by
    intro kind c hc
    rcases hmem kind c hc with ⟨rfl, rfl⟩ | ⟨rfl, rfl⟩
    · exact ⟨nofun, nofun⟩
    · refine ⟨fun _ => ⟨['7'], rfl⟩, fun value hvalue w hw => ?_⟩
      obtain rfl := Option.some.inj (Except.ok.inj hvalue)
      obtain rfl := Option.some.inj hw
      exact ⟨⟨2, by decide⟩, 7, by decide⟩)
  exact ⟨keep, hkeep, hkeys .required ['A', ':', '2'] (by decide) ['7'] rfl⟩

end Substitution

end WorkflowControl
