import WorkflowControl.Proofs.Text.Fold

/-!
Texts that are written as a template: literals without `$`, and tokens whose contents have no `$`.
In such a text the tokens are the ones of the template, in order (`first?_render`), and putting a
value in for a token puts it in for the pieces that are this token up to case, and nowhere else
(`replaceAll_render`). No token is nested in another one, and none comes up by accident.
-/

namespace WorkflowControl

open Text Token

/-- A piece of a template. The tag of a token may be in any case. -/
inductive Piece where
  | literal (text : Text)
  | token (kind : TokenKind) (tag content : Text)

namespace Piece

/-- The text of a piece. -/
def text : Piece → Text
  | literal text => text
  | token _ tag content => '$' :: (tag ++ '{' :: (content ++ ['}']))

/-- Whether a content is one that a token of any kind can have. -/
def IsContent (content : Text) : Prop := content ≠ [] ∧ '$' ∉ content ∧ '}' ∉ content

instance (content : Text) : Decidable (IsContent content) := inferInstanceAs (Decidable (_ ∧ _))

/-- Whether no further token begins in a piece. -/
def Plain : Piece → Prop
  | literal text => '$' ∉ text
  | token kind tag content => Alike kind.tag tag ∧ IsContent content

instance : DecidablePred Plain
  | literal text => inferInstanceAs (Decidable ('$' ∉ text))
  | token kind tag content => inferInstanceAs (Decidable (Alike kind.tag tag ∧ IsContent content))

/-- The content of a token of a kind. -/
def contentOf? (kind : TokenKind) : Piece → Option Text
  | literal _ => none
  | token k _ content => if k = kind then some content else none

/-- Whether a piece is the token of a kind with a content, up to case. -/
def isOccurrence (kind : TokenKind) (content : Text) : Piece → Bool
  | literal _ => false
  | token k _ c => k = kind && decide (Alike content c)

/-- The token of a kind as it is made. -/
def ofKind (kind : TokenKind) (content : Text) : Piece := token kind kind.tag content

theorem text_ofKind (kind : TokenKind) (content : Text) :
    (ofKind kind content).text = kind.token content := rfl

theorem plain_ofKind (kind : TokenKind) {content : Text} (h : IsContent content) :
    (ofKind kind content).Plain := ⟨Alike.refl _, h⟩

/-- The occurrences of a token are equal to it if there are no capitals. -/
theorem isOccurrence_iff {kind other : TokenKind} {tag content c : Text} (hcontent : IsFolded content)
    (hc : IsFolded c) :
    (token other tag c).isOccurrence kind content = true ↔ other = kind ∧ c = content := by
  simp only [isOccurrence, Bool.and_eq_true, decide_eq_true_eq, alike_iff_eq hcontent hc]
  exact ⟨fun ⟨hkind, heq⟩ => ⟨hkind, heq.symm⟩, fun ⟨hkind, heq⟩ => ⟨hkind, heq.symm⟩⟩

end Piece

namespace Token

/-! ## Where a token begins -/

theorem isCaseless_dollar : IsCaseless '$' := by decide

theorem isCaseless_brace : IsCaseless '{' := by decide

theorem isCaseless_close : IsCaseless '}' := by decide

theorem brace_not_mem_tag (kind : TokenKind) : '{' ∉ kind.tag := by
  cases kind <;> decide

/-- Tags that are alike are the tags of one kind. -/
theorem kind_eq_of_alike {kind other : TokenKind} (h : Alike kind.tag other.tag) :
    kind = other := by
  revert h
  cases kind <;> cases other <;> decide

theorem behindFolded?_of_ne {start t : Text} {c : Char} (hc : c ≠ '$') :
    behindFolded? ('$' :: start) (c :: t) = none := by
  rw [behindFolded?, if_neg]
  intro hfold
  exact hc (eq_of_foldChar_eq isCaseless_dollar (sameFold_iff.mp hfold).symm)

theorem contentHere?_of_ne {kind : TokenKind} {c : Char} (hc : c ≠ '$') (t : Text) :
    contentHere? kind (c :: t) = none := by
  rw [contentHere?, behindFolded?_of_ne hc]

/-- Where a token starts, only what starts with the same kind of token is found. -/
theorem kind_eq_of_behindFolded? {kind other : TokenKind} {tag start rest behind : Text}
    (htag : Alike other.tag tag)
    (h : behindFolded? ('$' :: (kind.tag ++ '{' :: start)) ('$' :: (tag ++ '{' :: rest))
      = some behind) :
    other = kind ∧ Alike (start ++ behind) rest := by
  have hbrace : '{' ∉ tag := fun hmem =>
    brace_not_mem_tag other ((htag.mem_iff isCaseless_brace).mpr hmem)
  obtain ⟨p, halike, heq⟩ := behindFolded?_eq_some_iff.mp h
  have hwhole : Alike ('$' :: (kind.tag ++ '{' :: (start ++ behind)))
      ('$' :: (tag ++ '{' :: rest)) := by
    rw [heq]
    have happend := halike.append (Alike.refl behind)
    simpa using happend
  -- The brace that opens cannot be in what stands before it.
  obtain ⟨-, htail⟩ := alike_cons.mp hwhole
  obtain ⟨hkinds, hrest⟩ := htail.of_append_sign isCaseless_brace (brace_not_mem_tag kind) hbrace
  exact ⟨(kind_eq_of_alike (hkinds.trans htag.symm)).symm, hrest⟩

/-- What is behind the start of a token, where a token starts. -/
theorem behindFolded?_start {kind other : TokenKind} {tag : Text} (htag : Alike other.tag tag)
    (rest : Text) :
    behindFolded? ('$' :: (kind.tag ++ ['{'])) ('$' :: (tag ++ '{' :: rest))
      = if other = kind then some rest else none := by
  split
  · rename_i hkind
    subst hkind
    have halike : Alike ('$' :: (other.tag ++ ['{'])) ('$' :: (tag ++ ['{'])) :=
      alike_cons.mpr ⟨rfl, htag.append (Alike.refl _)⟩
    have h := behindFolded?_append halike rest
    simpa using h
  · rename_i hkind
    cases hbehind : behindFolded? ('$' :: (kind.tag ++ ['{'])) ('$' :: (tag ++ '{' :: rest)) with
    | none => rfl
    | some behind => exact absurd (kind_eq_of_behindFolded? htag hbehind).1 hkind

/-- The content is taken up to the first character that it cannot have, which is the brace. -/
theorem contentHere?_of_content (kind : TokenKind) {other : TokenKind} {tag content : Text}
    (htag : Alike other.tag tag) (hne : content ≠ [])
    (hchars : ∀ c ∈ content, kind.isContentChar c = true) (rest : Text) :
    contentHere? kind ((Piece.token other tag content).text ++ rest)
      = if other = kind then some content else none := by
  have htext : (Piece.token other tag content).text ++ rest
      = '$' :: (tag ++ '{' :: (content ++ '}' :: rest)) := by
    simp [Piece.text]
  have hstop : kind.isContentChar '}' = false := by simp [TokenKind.isContentChar]
  have htake : (content ++ '}' :: rest).takeWhile kind.isContentChar = content := by
    rw [List.takeWhile_append_of_pos hchars, List.takeWhile_cons, hstop]
    simp
  have hdrop : (content ++ '}' :: rest).dropWhile kind.isContentChar = '}' :: rest := by
    rw [List.dropWhile_append_of_pos hchars, List.dropWhile_cons, hstop]
    simp
  rw [htext, contentHere?, behindFolded?_start htag]
  split
  · rename_i hnone
    split at hnone
    · cases hnone
    · rename_i hkind
      rw [if_neg hkind]
  · rename_i behind hsome
    split at hsome
    · rename_i hkind
      obtain rfl := Option.some.inj hsome
      rw [if_pos hkind, htake, hdrop]
      simp [hne]
    · cases hsome

theorem contentHere?_token (kind : TokenKind) {other : TokenKind} {tag content : Text}
    (htag : Alike other.tag tag) (hcontent : Piece.IsContent content) (rest : Text) :
    contentHere? kind ((Piece.token other tag content).text ++ rest)
      = if other = kind then some content else none := by
  obtain ⟨hne, hdollar, hclose⟩ := hcontent
  refine contentHere?_of_content kind htag hne (fun c hc => ?_) rest
  have hd : c ≠ '$' := fun h => hdollar (h ▸ hc)
  have hb : c ≠ '}' := fun h => hclose (h ▸ hc)
  simp [TokenKind.isContentChar, hd, hb]

theorem hasToken_eq_false_iff {kind : TokenKind} {t : Text} :
    hasToken kind t = false ↔ first? kind t = none := by
  rw [hasToken, Option.isSome_eq_false_iff, Option.isNone_iff_eq_none]

theorem first?_append_of_not_mem {kind : TokenKind} {t : Text} (h : '$' ∉ t) (rest : Text) :
    first? kind (t ++ rest) = first? kind rest := by
  induction t with
  | nil => rfl
  | cons c t ih =>
    have hc : c ≠ '$' := fun heq => h (heq ▸ List.mem_cons_self)
    rw [List.cons_append, first?, contentHere?_of_ne hc]
    exact ih (List.not_mem_of_not_mem_cons h)

theorem first?_eq_none_of_not_mem {kind : TokenKind} {t : Text} (h : '$' ∉ t) :
    first? kind t = none := by
  have hend : first? kind (t ++ []) = first? kind [] := first?_append_of_not_mem h []
  rwa [List.append_nil] at hend

/-! ## Where an occurrence begins -/

theorem dollar_not_mem_behind {kind : TokenKind} {tag content : Text} (htag : Alike kind.tag tag)
    (hcontent : Piece.IsContent content) : '$' ∉ tag ++ '{' :: (content ++ ['}']) := by
  have hkind : '$' ∉ kind.tag := by cases kind <;> decide
  have hin : '$' ∉ tag := fun hmem => hkind ((htag.mem_iff isCaseless_dollar).mpr hmem)
  simpa [hin] using hcontent.2.1

theorem behindFolded?_token (kind : TokenKind) {other : TokenKind} {tag content c : Text}
    (htag : Alike other.tag tag) (hc : '}' ∉ c) (hclose : '}' ∉ content) (rest : Text) :
    behindFolded? (kind.token content) ((Piece.token other tag c).text ++ rest)
      = if (Piece.token other tag c).isOccurrence kind content then some rest else none := by
  split
  · rename_i hoccurrence
    obtain ⟨rfl, halike⟩ : other = kind ∧ Alike content c := by
      simpa [Piece.isOccurrence] using hoccurrence
    refine behindFolded?_append ?_ rest
    exact alike_cons.mpr ⟨rfl, htag.append (alike_cons.mpr ⟨rfl, halike.append (Alike.refl _)⟩)⟩
  · rename_i hnot
    cases hbehind : behindFolded? (kind.token content) ((Piece.token other tag c).text ++ rest) with
    | none => rfl
    | some behind =>
      have hstarts : behindFolded? ('$' :: (kind.tag ++ '{' :: (content ++ ['}'])))
          ('$' :: (tag ++ '{' :: (c ++ '}' :: rest))) = some behind := by
        rw [← hbehind, TokenKind.token, Piece.text]
        simp
      obtain ⟨hkind, hcontents⟩ := kind_eq_of_behindFolded? htag hstarts
      -- The brace that closes cannot be in what stands before it either.
      have hclosed : Alike (content ++ '}' :: behind) (c ++ '}' :: rest) := by
        simpa using hcontents
      obtain ⟨hsame, -⟩ := hclosed.of_append_sign isCaseless_close hclose hc
      exact absurd (by simp [Piece.isOccurrence, hkind, hsame]) hnot

theorem replaceFrom_append_of_not_mem {start value t : Text} (h : '$' ∉ t) (rest : Text) :
    replaceFrom ('$' :: start) value 0 (t ++ rest)
      = t ++ replaceFrom ('$' :: start) value 0 rest := by
  induction t with
  | nil => rfl
  | cons c t ih =>
    have hc : c ≠ '$' := fun heq => h (heq ▸ List.mem_cons_self)
    rw [List.cons_append, replaceFrom, behindFolded?_of_ne hc]
    exact congrArg (c :: ·) (ih (List.not_mem_of_not_mem_cons h))

theorem replaceFrom_skip (token value t rest : Text) :
    replaceFrom token value t.length (t ++ rest) = replaceFrom token value 0 rest := by
  induction t with
  | nil => rfl
  | cons c t ih => exact ih

/-! ## Templates -/

/-- The text of a template. -/
def render (ps : List Piece) : Text := ps.flatMap Piece.text

/-- The contents of the tokens of a kind in a template. -/
def contents (kind : TokenKind) (ps : List Piece) : List Text := ps.filterMap (Piece.contentOf? kind)

theorem mem_contents_iff {kind : TokenKind} {content : Text} {ps : List Piece} :
    content ∈ contents kind ps ↔ ∃ tag, Piece.token kind tag content ∈ ps := by
  unfold contents
  rw [List.mem_filterMap]
  constructor
  · intro hgiven
    obtain ⟨p, hp, hcontent⟩ := hgiven
    cases p with
    | literal text => cases hcontent
    | token other tag c =>
      have hsome : (if other = kind then some c else none) = some content := hcontent
      split at hsome
      · rename_i hkind
        obtain rfl := Option.some.inj hsome
        exact ⟨tag, hkind ▸ hp⟩
      · cases hsome
  · intro hgiven
    obtain ⟨tag, hp⟩ := hgiven
    exact ⟨_, hp, if_pos rfl⟩

theorem first?_piece (kind : TokenKind) {p : Piece} (hp : p.Plain) (rest : Text) :
    first? kind (p.text ++ rest) = (p.contentOf? kind).or (first? kind rest) := by
  cases p with
  | literal text => exact first?_append_of_not_mem hp rest
  | token other tag content =>
    obtain ⟨htag, hcontent⟩ := hp
    have hhere := contentHere?_token kind htag hcontent rest
    have hbehind := dollar_not_mem_behind htag hcontent
    rw [Piece.text, List.cons_append] at hhere ⊢
    rw [first?, hhere, Piece.contentOf?]
    split
    · rename_i found hfound
      rw [hfound, Option.some_or]
    · rename_i hnone
      rw [hnone, Option.none_or, first?_append_of_not_mem hbehind]

/-- The first token of a template is found if it is found in front of any text. -/
theorem first?_render_of_pieces {kind : TokenKind} {ps : List Piece}
    (hps : ∀ p ∈ ps, ∀ rest,
      first? kind (p.text ++ rest) = (p.contentOf? kind).or (first? kind rest)) :
    first? kind (render ps) = (contents kind ps).head? := by
  induction ps with
  | nil => rfl
  | cons p ps ih =>
    have hfirst := hps p (by simp) (render ps)
    rw [ih fun q hq => hps q (List.mem_cons_of_mem _ hq)] at hfirst
    show first? kind (p.text ++ render ps) = _
    rw [hfirst, contents, contents, List.filterMap_cons]
    cases p.contentOf? kind with
    | none => rfl
    | some content => rfl

/-- The first token of a kind is the first one of the template. -/
theorem first?_render {kind : TokenKind} {ps : List Piece} (hps : ∀ p ∈ ps, p.Plain) :
    first? kind (render ps) = (contents kind ps).head? :=
  first?_render_of_pieces fun p hp rest => first?_piece kind (hps p hp) rest

/-- Where no token is nested in a token, only the token as a whole can be an occurrence. -/
theorem replaceFrom_token (kind : TokenKind) {other : TokenKind} {tag content c value rest : Text}
    (htag : Alike other.tag tag) (hc : '}' ∉ c) (hclose : '}' ∉ content)
    (hinside : replaceFrom (kind.token content) value 0 (tag ++ '{' :: (c ++ ['}']) ++ rest)
      = tag ++ '{' :: (c ++ ['}']) ++ replaceFrom (kind.token content) value 0 rest) :
    replaceFrom (kind.token content) value 0 ((Piece.token other tag c).text ++ rest)
      = (if (Piece.token other tag c).isOccurrence kind content then value
          else (Piece.token other tag c).text)
        ++ replaceFrom (kind.token content) value 0 rest := by
  have hbehind := behindFolded?_token kind htag hc hclose rest
  rw [Piece.text, List.cons_append] at hbehind
  rw [Piece.text, List.cons_append, replaceFrom, hbehind]
  split
  · rename_i hoccurrence
    have hlength : (kind.token content).length - 1 = (tag ++ '{' :: (c ++ ['}'])).length := by
      obtain ⟨rfl, halike⟩ : other = kind ∧ Alike content c := by
        simpa [Piece.isOccurrence] using hoccurrence
      have htagLength := htag.length_eq
      have hlengths := halike.length_eq
      simp only [TokenKind.token, List.length_cons, List.length_append]
      omega
    rw [hlength, replaceFrom_skip]
    rfl
  · exact congrArg ('$' :: ·) hinside

theorem replaceFrom_piece (kind : TokenKind) {content : Text} (hclose : '}' ∉ content)
    (value : Text) {p : Piece} (hp : p.Plain) (rest : Text) :
    replaceFrom (kind.token content) value 0 (p.text ++ rest)
      = (if p.isOccurrence kind content then value else p.text)
          ++ replaceFrom (kind.token content) value 0 rest := by
  cases p with
  | literal text => exact replaceFrom_append_of_not_mem hp rest
  | token other tag c =>
    obtain ⟨htag, hc⟩ := hp
    exact replaceFrom_token kind htag hc.2.2 hclose
      (replaceFrom_append_of_not_mem (dollar_not_mem_behind htag hc) rest)

theorem replaceAll_render_of_pieces {kind : TokenKind} {content value : Text} {ps : List Piece}
    (hps : ∀ p ∈ ps, ∀ rest, replaceFrom (kind.token content) value 0 (p.text ++ rest)
      = (if p.isOccurrence kind content then value else p.text)
          ++ replaceFrom (kind.token content) value 0 rest) :
    replaceAll kind content value (render ps)
      = ps.flatMap fun p => if p.isOccurrence kind content then value else p.text := by
  rw [replaceAll]
  induction ps with
  | nil => rfl
  | cons p ps ih =>
    have hfirst := hps p (by simp) (render ps)
    rw [ih fun q hq => hps q (List.mem_cons_of_mem _ hq)] at hfirst
    exact hfirst

/-- Putting in a value for a token puts it in for its occurrences. -/
theorem replaceAll_render {kind : TokenKind} {content : Text} (hclose : '}' ∉ content)
    (value : Text) {ps : List Piece} (hps : ∀ p ∈ ps, p.Plain) :
    replaceAll kind content value (render ps)
      = ps.flatMap fun p => if p.isOccurrence kind content then value else p.text :=
  replaceAll_render_of_pieces fun p hp rest => replaceFrom_piece kind hclose value (hps p hp) rest

/-- The template with other pieces in place of the occurrences of a token. -/
def putPieces (kind : TokenKind) (content : Text) (values ps : List Piece) : List Piece :=
  ps.flatMap fun p => if p.isOccurrence kind content then values else [p]

/-- Putting in the text of a template makes the template with its pieces put in. -/
theorem replaceAll_render_render {kind : TokenKind} {content : Text} (hclose : '}' ∉ content)
    (values : List Piece) {ps : List Piece} (hps : ∀ p ∈ ps, p.Plain) :
    replaceAll kind content (render values) (render ps)
      = render (putPieces kind content values ps) := by
  rw [replaceAll_render hclose _ hps, render, render, putPieces, List.flatMap_assoc,
    List.flatMap_def, List.flatMap_def]
  refine congrArg List.flatten (List.map_congr_left fun p _ => ?_)
  split
  · rfl
  · exact (List.append_nil _).symm

theorem mem_putPieces {kind : TokenKind} {content : Text} {values ps : List Piece} {p : Piece}
    (h : p ∈ putPieces kind content values ps) :
    p ∈ values ∨ p ∈ ps ∧ p.isOccurrence kind content = false := by
  obtain ⟨q, hq, hp⟩ := List.mem_flatMap.mp h
  split at hp
  · exact .inl hp
  · rename_i hnot
    obtain rfl := List.mem_singleton.mp hp
    exact .inr ⟨hq, eq_false_of_ne_true hnot⟩

/-! ## Texts in place of tokens -/

end Token

/-- The piece with a text in place of the token of a kind with a content, up to case. -/
def Piece.putText (kind : TokenKind) (content value : Text) (p : Piece) : Piece :=
  if p.isOccurrence kind content then .literal value else p

namespace Token

variable {kind : TokenKind} {content value : Text} {ps : List Piece}

theorem render_map_putText (kind : TokenKind) (content value : Text) (ps : List Piece) :
    render (ps.map (Piece.putText kind content value))
      = ps.flatMap fun p => if p.isOccurrence kind content then value else p.text := by
  rw [render, List.flatMap_map]
  refine congrArg (List.flatMap · ps) (funext fun p => ?_)
  unfold Piece.putText
  split <;> rfl

theorem replaceAll_render_putText (hclose : '}' ∉ content) (value : Text)
    (hps : ∀ p ∈ ps, p.Plain) :
    replaceAll kind content value (render ps) = render (ps.map (Piece.putText kind content value)) := by
  rw [replaceAll_render hclose _ hps, render_map_putText]

theorem plain_putText (h : '$' ∉ value) {p : Piece} (hp : p.Plain) :
    (p.putText kind content value).Plain := by
  unfold Piece.putText
  split
  · exact h
  · exact hp

theorem contentOf?_putText (kind : TokenKind) (content value : Text) (p : Piece) :
    (p.putText kind content value).contentOf? kind
      = (p.contentOf? kind).filter fun c => !decide (Alike content c) := by
  cases p with
  | literal text => rfl
  | token k tag c =>
    unfold Piece.putText
    by_cases hkind : k = kind
    · by_cases halike : Alike content c
      · simp [Piece.isOccurrence, Piece.contentOf?, hkind, halike, Option.filter_some]
      · simp [Piece.isOccurrence, Piece.contentOf?, hkind, halike, Option.filter_some]
    · simp [Piece.isOccurrence, Piece.contentOf?, hkind]

/-- Putting a text in for a token takes the contents that are alike out of the contents. -/
theorem contents_putText (kind : TokenKind) (content value : Text) (ps : List Piece) :
    contents kind (ps.map (Piece.putText kind content value))
      = (contents kind ps).filter fun c => !decide (Alike content c) := by
  unfold contents
  rw [List.filterMap_map, List.filter_filterMap]
  exact congrArg (List.filterMap · ps) (funext fun p => contentOf?_putText kind content value p)

end Token

end WorkflowControl
