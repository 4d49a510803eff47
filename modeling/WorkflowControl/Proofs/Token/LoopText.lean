import WorkflowControl.Proofs.Token.Template

/-!
Texts of literals and loop markers. The content of a marker may have a `$`, so a marker can end in
the opening of another one, and then the brace closes both (`EndsInMarker`). The first marker of such
a text is still the first one of the template (`first?_render_looping`). Putting a value in for a
marker puts it in for the pieces that are this marker, if no other one ends in it
(`replaceAll_render_looping`).
-/

namespace WorkflowControl

open Text Token

namespace Piece

/-- Whether a piece is a literal without `$` or a loop marker. -/
def Looping : Piece → Prop
  | literal text => '$' ∉ text
  | token kind tag content => kind = .loop ∧ Alike kind.tag tag ∧ content ≠ [] ∧ '}' ∉ content

instance : DecidablePred Looping
  | literal text => inferInstanceAs (Decidable ('$' ∉ text))
  | token kind tag content => inferInstanceAs (Decidable (kind = .loop ∧ Alike kind.tag tag
      ∧ content ≠ [] ∧ '}' ∉ content))

end Piece

namespace Token

/-- A loop marker without the brace that closes it. -/
def markerOpening (content : Text) : Text := '$' :: (TokenKind.loop.tag ++ '{' :: content)

/-- Whether a content ends in the marker of another one, up to the brace that closes both. -/
def EndsInMarker (content inner : Text) : Prop :=
  ∃ behind, behind <:+ content ∧ Alike (markerOpening inner) behind

theorem endsInMarker_iff {content inner : Text} : EndsInMarker content inner
    ↔ Alike (markerOpening inner) (content.drop (content.length - (markerOpening inner).length)) := by
  constructor
  · intro hgiven
    obtain ⟨behind, ⟨start, rfl⟩, halike⟩ := hgiven
    rw [halike.length_eq, List.length_append, Nat.add_sub_cancel, List.drop_left]
    exact halike
  · intro h
    exact ⟨_, List.drop_suffix _ content, h⟩

instance (content inner : Text) : Decidable (EndsInMarker content inner) :=
  decidable_of_iff _ endsInMarker_iff.symm

theorem dollar_not_mem_loopTag {tag : Text} (htag : Alike TokenKind.loop.tag tag) : '$' ∉ tag :=
  fun hmem => absurd ((htag.mem_iff isCaseless_dollar).mpr hmem) (by decide)

theorem token_loop (content : Text) :
    TokenKind.loop.token content = markerOpening content ++ ['}'] := by
  simp [TokenKind.token, markerOpening]

/-- What stands in a content that does not end in a marker is no occurrence of the marker. -/
theorem behindFolded?_inside {content inner : Text} (hclose : '}' ∉ content)
    (hinner : '}' ∉ inner) (hends : ¬ Alike (markerOpening inner) content) (rest : Text) :
    behindFolded? (TokenKind.loop.token inner) (content ++ '}' :: rest) = none := by
  cases hbehind : behindFolded? (TokenKind.loop.token inner) (content ++ '}' :: rest) with
  | none => rfl
  | some behind =>
    obtain ⟨p, halike, heq⟩ := behindFolded?_eq_some_iff.mp hbehind
    have hwhole : Alike (markerOpening inner ++ '}' :: behind) (content ++ '}' :: rest) := by
      have happend := halike.append (Alike.refl behind)
      rw [token_loop, List.append_assoc] at happend
      rw [heq]
      exact happend
    have hopening : '}' ∉ markerOpening inner := by
      simpa [markerOpening, TokenKind.tag] using hinner
    exact absurd (hwhole.of_append_sign isCaseless_close hopening hclose).1 hends

/-- Nothing is put in inside a content that does not end in the marker. -/
theorem replaceFrom_inside {content inner : Text} (hclose : '}' ∉ content) (hinner : '}' ∉ inner)
    (hends : ¬ EndsInMarker content inner) (value rest : Text) :
    replaceFrom (TokenKind.loop.token inner) value 0 (content ++ '}' :: rest)
      = content ++ '}' :: replaceFrom (TokenKind.loop.token inner) value 0 rest := by
  induction content with
  | nil =>
    have hbrace : '}' ≠ '$' := by decide
    rw [List.nil_append, replaceFrom, TokenKind.token, behindFolded?_of_ne hbrace]
    rfl
  | cons c content ih =>
    have hhere : ¬ Alike (markerOpening inner) (c :: content) :=
      fun halike => hends ⟨_, List.suffix_refl _, halike⟩
    have hnone := behindFolded?_inside hclose hinner hhere rest
    rw [List.cons_append] at hnone
    rw [List.cons_append, replaceFrom, hnone]
    refine congrArg (c :: ·) (ih (List.not_mem_of_not_mem_cons hclose) fun hgiven => hends ?_)
    obtain ⟨behind, hsuffix, halike⟩ := hgiven
    exact ⟨behind, hsuffix.trans (List.suffix_cons c content), halike⟩

theorem first?_looping {p : Piece} (hp : p.Looping) (rest : Text) :
    first? .loop (p.text ++ rest) = (p.contentOf? .loop).or (first? .loop rest) := by
  cases p with
  | literal text => exact first?_append_of_not_mem hp rest
  | token kind tag content =>
    obtain ⟨rfl, htag, hne, hclose⟩ := hp
    have hchars : ∀ c ∈ content, TokenKind.loop.isContentChar c = true := by
      intro c hc
      have hb : c ≠ '}' := fun h => hclose (h ▸ hc)
      simp [TokenKind.isContentChar, hb]
    have hhere := contentHere?_of_content .loop htag hne hchars rest
    rw [if_pos rfl] at hhere
    rw [Piece.text, List.cons_append] at hhere ⊢
    rw [first?, hhere]
    rfl

/-- The first marker is the first one of the template. -/
theorem first?_render_looping {ps : List Piece} (hps : ∀ p ∈ ps, p.Looping) :
    first? .loop (render ps) = (contents .loop ps).head? :=
  first?_render_of_pieces fun p hp rest => first?_looping (hps p hp) rest

theorem replaceFrom_looping {content : Text} (hclose : '}' ∉ content) (value : Text) {p : Piece}
    (hp : p.Looping) (hends : ∀ c, p.contentOf? .loop = some c → ¬ EndsInMarker c content)
    (rest : Text) :
    replaceFrom (TokenKind.loop.token content) value 0 (p.text ++ rest)
      = (if p.isOccurrence .loop content then value else p.text)
          ++ replaceFrom (TokenKind.loop.token content) value 0 rest := by
  cases p with
  | literal text => exact replaceFrom_append_of_not_mem hp rest
  | token kind tag c =>
    obtain ⟨rfl, htag, -, hc⟩ := hp
    refine replaceFrom_token .loop htag hc hclose ?_
    have hstart : '$' ∉ tag ++ ['{'] := by
      simpa using dollar_not_mem_loopTag htag
    have hbehind := replaceFrom_inside hc hclose (hends c rfl) value rest
    have hwhole : tag ++ '{' :: (c ++ ['}']) ++ rest = (tag ++ ['{']) ++ (c ++ '}' :: rest) := by
      simp
    rw [hwhole, TokenKind.token, replaceFrom_append_of_not_mem hstart]
    rw [TokenKind.token] at hbehind
    rw [hbehind]
    simp

/-- Putting in a value for a marker puts it in for its occurrences, if no marker ends in it. -/
theorem replaceAll_render_looping {content : Text} (hclose : '}' ∉ content) (value : Text)
    {ps : List Piece} (hps : ∀ p ∈ ps, p.Looping)
    (hends : ∀ c ∈ contents .loop ps, ¬ EndsInMarker c content) :
    replaceAll .loop content value (render ps)
      = ps.flatMap fun p => if p.isOccurrence .loop content then value else p.text :=
  replaceAll_render_of_pieces fun p hp rest =>
    replaceFrom_looping hclose value (hps p hp)
      (fun c hc => hends c (List.mem_filterMap.mpr ⟨p, hp, hc⟩)) rest

/-- A marker is longer than its content. -/
theorem not_endsInMarker_self (content : Text) : ¬ EndsInMarker content content := by
  intro hgiven
  obtain ⟨behind, hsuffix, halike⟩ := hgiven
  have hlength := halike.length_eq
  have hle := hsuffix.length_le
  simp only [markerOpening, List.length_cons, List.length_append] at hlength
  omega

end Token

end WorkflowControl
