import WorkflowControl.Document.Variables
import WorkflowControl.Proofs.Text.Ascii
import WorkflowControl.Proofs.Text.Split
import WorkflowControl.Proofs.Token.Surroundings

/-!
The required tokens of a text and its references. A reference goes from a `$` and an opening brace
to the next closing brace, and has any characters in between; a token has no `$` there. Both end at
a closing brace, and up to each one there is one of either at most. So the tokens of a text are
those of its references, each of which has one or none (`all_eq_filterMap`).
-/

namespace WorkflowControl.Token

open Text

variable {content t u : Text}

/-- The contents of all tokens of a kind in a text, in order. -/
def all (kind : TokenKind) : Text → List Text
  | [] => []
  | c :: cs => (contentHere? kind (c :: cs)).toList ++ all kind cs

/-- The content of the token in a reference, if there is one. -/
def ofReference? (content : Text) : Option Text :=
  first? .required (TokenKind.required.token content)

theorem all_of_contentHere?_eq_none {kind : TokenKind} {c : Char}
    (h : contentHere? kind (c :: t) = none) : all kind (c :: t) = all kind t := by
  rw [all, h]
  rfl

theorem head?_all (kind : TokenKind) (t : Text) : (all kind t).head? = first? kind t := by
  induction t with
  | nil => rfl
  | cons c t ih =>
    rw [all, first?, ← ih]
    cases contentHere? kind (c :: t) <;> rfl

/-! ## Tokens and closing braces -/

/-- A required token has no tag, so it begins with its two signs as they are. -/
theorem contentHere?_required_iff :
    contentHere? .required t = some content
      ↔ Piece.IsContent content ∧ ∃ behind, t = TokenKind.required.token content ++ behind := by
  constructor
  · intro h
    obtain ⟨hne, hchars, -⟩ := contentHere?_spec h
    have hcontent : Piece.IsContent content := by
      refine ⟨hne, fun hmem => ?_, fun hmem => ?_⟩
      · exact absurd (hchars _ hmem) (by decide)
      · exact absurd (hchars _ hmem) (by decide)
    refine ⟨hcontent, ?_⟩
    unfold contentHere? at h
    split at h
    · cases h
    · rename_i rest hrest
      obtain ⟨p, halike, rfl⟩ := behindFolded?_eq_some_iff.mp hrest
      obtain rfl : p = ['$', '{'] := eq_of_alike_of_caseless (by decide) halike
      dsimp only at h
      split at h
      · cases h
      · split at h
        · rename_i hclose
          obtain ⟨behind, hbehind⟩ := List.head?_eq_some_iff.mp (beq_iff_eq.mp hclose)
          have hsplit := rest.takeWhile_append_dropWhile (p := TokenKind.required.isContentChar)
          rw [hbehind, Option.some.inj h] at hsplit
          refine ⟨behind, ?_⟩
          rw [← hsplit, TokenKind.token]
          simp [TokenKind.tag]
        · cases h
  · rintro ⟨hcontent, behind, rfl⟩
    have hhere := contentHere?_token .required (Alike.refl TokenKind.required.tag) hcontent behind
    rw [if_pos rfl] at hhere
    exact hhere

/-- A required token in front of a closing brace is all that is in front of it. -/
theorem contentHere?_append_close_iff (h : '}' ∉ u) (behind : Text) :
    contentHere? .required (u ++ '}' :: behind) = some content
      ↔ Piece.IsContent content ∧ u = '$' :: '{' :: content := by
  rw [contentHere?_required_iff]
  constructor
  · rintro ⟨hcontent, rest, heq⟩
    have hclose : '}' ∉ '$' :: '{' :: content := by simpa using hcontent.2.2
    have hends : u ++ '}' :: behind = ('$' :: '{' :: content) ++ '}' :: rest := by
      rw [heq, TokenKind.token]
      simp [TokenKind.tag]
    exact ⟨hcontent, (append_inj_of_not_mem h hclose hends).1⟩
  · rintro ⟨hcontent, rfl⟩
    refine ⟨hcontent, behind, ?_⟩
    rw [TokenKind.token]
    simp [TokenKind.tag]

/-- A text without a closing brace has no required token. -/
theorem all_of_not_mem (h : '}' ∉ t) : all .required t = [] := by
  induction t with
  | nil => rfl
  | cons c t ih =>
    have hnone : contentHere? .required (c :: t) = none := by
      refine Option.eq_none_iff_forall_ne_some.mpr fun content hcontent => h ?_
      obtain ⟨-, behind, heq⟩ := contentHere?_required_iff.mp hcontent
      rw [heq, TokenKind.token]
      simp
    rw [all_of_contentHere?_eq_none hnone]
    exact ih (List.not_mem_of_not_mem_cons h)

/-- Up to the first closing brace there is one required token at most. -/
theorem all_append_close (h : '}' ∉ u) (behind : Text) :
    all .required (u ++ '}' :: behind)
      = (first? .required (u ++ ['}'])).toList ++ all .required behind := by
  induction u with
  | nil =>
    have hnone : ∀ rest, contentHere? .required ('}' :: rest) = none :=
      contentHere?_of_ne (by decide)
    rw [List.nil_append, List.nil_append, all_of_contentHere?_eq_none (hnone behind), first?,
      hnone []]
    rfl
  | cons c u ih =>
    have hrest := ih (List.not_mem_of_not_mem_cons h)
    cases hhere : contentHere? .required (c :: u ++ ['}']) with
    | none =>
      have hnone : contentHere? .required (c :: u ++ '}' :: behind) = none := by
        refine Option.eq_none_iff_forall_ne_some.mpr fun content hcontent => ?_
        have hiff := (contentHere?_append_close_iff h []).mpr
          ((contentHere?_append_close_iff h behind).mp hcontent)
        rw [hiff] at hhere
        cases hhere
      rw [List.cons_append] at hhere hnone
      rw [List.cons_append, List.cons_append, all_of_contentHere?_eq_none hnone, hrest, first?,
        hhere]
    | some content =>
      have hparts := (contentHere?_append_close_iff h []).mp hhere
      have hwhole := (contentHere?_append_close_iff h behind).mpr hparts
      obtain ⟨⟨-, hdollar, -⟩, heq⟩ := hparts
      -- What is behind the `$` of the token has no other one, and so no other token.
      have hnone : first? .required (u ++ ['}']) = none := by
        refine first?_eq_none_of_not_mem ?_
        rw [(List.cons.inj heq).2]
        simpa using hdollar
      rw [List.cons_append] at hhere hwhole
      rw [List.cons_append, List.cons_append, all, hwhole, hrest, hnone, first?, hhere]
      rfl

/-! ## References -/

theorem referencesFrom_skip (skip : Nat) (t : Text) :
    referencesFrom skip t = referencesFrom 0 (t.drop skip) := by
  induction t generalizing skip with
  | nil => cases skip <;> rfl
  | cons c t ih =>
    cases skip with
    | zero => rfl
    | succ skip => exact ih skip

theorem referencesFrom_of_not_open {c : Char} (h : ∀ rest, c :: t ≠ '$' :: '{' :: rest) :
    referencesFrom 0 (c :: t) = referencesFrom 0 t := by
  rw [referencesFrom]
  intro rest hc ht
  exact h rest (by rw [hc, ht])

/-- Where no closing brace follows there are no more references. -/
theorem referencesFrom_unclosed (h : '}' ∉ t) : referencesFrom 0 ('$' :: '{' :: t) = [] := by
  have htake : t.takeWhile (· != '}') = t := upTo_eq_self h
  simp [referencesFrom, htake]

theorem referencesFrom_empty (behind : Text) :
    referencesFrom 0 ('$' :: '{' :: '}' :: behind) = referencesFrom 0 ('{' :: '}' :: behind) := by
  simp [referencesFrom]

theorem referencesFrom_closed (hne : content ≠ []) (h : '}' ∉ content) (behind : Text) :
    referencesFrom 0 ('$' :: '{' :: (content ++ '}' :: behind))
      = content :: referencesFrom 0 behind := by
  have htake : (content ++ '}' :: behind).takeWhile (· != '}') = content := by
    rw [takeWhile_append_stop]
    · intro c hc
      simpa using fun heq : c = '}' => h (heq ▸ hc)
    · simp
  rw [referencesFrom, htake]
  simp [hne, referencesFrom_skip (content.length + 2)]

/-- The search for references goes on behind a character that opens none, behind the `$` of an
empty one, and behind a whole one, and it ends where one is not closed. What is kept by these steps
holds of every text. -/
theorem references_induction {motive : Text → Prop} (nil : motive [])
    (other : ∀ c t, (∀ rest, c :: t ≠ '$' :: '{' :: rest) → motive t → motive (c :: t))
    (unclosed : ∀ t, '}' ∉ t → motive ('$' :: '{' :: t))
    (empty : ∀ behind, motive ('{' :: '}' :: behind) → motive ('$' :: '{' :: '}' :: behind))
    (closed : ∀ content behind, content ≠ [] → '}' ∉ content → motive behind →
      motive ('$' :: '{' :: (content ++ '}' :: behind))) (t : Text) : motive t :=
  match t with
  | [] => nil
  | c :: t => by
    have ih : ∀ u : Text, u.length < (c :: t).length → motive u := fun u hshorter =>
      references_induction nil other unclosed empty closed u
    by_cases hopen : ∃ rest, c :: t = '$' :: '{' :: rest
    · obtain ⟨rest, hrest⟩ := hopen
      obtain ⟨rfl, rfl⟩ := List.cons.inj hrest
      by_cases hclose : '}' ∈ rest
      · obtain ⟨content, behind, rfl, hcontent⟩ := List.eq_append_cons_of_mem hclose
        cases content with
        | nil => exact empty behind (ih _ (by simp))
        | cons d content =>
          refine closed (d :: content) behind nofun hcontent (ih _ ?_)
          simp only [List.length_cons, List.length_append]
          omega
      · exact unclosed rest hclose
    · exact other c t (fun rest hrest => hopen ⟨rest, hrest⟩) (ih t (by simp))
termination_by t.length
decreasing_by exact hshorter

/-- The tokens of a text are those of its references. -/
theorem all_eq_filterMap (t : Text) :
    all .required t = (referencesFrom 0 t).filterMap ofReference? := by
  induction t using references_induction with
  | nil => rfl
  | other c t hother ih =>
    have hnone : contentHere? .required (c :: t) = none := by
      refine Option.eq_none_iff_forall_ne_some.mpr fun content hcontent => ?_
      obtain ⟨-, behind, heq⟩ := contentHere?_required_iff.mp hcontent
      exact hother _ heq
    rw [all_of_contentHere?_eq_none hnone, referencesFrom_of_not_open hother, ih]
  | unclosed t hclose =>
    have hnone : '}' ∉ '$' :: '{' :: t := by simpa using hclose
    rw [all_of_not_mem hnone, referencesFrom_unclosed hclose]
    rfl
  | empty behind ih =>
    rw [referencesFrom_empty, ← ih]
    rfl
  | closed content behind hne hclose ih =>
    have hnone : '}' ∉ '$' :: '{' :: content := by simpa using hclose
    rw [referencesFrom_closed hne hclose, ← List.cons_append, ← List.cons_append,
      all_append_close hnone, ih, List.filterMap_cons]
    show (ofReference? content).toList ++ _ = _
    cases ofReference? content <;> rfl

theorem mem_referencesFrom (h : content ∈ referencesFrom 0 t) : content ≠ [] ∧ '}' ∉ content := by
  induction t using references_induction with
  | nil => cases h
  | other c t hother ih =>
    rw [referencesFrom_of_not_open hother] at h
    exact ih h
  | unclosed t hclose =>
    rw [referencesFrom_unclosed hclose] at h
    cases h
  | empty behind ih =>
    rw [referencesFrom_empty] at h
    exact ih h
  | closed first behind hne hclose ih =>
    rw [referencesFrom_closed hne hclose] at h
    rcases List.mem_cons.mp h with rfl | h
    · exact ⟨hne, hclose⟩
    · exact ih h

/-- A reference without `$` in it is a token. -/
theorem ofReference?_of_isContent (h : Piece.IsContent content) :
    ofReference? content = some content := by
  have hhere : contentHere? .required (TokenKind.required.token content) = some content :=
    contentHere?_required_iff.mpr ⟨h, [], (List.append_nil _).symm⟩
  rw [ofReference?, TokenKind.token, first?]
  rw [TokenKind.token] at hhere
  rw [hhere]

end WorkflowControl.Token
