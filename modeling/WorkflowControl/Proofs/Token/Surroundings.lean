import WorkflowControl.Proofs.Text.Trim
import WorkflowControl.Proofs.Token.Template

/-!
Tokens in any text. An occurrence of a token has one `$`, where it begins, and one closing brace,
where it ends. So two tokens in a text are apart or the same: a token in a text is found
(`first?_isSome_of_isInfix`), and when another token is replaced it is replaced as a whole or stays
(`infix_replaceAll`).
-/

namespace WorkflowControl.Token

open Text

variable {kind : TokenKind} {content value t u : Text}

/-! ## What is found -/

theorem behindFolded?_subset {start rest : Text} (h : behindFolded? start t = some rest) :
    rest ⊆ t := by
  obtain ⟨p, -, rfl⟩ := behindFolded?_eq_some_iff.mp h
  exact List.subset_append_right p rest

/-- The content of a token stands in the text, and has only characters that a content may have. -/
theorem contentHere?_spec (h : contentHere? kind t = some content) :
    content ≠ [] ∧ (∀ c ∈ content, kind.isContentChar c = true) ∧ content ⊆ t := by
  unfold contentHere? at h
  split at h
  · cases h
  · rename_i rest hrest
    dsimp only at h
    split at h
    · cases h
    · rename_i hne
      split at h
      · obtain rfl := Option.some.inj h
        refine ⟨by simpa using hne, fun c hc => of_mem_takeWhile hc, fun c hc => ?_⟩
        exact behindFolded?_subset hrest (List.takeWhile_subset _ hc)
      · cases h

theorem first?_spec (h : first? kind t = some content) :
    content ≠ [] ∧ (∀ c ∈ content, kind.isContentChar c = true) ∧ content ⊆ t := by
  induction t with
  | nil => cases h
  | cons c t ih =>
    unfold first? at h
    split at h
    · rename_i found hfound
      obtain rfl := Option.some.inj h
      exact contentHere?_spec hfound
    · obtain ⟨hne, hchars, hsubset⟩ := ih h
      exact ⟨hne, hchars, fun d hd => List.mem_cons_of_mem c (hsubset hd)⟩

theorem isContent_of_first? (hkind : kind ≠ .loop) (h : first? kind t = some content) :
    Piece.IsContent content := by
  obtain ⟨hne, hchars, -⟩ := first?_spec h
  refine ⟨hne, fun hmem => ?_, fun hmem => ?_⟩
  · have hdollar := hchars _ hmem
    simp [TokenKind.isContentChar, hkind] at hdollar
  · have hclose := hchars _ hmem
    simp [TokenKind.isContentChar] at hclose

/-- A token that stands in a text is found, or one of its kind in front of it. -/
theorem first?_isSome_of_isInfix {tag : Text} (htag : Alike kind.tag tag)
    (hcontent : Piece.IsContent content) (h : (Piece.token kind tag content).text <:+: t) :
    (first? kind t).isSome = true := by
  obtain ⟨before, behind, rfl⟩ := h
  rw [List.append_assoc]
  induction before with
  | nil =>
    have hhere := first?_piece kind (p := .token kind tag content) ⟨htag, hcontent⟩ behind
    rw [List.nil_append, hhere, Piece.contentOf?, if_pos rfl]
    rfl
  | cons c before ih =>
    rw [List.cons_append, first?]
    split
    · rfl
    · exact ih

/-! ## What is replaced -/

theorem mem_replaceFrom {token : Text} {skip : Nat} {c : Char}
    (h : c ∈ replaceFrom token value skip t) : c ∈ value ∨ c ∈ t := by
  induction t generalizing skip with
  | nil => cases skip <;> cases h
  | cons d t ih =>
    cases skip with
    | succ skip => exact (ih h).imp_right (List.mem_cons_of_mem d)
    | zero =>
      unfold replaceFrom at h
      split at h
      · rcases List.mem_append.mp h with h | h
        · exact .inl h
        · exact (ih h).imp_right (List.mem_cons_of_mem d)
      · rcases List.mem_cons.mp h with rfl | h
        · exact .inr List.mem_cons_self
        · exact (ih h).imp_right (List.mem_cons_of_mem d)

/-- An occurrence that begins in front of a `$` ends in front of it. -/
theorem behindFolded?_append_dollar {start : Text} (hstart : '$' ∉ start) (rest : Text) :
    behindFolded? start (t ++ '$' :: rest)
      = (behindFolded? start t).map (· ++ '$' :: rest) := by
  induction start generalizing t with
  | nil => rfl
  | cons s start ih =>
    cases t with
    | nil =>
      have hs : s ≠ '$' := fun heq => hstart (heq ▸ List.mem_cons_self)
      refine if_neg fun hfold => ?_
      exact hs (eq_of_foldChar_eq isCaseless_dollar (sameFold_iff.mp hfold))
    | cons c t =>
      rw [List.cons_append, behindFolded?, behindFolded?, ih (List.not_mem_of_not_mem_cons hstart)]
      split <;> rfl

/-- A text is replaced apart in front of a `$` and from there on. -/
theorem replaceFrom_append_dollar {start : Text} (hstart : '$' ∉ start) (value rest : Text)
    {skip : Nat} (hskip : skip ≤ t.length) :
    replaceFrom ('$' :: start) value skip (t ++ '$' :: rest)
      = replaceFrom ('$' :: start) value skip t
        ++ replaceFrom ('$' :: start) value 0 ('$' :: rest) := by
  induction t generalizing skip with
  | nil =>
    obtain rfl : skip = 0 := Nat.le_zero.mp hskip
    rfl
  | cons c t ih =>
    cases skip with
    | succ skip => exact ih (Nat.le_of_succ_le_succ hskip)
    | zero =>
      have hbehind : behindFolded? ('$' :: start) (c :: t ++ '$' :: rest)
          = (behindFolded? ('$' :: start) (c :: t)).map (· ++ '$' :: rest) := by
        rw [List.cons_append, behindFolded?, behindFolded?, behindFolded?_append_dollar hstart]
        split <;> rfl
      rw [List.cons_append] at hbehind
      rw [List.cons_append, replaceFrom, replaceFrom, hbehind, Option.isSome_map]
      split
      · rename_i hsome
        obtain ⟨behind, hsome⟩ := Option.isSome_iff_exists.mp hsome
        obtain ⟨p, halike, heq⟩ := behindFolded?_eq_some_iff.mp hsome
        have hlength := congrArg List.length heq
        have hp := halike.length_eq
        simp only [List.length_cons, List.length_append] at hlength hp
        rw [ih (by simp only [List.length_cons]; omega), List.append_assoc]
      · rw [ih (Nat.zero_le _)]
        rfl

theorem replaceAll_append_dollar (hcontent : '$' ∉ content) (value rest : Text) :
    replaceAll kind content value (t ++ '$' :: rest)
      = replaceAll kind content value t ++ replaceAll kind content value ('$' :: rest) := by
  have hkind : '$' ∉ kind.tag := by cases kind <;> decide
  refine replaceFrom_append_dollar ?_ value rest (Nat.zero_le _)
  simp [hkind, hcontent]

/-- A token that stands in a text stays when another token is replaced, and otherwise the value
stands in its place. -/
theorem infix_replaceAll (kind : TokenKind) {other : TokenKind} {tag c : Text}
    (htag : Alike other.tag tag) (hc : Piece.IsContent c) (hcontent : Piece.IsContent content)
    (value : Text) (h : (Piece.token other tag c).text <:+: t) :
    (if (Piece.token other tag c).isOccurrence kind content then value
      else (Piece.token other tag c).text) <:+: replaceAll kind content value t := by
  obtain ⟨before, behind, rfl⟩ := h
  have hsplit : replaceAll kind content value (before ++ ((Piece.token other tag c).text ++ behind))
      = replaceAll kind content value before
        ++ replaceAll kind content value ((Piece.token other tag c).text ++ behind) :=
    replaceAll_append_dollar hcontent.2.1 value _
  have hpiece : replaceAll kind content value ((Piece.token other tag c).text ++ behind)
      = (if (Piece.token other tag c).isOccurrence kind content then value
          else (Piece.token other tag c).text) ++ replaceAll kind content value behind :=
    replaceFrom_piece kind hcontent.2.2 value (p := .token other tag c) ⟨htag, hc⟩ behind
  rw [List.append_assoc before, hsplit, hpiece]
  exact ⟨_, _, List.append_assoc _ _ _⟩

end WorkflowControl.Token
