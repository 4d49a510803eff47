import WorkflowControl.Proofs.Substitution.Flat

/-!
Whether the branches of an expansion are fully substituted. No branch has a loop marker. A branch
can have another token, since an item that is put in for a marker may complete one, as in a name
that is made of a literal and a list, and nothing is swept after the unrolling. This happens
exactly if some choice of items for the markers completes a token
(`tokenFree_branches_iff`). It does not happen where no token is nested in another one.
-/

namespace WorkflowControl

open Text Token

/-- Whether a text has no token of any kind. -/
def TokenFree (t : Text) : Prop := ∀ kind, hasToken kind t = false

instance (t : Text) : Decidable (TokenFree t) :=
  decidable_of_iff (∀ kind ∈ [TokenKind.required, .optional, .header, .function, .loop],
      hasToken kind t = false)
    ⟨fun h kind => h kind (by cases kind <;> decide), fun h kind _ => h kind⟩

theorem tokenFree_of_not_mem {t : Text} (h : '$' ∉ t) : TokenFree t :=
  fun _ => hasToken_eq_false_iff.mpr (first?_eq_none_of_not_mem h)

namespace Substitution

/-- An expansion leaves no marker in its branches. They are free of other tokens if and only if no
choice of items for the markers of the settled text completes one. No choice does if the settled
text is a template of markers and the lists have no `$`, and always if neither the text nor a value
nests tokens and headers and calls give no `$`. -/
theorem tokenFree_branches_iff {source : Source} {services : Services} {text : Text}
    {branches : List Branch}
    (h : substitute source services true text = .ok (.multi branches)) :
    (∀ b ∈ branches, hasToken .loop b.value = false)
    ∧ (∃ settled, (Context.outermost source services true).settleText text = .ok settled
      ∧ ((∀ b ∈ branches, TokenFree b.value)
        ↔ ¬ ∃ final, (Context.outermost source services true).Unrolls settled final
            ∧ ∃ kind, hasToken kind final.value = true)
      ∧ (FlatIn (· = .loop) settled.value →
          (Context.outermost source services true).PlainLists → ∀ b ∈ branches, TokenFree b.value))
    ∧ (Flat text → (∀ name value, source name = .ok (some value) → Flat value) →
        PlainServices services → ∀ b ∈ branches, TokenFree b.value) := by
  have houtermost := h
  rw [substitute_eq_outermost] at houtermost
  obtain ⟨settled, hsettled, hmem⟩ := Context.substitute_eq_ok houtermost
  refine ⟨fun b hb => ?_, ⟨settled, hsettled, ⟨?_, ?_⟩, ?_⟩, ?_⟩
  · have hnone := ((hmem b).mp hb).first?_eq_none
    rw [hasToken, hnone]
    rfl
  · intro hfree hgiven
    obtain ⟨final, hfinal, kind, htoken⟩ := hgiven
    rw [hfree final ((hmem final).mpr hfinal) kind] at htoken
    cases htoken
  · intro hnone b hb kind
    cases htoken : hasToken kind b.value with
    | false => rfl
    | true => exact absurd ⟨b, (hmem b).mp hb, kind, htoken⟩ hnone
  · intro hflat hlists b hb
    have hfinal := Context.flatIn_of_unrolls hlists hflat ((hmem b).mp hb)
    exact tokenFree_of_not_mem (hfinal.dollar_not_mem fun kind hkind => hkind.2 hkind.1)
  · intro hflat hsource hservices b hb
    exact tokenFree_of_not_mem (dollar_not_mem_of_substitute hsource hservices hflat h b hb)

/-- A list of bands, and a value for each band under a name that ends in the band. -/
def bandDocument : Document where
  root := { entries := [
    (['b', 'a', 'n', 'd'], .scalar ['g', ',', 'r']),
    (['r', 'm', 's', '_', 'g'], .scalar ['1']),
    (['r', 'm', 's', '_', 'r'], .scalar ['2'])] }

/-- The value of the band, by a variable whose name has the band in it. -/
def bandText : Text :=
  ['$', '{', 'r', 'm', 's', '_', '$', '{', 'b', 'a', 'n', 'd', '}', '}']

def bandBranches : List Branch := [
  ⟨['$', '{', 'r', 'm', 's', '_', 'g', '}'], [(['b', 'a', 'n', 'd'], ['g'])]⟩,
  ⟨['$', '{', 'r', 'm', 's', '_', 'r', '}'], [(['b', 'a', 'n', 'd'], ['r'])]⟩]

/-- An item completes the name of a variable, and the variable is left in the branch. -/
theorem not_tokenFree_bandBranches :
    substitute (.ofDocument bandDocument {}) {} true bandText = .ok (.multi bandBranches)
      ∧ ∃ settled final, (Context.outermost (.ofDocument bandDocument {}) {} true).settleText bandText
            = .ok settled
          ∧ (Context.outermost (.ofDocument bandDocument {}) {} true).Unrolls settled final
          ∧ ∃ kind, hasToken kind final.value = true := by
  have hok : substitute (.ofDocument bandDocument {}) {} true bandText
      = .ok (.multi bandBranches) := rfl
  obtain ⟨-, ⟨settled, hsettled, hiff, -⟩, -⟩ := tokenFree_branches_iff hok
  have hnot : ¬ ∀ b ∈ bandBranches, TokenFree b.value := by decide
  obtain ⟨final, hfinal, htoken⟩ := Classical.not_not.mp (mt hiff.mpr hnot)
  exact ⟨hok, settled, final, hsettled, hfinal, htoken⟩

end Substitution

end WorkflowControl
