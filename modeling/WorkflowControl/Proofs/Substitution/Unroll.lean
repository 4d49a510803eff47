import WorkflowControl.Proofs.Outcome
import WorkflowControl.Substitution.Unroll

/-!
What unrolling gives. Each choice of an item for the first marker, then for the first marker of what
comes out, and so on, is a way to unroll a branch (`Unrolls`). The branches that come out of the
work list are exactly those that such choices lead to (`mem_unroll_iff`), so none of them has a
marker left (`Unrolls.first?_eq_none`).
-/

namespace WorkflowControl

/-- An item that is chosen for a marker, and the text that stands for it. -/
structure Choice where
  content : Text
  rendered : Text
  item : Text

/-- The branch with a choice put in for a marker. -/
def Branch.choose (branch : Branch) (choice : Choice) : Branch :=
  ⟨Token.replaceAll .loop choice.content choice.rendered branch.value,
    branch.keep.put (Token.nameAndWidth choice.content).1 choice.item⟩

namespace Substitution.Context

open Outcome

variable {ctx : Context}

/-- The text that stands for an item in a marker. -/
def renderItem (width? : Option Nat) (item : Text) : Except Error Text :=
  match width? with
  | some width => padded width item
  | none => .ok item

/-- The list that the marker of a content stands for. -/
def markerList (ctx : Context) (content : Text) : Except Error Text := do
  match ← ctx.source (Token.nameAndWidth content).1 with
  | some value => ctx.settle value
  | none => .error (.lookup (Token.nameAndWidth content).1)

/-- The choices for the marker of a content, in the order of its list. -/
def choices (ctx : Context) (content : Text) : Except Error (List Choice) := do
  let raw ← ctx.markerList content
  checkSearch ctx.services .loop content
  let width? ← (Token.nameAndWidth content).2.mapM (width content)
  (ItemList.split raw ',').mapM fun item =>
    (renderItem width? item).map fun rendered => ⟨content, rendered, item⟩

/-- The text that stands for an item in a token: the item, or the number that it is with zeros in
front up to the width of the token. -/
def rendering (content item : Text) : Except Error Text := do
  let width? ← (Token.nameAndWidth content).2.mapM (width content)
  renderItem width? item

theorem rendering_of_none {content : Text} (h : (Token.nameAndWidth content).2 = none)
    (item : Text) : rendering content item = .ok item := by
  rw [rendering, h]
  rfl

/-- The choices for a marker are the items of its list, each with the text that stands for it. -/
theorem choices_eq_ok {content : Text} {options : List Choice}
    (h : ctx.choices content = .ok options) :
    ∃ raw, ctx.markerList content = .ok raw
      ∧ (∀ item ∈ ItemList.split raw ',', ∃ rendered, rendering content item = .ok rendered)
      ∧ ∀ choice, choice ∈ options ↔ ∃ item ∈ ItemList.split raw ',', ∃ rendered,
          rendering content item = .ok rendered ∧ choice = ⟨content, rendered, item⟩ := by
  unfold choices at h
  obtain ⟨raw, hraw, h⟩ := bind_eq_ok_iff.mp h
  obtain ⟨-, -, h⟩ := bind_eq_ok_iff.mp h
  obtain ⟨width?, hwidth, h⟩ := bind_eq_ok_iff.mp h
  have hrendering : rendering content = renderItem width? := by
    funext item
    rw [rendering, hwidth]
    rfl
  rw [hrendering]
  refine ⟨raw, hraw, fun item hitem => ?_, fun choice => ?_⟩
  · obtain ⟨choice, -, hmade⟩ := exists_of_mapM h hitem
    obtain ⟨rendered, hrendered, -⟩ := map_eq_ok_iff.mp hmade
    exact ⟨rendered, hrendered⟩
  · rw [mem_of_mapM h]
    constructor
    · intro hgiven
      obtain ⟨item, hitem, hmade⟩ := hgiven
      obtain ⟨rendered, hrendered, rfl⟩ := map_eq_ok_iff.mp hmade
      exact ⟨item, hitem, rendered, hrendered, rfl⟩
    · intro hgiven
      obtain ⟨item, hitem, rendered, hrendered, rfl⟩ := hgiven
      exact ⟨item, hitem, by rw [hrendered]; rfl⟩

theorem unrollFirst_of_first {branch : Branch} {content : Text}
    (h : Token.first? .loop branch.value = some content) :
    ctx.unrollFirst branch = (ctx.choices content).map (List.map branch.choose) := by
  -- Both sides go through the same steps, so they fail at the same one if one fails.
  unfold unrollFirst choices markerList
  rw [h]
  dsimp only
  cases ctx.source (Token.nameAndWidth content).1 with
  | error e => rfl
  | ok found =>
    cases found with
    | none => rfl
    | some value =>
      show (ctx.settle value >>= _) = Except.map _ (ctx.settle value >>= _)
      cases ctx.settle value with
      | error e => rfl
      | ok raw =>
        show (checkSearch ctx.services .loop content >>= _)
          = Except.map _ (checkSearch ctx.services .loop content >>= _)
        cases checkSearch ctx.services .loop content with
        | error e => rfl
        | ok _ =>
          show ((Token.nameAndWidth content).2.mapM (width content) >>= _)
            = Except.map _ ((Token.nameAndWidth content).2.mapM (width content) >>= _)
          cases (Token.nameAndWidth content).2.mapM (width content) with
          | error e => rfl
          | ok width? =>
            show List.mapM _ (ItemList.split raw ',') = Except.map _ (List.mapM _ _)
            rw [mapM_map]
            refine congrArg (List.mapM · _) (funext fun item => ?_)
            unfold renderItem
            cases width? with
            | none => rfl
            | some w =>
              dsimp only
              cases padded w item <;> rfl

theorem unrollFirst_of_none {branch : Branch} (h : Token.first? .loop branch.value = none) :
    ctx.unrollFirst branch = .ok [branch] := by
  rw [unrollFirst, h]

theorem unrollFrom_nil (input : Text) (budget : Nat) : ctx.unrollFrom input budget [] = .ok [] := by
  cases budget <;> rfl

/-- There are no branches if there are no choices for the first marker. -/
theorem unroll_of_choices_error {branch : Branch} {content : Text} {e : Error}
    (hfirst : Token.first? .loop branch.value = some content)
    (hchoices : ctx.choices content = .error e) (hlimit : ctx.services.limit ≠ 0) :
    ctx.unroll branch = .error e := by
  have hunrolled : ctx.unrollFirst branch = .error e := by
    rw [unrollFirst_of_first hfirst, hchoices]
    rfl
  have hmarker : Token.hasToken .loop branch.value = true := by
    rw [Token.hasToken, hfirst]
    rfl
  obtain ⟨budget, hbudget⟩ := Nat.exists_eq_succ_of_ne_zero hlimit
  rw [unroll, if_pos hmarker, hbudget, unrollFrom, List.mapM_cons, hunrolled]
  · rfl
  · intro hnil
    cases hnil

/-- Of the branches that a step leads to, those without markers are done. -/
theorem unrollFrom_succ {input : Text} {budget : Nat} {branches next : List Branch}
    (h : (branches.mapM ctx.unrollFirst).map List.flatten = .ok next) :
    ctx.unrollFrom input (budget + 1) branches
      = (ctx.unrollFrom input budget (next.filter fun b => Token.hasToken .loop b.value)).map
          (next.filter (fun b => !Token.hasToken .loop b.value) ++ ·) := by
  obtain ⟨nested, hnested, rfl⟩ := map_eq_ok_iff.mp h
  cases branches with
  | nil =>
    obtain rfl := Except.ok.inj hnested
    show _ = Except.map _ (ctx.unrollFrom input budget [])
    rw [unrollFrom_nil, unrollFrom_nil]
    rfl
  | cons b bs =>
    rw [unrollFrom, hnested]
    · exact bind_ok_eq_map (ctx.unrollFrom input budget _) _
    · intro hnil
      cases hnil

/-- Whether choices for the markers of a branch, in the order in which they come up, lead to a
branch without markers. -/
inductive Unrolls (ctx : Context) : Branch → Branch → Prop
  | closed {branch : Branch} (h : Token.first? .loop branch.value = none) :
    Unrolls ctx branch branch
  | choose {branch final : Branch} {content : Text} {options : List Choice} {choice : Choice}
    (hfirst : Token.first? .loop branch.value = some content)
    (hoptions : ctx.choices content = .ok options) (hchoice : choice ∈ options)
    (hrest : Unrolls ctx (branch.choose choice) final) : Unrolls ctx branch final

theorem Unrolls.first?_eq_none {branch final : Branch} (h : ctx.Unrolls branch final) :
    Token.first? .loop final.value = none := by
  induction h with
  | closed h => exact h
  | choose _ _ _ _ ih => exact ih

theorem unrolls_of_none {branch final : Branch} (h : Token.first? .loop branch.value = none) :
    ctx.Unrolls branch final ↔ final = branch := by
  constructor
  · intro hunrolls
    cases hunrolls with
    | closed _ => rfl
    | choose hfirst _ _ _ =>
      rw [h] at hfirst
      cases hfirst
  · intro heq
    subst heq
    exact .closed h

theorem unrolls_of_first {branch final : Branch} {content : Text}
    (h : Token.first? .loop branch.value = some content) :
    ctx.Unrolls branch final ↔ ∃ options, ctx.choices content = .ok options
      ∧ ∃ choice ∈ options, ctx.Unrolls (branch.choose choice) final := by
  constructor
  · intro hunrolls
    cases hunrolls with
    | closed hnone =>
      rw [h] at hnone
      cases hnone
    | choose hfirst hoptions hchoice hrest =>
      rw [h] at hfirst
      obtain rfl := Option.some.inj hfirst
      exact ⟨_, hoptions, _, hchoice, hrest⟩
  · intro hgiven
    obtain ⟨options, hoptions, choice, hchoice, hrest⟩ := hgiven
    exact .choose h hoptions hchoice hrest

/-- A branch unrolls into what the branches of its first step unroll into. -/
theorem unrolls_iff_unrollFirst {branch final : Branch} {next : List Branch}
    (h : ctx.unrollFirst branch = .ok next) :
    ctx.Unrolls branch final ↔ ∃ b ∈ next, ctx.Unrolls b final := by
  cases hfirst : Token.first? .loop branch.value with
  | none =>
    rw [unrollFirst_of_none hfirst] at h
    obtain rfl := Except.ok.inj h
    simp
  | some content =>
    rw [unrollFirst_of_first hfirst] at h
    obtain ⟨options, hoptions, rfl⟩ := map_eq_ok_iff.mp h
    rw [unrolls_of_first hfirst]
    constructor
    · intro hgiven
      obtain ⟨others, hothers, choice, hchoice, hrest⟩ := hgiven
      rw [hoptions] at hothers
      obtain rfl := Except.ok.inj hothers
      exact ⟨_, List.mem_map_of_mem hchoice, hrest⟩
    · intro hgiven
      obtain ⟨b, hb, hrest⟩ := hgiven
      obtain ⟨choice, hchoice, rfl⟩ := List.mem_map.mp hb
      exact ⟨options, hoptions, choice, hchoice, hrest⟩

/-- Branches unroll into what the branches of their first steps unroll into. -/
theorem exists_unrolls_iff_flatten {branches : List Branch} {nested : List (List Branch)}
    (h : branches.mapM ctx.unrollFirst = .ok nested) (final : Branch) :
    (∃ b ∈ branches, ctx.Unrolls b final) ↔ ∃ b ∈ nested.flatten, ctx.Unrolls b final := by
  constructor
  · intro hgiven
    obtain ⟨b, hb, hunrolls⟩ := hgiven
    obtain ⟨next, hnext, hfirst⟩ := exists_of_mapM h hb
    obtain ⟨c, hc, hfinal⟩ := (unrolls_iff_unrollFirst hfirst).mp hunrolls
    exact ⟨c, List.mem_flatten.mpr ⟨next, hnext, hc⟩, hfinal⟩
  · intro hgiven
    obtain ⟨c, hc, hfinal⟩ := hgiven
    obtain ⟨next, hnext, hc⟩ := List.mem_flatten.mp hc
    obtain ⟨b, hb, hfirst⟩ := (mem_of_mapM h).mp hnext
    exact ⟨b, hb, (unrolls_iff_unrollFirst hfirst).mpr ⟨c, hc, hfinal⟩⟩

/-- A branch is done or pending, by whether it has a marker. -/
theorem exists_unrolls_iff_filter (branches : List Branch) (final : Branch) :
    (∃ b ∈ branches, ctx.Unrolls b final)
      ↔ final ∈ branches.filter (fun b => !Token.hasToken .loop b.value)
        ∨ ∃ b ∈ branches.filter (fun b => Token.hasToken .loop b.value), ctx.Unrolls b final := by
  constructor
  · intro hgiven
    obtain ⟨b, hb, hfinal⟩ := hgiven
    cases hmarker : Token.first? .loop b.value with
    | none =>
      obtain rfl := (unrolls_of_none hmarker).mp hfinal
      exact .inl (List.mem_filter.mpr ⟨hb, by simp [Token.hasToken, hmarker]⟩)
    | some content =>
      exact .inr ⟨b, List.mem_filter.mpr ⟨hb, by simp [Token.hasToken, hmarker]⟩, hfinal⟩
  · rintro (hclosed | ⟨b, hb, hfinal⟩)
    · obtain ⟨hmem, hclosed⟩ := List.mem_filter.mp hclosed
      refine ⟨final, hmem, .closed ?_⟩
      simpa [Token.hasToken] using hclosed
    · exact ⟨b, (List.mem_filter.mp hb).1, hfinal⟩

/-- The work list ends with the branches that its branches unroll into. -/
theorem mem_unrollFrom_iff {input : Text} {budget : Nat} {branches out : List Branch}
    (h : ctx.unrollFrom input budget branches = .ok out) {final : Branch} :
    final ∈ out ↔ ∃ b ∈ branches, ctx.Unrolls b final := by
  induction budget generalizing branches out with
  | zero =>
    cases branches with
    | nil =>
      obtain rfl := Except.ok.inj h
      simp
    | cons b bs => cases h
  | succ budget ih =>
    cases branches with
    | nil =>
      obtain rfl := Except.ok.inj h
      simp
    | cons b bs =>
      unfold unrollFrom at h
      obtain ⟨nested, hnested, h⟩ := bind_eq_ok_iff.mp h
      obtain ⟨rest, hrest, h⟩ := bind_eq_ok_iff.mp h
      obtain rfl := Except.ok.inj h
      rw [exists_unrolls_iff_flatten hnested, exists_unrolls_iff_filter, List.mem_append, ih hrest]

theorem mem_unroll_iff {branch final : Branch} {out : List Branch}
    (h : ctx.unroll branch = .ok out) : final ∈ out ↔ ctx.Unrolls branch final := by
  unfold unroll at h
  split at h
  · rw [mem_unrollFrom_iff h]
    simp
  · rename_i hmarker
    obtain rfl := Except.ok.inj h
    have hnone : Token.first? .loop branch.value = none := by
      simpa [Token.hasToken] using hmarker
    rw [unrolls_of_none hnone, List.mem_singleton]

end Substitution.Context

end WorkflowControl
