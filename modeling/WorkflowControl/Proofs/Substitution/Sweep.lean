import WorkflowControl.Proofs.Outcome
import WorkflowControl.Substitution.Sweep

/-!
What sweeps do, step by step. A step puts a text in at all occurrences of the first token of a kind
(`replaceToken_eq_ok`). What every step keeps holds when a sweep ends, and then no token of the kind
is left (`sweepFrom_keeps`). What every round keeps holds when the rounds end, and the last of them
resolved nothing (`settleFrom_keeps`).
-/

namespace WorkflowControl.Substitution.Context

open Outcome

variable {ctx : Context} {kind : TokenKind} {required : Bool} {content input : Text}

theorem checkSearch_of_none {services : Services}
    (h : services.searchFault? (kind.token content) = none) :
    checkSearch services kind content = .ok () := by
  simp only [checkSearch, h]

theorem checkSearch_of_some {services : Services} {message : Text}
    (h : services.searchFault? (kind.token content) = some message) :
    checkSearch services kind content
      = .error (.value (kind.token content) (.noSearch message)) := by
  simp only [checkSearch, h]

theorem checkSearch_eq_ok_iff {services : Services} :
    checkSearch services kind content = .ok ()
      ↔ services.searchFault? (kind.token content) = none := by
  cases h : services.searchFault? (kind.token content) with
  | none => simp [checkSearch_of_none h]
  | some message => simp [checkSearch_of_some h]

theorem replaceAll_eq_ok {value text out : Text}
    (h : Substitution.replaceAll ctx.services kind content value text = .ok out) :
    out = Token.replaceAll kind content value text := by
  obtain ⟨-, -, hout⟩ := bind_eq_ok_iff.mp h
  exact (Except.ok.inj hout).symm

/-- What stands for a token that has a value: a marker, the value, or the value with zeros in front.
-/
theorem replacement_eq_ok {value put : Text} {keep keep' : Entries Text}
    (h : ctx.replacement kind content value keep = .ok (put, keep')) :
    (ctx.defers kind value = true ∧ put = TokenKind.loop.token content ∧ keep' = keep)
    ∨ ctx.defers kind value = false ∧
      ((Token.nameAndWidth content).2 = none ∧ put = value
          ∧ keep' = keep.put (Token.nameAndWidth content).1 value
        ∨ ∃ w n settled, (Token.nameAndWidth content).2 = some w ∧ width content w = .ok n
          ∧ ctx.settle value = .ok settled ∧ padded n settled = .ok put
          ∧ keep' = keep.put (Token.nameAndWidth content).1 settled) := by
  unfold replacement at h
  dsimp only at h
  split at h
  · rename_i hdefers
    obtain ⟨rfl, rfl⟩ := Prod.mk.inj (Except.ok.inj h)
    exact .inl ⟨hdefers, rfl, rfl⟩
  · rename_i hdefers
    refine .inr ⟨eq_false_of_ne_true hdefers, ?_⟩
    split at h
    · rename_i hwidth
      obtain ⟨rfl, rfl⟩ := Prod.mk.inj (Except.ok.inj h)
      exact .inl ⟨hwidth, rfl, rfl⟩
    · rename_i w hwidth
      obtain ⟨n, hn, h⟩ := bind_eq_ok_iff.mp h
      obtain ⟨settled, hsettled, h⟩ := bind_eq_ok_iff.mp h
      obtain ⟨digits, hdigits, h⟩ := bind_eq_ok_iff.mp h
      obtain ⟨rfl, rfl⟩ := Prod.mk.inj (Except.ok.inj h)
      exact .inr ⟨w, n, settled, hwidth, hn, hsettled, hdigits, rfl⟩

/-- A step puts in what stands for a token, or nothing for a variable that is missing. -/
theorem replaceToken_eq_ok {s s' : Progress}
    (h : ctx.replaceToken kind required content s = .ok s') :
    (∃ value put keep, ctx.resolve kind (Token.nameAndWidth content).1 = .ok (some value)
      ∧ ctx.replacement kind content value s.keep = .ok (put, keep)
      ∧ s' = ⟨false, Token.replaceAll kind content put s.text, keep⟩)
    ∨ ctx.resolve kind (Token.nameAndWidth content).1 = .ok none ∧ required = false
      ∧ s' = { s with text := Token.replaceAll kind content [] s.text } := by
  unfold replaceToken at h
  obtain ⟨found, hfound, h⟩ := bind_eq_ok_iff.mp h
  cases found with
  | none =>
    dsimp only at h
    split at h
    · cases h
    · rename_i hrequired
      obtain ⟨text, htext, h⟩ := bind_eq_ok_iff.mp h
      obtain rfl := replaceAll_eq_ok htext
      exact .inr ⟨hfound, eq_false_of_ne_true hrequired, (Except.ok.inj h).symm⟩
  | some value =>
    obtain ⟨⟨put, keep⟩, hput, h⟩ := bind_eq_ok_iff.mp h
    obtain ⟨text, htext, h⟩ := bind_eq_ok_iff.mp h
    obtain rfl := replaceAll_eq_ok htext
    exact .inl ⟨value, put, keep, hfound, hput, (Except.ok.inj h).symm⟩

/-- What every step of a sweep keeps holds in the end, and no token of the kind is left. -/
theorem sweepFrom_keeps {P : Progress → Prop}
    (hstep : ∀ content s s', Token.first? kind s.text = some content → P s →
      ctx.replaceToken kind required content s = .ok s' → P s')
    {budget : Nat} {s s' : Progress} (h : P s)
    (hok : ctx.sweepFrom kind required input budget s = .ok s') :
    P s' ∧ Token.first? kind s'.text = none := by
  induction budget generalizing s with
  | zero =>
    unfold sweepFrom at hok
    split at hok
    · rename_i hnone
      obtain rfl := Except.ok.inj hok
      exact ⟨h, hnone⟩
    · cases hok
  | succ budget ih =>
    unfold sweepFrom at hok
    split at hok
    · rename_i hnone
      obtain rfl := Except.ok.inj hok
      exact ⟨h, hnone⟩
    · rename_i content hfirst
      obtain ⟨next, hnext, hrest⟩ := bind_eq_ok_iff.mp hok
      exact ih (hstep content s next hfirst h hnext) hrest

/-- A sweep that ends leaves no token of its kind. -/
theorem first?_of_sweep {text : Text} {swept : Progress}
    (hok : ctx.sweep kind required text = .ok swept) : Token.first? kind swept.text = none :=
  (sweepFrom_keeps (P := fun _ => True) (fun _ _ _ _ _ _ => trivial) trivial hok).2

/-- A sweep over required tokens that resolves none leaves the text as it is. -/
theorem text_of_sweep_done {text : Text} {swept : Progress}
    (hok : ctx.sweep kind true text = .ok swept) (hdone : swept.done = true) :
    swept.text = text := by
  have hkeeps := (sweepFrom_keeps (P := fun s => s.done = true → s.text = text)
    (fun content s s' _ _ hstep hdone => by
      rcases replaceToken_eq_ok hstep with ⟨_, _, _, _, _, rfl⟩ | ⟨_, hrequired, _⟩
      · cases hdone
      · cases hrequired)
    (fun _ => rfl) hok).1
  exact hkeeps hdone

/-- A sweep that resolves nothing has no value to keep. -/
theorem keep_of_sweep_done {text : Text} {swept : Progress}
    (hok : ctx.sweep kind required text = .ok swept) (hdone : swept.done = true) :
    swept.keep = [] := by
  have hkeeps := (sweepFrom_keeps (P := fun s => s.done = true → s.keep = [])
    (fun content s s' _ hs hstep hdone => by
      rcases replaceToken_eq_ok hstep with ⟨_, _, _, _, _, rfl⟩ | ⟨_, _, rfl⟩
      · cases hdone
      · exact hs hdone)
    (fun _ => rfl) hok).1
  exact hkeeps hdone

/-- A sweep over a text without a token of the kind does nothing. -/
theorem sweep_of_none {text : Text} (h : Token.first? kind text = none) :
    ctx.sweep kind required text = .ok { text := text } := by
  unfold sweep sweepFrom
  cases ctx.services.limit <;> simp only [h]

/-- A round over a text without a token of the kinds that are swept does nothing. -/
theorem round_of_none {sweeps : List (TokenKind × Bool)} {s : Progress}
    (h : ∀ p ∈ sweeps, Token.first? p.1 s.text = none) : ctx.round s sweeps = .ok s := by
  induction sweeps with
  | nil => rfl
  | cons p rest ih =>
    have hround : ctx.round s (p :: rest)
        = ctx.round ⟨s.done && true, s.text, s.keep.putAll []⟩ rest := by
      rw [round, sweep_of_none (h p List.mem_cons_self)]
      rfl
    rw [hround, Bool.and_true]
    exact ih fun q hq => h q (List.mem_cons_of_mem _ hq)

/-- Rounds leave a text without a token of the kinds that are swept as it is. -/
theorem settleSweeps_of_none {sweeps : List (TokenKind × Bool)} {branch : Branch}
    (h : ∀ p ∈ sweeps, Token.first? p.1 branch.value = none) (hlimit : ctx.services.limit ≠ 0) :
    ctx.settleSweeps sweeps branch = .ok branch := by
  obtain ⟨budget, hbudget⟩ := Nat.exists_eq_succ_of_ne_zero hlimit
  have hround : ctx.round ⟨true, branch.value, branch.keep⟩ sweeps = .ok _ := round_of_none h
  rw [settleSweeps, hbudget, settleFrom, hround]
  rfl

/-- Rounds are done when one leaves no token of the kinds that they sweep. One more round may be
needed to find that out. -/
theorem settleSweeps_of_round {sweeps : List (TokenKind × Bool)} {branch : Branch} {s : Progress}
    (hround : ctx.round ⟨true, branch.value, branch.keep⟩ sweeps = .ok s)
    (hnone : ∀ p ∈ sweeps, Token.first? p.1 s.text = none) (hlimit : 2 ≤ ctx.services.limit) :
    ctx.settleSweeps sweeps branch = .ok ⟨s.text, s.keep⟩ := by
  obtain ⟨budget, hbudget⟩ := Nat.exists_eq_add_of_le' hlimit
  have hagain : ctx.round ⟨true, s.text, s.keep⟩ sweeps = .ok ⟨true, s.text, s.keep⟩ :=
    round_of_none hnone
  rw [settleSweeps, hbudget, settleFrom, hround]
  show (if s.done then _ else _) = _
  cases s.done with
  | true => rfl
  | false =>
    rw [if_neg Bool.false_ne_true, settleFrom, hagain]
    rfl

/-- Rounds fail if the first one does. -/
theorem settleSweeps_of_round_error {sweeps : List (TokenKind × Bool)} {branch : Branch} {e : Error}
    (hround : ctx.round ⟨true, branch.value, branch.keep⟩ sweeps = .error e)
    (hlimit : ctx.services.limit ≠ 0) : ctx.settleSweeps sweeps branch = .error e := by
  obtain ⟨budget, hbudget⟩ := Nat.exists_eq_succ_of_ne_zero hlimit
  rw [settleSweeps, hbudget, settleFrom, hround]
  rfl

theorem round_cons_eq_ok {s s' : Progress} {rest : List (TokenKind × Bool)}
    (h : ctx.round s ((kind, required) :: rest) = .ok s') :
    ∃ swept, ctx.sweep kind required s.text = .ok swept
      ∧ ctx.round ⟨s.done && swept.done, swept.text, s.keep.putAll swept.keep⟩ rest = .ok s' :=
  bind_eq_ok_iff.mp h

/-- A round that resolved nothing had resolved nothing after any of its sweeps. -/
theorem done_of_round {sweeps : List (TokenKind × Bool)} {s s' : Progress}
    (hok : ctx.round s sweeps = .ok s') (hdone : s'.done = true) : s.done = true := by
  induction sweeps generalizing s with
  | nil =>
    obtain rfl := Except.ok.inj hok
    exact hdone
  | cons p rest ih =>
    obtain ⟨swept, -, hrest⟩ := round_cons_eq_ok hok
    exact (Bool.and_eq_true_iff.mp (ih hrest)).1

/-- What every sweep of a round keeps holds after the round. -/
theorem round_keeps {P : Progress → Prop} {sweeps : List (TokenKind × Bool)}
    (hsweep : ∀ p ∈ sweeps, ∀ s swept, P s → ctx.sweep p.1 p.2 s.text = .ok swept →
      P ⟨s.done && swept.done, swept.text, s.keep.putAll swept.keep⟩)
    {s s' : Progress} (h : P s) (hok : ctx.round s sweeps = .ok s') : P s' := by
  induction sweeps generalizing s with
  | nil =>
    obtain rfl := Except.ok.inj hok
    exact h
  | cons p rest ih =>
    obtain ⟨swept, hswept, hrest⟩ := round_cons_eq_ok hok
    exact ih (fun q hq => hsweep q (List.mem_cons_of_mem _ hq))
      (hsweep p (by simp) s swept h hswept) hrest

/-- What every round keeps holds when the rounds end, and the last one resolved nothing. -/
theorem settleFrom_keeps {P : Branch → Prop} {sweeps : List (TokenKind × Bool)}
    (hround : ∀ branch s, P branch → ctx.round ⟨true, branch.value, branch.keep⟩ sweeps = .ok s →
      P ⟨s.text, s.keep⟩)
    {budget : Nat} {branch final : Branch} (h : P branch)
    (hok : ctx.settleFrom sweeps input budget branch = .ok final) :
    P final ∧ ∃ last, P last
      ∧ ctx.round ⟨true, last.value, last.keep⟩ sweeps = .ok ⟨true, final.value, final.keep⟩ := by
  induction budget generalizing branch with
  | zero => cases hok
  | succ budget ih =>
    unfold settleFrom at hok
    obtain ⟨s, hs, hrest⟩ := bind_eq_ok_iff.mp hok
    have hnext := hround branch s h hs
    split at hrest
    · rename_i hdone
      obtain rfl := Except.ok.inj hrest
      refine ⟨hnext, branch, h, ?_⟩
      rw [hs, ← hdone]
    · exact ih hnext hrest

end WorkflowControl.Substitution.Context
