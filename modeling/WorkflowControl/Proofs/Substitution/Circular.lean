import WorkflowControl.Proofs.Substitution.References
import WorkflowControl.Proofs.Token.Surroundings

/-!
Circular references. If each of some variables refers to one of them again, then a text that refers
to one of them does so after every replacement: the reference stays, or a value takes its place that
refers to one of them as well (`Cycle.replaceToken`). So no round of sweeps is the last one, and the
substitution fails (`exists_error_of_circular`).
-/

namespace WorkflowControl

open Outcome Text Token

namespace Substitution

/-- Whether a reference to one of the names stands in a text, with a width or without one. -/
def RefersTo (names : Text → Prop) (t : Text) : Prop :=
  ∃ kind tag content name, Context.IsVariable kind ∧ Alike kind.tag tag ∧ Piece.IsContent content
    ∧ names name ∧ (nameAndWidth content).1.lower = name.lower
    ∧ (Piece.token kind tag content).text <:+: t

/-- Whether a text is in ASCII and refers to one of the names. -/
structure IsCaught (names : Text → Prop) (t : Text) : Prop where
  ascii : IsAscii t
  refers : RefersTo names t

theorem RefersTo.dollar_mem {names : Text → Prop} {t : Text} (h : RefersTo names t) : '$' ∈ t := by
  obtain ⟨kind, tag, content, name, -, -, -, -, -, hstands⟩ := h
  exact hstands.subset List.mem_cons_self

theorem RefersTo.mono {names : Text → Prop} {t u : Text} (h : RefersTo names t) (hstands : t <:+: u) :
    RefersTo names u := by
  obtain ⟨kind, tag, content, name, hkind, htag, hcontent, hname, hlower, hin⟩ := h
  exact ⟨kind, tag, content, name, hkind, htag, hcontent, hname, hlower, hin.trans hstands⟩

theorem isAscii_padded {n : Nat} {value digits : Text} (h : padded n value = .ok digits) :
    IsAscii digits := by
  intro c hc
  rcases mem_padded h hc with rfl | hdigit
  · decide
  · have hrange := toNat_of_isAsciiDigit hdigit
    omega

/-- The variables of a substitution of which each one refers to one of them again. The values that
are put in are in ASCII, and one that refers to the names is never settled. -/
structure Context.Cycle (ctx : Context) (names : Text → Prop) : Prop where
  expand_eq : ctx.expand = false
  circular : ∀ name, names name → ∃ value, ctx.source name = .ok (some value) ∧ RefersTo names value
  lower : ∀ name other, name.lower = other.lower → ∀ found, ctx.source name = .ok found →
    ctx.source other = .ok found
  values : ∀ name value, ctx.source name = .ok (some value) → IsAscii value
  headers : ∀ content value, headerValues ctx.services content = .ok value → IsAscii value
  settle : ∀ value, IsCaught names value → ∃ e, ctx.settle value = .error e

namespace Context.Cycle

variable {ctx : Context} {names : Text → Prop} {kind : TokenKind} {required : Bool} {content : Text}

/-- What a variable or a header stands for is in ASCII. -/
theorem isAscii_resolve (h : ctx.Cycle names) (hkind : kind ≠ .function) {name value : Text}
    (hvalue : ctx.resolve kind name = .ok (some value)) : IsAscii value := by
  cases kind with
  | header =>
    obtain ⟨found, hfound, heq⟩ := map_eq_ok_iff.mp hvalue
    obtain rfl := Option.some.inj heq
    exact h.headers _ _ hfound
  | function => exact absurd rfl hkind
  | required => exact h.values _ _ hvalue
  | optional => exact h.values _ _ hvalue
  | loop => exact h.values _ _ hvalue

theorem isAscii_replacement (h : ctx.Cycle names) {value put : Text} {keep keep' : Entries Text}
    (hvalue : IsAscii value) (hput : ctx.replacement kind content value keep = .ok (put, keep')) :
    IsAscii put := by
  rcases replacement_eq_ok hput with ⟨hdefers, -, -⟩ | ⟨-, hplain | hpadded⟩
  · rw [defers, h.expand_eq, Bool.and_false, Bool.false_and] at hdefers
    cases hdefers
  · obtain ⟨-, rfl, -⟩ := hplain
    exact hvalue
  · obtain ⟨w, n, settled, -, -, -, hdigits, -⟩ := hpadded
    exact isAscii_padded hdigits

/-- A value that refers to the names is put in as it is. -/
theorem replacement_eq_value (h : ctx.Cycle names) {value put : Text} {keep keep' : Entries Text}
    (hvalue : IsCaught names value)
    (hput : ctx.replacement kind content value keep = .ok (put, keep')) : put = value := by
  rcases replacement_eq_ok hput with ⟨hdefers, -, -⟩ | ⟨-, hplain | hpadded⟩
  · rw [defers, h.expand_eq, Bool.and_false, Bool.false_and] at hdefers
    cases hdefers
  · exact hplain.2.1
  · obtain ⟨w, n, settled, -, -, hsettled, -, -⟩ := hpadded
    obtain ⟨e, he⟩ := h.settle value hvalue
    rw [he] at hsettled
    cases hsettled

/-- A step leaves a text caught: the reference stays, or it is the one that is replaced, and then the
value refers to the names. -/
theorem replaceToken (h : ctx.Cycle names) (hfunction : kind ≠ .function) (hloop : kind ≠ .loop)
    {s s' : Progress} (hfirst : first? kind s.text = some content) (hcaught : IsCaught names s.text)
    (hok : ctx.replaceToken kind required content s = .ok s') : IsCaught names s'.text := by
  obtain ⟨other, tag, c, name, hvariable, htag, hc, hname, hlower, hstands⟩ := hcaught.refers
  have hcontent := isContent_of_first? hloop hfirst
  have hascii : IsAscii content := hcaught.ascii.subset (first?_spec hfirst).2.2
  have hcascii : IsAscii c := hcaught.ascii.subset fun d hd => hstands.subset (by
    rw [Piece.text]
    simp [hd])
  have hresolves : (Piece.token other tag c).isOccurrence kind content = true →
      ∃ value, ctx.resolve kind (nameAndWidth content).1 = .ok (some value)
        ∧ RefersTo names value := by
    intro hoccurrence
    obtain ⟨rfl, halike⟩ : other = kind ∧ Alike content c := by
      simpa [Piece.isOccurrence] using hoccurrence
    obtain ⟨value, hvalue, hrefers⟩ := h.circular name hname
    have hsame := (lower_name_of_alike hascii hcascii halike).trans hlower
    exact ⟨value, (resolve_of_isVariable hvariable _).trans (h.lower _ _ hsame.symm _ hvalue),
      hrefers⟩
  have hnext : ∀ put, IsAscii put →
      ((Piece.token other tag c).isOccurrence kind content = true → RefersTo names put) →
        IsCaught names (Token.replaceAll kind content put s.text) := by
    intro put hput hrefers
    refine ⟨fun d hd => (mem_replaceFrom hd).elim (hput d) (hcaught.ascii d), ?_⟩
    have hstays := infix_replaceAll kind htag hc hcontent put hstands
    split at hstays
    · rename_i hoccurrence
      exact (hrefers hoccurrence).mono hstays
    · exact ⟨other, tag, c, name, hvariable, htag, hc, hname, hlower, hstays⟩
  rcases replaceToken_eq_ok hok with ⟨value, put, keep, hfound, hput, rfl⟩ | ⟨hfound, -, rfl⟩
  · have hvalue := h.isAscii_resolve hfunction hfound
    refine hnext put (h.isAscii_replacement hvalue hput) fun hoccurrence => ?_
    obtain ⟨own, hown, hrefers⟩ := hresolves hoccurrence
    rw [hfound] at hown
    obtain rfl := Option.some.inj (Except.ok.inj hown)
    rwa [h.replacement_eq_value ⟨hvalue, hrefers⟩ hput]
  · refine hnext [] (fun d hd => absurd hd List.not_mem_nil) fun hoccurrence => ?_
    obtain ⟨own, hown, -⟩ := hresolves hoccurrence
    rw [hfound] at hown
    cases hown

/-- A sweep leaves a text caught. -/
theorem sweep (h : ctx.Cycle names) (hfunction : kind ≠ .function) (hloop : kind ≠ .loop)
    {text : Text} {swept : Progress} (hcaught : IsCaught names text)
    (hok : ctx.sweep kind required text = .ok swept) :
    IsCaught names swept.text ∧ first? kind swept.text = none :=
  sweepFrom_keeps (P := fun s => IsCaught names s.text)
    (fun _ _ _ hfirst hs hstep => h.replaceToken hfunction hloop hfirst hs hstep) hcaught hok

/-- A round leaves a text caught, and it is not the last one. -/
theorem round (h : ctx.Cycle names) {branch : Branch} {s : Progress}
    (hcaught : IsCaught names branch.value)
    (hok : ctx.round ⟨true, branch.value, branch.keep⟩ variableSweeps = .ok s) :
    IsCaught names s.text ∧ s.done = false := by
  obtain ⟨sh, hsh, hok⟩ := round_cons_eq_ok hok
  obtain ⟨so, hso, hok⟩ := round_cons_eq_ok hok
  obtain ⟨sr, hsr, hok⟩ := round_cons_eq_ok hok
  obtain rfl := Except.ok.inj hok
  obtain ⟨hheader, -⟩ := h.sweep (by decide) (by decide) hcaught hsh
  obtain ⟨hoptional, hnoOptional⟩ := h.sweep (by decide) (by decide) hheader hso
  obtain ⟨hrequired, hnoRequired⟩ := h.sweep (by decide) (by decide) hoptional hsr
  refine ⟨hrequired, eq_false_of_ne_true fun hdone => ?_⟩
  have htext : sr.text = so.text :=
    text_of_sweep_done hsr (by simp only [Bool.and_eq_true] at hdone; exact hdone.2)
  -- The reference that is left is of a kind that was swept last.
  obtain ⟨kind, tag, c, name, hvariable, htag, hc, -, -, hstands⟩ := hrequired.refers
  have hfound := first?_isSome_of_isInfix htag hc hstands
  rcases hvariable with rfl | rfl
  · rw [hnoRequired] at hfound
    cases hfound
  · rw [htext, hnoOptional] at hfound
    cases hfound

/-- A substitution of a text that is caught fails. -/
theorem exists_error (h : ctx.Cycle names) {text : Text} (hcaught : IsCaught names text) :
    ∃ e, ctx.substitute text = .error e := by
  cases hsettled : ctx.settleSweeps variableSweeps ⟨text, []⟩ with
  | error e => exact ⟨e, substitute_of_settleSweeps_error hsettled⟩
  | ok settled =>
    obtain ⟨-, last, hlast, hround⟩ := settleFrom_keeps
      (P := fun b => IsCaught names b.value)
      (fun b s hb hround => (h.round hb hround).1) hcaught hsettled
    cases (h.round hlast hround).2

end Context.Cycle

/-- The names of a document that refer to one another, with all values in ASCII. -/
structure IsCircular (source : Source) (services : Services) (names : Text → Prop) : Prop where
  circular : ∀ name, names name → ∃ value, source name = .ok (some value) ∧ RefersTo names value
  values : ∀ name value, source name = .ok (some value) → IsAscii value
  headers : ∀ content value, headerValues services content = .ok value → IsAscii value

variable {doc : Document} {search : Search} {services : Services} {names : Text → Prop}

/-- At any depth, a substitution of a text that refers to one of the names fails. -/
theorem IsCircular.within_error (h : IsCircular (.ofDocument doc search) services names)
    (depth : Nat) {text : Text} (hcaught : IsCaught names text) :
    ∃ e, within (.ofDocument doc search) services depth false text = .error e := by
  induction depth generalizing text with
  | zero => exact ⟨_, rfl⟩
  | succ depth ih =>
    refine Context.Cycle.exists_error
      (⟨rfl, h.circular, ?_, h.values, h.headers, ?_⟩ : Context.Cycle _ names) hcaught
    · exact fun name other hlower found hfound => Source.ofDocument_congr hlower hfound
    · intro value hvalue
      obtain ⟨e, he⟩ := ih hvalue
      have hcontains : value.contains '$' = true := by simpa using hvalue.refers.dollar_mem
      refine ⟨e, ?_⟩
      show settleWith _ value = _
      rw [settleWith, hcontains, if_pos rfl, he]
      rfl

/-- If each of some variables of a document refers to one of them, a text that refers to one of them
cannot be substituted. -/
theorem exists_error_of_circular (h : IsCircular (.ofDocument doc search) services names)
    {text : Text} (hascii : IsAscii text) (hrefers : RefersTo names text) :
    ∃ e, substitute (.ofDocument doc search) services false text = .error e :=
  h.within_error _ ⟨hascii, hrefers⟩

/-- Two variables, each of which refers to the other one. -/
def mutualDocument : Document where
  root := { entries := [
    (['a'], .scalar ['x', '$', 'o', 'p', 't', '{', 'B', ':', '2', '}']),
    (['b'], .scalar ['$', '{', 'A', '}'])] }

theorem exists_error_mutualDocument :
    ∃ e, substitute (.ofDocument mutualDocument {}) {} false ['-', '$', '{', 'a', '}'] = .error e := by
  have hcircular : IsCircular (.ofDocument mutualDocument {}) {} fun name =>
      name = ['a'] ∨ name = ['b'] := by
    refine ⟨fun name hname => ?_, fun name value hvalue => ?_, fun content value hvalue => ?_⟩
    · rcases hname with rfl | rfl
      · exact ⟨_, rfl, .optional, ['o', 'p', 't'], ['B', ':', '2'], ['b'], .inr rfl, rfl, by decide,
          .inr rfl, by decide, ['x'], [], rfl⟩
      · exact ⟨_, rfl, .required, [], ['A'], ['a'], .inl rfl, rfl, by decide, .inl rfl, by decide,
          [], [], rfl⟩
    · have hroot : ∀ e ∈ mutualDocument.root.entries,
          ∃ value, e.2 = .scalar value ∧ IsAscii value := by
        intro e he
        rcases List.mem_cons.mp he with rfl | he
        · exact ⟨_, rfl, by decide⟩
        · obtain rfl := List.mem_singleton.mp he
          exact ⟨_, rfl, by decide⟩
      obtain ⟨key, hmem⟩ := Source.mem_of_ofDocument
        (fun e he => (hroot e he).imp fun _ h => h.1) hvalue
      obtain ⟨found, heq, hascii⟩ := hroot _ hmem
      cases heq
      exact hascii
    · obtain ⟨values, hvalues, rfl⟩ := map_eq_ok_iff.mp hvalue
      cases hkeys : (ItemList.split content ',').tail with
      | nil =>
        rw [hkeys] at hvalues
        cases hvalues
        decide
      | cons key keys =>
        rw [hkeys] at hvalues
        cases hvalues
  exact exists_error_of_circular hcircular (by decide)
    ⟨.required, [], ['a'], ['a'], .inl rfl, rfl, by decide, .inl rfl, by decide, ['-'], [], rfl⟩

end Substitution

end WorkflowControl
