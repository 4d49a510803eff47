import WorkflowControl.Proofs.Substitution.PlainSweep
import WorkflowControl.Proofs.Text.Ascii

/-!
Texts of variables that stand for texts without `$`. One round of sweeps reads all of them, the
optional ones before the required ones, and there is nothing to do for a second one
(`PutsIn.substitute_variables`). A token can be read if its name stands for something that can be
put in for it, and if a search can be built for it (`read_eq_ok_iff`).
-/

namespace WorkflowControl

open Outcome Text Token

namespace Substitution

namespace Context

variable {ctx : Context} {ps : List Piece}

/-! ## One substitution of all variables -/

/-- A substitution is what its two phases give if they leave no marker. -/
theorem substitute_of_settled {text : Text} {settled called : Branch}
    (hsettled : ctx.settleSweeps variableSweeps ⟨text, []⟩ = .ok settled)
    (hcalled : ctx.settleSweeps callSweeps settled = .ok called)
    (hloop : first? .loop called.value = none) : ctx.substitute text = .ok (.single called) := by
  have hmarker : hasToken .loop called.value = false := hasToken_eq_false_iff.mpr hloop
  rw [Context.substitute, hsettled]
  show ctx.settleSweeps callSweeps settled >>= _ = _
  rw [hcalled]
  show (if hasToken .loop called.value then _ else _) = _
  rw [hmarker]
  rfl

/-- A substitution fails if its first phase does. -/
theorem substitute_of_settleSweeps_error {text : Text} {e : Error}
    (h : ctx.settleSweeps variableSweeps ⟨text, []⟩ = .error e) : ctx.substitute text = .error e := by
  rw [Context.substitute, h]
  rfl

/-- A text without tokens is its own substitution. -/
theorem substitute_of_none {text : Text} (hnone : ∀ kind, first? kind text = none)
    (hlimit : ctx.services.limit ≠ 0) : ctx.substitute text = .ok (.single ⟨text, []⟩) :=
  substitute_of_settled (settleSweeps_of_none (fun p _ => hnone p.1) hlimit)
    (settleSweeps_of_none (fun p _ => hnone p.1) hlimit) (hnone .loop)

/-- A text of variables that stand for texts without `$`, and that are not more than the limit. -/
structure IsVariableText (ctx : Context) (ps : List Piece) : Prop where
  kinds : ∀ kind, kind ≠ .optional → kind ≠ .required → contents kind ps = []
  reads : ∀ kind, ctx.ReadsPlain kind ps
  limit : ∀ kind, (distinctContents (contents kind ps)).length ≤ ctx.services.limit

/-- Why the variables of a template cannot be read: all optional ones go before the required ones.
-/
def variablesFault? (ctx : Context) (ps : List Piece) : Option Error :=
  (ctx.sweepFault? .optional false ps).or (ctx.sweepFault? .required true ps)

/-- The template with its variables read: the optional ones, then the required ones. -/
def readVariables (ctx : Context) (ps : List Piece) : List Piece :=
  ctx.readPieces .required true (ctx.readPieces .optional false ps)

/-- The values that are kept for the variables. -/
def keepVariables (ctx : Context) (ps : List Piece) : Entries Text :=
  ((Entries.putAll [] (ctx.keepRead .optional ps)).putAll (ctx.keepRead .required ps))

/-- The optional variables are read first, and the required ones are left as they are. -/
theorem IsVariableText.reads_required (hps : ctx.IsVariableText ps) :
    ctx.ReadsPlain .required (ctx.readPieces .optional false ps) :=
  (hps.reads .optional).readPieces_of_ne (hps.reads .required) (by decide)

theorem PutsIn.round_variables (h : ctx.PutsIn) (hps : ctx.IsVariableText ps) :
    ∃ done, ctx.round ⟨true, render ps, []⟩ variableSweeps
      = okUnless (ctx.variablesFault? ps)
        ⟨done, render (ctx.readVariables ps), ctx.keepVariables ps⟩ := by
  have hheader : first? .header (render ps) = none := by
    rw [first?_render (hps.reads .optional).plain, hps.kinds .header (by decide) (by decide)]
    rfl
  have hcontents : contents .required (ctx.readPieces .optional false ps) = contents .required ps :=
    contents_readPieces_of_ne (by decide)
  have hkeep : ctx.keepRead .required (ctx.readPieces .optional false ps)
      = ctx.keepRead .required ps := by
    rw [keepRead, hcontents]
    rfl
  obtain ⟨doneOptional, hoptional⟩ :=
    h.sweep_eq (hps.reads .optional) (hps.limit .optional)
  obtain ⟨doneRequired, hrequired⟩ :=
    h.sweep_eq hps.reads_required (by rw [hcontents]; exact hps.limit .required)
  have hfault : ctx.sweepFault? .required true (ctx.readPieces .optional false ps)
      = ctx.sweepFault? .required true ps := by
    rw [sweepFault?, hcontents]
    rfl
  rw [hfault, hkeep] at hrequired
  refine ⟨true && true && doneOptional && doneRequired, ?_⟩
  unfold variablesFault? variableSweeps
  rw [round, sweep_of_none hheader]
  show ctx.round ⟨true && true, render ps, []⟩ _ = _
  rw [round]
  dsimp only
  rw [hoptional]
  cases ctx.sweepFault? .optional false ps with
  | some e => rfl
  | none =>
    show ctx.round ⟨_, render (ctx.readPieces .optional false ps), _⟩ _ = _
    rw [round]
    dsimp only
    rw [hrequired]
    cases ctx.sweepFault? .required true ps with
    | some e => rfl
    | none => rfl

theorem plain_readVariables (hps : ctx.IsVariableText ps) :
    ∀ p ∈ ctx.readVariables ps, p.Plain :=
  hps.reads_required.plain_readPieces

theorem contents_readVariables (hps : ctx.IsVariableText ps) (kind : TokenKind) :
    contents kind (ctx.readVariables ps) = [] := by
  unfold readVariables
  rw [contents_readPieces, contents_readPieces]
  split
  · rfl
  · rename_i hrequired
    split
    · rfl
    · rename_i hoptional
      exact hps.kinds kind hoptional hrequired

/-- The result of a substitution is the template with its variables read, or the error of the first
that cannot be read. -/
theorem PutsIn.substitute_variables (h : ctx.PutsIn) (hps : ctx.IsVariableText ps)
    (hlimit : 2 ≤ ctx.services.limit) :
    ctx.substitute (render ps) = okUnless (ctx.variablesFault? ps)
      (.single ⟨render (ctx.readVariables ps), ctx.keepVariables ps⟩) := by
  obtain ⟨done, hround⟩ := h.round_variables hps
  have hnone : ∀ kind, first? kind (render (ctx.readVariables ps)) = none := by
    intro kind
    rw [first?_render (plain_readVariables hps), contents_readVariables hps]
    rfl
  have hpositive : ctx.services.limit ≠ 0 := Nat.ne_of_gt (Nat.lt_of_lt_of_le Nat.two_pos hlimit)
  cases hfault : ctx.variablesFault? ps with
  | some e =>
    rw [hfault] at hround
    exact substitute_of_settleSweeps_error (settleSweeps_of_round_error hround hpositive)
  | none =>
    rw [hfault] at hround
    refine substitute_of_settled
      (settleSweeps_of_round (s := ⟨done, render (ctx.readVariables ps), ctx.keepVariables ps⟩)
        hround (fun p _ => hnone p.1) hlimit)
      (settleSweeps_of_none (fun p _ => hnone p.1) hpositive) (hnone .loop)

theorem mem_keepVariables {e : Text × Text} (he : e ∈ ctx.keepVariables ps) :
    ∃ kind, ∃ c ∈ contents kind ps, (nameAndWidth c).1 = e.1 ∧ ctx.found? kind c = some e.2 := by
  rcases Entries.mem_putAll he with he | he
  · rcases Entries.mem_putAll he with he | he
    · cases he
    · obtain ⟨c, hc, hname⟩ := exists_of_mem_keepRead he
      exact ⟨.optional, c, mem_of_mem_distinctContents _ hc, hname⟩
  · obtain ⟨c, hc, hname⟩ := exists_of_mem_keepRead he
    exact ⟨.required, c, mem_of_mem_distinctContents _ hc, hname⟩

theorem mem_keys_keepVariables {name : Text} (h : name ∈ (ctx.keepRead .optional ps).keys
      ∨ name ∈ (ctx.keepRead .required ps).keys) : name ∈ (ctx.keepVariables ps).keys :=
  Entries.mem_keys_putAll.mpr (h.imp_left fun h => Entries.mem_keys_putAll.mpr (.inr h))

/-- Each piece is read on its own, a token as the first one of its kind that is alike. -/
def shownAs (ctx : Context) (ps : List Piece) : Piece → Text
  | .token .optional _ c => ctx.readText .optional false (firstAlike (contents .optional ps) c)
  | .token .required _ c => ctx.readText .required true (firstAlike (contents .required ps) c)
  | p => p.text

theorem render_readVariables (ctx : Context) (ps : List Piece) :
    render (ctx.readVariables ps) = ps.flatMap (ctx.shownAs ps) := by
  rw [readVariables, readPieces, contents_readPieces_of_ne (by decide), readPieces, render,
    List.flatMap_map, List.flatMap_map]
  refine congrArg (List.flatMap · ps) (funext fun p => ?_)
  cases p with
  | literal text => rfl
  | token kind tag c => cases kind <;> rfl

/-! ## What a token is read as -/

theorem exists_padded_iff {n : Nat} {value : Text} :
    (∃ digits, padded n value = .ok digits) ↔ ∃ z, signed? value.trim = some z := by
  unfold padded
  cases signed? value.trim with
  | none =>
    constructor
    · intro hgiven
      obtain ⟨digits, h⟩ := hgiven
      cases h
    · intro hgiven
      obtain ⟨z, h⟩ := hgiven
      cases h
  | some z => exact ⟨fun _ => ⟨z, rfl⟩, fun _ => ⟨_, rfl⟩⟩

theorem rendering_of_some {content w : Text} (h : (nameAndWidth content).2 = some w) (value : Text) :
    rendering content value = width content w >>= fun n => padded n value := by
  rw [rendering, h, Option.mapM_some]
  cases width content w <;> rfl

/-- A value can be put in for a token without a width, and for one with a width if the width is a
number and the value is an integer. -/
theorem exists_rendering_iff {content value : Text} :
    (∃ put, rendering content value = .ok put) ↔ ∀ w, (nameAndWidth content).2 = some w →
      (∃ n, unsigned? 16 w.trim = some n) ∧ ∃ z, signed? value.trim = some z := by
  cases hwidth : (nameAndWidth content).2 with
  | none => exact ⟨fun _ _ hw => (nomatch hw), fun _ => ⟨value, rendering_of_none hwidth value⟩⟩
  | some w =>
    rw [rendering_of_some hwidth]
    constructor
    · intro hgiven w' hw'
      obtain ⟨put, h⟩ := hgiven
      obtain rfl := Option.some.inj hw'
      obtain ⟨n, hn, h⟩ := bind_eq_ok_iff.mp h
      exact ⟨⟨n, unsigned?_of_width hn⟩, exists_padded_iff.mp ⟨put, h⟩⟩
    · intro h
      obtain ⟨⟨n, hn⟩, hz⟩ := h w rfl
      obtain ⟨digits, hdigits⟩ := exists_padded_iff.mpr hz
      exact ⟨digits, bind_eq_ok_iff.mpr ⟨n, width_of_unsigned? hn content, hdigits⟩⟩

theorem read_eq_ok_iff {kind : TokenKind} {required : Bool} {content put : Text} :
    ctx.read kind required content = .ok put ↔ ∃ found,
      ctx.resolve kind (nameAndWidth content).1 = .ok found
        ∧ readFound required content found = .ok put
        ∧ ctx.services.searchFault? (kind.token content) = none := by
  unfold read
  rw [bind_eq_ok_iff]
  refine exists_congr fun found => and_congr_right fun _ => ?_
  rw [bind_eq_ok_iff]
  constructor
  · intro hgiven
    obtain ⟨text, htext, h⟩ := hgiven
    obtain ⟨_, hsearch, h⟩ := bind_eq_ok_iff.mp h
    obtain rfl := Except.ok.inj h
    exact ⟨htext, checkSearch_eq_ok_iff.mp hsearch⟩
  · intro hgiven
    obtain ⟨htext, hsearch⟩ := hgiven
    exact ⟨put, htext, bind_eq_ok_iff.mpr ⟨(), checkSearch_eq_ok_iff.mpr hsearch, rfl⟩⟩

theorem fault?_eq_none_iff {kind : TokenKind} {required : Bool} {content : Text} :
    ctx.fault? kind required content = none ↔ ∃ put, ctx.read kind required content = .ok put := by
  unfold fault?
  cases ctx.read kind required content with
  | error e => simp
  | ok put => simp

end Context

end Substitution

end WorkflowControl
