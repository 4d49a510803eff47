import WorkflowControl.Proofs.FirstFound
import WorkflowControl.Proofs.Substitution.Variables

/-!
Sweeps over a template whose tokens stand for texts without `$`. Such a sweep is one simultaneous
substitution: nothing that is put in is a token, so each token is read as the first one that is
alike, and the sweep fails with the first token that cannot be read (`PutsIn.sweep_eq`).
The values that are kept are those of the names, each under the name as it is first written
(`exists_of_mem_keepRead`, `mem_keys_keepRead`).
-/

namespace WorkflowControl

open Outcome Text Token

/-! ## Contents that are alike -/

namespace Token

/-- The distinct contents of a list. Contents that differ in case at most are one content, in the
form that comes first. -/
def distinctContents (cs : List Text) : List Text :=
  cs.eraseDupsBy fun later earlier => decide (Alike earlier later)

/-- The first content of a list that differs from a content in case at most. -/
def firstAlike (cs : List Text) (content : Text) : Text :=
  (cs.find? fun c => decide (Alike c content)).getD content

theorem distinctContents_cons (c : Text) (cs : List Text) :
    distinctContents (c :: cs)
      = c :: distinctContents (cs.filter fun d => !decide (Alike c d)) := by
  rw [distinctContents, List.eraseDupsBy_cons]
  refine congrArg (c :: List.eraseDupsBy _ ·) (List.filter_congr fun d _ => ?_)
  cases decide (Alike c d) <;> rfl

/-- Induction along the distinct contents of a list. -/
theorem distinctContents_induct {P : List Text → Prop} (nil : P [])
    (cons : ∀ c cs, P (cs.filter fun d => !decide (Alike c d)) → P (c :: cs)) : ∀ cs, P cs
  | [] => nil
  | c :: cs => cons c cs (distinctContents_induct nil cons _)
termination_by cs => cs.length
decreasing_by
  exact Nat.lt_succ_of_le (List.length_filter_le _ _)

theorem mem_of_mem_distinctContents {content : Text} (cs : List Text) :
    content ∈ distinctContents cs → content ∈ cs := by
  induction cs using distinctContents_induct with
  | nil => exact id
  | cons c cs ih =>
    rw [distinctContents_cons]
    intro h
    rcases List.mem_cons.mp h with rfl | h
    · exact List.mem_cons_self
    · exact List.mem_cons_of_mem c (List.mem_filter.mp (ih h)).1

theorem firstAlike_cons (c : Text) (cs : List Text) (content : Text) :
    firstAlike (c :: cs) content
      = if Alike c content then c
        else firstAlike (cs.filter fun d => !decide (Alike c d)) content := by
  unfold firstAlike
  rw [List.find?_cons]
  by_cases hc : Alike c content
  · simp [hc]
  · -- What is alike to the content is not alike to `c`, so the filter does not take it out.
    have hsame : ∀ d, decide ((!decide (Alike c d)) = true ∧ decide (Alike d content) = true)
        = decide (Alike d content) := by
      intro d
      by_cases hd : Alike d content
      · have hnot : ¬ Alike c d := fun halike => hc (halike.trans hd)
        simp [hd, hnot]
      · simp [hd]
    rw [List.find?_filter, if_neg hc, funext hsame]
    simp [hc]

/-- Each content is alike to one of the distinct ones, the first that is alike to it. -/
theorem firstAlike_spec {content : Text} (cs : List Text) : content ∈ cs →
    firstAlike cs content ∈ distinctContents cs ∧ Alike (firstAlike cs content) content := by
  induction cs using distinctContents_induct with
  | nil =>
    intro h
    cases h
  | cons c cs ih =>
    intro h
    rw [firstAlike_cons, distinctContents_cons]
    split
    · rename_i halike
      exact ⟨List.mem_cons_self, halike⟩
    · rename_i hnot
      have hmem : content ∈ cs.filter fun d => !decide (Alike c d) := by
        rcases List.mem_cons.mp h with rfl | h
        · exact absurd (Alike.refl _) hnot
        · exact List.mem_filter.mpr ⟨h, by simpa using hnot⟩
      obtain ⟨hfirst, halike⟩ := ih hmem
      exact ⟨List.mem_cons_of_mem c hfirst, halike⟩

/-- No two of the distinct contents are alike: the first content that is alike to one of them is that
one. -/
theorem firstAlike_of_mem_distinctContents {content : Text} (cs : List Text) :
    content ∈ distinctContents cs → firstAlike cs content = content := by
  induction cs using distinctContents_induct with
  | nil =>
    intro h
    cases h
  | cons c cs ih =>
    rw [distinctContents_cons, firstAlike_cons]
    intro h
    rcases List.mem_cons.mp h with rfl | h
    · exact if_pos (Alike.refl _)
    · have hkept := (List.mem_filter.mp (mem_of_mem_distinctContents _ h)).2
      rw [if_neg (by simpa using hkept)]
      exact ih h

/-- The first content that is alike is the same for contents that are alike. -/
theorem firstAlike_congr {cs : List Text} {content other : Text} (h : Alike content other)
    (hmem : content ∈ cs) : firstAlike cs content = firstAlike cs other := by
  have hsame : ∀ c, decide (Alike c content) = decide (Alike c other) := fun c =>
    decide_eq_decide.mpr ⟨fun hc => hc.trans h, fun hc => hc.trans h.symm⟩
  unfold firstAlike
  rw [funext hsame]
  cases hfind : cs.find? fun c => decide (Alike c other) with
  | some c => rfl
  | none =>
    have hnot := List.find?_eq_none.mp hfind content hmem
    exact absurd (by simpa using h) hnot

/-- All contents are among the distinct ones if and only if no two different ones are alike. -/
theorem forall_mem_distinctContents_iff (cs : List Text) :
    (∀ c ∈ cs, c ∈ distinctContents cs) ↔ ∀ c ∈ cs, ∀ d ∈ cs, Alike c d → c = d := by
  constructor
  · intro hdistinct c hc d hd halike
    calc c = firstAlike cs c := (firstAlike_of_mem_distinctContents cs (hdistinct c hc)).symm
      _ = firstAlike cs d := firstAlike_congr halike hc
      _ = d := firstAlike_of_mem_distinctContents cs (hdistinct d hd)
  · intro hequal c hc
    obtain ⟨hmem, halike⟩ := firstAlike_spec cs hc
    have heq : firstAlike cs c = c :=
      hequal _ (mem_of_mem_distinctContents cs hmem) c hc halike
    exact heq ▸ hmem

/-- The first content that fails is one of the distinct ones, if alike contents fail together. -/
theorem findSome?_distinctContents {fault? : Text → Option Error} (cs : List Text) :
    (∀ c ∈ cs, ∀ d ∈ cs, Alike c d → fault? c = none → fault? d = none) →
      (distinctContents cs).findSome? fault? = cs.findSome? fault? := by
  induction cs using distinctContents_induct with
  | nil => exact fun _ => rfl
  | cons c cs ih =>
    intro h
    rw [distinctContents_cons, List.findSome?_cons, List.findSome?_cons]
    cases hc : fault? c with
    | some e => rfl
    | none =>
      have hdropped : (cs.filter fun d => !decide (Alike c d)).findSome? fault?
          = cs.findSome? fault? := by
        refine findSome?_filter_of_none fun d hd hdrop => ?_
        have halike : Alike c d := by simpa using hdrop
        exact h c (by simp) d (List.mem_cons_of_mem c hd) halike hc
      rw [← hdropped]
      refine ih fun d hd e he => ?_
      exact h d (List.mem_cons_of_mem c (List.mem_filter.mp hd).1) e
        (List.mem_cons_of_mem c (List.mem_filter.mp he).1)

end Token

/-! ## Reading a token -/

/-- The piece with the text that its content is read as, if it is a token of a kind. -/
def Piece.readWith (kind : TokenKind) (texts : Text → Text) (p : Piece) : Piece :=
  match p.contentOf? kind with
  | some content => .literal (texts content)
  | none => p

namespace Substitution.Context

/-- Whether values without `$` are put in as they are: no variable becomes a marker, and the values
are settled. -/
structure PutsIn (ctx : Context) : Prop where
  expand_eq : ctx.expand = false
  settle_eq : ∀ value, '$' ∉ value → ctx.settle value = .ok value

theorem putsIn_outermost (source : Source) (services : Services) :
    (outermost source services false).PutsIn where
  expand_eq := rfl
  settle_eq _ h := settle_of_not_mem h

/-- What is put in for a token if its name stands for `found`. -/
def readFound (required : Bool) (content : Text) : Option Text → Except Error Text
  | some value => rendering content value
  | none => if required then .error (.lookup (nameAndWidth content).1) else .ok []

/-- What is put in for a token. -/
def read (ctx : Context) (kind : TokenKind) (required : Bool) (content : Text) :
    Except Error Text := do
  let found ← ctx.resolve kind (nameAndWidth content).1
  let put ← readFound required content found
  checkSearch ctx.services kind content
  return put

/-- Why a token cannot be read. -/
def fault? (ctx : Context) (kind : TokenKind) (required : Bool) (content : Text) : Option Error :=
  match ctx.read kind required content with
  | .ok _ => none
  | .error e => some e

/-- The text that a token is read as, empty if it cannot be read. -/
def readText (ctx : Context) (kind : TokenKind) (required : Bool) (content : Text) : Text :=
  (ctx.read kind required content).toOption.getD []

/-- The value of the name of a token. -/
def found? (ctx : Context) (kind : TokenKind) (content : Text) : Option Text :=
  (ctx.resolve kind (nameAndWidth content).1).toOption.join

/-- The values that are kept with the one of a token. -/
def keepFound (ctx : Context) (kind : TokenKind) (keep : Entries Text) (content : Text) :
    Entries Text :=
  match ctx.found? kind content with
  | some value => keep.put (nameAndWidth content).1 value
  | none => keep

variable {ctx : Context} {kind : TokenKind} {required : Bool} {content : Text}

theorem PutsIn.replacement_eq (h : ctx.PutsIn) {value : Text} (hvalue : '$' ∉ value)
    (keep : Entries Text) :
    ctx.replacement kind content value keep
      = (rendering content value).map fun put => (put, keep.put (nameAndWidth content).1 value) := by
  have hdefers : ctx.defers kind value = false := by
    unfold defers
    rw [h.expand_eq, Bool.and_false, Bool.false_and]
  unfold replacement rendering
  dsimp only
  rw [hdefers, if_neg Bool.false_ne_true]
  cases (nameAndWidth content).2 with
  | none => rfl
  | some w =>
    rw [h.settle_eq value hvalue]
    show (width content w >>= _)
      = ((width content w >>= fun n => pure (some n)) >>= _ : Except Error Text).map _
    cases width content w with
    | error e => rfl
    | ok n =>
      show (padded n value >>= _) = (padded n value).map _
      cases padded n value with
      | error e => rfl
      | ok digits => rfl

/-- A step reads its token and puts the text in. -/
theorem PutsIn.replaceToken_eq (h : ctx.PutsIn) {s : Progress}
    (hvalue : ∀ value, ctx.found? kind content = some value → '$' ∉ value) :
    ctx.replaceToken kind required content s
      = (ctx.read kind required content).map fun put => ⟨s.done && (ctx.found? kind content).isNone,
          Token.replaceAll kind content put s.text, ctx.keepFound kind s.keep content⟩ := by
  unfold found? at hvalue
  unfold replaceToken read keepFound found? Substitution.replaceAll
  dsimp only
  cases hfound : ctx.resolve kind (nameAndWidth content).1 with
  | error e => rfl
  | ok found =>
    rw [hfound] at hvalue
    cases found with
    | none =>
      cases required with
      | true => rfl
      | false =>
        dsimp only [Bind.bind, Except.bind, readFound]
        cases checkSearch ctx.services kind content with
        | error e => rfl
        | ok _ => simp [Except.map, Pure.pure, Except.pure, Except.toOption]
    | some value =>
      dsimp only [Bind.bind, Except.bind, readFound]
      rw [h.replacement_eq (hvalue value rfl)]
      cases rendering content value with
      | error e => rfl
      | ok put =>
        dsimp only [Except.map]
        cases checkSearch ctx.services kind content with
        | error e => rfl
        | ok _ => simp [Pure.pure, Except.pure, Except.toOption]

/-- What is put in for a token has no `$` if the value of its name has none. -/
theorem dollar_not_mem_read (hvalue : ∀ value, ctx.found? kind content = some value → '$' ∉ value)
    {put : Text} (h : ctx.read kind required content = .ok put) : '$' ∉ put := by
  obtain ⟨found, hfound, h⟩ := bind_eq_ok_iff.mp h
  obtain ⟨text, htext, h⟩ := bind_eq_ok_iff.mp h
  obtain ⟨-, -, h⟩ := bind_eq_ok_iff.mp h
  obtain rfl := Except.ok.inj h
  cases found with
  | some value =>
    refine dollar_not_mem_rendering (hvalue value ?_) htext
    rw [found?, hfound]
    rfl
  | none =>
    cases required with
    | true => cases htext
    | false =>
      obtain rfl := Except.ok.inj htext
      exact List.not_mem_nil

/-! ## The sweep -/

/-- Whether a text is a template whose tokens of a kind stand for texts without `$`. -/
structure ReadsPlain (ctx : Context) (kind : TokenKind) (ps : List Piece) : Prop where
  plain : ∀ p ∈ ps, p.Plain
  values : ∀ content ∈ contents kind ps, ∀ value,
    ctx.found? kind content = some value → '$' ∉ value

variable {ps : List Piece} {input : Text}

theorem ReadsPlain.putText (h : ctx.ReadsPlain kind ps) {put : Text} (hput : '$' ∉ put) :
    ctx.ReadsPlain kind (ps.map (Piece.putText kind content put)) where
  plain p hp := by
    obtain ⟨q, hq, rfl⟩ := List.mem_map.mp hp
    exact plain_putText hput (h.plain q hq)
  values c hc := by
    rw [contents_putText] at hc
    exact h.values c (List.mem_filter.mp hc).1

theorem map_readWith_of_contents_eq_nil (h : contents kind ps = []) (texts : Text → Text) :
    ps.map (Piece.readWith kind texts) = ps := by
  have hnone := List.filterMap_eq_nil_iff.mp h
  have hmap : ps.map (Piece.readWith kind texts) = ps.map id := by
    refine List.map_congr_left fun p hp => ?_
    rw [Piece.readWith, hnone p hp]
    rfl
  rw [hmap, List.map_id]

/-- Reading what is left when a text was put in for the first token reads the whole. -/
theorem readWith_putText {c : Text} {cs : List Text} (texts : Text → Text) (p : Piece) :
    (p.putText kind c (texts c)).readWith kind
        (fun d => texts (firstAlike (cs.filter fun d => !decide (Alike c d)) d))
      = p.readWith kind fun d => texts (firstAlike (c :: cs) d) := by
  cases p with
  | literal text => rfl
  | token k tag d =>
    unfold Piece.putText Piece.readWith Piece.isOccurrence Piece.contentOf?
    by_cases hkind : k = kind
    · by_cases halike : Alike c d
      · simp [hkind, halike, firstAlike_cons]
      · simp [hkind, halike, firstAlike_cons]
    · simp [hkind]

/-- A sweep within the limit reads each token as the first that is alike, and fails with the first
that cannot be read. -/
theorem PutsIn.sweepFrom_eq (h : ctx.PutsIn) (cs : List Text) : ∀ {ps s budget},
    contents kind ps = cs → ctx.ReadsPlain kind ps → s.text = render ps →
    (distinctContents cs).length ≤ budget →
      ∃ done, ctx.sweepFrom kind required input budget s
        = okUnless ((distinctContents cs).findSome? (ctx.fault? kind required)) ⟨done,
            render (ps.map (Piece.readWith kind
              fun c => ctx.readText kind required (firstAlike cs c))),
            (distinctContents cs).foldl (ctx.keepFound kind) s.keep⟩ := by
  induction cs using distinctContents_induct with
  | nil =>
    intro ps s budget hcontents hreads htext _
    have hnone : first? kind s.text = none := by
      rw [htext, first?_render hreads.plain, hcontents]
      rfl
    refine ⟨s.done, ?_⟩
    rw [map_readWith_of_contents_eq_nil hcontents, ← htext, sweepFrom.eq_def, hnone]
    rfl
  | cons c cs ih =>
    intro ps s budget hcontents hreads htext hlength
    rw [distinctContents_cons] at hlength ⊢
    have hmem : c ∈ contents kind ps := by
      rw [hcontents]
      exact List.mem_cons_self
    have hfirst : first? kind s.text = some c := by
      rw [htext, first?_render hreads.plain, hcontents]
      rfl
    obtain ⟨budget, rfl⟩ : ∃ n, budget = n + 1 := ⟨budget - 1, by
      rw [List.length_cons] at hlength
      omega⟩
    rw [sweepFrom.eq_def, hfirst]
    dsimp only
    rw [h.replaceToken_eq (hreads.values c hmem), List.findSome?_cons, List.foldl_cons]
    unfold fault?
    cases hread : ctx.read kind required c with
    | error e => exact ⟨true, rfl⟩
    | ok put =>
      have hput := dollar_not_mem_read (hreads.values c hmem) hread
      have hclose : '}' ∉ c := by
        obtain ⟨tag, hp⟩ := mem_contents_iff.mp hmem
        exact (hreads.plain _ hp).2.2.2
      have htexts : ctx.readText kind required c = put := by
        rw [readText, hread]
        rfl
      have hnext : contents kind (ps.map (Piece.putText kind c put))
          = cs.filter fun d => !decide (Alike c d) := by
        rw [contents_putText, hcontents, List.filter_cons_of_neg (by simp [Alike.refl])]
      obtain ⟨done, hdone⟩ := ih (s := ⟨s.done && (ctx.found? kind c).isNone,
          Token.replaceAll kind c put s.text, ctx.keepFound kind s.keep c⟩) hnext
        (hreads.putText hput)
        (by rw [htext]; exact replaceAll_render_putText hclose put hreads.plain)
        (Nat.le_of_succ_le_succ hlength)
      refine ⟨done, hdone.trans ?_⟩
      have hpieces : (Piece.readWith kind fun d =>
            ctx.readText kind required (firstAlike (cs.filter fun d => !decide (Alike c d)) d))
              ∘ Piece.putText kind c put
          = Piece.readWith kind fun d => ctx.readText kind required (firstAlike (c :: cs) d) := by
        rw [← htexts]
        exact funext fun p => readWith_putText _ p
      rw [List.map_map, hpieces]
      rfl

/-- Why a sweep over a template fails: the first of the distinct tokens that cannot be read. -/
def sweepFault? (ctx : Context) (kind : TokenKind) (required : Bool) (ps : List Piece) :
    Option Error :=
  (distinctContents (contents kind ps)).findSome? (ctx.fault? kind required)

/-- The template with each token of a kind read as the first that is alike. -/
def readPieces (ctx : Context) (kind : TokenKind) (required : Bool) (ps : List Piece) : List Piece :=
  ps.map (Piece.readWith kind fun c => ctx.readText kind required (firstAlike (contents kind ps) c))

/-- The values that are kept for the names of the tokens of a kind. -/
def keepRead (ctx : Context) (kind : TokenKind) (ps : List Piece) : Entries Text :=
  (distinctContents (contents kind ps)).foldl (ctx.keepFound kind) []

/-- What a sweep over a template does that reads all distinct tokens within the limit. -/
theorem PutsIn.sweep_eq (h : ctx.PutsIn) (hreads : ctx.ReadsPlain kind ps)
    (hlength : (distinctContents (contents kind ps)).length ≤ ctx.services.limit) :
    ∃ done, ctx.sweep kind required (render ps)
      = okUnless (ctx.sweepFault? kind required ps)
        ⟨done, render (ctx.readPieces kind required ps), ctx.keepRead kind ps⟩ :=
  h.sweepFrom_eq _ rfl hreads rfl hlength

theorem dollar_not_mem_readText (hvalue : ∀ value, ctx.found? kind content = some value → '$' ∉ value) :
    '$' ∉ ctx.readText kind required content := by
  unfold readText
  cases hread : ctx.read kind required content with
  | error e => exact List.not_mem_nil
  | ok put => exact dollar_not_mem_read hvalue hread

/-- The text that stands for a token is the one of a token of the template. -/
theorem ReadsPlain.dollar_not_mem_readText (h : ctx.ReadsPlain kind ps)
    (hcontent : content ∈ contents kind ps) :
    '$' ∉ ctx.readText kind required (firstAlike (contents kind ps) content) := by
  obtain ⟨hfirst, -⟩ := firstAlike_spec _ hcontent
  exact Context.dollar_not_mem_readText (h.values _ (mem_of_mem_distinctContents _ hfirst))

theorem ReadsPlain.plain_readPieces (h : ctx.ReadsPlain kind ps) :
    ∀ p ∈ ctx.readPieces kind required ps, p.Plain := by
  intro p hp
  obtain ⟨q, hq, rfl⟩ := List.mem_map.mp hp
  unfold Piece.readWith
  split
  · rename_i content hcontent
    exact h.dollar_not_mem_readText (List.mem_filterMap.mpr ⟨q, hq, hcontent⟩)
  · exact h.plain q hq

theorem contentOf?_readWith {other : TokenKind} (texts : Text → Text) (p : Piece) :
    (p.readWith kind texts).contentOf? other
      = if other = kind then none else p.contentOf? other := by
  cases p with
  | literal text =>
    split <;> rfl
  | token k tag c =>
    unfold Piece.readWith Piece.contentOf?
    by_cases hk : k = kind
    · by_cases hother : other = kind
      · simp [hk, hother]
      · simp [hk, hother, Ne.symm hother]
    · by_cases hother : other = kind
      · simp [hk, hother]
      · simp [hk, hother]

/-- A sweep leaves no token of its kind, and the tokens of the other kinds as they are. -/
theorem contents_readPieces {other : TokenKind} :
    contents other (ctx.readPieces kind required ps)
      = if other = kind then [] else contents other ps := by
  unfold contents readPieces
  rw [List.filterMap_map]
  split
  · rename_i hkind
    refine List.filterMap_eq_nil_iff.mpr fun p _ => ?_
    rw [Function.comp_apply, contentOf?_readWith, if_pos hkind]
  · rename_i hkind
    refine congrArg (List.filterMap · ps) (funext fun p => ?_)
    rw [Function.comp_apply, contentOf?_readWith, if_neg hkind]

theorem contents_readPieces_of_ne {other : TokenKind} (hother : other ≠ kind) :
    contents other (ctx.readPieces kind required ps) = contents other ps :=
  contents_readPieces.trans (if_neg hother)

/-- After a sweep the tokens of another kind stand for the same texts as before. -/
theorem ReadsPlain.readPieces_of_ne {other : TokenKind} (h : ctx.ReadsPlain kind ps)
    (hreads : ctx.ReadsPlain other ps) (hother : other ≠ kind) :
    ctx.ReadsPlain other (ctx.readPieces kind required ps) where
  plain := h.plain_readPieces
  values c hc := by
    rw [contents_readPieces_of_ne hother] at hc
    exact hreads.values c hc

/-! ## The values that are kept -/

theorem mem_foldl_keepFound {cs : List Text} {keep : Entries Text} {e : Text × Text}
    (he : e ∈ cs.foldl (ctx.keepFound kind) keep) :
    e ∈ keep ∨ ∃ c ∈ cs, (nameAndWidth c).1 = e.1 ∧ ctx.found? kind c = some e.2 := by
  induction cs generalizing keep with
  | nil => exact .inl he
  | cons c cs ih =>
    rcases ih he with hmem | ⟨d, hd, hname⟩
    · unfold keepFound at hmem
      split at hmem
      · rename_i value hvalue
        rcases Entries.mem_put hmem with hmem | rfl
        · exact .inl hmem
        · exact .inr ⟨c, List.mem_cons_self, rfl, hvalue⟩
      · exact .inl hmem
    · exact .inr ⟨d, List.mem_cons_of_mem c hd, hname⟩

theorem mem_keys_foldl_keepFound {cs : List Text} {keep : Entries Text} {name : Text}
    (h : name ∈ keep.keys ∨ ∃ c ∈ cs, (nameAndWidth c).1 = name ∧ (ctx.found? kind c).isSome) :
    name ∈ (cs.foldl (ctx.keepFound kind) keep).keys := by
  induction cs generalizing keep with
  | nil =>
    rcases h with h | ⟨c, hc, -⟩
    · exact h
    · cases hc
  | cons c cs ih =>
    refine ih ?_
    unfold keepFound
    rcases h with hname | ⟨d, hd, hname, hfound⟩
    · refine .inl ?_
      split
      · exact Entries.mem_keys_put.mpr (.inl hname)
      · exact hname
    · rcases List.mem_cons.mp hd with rfl | hd
      · obtain ⟨value, hvalue⟩ := Option.isSome_iff_exists.mp hfound
        rw [hvalue]
        exact .inl (Entries.mem_keys_put.mpr (.inr hname.symm))
      · exact .inr ⟨d, hd, hname, hfound⟩

/-- Each value that is kept is the one of a distinct token, under its name. -/
theorem exists_of_mem_keepRead {e : Text × Text} (h : e ∈ ctx.keepRead kind ps) :
    ∃ c ∈ distinctContents (contents kind ps),
      (nameAndWidth c).1 = e.1 ∧ ctx.found? kind c = some e.2 :=
  (mem_foldl_keepFound h).resolve_left List.not_mem_nil

theorem mem_keys_keepRead (hcontent : content ∈ distinctContents (contents kind ps))
    (hfound : (ctx.found? kind content).isSome) :
    (nameAndWidth content).1 ∈ (ctx.keepRead kind ps).keys :=
  mem_keys_foldl_keepFound (.inr ⟨content, hcontent, rfl, hfound⟩)

end Substitution.Context

end WorkflowControl
