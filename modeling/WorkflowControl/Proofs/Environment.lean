import Mathlib.Data.List.Basic
import WorkflowControl.Environment
import WorkflowControl.Proofs.Text.Split
import WorkflowControl.Proofs.Text.Trim

/-!
What the expansion of variables makes of a text. From left to right a text is read as characters
that are copied and references that may be replaced (`Scans`). There is one way to read it, which no
variable has a part in (`existsUnique_segments`). The expansion puts the value in for each reference
to a defined variable and leaves all else as it is (`Scans.expandVariables_eq`), so a value that was
put in is never read for references.
-/

namespace WorkflowControl.Environment

open Text

/-- A part of a text in which variables are expanded: a character that is copied, or a reference to
a variable, with braces or without. -/
inductive Segment
  | copied (c : Char)
  | reference (braces : Bool) (name : Text)
deriving DecidableEq

namespace Segment

/-- A segment as it is written. -/
def text : Segment → Text
  | copied c => [c]
  | reference true name => '$' :: '{' :: (name ++ ['}'])
  | reference false name => '$' :: name

/-- The variable that a segment refers to. An empty name is that of no variable. -/
def name? : Segment → Option Text
  | copied _ => none
  | reference _ name => if name = [] then none else some name

/-- What a segment becomes: the value of the variable that it refers to, or its text where it refers
to none or the variable is not defined. -/
def expanded (env : Environment) (s : Segment) : Text := (s.name?.bind env.value?).getD s.text

end Segment

/-- The segments of a text as they are found from left to right. A `$` with `{` behind it begins a
reference up to the first `}`, and none if there is no `}`. Any other `$` begins a reference to the
longest run of characters that a name without braces may have. -/
inductive Scans : Text → List Segment → Prop
  | done : Scans [] []
  | copied {c : Char} {rest : Text} {segments : List Segment} (h : c ≠ '$') :
      Scans rest segments → Scans (c :: rest) (.copied c :: segments)
  | unclosed {more : Text} {segments : List Segment} (h : '}' ∉ more) :
      Scans ('{' :: more) segments → Scans ('$' :: '{' :: more) (.copied '$' :: segments)
  | braces {more name rest : Text} {segments : List Segment} (hmore : more = name ++ '}' :: rest)
      (hname : '}' ∉ name) :
      Scans rest segments → Scans ('$' :: '{' :: more) (.reference true name :: segments)
  | bare {more name rest : Text} {segments : List Segment} (hmore : more = name ++ rest)
      (hbrace : more.head? ≠ some '{') (hname : ∀ c ∈ name, isNameChar c = true)
      (hrest : ∀ c ∈ rest.head?, isNameChar c = false) :
      Scans rest segments → Scans ('$' :: more) (.reference false name :: segments)

variable {env : Environment} {text name more rest : Text} {segments : List Segment}

/-! ## References -/

theorem reference_unclosed (h : '}' ∉ more) : reference ('{' :: more) = ([], 0) := by
  have hnot : more.contains '}' = false := by
    rw [← Bool.not_eq_true, List.contains_iff_mem]
    exact h
  rw [reference, hnot]
  rfl

theorem reference_braces (h : '}' ∉ name) (rest : Text) :
    reference ('{' :: (name ++ '}' :: rest)) = (name, name.length + 2) := by
  have hclosed : (name ++ '}' :: rest).contains '}' = true :=
    List.contains_iff_mem.mpr (List.mem_append_right name List.mem_cons_self)
  have hname : (name ++ '}' :: rest).takeWhile (· != '}') = name := by
    apply takeWhile_append_stop
    · intro c hc
      exact bne_iff_ne.mpr (fun heq => h (heq ▸ hc))
    · rintro c ⟨⟩
      rfl
  rw [reference, hclosed, if_pos rfl, hname]

theorem reference_bare (hbrace : (name ++ rest).head? ≠ some '{')
    (hname : ∀ c ∈ name, isNameChar c = true) (hrest : ∀ c ∈ rest.head?, isNameChar c = false) :
    reference (name ++ rest) = (name, name.length) := by
  have hrun : (name ++ rest).takeWhile isNameChar = name := takeWhile_append_stop hname hrest
  rw [reference, hrun]
  intro more heq
  exact hbrace (by rw [heq, List.head?_cons])

/-! ## One step of the expansion -/

theorem expandFrom_eq_drop (env : Environment) (skip : Nat) (text : Text) :
    env.expandFrom skip text = env.expandFrom 0 (text.drop skip) := by
  induction text generalizing skip with
  | nil => cases skip <;> rfl
  | cons c cs ih =>
    cases skip with
    | zero => rfl
    | succ skip => rw [expandFrom, ih, List.drop_succ_cons]

/-- A `$` becomes the value of the variable that it refers to, or it is copied with the rest of the
reference. -/
theorem expandFrom_dollar {size : Nat} (h : reference rest = (name, size)) (env : Environment) :
    env.expandFrom 0 ('$' :: rest)
      = ((if name = [] then none else some name).bind env.value?).getD ('$' :: rest.take size)
        ++ env.expandFrom 0 (rest.drop size) := by
  rw [expandFrom, if_pos rfl, h]
  dsimp only
  rw [expandFrom_eq_drop env size rest]
  by_cases hname : name = []
  · rw [if_pos hname, if_pos (List.isEmpty_iff.mpr hname)]
    rfl
  · rw [if_neg hname, if_neg (mt List.isEmpty_iff.mp hname), Option.bind_some]
    cases env.value? name with
    | some value => rfl
    | none => rfl

theorem expandFrom_copied {c : Char} (h : c ≠ '$') (rest : Text) :
    env.expandFrom 0 (c :: rest) = c :: env.expandFrom 0 rest := by
  rw [expandFrom, if_neg h]

/-! ## All segments -/

/-- What a text becomes is what its segments become. -/
theorem Scans.expandVariables_eq (h : Scans text segments) (env : Environment) :
    env.expandVariables text = segments.flatMap (Segment.expanded env) := by
  rw [expandVariables]
  induction h with
  | done => rfl
  | copied hc _ ih =>
    rw [expandFrom_copied hc, ih]
    rfl
  | unclosed hmore _ ih =>
    rw [expandFrom_dollar (reference_unclosed hmore), List.drop_zero, ih]
    rfl
  | @braces more name rest segments hmore hname _ ih =>
    have hopen : '{' :: (name ++ '}' :: rest) = '{' :: (name ++ ['}']) ++ rest := by simp
    have hlength : name.length + 2 = ('{' :: (name ++ ['}'])).length := by simp
    rw [hmore, expandFrom_dollar (reference_braces hname rest), hopen, hlength, List.take_left,
      List.drop_left, ih]
    rfl
  | bare hmore hbrace hname hrest _ ih =>
    subst hmore
    rw [expandFrom_dollar (reference_bare hbrace hname hrest), List.take_left, List.drop_left, ih]
    rfl

/-- The segments of a text are written as the text. -/
theorem Scans.flatMap_text (h : Scans text segments) : segments.flatMap Segment.text = text := by
  induction h with
  | done => rfl
  | copied _ _ ih => rw [List.flatMap_cons, ih]; rfl
  | unclosed _ _ ih => rw [List.flatMap_cons, ih]; rfl
  | braces hmore _ _ ih => rw [List.flatMap_cons, ih, hmore, Segment.text]; simp
  | bare hmore _ _ _ _ ih => rw [List.flatMap_cons, ih, hmore]; rfl

theorem exists_scans_dollar (rest : Text)
    (ih : ∀ shorter : Text, shorter.length ≤ rest.length → ∃ segments, Scans shorter segments) :
    ∃ segments, Scans ('$' :: rest) segments := by
  by_cases hbrace : rest.head? = some '{'
  · obtain ⟨more, rfl⟩ := List.head?_eq_some_iff.mp hbrace
    by_cases hmore : '}' ∈ more
    · obtain ⟨name, behind, rfl, hname⟩ := List.eq_append_cons_of_mem hmore
      obtain ⟨segments, h⟩ := ih behind (by simp; omega)
      exact ⟨_, .braces rfl hname h⟩
    · obtain ⟨segments, h⟩ := ih _ (Nat.le_refl _)
      exact ⟨_, .unclosed hmore h⟩
  · obtain ⟨segments, h⟩ := ih _ (List.dropWhile_suffix isNameChar).length_le
    exact ⟨_, .bare List.takeWhile_append_dropWhile.symm hbrace (fun c hc => of_mem_takeWhile hc)
      (head_dropWhile _ _) h⟩

theorem exists_scans (text : Text) : ∃ segments, Scans text segments := by
  induction hlength : text.length using Nat.strongRecOn generalizing text with
  | ind length ih =>
    match text with
    | [] => exact ⟨_, .done⟩
    | c :: rest =>
      rw [List.length_cons] at hlength
      by_cases hc : c = '$'
      · subst hc
        exact exists_scans_dollar rest fun shorter hshorter => ih _ (by omega) shorter rfl
      · obtain ⟨segments, h⟩ := ih _ (by omega) rest rfl
        exact ⟨_, .copied hc h⟩

theorem Scans.unique {others : List Segment} (h : Scans text segments) (h' : Scans text others) :
    others = segments := by
  induction h generalizing others with
  | done => cases h'; rfl
  | copied hc _ ih =>
    cases h' with
    | copied _ h' => rw [ih h']
    | unclosed => exact absurd rfl hc
    | braces => exact absurd rfl hc
    | bare => exact absurd rfl hc
  | unclosed hmore _ ih =>
    cases h' with
    | copied hc => exact absurd rfl hc
    | unclosed _ h' => rw [ih h']
    | braces heq => exact absurd (by simp [heq]) hmore
    | bare _ hbrace => exact absurd rfl hbrace
  | braces hmore hname _ ih =>
    cases h' with
    | copied hc => exact absurd rfl hc
    | unclosed hnot => exact absurd (by simp [hmore]) hnot
    | braces hmore' hname' h' =>
      obtain ⟨rfl, rfl⟩ := append_inj_of_not_mem hname hname' (hmore.symm.trans hmore')
      rw [ih h']
    | bare _ hbrace => exact absurd rfl hbrace
  | bare hmore hbrace hname hrest _ ih =>
    cases h' with
    | copied hc => exact absurd rfl hc
    | unclosed => exact absurd rfl hbrace
    | braces => exact absurd rfl hbrace
    | bare hmore' _ hname' hrest' h' =>
      subst hmore
      obtain rfl := (takeWhile_append_stop hname hrest).symm.trans
        ((congrArg _ hmore').trans (takeWhile_append_stop hname' hrest'))
      obtain rfl := List.append_cancel_left hmore'
      rw [ih h']

/-- Where no variable that the segments refer to is defined, each of them stays as it is. -/
theorem flatMap_expanded_of_none
    (h : ∀ s ∈ segments, ∀ name ∈ s.name?, env.value? name = none) :
    segments.flatMap (Segment.expanded env) = segments.flatMap Segment.text := by
  apply List.flatMap_congr
  intro s hs
  rw [Segment.expanded]
  cases hname : s.name? with
  | none => rfl
  | some name =>
    rw [Option.bind_some, h s hs name hname]
    rfl

/-- A text has one sequence of segments, whatever the environment is, and becomes what these become
one by one. So it stays as it is where no variable that it refers to is defined. -/
theorem existsUnique_segments (text : Text) :
    ∃ segments, Scans text segments ∧ (∀ others, Scans text others → others = segments)
      ∧ segments.flatMap Segment.text = text
      ∧ ∀ env : Environment,
        env.expandVariables text = segments.flatMap (Segment.expanded env)
        ∧ ((∀ s ∈ segments, ∀ name ∈ s.name?, env.value? name = none) →
          env.expandVariables text = text) := by
  obtain ⟨segments, h⟩ := exists_scans text
  refine ⟨segments, h, fun others => h.unique, h.flatMap_text, fun env => ?_⟩
  have hexpanded := h.expandVariables_eq env
  refine ⟨hexpanded, fun hnone => ?_⟩
  calc env.expandVariables text
      = segments.flatMap (Segment.expanded env) := hexpanded
    _ = segments.flatMap Segment.text := flatMap_expanded_of_none hnone
    _ = text := h.flatMap_text

/-- The segments of a text with references of both kinds, one right behind a `$`, and with a `{` that
is not closed. -/
def mixedSegments : List Segment :=
  [.copied 'é', .reference false ['A'], .reference false [], .reference true ['B', ' ', 'C'],
    .copied '$', .copied '{', .copied 'A']

theorem scans_mixedSegments : Scans (mixedSegments.flatMap Segment.text) mixedSegments := by
  have hmore : ['B', ' ', 'C', '}', '$', '{', 'A'] = ['B', ' ', 'C'] ++ '}' :: ['$', '{', 'A'] := rfl
  apply Scans.copied (by decide)
  apply Scans.bare rfl (by decide) (by decide) (by decide)
  apply Scans.bare rfl (by decide) (by decide) (by decide)
  apply Scans.braces hmore (by decide)
  apply Scans.unclosed (by decide)
  apply Scans.copied (by decide)
  apply Scans.copied (by decide)
  exact .done

theorem existsUnique_segments_mixedSegments :
    mixedSegments.flatMap Segment.text = "é$A$$\x7bB C\x7d$\x7bA".toList
      ∧ ({} : Environment).expandVariables (mixedSegments.flatMap Segment.text)
        = "é$A$$\x7bB C\x7d$\x7bA".toList
      ∧ (⟨[(['A'], ['$', 'B']), (['B'], ['b'])], none⟩ : Environment).expandVariables
          (mixedSegments.flatMap Segment.text) = "é$B$$\x7bB C\x7d$\x7bA".toList := by
  obtain ⟨segments, -, hunique, -, hexpanded⟩ :=
    existsUnique_segments (mixedSegments.flatMap Segment.text)
  obtain rfl := hunique _ scans_mixedSegments
  have htext : mixedSegments.flatMap Segment.text = "é$A$$\x7bB C\x7d$\x7bA".toList := by decide
  refine ⟨htext, ?_, ?_⟩
  · rw [← htext]
    exact (hexpanded _).2 (by decide)
  · rw [(hexpanded _).1]
    decide

end WorkflowControl.Environment
