import WorkflowControl.Proofs.Document.Step

/-!
How a line is refused. A step of reading gives the same state at every position, or it fails at each
with the same fault and the same keys (`Reports`): its position enters the message and nothing else.
The keys are those of the open sections, but a tag with a label may have opened its own section
before that of the label is refused (`refusalPath`).
-/

namespace WorkflowControl.ReadState

/-- The keys that are named where a line is refused: those of the open sections, and that of a tag
as well if its section is opened and the one of its label is not. -/
def refusalPath (st : ReadState) : Line → List Text
  | .openSection key (some _) =>
    if (st.after? (.openSection key none)).isSome then st.path ++ [key] else st.path
  | _ => st.path

/-- Whether a step has the same result at every position, or fails at each with the same fault and
the keys in `stack`. -/
def Reports {α : Type} (stack : List Text) (step : Position → Except Error α) : Prop :=
  (∃ a, ∀ pos, step pos = .ok a)
    ∨ ∃ fault, ∀ pos, step pos = .error (.structural pos.file (some pos.line) fault stack)

namespace Reports

variable {α : Type} {stack : List Text} {step : Position → Except Error α}

theorem ok (a : α) : Reports stack fun _ => .ok a := .inl ⟨a, fun _ => rfl⟩

theorem failure (st : ReadState) (fault : StructuralFault) :
    Reports (α := α) st.path fun pos => .error (st.failure pos fault) :=
  .inr ⟨fault, fun _ => rfl⟩

theorem eq_error (h : Reports stack step) {pos : Position} {e : Error}
    (he : step pos = .error e) :
    ∃ fault, e = .structural pos.file (some pos.line) fault stack := by
  obtain ⟨a, ha⟩ | ⟨fault, hfault⟩ := h
  · rw [ha] at he
    cases he
  · rw [hfault] at he
    exact ⟨fault, (Except.error.inj he).symm⟩

end Reports

variable {st st' : ReadState}

theorem reports_insertPair (st : ReadState) (key value : Text) :
    Reports st.path fun pos => st.insertPair pos key value := by
  unfold insertPair
  cases st.root.modifyAt? (fun s => some (s.insert key (.scalar value))) st.path with
  | some root => exact .ok _
  | none => exact .failure st .sectionLost

theorem reports_enter (st : ReadState) (opened : OpenSection) :
    Reports st.path fun pos => st.enter pos opened := by
  unfold enter
  cases st.current? with
  | none => exact .failure st .sectionLost
  | some _ =>
    cases st.root.modifyAt? (fun s => s.withSection? opened.key) st.path with
    | some root => exact .ok _
    | none => exact .failure st (.nameTaken opened.key)

theorem reports_closeTag (st : ReadState) (key : Text) :
    Reports st.path fun pos => st.closeTag pos key := by
  unfold closeTag
  split
  · exact .failure st (.closeOutside key)
  · split
    · exact .ok _
    · exact .failure st _
  · split
    · exact .ok _
    · split
      · split
        · exact .ok _
        · exact .failure st _
      · exact .failure st _

/-- The section of a label is opened behind the one of its tag. -/
theorem openTag_label (st : ReadState) (pos : Position) (key label : Text) :
    st.openTag pos key (some label)
      = st.openTag pos key none >>= fun opened => opened.enter pos ⟨label, true⟩ := by
  unfold openTag
  split
  · rfl
  · cases st.enter pos ⟨key, false⟩ <;> rfl

theorem reports_openTag_none (st : ReadState) (key : Text) :
    Reports st.path fun pos => st.openTag pos key none := by
  unfold openTag
  by_cases hname : st.openSections.head?.map OpenSection.key = some key
  · simp only [if_pos hname]
    exact .failure st (.sameName key)
  · simp only [if_neg hname]
    obtain ⟨opened, hopened⟩ | ⟨fault, hfault⟩ := reports_enter st ⟨key, false⟩
    · exact .inl ⟨opened, fun pos => congrArg (· >>= Except.ok) (hopened pos)⟩
    · exact .inr ⟨fault, fun pos => congrArg (· >>= Except.ok) (hfault pos)⟩

theorem path_of_openSection {key : Text} (h : st.after? (.openSection key none) = some st') :
    st'.path = st.path ++ [key] := by
  obtain ⟨-, opened, hopened, hlabel⟩ := after?_openSection_eq_some_iff.mp h
  obtain rfl := Option.some.inj hlabel
  rw [path, openSections_entered? hopened]
  exact path_cons st.root ⟨key, false⟩ st.openSections

theorem reports_openTag (st : ReadState) (key : Text) (label : Option Text) :
    Reports (st.refusalPath (.openSection key label)) fun pos => st.openTag pos key label := by
  cases label with
  | none => exact reports_openTag_none st key
  | some label =>
    have hkey : ∀ pos, (st.openTag pos key none).toOption = st.after? (.openSection key none) :=
      fun pos => openTag_toOption pos st key none
    obtain ⟨opened, hopened⟩ | ⟨fault, hfault⟩ := reports_openTag_none st key
    · dsimp only at hopened
      have hafter : st.after? (.openSection key none) = some opened := by
        rw [← hkey ⟨[], 0⟩, hopened]
        rfl
      -- The section of the tag is open by now, so the label is refused behind its key.
      have hstack : st.refusalPath (.openSection key (some label)) = opened.path := by
        rw [refusalPath, hafter, path_of_openSection hafter]
        rfl
      have hsame : (fun pos => st.openTag pos key (some label))
          = fun pos => opened.enter pos ⟨label, true⟩ := by
        funext pos
        rw [openTag_label, hopened]
        rfl
      rw [hstack, hsame]
      exact reports_enter opened ⟨label, true⟩
    · dsimp only at hfault
      have hafter : st.after? (.openSection key none) = none := by
        rw [← hkey ⟨[], 0⟩, hfault]
        rfl
      -- The tag itself is refused, as it is without the label.
      have hstack : st.refusalPath (.openSection key (some label)) = st.path := by
        rw [refusalPath, hafter]
        rfl
      rw [hstack]
      refine .inr ⟨fault, fun pos => ?_⟩
      dsimp only
      rw [openTag_label, hfault]
      rfl

end WorkflowControl.ReadState
