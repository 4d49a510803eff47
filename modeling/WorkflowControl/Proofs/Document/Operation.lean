import WorkflowControl.Document.Basic
import WorkflowControl.Proofs.Section.Place

/-!
What can be done to a document: the operations that write into one of its sections, those on the
document itself, and sequences of them. An operation that cannot be done leaves the document as it
is (`apply`); whether it can be done is said by `perform?`. For the opening of sections that are
there this is a matter of scalars only, as `Unobstructed` says it of a sequence
(`unobstructed_of_performAll?`).
-/

namespace WorkflowControl

/-- A change of a document. The operations on a section name its place. -/
inductive Operation where
  /-- Writes a node under a key, in place if the key is there and at the end if it is not. -/
  | insert (path : List Text) (key : Text) (node : Node)
  /-- Creates a section if it is missing. -/
  | enter (path : List Text) (name : Text)
  | merge (path : List Text) (added : Section)
  | erase (path : List Text) (key : Text)
  /-- Writes a node at a dotted path. -/
  | set (key : Text) (node : Node)
  | bindCurrent (key value : Text)
  | update (added : Section)

/-- A section can be opened unless a scalar has its name. -/
theorem Section.withSection?_eq_none_iff {s : Section} {name : Text} :
    s.withSection? name = none ↔ s.getScalar? name.lower ≠ none := by
  unfold withSection? getScalar?
  dsimp only
  cases s.get? name.lower with
  | none => simp
  | some node => cases node <;> simp [Node.scalar?]

namespace Document

open Section

/-- The document with a section changed, if it is there and can be changed so. -/
def change? (doc : Document) (path : List Text) (f : Section → Option Section) : Option Document :=
  (doc.root.modifyAt? f path).map fun root => { doc with root := root }

/-- The document after an operation, if the operation can be done. -/
def perform? (doc : Document) : Operation → Option Document
  | .insert path key node => doc.change? path fun s => some (s.insert key node)
  | .enter path name => doc.change? path fun s => s.withSection? name
  | .merge path added => doc.change? path fun s => some (s.merge added)
  | .erase path key => doc.change? path fun s => some (s.erase key)
  | .set key node => (doc.set key node).toOption
  | .bindCurrent key value => (doc.bindCurrent key value).toOption
  | .update added => some (doc.update added)

/-- The document after operations all of which can be done. -/
def performAll? (doc : Document) : List Operation → Option Document
  | [] => some doc
  | op :: rest => (doc.perform? op).bind fun next => next.performAll? rest

/-- The document after an operation. One that cannot be done leaves it as it is. -/
def apply (doc : Document) (op : Operation) : Document := (doc.perform? op).getD doc

/-- The document after operations in turn. -/
def applyAll (doc : Document) : List Operation → Document
  | [] => doc
  | op :: rest => (doc.apply op).applyAll rest

/-- Whether an operation does not open a section in the place of a scalar. -/
def Free (doc : Document) : Operation → Prop
  | .enter path name =>
    ∀ s, doc.root.at? path = some s → s.getScalar? name.lower = none
  | _ => True

/-- Whether none of some operations opens a section in the place of a scalar that is there then. -/
def Unobstructed (doc : Document) : List Operation → Prop
  | [] => True
  | op :: rest => doc.Free op ∧ (doc.apply op).Unobstructed rest

variable {doc doc' : Document} {op : Operation} {ops : List Operation}

theorem performAll?_append (doc : Document) (ops more : List Operation) :
    doc.performAll? (ops ++ more) = (doc.performAll? ops).bind fun next => next.performAll? more := by
  induction ops generalizing doc with
  | nil => rfl
  | cons op rest ih =>
    rw [List.cons_append, performAll?, performAll?, Option.bind_assoc]
    exact congrArg _ (funext fun next => ih next)

theorem unobstructed_append {more : List Operation} :
    doc.Unobstructed (ops ++ more)
      ↔ doc.Unobstructed ops ∧ (doc.applyAll ops).Unobstructed more := by
  induction ops generalizing doc with
  | nil => exact (and_iff_right trivial).symm
  | cons op rest ih =>
    rw [List.cons_append, Unobstructed, Unobstructed, ih, and_assoc]
    rfl

theorem apply_of_perform? (h : doc.perform? op = some doc') : doc.apply op = doc' := by
  rw [apply, h]
  rfl

theorem applyAll_of_performAll? (h : doc.performAll? ops = some doc') :
    doc.applyAll ops = doc' := by
  induction ops generalizing doc with
  | nil => exact Option.some.inj h
  | cons op rest ih =>
    obtain ⟨next, hnext, h⟩ := Option.bind_eq_some_iff.mp h
    rw [applyAll, apply_of_perform? hnext]
    exact ih h

/-- Changing a section is putting the changed one in its place. -/
theorem change?_eq {path : List Text} {s : Section} (h : doc.root.at? path = some s)
    (f : Section → Option Section) :
    doc.change? path f = (f s).map fun new => { doc with root := doc.root.replaceAt path new } := by
  rw [change?, modifyAt?_eq h, Option.map_map]
  rfl

theorem change?_of_none {path : List Text} (h : doc.root.at? path = none)
    (f : Section → Option Section) : doc.change? path f = none := by
  rw [change?, modifyAt?_of_none h]
  rfl

/-- Operations that can all be done open no section in the place of a scalar. -/
theorem unobstructed_of_performAll? (h : doc.performAll? ops = some doc') :
    doc.Unobstructed ops := by
  induction ops generalizing doc with
  | nil => exact trivial
  | cons op rest ih =>
    obtain ⟨next, hnext, h⟩ := Option.bind_eq_some_iff.mp h
    refine ⟨?_, by rw [apply_of_perform? hnext]; exact ih h⟩
    cases op with
    | enter path name =>
      intro s hs
      by_cases hscalar : s.getScalar? name.lower = none
      · exact hscalar
      · rw [perform?, change?_eq hs, withSection?_eq_none_iff.mpr hscalar] at hnext
        cases hnext
    | _ => exact trivial

/-! ## Search order -/

theorem searchOrder_change? {path : List Text} {f : Section → Option Section}
    (h : doc.change? path f = some doc') : doc'.searchOrder = doc.searchOrder := by
  obtain ⟨root, -, rfl⟩ := Option.map_eq_some_iff.mp h
  rfl

theorem searchOrder_perform? (h : doc.perform? op = some doc') :
    doc'.searchOrder = doc.searchOrder := by
  cases op with
  | set key node =>
    rw [perform?, set] at h
    split at h
    · cases h
    · obtain rfl := Option.some.inj h
      rfl
  | bindCurrent key value =>
    rw [perform?, bindCurrent] at h
    split at h
    · obtain rfl := Option.some.inj h
      rfl
    · cases h
  | update added =>
    obtain rfl := Option.some.inj h
    rfl
  | _ => exact searchOrder_change? h

/-- No operation changes the search order. -/
theorem searchOrder_applyAll (doc : Document) (ops : List Operation) :
    (doc.applyAll ops).searchOrder = doc.searchOrder := by
  induction ops generalizing doc with
  | nil => rfl
  | cons op rest ih =>
    rw [applyAll, ih, apply]
    cases h : doc.perform? op with
    | none => rfl
    | some next => exact searchOrder_perform? h

end Document

end WorkflowControl
