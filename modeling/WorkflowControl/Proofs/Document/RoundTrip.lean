import WorkflowControl.Proofs.Document.Reading

/-!
Printing a document and reading it back. A document that could have been written by hand the way it
is printed (`Document.Writable`) comes back from its text, without a warning, and has the same text
again (`readText_print_of_writable`). Sorted printing moves entries within their section, but not
in a `cmdline` section or below one (`Section.Rearranged`).
-/

namespace WorkflowControl

namespace Text

/-- A key without blanks and without the characters that begin a comment, a tag or a directive. -/
def IsPlainKey (key : Text) : Prop :=
  IsWord key ∧ '#' ∉ key ∧ '<' ∉ key ∧ '>' ∉ key

instance (key : Text) : Decidable (IsWord key) := inferInstanceAs (Decidable (_ ∧ _))

instance (key : Text) : Decidable (IsPlainKey key) := inferInstanceAs (Decidable (_ ∧ _))

end Text

namespace Section

open Line Text

/-- What is asked of the entries of a document that is to be written. A value can have any
characters inside but line ends, so long as no directive opens in it. -/
def writable : Rule where
  scalar mode key value :=
    IsPlainKey key ∧ mode.stored key = key ∧ value ≠ [] ∧ value.trim = value ∧ '\n' ∉ value
      ∧ value.getLast? ≠ some '\\' ∧ ¬ includeOpening <:+: value ∧ ¬ callOpening <:+: value
  child own mode key childMode :=
    IsPlainKey key ∧ key.lower = key ∧ key.head? ≠ some '/' ∧ own ≠ some key
      ∧ childMode = mode.ofChild key

instance (mode : KeyCase) (key value : Text) : Decidable (writable.scalar mode key value) :=
  inferInstanceAs (Decidable (_ ∧ _))

instance (own : Option Text) (mode : KeyCase) (key : Text) (childMode : KeyCase) :
    Decidable (writable.child own mode key childMode) :=
  inferInstanceAs (Decidable (_ ∧ _))

/-- Whether a tree has at every place what another one has there, in the same order too where
entries are not sorted. -/
def Rearranged (sort : Bool) (s t : Section) : Prop :=
  ∀ path u, s.at? path = some u →
    ∃ v, t.at? path = some v ∧ v.mode = u.mode ∧ v.keys.Perm u.keys
      ∧ (∀ key, v.getScalar? key = u.getScalar? key)
      ∧ (sort = false ∨ KeyCase.cmdline ∈ path → v.keys = u.keys)

theorem rearranged_arranged {rule : Rule} {own : Option Text} {s : Section}
    (h : s.Follows rule own) (sort : Bool) : Rearranged sort s (s.arranged sort) := by
  intro path u hu
  refine ⟨u.arranged (sortsAt sort path), ?_, rfl, keys_arranged_perm _ u, ?_, ?_⟩
  · rw [at?_arranged h, hu, Option.map_some]
  · exact getScalar?_arranged (h path u hu).nodup _
  · intro hkept
    have hnot : sortsAt sort path = false := by
      rcases hkept with rfl | hmem
      · rfl
      · simp [sortsAt, hmem]
    rw [hnot, arranged_false]

/-- What is written for a plain key and its value is read as such. -/
theorem classify_pair_of_writable {mode : KeyCase} {key value : Text}
    (h : writable.scalar mode key value) : classify (pairText key value) = .pair key value := by
  obtain ⟨⟨hword, -, hangle, -⟩, -, -, htrim, -, -, hinclude, hcall⟩ := h
  have hspell : ¬ SpellsCall key value := fun hs => hangle (hs.1.subset (by decide))
  have htag : ¬ (key = ['<', '/'] ∧ value = ['>']) := fun ht => hangle (by simp [ht.1])
  exact classify_pair hword htrim (firstSome?_includeHere?_eq_none hinclude)
    (firstSome?_callHere?_eq_none hcall) hspell htag

theorem Follows.legible_of_writable {own : Option Text} {s : Section}
    (h : s.Follows writable own) : s.Follows DocumentReader.legible own := by
  refine h.mono ?_ ?_
  · intro mode key value hrule
    exact ⟨hrule.2.1, classify_pair_of_writable hrule⟩
  · intro own mode key childMode hrule
    obtain ⟨⟨hword, -⟩, hlower, hslash, hname, hmode⟩ := hrule
    refine ⟨hlower, hname, hmode, ?_, ?_⟩
    · rw [classify_openTag hword fun hhead => absurd hhead hslash, hlower]
    · rw [classify_closeTag hword, hlower]

theorem Follows.clean_of_writable {own : Option Text} {s : Section} (h : s.Follows writable own)
    (level : Nat) : ∀ l ∈ s.lines level, l.2.Clean := by
  refine h.lines ?_ ?_ level
  · intro mode key value hrule
    obtain ⟨⟨hword, hhash, -⟩, -, hne, htrim, hnewline, hlast, -⟩ := hrule
    exact TreeLine.clean_pair hword hhash hne htrim hnewline hlast
  · intro own mode key childMode hrule
    obtain ⟨⟨hword, hhash, -⟩, -⟩ := hrule
    exact ⟨TreeLine.clean_opening hword hhash, TreeLine.clean_closing hword hhash⟩

end Section

/-- A document that can be written: its top level folds keys, and its entries are writable at every
level. -/
def Document.Writable (doc : Document) : Prop :=
  doc.root.mode = .fold ∧ doc.root.Follows Section.writable none

instance (doc : Document) : Decidable doc.Writable := inferInstanceAs (Decidable (_ ∧ _))

namespace DocumentReader

/-- A writable document is read back from its text. No line is reported, the tree has everything in
its place, and its text is the same text. -/
theorem readText_print_of_writable (reader : DocumentReader) (file : Text) (doc : Document)
    (h : doc.Writable) (sort : Bool) (indent : Nat) :
    ∃ root, reader.readText file .fold (doc.print sort indent) = ⟨[], .ok { root := root }⟩
      ∧ doc.root.Rearranged sort root
      ∧ (sort = false → root = doc.root)
      ∧ Document.print { root := root } sort indent = doc.print sort indent := by
  obtain ⟨hmode, hfollows⟩ := h
  have harranged := hfollows.arranged sort
  refine ⟨doc.root.arranged sort, ?_, Section.rearranged_arranged hfollows sort, ?_, ?_⟩
  · rw [Document.print, Section.print_arranged]
    exact readText_print (s := doc.root.arranged sort) hmode harranged.legible_of_writable
      (harranged.clean_of_writable 0) indent
  · intro hsort
    rw [hsort, Section.arranged_false]
  · exact Section.print_of_arranged sort indent doc.root

/-- A document with hash signs, backslashes and tags in its values, an `=` in a key, and a section
that keeps the order of its entries. -/
def roundTripDocument : Document where
  root := { entries := [
    (['r', 'a', 't', 'e', '=', 'x'],
      .scalar ['#', '1', ' ', 'o', 'f', ' ', '\\', '#', ' ', '<', 'b', '>', ' ', '=', ' ', '$', 'y']),
    (['c', 'm', 'd', 'l', 'i', 'n', 'e'], .subsection .preserve [
      (['Z'], .scalar ['-', 'v']), (['A'], .scalar ['a', '\\', 'b'])])] }

theorem readText_print_roundTripDocument :
    roundTripDocument.Writable
      ∧ ∃ root, (⟨{}, {}, fun _ => .error .notFound⟩ : DocumentReader).readText [] .fold
          (roundTripDocument.print true 4) = ⟨[], .ok { root := root }⟩
        ∧ roundTripDocument.root.Rearranged true root
        ∧ Document.print { root := root } true 4 = roundTripDocument.print true 4 := by
  have hwritable : roundTripDocument.Writable := by decide
  obtain ⟨root, hread, hrearranged, -, hprint⟩ :=
    readText_print_of_writable ⟨{}, {}, fun _ => .error .notFound⟩ [] _ hwritable true 4
  exact ⟨hwritable, root, hread, hrearranged, hprint⟩

end DocumentReader

end WorkflowControl
