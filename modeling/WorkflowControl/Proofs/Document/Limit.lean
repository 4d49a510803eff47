import WorkflowControl.Proofs.Document.Includes
import WorkflowControl.Proofs.Substitution.Limit

/-!
Reading under a greater limit. Apart from the substitutions in targets and arguments, the limit
bounds how deep includes are nested. A text that is read under a limit is read in the same way, with
the same warnings, under a greater one (`Lasts`); one that is refused may be refused because of the
limit, in its own text or in a file that it includes.

With what is shown of substitutions, the limit changes no answer: it only decides whether there is
one (`limit_changes_no_answer`).
-/

namespace WorkflowControl

open Substitution

namespace Reading

variable {α β : Type} {r r' : Reading α}

/-- Whether `r'` is the reading `r`, unless `r` fails. -/
def Lasts (r r' : Reading α) : Prop := ∀ a, r.outcome = .ok a → r' = r

namespace Lasts

theorem refl (r : Reading α) : Lasts r r := fun _ _ => rfl

/-- A failure asks for nothing. -/
theorem fail (e : Error) (r : Reading α) : Lasts (.fail e) r := nofun

theorem bind {f g : α → Reading β} (hr : Lasts r r') (hfg : ∀ a, Lasts (f a) (g a)) :
    Lasts (r >>= f) (r' >>= g) := by
  intro b h
  obtain ⟨a, ha, hb⟩ := andThen_eq_ok h
  rw [hr a ha]
  show r.andThen g = r.andThen f
  rw [andThen, andThen, ha]
  dsimp only
  rw [hfg a b hb]

theorem ofExcept {x y : Except Error α} (h : Persists x y) :
    Lasts (.ofExcept x) (.ofExcept y) := by
  intro a ha
  obtain rfl : x = .ok a := ha
  rw [h fun ⟨_, _, he⟩ => nomatch he]

end Lasts

end Reading

namespace DocumentReader

open Reading

/-- The reader with another limit. -/
def withLimit (reader : DocumentReader) (limit : Nat) : DocumentReader :=
  { reader with services := reader.services.withLimit limit }

variable {reader : DocumentReader} {nested wider : Option TreeReader} {file : Text} {limit : Nat}

/-- Whether the files that one reader can read are read by another one in the same way. -/
def NestedLasts (nested wider : Option TreeReader) : Prop :=
  ∀ read ∈ nested, ∃ readWider ∈ wider, ∀ path mode text,
    Lasts (read path mode text) (readWider path mode text)

section

variable (hlimit : reader.services.limit ≤ limit)
include hlimit

theorem lasts_callArguments (pos : Position) (name : Text) (doc : Document) (keys : List Text)
    (args : SectionArguments) :
    Lasts (reader.callArguments pos name doc keys args)
      ((reader.withLimit limit).callArguments pos name doc keys args) := by
  induction keys generalizing args with
  | nil => exact .refl _
  | cons key rest ih =>
    apply (Lasts.ofExcept (doc.persists_resolvedValue? hlimit key {} true)).bind
    intro found
    cases found with
    | some value => exact ih (args.put key value)
    | none =>
      apply (Lasts.refl (warn (.missingArgument pos.file pos.line name key))).bind
      intro _
      exact ih args

theorem lasts_includeCall (pos : Position) (body : Text) (st : ReadState) :
    Lasts (reader.includeCall pos body st) ((reader.withLimit limit).includeCall pos body st) := by
  unfold includeCall
  cases splitCall? body with
  | none => exact .fail _ _
  | some call =>
    have hargs := lasts_callArguments hlimit pos call.1.trim st.document
      (ItemList.split call.2 ',') []
    apply hargs.bind
    intro args
    exact .refl _

variable (hnested : NestedLasts nested wider)
include hnested

theorem lasts_includeFile (pos : Position) (target : Text) (st : ReadState) :
    Lasts (reader.includeFile nested pos target st)
      ((reader.withLimit limit).includeFile wider pos target st) := by
  cases nested with
  | none => exact .fail _ _
  | some read =>
    obtain ⟨readWider, hwider, hread⟩ := hnested read rfl
    obtain rfl := Option.mem_def.mp hwider
    have hexpanded := persists_substituteOne hlimit (.ofDocument st.document {}) false target
    apply (Lasts.ofExcept hexpanded).bind
    intro expanded
    apply (Lasts.refl _).bind
    intro text
    apply (hread _ _ text).bind
    intro included
    exact .refl _

theorem lasts_readLine (line : LogicalLine) (st : ReadState) :
    Lasts (reader.readLine nested file line st)
      ((reader.withLimit limit).readLine wider file line st) := by
  unfold readLine
  cases Line.classify line.text with
  | includeFile target => exact lasts_includeFile hlimit hnested _ target st
  | includeCall body => exact lasts_includeCall hlimit _ body st
  | _ => exact .refl _

theorem lasts_readLines (ls : List LogicalLine) (st : ReadState) :
    Lasts (reader.readLines nested file ls st)
      ((reader.withLimit limit).readLines wider file ls st) := by
  induction ls generalizing st with
  | nil => exact .refl _
  | cons line rest ih =>
    apply (lasts_readLine hlimit hnested line st).bind
    intro next
    exact ih next

theorem lasts_readWhole (mode : KeyCase) (text : Text) :
    Lasts (reader.readWhole nested file mode text)
      ((reader.withLimit limit).readWhole wider file mode text) := by
  apply (lasts_readLines hlimit hnested (LogicalLine.ofText text) { root := { mode := mode } }).bind
  intro st
  exact .refl _

end

/-- What is read within a depth is read within a greater one, under a greater limit, as well. -/
theorem lasts_readWithin (hlimit : reader.services.limit ≤ limit) {depth more : Nat}
    (hdepth : depth ≤ more) (file : Text) (mode : KeyCase) (text : Text) :
    Lasts (reader.readWithin depth file mode text)
      ((reader.withLimit limit).readWithin more file mode text) := by
  induction depth generalizing more file mode text with
  | zero =>
    rw [readWithin_eq, readWithin_eq]
    refine lasts_readWhole hlimit ?_ mode text
    intro read hread
    cases hread
  | succ depth ih =>
    obtain ⟨more, rfl⟩ : ∃ less, more = less + 1 := ⟨more - 1, by omega⟩
    refine lasts_readWhole hlimit ?_ mode text
    rintro _ ⟨⟩
    exact ⟨_, rfl, fun path mode text => ih (Nat.le_of_succ_le_succ hdepth) path mode text⟩

theorem lasts_readText (hlimit : reader.services.limit ≤ limit) (file : Text) (mode : KeyCase)
    (text : Text) :
    Lasts (reader.readText file mode text) ((reader.withLimit limit).readText file mode text) := by
  apply (lasts_readWithin hlimit hlimit file mode text).bind
  intro root
  exact .refl _

/-- Whatever the sources, headers and functions are, the limit changes no answer. A substitution
that does not fail because of its limit, and a reading that does not fail, go the same way under any
greater limit. -/
theorem limit_changes_no_answer :
    (∀ (source : Source) (services : Services) (expand : Bool) (text : Text) (limit more : Nat),
      limit ≤ more →
      ¬ RunsOut (substitute source (services.withLimit limit) expand text) →
      substitute source (services.withLimit more) expand text
        = substitute source (services.withLimit limit) expand text)
    ∧ ∀ (reader : DocumentReader) (file : Text) (mode : KeyCase) (text : Text) (doc : Document)
        (limit more : Nat),
      limit ≤ more →
      ((reader.withLimit limit).readText file mode text).outcome = .ok doc →
      (reader.withLimit more).readText file mode text
        = (reader.withLimit limit).readText file mode text := by
  constructor
  · intro source services expand text limit more hmore hanswer
    have hlimit : (services.withLimit limit).limit ≤ more := hmore
    exact persists_substitute hlimit source expand text hanswer
  · intro reader file mode text doc limit more hmore hread
    have hlimit : (reader.withLimit limit).services.limit ≤ more := hmore
    exact lasts_readText hlimit file mode text doc hread

/-- A number that is found in two steps, for a width. -/
def paddedNumbers : Entries Text :=
  [(['a'], ['$', '{', 'b', '}']), (['b'], ['7'])]

/-- A width takes a depth and two rounds, and a text that includes a file that includes one takes a
depth of two, so both have their answers from a limit of 2 on. -/
theorem limit_changes_no_answer_two :
    let source := Source.ofEntries paddedNumbers
    let number : Text := ['$', '{', 'a', ':', '2', '}']
    let result := Substitution.Result.single ⟨['0', '7'], [(['a'], ['7'])]⟩
    let reader : DocumentReader := ⟨{}, {}, nestedFiles.read⟩
    let doc : Document := { root := { entries := [(['x'], .scalar ['1'])] } }
    substitute source (Services.withLimit {} 2) true number = .ok result
      ∧ substitute source (Services.withLimit {} 9) true number = .ok result
      ∧ ((reader.withLimit 2).readText [] .fold entryText).outcome = .ok doc
      ∧ ((reader.withLimit 9).readText [] .fold entryText).outcome = .ok doc := by
  intro source number result reader doc
  have hnumber : substitute source (Services.withLimit {} 2) true number = .ok result := rfl
  have hread : ((reader.withLimit 2).readText [] .fold entryText).outcome = .ok doc := rfl
  have hanswer : ¬ RunsOut (substitute source (Services.withLimit {} 2) true number) := by
    rw [hnumber]
    exact fun ⟨_, _, he⟩ => nomatch he
  refine ⟨hnumber, ?_, hread, ?_⟩
  · rw [limit_changes_no_answer.1 source {} true number 2 9 (by decide) hanswer]
    exact hnumber
  · rw [limit_changes_no_answer.2 reader [] .fold entryText doc 2 9 (by decide) hread]
    exact hread

end DocumentReader

end WorkflowControl
