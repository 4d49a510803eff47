import Mathlib.Data.List.Forall2
import WorkflowControl.Proofs.Document.Reading
import WorkflowControl.Proofs.LineBlanks

/-!
Comments in a text. A comment behind a line ends with it, and of what stands in front of the comment
nothing is lost but blanks are left (`withoutComment_commented`): the line is trimmed before its
comment is taken off. So the logical lines of the two texts are the same apart from blanks at the end
of one of them (`forall₂_ofText_commented`), and where these do not make a pair of their line, the
texts are read in the same way (`readText_commented`).

Two kinds of lines are left out. One is a blank line behind a line that ends in two backslashes: the
line that they make ends in a backslash still, which joins the next line to it, and with a comment
there it escapes the hash sign instead. The other is a line that the blanks complete: `a =` says
nothing, and `a = ` with a comment behind it gives `a` an empty value.
-/

namespace WorkflowControl

open Text

namespace LogicalLine

/-! ## The line in front of a comment -/

/-- The line that a physical line ends, with what the ones before it leave to it. -/
def joined (before : List Text) (physical : Text) : Text :=
  (pendingAfter none before).getD [] ++ physical.trim

/-- The logical lines without their comments, apart from blank ones. -/
def uncommented (ls : List LogicalLine) : List LogicalLine :=
  (ls.map fun l => { l with text := withoutComment l.text }).filter fun l => !l.text.trim.isEmpty

theorem ofText_eq_uncommented (t : Text) : ofText t = uncommented (join 0 none t.lines) := rfl

theorem uncommented_append (ls more : List LogicalLine) :
    uncommented (ls ++ more) = uncommented ls ++ uncommented more := by
  rw [uncommented, List.map_append, List.filter_append]
  rfl

theorem uncommented_singleton (n : Nat) (t : Text) :
    uncommented [⟨n, t⟩]
      = if (withoutComment t).trim.isEmpty then [] else [⟨n, withoutComment t⟩] := by
  by_cases hblank : (withoutComment t).trim.isEmpty = true
  · simp [uncommented, hblank]
  · simp [uncommented, hblank]

/-- The line that follows some physical lines ends there unless it ends in a backslash. -/
theorem exists_join_joined (before : List Text) : ∃ (ended : List LogicalLine) (n : Nat),
    ∀ (physical : Text) (after : List Text), (joined before physical).getLast? ≠ some '\\' →
      join 0 none (before ++ physical :: after)
        = ended ++ ⟨n, joined before physical⟩ :: join n none after := by
  obtain ⟨ended, hended⟩ := exists_join_append before 0 none
  refine ⟨ended, 0 + before.length + 1, fun physical after hlast => ?_⟩
  unfold joined at hlast ⊢
  rw [hended, join]
  simp only [if_neg hlast]

theorem trimEnd_hash_cons (comment : Text) :
    trimEnd ('#' :: comment) = '#' :: trimEnd comment := by
  by_cases hblank : trimEnd comment = []
  · rw [hblank]
    exact trimEnd_append_of_blank hblank ['#']
  · exact trimEnd_append_of_ne_nil hblank ['#']

/-- The blanks in front of a comment stay when its line is trimmed, unless nothing else is there. -/
theorem exists_joined_commented {line blanks : Text} (hblanks : ∀ c ∈ blanks, isBlank c = true)
    (before : List Text) (comment : Text) :
    ∃ between : Text, (∀ c ∈ between, isBlank c = true) ∧ (line.trim = [] → between = [])
      ∧ joined before (line ++ (blanks ++ '#' :: comment))
        = joined before line ++ (between ++ '#' :: comment.trimEnd) := by
  have hend : ∀ lead : Text, (lead ++ '#' :: comment).trimEnd = lead ++ '#' :: comment.trimEnd := by
    intro lead
    rw [trimEnd_append_of_ne_nil (by simp [trimEnd_hash_cons]), trimEnd_hash_cons]
  unfold joined
  by_cases hline : line.trim = []
  · refine ⟨[], by simp, fun _ => rfl, ?_⟩
    have hall : ∀ c ∈ line ++ blanks, isBlank c = true := by
      intro c hc
      rcases List.mem_append.mp hc with hc | hc
      · exact trim_eq_nil_iff.mp hline c hc
      · exact hblanks c hc
    have htrim : (line ++ (blanks ++ '#' :: comment)).trim = '#' :: comment.trimEnd := by
      rw [← List.append_assoc, trim_blanks_append hall, trim_eq_trimEnd (by rintro c ⟨⟩; rfl)]
      exact hend []
    rw [htrim, hline]
    simp
  · obtain ⟨b, hstart, hb⟩ := eq_trimEnd_blanks line.trimStart
    have hne : line.trimStart ≠ [] := fun hnil => hline (by rw [trim, hnil]; rfl)
    refine ⟨b ++ blanks, ?_, fun hnil => absurd hnil hline, ?_⟩
    · intro c hc
      rcases List.mem_append.mp hc with hc | hc
      · exact hb c hc
      · exact hblanks c hc
    · have htrim : (line ++ (blanks ++ '#' :: comment)).trim
          = line.trim ++ (b ++ (blanks ++ '#' :: comment.trimEnd)) := by
        rw [trim, trimStart_append_of_ne_nil hne, ← List.append_assoc, hend]
        conv => lhs; rw [hstart]
        simp [trim]
      rw [htrim]
      simp

/-- Without its comment a line is the line in front of it, with blanks that the comment had between
them. -/
theorem withoutComment_commented {t between : Text} (hlast : t.getLast? ≠ some '\\')
    (hbetween : ∀ c ∈ between, isBlank c = true) (comment : Text) :
    withoutComment (t ++ (between ++ '#' :: comment)) = withoutComment t
      ∨ withoutComment (t ++ (between ++ '#' :: comment)) = withoutComment t ++ between
        ∧ withoutComment t = unescapeHash t := by
  have hhash : '#' ∉ between := not_mem_of_blank hbetween (by decide)
  have hescape : between.getLast? ≠ some '\\' :=
    fun h => not_mem_of_blank hbetween (by decide) (List.mem_of_getLast? h)
  have hhead : between.head? ≠ some '#' := fun h => hhash (List.mem_of_mem_head? h)
  rcases cutComment_append false t (between ++ '#' :: comment) with hcut | ⟨hwhole, ht⟩
  · exact .inl (by rw [withoutComment, hcut, withoutComment])
  · rw [escapedAfter_eq_false hlast fun _ => rfl, cutComment_append_hash hhash hescape] at hwhole
    refine .inr ⟨?_, by rw [withoutComment, ht]⟩
    rw [withoutComment, hwhole, unescapeHash_append t hhead, unescapeHash_of_not_mem hhash,
      withoutComment, ht]

/-- Whether two logical lines say the same, and are the same apart from blanks at their ends. -/
structure SameLine (l l' : LogicalLine) : Prop where
  number : l.number = l'.number
  meaning : Line.classify l.text = Line.classify l'.text
  text : l.text.trimEnd = l'.text.trimEnd

theorem SameLine.refl (l : LogicalLine) : SameLine l l := ⟨rfl, rfl, rfl⟩

/-- A comment behind a physical line, with blanks in front of it. Neither the comment nor the line that
ends there ends in a backslash, and what is left when the comment is taken off does not make a pair of
its line. -/
structure IsComment (before : List Text) (line blanks comment : Text) : Prop where
  blank : ∀ c ∈ blanks, isBlank c = true
  last : comment.trim.getLast? ≠ some '\\'
  ended : (joined before line).getLast? ≠ some '\\'
  incomplete : ∀ filling, withoutComment (joined before (line ++ (blanks ++ '#' :: comment)))
    = withoutComment (joined before line) ++ filling →
      ¬ Line.Completes (withoutComment (joined before line)) filling

namespace IsComment

variable {before : List Text} {line blanks comment : Text}
  (h : IsComment before line blanks comment)

include h

/-- The line ends with its comment. -/
theorem ended_commented :
    (joined before (line ++ (blanks ++ '#' :: comment))).getLast? ≠ some '\\' := by
  obtain ⟨between, -, -, hjoined⟩ := exists_joined_commented h.blank before comment
  have hlast := h.last
  rw [getLast?_trim] at hlast
  rw [hjoined, ← List.append_assoc, List.getLast?_append, List.getLast?_cons]
  cases hc : comment.trimEnd.getLast? with
  | none => simp
  | some c =>
    rw [hc] at hlast
    simpa using hlast

/-- Behind the line there are blanks at most, and only if it ends in a sign. -/
theorem exists_filling : ∃ filling : Text, (∀ c ∈ filling, isBlank c = true)
    ∧ withoutComment (joined before (line ++ (blanks ++ '#' :: comment)))
      = withoutComment (joined before line) ++ filling
    ∧ (filling = [] ∨ ∃ c, (withoutComment (joined before line)).getLast? = some c
      ∧ isBlank c = false) := by
  obtain ⟨between, hbetween, hempty, hjoined⟩ := exists_joined_commented h.blank before comment
  rcases withoutComment_commented h.ended hbetween comment.trimEnd with hsame | ⟨hmore, hwhole⟩
  · exact ⟨[], by simp, by rw [hjoined, hsame, List.append_nil], .inl rfl⟩
  · refine ⟨between, hbetween, by rw [hjoined, hmore], ?_⟩
    by_cases hline : line.trim = []
    · exact .inl (hempty hline)
    · refine .inr ⟨line.trim.getLast hline, ?_, last_trim line _ (List.getLast?_eq_some_getLast hline)⟩
      rw [hwhole, getLast?_unescapeHash, joined, List.getLast?_append_of_ne_nil _ hline,
        List.getLast?_eq_some_getLast hline]

/-- What is left of the line says the same with the comment and without it. -/
theorem forall₂_uncommented (n : Nat) : List.Forall₂ SameLine
    (uncommented [⟨n, joined before (line ++ (blanks ++ '#' :: comment))⟩])
    (uncommented [⟨n, joined before line⟩]) := by
  obtain ⟨filling, hblank, hfilling, hlast⟩ := h.exists_filling
  rw [uncommented_singleton, uncommented_singleton, hfilling, trim_append_blanks hblank]
  split
  · exact .nil
  · refine .cons ⟨rfl, ?_, trimEnd_append_blanks hblank _⟩ .nil
    rcases hlast with rfl | ⟨c, hlast, hc⟩
    · exact congrArg Line.classify (List.append_nil _)
    · exact (Line.classify_append_blanks_iff hblank hlast hc).mpr (h.incomplete filling hfilling)

/-- The logical lines of a text are the same with a comment behind one of its lines. -/
theorem forall₂_ofText {ending text commented : Text} {after : List Text}
    (hending : ∀ c ∈ ending, isBlank c = true)
    (htext : text.lines = before ++ (line ++ ending) :: after)
    (hcommented : commented.lines
      = before ++ (line ++ (blanks ++ '#' :: (comment ++ ending))) :: after) :
    List.Forall₂ SameLine (ofText commented) (ofText text) := by
  have hjoined : ∀ physical, joined before (physical ++ ending) = joined before physical :=
    fun physical => by rw [joined, trim_append_blanks hending, joined]
  have hsplit : line ++ (blanks ++ '#' :: (comment ++ ending))
      = line ++ (blanks ++ '#' :: comment) ++ ending := by simp
  obtain ⟨ended, n, hjoin⟩ := exists_join_joined before
  have hplain := hjoin (line ++ ending) after (by rw [hjoined]; exact h.ended)
  have hcomment := hjoin (line ++ (blanks ++ '#' :: comment) ++ ending) after
    (by rw [hjoined]; exact h.ended_commented)
  rw [hjoined] at hplain hcomment
  have hsame : ∀ ls, List.Forall₂ SameLine (uncommented ls) (uncommented ls) :=
    fun ls => List.forall₂_same.mpr fun l _ => SameLine.refl l
  have hcons : ∀ l, uncommented (ended ++ l :: join n none after)
      = uncommented ended ++ (uncommented [l] ++ uncommented (join n none after)) := by
    intro l
    rw [uncommented_append, ← List.singleton_append, uncommented_append]
  rw [ofText_eq_uncommented, ofText_eq_uncommented, htext, hcommented, hsplit, hplain, hcomment,
    hcons, hcons]
  exact List.rel_append (hsame _) (List.rel_append (h.forall₂_uncommented n) (hsame _))

end IsComment

end LogicalLine

/-! ## Readings that agree -/

/-- The warning without blanks at the end of the line that it quotes. -/
def Warning.trimmed : Warning → Warning
  | unmatchedLine file line text => unmatchedLine file line text.trimEnd
  | missingArgument file line function argument => missingArgument file line function argument

namespace Reading

variable {α β : Type}

/-- Whether two readings have one outcome, and the same warnings apart from blanks at the ends of the
lines that they quote. -/
structure Agrees (r r' : Reading α) : Prop where
  outcome : r.outcome = r'.outcome
  warnings : r.warnings.map Warning.trimmed = r'.warnings.map Warning.trimmed

theorem Agrees.refl (r : Reading α) : r.Agrees r := ⟨rfl, rfl⟩

theorem Agrees.andThen {r r' : Reading α} {next next' : α → Reading β} (h : r.Agrees r')
    (hnext : ∀ a, (next a).Agrees (next' a)) : (r.andThen next).Agrees (r'.andThen next') := by
  obtain ⟨warnings, outcome⟩ := r
  obtain ⟨warnings', outcome'⟩ := r'
  obtain ⟨houtcome, hwarnings⟩ := h
  obtain rfl : outcome = outcome' := houtcome
  cases outcome with
  | error e => exact ⟨rfl, hwarnings⟩
  | ok a =>
    refine ⟨(hnext a).outcome, ?_⟩
    simp only [Reading.andThen, List.map_append, (hnext a).warnings]
    exact congrArg (· ++ _) hwarnings

end Reading

/-! ## Reading the lines -/

namespace DocumentReader

open Reading LogicalLine

variable {reader : DocumentReader}

/-- A line enters the reading by what it says, and by its text only where it is reported. -/
theorem readLine_agrees {l l' : LogicalLine} (h : SameLine l l') (nested : Option TreeReader)
    (file : Text) (st : ReadState) :
    (reader.readLine nested file l st).Agrees (reader.readLine nested file l' st) := by
  unfold readLine
  rw [h.number, h.meaning]
  cases Line.classify l'.text with
  | unmatched =>
    refine ⟨rfl, ?_⟩
    show [Warning.unmatchedLine file l'.number l.text.trimEnd]
      = [Warning.unmatchedLine file l'.number l'.text.trimEnd]
    rw [h.text]
  | _ => exact Agrees.refl _

theorem readLines_agrees {ls ls' : List LogicalLine} (h : List.Forall₂ SameLine ls ls')
    (nested : Option TreeReader) (file : Text) (st : ReadState) :
    (reader.readLines nested file ls st).Agrees (reader.readLines nested file ls' st) := by
  induction h generalizing st with
  | nil => exact Agrees.refl _
  | cons hline _ ih =>
    rw [readLines_cons, readLines_cons]
    exact (readLine_agrees hline nested file st).andThen ih

theorem readText_agrees (reader : DocumentReader) {text text' : Text}
    (h : List.Forall₂ SameLine (LogicalLine.ofText text) (LogicalLine.ofText text')) (file : Text)
    (mode : KeyCase) : (reader.readText file mode text).Agrees (reader.readText file mode text') := by
  have hwhole : ∀ nested, (reader.readWhole nested file mode text).Agrees
      (reader.readWhole nested file mode text') := fun nested =>
    (readLines_agrees h nested file _).andThen fun st => Agrees.refl _
  have hwithin : ∀ depth, (reader.readWithin depth file mode text).Agrees
      (reader.readWithin depth file mode text') := by
    intro depth
    cases depth with
    | zero => exact hwhole none
    | succ depth => exact hwhole (some (reader.readWithin depth))
  exact (hwithin _).andThen fun root => Agrees.refl _

/-- A comment behind a line changes neither what a text is read as nor, apart from blanks at the ends
of the lines that are quoted, what is reported about it. -/
theorem readText_commented {before after : List Text} {line blanks comment ending text commented : Text}
    (h : IsComment before line blanks comment) (hending : ∀ c ∈ ending, isBlank c = true)
    (htext : text.lines = before ++ (line ++ ending) :: after)
    (hcommented : commented.lines
      = before ++ (line ++ (blanks ++ '#' :: (comment ++ ending))) :: after)
    (reader : DocumentReader) (file : Text) (mode : KeyCase) :
    (reader.readText file mode commented).outcome = (reader.readText file mode text).outcome
      ∧ (reader.readText file mode commented).warnings.map Warning.trimmed
        = (reader.readText file mode text).warnings.map Warning.trimmed := by
  have hagrees := readText_agrees reader (h.forall₂_ofText hending htext hcommented) file mode
  exact ⟨hagrees.outcome, hagrees.warnings⟩

/-- A word in two parts, in lines behind a section. -/
def brokenWord : Text := "<a>\nx = 1\n</a>\nlo\\\nne\n".toList

/-- The same with a comment behind the second part. -/
def brokenWordCommented : Text := "<a>\nx = 1\n</a>\nlo\\\nne # two\n".toList

/-- The word is reported with the blank in front of the comment. -/
theorem readText_brokenWordCommented :
    let reader : DocumentReader := ⟨{}, {}, fun _ => .error .notFound⟩
    let read := reader.readText [] .fold brokenWordCommented
    read.outcome = .ok { root := { entries := [(['a'], .subsection .fold [(['x'], .scalar ['1'])])] } }
      ∧ read.warnings = [.unmatchedLine [] 5 "lone ".toList]
      ∧ read.warnings.map Warning.trimmed = [.unmatchedLine [] 5 "lone".toList] := by
  intro reader read
  have hcomment : IsComment ["<a>".toList, "x = 1".toList, "</a>".toList, "lo\\".toList] "ne".toList
      [' '] " two".toList := by
    refine ⟨by decide, by decide, by decide, fun filling hfilling => ?_⟩
    have hone : [' '] = filling := List.append_cancel_left (show "lone".toList ++ _ = _ from hfilling)
    rintro (⟨-, -, ⟨key, between, hline, -⟩, -⟩ | ⟨-, -, hlength⟩)
    · have hlast := congrArg List.getLast? hline
      rw [← List.append_assoc, List.getLast?_concat] at hlast
      exact absurd hlast (by decide)
    · rw [← hone] at hlength
      exact absurd hlength (by decide)
  have htext : brokenWord.lines
      = ["<a>".toList, "x = 1".toList, "</a>".toList, "lo\\".toList] ++ ("ne".toList ++ []) :: [] := by
    decide
  have hcommented : brokenWordCommented.lines
      = ["<a>".toList, "x = 1".toList, "</a>".toList, "lo\\".toList]
        ++ ("ne".toList ++ ([' '] ++ '#' :: (" two".toList ++ []))) :: [] := by
    decide
  obtain ⟨houtcome, hwarnings⟩ :=
    readText_commented hcomment (by simp) htext hcommented reader [] .fold
  exact ⟨houtcome, rfl, hwarnings⟩

/-- A comment in a blank line that an escaped backslash is joined to, and one behind a pair that its
value is missing in: the outcome is another one with the comment. -/
theorem not_readText_commented :
    let reader : DocumentReader := ⟨{}, {}, fun _ => .error .notFound⟩
    let read : Text → Except Error Document := fun text => (reader.readText [] .fold text).outcome
    let escaped : Text := "x = a\\\\".toList
    let next : Text := "y = 1".toList
    let comment : Text := " c".toList
    let equals : Text := "a =".toList
    comment.trim.getLast? ≠ some '\\'
      ∧ (equals.trim.getLast? ≠ some '\\' ∧ '#' ∉ equals)
      ∧ read (Text.unlines [escaped, [], next])
        = .ok { root := { entries := [(['x'], .scalar "ay = 1".toList)] } }
      ∧ read (Text.unlines [escaped, '#' :: comment, next])
        = .ok { root := { entries := [(['x'], .scalar "a# c".toList), (['y'], .scalar ['1'])] } }
      ∧ read (Text.unlines [equals]) = .ok { root := { entries := [] } }
      ∧ read (Text.unlines [equals ++ ' ' :: '#' :: comment])
        = .ok { root := { entries := [(['a'], .scalar [])] } } := by
  intro reader read escaped next comment equals
  exact ⟨by decide, by decide, rfl, rfl, rfl, rfl⟩

end DocumentReader

end WorkflowControl
