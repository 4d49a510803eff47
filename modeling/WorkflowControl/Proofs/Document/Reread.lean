import WorkflowControl.Proofs.Document.ReadTree
import WorkflowControl.Proofs.Section.Same

/-!
How the text of any tree that was read is read again. Its lines begin as they were written, up to
the comments that are cut out of them (`begins_of_mem_ofText`), so the keys they say are parts of
the keys that were written. If the text is accepted and gives a tree that holds the same, the
entries of the tree are restricted one after the other: no key has a hash sign
(`Rereads.hashFree`), no value ends in a backslash (`Rereads.notContinued`), and none is empty
(`Rereads.filled`). The lines that are read are then the lines as they are spelled
(`texts_ofText_spelled`).
-/

namespace WorkflowControl

namespace TreeLine

open Line Text

/-- The first word of a written line. -/
def lead : TreeLine → Text
  | pair key _ => key
  | opening key => openTag key
  | closing key => closeTag key

/-- What holds of the lines of a tree that was read. -/
structure Sound (l : TreeLine) : Prop where
  word : IsWord l.key
  value : ∀ key value, l = pair key value → value.trim = value ∧ '\n' ∉ value

theorem Sound.isWord_lead {l : TreeLine} (h : l.Sound) : IsWord l.lead := by
  cases l with
  | pair key value => exact h.word
  | opening key => exact ⟨by simp [lead, openTag], blank_free_openTag h.word⟩
  | closing key => exact ⟨by simp [lead, closeTag], blank_free_closeTag h.word⟩

/-- What is left of a line when its end is trimmed. -/
theorem trim_spelled {l : TreeLine} (h : l.Sound) :
    (l.spelled.trim = l.lead ∧ l.lead.getLast? = some '>')
      ∨ l.spelled.trim = l.lead ++ [' ', '=']
      ∨ ∃ key value, l = pair key value ∧ value ≠ [] ∧ l.spelled.trim = pairText key value := by
  cases l with
  | pair key value =>
    right
    have hword : IsWord key := h.word
    obtain ⟨htrim, -⟩ := h.value key value rfl
    by_cases hvalue : value = []
    · left
      rw [hvalue]
      exact trim_pairText_nil hword
    · right
      exact ⟨key, value, rfl, hvalue, trim_pairText hword hvalue htrim⟩
  | opening key =>
    exact .inl ⟨trim_of_blank_free (blank_free_openTag h.word), getLast_openTag key⟩
  | closing key =>
    exact .inl ⟨trim_of_blank_free (blank_free_closeTag h.word), getLast_closeTag key⟩

theorem Sound.trim_spelled_ne_nil {l : TreeLine} (h : l.Sound) : l.spelled.trim ≠ [] := by
  rcases trim_spelled h with ⟨heq, -⟩ | heq | ⟨key, value, -, -, heq⟩
  · rw [heq]
    exact h.isWord_lead.1
  · rw [heq]
    simp
  · rw [heq]
    simp [pairText]

/-- A line that is continued is a pair whose value ends in a backslash. -/
theorem Sound.eq_pair_of_continued {l : TreeLine} (h : l.Sound)
    (hlast : l.spelled.trim.getLast? = some '\\') :
    ∃ key value, l = pair key value ∧ IsWord key ∧ value.getLast? = some '\\'
      ∧ l.spelled.trim = pairText key value := by
  rcases trim_spelled h with ⟨heq, hlead⟩ | heq | ⟨key, value, rfl, hvalue, heq⟩
  · rw [heq, hlead] at hlast
    cases hlast
  · rw [heq, List.getLast?_append] at hlast
    cases hlast
  · rw [heq, getLast_pairText key hvalue] at hlast
    exact ⟨key, value, rfl, h.word, hlast, heq⟩

/-- Escaping hash signs changes nothing else about a line. -/
theorem Sound.escaped {l : TreeLine} (h : l.Sound) : l.escaped.Sound := by
  cases l with
  | pair key value =>
    obtain ⟨htrim, hnewline⟩ := h.value key value rfl
    refine ⟨h.word, ?_⟩
    intro k v hsome
    cases hsome
    exact ⟨by rw [trim_escapeHash, htrim], by rwa [mem_escapeHash (by decide)]⟩
  | opening key => exact h
  | closing key => exact h

theorem lead_escaped (l : TreeLine) : l.escaped.lead = l.lead := by
  cases l <;> rfl

theorem Sound.trim_physical_ne_nil {l : Nat × TreeLine} (h : l.2.Sound) (indent : Nat) :
    (physical indent l).trim ≠ [] := by
  rw [trim_physical]
  exact h.escaped.trim_spelled_ne_nil

theorem Sound.newline_not_mem {l : Nat × TreeLine} (h : l.2.Sound) (indent : Nat) :
    '\n' ∉ physical indent l := by
  have hspelled : ∀ l : TreeLine, l.Sound → '\n' ∉ l.spelled := by
    intro l hsound
    have hkey : '\n' ∉ l.key := fun hmem => absurd (hsound.word.2 _ hmem) (by decide)
    cases l with
    | pair key value =>
      obtain ⟨-, hvalue⟩ := hsound.value key value rfl
      simpa [spelled, pairText, TreeLine.key] using ⟨hkey, hvalue⟩
    | opening key => simpa [spelled, openTag, TreeLine.key] using hkey
    | closing key => simpa [spelled, closeTag, TreeLine.key] using hkey
  rw [physical, List.mem_append, not_or]
  exact ⟨fun hmem => absurd (List.eq_of_mem_replicate hmem) (by decide),
    hspelled l.2.escaped h.escaped⟩

end TreeLine

namespace Line

open Text

/-- Cutting the comment out of a line leaves its first word without a comment, and what follows it
if the comment is not in that word. -/
theorem BeginsWith.withoutComment {word raw : Text} (hw : IsWord word) (h : BeginsWith word raw)
    (hne : (LogicalLine.withoutComment raw).trim ≠ []) :
    IsWord (LogicalLine.withoutComment word)
      ∧ BeginsWith (LogicalLine.withoutComment word) (LogicalLine.withoutComment raw) := by
  have hfree : ∀ c ∈ LogicalLine.withoutComment word, isBlank c = false :=
    fun c hc => hw.2 c (LogicalLine.withoutComment_subset word hc)
  have hwhole : LogicalLine.withoutComment raw = LogicalLine.withoutComment word →
      IsWord (LogicalLine.withoutComment word) := by
    intro heq
    refine ⟨fun hnil => hne ?_, hfree⟩
    rw [heq, hnil]
    rfl
  -- If the comment begins behind the word, the word is kept but for its escapes.
  have hpart : LogicalLine.withoutComment word = LogicalLine.unescapeHash word →
      IsWord (LogicalLine.withoutComment word) := by
    intro heq
    refine ⟨?_, hfree⟩
    rw [heq]
    exact LogicalLine.unescapeHash_ne_nil hw.1
  rcases h with rfl | rfl | ⟨rest, rfl⟩
  · exact ⟨hwhole rfl, .inl rfl⟩
  · rcases LogicalLine.withoutComment_append_blank word ['='] with hcut | ⟨hkept, hword⟩
    · exact ⟨hwhole hcut, .inl hcut⟩
    · exact ⟨hpart hword, .inr (.inl hkept)⟩
  · rcases LogicalLine.withoutComment_append_blank word ('=' :: ' ' :: rest) with
      hcut | ⟨hkept, hword⟩
    · exact ⟨hwhole hcut, .inl hcut⟩
    · refine ⟨hpart hword, .inr (.inr ⟨LogicalLine.withoutComment rest, ?_⟩)⟩
      rw [pairText, hkept, LogicalLine.withoutComment_cons (by decide) (by decide),
        LogicalLine.withoutComment_cons (by decide) (by decide)]
      rfl

end Line

namespace Section

open Line Text TreeLine

variable {s : Section} {own : Option Text}

theorem Follows.sound (h : s.Follows DocumentReader.asRead own) (level : Nat) :
    ∀ l ∈ s.lines level, l.2.Sound := by
  refine h.lines ?_ ?_ level
  · intro mode key value ⟨hword, _, htrim, hnewline, _⟩
    refine ⟨hword, ?_⟩
    intro k v hsome
    cases hsome
    exact ⟨htrim, hnewline⟩
  · intro own mode key childMode ⟨hword, _⟩
    exact ⟨⟨hword, fun k v heq => by cases heq⟩, ⟨hword, fun k v heq => by cases heq⟩⟩

/-- The physical lines of a printed tree. -/
theorem lines_print (h : s.Follows DocumentReader.asRead own) (indent : Nat) :
    (s.print false indent).lines = (s.lines 0).map (physical indent) := by
  rw [print_eq_unlines]
  refine lines_unlines fun t ht => ?_
  obtain ⟨l, hl, rfl⟩ := List.mem_map.mp ht
  exact (h.sound 0 l hl).newline_not_mem indent

/-- Every line that is read from a printed tree begins as a written one, without its comment. -/
theorem begins_of_mem_ofText (h : s.Follows DocumentReader.asRead own) {indent : Nat}
    {line : LogicalLine} (hline : line ∈ LogicalLine.ofText (s.print false indent)) :
    ∃ l ∈ s.lines 0, IsWord (LogicalLine.withoutComment l.2.lead)
      ∧ BeginsWith (LogicalLine.withoutComment l.2.lead) line.text := by
  obtain ⟨hmem, hblank⟩ := List.mem_filter.mp hline
  obtain ⟨raw, hraw, rfl⟩ := List.mem_map.mp hmem
  rw [lines_print h] at hraw
  have hnonblank : ∀ p ∈ (s.lines 0).map (physical indent), p.trim ≠ [] := by
    intro p hp
    obtain ⟨l, hl, rfl⟩ := List.mem_map.mp hp
    exact (h.sound 0 l hl).trim_physical_ne_nil indent
  -- A joined line begins with the first line that it is joined of, and that one with its lead.
  obtain ⟨p, hp, hform⟩ := LogicalLine.text_of_mem_join hnonblank hraw
  obtain ⟨l, hl, rfl⟩ := List.mem_map.mp hp
  have hsound := h.sound 0 l hl
  have hbegins : BeginsWith l.2.lead raw.text := by
    rw [trim_physical, written] at hform
    rw [← lead_escaped]
    rcases hform with ⟨-, htext⟩ | ⟨hcont, more, htext⟩
    · rw [htext]
      rcases trim_spelled hsound.escaped with ⟨heq, -⟩ | heq | ⟨key, value, hpair, -, heq⟩
      · exact .inl heq
      · exact .inr (.inl heq)
      · exact .inr (.inr ⟨value, by rw [heq, hpair, lead]⟩)
    · obtain ⟨key, value, hpair, -, hlast, heq⟩ := hsound.escaped.eq_pair_of_continued hcont
      have hvalue : value ≠ [] := by
        intro heq
        subst heq
        cases hlast
      refine .inr (.inr ⟨value.dropLast ++ more, ?_⟩)
      rw [← htext, heq, dropLast_pairText _ hvalue, pairText_append, hpair, lead]
  have hne : (LogicalLine.withoutComment raw.text).trim ≠ [] := by simpa using hblank
  obtain ⟨hword, hcut⟩ := hbegins.withoutComment hsound.isWord_lead hne
  exact ⟨l, hl, hword, hcut⟩

end Section

namespace DocumentReader

open Line Text Section

/-- Whether the text of a tree has no directive and is read as a document that has what the tree
has. -/
structure Rereads (reader : DocumentReader) (file : Text) (indent : Nat) (s : Section)
    (again : Document) : Prop where
  directive_free : ∀ l ∈ LogicalLine.ofText (s.print false indent), ¬ (classify l.text).IsDirective
  read : (reader.readText file .fold (s.print false indent)).outcome = .ok again
  same : s.same again.root = true

variable {reader : DocumentReader} {file : Text} {indent : Nat} {s : Section} {again : Document}

/-- What the lines of its text say about keys and values holds of a tree that is read again. -/
theorem Rereads.follows {rule : Rule} (hread : reader.Rereads file indent s again)
    (h : s.Follows asRead none)
    (hrule : ∀ l ∈ LogicalLine.ofText (s.print false indent), rule.Admits (classify l.text))
    (hscalar : ∀ mode mode' key value, rule.scalar mode key value → rule.scalar mode' key value)
    (hchild : ∀ own mode mode' key childMode childMode', rule.child own mode key childMode →
      rule.child own mode' key childMode') : s.Follows rule none :=
  h.of_same hread.same (readText_follows hread.directive_free hrule hread.read).1 hscalar hchild

/-! ## Hash signs in keys -/

/-- Keys with a hash sign have fewer backslashes than `bound`. -/
def hashBelow (bound : Nat) : Rule where
  scalar _ key _ := '#' ∈ key → key.count '\\' < bound
  child _ _ key _ := '#' ∈ key → key.count '\\' < bound

/-- No key has a hash sign. -/
def hashFree : Rule where
  scalar _ key _ := '#' ∉ key
  child _ _ key _ := '#' ∉ key

theorem count_lead (l : TreeLine) : l.lead.count '\\' = l.key.count '\\' := by
  cases l with
  | pair key value => rfl
  | opening key => simp [TreeLine.lead, TreeLine.key, openTag, List.count_append]
  | closing key => simp [TreeLine.lead, TreeLine.key, closeTag, List.count_append]

theorem hash_mem_lead {l : TreeLine} (h : '#' ∈ l.lead) : '#' ∈ l.key := by
  cases l with
  | pair key value => exact h
  | opening key => simpa [TreeLine.lead, TreeLine.key, openTag] using h
  | closing key => simpa [TreeLine.lead, TreeLine.key, closeTag] using h

theorem count_stored {sign : Char} (hsign : IsSign sign) (mode : KeyCase) (key : Text) :
    (mode.stored key).count sign = key.count sign := by
  cases mode with
  | fold => exact count_lower hsign key
  | preserve => rfl

theorem mem_stored_iff {sign : Char} (hsign : IsSign sign) (mode : KeyCase) {key : Text} :
    sign ∈ mode.stored key ↔ sign ∈ key := by
  rw [← List.count_pos_iff, count_stored hsign, List.count_pos_iff]

/-- A key with a hash sign that is cut out of a written one has lost a backslash. -/
theorem hashBelow_admits {bound : Nat} (h : s.Follows asRead none)
    (hbound : ∀ l ∈ s.lines 0, '#' ∈ l.2.key → l.2.key.count '\\' < bound + 1)
    {line : LogicalLine} (hline : line ∈ LogicalLine.ofText (s.print false indent)) :
    (hashBelow bound).Admits (classify line.text) := by
  obtain ⟨l, hl, hword, hbegins⟩ := begins_of_mem_ofText h hline
  obtain ⟨hpair, hopen⟩ := hbegins.keys hword
  -- A hash sign is read only where its backslash is taken away, so there is one backslash less.
  have hpart : ∀ part : Text, part <:+: LogicalLine.withoutComment l.2.lead → '#' ∈ part →
      part.count '\\' < bound := by
    intro part hinside hhash
    have hmem : '#' ∈ LogicalLine.withoutComment l.2.lead := hinside.subset hhash
    have hkey : '#' ∈ l.2.key := hash_mem_lead (LogicalLine.withoutComment_subset _ hmem)
    have hle := hinside.sublist.count_le '\\'
    have hlt := LogicalLine.count_withoutComment_lt hmem
    have hbelow := hbound l hl hkey
    rw [count_lead] at hlt
    omega
  constructor
  · intro key value hsaid mode hhash
    rw [mem_stored_iff (by decide)] at hhash
    rw [count_stored (by decide)]
    exact hpart key (hpair key value hsaid).isInfix hhash
  · intro key label hsaid name hname own mode hhash
    obtain ⟨rfl, word, hinside, rfl⟩ := hopen key label hsaid
    obtain rfl : name = word.lower := by
      rcases hname with hname | hname
      · exact hname
      · cases hname
    rw [mem_lower_iff (by decide), mem_lower_iff (by decide)] at hhash
    rw [count_lower (by decide), count_lower (by decide)]
    exact hpart word hinside hhash

/-- A tree whose text is read as the same tree has no hash sign in a key: of the keys with one, a
key with the most backslashes could not have come from any line. -/
theorem Rereads.hashFree (hread : reader.Rereads file indent s again)
    (h : s.Follows asRead none) : s.Follows hashFree none := by
  -- What is read is below each bound that what is written is below by one.
  have hlower : ∀ bound, s.Follows (hashBelow bound) none → s.Follows (hashBelow 0) none := by
    intro bound
    induction bound with
    | zero => exact id
    | succ bound ih =>
      intro hbelow
      have hlines : ∀ l ∈ s.lines 0, '#' ∈ l.2.key → l.2.key.count '\\' < bound + 1 :=
        hbelow.lines (P := fun l => '#' ∈ l.key → l.key.count '\\' < bound + 1)
          (fun _ _ _ hrule => hrule) (fun _ _ _ _ hrule => ⟨hrule, hrule⟩) 0
      exact ih (hread.follows h (fun l hl => hashBelow_admits h hlines hl)
        (fun _ _ _ _ hrule => hrule) (fun _ _ _ _ _ _ hrule => hrule))
  obtain ⟨bound, hbound⟩ : ∃ bound, ∀ l ∈ s.lines 0, l.2.key.count '\\' < bound := by
    induction s.lines 0 with
    | nil => exact ⟨0, by simp⟩
    | cons l ls ih =>
      obtain ⟨bound, hbound⟩ := ih
      refine ⟨max bound (l.2.key.count '\\' + 1), fun l' hl' => ?_⟩
      rcases List.mem_cons.mp hl' with rfl | hl'
      · omega
      · have := hbound l' hl'
        omega
  have hsome : s.Follows (hashBelow bound) none :=
    follows_of_lines (P := fun l => l.key.count '\\' < bound) h hbound
      (fun _ _ _ hlt _ => hlt) (fun _ _ _ _ hlt _ => hlt)
  exact (hlower bound hsome).mono (fun _ _ _ hrule hhash => absurd (hrule hhash) (by omega))
    (fun _ _ _ _ hrule hhash => absurd (hrule hhash) (by omega))

/-! ## Values that end in a backslash -/

/-- A line at its level of nesting before hash signs are escaped. -/
def plain (indent : Nat) (l : Nat × TreeLine) : Text :=
  List.replicate (indent * l.1) ' ' ++ l.2.spelled

theorem physical_eq_escapeHash {l : Nat × TreeLine} (h : '#' ∉ l.2.key) (indent : Nat) :
    TreeLine.physical indent l = (plain indent l).escapeHash := by
  have hmargin : '#' ∉ List.replicate (indent * l.1) ' ' :=
    fun hmem => absurd (List.eq_of_mem_replicate hmem) (by decide)
  rw [TreeLine.physical, plain, escapeHash_append, escapeHash_of_not_mem hmargin,
    TreeLine.written_eq_escapeHash h]

/-- Where no key has a hash sign, the lines that are read are the lines as they are spelled, joined
where they are continued. -/
theorem texts_ofText_print (h : s.Follows asRead none) (hfree : s.Follows DocumentReader.hashFree none)
    (indent : Nat) :
    (LogicalLine.ofText (s.print false indent)).map LogicalLine.text
      = ((LogicalLine.join 0 none ((s.lines 0).map (plain indent))).map LogicalLine.text).filter
          fun t => !t.trim.isEmpty := by
  have hkeys : ∀ l ∈ s.lines 0, '#' ∉ l.2.key :=
    hfree.lines (P := fun l => '#' ∉ l.key) (fun _ _ _ hrule => hrule)
      (fun _ _ _ _ hrule => ⟨hrule, hrule⟩) 0
  have hphysical : (s.lines 0).map (TreeLine.physical indent)
      = ((s.lines 0).map (plain indent)).map escapeHash := by
    rw [List.map_map]
    exact List.map_congr_left fun l hl => physical_eq_escapeHash (hkeys l hl) indent
  have hjoin := LogicalLine.join_map_escapeHash ((s.lines 0).map (plain indent)) 0 none
  rw [Option.map_none] at hjoin
  rw [LogicalLine.texts_ofText, lines_print h, hphysical, hjoin, List.map_map, List.map_map]
  refine congrArg (List.filter _) (List.map_congr_left fun l _ => ?_)
  exact LogicalLine.withoutComment_escapeHash l.text

theorem trim_plain (indent : Nat) (l : Nat × TreeLine) :
    (plain indent l).trim = l.2.spelled.trim :=
  trim_blanks_append (fun c hc => by rw [List.eq_of_mem_replicate hc]; rfl) _

/-- A line that ends in no blank ends like the value that it says. -/
theorem getLast_value {line key value : Text} (h : classify line = .pair key value)
    (hlast : ∀ c ∈ line.getLast?, isBlank c = false) (hne : value ≠ []) :
    value.getLast? = line.getLast? := by
  obtain ⟨-, -, ⟨lead, hlead⟩, -⟩ := classify_pair_form h
  have hlast' : line.trim.getLast? = line.getLast? := by
    have hline : line.trimStart ≠ [] := by
      intro hnil
      rw [trim, hnil] at hlead
      exact hne (List.append_eq_nil_iff.mp hlead).2
    obtain ⟨before, hbefore⟩ := trimStart_suffix line
    obtain ⟨init, c, hc⟩ := List.eq_nil_or_concat line.trimStart |>.resolve_left hline
    rw [List.concat_eq_append] at hc
    have hend : line.getLast? = some c := by
      rw [← hbefore, hc, ← List.append_assoc, List.getLast?_concat]
    have hkept : line.trimStart.trimEnd = line.trimStart := by
      refine trimEnd_of_last ?_
      rw [hc, List.getLast?_concat, ← hend]
      exact hlast
    rw [trim, hkept, hc, List.getLast?_concat, hend]
  rw [← hlast', ← hlead, List.getLast?_append]
  cases hv : value.getLast? with
  | none => exact absurd (List.getLast?_eq_none_iff.mp hv) hne
  | some c => rfl

/-- The last characters of a list of lines are alike from some line on. -/
theorem exists_append_of_last {α : Type} (p : α → Prop) [DecidablePred p] (ls : List α) :
    ∃ before behind, ls = before ++ behind ∧ (∀ x ∈ behind, p x)
      ∧ (before = [] ∨ ∃ init last, before = init ++ [last] ∧ ¬ p last) := by
  induction ls with
  | nil => exact ⟨[], [], rfl, by simp, .inl rfl⟩
  | cons x ls ih =>
    obtain ⟨before, behind, rfl, hbehind, hbefore⟩ := ih
    rcases hbefore with rfl | ⟨init, last, rfl, hlast⟩
    · by_cases hx : p x
      · refine ⟨[], x :: behind, rfl, fun y hy => ?_, .inl rfl⟩
        rcases List.mem_cons.mp hy with rfl | hy
        · exact hx
        · exact hbehind y hy
      · exact ⟨[x], behind, rfl, hbehind, .inr ⟨[], x, rfl, hx⟩⟩
    · exact ⟨x :: (init ++ [last]), behind, rfl, hbehind, .inr ⟨x :: init, last, rfl, hlast⟩⟩

/-- No value ends in a backslash. -/
def notContinued : Rule where
  scalar _ _ value := value.getLast? ≠ some '\\'
  child _ _ _ _ := True

/-- A value that ends in a backslash is `last`. -/
def continuedOnly (last : Text) : Rule where
  scalar _ _ value := value.getLast? = some '\\' → value = last
  child _ _ _ _ := True

theorem continuedOnly_admits {line last : Text} (hlast : ∀ c ∈ line.getLast?, isBlank c = false)
    (hnot : line.getLast? ≠ some '\\') : (continuedOnly last).Admits (classify line) := by
  refine ⟨fun key value hsaid mode hvalue => ?_, fun _ _ _ _ _ _ _ => trivial⟩
  have hne : value ≠ [] := by
    intro heq
    subst heq
    cases hvalue
  exact absurd ((getLast_value hsaid hlast hne).symm.trans hvalue) hnot

/-- A value whose last backslash is dropped, with nothing or a further pair in its place, is not the
value when trimmed. -/
theorem trim_ne_of_joined {value more : Text} (htrim : value.trim = value) (hne : value ≠ [])
    (hmore : more = [] ∨ ∃ key rest, IsWord key ∧ more = pairText key rest) :
    trim (value.dropLast ++ more) ≠ value := by
  intro heq
  have hlength : value.length = value.dropLast.length + 1 := by
    have hpos := List.length_pos_iff.mpr hne
    rw [List.length_dropLast]
    omega
  rcases hmore with rfl | ⟨key, rest, hkey, rfl⟩
  · have hle := (trim_infix_self (value.dropLast ++ [])).length_le
    rw [heq, List.append_nil] at hle
    omega
  · -- The `=` behind the key stays, so the trimmed text is longer.
    obtain ⟨k, ks, rfl⟩ := List.exists_cons_of_ne_nil hkey.1
    have hhead : ∀ c ∈ (value.dropLast ++ pairText (k :: ks) rest).head?, isBlank c = false := by
      intro c hc
      cases hv : value.dropLast with
      | nil =>
        rw [hv] at hc
        obtain rfl := Option.some.inj hc
        exact hkey.2 _ (by simp)
      | cons d ds =>
        rw [hv] at hc
        obtain rfl := Option.some.inj hc
        refine (trim_eq_self_iff.mp htrim).1 _ ?_
        obtain ⟨tail, htail⟩ := List.dropLast_prefix value
        rw [← htail, hv]
        rfl
    have hsplit : value.dropLast ++ pairText (k :: ks) rest
        = (value.dropLast ++ (k :: ks) ++ [' '] ++ ['=']) ++ ' ' :: rest := by
      simp [pairText]
    have hbefore : value.dropLast ++ (k :: ks) ++ [' '] ++ ['=']
        <+: trim (value.dropLast ++ pairText (k :: ks) rest) := by
      rw [trim_eq_trimEnd hhead, hsplit]
      refine prefix_trimEnd_append ?_ (' ' :: rest)
      rw [List.getLast?_concat]
      intro c hsome
      cases hsome
      rfl
    rw [heq] at hbefore
    have hle := hbefore.length_le
    simp only [List.length_append, List.length_cons] at hle
    omega

/-- What is joined of lines that are all continued begins with a pair, if it is not empty. -/
theorem flatMap_continued {ls : List (Nat × TreeLine)} (hsound : ∀ l ∈ ls, l.2.Sound)
    (hcont : ∀ t ∈ ls.map (plain indent), t.trim.getLast? = some '\\') :
    (ls.map (plain indent)).flatMap (fun t => t.trim.dropLast) = []
      ∨ ∃ key rest, IsWord key
          ∧ (ls.map (plain indent)).flatMap (fun t => t.trim.dropLast) = pairText key rest := by
  cases ls with
  | nil => exact .inl rfl
  | cons l ls =>
    have hend := hcont (plain indent l) (by simp)
    rw [trim_plain] at hend
    obtain ⟨key, value, -, hword, hlast, htrim⟩ := (hsound l (by simp)).eq_pair_of_continued hend
    have hne : value ≠ [] := by
      intro heq
      subst heq
      cases hlast
    refine .inr ⟨key, value.dropLast ++ (ls.map (plain indent)).flatMap (fun t => t.trim.dropLast),
      hword, ?_⟩
    rw [List.map_cons, List.flatMap_cons, trim_plain, htrim, dropLast_pairText key hne, pairText_append]

/-- What the joined lines of its text say about values that end in a backslash holds of a tree that is
read again. -/
theorem Rereads.follows_continuedOnly (hread : reader.Rereads file indent s again)
    (h : s.Follows asRead none) (hfree : s.Follows DocumentReader.hashFree none) {last : Text}
    (hjoin : ∀ l ∈ LogicalLine.join 0 none ((s.lines 0).map (plain indent)),
      (continuedOnly last).Admits (classify l.text)) : s.Follows (continuedOnly last) none := by
  refine hread.follows h (fun l hl => ?_) (fun _ _ _ _ hrule => hrule)
    (fun _ _ _ _ _ _ hrule => hrule)
  have hmem : l.text ∈ (LogicalLine.ofText (s.print false indent)).map LogicalLine.text :=
    List.mem_map_of_mem hl
  rw [texts_ofText_print h hfree indent] at hmem
  obtain ⟨joined, hjoined, heq⟩ := List.mem_map.mp (List.mem_filter.mp hmem).1
  rw [← heq]
  exact hjoin joined hjoined

/-- Whether the last of some lines is not continued, if there is one. -/
def Finished (ls : List Text) : Prop :=
  ls = [] ∨ ∃ init last, ls = init ++ [last] ∧ last.trim.getLast? ≠ some '\\'

/-- Lines of which the last is not continued say no value that ends in a backslash. -/
theorem Finished.admits {ls : List Text} (h : Finished ls) (hnonblank : ∀ t ∈ ls, t.trim ≠ [])
    (last : Text) :
    ∀ l ∈ LogicalLine.join 0 none ls, (continuedOnly last).Admits (classify l.text) := by
  intro l hl
  rcases h with rfl | ⟨init, final, rfl, hfinal⟩
  · cases hl
  · obtain ⟨hnot, p, hp, heq⟩ := LogicalLine.getLast_of_mem_join hfinal hnonblank hl
    refine continuedOnly_admits ?_ hnot
    rw [heq]
    exact last_trim p

/-- Lines of which the last is not continued are joined without the ones behind them. -/
theorem Finished.join_append {ls : List Text} (h : Finished ls)
    (hnonblank : ∀ t ∈ ls, t.trim ≠ []) (behind : List Text) :
    ∃ m, LogicalLine.join 0 none (ls ++ behind)
      = LogicalLine.join 0 none ls ++ LogicalLine.join m none behind := by
  rcases h with rfl | ⟨init, final, rfl, hfinal⟩
  · exact ⟨0, rfl⟩
  · have hne : final.trim ≠ [] := hnonblank final (by simp)
    obtain ⟨m, hm⟩ := LogicalLine.join_append init hfinal hne 0 none behind
    refine ⟨m, ?_⟩
    rw [← hm, List.append_assoc]
    rfl

/-- Lines that are all continued are one line, which says what they are joined to. -/
theorem texts_join_of_pair (indent : Nat) {l : Nat × TreeLine} {key value : Text}
    {behind : List Text} (htrim : l.2.spelled.trim = pairText key value)
    (hlast : value.getLast? = some '\\')
    (hbehind : ∀ t ∈ behind, t.trim.getLast? = some '\\') (m : Nat) :
    (LogicalLine.join m none (plain indent l :: behind)).map LogicalLine.text
      = [pairText key (value.dropLast ++ behind.flatMap fun t => t.trim.dropLast)] := by
  have hne : value ≠ [] := by
    intro hnil
    rw [hnil] at hlast
    cases hlast
  have hcont : ((none : Option Text).getD [] ++ (plain indent l).trim).getLast? = some '\\' := by
    rw [trim_plain, htrim, Option.getD_none, List.nil_append, getLast_pairText key hne]
    exact hlast
  rw [LogicalLine.join, if_pos hcont, LogicalLine.join_of_continued hbehind, Option.getD_none,
    List.nil_append, trim_plain, htrim, dropLast_pairText key hne, pairText_append]

/-- A tree whose text is read as the same tree has no value that ends in a backslash. Only the last
line that is read could say one, and that one is another value than it was written for. -/
theorem Rereads.notContinued (hread : reader.Rereads file indent s again)
    (h : s.Follows asRead none) (hfree : s.Follows DocumentReader.hashFree none) :
    s.Follows notContinued none := by
  have hsound := h.sound 0
  have hnonblank : ∀ t ∈ (s.lines 0).map (plain indent), t.trim ≠ [] := by
    intro t ht
    obtain ⟨l, hl, rfl⟩ := List.mem_map.mp ht
    rw [trim_plain]
    exact (hsound l hl).trim_spelled_ne_nil
  obtain ⟨before, behind, hsplit, hbehind, hfinished⟩ :=
    exists_append_of_last (fun t : Text => t.trim.getLast? = some '\\')
      ((s.lines 0).map (plain indent))
  have hfinished : Finished before := hfinished
  have hbefore : ∀ t ∈ before, t.trim ≠ [] :=
    fun t ht => hnonblank t (by rw [hsplit]; exact List.mem_append_left _ ht)
  cases behind with
  | nil =>
    -- Every line that is read is finished, so no value is left to end in a backslash.
    rw [List.append_nil] at hsplit
    have hnone : s.Follows (continuedOnly []) none := by
      refine hread.follows_continuedOnly h hfree ?_
      rw [hsplit]
      exact hfinished.admits hbefore []
    refine hnone.mono (fun _ _ value hrule hlast => ?_) (fun _ _ _ _ hrule => hrule)
    rw [hrule hlast] at hlast
    cases hlast
  | cons t behind =>
    obtain ⟨first, others, hlines, -, hothers⟩ := List.map_eq_append_iff.mp hsplit
    obtain ⟨l, rest, rfl, rfl, rfl⟩ := List.map_eq_cons_iff.mp hothers
    have hl : l ∈ s.lines 0 := by simp [hlines]
    have hend := hbehind (plain indent l) List.mem_cons_self
    rw [trim_plain] at hend
    obtain ⟨key, value, heq, hword, hlast, htrim⟩ := (hsound l hl).eq_pair_of_continued hend
    have hrest : ∀ t ∈ rest.map (plain indent), t.trim.getLast? = some '\\' :=
      fun t ht => hbehind t (List.mem_cons_of_mem _ ht)
    have hne : value ≠ [] := by
      intro hnil
      rw [hnil] at hlast
      cases hlast
    -- The lines from this one on are one line, and only that one can say such a value.
    obtain ⟨m, hjoin⟩ := hfinished.join_append hbefore (plain indent l :: rest.map (plain indent))
    have hjoined := texts_join_of_pair indent htrim hlast hrest m
    generalize hmore : (rest.map (plain indent)).flatMap (fun t => t.trim.dropLast) = more at hjoined
    have hall : s.Follows (continuedOnly (trim (value.dropLast ++ more))) none := by
      refine hread.follows_continuedOnly h hfree fun joined hin => ?_
      rw [hsplit, hjoin] at hin
      rcases List.mem_append.mp hin with hin | hin
      · exact hfinished.admits hbefore _ joined hin
      · have htext := List.mem_map_of_mem (f := LogicalLine.text) hin
        rw [hjoined] at htext
        rw [List.mem_singleton.mp htext]
        refine ⟨fun k v hsaid mode _ => ?_, fun _ _ _ _ _ _ _ => trivial⟩
        obtain ⟨-, -, -, -, hpair⟩ := classify_pair_inv hsaid
        rw [equalsPair?_pairText hword, Option.some_or] at hpair
        exact (Prod.mk.inj (Option.some.inj hpair)).2.symm
    have hvalue : ∀ l ∈ s.lines 0, ∀ k v, l.2 = .pair k v → v.getLast? = some '\\' →
        v = trim (value.dropLast ++ more) :=
      hall.pair_lines (fun _ _ _ hrule => hrule) 0
    obtain ⟨htrimmed, -⟩ := (hsound l hl).value key value heq
    refine absurd (hvalue l hl key value heq hlast).symm (trim_ne_of_joined htrimmed hne ?_)
    rw [← hmore]
    exact flatMap_continued (fun l' hl' => hsound l' (by simp [hlines, hl'])) hrest

/-! ## Empty values -/

/-- No value is empty. -/
def filled : Rule where
  scalar _ _ value := value ≠ []
  child _ _ _ _ := True

/-- Where no line is continued, the lines that are read are the spelled ones, trimmed. -/
theorem texts_ofText_trimmed (h : s.Follows asRead none)
    (hfree : s.Follows DocumentReader.hashFree none)
    (hended : s.Follows DocumentReader.notContinued none) (indent : Nat) :
    (LogicalLine.ofText (s.print false indent)).map LogicalLine.text
      = (s.lines 0).map fun l => l.2.spelled.trim := by
  have hvalues : ∀ l ∈ s.lines 0, ∀ key value, l.2 = .pair key value →
      value.getLast? ≠ some '\\' :=
    hended.pair_lines (fun _ _ _ hrule => hrule) 0
  have hlast : ∀ t ∈ (s.lines 0).map (plain indent), t.trim.getLast? ≠ some '\\' := by
    intro t ht hcont
    obtain ⟨l, hl, rfl⟩ := List.mem_map.mp ht
    rw [trim_plain] at hcont
    obtain ⟨key, value, hpair, -, hend, -⟩ := (h.sound 0 l hl).eq_pair_of_continued hcont
    exact hvalues l hl key value hpair hend
  rw [texts_ofText_print h hfree, LogicalLine.texts_join _ 0 hlast, List.map_map]
  have hmap : (s.lines 0).map (trim ∘ plain indent)
      = (s.lines 0).map fun l => l.2.spelled.trim :=
    List.map_congr_left fun l _ => trim_plain indent l
  rw [hmap]
  refine List.filter_eq_self.mpr fun t ht => ?_
  obtain ⟨l, hl, rfl⟩ := List.mem_map.mp ht
  rw [trim_trim]
  simpa using (h.sound 0 l hl).trim_spelled_ne_nil

/-- A tree whose text is read as the same tree has no empty value: a trimmed line says none. -/
theorem Rereads.filled (hread : reader.Rereads file indent s again) (h : s.Follows asRead none)
    (hfree : s.Follows DocumentReader.hashFree none)
    (hended : s.Follows DocumentReader.notContinued none) :
    s.Follows DocumentReader.filled none := by
  refine hread.follows h (fun l hl => ?_) (fun _ _ _ _ hrule => hrule)
    (fun _ _ _ _ _ _ hrule => hrule)
  have hmem : l.text ∈ (LogicalLine.ofText (s.print false indent)).map LogicalLine.text :=
    List.mem_map_of_mem hl
  rw [texts_ofText_trimmed h hfree hended] at hmem
  obtain ⟨written, -, htext⟩ := List.mem_map.mp hmem
  refine ⟨fun key value hsaid mode => ?_, fun _ _ _ _ _ _ _ => trivial⟩
  refine value_ne_nil_of_classify hsaid ?_
  rw [← htext]
  exact last_trim written.2.spelled

/-- Where no value is empty either, the lines that are read are the spelled ones. -/
theorem texts_ofText_spelled (h : s.Follows asRead none)
    (hfree : s.Follows DocumentReader.hashFree none)
    (hended : s.Follows DocumentReader.notContinued none)
    (hfilled : s.Follows DocumentReader.filled none) (indent : Nat) :
    (LogicalLine.ofText (s.print false indent)).map LogicalLine.text
      = (s.lines 0).map fun l => l.2.spelled := by
  rw [texts_ofText_trimmed h hfree hended]
  have hvalues : ∀ l ∈ s.lines 0, ∀ key value, l.2 = .pair key value → value ≠ [] :=
    hfilled.pair_lines (fun _ _ _ hrule => hrule) 0
  refine List.map_congr_left fun l hl => ?_
  have hsound := h.sound 0 l hl
  have hvalue := hvalues l hl
  obtain ⟨level, line⟩ := l
  cases line with
  | pair key value =>
    obtain ⟨htrim, -⟩ := hsound.value key value rfl
    exact trim_pairText hsound.word (hvalue key value rfl) htrim
  | opening key => exact trim_of_blank_free (blank_free_openTag hsound.word)
  | closing key => exact trim_of_blank_free (blank_free_closeTag hsound.word)

end DocumentReader

end WorkflowControl
