import WorkflowControl.Proofs.ItemList.Ranges
import WorkflowControl.Proofs.Substitution.Headers
import WorkflowControl.Proofs.Substitution.Settled

/-!
Substitution without headers. Every key is refused, so a header token that asks for one is an error
when it is replaced. Two kinds of header token are not reported. One that asks for no key is replaced
by nothing, as there is no key to be refused. And one that closes up after the last sweep over
headers is left in the result: where an optional variable was taken out in the last round, or where a
marker was filled. The substitution reports all header tokens if neither happens
(`headersReported_iff`), as in a text without nested tokens whose header tokens ask for keys.
-/

namespace WorkflowControl

open Outcome Text Token

namespace HeaderSource

/-- The source that refuses every request, also one that asks for no key. -/
def refusing : HeaderSource where
  value _ key := .error (.noHeaders key)
  values _ _ := .error (.noHeaders [])

theorem extends_refusing (headers : HeaderSource) : headers.Extends refusing :=
  fun _ _ _ h => nomatch h

theorem values_none {path : Text} {keys values : List Text}
    (h : HeaderSource.none.values path keys = .ok values) : keys = [] ∧ values = [] := by
  cases keys with
  | nil => exact ⟨rfl, (Except.ok.inj h).symm⟩
  | cons key keys => cases h

/-- Without headers nothing but a request for no key is answered, and that with nothing. -/
theorem extends_none {headers : HeaderSource} (h : ∀ path, headers.values path [] = .ok []) :
    headers.Extends .none := by
  intro path keys values hvalues
  obtain ⟨rfl, rfl⟩ := values_none hvalues
  exact h path

end HeaderSource

namespace Substitution

/-- Whether no header token is replaced on the way to a result. A source of headers that refuses what
such a token asks for would make a difference to it. -/
def ReadsNoHeader (source : Source) (services : Services) (expand : Bool) (text : Text)
    (result : Result) : Prop :=
  ∀ headers, substitute source (services.withHeaders headers) expand text = .ok result

/-- Whether no token is nested in another one, and every header token asks for a key, or for a width.
-/
def Keyed (t : Text) : Prop :=
  MadeOf (fun kind content => kind = .header → ',' ∈ content ∨ ':' ∈ content) t

theorem Keyed.flat {t : Text} (h : Keyed t) : Flat t := MadeOf.mono h fun _ _ _ => trivial

namespace Context

variable {ctx : Context} {kind : TokenKind} {required : Bool} {content : Text}

section

variable (hheaders : ctx.services.headers = .none)
include hheaders

/-- The value of a header token is empty, as it asks for no key. -/
theorem resolve_header_eq_ok {name value : Text}
    (h : ctx.resolve .header name = .ok (some value)) :
    (ItemList.split name ',').tail = [] ∧ value = [] := by
  obtain ⟨found, hfound, heq⟩ := map_eq_ok_iff.mp h
  obtain rfl := Option.some.inj heq
  obtain ⟨values, hvalues, rfl⟩ := map_eq_ok_iff.mp hfound
  rw [hheaders, HeaderSource.read] at hvalues
  cases hread : HeaderSource.none.values ((ItemList.split name ',').head?.getD [])
      (ItemList.split name ',').tail with
  | error fault =>
    rw [hread] at hvalues
    cases hvalues
  | ok answered =>
    rw [hread] at hvalues
    obtain rfl := Except.ok.inj hvalues
    obtain ⟨hkeys, rfl⟩ := HeaderSource.values_none hread
    exact ⟨hkeys, rfl⟩

/-- A header token that asks for a key or a width cannot be replaced. -/
theorem replaceToken_header_ne_ok (hsettle : ctx.settle [] = .ok [])
    (hkeyed : ',' ∈ content ∨ ':' ∈ content) (s s' : Progress) :
    ctx.replaceToken .header required content s ≠ .ok s' := by
  intro hok
  rcases replaceToken_eq_ok hok with ⟨value, put, keep, hvalue, hput, -⟩ | ⟨hnone, -, -⟩
  · obtain ⟨hkeys, rfl⟩ := resolve_header_eq_ok hheaders hvalue
    rcases replacement_eq_ok hput with ⟨hdefers, -, -⟩ | ⟨-, hplain | hpadded⟩
    · rcases isVariable_of_defers hdefers with hkind | hkind
      · cases hkind
      · cases hkind
    · have hcolon : ':' ∉ content := not_mem_of_width_eq_none hplain.1
      rw [nameAndWidth_of_not_mem hcolon] at hkeys
      have hcomma : ',' ∈ content := hkeyed.resolve_right hcolon
      exact ItemList.tail_split_ne_nil hcomma (by decide) hcolon hkeys
    · -- The empty text is no number, so it cannot be padded.
      obtain ⟨w, n, settled, -, -, hsettled, hdigits, -⟩ := hpadded
      rw [hsettle] at hsettled
      obtain rfl := Except.ok.inj hsettled
      cases hdigits
  · obtain ⟨value, -, heq⟩ := map_eq_ok_iff.mp hnone
    cases heq

variable (hfunctions : ∀ name, ctx.services.functions.textFunction? name = none)
  (hsource : ∀ name value, ctx.source name = .ok (some value) → Keyed value)
include hfunctions hsource

theorem keyed_of_resolve {name value : Text} (h : ctx.resolve kind name = .ok (some value)) :
    Keyed value := by
  cases kind with
  | header =>
    obtain ⟨-, rfl⟩ := resolve_header_eq_ok hheaders h
    exact madeOf_of_not_mem List.not_mem_nil
  | function => exact absurd h (resolve_function_ne_ok hfunctions _ _)
  | _ => exact hsource _ _ h

theorem keyed_of_replaceToken {s s' : Progress} (hs : Keyed s.text)
    (hfirst : first? kind s.text = some content)
    (hok : ctx.replaceToken kind required content s = .ok s') : Keyed s'.text := by
  obtain ⟨hcontent, -⟩ := hs.isContent hfirst
  rcases replaceToken_eq_ok hok with ⟨value, put, keep, hvalue, hput, rfl⟩ | ⟨-, -, rfl⟩
  · have hkeyed := keyed_of_resolve hheaders hfunctions hsource hvalue
    refine hs.replaceAll (madeOf_replacement hcontent hkeyed (fun _ hkind => ?_) hput) hcontent.2.2
    cases hkind
  · exact hs.replaceAll (madeOf_of_not_mem List.not_mem_nil) hcontent.2.2

/-- In texts whose header tokens ask for keys or widths, none of them is replaced, so it does not
matter which source is asked. -/
theorem upholds_keyed (hsettle : ctx.settle [] = .ok []) {headers : HeaderSource}
    {settle : Text → Except Error Text}
    (hcarries : ∀ value, Keyed value →
      Carries (fun _ => True) (ctx.settle value) (settle value)) :
    ctx.Upholds headers settle Keyed where
  values _ _ _ _ hvalue := keyed_of_resolve hheaders hfunctions hsource hvalue
  settles := hcarries
  header required content s hs hfirst := by
    intro s' hok
    exact absurd hok (replaceToken_header_ne_ok hheaders hsettle ((hs.isContent hfirst).2 rfl) s s')
  step _ _ _ _ _ hs hfirst hok :=
    keyed_of_replaceToken hheaders hfunctions hsource hs hfirst hok

end

/-- A header token that is left in a branch closed up after the last sweep over headers: where an
optional variable was taken out, or where a marker was filled. -/
theorem LastRound.ne_of_hasToken {last : Text} {settled b : Branch}
    (h : ctx.LastRound last settled.value) (htoken : hasToken .header b.value = true) :
    last ≠ settled.value ∨ b ≠ settled := by
  by_cases hb : b = settled
  · refine .inl fun hlast => ?_
    rw [hb, ← hlast, hasToken, h.header] at htoken
    cases htoken
  · exact .inr hb

end Context

variable {source : Source} {services : Services} {expand : Bool} {text : Text} {result : Result}

/-- No header token is replaced if the source that refuses every request makes no difference. -/
theorem readsNoHeader_iff : ReadsNoHeader source services expand text result
    ↔ substitute source (services.withHeaders .refusing) expand text = .ok result := by
  constructor
  · exact fun h => h .refusing
  · intro h headers
    have hextends : headers.Extends (services.withHeaders .refusing).headers :=
      headers.extends_refusing
    exact substitute_of_extends hextends h

theorem plainServices_of_none (hheaders : services.headers = .none)
    (hfunctions : ∀ name, services.functions.textFunction? name = none) :
    PlainServices services := by
  refine ⟨fun path keys values hvalues value hvalue => ?_, fun name args value hvalue => ?_⟩
  · rw [hheaders] at hvalues
    obtain ⟨-, rfl⟩ := HeaderSource.values_none hvalues
    cases hvalue
  · rw [FunctionTable.callText, hfunctions] at hvalue
    cases hvalue

section

variable (hheaders : services.headers = .none)
  (hfunctions : ∀ name, services.functions.textFunction? name = none)
include hheaders hfunctions

/-- Where header tokens ask for keys or widths, none is replaced in a substitution that does not fail.
-/
theorem readsNoHeader_of_keyed (htext : Keyed text)
    (hsource : ∀ name value, source name = .ok (some value) → Keyed value)
    (h : substitute source services expand text = .ok result) :
    ReadsNoHeader source services expand text result := by
  intro headers
  have hupholds : ∀ expand run other, (∀ value, Keyed value →
      Carries (fun _ => True) (settleWith run value) (settleWith other value)) →
        Context.Upholds ⟨source, services, expand, settleWith run⟩ headers (settleWith other)
          Keyed := by
    intro expand run other hcarries
    have hsettle : settleWith run [] = .ok [] := settleWith_of_not_mem List.not_mem_nil
    exact Context.upholds_keyed hheaders hfunctions hsource hsettle hcarries
  exact (carries_within hupholds (services.limit + 1) expand htext result h).1

/-- A substitution without headers that does not fail is the same with a source that answers requests
for no key with nothing, so it has replaced no header token that asks for a key. A header token that
is left in a branch closed up after the last sweep over headers. So the substitution reports all
header tokens if and only if it is the same with a source that refuses every request, and no choice of
items for the markers of the settled text leads to a text with a header token. It reports all of them
in texts and values without nested tokens whose header tokens ask for keys or widths. -/
theorem headersReported_iff (h : substitute source services expand text = .ok result) :
    (∀ headers : HeaderSource, (∀ path, headers.values path [] = .ok []) →
      substitute source (services.withHeaders headers) expand text = .ok result)
    ∧ (∃ last settled, (Context.outermost source services expand).settleText text = .ok settled
      ∧ (Context.outermost source services expand).LastRound last settled.value
      ∧ (∀ b ∈ result.branches, hasToken .header b.value = true →
          last ≠ settled.value ∨ b ≠ settled)
      ∧ ((ReadsNoHeader source services expand text result
            ∧ ∀ b ∈ result.branches, hasToken .header b.value = false)
          ↔ substitute source (services.withHeaders .refusing) expand text = .ok result
            ∧ ¬ ∃ final, (Context.outermost source services expand).Unrolls settled final
              ∧ hasToken .header final.value = true))
    ∧ (Keyed text → (∀ name value, source name = .ok (some value) → Keyed value) →
        ReadsNoHeader source services expand text result
          ∧ ∀ b ∈ result.branches, hasToken .header b.value = false) := by
  have houtermost := h
  rw [substitute_eq_outermost] at houtermost
  obtain ⟨settled, hsettled, hmem⟩ := Context.substitute_eq_ok houtermost
  obtain ⟨hvariables, -⟩ := Context.settleText_eq_ok hfunctions hsettled
  obtain ⟨last, hlast⟩ := Context.exists_lastRound hvariables
  refine ⟨fun headers hkeyless => ?_, ⟨last, settled, hsettled, hlast, ?_, ?_⟩, ?_⟩
  · refine substitute_of_extends ?_ h
    rw [hheaders]
    exact HeaderSource.extends_none hkeyless
  · exact fun b _ htoken => hlast.ne_of_hasToken htoken
  · refine and_congr readsNoHeader_iff ⟨fun hfree hgiven => ?_, fun hnone b hb => ?_⟩
    · obtain ⟨final, hfinal, htoken⟩ := hgiven
      rw [hfree final ((hmem final).mpr hfinal)] at htoken
      cases htoken
    · exact eq_false_of_ne_true fun htoken => hnone ⟨b, (hmem b).mp hb, htoken⟩
  · intro htext hsource
    refine ⟨readsNoHeader_of_keyed hheaders hfunctions htext hsource h, fun b hb => ?_⟩
    have hdollar := dollar_not_mem_of_substitute
      (fun name value hvalue => (hsource name value hvalue).flat)
      (plainServices_of_none hheaders hfunctions) htext.flat h b hb
    exact hasToken_eq_false_iff.mpr (first?_eq_none_of_not_mem hdollar)

end

/-- A header token without a key, and one whose key is an item of a list. -/
def unreportedText : Text :=
  ['$', 'H', 'E', 'A', 'D', '{', 'f', '}', '$', 'H', 'E', 'A', 'D', '{', 'f', ',', '$', '{', 'b',
    '}', '}']

def unreportedSource : Source := .ofEntries [(['b'], ['g', ',', 'r'])]

def unreportedBranches : List Branch := [
  ⟨['$', 'H', 'E', 'A', 'D', '{', 'f', ',', 'g', '}'], [(['f'], []), (['b'], ['g'])]⟩,
  ⟨['$', 'H', 'E', 'A', 'D', '{', 'f', ',', 'r', '}'], [(['f'], []), (['b'], ['r'])]⟩]

/-- The first token is replaced by nothing, and the other one is left in the branches. -/
theorem not_headersReported_unreportedText :
    substitute unreportedSource {} true unreportedText = .ok (.multi unreportedBranches)
      ∧ substitute unreportedSource (Services.withHeaders {} .refusing) true unreportedText
        = .error (.header ['f'] (.noHeaders []))
      ∧ (∀ b ∈ unreportedBranches, hasToken .header b.value = true)
      ∧ ¬ (ReadsNoHeader unreportedSource {} true unreportedText (.multi unreportedBranches)
        ∧ ∀ b ∈ unreportedBranches, hasToken .header b.value = false) := by
  have hok : substitute unreportedSource {} true unreportedText = .ok (.multi unreportedBranches) :=
    rfl
  have hrefused : substitute unreportedSource (Services.withHeaders {} .refusing) true unreportedText
      = .error (.header ['f'] (.noHeaders [])) := rfl
  obtain ⟨-, ⟨last, settled, -, -, -, hiff⟩, -⟩ := headersReported_iff rfl (fun _ => rfl) hok
  refine ⟨hok, hrefused, by decide, fun hreported => ?_⟩
  obtain ⟨hsame, -⟩ := hiff.mp hreported
  rw [hrefused] at hsame
  cases hsame

end Substitution

end WorkflowControl
