import WorkflowControl.Substitution.Sweep

/-!
Unrolling of loop markers. A marker stands for each item of a list in turn, so a branch with
markers unrolls into one branch for each combination of items. The first marker of a text varies
slowest, and the items come in the order of the list. Each branch keeps the item chosen for each
name, without the zeros that a width puts in front of it.
-/

namespace WorkflowControl.Substitution.Context

/-- The branches in which the first loop marker of a branch stands for each item of its list. -/
def unrollFirst (ctx : Context) (branch : Branch) : Except Error (List Branch) :=
  match Token.first? .loop branch.value with
  | none => .ok [branch]
  | some content => do
    let (name, width?) := Token.nameAndWidth content
    let found ← ctx.source name
    let raw ← match found with
      | some value => ctx.settle value
      | none => .error (.lookup name)
    checkSearch ctx.services .loop content
    let width? ← width?.mapM (width content)
    (ItemList.split raw ',').mapM fun item => do
      let rendered ← match width? with
        | some width => padded width item
        | none => .ok item
      .ok ⟨Token.replaceAll .loop content rendered branch.value, branch.keep.put name item⟩

/-- Unrolls the markers of the branches, one marker of each branch at a time. Branches that are
done go before those that still have markers. -/
def unrollFrom (ctx : Context) (input : Text) : Nat → List Branch → Except Error (List Branch)
  | _, [] => .ok []
  | 0, _ :: _ => .error (.nonTermination input ctx.services.limit)
  | budget + 1, branches => do
    let next := (← branches.mapM ctx.unrollFirst).flatten
    let pending := next.filter fun branch => Token.hasToken .loop branch.value
    let closed := next.filter fun branch => !Token.hasToken .loop branch.value
    let rest ← ctx.unrollFrom input budget pending
    .ok (closed ++ rest)

/-- Unrolls the markers of a branch into every combination of items. -/
def unroll (ctx : Context) (branch : Branch) : Except Error (List Branch) :=
  if Token.hasToken .loop branch.value then
    ctx.unrollFrom branch.value ctx.services.limit [branch]
  else .ok [branch]

end WorkflowControl.Substitution.Context
