import WorkflowControl.Text.Case

/-!
The tokens that a value may hold: a tag, and a content in braces behind it. The tag says what
stands for the token: a variable that has to be there, one that may be missing, values of a file's
header, the result of a function, or each value of a list in turn.

The content of a token has no closing brace and, but for the loop token, no `$`, so that of two
nested tokens the inner one is a token and the outer one is not one yet. Tags are read in any
case, and two tokens are occurrences of one if they differ in case only.
-/

namespace WorkflowControl

/-- The kinds of token. -/
inductive TokenKind where
  | required
  | optional
  | header
  | function
  | loop
  deriving DecidableEq, Repr

namespace TokenKind

/-- What stands between the `$` and the brace. -/
def tag : TokenKind → Text
  | required => []
  | optional => ['o', 'p', 't']
  | header => ['H', 'E', 'A', 'D']
  | function => ['F', 'U', 'N', 'C']
  | loop => ['L', 'O', 'O', 'P']

/-- Whether a content may have `c` in it. -/
def isContentChar (kind : TokenKind) (c : Char) : Bool :=
  c != '}' && (kind = loop || c != '$')

/-- The token of a kind with a given content. -/
def token (kind : TokenKind) (content : Text) : Text :=
  '$' :: (kind.tag ++ '{' :: (content ++ ['}']))

end TokenKind

namespace Token

/-- What is left of `t` behind `start`, if it starts so up to case. -/
def behindFolded? : Text → Text → Option Text
  | [], t => some t
  | _ :: _, [] => none
  | s :: start, c :: t => if Text.sameFold s c then behindFolded? start t else none

/-- The content of the token that `t` starts with. -/
def contentHere? (kind : TokenKind) (t : Text) : Option Text :=
  match behindFolded? ('$' :: (kind.tag ++ ['{'])) t with
  | none => none
  | some rest =>
    let content := rest.takeWhile kind.isContentChar
    if content.isEmpty then none
    else if (rest.dropWhile kind.isContentChar).head? == some '}' then some content
    else none

/-- The content of the first token of a kind. -/
def first? (kind : TokenKind) : Text → Option Text
  | [] => none
  | c :: cs =>
    match contentHere? kind (c :: cs) with
    | some content => some content
    | none => first? kind cs

/-- Whether a text has a token of a kind. -/
def hasToken (kind : TokenKind) (t : Text) : Bool := (first? kind t).isSome

/-- The text behind the first `skip` characters, which are dropped, with `value` in place of every
occurrence of `token`. -/
def replaceFrom (token value : Text) : Nat → Text → Text
  | _, [] => []
  | skip + 1, _ :: cs => replaceFrom token value skip cs
  | 0, c :: cs =>
    if (behindFolded? token (c :: cs)).isSome then
      value ++ replaceFrom token value (token.length - 1) cs
    else c :: replaceFrom token value 0 cs

/-- The text with `value` in place of every token of the kind with the content, up to case. -/
def replaceAll (kind : TokenKind) (content value text : Text) : Text :=
  replaceFrom (kind.token content) value 0 text

/-- The name in a content, and its width if there is one: what stands before the first colon, and
what stands between it and the next one. -/
def nameAndWidth (content : Text) : Text × Option Text :=
  (content.upTo ':', (content.after? ':').map (Text.upTo ':'))

end Token

end WorkflowControl
