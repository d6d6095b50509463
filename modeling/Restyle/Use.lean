import Restyle.Binding
import Restyle.Token

/-!
Contract: the uses of macros, classified by what they are.

Owns: `Use` with its role, the form under which a use is reported, and the
weight of what a use holds.

Does not own: how uses are found (`Use.Match`).
-/

namespace Restyle

/-- Where a plain reference stands: in an expression, as a shorthand property,
or in an export list. -/
inductive Use.Position where
  | expression
  | shorthandProperty
  | exportSpecifier
deriving DecidableEq, Repr

/-- How a use is reported. -/
inductive Use.Form where
  | taggedTemplate
  | callStringLike
  | callObject
  | memberOrFactory
  | bareValue
  | passThrough
deriving DecidableEq, Repr

/-- What a macro is applied to: itself, a member, or the result of a factory
call with an argument. -/
inductive Use.Receiver where
  | direct
  | member (name : String)
  | factory (argument : Span)

/-- The content of an invocation: a template between two offsets, or the
arguments of a call up to an offset. -/
inductive Use.Content where
  | template (literal : Template) (start stop : Nat)
  | arguments (spans : List Span) (stop : Nat)

/-- What a use is: a reference that is left alone, a plain value, or an
invocation with content. -/
inductive Use.Role where
  | passThrough (spec : Option Spec)
  | bareValue (spec : Spec) (position : Use.Position)
  | invocation (spec : Spec) (receiver : Use.Receiver) (content : Use.Content)

/-- A use of a macro, from the identifier that names it. -/
structure Use where
  binding : Binding
  head : Token
  /-- The name of the declaration around the use. -/
  label : Option String
  role : Use.Role

namespace Use

/-- Whether a call takes at most one string or template. -/
def isStringLike : List Span → Bool
  | [] => true
  | [span] =>
    match span.tokens with
    | [token] => token.is .string || token.isTemplate
    | _ => false
  | _ => false

def Content.form : Content → Form
  | .template .. => .taggedTemplate
  | .arguments spans _ => if isStringLike spans then .callStringLike else .callObject

def Content.stop : Content → Nat
  | .template _ _ stop => stop
  | .arguments _ stop => stop

def start (use : Use) : Nat :=
  use.head.start

def location (use : Use) : Location :=
  use.head.location

def stop (use : Use) : Nat :=
  match use.role with
  | .invocation _ _ content => content.stop
  | _ => use.head.stop

def form (use : Use) : Form :=
  match use.role with
  | .passThrough _ => .passThrough
  | .bareValue .. => .bareValue
  | .invocation _ .direct content => content.form
  | .invocation .. => .memberOrFactory

/-- The form of a use's content, for a use without content its own form. -/
def contentForm (use : Use) : Form :=
  match use.role with
  | .invocation _ _ content => content.form
  | _ => use.form

def spec? (use : Use) : Option Spec :=
  match use.role with
  | .passThrough spec => spec
  | .bareValue spec _ => some spec
  | .invocation spec _ _ => some spec

def isPassThrough (use : Use) : Bool :=
  match use.role with
  | .passThrough _ => true
  | _ => false

def Form.name : Form → String
  | .taggedTemplate => "tagged-template"
  | .callStringLike => "call-string-like"
  | .callObject => "call-object"
  | .memberOrFactory => "member-or-factory"
  | .bareValue => "bare-value"
  | .passThrough => "pass-through"

/-! ## Weight -/

def spansWeight : List Span → Nat
  | [] => 0
  | span :: rest => span.weight + spansWeight rest

def Content.weight : Content → Nat
  | .template literal _ _ => literal.weight
  | .arguments spans _ => spansWeight spans

def Receiver.weight : Receiver → Nat
  | .factory argument => argument.weight
  | _ => 0

def Role.weight : Role → Nat
  | .invocation _ receiver content => receiver.weight + content.weight
  | _ => 0

end Use

end Restyle
