import Restyle.Use.Parts

/-!
Contract: what an expansion is going to do, before any text is written.

Owns: `Plan`, the tree of the uses in a list of tokens with what each of them
holds, and `Plan.ofSpan`, which builds it.

A plan depends on the module, its bindings and the registry alone.  A fault
that a part of the module has stands in the plan at the place where the
expansion meets it, so what comes before it is still carried out.
-/

namespace Restyle

mutual

/-- A use and what it holds. -/
inductive Plan where
  | passThrough (use : Use)
  | bareValue (use : Use) (spec : Spec) (position : Use.Position)
  | invocation
      (use : Use)
      (spec : Spec)
      (receiver : Plan.Receiver)
      (pieces : List Plan.Piece)

/-- What an invocation is applied to. -/
inductive Plan.Receiver where
  | direct
  | member (name : String)
  | factory (argument : Plan.Expression)

/-- A piece of content: text, the content of a use spliced in place of a hole,
a slot with its location, or a fault. -/
inductive Plan.Piece where
  | literal (text : String)
  | splice (use : Use) (pieces : List Plan.Piece)
  | slot (location : Option Location) (expression : Plan.Expression)
  | fault (fault : Fault)

/-- An expression between two offsets with the uses in it, or a fault. -/
inductive Plan.Expression where
  | span (start stop : Nat) (plans : List Plan)
  | fault (fault : Fault)

end

namespace Plan

mutual

def ofSpan (scope : Scope) (span : Span) : Expression :=
  match _scanned : Use.scan scope span.tokens with
  | .error fault => .fault fault
  | .ok uses =>
    .span span.start span.stop (uses.attach.map fun ⟨use, _member⟩ => ofUse scope use)
termination_by 4 * span.weight
decreasing_by
  have bound := Use.weight_lt_of_scan _scanned _ _member
  have same : span.weight = Token.listWeight span.tokens := by cases span; rfl
  omega

/-- The plan of a hole: its content if it is spliced, else a slot. -/
def ofHole (scope : Scope) (span : Span) : Piece :=
  match _isNested : Use.nested? scope span with
  | .error fault => .fault fault
  | .ok (some (use, content)) => .splice use (ofContent scope content)
  | .ok none => .slot (span.tokens.head?.map (·.location)) (ofSpan scope span)
termination_by 4 * span.weight + 1
decreasing_by
  · have bound := Use.content_weight_lt_of_nested? _isNested
    omega
  · omega

def ofContent (scope : Scope) (content : Use.Content) : List Piece :=
  content.parts.attach.map fun
    | ⟨.literal text, _⟩ => .literal text
    | ⟨.hole span, _member⟩ => ofHole scope span
termination_by 4 * content.weight + 2
decreasing_by
  have bound := Use.hole_weight_le_of_parts _member
  omega

def ofUse (scope : Scope) (use : Use) : Plan :=
  match _isRole : use.role with
  | .passThrough _ => .passThrough use
  | .bareValue spec position => .bareValue use spec position
  | .invocation spec receiver content =>
    let planned : Receiver := match _isReceiver : receiver with
      | .direct => .direct
      | .member name => .member name
      | .factory argument => .factory (ofSpan scope argument)
    .invocation use spec planned (ofContent scope content)
termination_by 4 * use.role.weight + 3
decreasing_by
  all_goals simp only [_isRole, Use.Role.weight, Use.Receiver.weight]
  all_goals omega

end

end Plan

end Restyle
