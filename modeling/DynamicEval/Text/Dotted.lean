/-!
# Dotted identifiers

An identifier such as `local.users.0.name` names a path: its segments are the pieces between the
dots.

## Main definitions

* `segments`: the pieces of an identifier.
-/

namespace DynamicEval.Text

/-- The pieces of a text between its dots, of which there is at least one. -/
def splitDots : List Char → List (List Char)
  | [] => [[]]
  | c :: cs =>
    if c == '.' then
      [] :: splitDots cs
    else
      match splitDots cs with
      | [] => [[c]]
      | piece :: pieces => (c :: piece) :: pieces

/-- The segments of an identifier; the empty identifier has none. -/
def segments (ident : String) : List String :=
  if ident.isEmpty then [] else (splitDots ident.toList).map String.ofList

end DynamicEval.Text
