/-
Layout settings as JSON: an object with a truth value per class of
layout, or the truth values alone in a list, in the order of the
classes. What is missing is false. An object may have other members,
but each setting at most once.
-/
import Munch.Dictionary.Basic
import Munch.Json.Parser

namespace Munch.Retention

/-- The setting with a name among the members of an object. -/
def setting? (members : List (Option Text × Json)) (name : String) :
    Option Bool :=
  match members.filter (·.1 = some name.toList) with
  | [] => some false
  | [(_, value)] => value.bool?
  | _ => none

/-- The settings that a JSON document holds. -/
def ofJson? : Json → Option Retention
  | .array items =>
      match items.mapM Json.bool? with
      | some [] => some {}
      | some [whitespace] => some { whitespace }
      | some [whitespace, tabs] => some { whitespace, tabs }
      | some [whitespace, tabs, newlines] =>
          some { whitespace, tabs, newlines }
      | _ => none
  | .object members => do
      let whitespace ← setting? members "keep_whitespace"
      let tabs ← setting? members "keep_tabs"
      let newlines ← setting? members "keep_newlines"
      if members.all (·.1.isSome) then some { whitespace, tabs, newlines }
      else none
  | _ => none

/-- Reads layout settings. -/
def parse? (t : Text) : Option Retention := (Json.parse? t).bind ofJson?

/-- Layout settings written as JSON. -/
def render (r : Retention) : String :=
  "\x7b\"keep_whitespace\":" ++ toString r.whitespace ++
    ",\"keep_tabs\":" ++ toString r.tabs ++
    ",\"keep_newlines\":" ++ toString r.newlines ++ "\x7d"

end Munch.Retention
