/-
What a run prints of the sources it has scanned: a line with the name of
each and a line with its tokens, or all of it as a JSON document with an
indent of two spaces per level.
-/
import Munch.Scan.Sequence

namespace Munch

/-- A source by name, with its tokens. -/
structure ScannedSource where
  name : String
  tokens : TokenSequence

namespace Report

-- ============================================================== lines

/-- The two lines of a source. -/
def sourceLines (s : ScannedSource) : String :=
  "$ " ++ s.name ++ "\n" ++ String.ofList s.tokens.render ++ "\n"

/-- The lines of all sources. -/
def lines (sources : List ScannedSource) : String :=
  String.join (sources.map sourceLines)

-- =============================================================== JSON

/-- The two lowest digits of a number in hexadecimal. -/
def hexByte (n : Nat) : Text :=
  [Nat.digitChar (n / 16 % 16), Nat.digitChar (n % 16)]

/-- A character inside a JSON string. Only quotes, backslashes and
controls are escaped. -/
def jsonChar (c : Char) : Text :=
  match c with
  | '"' => ['\\', '"']
  | '\\' => ['\\', '\\']
  | '\x08' => ['\\', 'b']
  | '\x0c' => ['\\', 'f']
  | '\n' => ['\\', 'n']
  | '\r' => ['\\', 'r']
  | '\t' => ['\\', 't']
  | c => if c < ' ' then ['\\', 'u', '0', '0'] ++ hexByte c.toNat else [c]

/-- A JSON string. -/
def jsonString (t : Text) : String :=
  String.ofList ('"' :: (t.flatMap jsonChar ++ ['"']))

/-- Items between brackets, one a line, one level deeper than the
brackets; nothing stands between the brackets of an empty list. -/
def jsonBlock (opening closing : String) (depth : Nat) (items : List String) :
    String :=
  let margin (depth : Nat) : String :=
    String.ofList (List.replicate (2 * depth) ' ')
  match items with
  | [] => opening ++ closing
  | _ =>
      opening ++ "\n" ++
        String.intercalate ",\n" (items.map (margin (depth + 1) ++ ·)) ++
        "\n" ++ margin depth ++ closing

/-- A JSON object. -/
def jsonObject (depth : Nat) (members : List (String × String)) : String :=
  jsonBlock "\x7b" "\x7d" depth
    (members.map fun (key, value) => jsonString key.toList ++ ": " ++ value)

/-- A JSON list. -/
def jsonArray (depth : Nat) (items : List String) : String :=
  jsonBlock "[" "]" depth items

/-- A token: its key, its code, and its text if it has one. -/
def jsonToken (depth : Nat) (s : ScannedToken) : String :=
  jsonObject depth <|
    [("key", jsonString s.token.key.toList), ("code", toString s.token.code)] ++
      match s.text with
      | some text => [("text", jsonString text)]
      | none => []

/-- A source: its name and its tokens. -/
def jsonSource (depth : Nat) (s : ScannedSource) : String :=
  jsonObject depth
    [("source", jsonString s.name.toList),
      ("tokens", jsonArray (depth + 1) (s.tokens.map (jsonToken (depth + 2))))]

/-- All sources as a JSON document, and a line end. -/
def json (sources : List ScannedSource) : String :=
  jsonArray 0 (sources.map (jsonSource 1)) ++ "\n"

end Report

end Munch
