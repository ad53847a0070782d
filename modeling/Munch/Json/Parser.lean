/-
JSON documents, read strictly: no comments, no commas at the end of a
list, no leading zeros. Numbers are kept as they were written.
-/
import Munch.Json.Text

namespace Munch

/-- A JSON document. A string whose escapes name half a character spells
no text. -/
inductive Json where
  | null
  | bool (value : Bool)
  | number (written : Text)
  | string (text : Option Text)
  | array (items : List Json)
  | object (members : List (Option Text × Json))

namespace Json

/-- The truth value that a document is, if it is one. -/
def bool? : Json → Option Bool
  | bool value => some value
  | _ => none

-- =============================================================== parts

/-- The text without the white space it begins with. -/
def skipSpace (t : Text) : Text :=
  t.dropWhile fun c => c = ' ' || c = '\t' || c = '\n' || c = '\r'

/-- One digit or more, and what follows. -/
def digits? (t : Text) : Option (Text × Text) :=
  match t.takeWhile Char.isDigit with
  | [] => none
  | found => some (found, t.dropWhile Char.isDigit)

/-- A whole number without a sign, and what follows. Only zero itself
begins with a zero. -/
def whole? (t : Text) : Option (Text × Text) :=
  match digits? t with
  | some ('0' :: _ :: _, _) => none
  | found => found

/-- A fraction if there is one, and what follows. -/
def fraction? : Text → Option (Text × Text)
  | '.' :: t => (digits? t).map fun (found, rest) => ('.' :: found, rest)
  | t => some ([], t)

/-- A sign if there is one, and what follows. -/
def splitSign : Text → Text × Text
  | '+' :: t => (['+'], t)
  | '-' :: t => (['-'], t)
  | t => ([], t)

/-- An exponent if there is one, and what follows. -/
def exponent? : Text → Option (Text × Text)
  | [] => some ([], [])
  | c :: t =>
      if c = 'e' ∨ c = 'E' then
        let (sign, t) := splitSign t
        (digits? t).map fun (found, rest) => (c :: (sign ++ found), rest)
      else some ([], c :: t)

/-- A number, and what follows. -/
def number? (t : Text) : Option (Text × Text) := do
  let (sign, t) :=
    match t with
    | '-' :: t => (['-'], t)
    | t => ([], t)
  let (whole, t) ← whole? t
  let (fraction, t) ← fraction? t
  let (exponent, t) ← exponent? t
  return (sign ++ whole ++ fraction ++ exponent, t)

/-- A string after its opening quote, and what follows. -/
def string? (t : Text) : Option (Option Text × Text) :=
  (pieces t).map fun (found, rest) => (spell? found, rest)

-- ============================================================== values

mutual

/-- A value, and what follows. The bound is on the nesting of calls. -/
def value? : Nat → Text → Option (Json × Text)
  | 0, _ => none
  | bound + 1, t =>
      match skipSpace t with
      | 'n' :: 'u' :: 'l' :: 'l' :: t => some (null, t)
      | 't' :: 'r' :: 'u' :: 'e' :: t => some (bool true, t)
      | 'f' :: 'a' :: 'l' :: 's' :: 'e' :: t => some (bool false, t)
      | '"' :: t => (string? t).map fun (text, rest) => (string text, rest)
      | '[' :: t =>
          match skipSpace t with
          | ']' :: t => some (array [], t)
          | t => (items? bound t).map fun (items, rest) => (array items, rest)
      | '{' :: t =>
          match skipSpace t with
          | '}' :: t => some (object [], t)
          | t =>
              (members? bound t).map fun (members, rest) =>
                (object members, rest)
      | t => (number? t).map fun (written, rest) => (number written, rest)

/-- The values of a list up to its end, of which there is one or more,
and what follows. -/
def items? : Nat → Text → Option (List Json × Text)
  | 0, _ => none
  | bound + 1, t =>
      match value? bound t with
      | none => none
      | some (item, t) =>
          match skipSpace t with
          | ']' :: t => some ([item], t)
          | ',' :: t =>
              (items? bound t).map fun (items, rest) => (item :: items, rest)
          | _ => none

/-- The members of an object up to its end, of which there is one or
more, and what follows. -/
def members? : Nat → Text → Option (List (Option Text × Json) × Text)
  | 0, _ => none
  | bound + 1, t =>
      match skipSpace t with
      | '"' :: t =>
          match string? t with
          | none => none
          | some (key, t) =>
              match skipSpace t with
              | ':' :: t =>
                  match value? bound t with
                  | none => none
                  | some (item, t) =>
                      match skipSpace t with
                      | '}' :: t => some ([(key, item)], t)
                      | ',' :: t =>
                          (members? bound t).map fun (members, rest) =>
                            ((key, item) :: members, rest)
                      | _ => none
              | _ => none
      | _ => none

end

/-- The document that a text is. A bracket opens at most two calls, so
twice the length of the text bounds their nesting. -/
def parse? (t : Text) : Option Json :=
  match value? (2 * t.length + 2) t with
  | some (json, rest) => if skipSpace rest = [] then some json else none
  | none => none

end Json

end Munch
