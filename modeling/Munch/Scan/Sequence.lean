/-
Scanning a whole text into a sequence of tokens, up to its end or to the
first place where no token matches.
-/
import Munch.Scan.Step
import Munch.Text.Position

namespace Munch

/-- A token of a sequence, with the text it matched if it keeps that. -/
structure ScannedToken where
  token : Token
  text : Option Text

/-- Tokens in the order in which a text holds them. -/
abbrev TokenSequence := List ScannedToken

namespace TokenSequence

/-- A token as shown: its key, and its text if there is one. -/
def renderToken (s : ScannedToken) : Text :=
  match s.text with
  | some text => s.token.key.toList ++ ' ' :: text
  | none => s.token.key.toList

/-- A sequence as shown: its tokens with commas between. -/
def render (tokens : TokenSequence) : Text :=
  List.intercalate [',', ' '] (tokens.map renderToken)

end TokenSequence

/-- The failure of a scan that found nothing at an offset. -/
def unscannableAt (text : Text) (offset : Nat) : Error :=
  match Position.ofOffset? text offset, text.after? offset with
  | some p, some rest =>
      .unscannable offset p.line p.column (rest.headD '\uFFFD')
  | _, _ => .noSuchSlice offset text.size

/-- A step as a token of a sequence. -/
def Step.scanned (text : Text) (s : Step) (next : Nat) :
    Except Error ScannedToken :=
  if s.token.keepText then
    match text.slice? s.start next with
    | some matched => .ok ⟨s.token, some matched⟩
    | none => .error (.noSuchSlice s.start next)
  else .ok ⟨s.token, none⟩

namespace Dictionary

/-- The tokens of a text from an offset on, in at most so many steps. -/
def analyzeFrom (d : Dictionary) (text : Text) :
    Nat → Nat → Except Error TokenSequence
  | 0, _ => .error .endless
  | bound + 1, start =>
      match d.scanNext text start with
      | .error e => .error e
      | .ok step =>
          match step.next with
          | none => .error (unscannableAt text step.start)
          | some next =>
              if step.token.builtin? = some .finished then .ok []
              else
                match step.scanned text next with
                | .error e => .error e
                | .ok token =>
                    match d.analyzeFrom text bound next with
                    | .error e => .error e
                    | .ok rest => .ok (token :: rest)

/-- The tokens of a text. -/
def analyze (d : Dictionary) (text : Text) : Except Error TokenSequence :=
  d.analyzeFrom text (text.size + 2) 0

end Dictionary

/-- The tokens of a text under the rules of a rule file, as shown. -/
def analyzeLines (lines : List Text) (text : Text) : Except Error Text :=
  match Dictionary.ofRules lines with
  | .error e => .error e
  | .ok d =>
      match d.analyze text with
      | .error e => .error e
      | .ok tokens => .ok tokens.render

end Munch
