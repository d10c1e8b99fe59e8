import Scripting.Text.Utf8
import Scripting.Error

/-
String and character literals, read from the character after the opening quote. A backslash starts
an escape; a literal ends at the first quote that is not escaped and must not run over a line end.
-/
namespace Scripting.Literal

def backslash : CodePoint := 92

def newline : CodePoint := 10

def hexDigit? (c : CodePoint) : Option Nat :=
  if 48 ≤ c ∧ c ≤ 57 then some (c.toNat - 48)
  else if 97 ≤ c ∧ c ≤ 102 then some (c.toNat - 87)
  else if 65 ≤ c ∧ c ≤ 70 then some (c.toNat - 55)
  else none

inductive Phase where
  | plain
  /-- After a backslash. -/
  | escape
  /-- Inside a numeric escape: digits still to come, value and text so far. -/
  | numeric (left : Nat) (value : Nat) (seen : Text)
  deriving DecidableEq, Repr

/-- What is left after a literal, and what came of its characters or the fault in it. -/
structure Reading (α : Type) where
  result : Except LexError α
  pos : Position
  rest : List CodePoint

/-- Where the characters of a literal go, how many have gone there, and what comes out at the end. -/
structure Sink (σ α : Type) where
  push : σ → CodePoint → σ
  count : σ → Nat
  close : σ → Except LexError α

def escapeDigits? (c : CodePoint) : Option Nat :=
  if c = 120 then some 2 else if c = 117 then some 4 else if c = 85 then some 8 else none

def escapeChar? (quote c : CodePoint) : Option CodePoint :=
  if c = backslash then some backslash
  else if c = 116 then some 9
  else if c = 110 then some 10
  else if c = 114 then some 13
  else if c = quote then some quote
  else none

def isScalar (n : Nat) : Bool := n ≤ 0x10FFFF && !(0xD800 ≤ n && n ≤ 0xDFFF)

def malformed (seen : Text) : LexError := { fault := .malformedEscape, text := seen }

def tooLong (limit : Nat) : LexError := { fault := .stringTooLong, limit := limit }

def unterminated : LexError := { fault := .unterminatedString }

def finish (limit : Nat) (chars : List CodePoint) : Except LexError (List CodePoint) :=
  if 0 < limit ∧ limit < (Utf8.encodeAll chars).length then .error (tooLong limit) else .ok chars

def Sink.chars (limit : Nat) : Sink (List CodePoint) (List CodePoint) where
  push chars c := c :: chars
  count := List.length
  close chars := finish limit chars.reverse

def readFrom {σ α : Type} (sink : Sink σ α) (limit : Nat) (quote : CodePoint) :
    Phase → σ → Position → List CodePoint → Reading α
  | .numeric _ _ seen, _, pos, [] => ⟨.error (malformed seen), pos, []⟩
  | _, _, pos, [] => ⟨.error unterminated, pos, []⟩
  | .numeric left value seen, found, pos, c :: rest =>
    let pos := pos.advance
    let seen := seen ++ Utf8.encode c
    match hexDigit? c with
    | none => ⟨.error (malformed seen), pos, rest⟩
    | some d =>
      let value := value * 16 + d
      if 1 < left then readFrom sink limit quote (.numeric (left - 1) value seen) found pos rest
      else if isScalar value then
        readFrom sink limit quote .plain (sink.push found (UInt32.ofNat value)) pos rest
      else ⟨.error (malformed seen), pos, rest⟩
  | .escape, found, pos, c :: rest =>
    let pos := pos.advance
    if 0 < limit ∧ limit < sink.count found then ⟨.error (tooLong limit), pos, rest⟩
    else
      match escapeDigits? c with
      | some n => readFrom sink limit quote (.numeric n 0 (92 :: Utf8.encode c)) found pos rest
      | none =>
        match escapeChar? quote c with
        | some e => readFrom sink limit quote .plain (sink.push found e) pos rest
        | none => ⟨.error (malformed [92]), pos, rest⟩
  | .plain, found, pos, c :: rest =>
    let pos := pos.advance
    if 0 < limit ∧ limit < sink.count found then ⟨.error (tooLong limit), pos, rest⟩
    else if c = backslash then readFrom sink limit quote .escape found pos rest
    else if c = quote then ⟨sink.close found, pos, rest⟩
    else if c = newline then ⟨.error unterminated, pos.back, rest⟩
    else readFrom sink limit quote .plain (sink.push found c) pos rest

/-- Read a literal after its opening quote. A limit of zero means no limit. -/
def read (limit : Nat) (quote : CodePoint) (pos : Position) (input : List CodePoint) :
    Reading (List CodePoint) :=
  readFrom (.chars limit) limit quote .plain [] pos input

end Scripting.Literal
