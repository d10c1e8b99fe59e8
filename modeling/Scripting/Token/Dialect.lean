import Scripting.Token.Scan

/-
The language as an engine has set it up: symbols that are switched off, and operators that a host
has added. Tokens are read as usual and then seen through the dialect.
-/
namespace Scripting

structure Dialect where
  disabled : List Text := []
  operators : OperatorTable := []
  /-- Longest string literal, zero for no limit. -/
  maxString : Nat := 0

namespace Dialect

def isDisabled (d : Dialect) (t : Text) : Bool := d.disabled.contains t

def isCustom (d : Dialect) (t : Text) : Bool := d.operators.contains t

def improper : List (String × String) :=
  [("===", "'===' is not a valid operator. This is not JavaScript! Should it be '=='?"),
    ("!==", "'!==' is not a valid operator. This is not JavaScript! Should it be '!='?"),
    ("->", "'->' is not a valid symbol. This is not C or C++!"),
    ("<-", "'<-' is not a valid symbol. This is not Go! Should it be '<='?"),
    ("=>", "'=>' is not a valid symbol. This is not Rust! Should it be '>='?"),
    (":=", "':=' is not a valid assignment operator. This is not Go! Should it be simply '='?"),
    ("::<", "'::<>' is not a valid symbol. This is not Rust! Should it be '::'?"),
    ("(*", "'(* .. *)' is not a valid comment format. This is not Pascal! Should it be '/* .. */'?"),
    ("*)", "'(* .. *)' is not a valid comment format. This is not Pascal! Should it be '/* .. */'?"),
    ("#", "'#' is not a valid symbol. Should it be '#\x7b'?")]

def improperToken (message : Text) : Token :=
  .fault { fault := .improperSymbol, text := message }

/-- A reserved token: an operator of the host, a fault, or still a reserved word. -/
def filterReserved (d : Dialect) (t : Text) : Token :=
  if d.isCustom t then .custom t
  else
    match improper.find? fun entry => Text.lit entry.1 == t with
    | some (_, message) => improperToken (Text.lit message)
    | none =>
      if !t.isIdentifier then improperToken (Text.inTicks t ++ Text.lit " is a reserved symbol")
      else if d.isDisabled t then
        improperToken (Text.lit "reserved symbol " ++ Text.inTicks t ++ Text.lit " is disabled")
      else .reserved t

/-- A symbol: switched off it is a fault, or, for a word, a reserved word that a host may reuse. -/
def filterSymbol (d : Dialect) (s : Symbol) : Token :=
  if !d.isDisabled s.text then .symbol s
  else if s.isOperator then .fault { fault := .unexpectedInput, text := s.text }
  else if d.isCustom s.text then .custom s.text
  else .reserved s.text

def filter (d : Dialect) : Token → Token
  | .reserved t => d.filterReserved t
  | .identifier t => if d.isCustom t then .custom t else .identifier t
  | .symbol s => d.filterSymbol s
  | token => token

def next (d : Dialect) (state : ScanState) (pos : Position) (input : List CodePoint) : Scan.Step :=
  let step := Scan.next state pos input
  { step with token := step.token.map fun (token, start) => (d.filter token, start) }

def take (d : Dialect) : Nat → ScanState → Position → List CodePoint → List PlacedToken
  | 0, _, _, _ => []
  | cap + 1, state, pos, input =>
    let step := d.next state pos input
    match step.token with
    | none => []
    | some (token, start) =>
      if token.isEof then [(token, start)]
      else (token, start) :: take d cap step.state step.pos step.rest

def initial (d : Dialect) : ScanState := { maxString := d.maxString }

/-- All tokens of a script given in pieces. Every token but the last takes a character, so their
number is bounded by the length of the script. -/
def tokens (d : Dialect) (pieces : List Text) : List PlacedToken :=
  let input := Scan.codePoints pieces
  d.take (input.length + 1) d.initial Position.start input

end Dialect

end Scripting
