import Scripting.Token
import Scripting.Token.Literal

/-
Reading tokens from code points. A reader can stop at the end of one stretch of input and go on with
the next one, also inside a block comment: all it needs to remember is in `ScanState`.
-/
namespace Scripting

structure ScanState where
  /-- Longest string literal, zero for no limit. -/
  maxString : Nat := 0
  /-- The last token can end an operand, so that a sign after it is an operator. -/
  afterOperand : Bool := false
  /-- Number of block comments that are open. -/
  commentLevel : Nat := 0
  /-- Stop at the end of input without an end token. -/
  endSilently : Bool := false
  /-- Give comments as tokens instead of skipping them. -/
  keepComments : Bool := false
  deriving DecidableEq, Repr

namespace Scan

def isDigit (c : CodePoint) : Bool := 48 ≤ c && c ≤ 57

def isLetter (c : CodePoint) : Bool := (97 ≤ c && c ≤ 122) || (65 ≤ c && c ≤ 90)

def isWordChar (c : CodePoint) : Bool := isLetter c || isDigit c || c == 95

def isBlank (c : CodePoint) : Bool :=
  [32, 9, 13, 11, 12, 0x85, 0xA0, 0x1680, 0x2028, 0x2029, 0x202F, 0x205F, 0x3000].contains c ||
    (0x2000 ≤ c && c ≤ 0x200A)

def underscore : CodePoint := 95

def point : CodePoint := 46

def ascii (cs : List CodePoint) : Text := cs.map fun c => c.toUInt8

/-! ### Comments -/

/-- The outcome of running through a comment: the text, the open levels, the place and the rest. -/
structure CommentEnd where
  text : Text
  level : Nat
  pos : Position
  rest : List CodePoint

def slash : CodePoint := 47

def star : CodePoint := 42

/-- Run to the end of the block comments that are open. A slash or a star takes the character after
it along, whatever that is. -/
def blockComment (level : Nat) (text : Text) (pos : Position) : List CodePoint → CommentEnd
  | [] => ⟨text, level, pos, []⟩
  | c :: rest =>
    let pos := pos.advance
    let text := text ++ Utf8.encode c
    if c = slash ∨ c = star then
      match rest with
      | [] => ⟨text, level, pos.advance, []⟩
      | d :: rest =>
        let text := text ++ Utf8.encode d
        let level :=
          if c = slash ∧ d = star then level + 1
          else if c = star ∧ d = slash then level - 1
          else level
        if level = 0 then ⟨text, 0, pos.advance, rest⟩
        else blockComment level text pos.advance rest
    else if level = 0 then ⟨text, 0, if c = Literal.newline then pos.newLine else pos, rest⟩
    else blockComment level text (if c = Literal.newline then pos.newLine else pos) rest

def lineComment (text : Text) (pos : Position) : List CodePoint → CommentEnd
  | [] => ⟨text, 0, pos, []⟩
  | c :: rest =>
    if c = Literal.newline then ⟨text, 0, pos.newLine, rest⟩
    else lineComment (text ++ Utf8.encode c) pos.advance rest

theorem blockComment_rest_length_le (level : Nat) (text : Text) (pos : Position)
    (input : List CodePoint) : (blockComment level text pos input).rest.length ≤ input.length := by
  fun_induction blockComment level text pos input <;> simp_all <;> omega

theorem lineComment_rest_length_le (text : Text) (pos : Position) (input : List CodePoint) :
    (lineComment text pos input).rest.length ≤ input.length := by
  fun_induction lineComment text pos input <;> simp_all; omega

/-! ### Numbers -/

def radix? (c : CodePoint) : Option Nat :=
  if c = 120 ∨ c = 88 then some 16
  else if c = 111 ∨ c = 79 then some 8
  else if c = 98 ∨ c = 66 then some 2
  else none

def isRadixDigit (radix : Nat) (c : CodePoint) : Bool :=
  match Literal.hexDigit? c with
  | some d => d < radix
  | none => false

/-- The characters of a number literal: digits, underscores and points, and after a leading zero
also a radix letter with digits of that radix. -/
structure NumberText where
  chars : List CodePoint
  radix : Option Nat
  rest : List CodePoint

def numberText (first : CodePoint) (input : List CodePoint) : NumberText :=
  let plain (c : CodePoint) : Bool := isDigit c || c == underscore || c == point
  let front := first :: input.takeWhile plain
  let rest := input.dropWhile plain
  match rest with
  | [] => ⟨front, none, rest⟩
  | letter :: tail =>
    match (if first = 48 then radix? letter else none) with
    | none => ⟨front, none, rest⟩
    | some radix =>
      let digit (c : CodePoint) : Bool := isRadixDigit radix c || c == underscore
      ⟨front ++ letter :: tail.takeWhile digit, some radix, tail.dropWhile digit⟩

def signed (negative : Bool) (n : Nat) : Int := if negative then -(n : Int) else n

/-- The greatest magnitude of an integer with a sign and of one without. -/
def magnitudeLimit (negative : Bool) : UInt64 :=
  if negative then 0x8000000000000000 else 0x7FFFFFFFFFFFFFFF

/-- Take up digits of a radix behind a magnitude in 64 bits. It is seen before a digit is taken
whether the magnitude would get beyond the limit; nothing is given if it would, or if there is a
character that is no digit of the radix. -/
def magnitude? (radix : Nat) (limit : UInt64) (value : UInt64) : List CodePoint → Option UInt64
  | [] => some value
  | c :: rest =>
    match Literal.hexDigit? c with
    | none => none
    | some d =>
      if radix ≤ d then none
      else if (limit - UInt64.ofNat d) / UInt64.ofNat radix < value then none
      else magnitude? radix limit (value * UInt64.ofNat radix + UInt64.ofNat d) rest

/-- The integer that digits of a radix stand for, with a sign or without. -/
def radixValue? (radix : Nat) (negative : Bool) (digits : List CodePoint) : Option Integer :=
  if digits.isEmpty then none
  else (magnitude? radix (magnitudeLimit negative) 0 digits).map fun value =>
    Integer.wrap (signed negative value.toNat)

/-- The token of a number literal. Whole numbers that do not fit are read as floats. -/
def numberToken (negative : Bool) (number : NumberText) : Token :=
  let raw := (if negative then Text.lit "-" else []) ++ ascii number.chars
  let malformed := Token.fault { fault := .malformedNumber, text := raw }
  let kept (cs : List CodePoint) : List CodePoint := cs.filter (· != underscore)
  match number.radix with
  | some radix =>
    let digits := kept (number.chars.drop 2)
    match radixValue? radix negative digits with
    | some n => .integer n
    | none => malformed
  | none =>
    let digits := ascii (kept number.chars)
    match (if digits.all Text.isDigit then
        Fixed.ofInt? .i64 (signed negative (Decimal.digitsValue digits)) else none) with
    | some n => .integer n
    | none =>
      match Decimal.read? negative digits with
      | some f => .float f
      | none => malformed

/-! ### Words and signs -/

def wordToken (word : Text) : Token :=
  if !word.isIdentifier then .fault { fault := .malformedIdentifier, text := word }
  else (Token.ofText? word).getD (.identifier word)

def signs : List String :=
  ["===", "!==", "::<", "<<=", ">>=",
    "(*", "#\x7b", "+=", "-=", "->", "*)", "*=", "/=", "==", "=>", "::", ":=", "<=", "<-", "<<",
    ">=", ">>", "!=", "||", "|=", "&&", "&=", "^=", "%=", "~=",
    "\x7b", "\x7d", "(", ")", "[", "]", "#", "+", "-", "*", "/", ";", ",", ".", "=", ":", "<", ">",
    "!", "|", "&", "^", "%", "~", "@"]

def signChars (s : String) : List CodePoint := s.toList.map (·.val)

def sign? (input : List CodePoint) : Option String :=
  signs.find? fun s => (signChars s).isPrefixOf input

/-- The token of a sign; plus and minus depend on what stands before them. -/
def signToken (afterOperand : Bool) (sign : String) : Token :=
  match Token.ofText? (Text.lit sign) with
  | some (.symbol .plus) => .symbol (if afterOperand then .plus else .unaryPlus)
  | some (.symbol .minus) => .symbol (if afterOperand then .minus else .unaryMinus)
  | some token => token
  | none => .reserved (Text.lit sign)

/-! ### The reader -/

/-- One step of reading: the token with its place, if there is one, the state, the place and the
rest of the input. -/
structure Step where
  token : Option PlacedToken
  state : ScanState
  pos : Position
  rest : List CodePoint

def doubleQuote : CodePoint := 34

def singleQuote : CodePoint := 39

def minus : CodePoint := 45

/-- A string literal after its quote; faults are placed where reading stopped. -/
def stringStep (state : ScanState) (start : Position) (input : List CodePoint) : Step :=
  let reading := Literal.read state.maxString doubleQuote start input
  let token := match reading.result with
    | .ok chars => (Token.string (Utf8.encodeAll chars), start)
    | .error e => (Token.fault e, reading.pos)
  ⟨some token, state, reading.pos, reading.rest⟩

/-- A character literal after its quote: a literal of exactly one character. -/
def charStep (state : ScanState) (start : Position) (input : List CodePoint) : Step :=
  if input.head? = some singleQuote then
    ⟨some (.fault { fault := .malformedChar }, start), state, start, input⟩
  else
    let reading := Literal.read state.maxString singleQuote start input
    let token := match reading.result with
      | .ok [c] => (Token.char c, start)
      | .ok chars => (Token.fault { fault := .malformedChar, text := Utf8.encodeAll chars }, start)
      | .error e => (Token.fault e, reading.pos)
    ⟨some token, state, reading.pos, reading.rest⟩

def numberStep (state : ScanState) (start : Position) (negative : Bool) (first : CodePoint)
    (input : List CodePoint) : Step :=
  let number := numberText first input
  ⟨some (numberToken negative number, start), state,
    start.advanceBy (number.chars.length - 1), number.rest⟩

def wordStep (state : ScanState) (start : Position) (first : CodePoint) (input : List CodePoint) :
    Step :=
  let tail := input.takeWhile isWordChar
  ⟨some (wordToken (ascii (first :: tail)), start), state, start.advanceBy tail.length,
    input.dropWhile isWordChar⟩

def signStep (state : ScanState) (start : Position) (first : CodePoint) (input : List CodePoint) :
    Step :=
  match sign? (first :: input) with
  | some sign =>
    let extra := sign.length - 1
    ⟨some (signToken state.afterOperand sign, start), state, start.advanceBy extra,
      input.drop extra⟩
  | none =>
    ⟨some (.fault { fault := .unexpectedInput, text := Utf8.encode first }, start), state, start,
      input⟩

def endStep (state : ScanState) (pos : Position) : Step :=
  let pos := pos.advance
  ⟨if state.endSilently then none else some (.eof, pos), state, pos, []⟩

def startsWithDigit : List CodePoint → Bool
  | [] => false
  | d :: _ => isDigit d

def nextFrom (state : ScanState) (pos : Position) : List CodePoint → Step
  | [] => endStep state pos
  | c :: rest =>
    let start := pos.advance
    if c = Literal.newline then nextFrom state start.newLine rest
    else if isDigit c then numberStep state start false c rest
    else if isLetter c || c == underscore then wordStep state start c rest
    else if c = doubleQuote then stringStep state start rest
    else if c = singleQuote then charStep state start rest
    else if isBlank c then nextFrom state start rest
    else if c == minus && !state.afterOperand && startsWithDigit rest then
      numberStep state start.advance true (rest.headD 0) rest.tail
    else if c = slash ∧ rest.head? = some slash then
      let comment := lineComment (Text.lit "//") start.advance rest.tail
      if state.keepComments then
        ⟨some (.comment comment.text, start), state, comment.pos, comment.rest⟩
      else nextFrom state comment.pos comment.rest
    else if c = slash ∧ rest.head? = some star then
      let comment := blockComment 1 (Text.lit "/*") start.advance rest.tail
      let state := { state with commentLevel := comment.level }
      if state.keepComments then
        ⟨some (.comment comment.text, start), state, comment.pos, comment.rest⟩
      else nextFrom state comment.pos comment.rest
    else signStep state start c rest
termination_by input => input.length
decreasing_by
  · simp
  · simp
  · exact Nat.lt_succ_of_le (Nat.le_trans (lineComment_rest_length_le ..) (by simp))
  · exact Nat.lt_succ_of_le (Nat.le_trans (blockComment_rest_length_le ..) (by simp))

def Step.remember (step : Step) : Step :=
  match step.token with
  | some (token, _) =>
    { step with state := { step.state with afterOperand := !token.expectsOperand } }
  | none => step

/-- Read the next token. A reader that stopped inside a block comment first runs to its end. -/
def next (state : ScanState) (pos : Position) (input : List CodePoint) : Step :=
  let step :=
    if state.commentLevel = 0 then nextFrom state pos input
    else
      let comment := blockComment state.commentLevel [] pos input
      let state := { state with commentLevel := comment.level }
      if state.keepComments then
        ⟨some (.comment comment.text, pos), state, comment.pos, comment.rest⟩
      else nextFrom state comment.pos comment.rest
  step.remember

/-- Read at most `cap` tokens up to the end of the input. Gives also the state and the place
afterwards, with which reading goes on in the next stretch of input. -/
def run : Nat → ScanState → Position → List CodePoint → List PlacedToken × ScanState × Position
  | 0, state, pos, _ => ([], state, pos)
  | cap + 1, state, pos, input =>
    let step := next state pos input
    match step.token with
    | none => ([], step.state, step.pos)
    | some (token, start) =>
      if token.isEof then ([(token, start)], step.state, step.pos)
      else
        let (more, state, pos) := run cap step.state step.pos step.rest
        ((token, start) :: more, state, pos)

/-- The code points of a script given in pieces; each piece is decoded by itself. -/
def codePoints (pieces : List Text) : List CodePoint := pieces.flatMap Utf8.decode

end Scan

end Scripting
