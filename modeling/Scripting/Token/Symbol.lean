import Scripting.Text

/-
The words and signs with a fixed spelling, what each of them may be used for, and the spellings that
are kept back.
-/
namespace Scripting

inductive Symbol where
  -- delimiters
  | leftBrace | rightBrace | leftParen | rightParen | leftBracket | rightBracket
  | semicolon | colon | doubleColon | comma | period | mapStart
  -- arithmetic
  | plus | unaryPlus | minus | unaryMinus | multiply | divide | modulo | power
  | leftShift | rightShift
  -- comparison and logic
  | equals | less | greater | lessEqual | greaterEqual | equalTo | notEqualTo
  | bang | pipe | or | xor | ampersand | and
  -- compound assignment
  | plusAssign | minusAssign | multiplyAssign | divideAssign | leftShiftAssign | rightShiftAssign
  | andAssign | orAssign | xorAssign | moduloAssign | powerAssign
  -- keywords
  | kwTrue | kwFalse | kwLet | kwConst | kwIf | kwElse | kwWhile | kwLoop | kwFor | kwIn
  | kwContinue | kwBreak | kwReturn | kwThrow | kwFn | kwPrivate | kwImport | kwExport | kwAs
  deriving DecidableEq, Repr

namespace Symbol

/-- The spelling of a symbol. A sign before an operand is spelled like the operator. -/
def spelling : Symbol → String
  | leftBrace => "\x7b" | rightBrace => "\x7d" | leftParen => "(" | rightParen => ")"
  | leftBracket => "[" | rightBracket => "]" | semicolon => ";" | colon => ":"
  | doubleColon => "::" | comma => "," | period => "." | mapStart => "#\x7b"
  | plus => "+" | unaryPlus => "+" | minus => "-" | unaryMinus => "-" | multiply => "*"
  | divide => "/" | modulo => "%" | power => "~" | leftShift => "<<" | rightShift => ">>"
  | equals => "=" | less => "<" | greater => ">" | lessEqual => "<=" | greaterEqual => ">="
  | equalTo => "==" | notEqualTo => "!=" | bang => "!" | pipe => "|" | or => "||" | xor => "^"
  | ampersand => "&" | and => "&&"
  | plusAssign => "+=" | minusAssign => "-=" | multiplyAssign => "*=" | divideAssign => "/="
  | leftShiftAssign => "<<=" | rightShiftAssign => ">>=" | andAssign => "&=" | orAssign => "|="
  | xorAssign => "^=" | moduloAssign => "%=" | powerAssign => "~="
  | kwTrue => "true" | kwFalse => "false" | kwLet => "let" | kwConst => "const" | kwIf => "if"
  | kwElse => "else" | kwWhile => "while" | kwLoop => "loop" | kwFor => "for" | kwIn => "in"
  | kwContinue => "continue" | kwBreak => "break" | kwReturn => "return" | kwThrow => "throw"
  | kwFn => "fn" | kwPrivate => "private" | kwImport => "import" | kwExport => "export"
  | kwAs => "as"

def text (s : Symbol) : Text := Text.lit s.spelling

/-- Every symbol that a spelling can stand for; the two signs are read as operators first. -/
def spelled : List Symbol :=
  [leftBrace, rightBrace, leftParen, rightParen, leftBracket, rightBracket, semicolon, colon,
    doubleColon, comma, period, mapStart,
    plus, minus, multiply, divide, modulo, power, leftShift, rightShift,
    equals, less, greater, lessEqual, greaterEqual, equalTo, notEqualTo, bang, pipe, or, xor,
    ampersand, and,
    plusAssign, minusAssign, multiplyAssign, divideAssign, leftShiftAssign, rightShiftAssign,
    andAssign, orAssign, xorAssign, moduloAssign, powerAssign,
    kwTrue, kwFalse, kwLet, kwConst, kwIf, kwElse, kwWhile, kwLoop, kwFor, kwIn, kwContinue,
    kwBreak, kwReturn, kwThrow, kwFn, kwPrivate, kwImport, kwExport, kwAs]

def ofText? (t : Text) : Option Symbol := spelled.find? fun s => s.text == t

def isKeyword : Symbol → Bool
  | kwTrue | kwFalse | kwLet | kwConst | kwIf | kwElse | kwWhile | kwLoop | kwFor | kwIn
  | kwContinue | kwBreak | kwReturn | kwThrow | kwFn | kwPrivate | kwImport | kwExport | kwAs => true
  | _ => false

/-- Delimiters, operators and assignments: everything that is not a word. -/
def isOperator (s : Symbol) : Bool := !s.isKeyword

def expectsOperand : Symbol → Bool
  | leftBrace | leftParen | leftBracket | plus | unaryPlus | minus | unaryMinus | multiply
  | divide | comma | period | equals | less | greater | bang | lessEqual | greaterEqual | equalTo
  | notEqualTo | pipe | or | ampersand | and | kwIf | kwWhile | plusAssign | minusAssign
  | multiplyAssign | divideAssign | leftShiftAssign | rightShiftAssign | andAssign | orAssign
  | xorAssign | leftShift | rightShift | xor | modulo | moduloAssign | kwReturn | kwThrow | power
  | kwIn | powerAssign => true
  | _ => false

/-- How tightly a binary operator binds; zero for symbols that are none. -/
def precedence : Symbol → Nat
  | or | xor | pipe => 30
  | and | ampersand => 60
  | equalTo | notEqualTo => 90
  | less | lessEqual | greater | greaterEqual => 110
  | kwIn => 130
  | plus | minus => 150
  | divide | multiply | power | modulo => 180
  | leftShift | rightShift => 210
  | period => 240
  | _ => 0

def isCompoundAssignment : Symbol → Bool
  | plusAssign | minusAssign | multiplyAssign | divideAssign | leftShiftAssign | rightShiftAssign
  | andAssign | orAssign | xorAssign | moduloAssign | powerAssign => true
  | _ => false

def isAssignment (s : Symbol) : Bool := s = equals || s.isCompoundAssignment

def bindsRight (s : Symbol) : Bool := s.isAssignment || s = period

end Symbol

inductive Service where
  | print | debug | typeOf | evalText | fnPointer | call | curry | isShared
  deriving DecidableEq, Repr

namespace Service

def word : Service → String
  | print => "print" | debug => "debug" | typeOf => "type_of" | evalText => "eval"
  | fnPointer => "Fn" | call => "call" | curry => "curry" | isShared => "is_shared"

def text (s : Service) : Text := Text.lit s.word

def all : List Service := [print, debug, typeOf, evalText, fnPointer, call, curry, isShared]

def ofText? (t : Text) : Option Service := all.find? fun s => s.text == t

def isOverridable : Service → Bool
  | print | debug | typeOf | evalText | fnPointer => true
  | _ => false

end Service

namespace Reserved

def this : Text := Text.lit "this"

def signs : List String := ["===", "!==", "->", "<-", "=>", ":=", "::<", "(*", "*)", "#"]

def words : List String :=
  ["public", "new", "use", "module", "package", "var", "static", "shared", "with", "do", "each",
    "then", "goto", "exit", "switch", "match", "case", "try", "catch", "default", "void", "null",
    "nil", "spawn", "go", "sync", "async", "await", "yield"]

/-- Is the text a reserved sign or word, a service word, or `this`? -/
def isReserved (t : Text) : Bool :=
  signs.any (fun s => Text.lit s == t) || words.any (fun s => Text.lit s == t) ||
    (Service.ofText? t).isSome || t == this

end Reserved

end Scripting
