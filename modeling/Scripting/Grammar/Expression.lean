import Scripting.Grammar.State

/-
Expressions: operands with their suffixes, signs, and binary operators by precedence.
-/
namespace Scripting.Grammar

variable (settings : Settings) (rules : Rules)

/-- Items of a list up to its closing symbol, with commas between them. -/
def items (closer : Symbol) (unclosed unseparated : Text) : Nat → List Expr → Parse (List Expr)
  | 0, _ => throw .exhausted
  | n + 1, found => do
    if ← accept closer then return found.reverse
    if ← atEnd then fail .missingToken unclosed
    let e ← rules.expression
    if !(← accept .comma) then
      if !(← check closer) then failUnlessLexed .missingToken unseparated
    items closer unclosed unseparated n (e :: found)

def arguments (name : Text) : Parse (List Expr) := do
  let _ ← advance
  items rules .rightParen
    (Text.lit "Expecting ')' to close the arguments list of this function call " ++
      Text.inTicks name)
    (Text.lit "Expecting ',' to separate the arguments to function call " ++ Text.inTicks name)
    ((← remaining) + 1) []

def arrayLiteral : Parse Expr := do
  let (_, pos) ← advance
  return .array pos (← items rules .rightBracket
    (Text.lit "Expecting ']' to end this array literal")
    (Text.lit "Expecting ',' to separate the items of this array literal")
    ((← remaining) + 1) [])

def mapKey : Parse Text := do
  match ← current with
  | .identifier t | .string t => return t
  | _ => failUnlessLexed .propertyExpected (Text.lit "Expecting name of a property")

def mapEntries : Nat → List (Text × Expr) → Parse (List (Text × Expr))
  | 0, _ => throw .exhausted
  | n + 1, found => do
    if ← accept .rightBrace then return found.reverse
    if ← atEnd then
      fail .missingToken (Text.lit "Expecting '\x7d' to end this object map literal")
    let key ← mapKey
    let (_, keyPos) ← advance
    if found.any fun entry => entry.1 == key then
      failAt keyPos .duplicatedProperty
        (Text.lit "Duplicated property " ++ Text.inTicks key ++ Text.lit " for object map literal")
    expect .colon (Text.lit "Expecting ':' to follow the name of the property " ++ Text.inTicks key)
    let e ← rules.expression
    if !(← accept .comma) then
      if !(← check .rightBrace) then
        failUnlessLexed .missingToken
          (Text.lit "Expecting ',' to separate the items of this object map literal")
    mapEntries n ((key, e) :: found)

def mapLiteral : Parse Expr := do
  let (_, pos) ← advance
  return .map pos (← mapEntries rules ((← remaining) + 1) [])

def path : Nat → List Text → Text → Parse (List Text × Text)
  | 0, _, _ => throw .exhausted
  | n + 1, modules, name => do
    if ← accept .doubleColon then
      let next ← match ← identifier? with
        | some next => pure (some next)
        | none => service?
      match next with
      | some next =>
        let _ ← advance
        path n (modules ++ [name]) next
      | none =>
        fail .variableExpected (Text.lit "Expecting name of a variable or function after '::'")
    else return (modules, name)

def named (pos : Position) (first : Text) : Parse Expr := do
  let (modules, name) ← path ((← remaining) + 1) [] first
  if ← check .leftParen then
    return .call pos name modules (← arguments rules name) false
  else
    if modules.isEmpty then use name
    return .var pos name modules

def closureParams : Nat → List Text → Parse (List Text)
  | 0, _ => throw .exhausted
  | n + 1, params => do
    if ← accept .pipe then return params
    match ← identifier? with
    | none =>
      failUnlessLexed .variableExpected (Text.lit "Expecting name of a closure parameter")
    | some param =>
      let (_, paramPos) ← advance
      if params.contains param then
        failAt paramPos .fnDuplicatedParam
          (Text.lit "Duplicated parameter " ++ Text.inTicks param ++ Text.lit " for function ''")
      if !(← accept .comma) then
        if !(← check .pipe) then
          fail .missingToken
            (Text.lit "Expecting '|' to close the parameters list of this closure")
      closureParams n (params ++ [param])

/-- A closure. What it captures is captured by the body around it as well, and comes first among
its parameters. -/
def closure : Parse Expr := do
  let (token, pos) ← advance
  let params ← match token with
    | .symbol .or => pure []
    | _ => closureParams ((← remaining) + 1) []
  let bodyPos ← currentPos
  let (body, inner) ← inBody { locals := params, allowThis := true } rules.statement
  let name := closureName (← freshClosure)
  define {
    name := name, access := .exposed, params := inner.captured ++ params,
    body := body.toList, bodyPos := bodyPos, pos := pos }
  inner.captured.forM use
  return .closure pos name inner.captured

/-- A token that names a function to be called right away, as a call. -/
def wordCall (pos : Position) (name : Text) : Parse Expr := do
  let _ ← advance
  return .call pos name [] (← arguments rules name) false

def isOpenParen : Token → Bool
  | .symbol .leftParen => true
  | _ => false

def primary : Parse Expr := do
  let pos ← currentPos
  match ← current with
  | .integer n => let _ ← advance; return .int pos n
  | .float f => let _ ← advance; return .float pos f
  | .char c => let _ ← advance; return .char pos c
  | .string t => let _ ← advance; return .string pos t
  | .symbol .kwTrue => let _ ← advance; return .bool pos true
  | .symbol .kwFalse => let _ ← advance; return .bool pos false
  | .symbol .leftParen =>
    let _ ← advance
    if ← accept .rightParen then return .unit pos
    let e ← rules.expression
    expect .rightParen (Text.lit "Expecting ')' for a matching '(' in this expression")
    return e
  | .symbol .leftBracket => arrayLiteral rules
  | .symbol .mapStart => mapLiteral rules
  | .symbol .leftBrace =>
    if !settings.allowBlock then unexpected
    let (blockPos, body) ← rules.block
    return .block blockPos body
  | .symbol .kwIf =>
    if !settings.allowBranch then unexpected
    rules.branch
  | .symbol .pipe | .symbol .or =>
    if !settings.allowClosures then unexpected
    closure rules
  | .identifier name =>
    let _ ← advance
    named rules pos name
  | .custom name =>
    if isOpenParen (← second) then wordCall rules pos name else unexpected
  | .reserved name =>
    if name = Reserved.this then
      if !(← get).body.allowThis then unexpected
      let _ ← advance
      return .this pos
    else if (Service.ofText? name).isSome && isOpenParen (← second) then wordCall rules pos name
    else unexpected
  | _ => unexpected

def checkIndex (e : Expr) : Parse Unit :=
  match e with
  | .int pos n =>
    if n.val < 0 then
      failAt pos .malformedIndexExpr
        (Text.lit "Array access expects non-negative index: " ++ n.text ++ Text.lit " < 0")
    else return ()
  | .float pos _ =>
    failAt pos .malformedIndexExpr (Text.lit "Array access expects integer index, not a float")
  | .bool pos _ =>
    failAt pos .malformedIndexExpr (Text.lit "Array access expects integer index, not a boolean")
  | .char pos _ =>
    failAt pos .malformedIndexExpr (Text.lit "Array access expects integer index, not a character")
  | .unit pos =>
    failAt pos .malformedIndexExpr (Text.lit "Array access expects integer index, not ()")
  | _ => return ()

def memberName : Parse Text := do
  match ← current with
  | .identifier name | .custom name => return name
  | .reserved name =>
    if (Service.ofText? name).isSome then return name
    else fail .propertyExpected (Text.lit "Expecting name of a property")
  | _ => fail .propertyExpected (Text.lit "Expecting name of a property")

def suffixes : Nat → Expr → Parse Expr
  | 0, _ => throw .exhausted
  | n + 1, e => do
    let pos ← currentPos
    if ← accept .leftBracket then
      let index ← rules.expression
      checkIndex index
      expect .rightBracket (Text.lit "Expecting ']' to close the index expression")
      suffixes n (.index pos e index)
    else if ← accept .period then
      let name ← memberName
      let _ ← advance
      if ← check .leftParen then
        suffixes n (.method pos e name (← arguments rules name))
      else suffixes n (.property pos e name)
    else return e

def operand : Parse Expr := do
  let e ← primary settings rules
  suffixes rules ((← remaining) + 1) e

def operatorCall (pos : Position) (name : Text) (args : List Expr) : Expr :=
  .call pos name [] args true

/-- A minus sign is taken into a number; the least integer has no opposite. -/
def negated (pos : Position) : Expr → Expr
  | .int intPos n =>
    match Fixed.ofInt? .i64 (-n.val) with
    | some m => .int pos m
    | none => operatorCall pos (Text.lit "-") [.int intPos n]
  | .float _ f => .float pos (-f)
  | e => operatorCall pos (Text.lit "-") [e]

def affirmed (pos : Position) : Expr → Expr
  | .int intPos n => .int intPos n
  | .float floatPos f => .float floatPos f
  | e => operatorCall pos (Text.lit "+") [e]

def unary : Parse Expr := nested settings do
  let pos ← currentPos
  match ← current with
  | .symbol .unaryMinus | .symbol .minus =>
    let _ ← advance
    return negated pos (← rules.unary)
  | .symbol .unaryPlus | .symbol .plus =>
    let _ ← advance
    return affirmed pos (← rules.unary)
  | .symbol .bang =>
    let _ ← advance
    return operatorCall pos (Text.lit "!") [← rules.unary]
  | _ => operand settings rules

def combine (op : Token) (pos : Position) (left right : Expr) : Expr :=
  match op with
  | .symbol .and => .logical pos true left right
  | .symbol .or => .logical pos false left right
  | .symbol .kwIn => .member pos left right
  | op => operatorCall pos op.text [left, right]

def isPeriod : Token → Bool
  | .symbol .period => true
  | _ => false

/-- Binary operators that bind at least as tightly as `least`, after their left operand. Operators
of equal precedence group to the left unless they bind to the right. -/
def binary : Nat → Nat → Expr → Parse Expr
  | 0, _, _ => throw .exhausted
  | n + 1, least, left => do
    let token ← current
    let precedence := token.precedence settings.operators
    if precedence = 0 ∨ precedence < least ∨ isPeriod token then return left
    let (op, pos) ← advance
    let right ← rules.unary
    let next ← current
    let nextPrecedence := next.precedence settings.operators
    let right ←
      if isPeriod next then pure right
      else if precedence < nextPrecedence then binary n (precedence + 1) right
      else if precedence = nextPrecedence ∧ op.bindsRight then binary n precedence right
      else pure right
    binary n least (combine op pos left right)

def expression : Parse Expr := do
  let left ← unary settings rules
  binary settings rules ((← remaining) + 1) 1 left

end Scripting.Grammar
