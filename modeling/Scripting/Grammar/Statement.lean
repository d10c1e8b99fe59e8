import Scripting.Grammar.Expression

/-
Statements, blocks and function definitions.
-/
namespace Scripting.Grammar

variable (settings : Settings) (rules : Rules)

/-- Is the list of statements finished? Without a closing symbol it ends with the script. -/
def closed (closer : Option Symbol) : Parse Bool := do
  if ← atEnd then return true
  match closer with
  | some symbol => check symbol
  | none => return false

/-- The end of a statement: a semicolon, unless the list is finished or the statement ends in a
block. Says whether the list is finished. -/
def statementEnd (stmt : Option Stmt) (closer : Option Symbol) : Parse Bool := do
  if ← closed closer then return true
  if ← accept .semicolon then closed closer
  else if stmt.all (·.endsInBlock) then return false
  else failUnlessLexed .missingToken (Text.lit "Expecting ';' to terminate this statement")

def blockStatements : Nat → List Stmt → Parse (List Stmt)
  | 0, _ => throw .exhausted
  | n + 1, found => do
    if ← check .rightBrace then return found.reverse
    if ← atEnd then
      fail .missingToken (Text.lit "Expecting '\x7d' to end this statement block")
    let stmt ← rules.statement
    let done ← statementEnd stmt (some .rightBrace)
    let found := stmt.toList ++ found
    if done then return found.reverse else blockStatements n found

/-- Statements in braces; what they declare goes out of scope at the end. -/
def block : Parse (Position × List Stmt) := nested settings do
  let pos ← currentPos
  expect .leftBrace (Text.lit "Expecting '\x7b' to start a statement block")
  let body ← inScope do
    let body ← blockStatements rules ((← remaining) + 1) []
    expect .rightBrace (Text.lit "Expecting '\x7d' to end this statement block")
    return body
  return (pos, body)

def blockExpr : Parse Expr := do
  let (pos, body) ← block settings rules
  return .block pos body

def branch : Parse Expr := do
  let (_, pos) ← advance
  let condition ← expression settings rules
  let yes ← blockExpr settings rules
  if ← accept .kwElse then
    if ← check .kwIf then return .branch pos condition yes (some (← rules.branch))
    else return .branch pos condition yes (some (← blockExpr settings rules))
  else return .branch pos condition yes none

def optionalValue : Parse (Option Expr) := do
  if (← check .semicolon) || (← check .rightBrace) || (← atEnd) then return none
  else return some (← expression settings rules)

def isPlace : Expr → Bool
  | .var _ _ path => path.isEmpty
  | .this _ | .index .. | .property .. => true
  | _ => false

def expressionStatement : Parse Stmt := do
  let pos ← currentPos
  let e ← expression settings rules
  match ← current with
  | .symbol s =>
    if !s.isAssignment then return .expr pos e
    let opPos ← currentPos
    if !isPlace e then
      failAt opPos .assignmentToInvalidLhs (Text.lit "Cannot assign to this expression")
    let _ ← advance
    let value ← expression settings rules
    return .assign opPos (if s = .equals then [] else s.text) e value
  | _ => return .expr pos e

/-- A declaration from its word `let` or `const`. The variable is in scope after its value. -/
def declaration (isConst : Bool) : Parse Stmt := do
  let (_, pos) ← advance
  match ← identifier? with
  | none => failUnlessLexed .variableExpected (Text.lit "Expecting name of a variable")
  | some name =>
    let _ ← advance
    let value ← if ← accept .equals then some <$> expression settings rules else pure none
    declare name
    return .declare pos isConst name value

def optionalAlias (missing : Text) : Parse (Option Text) := do
  if ← accept .kwAs then
    match ← identifier? with
    | none => fail .variableExpected missing
    | some name =>
      let _ ← advance
      return some name
  else return none

def importStatement : Parse Stmt := do
  let (_, pos) ← advance
  let target ← expression settings rules
  let asName ← optionalAlias (Text.lit "Expecting name of the imported module")
  return .importModule pos target asName

/-- The names of an export, which must differ as they are seen from outside. -/
def exportNames : Nat → List (Text × Option Text) → Parse (List (Text × Option Text))
  | 0, _ => throw .exhausted
  | n + 1, found => do
    match ← identifier? with
    | none => fail .variableExpected (Text.lit "Expecting name of a variable to export")
    | some name =>
      let (_, namePos) ← advance
      use name
      let asName ← optionalAlias (Text.lit "Expecting alias of the exported variable")
      let exported := asName.getD name
      if found.any fun entry => entry.2.getD entry.1 == exported then
        failAt namePos .duplicatedExport
          (Text.lit "Duplicated variable name " ++ Text.inTicks exported ++
            Text.lit " in export statement")
      let found := found ++ [(name, asName)]
      if ← accept .comma then exportNames n found else return found

def exportStatement : Parse Stmt := do
  let (_, pos) ← advance
  return .exportNames pos (← exportNames ((← remaining) + 1) [])

def whileStatement : Parse Stmt := do
  let (_, pos) ← advance
  let condition ← expression settings rules
  return .loop pos (some condition) (← inLoop (blockExpr settings rules))

def loopStatement : Parse Stmt := do
  let (_, pos) ← advance
  return .loop pos none (← inLoop (blockExpr settings rules))

def forStatement : Parse Stmt := do
  let (_, pos) ← advance
  match ← identifier? with
  | none => fail .variableExpected (Text.lit "Expecting name of the loop variable")
  | some name =>
    let _ ← advance
    expect .kwIn (Text.lit "Expecting 'in' after the loop variable")
    let items ← expression settings rules
    let body ← inScope do
      declare name
      inLoop (blockExpr settings rules)
    return .each pos name items body

def functionParams (function : Text) : Nat → List Text → Parse (List Text)
  | 0, _ => throw .exhausted
  | n + 1, params => do
    if ← accept .rightParen then return params
    match ← identifier? with
    | none =>
      failUnlessLexed .variableExpected
        (Text.lit "Expecting a parameter name for function " ++ Text.inTicks function)
    | some param =>
      let (_, paramPos) ← advance
      if params.contains param then
        failAt paramPos .fnDuplicatedParam
          (Text.lit "Duplicated parameter " ++ Text.inTicks param ++ Text.lit " for function " ++
            Text.inTicks function)
      if !(← accept .comma) then
        if !(← check .rightParen) then
          fail .missingToken
            (Text.lit "Expecting ')' to close the parameters list of function " ++
              Text.inTicks function)
      functionParams function n (params ++ [param])

/-- The name of a function to be defined: also a host's operator, or a service word that scripts
may define anew. -/
def functionName : Parse Text := do
  match ← current with
  | .identifier name | .custom name => return name
  | .reserved name =>
    if (Service.ofText? name).any (·.isOverridable) then return name
    else fail .fnMissingName (Text.lit "Expecting name in function declaration")
  | _ => fail .fnMissingName (Text.lit "Expecting name in function declaration")

def functionDefinition (access : Access) : Parse Unit := do
  let (_, pos) ← advance
  let name ← functionName
  let _ ← advance
  if !(← accept .leftParen) then
    fail .fnMissingParams (Text.lit "Expecting parameters for function " ++ Text.inTicks name)
  let params ← functionParams name ((← remaining) + 1) []
  if (← get).functions.contains ⟨name, params.length⟩ then
    failAt pos .fnDuplicatedDefinition
      (Text.lit "Function " ++ Text.inTicks name ++ Text.lit " with " ++
        Text.ofNat params.length ++ Text.lit " parameter(s) is already defined")
  if !(← check .leftBrace) then
    fail .fnMissingBody
      (Text.lit "Expecting body statement block for function " ++ Text.inTicks name)
  let ((bodyPos, body), _) ←
    inBody { locals := params, allowThis := true } (block settings rules)
  define { name, access, params, body, bodyPos, pos }

def loopControl (word : Text) (stmt : Position → Stmt) : Parse Stmt := do
  let pos ← currentPos
  if (← get).body.loopDepth = 0 then
    failAt pos .loopBreak (Text.inTicks word ++ Text.lit " can only be used inside a loop")
  let _ ← advance
  return stmt pos

def definition (isGlobal : Bool) : Parse Unit := do
  if !isGlobal then
    fail .wrongFnDefinition
      (Text.lit ("Function definitions must be at global level and cannot be inside a block or " ++
        "another function"))
  if ← accept .kwPrivate then
    if !(← check .kwFn) then fail .missingToken (Text.lit "Expecting 'fn' after 'private'")
    functionDefinition settings rules .hidden
  else functionDefinition settings rules .exposed

/-- A statement. An empty one and a function definition leave nothing to run. -/
def statement (isGlobal : Bool) : Parse (Option Stmt) := do
  let pos ← currentPos
  match ← current with
  | .symbol .semicolon => return none
  | .symbol .leftBrace => return some (.expr pos (← blockExpr settings rules))
  | .symbol .kwIf => return some (.expr pos (← branch settings rules))
  | .symbol .kwWhile => some <$> whileStatement settings rules
  | .symbol .kwLoop => some <$> loopStatement settings rules
  | .symbol .kwFor => some <$> forStatement settings rules
  | .symbol .kwBreak => some <$> loopControl (Text.lit "break") .breakLoop
  | .symbol .kwContinue => some <$> loopControl (Text.lit "continue") .continueLoop
  | .symbol .kwReturn =>
    let _ ← advance
    return some (.returnValue pos (← optionalValue settings rules))
  | .symbol .kwThrow =>
    let _ ← advance
    return some (.throwValue pos (← optionalValue settings rules))
  | .symbol .kwLet => some <$> declaration settings rules false
  | .symbol .kwConst => some <$> declaration settings rules true
  | .symbol .kwImport => some <$> importStatement settings rules
  | .symbol .kwExport =>
    if !isGlobal then
      fail .wrongExport (Text.lit "Export statement can only appear at global level")
    some <$> exportStatement
  | .symbol .kwFn | .symbol .kwPrivate =>
    definition settings rules isGlobal
    return none
  | _ => some <$> expressionStatement settings rules

end Scripting.Grammar
