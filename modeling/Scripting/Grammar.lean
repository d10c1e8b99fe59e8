import Scripting.Grammar.Statement

/-
Parsing a list of tokens into a script. The rules of the grammar contain each other, so they are
tied together with a bound on their nesting: at most two rules are entered for each token that is
taken, and the number of tokens is bound enough.
-/
namespace Scripting.Grammar

variable (settings : Settings)

mutual

def expressionAt : Nat → Parse Expr
  | 0 => throw .exhausted
  | n + 1 => expression settings
      ⟨expressionAt n, unaryAt n, statementAt n, blockAt n, branchAt n⟩

def unaryAt : Nat → Parse Expr
  | 0 => throw .exhausted
  | n + 1 => unary settings
      ⟨expressionAt n, unaryAt n, statementAt n, blockAt n, branchAt n⟩

def statementAt : Nat → Parse (Option Stmt)
  | 0 => throw .exhausted
  | n + 1 => statement settings
      ⟨expressionAt n, unaryAt n, statementAt n, blockAt n, branchAt n⟩ false

def blockAt : Nat → Parse (Position × List Stmt)
  | 0 => throw .exhausted
  | n + 1 => block settings
      ⟨expressionAt n, unaryAt n, statementAt n, blockAt n, branchAt n⟩

def branchAt : Nat → Parse Expr
  | 0 => throw .exhausted
  | n + 1 => branch settings
      ⟨expressionAt n, unaryAt n, statementAt n, blockAt n, branchAt n⟩

end

/-- A nesting of the rules that no script with this many tokens reaches. -/
def nestingBound (tokens : Nat) : Nat := 2 * (tokens + 1)

def rulesAt (n : Nat) : Rules :=
  ⟨expressionAt settings n, unaryAt settings n, statementAt settings n, blockAt settings n,
    branchAt settings n⟩

def topStatements (rules : Rules) : Nat → List Stmt → Parse (List Stmt)
  | 0, _ => throw .exhausted
  | n + 1, found => do
    if ← atEnd then return found.reverse
    let stmt ← statement settings rules true
    let done ← statementEnd stmt none
    let found := stmt.toList ++ found
    if done then return found.reverse else topStatements rules n found

def script : Parse Script := do
  let tokens ← remaining
  let statements ← topStatements settings (rulesAt settings (nestingBound tokens)) (tokens + 1) []
  return ⟨statements, (← get).functions⟩

def singleExpression : Parse Script := do
  let pos ← currentPos
  let e ← expression settings (rulesAt settings (nestingBound (← remaining)))
  if !(← atEnd) then unexpected
  return ⟨[.expr pos e], (← get).functions⟩

/-- The state at the start of a token list. Nothing after the first end token counts; without one
the script ends at its last token. -/
def State.start (tokens : List PlacedToken) (nextClosure : Nat) : State :=
  let endPos := match tokens.find? (·.1.isEof), tokens.getLast? with
    | some (_, pos), _ => pos
    | none, some (_, pos) => pos
    | none, none => Position.start
  { rest := tokens.takeWhile (!·.1.isEof), endPos, nextClosure }

/-- Parse a script or a single expression. Also gives the number of the next closure, which moves
on whether or not the parse succeeds. -/
def parse (asExpression : Bool) (tokens : List PlacedToken) (nextClosure : Nat) :
    Except Stop Script × Nat :=
  let p := if asExpression then singleExpression settings else script settings
  match p (State.start tokens nextClosure) with
  | .ok script s => (.ok script, s.nextClosure)
  | .error stop s => (.error stop, s.nextClosure)

end Scripting.Grammar
