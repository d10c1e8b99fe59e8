import Scripting.Eval.Import

/-
Evaluation as a whole. Statements, expressions and calls contain each other without bound, so they
are tied together by fuel: every level works with one unit less, and running out of it is an outcome
of its own. The entry points start with a supply that no script in practice uses up.
-/
namespace Scripting.Eval

variable (engine : Engine)

def execStmt (ev : Evaluator) (stmt : Stmt) : Run Value := do
  tick engine stmt.pos
  match stmt with
  | .expr _ e => ev.eval e
  | .declare pos isConst name value =>
    execDeclare engine ev pos isConst name value
    return .unit
  | .assign pos operator target value =>
    execAssign engine ev pos operator target value
    return .unit
  | .loop _ condition body =>
    repeatWhile ev condition body ev.fuel
    return .unit
  | .each _ name items body =>
    execEach engine ev name items body
    return .unit
  | .breakLoop _ => throw .breaking
  | .continueLoop _ => throw .continuing
  | .returnValue _ value => throw (.returning (← optionalValue ev value))
  | .throwValue pos value =>
    let v ← optionalValue ev value
    let text ← if v.isUnit then pure [] else displayText ev v
    Run.fail (.runtime text) pos
  | .importModule _ path asName =>
    execImport engine ev path asName
    return .unit
  | .exportNames pos names =>
    execExport pos names
    return .unit

mutual

def evalAt : Nat → Expr → Run Value
  | 0, _ => throw .outOfFuel
  | n + 1, e => evalExpr engine
      ⟨n, Native.apply engine.arithmetic n, evalAt n, execAt n, callNamedAt n⟩ e

def execAt : Nat → Stmt → Run Value
  | 0, _ => throw .outOfFuel
  | n + 1, stmt => execStmt engine
      ⟨n, Native.apply engine.arithmetic n, evalAt n, execAt n, callNamedAt n⟩ stmt

def callNamedAt : Nat → Text → List Value → Bool → Position → Held (Option Value) Value
  | 0, _, _, _, _ => throw .outOfFuel
  | n + 1, name, args, exposedOnly, pos =>
    callNamed engine ⟨n, Native.apply engine.arithmetic n, evalAt n, execAt n, callNamedAt n⟩ name
      args exposedOnly pos

end

def evaluator (fuel : Nat) : Evaluator :=
  ⟨fuel, Native.apply engine.arithmetic fuel, evalAt engine fuel, execAt engine fuel,
    callNamedAt engine fuel⟩

end Scripting.Eval
