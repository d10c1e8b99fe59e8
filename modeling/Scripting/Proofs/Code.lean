import Scripting.Module

/-
Rules for code. A rule says what a single expression or statement may look like, also depending on
whether it stands inside a loop of its function; code obeys it if all its parts do.
-/
namespace Scripting

def Expr.isPart : Expr → Bool
  | .index .. | .property .. => true
  | _ => false

inductive Code where
  | expr (e : Expr)
  | stmt (s : Stmt)

namespace Code

def parts : Code → List Code
  | expr (.array _ items) => items.map expr
  | expr (.map _ entries) => entries.map fun e => expr e.2
  | expr (.call _ _ _ args _) => args.map expr
  | expr (.method _ object _ args) => expr object :: args.map expr
  | expr (.property _ object _) => [expr object]
  | expr (.index _ object index) => [expr object, expr index]
  | expr (.logical _ _ left right) => [expr left, expr right]
  | expr (.member _ left right) => [expr left, expr right]
  | expr (.block _ body) => body.map stmt
  | expr (.branch _ condition yes no) => expr condition :: expr yes :: no.toList.map expr
  | expr _ => []
  | stmt (.expr _ e) => [expr e]
  | stmt (.declare _ _ _ value) => value.toList.map expr
  | stmt (.assign _ _ target value) => [expr target, expr value]
  | stmt (.loop _ condition _) => condition.toList.map expr
  | stmt (.each _ _ items _) => [expr items]
  | stmt (.returnValue _ value) => value.toList.map expr
  | stmt (.throwValue _ value) => value.toList.map expr
  | stmt (.importModule _ path _) => [expr path]
  | stmt _ => []

def turns : Code → List Code
  | stmt (.loop _ _ body) => [expr body]
  | stmt (.each _ _ _ body) => [expr body]
  | _ => []

end Code

/-- What an expression or a statement may look like, inside or outside of a loop. -/
abbrev Rule := Bool → Code → Prop

/-- Code obeys a rule if it does so itself and all its parts do. -/
inductive Obeys (rule : Rule) : Bool → Code → Prop where
  | intro {looping : Bool} {c : Code} (here : rule looping c)
      (parts : ∀ p ∈ c.parts, Obeys rule looping p) (turns : ∀ p ∈ c.turns, Obeys rule true p) :
      Obeys rule looping c

theorem obeys_iff {rule : Rule} {looping : Bool} {c : Code} : Obeys rule looping c ↔
    rule looping c ∧ (∀ p ∈ c.parts, Obeys rule looping p) ∧ ∀ p ∈ c.turns, Obeys rule true p :=
  ⟨fun | .intro here parts turns => ⟨here, parts, turns⟩, fun h => .intro h.1 h.2.1 h.2.2⟩

namespace Obeys

variable {rule rule' : Rule} {looping : Bool} {c : Code}

theorem here (h : Obeys rule looping c) : rule looping c := (obeys_iff.mp h).1

theorem parts (h : Obeys rule looping c) : ∀ p ∈ c.parts, Obeys rule looping p := (obeys_iff.mp h).2.1

theorem turns (h : Obeys rule looping c) : ∀ p ∈ c.turns, Obeys rule true p := (obeys_iff.mp h).2.2

theorem mono (weaker : ∀ looping c, rule looping c → rule' looping c) (h : Obeys rule looping c) :
    Obeys rule' looping c := by
  induction h with
  | intro here parts turns inParts inTurns => exact .intro (weaker _ _ here) inParts inTurns

theorem and (h : Obeys rule looping c) (h' : Obeys rule' looping c) :
    Obeys (fun looping c => rule looping c ∧ rule' looping c) looping c := by
  induction h with
  | intro here parts turns inParts inTurns =>
    exact .intro ⟨here, h'.here⟩ (fun p hp => inParts p hp (h'.parts p hp))
      (fun p hp => inTurns p hp (h'.turns p hp))

end Obeys

def Code.follows (check : Code → Bool) : Nat → Code → Bool
  | 0, _ => false
  | depth + 1, c => check c && c.parts.all (follows check depth) && c.turns.all (follows check depth)

theorem Obeys.of_follows {check : Code → Bool} {rule : Rule}
    (right : ∀ looping c, check c = true → rule looping c) {depth : Nat} {looping : Bool} {c : Code}
    (h : c.follows check depth = true) : Obeys rule looping c := by
  induction depth generalizing looping c with
  | zero => cases h
  | succ depth ih =>
    simp only [Code.follows, Bool.and_eq_true, List.all_eq_true] at h
    obtain ⟨⟨here, parts⟩, turns⟩ := h
    exact .intro (right _ _ here) (fun p hp => ih (parts p hp)) fun p hp => ih (turns p hp)

section Always

variable {rule : Rule}

mutual

theorem Expr.obeys (always : ∀ looping c, rule looping c) (e : Expr) (looping : Bool) : Obeys rule looping (.expr e) := by
  refine .intro (always _ _) ?_ (by simp [Code.turns])
  match e with
  | .array _ items => exact Expr.obeysAll always items looping
  | .map _ entries => exact Expr.obeysEntries always entries looping
  | .call _ _ _ args _ => exact Expr.obeysAll always args looping
  | .method _ object _ args =>
    exact List.forall_mem_cons.mpr ⟨Expr.obeys always object looping, Expr.obeysAll always args looping⟩
  | .property _ object _ => simpa [Code.parts] using Expr.obeys always object looping
  | .index _ object index =>
    simpa [Code.parts] using ⟨Expr.obeys always object looping, Expr.obeys always index looping⟩
  | .logical _ _ left right =>
    simpa [Code.parts] using ⟨Expr.obeys always left looping, Expr.obeys always right looping⟩
  | .member _ left right =>
    simpa [Code.parts] using ⟨Expr.obeys always left looping, Expr.obeys always right looping⟩
  | .block _ body => exact Stmt.obeysAll always body looping
  | .branch _ condition yes no =>
    refine List.forall_mem_cons.mpr ⟨Expr.obeys always condition looping, ?_⟩
    exact List.forall_mem_cons.mpr ⟨Expr.obeys always yes looping, Expr.obeysOption always no looping⟩
  | .int .. | .float .. | .string .. | .char .. | .bool .. | .unit _ | .var .. | .this _
  | .closure .. => simp [Code.parts]

theorem Stmt.obeys (always : ∀ looping c, rule looping c) (s : Stmt) (looping : Bool) : Obeys rule looping (.stmt s) := by
  refine .intro (always _ _) ?_ ?_
  · match s with
    | .expr _ e => simpa [Code.parts] using Expr.obeys always e looping
    | .declare _ _ _ value => exact Expr.obeysOption always value looping
    | .assign _ _ target value =>
      simpa [Code.parts] using ⟨Expr.obeys always target looping, Expr.obeys always value looping⟩
    | .loop _ condition _ => exact Expr.obeysOption always condition looping
    | .each _ _ items _ => simpa [Code.parts] using Expr.obeys always items looping
    | .returnValue _ value => exact Expr.obeysOption always value looping
    | .throwValue _ value => exact Expr.obeysOption always value looping
    | .importModule _ path _ => simpa [Code.parts] using Expr.obeys always path looping
    | .breakLoop _ | .continueLoop _ | .exportNames .. => simp [Code.parts]
  · match s with
    | .loop _ _ body => simpa [Code.turns] using Expr.obeys always body true
    | .each _ _ _ body => simpa [Code.turns] using Expr.obeys always body true
    | .expr .. | .declare .. | .assign .. | .returnValue .. | .throwValue .. | .importModule ..
    | .breakLoop _ | .continueLoop _ | .exportNames .. => simp [Code.turns]

theorem Expr.obeysAll (always : ∀ looping c, rule looping c) (es : List Expr) (looping : Bool) :
    ∀ c ∈ es.map Code.expr, Obeys rule looping c := by
  match es with
  | [] => simp
  | e :: rest => exact List.forall_mem_cons.mpr ⟨Expr.obeys always e looping, Expr.obeysAll always rest looping⟩

theorem Expr.obeysEntries (always : ∀ looping c, rule looping c) (es : List (Text × Expr)) (looping : Bool) :
    ∀ c ∈ es.map fun e => Code.expr e.2, Obeys rule looping c := by
  match es with
  | [] => simp
  | (_, e) :: rest =>
    exact List.forall_mem_cons.mpr ⟨Expr.obeys always e looping, Expr.obeysEntries always rest looping⟩

theorem Expr.obeysOption (always : ∀ looping c, rule looping c) (e : Option Expr) (looping : Bool) :
    ∀ c ∈ e.toList.map Code.expr, Obeys rule looping c := by
  match e with
  | none => simp
  | some e => simpa using Expr.obeys always e looping

theorem Stmt.obeysAll (always : ∀ looping c, rule looping c) (ss : List Stmt) (looping : Bool) :
    ∀ c ∈ ss.map Code.stmt, Obeys rule looping c := by
  match ss with
  | [] => simp
  | s :: rest => exact List.forall_mem_cons.mpr ⟨Stmt.obeys always s looping, Stmt.obeysAll always rest looping⟩

end

end Always

def ScriptFn.Obeys (rule : Rule) (f : ScriptFn) : Prop :=
  ∀ s ∈ f.body, Scripting.Obeys rule false (.stmt s)

structure Script.Obeys (rule : Rule) (script : Script) : Prop where
  statements : ∀ s ∈ script.statements, Scripting.Obeys rule false (.stmt s)
  functions : ∀ f ∈ script.functions, f.2.Obeys rule

namespace Script.Obeys

variable {rule rule' : Rule} {script : Script}

theorem mono (weaker : ∀ looping c, rule looping c → rule' looping c) (h : script.Obeys rule) :
    script.Obeys rule' where
  statements s hs := (h.statements s hs).mono weaker
  functions f hf s hs := (h.functions f hf s hs).mono weaker

theorem and (h : script.Obeys rule) (h' : script.Obeys rule') :
    script.Obeys fun looping c => rule looping c ∧ rule' looping c where
  statements s hs := (h.statements s hs).and (h'.statements s hs)
  functions f hf s hs := (h.functions f hf s hs).and (h'.functions f hf s hs)

end Script.Obeys

def Script.follows (check : Code → Bool) (depth : Nat) (script : Script) : Bool :=
  (script.statements ++ script.functions.flatMap (·.2.body)).all fun s =>
    (Code.stmt s).follows check depth

theorem Script.obeys_of_follows {check : Code → Bool} {rule : Rule}
    (right : ∀ looping c, check c = true → rule looping c) {depth : Nat} {script : Script}
    (h : script.follows check depth = true) : script.Obeys rule := by
  have each := List.all_eq_true.mp h
  refine ⟨fun s hs => .of_follows right (each s (List.mem_append_left _ hs)), fun f hf s hs => ?_⟩
  exact .of_follows right (each s (List.mem_append_right _ (List.mem_flatMap.mpr ⟨f, hf, hs⟩)))

end Scripting
