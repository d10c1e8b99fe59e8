import Scripting.Engine
import Scripting.Proofs.Parsing.Statement

/-
Single expressions. The parser only looks at what it is not to accept when it reads an operand, and
still nothing of it is found anywhere in the expression: there is no other way to get to a block, a
branch or a closure.
-/
namespace Scripting

def Code.Simple : Code → Prop
  | .expr (.block ..) | .expr (.branch ..) | .expr (.closure ..) | .stmt _ => False
  | .expr _ => True

namespace Grammar

variable {settings : Settings}

theorem Builds.simple (noBlock : settings.allowBlock = false) {literals : Token → Prop} {s : State}
    {e : Expr} (h : Builds settings literals s e) : (Code.expr e).Simple := by
  cases e with
  | block => simp [Builds, noBlock] at h
  | branch | closure => exact h.elim
  | _ => trivial

def StaysSimple (_ : Unit) (s : State) (notes : List (Bool × Code)) : Prop :=
  s.functions = [] ∧ ∀ note ∈ notes, ∀ looping, Obeys (fun _ => Code.Simple) looping note.2

def simple (noBlock : settings.allowBlock = false) : Ledger settings where
  toShorthand := outline
  ι := Unit
  holds := StaysSimple
  literals _ := True
  known _ _ _ := trivial
  skip skips plain := ⟨skips.functions.trans plain.1, plain.2⟩
  sink _ plain := plain
  use x before := by
    intro since s a t plain eq
    cases eq
    rwa [← List.append_nil before] at plain
  declare x before := by
    intro since s a t plain eq
    cases eq
    rwa [← List.append_nil before] at plain
  inScope inside before := by
    intro since s a t plain eq
    obtain ⟨u, read, rfl⟩ := inScope_cases eq
    obtain ⟨none, own⟩ := inside () s a u ⟨plain.1, List.forall_mem_nil _⟩ read
    exact ⟨none, List.forall_mem_append.mpr ⟨plain.2, own⟩⟩
  inLoop inside before := by
    intro since s a t plain eq
    obtain ⟨u, read, rfl⟩ := inLoop_cases eq
    obtain ⟨none, own⟩ := inside ()
      { s with body := { s.body with loopDepth := s.body.loopDepth + 1 } } a u
      ⟨plain.1, List.forall_mem_nil _⟩ read
    refine ⟨none, List.forall_mem_append.mpr ⟨plain.2, fun note there => ?_⟩⟩
    obtain ⟨inner, mem, rfl⟩ := List.mem_map.mp there
    exact own inner mem
  number _ plain := ⟨plain.1, (List.forall_mem_append.mp plain.2).1⟩
  builds {_ s before e} built plain := by
    obtain ⟨none, claims⟩ := plain
    have parts := (List.forall_mem_append.mp claims).2
    rw [outline_made] at parts
    refine ⟨none, List.forall_mem_append.mpr ⟨(List.forall_mem_append.mp claims).1, ?_⟩⟩
    refine List.forall_mem_singleton.mpr fun looping => .intro (built.simple noBlock) ?_ ?_
    · exact fun p there => parts _ (List.mem_append_left _ (List.mem_map_of_mem there)) looping
    · exact fun p there => parts _ (List.mem_append_right _ (List.mem_map_of_mem there)) true

/-- The rules that simple expressions are read with: what is not accepted need not be covered. -/
theorem simple_covers (noBlock : settings.allowBlock = false)
    (noBranch : settings.allowBranch = false) (noClosure : settings.allowClosures = false) (n : Nat) :
    (simple noBlock).Covers (rulesAt settings n) := by
  have never : ∀ {b : Bool} {P : Prop}, b = false → b = true → P := by
    rintro b P rfl no
    cases no
  induction n with
  | zero =>
    exact ⟨fun _ => (Fails.stop _).carries _, fun _ => (Fails.stop _).carries _, never noBlock,
      never noBranch, never noClosure⟩
  | succ n ih =>
    exact ⟨fun _ => expression_carries ih, fun _ => unary_carries ih, never noBlock, never noBranch,
      never noClosure⟩

theorem singleExpression_simple (noBlock : settings.allowBlock = false)
    (noBranch : settings.allowBranch = false) (noClosure : settings.allowClosures = false)
    {s t : State} (none : s.functions = []) {script : Script}
    (h : singleExpression settings s = .ok script t) :
    ∃ pos e, script.statements = [.expr pos e] ∧ Obeys (fun _ => Code.Simple) false (.expr e) ∧
      script.functions = [] := by
  obtain ⟨pos, _, placed, h₁⟩ := bind_cases h
  cases placed
  obtain ⟨n, _, counted, h₂⟩ := bind_cases h₁
  cases counted
  obtain ⟨e, u, read, h₃⟩ := bind_cases h₂
  have carries : (simple noBlock).CarriesExpr [] _ :=
    expression_carries (simple_covers noBlock noBranch noClosure (nestingBound s.rest.length))
  obtain ⟨noFunction, claims⟩ := carries () s e u ⟨none, List.forall_mem_nil _⟩ read
  obtain ⟨ended, v, atEnd, h₄⟩ := bind_cases h₃
  have skips := atEnd_quiet _ _ _ atEnd
  split at h₄
  · exact (unexpected_fails.bind _ _ _ _ h₄).elim
  · cases h₄
    exact ⟨_, e, rfl, claims _ (List.mem_singleton_self _) false, skips.functions.trans noFunction⟩

end Grammar

/-- Whatever is compiled as an expression is one statement, and that is an expression in which there
is no block, no branch and no closure, at any depth; and there are no functions. -/
theorem compiled_expressions_are_simple (engine : Engine) (pieces : List Text) (nextClosure : Nat)
    {script : Script} (accepted : (engine.compile true pieces nextClosure).1 = .ok script) :
    ∃ pos e, script.statements = [.expr pos e] ∧ Obeys (fun _ => Code.Simple) false (.expr e) ∧
      script.functions = [] := by
  simp only [Engine.compile, Grammar.parse, if_pos] at accepted
  split at accepted
  · next script' t ran =>
    cases accepted
    exact Grammar.singleExpression_simple rfl rfl rfl rfl ran
  · cases accepted

/-- Operands, arguments, receivers, indices and the items of arrays and maps in each other. -/
def intricateSource : Text :=
  Text.lit "-f(a[i + 1], [x, #\x7bkey: m::y\x7d]).size() * (2 in [1]).b && !c"

def intricateScript : Script := (Engine.standard.compile true [intricateSource] 0).1.toOption.getD {}

theorem compiled_expressions_are_simple_intricate :
    (Engine.standard.compile true [intricateSource] 0).1 = .ok intricateScript ∧
      ∃ pos e, intricateScript.statements = [.expr pos e] ∧
        Obeys (fun _ => Code.Simple) false (.expr e) ∧ intricateScript.functions = [] := by
  have accepted : (Engine.standard.compile true [intricateSource] 0).1 = .ok intricateScript :=
    Grammar.ok_of_isSome (by decide +kernel)
  exact ⟨accepted, compiled_expressions_are_simple Engine.standard [intricateSource] 0 accepted⟩

end Scripting
