import Scripting.Proofs.Contract.Kind
import Scripting.Proofs.Parsing.Within

/-
How deep a script nests that a parser with a limit accepts. Reading something nested takes one level of
the limit, but chains are read by loops: operators, suffixes, and branches after `else` can follow each
other without end, and each makes the tree before it or after it a part of its own.
-/
namespace Scripting

mutual

/-- How deep an expression nests, when a step along a chain counts for `link`: a step to the left
operand of an operator, to what a suffix stands behind, or to the branch after `else`. -/
def Expr.nesting (link : Nat) : Expr → Nat
  | .array _ items => Expr.nestingAll link items
  | .map _ entries => Expr.nestingEntries link entries
  | .call _ _ _ args isOperator =>
    if isOperator then Expr.nestingOperands link args else Expr.nestingAll link args
  | .method _ object _ args => max (object.nesting link + link) (Expr.nestingAll link args)
  | .property _ object _ => object.nesting link + link
  | .index _ object index => max (object.nesting link + link) (index.nesting link + 1)
  | .logical _ _ left right => max (left.nesting link + link) (right.nesting link + 1)
  | .member _ left right => max (left.nesting link + link) (right.nesting link + 1)
  | .block _ body => Stmt.nestingAll link body
  | .branch _ condition yes none => max (condition.nesting link + 1) (yes.nesting link + 1)
  | .branch _ condition yes (some no) =>
    max (max (condition.nesting link + 1) (yes.nesting link + 1)) (no.nesting link + link)
  | _ => 0

def Expr.nestingAll (link : Nat) : List Expr → Nat
  | [] => 0
  | e :: more => max (e.nesting link + 1) (Expr.nestingAll link more)

def Expr.nestingEntries (link : Nat) : List (Text × Expr) → Nat
  | [] => 0
  | (_, e) :: more => max (e.nesting link + 1) (Expr.nestingEntries link more)

def Expr.nestingOperands (link : Nat) : List Expr → Nat
  | [left, right] => max (left.nesting link + link) (right.nesting link + 1)
  | args => Expr.nestingAll link args

def Stmt.nesting (link : Nat) : Stmt → Nat
  | .expr _ e => e.nesting link + 1
  | .declare _ _ _ (some value) => value.nesting link + 1
  | .assign _ _ target value => max (target.nesting link + 1) (value.nesting link + 1)
  | .loop _ none body => body.nesting link + 1
  | .loop _ (some condition) body => max (condition.nesting link + 1) (body.nesting link + 1)
  | .each _ _ items body => max (items.nesting link + 1) (body.nesting link + 1)
  | .returnValue _ (some value) => value.nesting link + 1
  | .throwValue _ (some value) => value.nesting link + 1
  | .importModule _ path _ => path.nesting link + 1
  | _ => 0

def Stmt.nestingAll (link : Nat) : List Stmt → Nat
  | [] => 0
  | s :: more => max (s.nesting link + 1) (Stmt.nestingAll link more)

end

variable {most : Nat}

theorem Expr.nestingAll_le {link : Nat} {es : List Expr} (h : ∀ e ∈ es, e.nesting link ≤ most) :
    Expr.nestingAll link es ≤ most + 1 := by
  induction es with
  | nil =>
    rw [Expr.nestingAll]
    exact Nat.zero_le _
  | cons e more ih =>
    obtain ⟨first, later⟩ := List.forall_mem_cons.mp h
    rw [Expr.nestingAll]
    exact Nat.max_le.mpr ⟨Nat.succ_le_succ first, ih later⟩

theorem Expr.nestingEntries_le {link : Nat} {es : List (Text × Expr)}
    (h : ∀ e ∈ es, e.2.nesting link ≤ most) : Expr.nestingEntries link es ≤ most + 1 := by
  induction es with
  | nil =>
    rw [Expr.nestingEntries]
    exact Nat.zero_le _
  | cons e more ih =>
    obtain ⟨first, later⟩ := List.forall_mem_cons.mp h
    rw [Expr.nestingEntries]
    exact Nat.max_le.mpr ⟨Nat.succ_le_succ first, ih later⟩

theorem Stmt.nestingAll_le {link : Nat} {ss : List Stmt} (h : ∀ s ∈ ss, s.nesting link ≤ most) :
    Stmt.nestingAll link ss ≤ most + 1 := by
  induction ss with
  | nil =>
    rw [Stmt.nestingAll]
    exact Nat.zero_le _
  | cons s more ih =>
    obtain ⟨first, later⟩ := List.forall_mem_cons.mp h
    rw [Stmt.nestingAll]
    exact Nat.max_le.mpr ⟨Nat.succ_le_succ first, ih later⟩

namespace Grammar

def State.Shallow (most : Nat) (s : State) : Prop :=
  ∀ f ∈ s.functions, ∀ stmt ∈ f.2.body, stmt.nesting 0 ≤ most

def Digs (most depth : Nat) {α : Type} (Q : α → Prop) (p : Parse α) : Prop :=
  ∀ s a t, s.Shallow most → s.depth = depth → p s = .ok a t →
    t.Shallow most ∧ t.depth = depth ∧ Q a

variable {depth : Nat} {α β : Type} {Q : α → Prop} {R : β → Prop}

namespace Digs

theorem give {a : α} (h : Q a) : Digs most depth Q (pure a) := by
  intro s b t shallow level eq
  cases eq
  exact ⟨shallow, level, h⟩

theorem stop (e : Stop) : Digs most depth Q (throw e) := by
  intro s b t _ _ eq
  cases eq

theorem bind {p : Parse α} {f : α → Parse β} (hp : Digs most depth Q p)
    (hf : ∀ a, Q a → Digs most depth R (f a)) : Digs most depth R (p >>= f) := by
  intro s b u shallow level eq
  obtain ⟨a, t, first, later⟩ := bind_cases eq
  obtain ⟨between, same, ha⟩ := hp s a t shallow level first
  exact hf a ha t b u between same later

theorem imp {Q' : α → Prop} {p : Parse α} (hp : Digs most depth Q p) (hQ : ∀ a, Q a → Q' a) :
    Digs most depth Q' p := by
  intro s a t shallow level eq
  obtain ⟨after, same, ha⟩ := hp s a t shallow level eq
  exact ⟨after, same, hQ a ha⟩

theorem map {p : Parse α} {f : α → β} (hp : Digs most depth Q p) (hf : ∀ a, Q a → R (f a)) :
    Digs most depth R (f <$> p) := by
  rw [map_eq_pure_bind]
  exact hp.bind fun a ha => give (hf a ha)

theorem still {p : Parse α} (h : ∀ s a t, p s = .ok a t → t.depth = s.depth ∧ t.functions = s.functions) :
    Digs most depth (fun _ => True) p := by
  intro s a t shallow level eq
  obtain ⟨same, functions⟩ := h s a t eq
  refine ⟨?_, same.trans level, trivial⟩
  unfold State.Shallow
  rw [functions]
  exact shallow

theorem get_bind {f : State → Parse β} (hf : ∀ s : State, s.Shallow most → Digs most depth R (f s)) :
    Digs most depth R (get >>= f) := by
  intro s a t shallow level eq
  exact hf s shallow s a t shallow level eq

end Digs

open Digs

theorem Fails.digs {p : Parse α} (h : Fails p) : Digs most depth Q p :=
  fun s a t _ _ eq => (h s a t eq).elim

theorem Quiet.digs {p : Parse α} (h : Quiet p) : Digs most depth (fun _ => True) p :=
  still fun s a t eq => ⟨(h s a t eq).depth, (h s a t eq).functions⟩

theorem Quiet.andDigs {p : Parse α} {f : α → Parse β} (hp : Quiet p)
    (hf : ∀ a, Digs most depth R (f a)) : Digs most depth R (p >>= f) :=
  hp.digs.bind fun a _ => hf a

theorem use_digs (name : Text) : Digs most depth (fun _ => True) (use name) := by
  refine still fun s a t eq => ?_
  cases eq
  exact ⟨rfl, rfl⟩

theorem useAll_digs (names : List Text) : Digs most depth (fun _ => True) (names.forM use) := by
  induction names with
  | nil => exact give trivial
  | cons name rest ih => exact (use_digs name).bind fun _ _ => ih

theorem declare_digs (name : Text) : Digs most depth (fun _ => True) (declare name) := by
  refine still fun s a t eq => ?_
  cases eq
  exact ⟨rfl, rfl⟩

theorem define_digs {f : ScriptFn} (h : ∀ stmt ∈ f.body, stmt.nesting 0 ≤ most) :
    Digs most depth (fun _ => True) (define f) := by
  intro s a t shallow level eq
  cases eq
  refine ⟨?_, level, trivial⟩
  intro g hg
  obtain rfl | old := Dict.mem_insert hg
  · exact h
  · exact shallow g old

theorem freshClosure_digs : Digs most depth (fun _ => True) freshClosure := by
  refine still fun s a t eq => ?_
  cases eq
  exact ⟨rfl, rfl⟩

theorem nested_digs {settings : Settings} (limited : 0 < settings.maxDepth) {p : Parse α}
    (h : depth < settings.maxDepth → Digs most (depth + 1) Q p) :
    Digs most depth Q (nested settings p) := by
  intro s a t shallow level eq
  obtain ⟨room, u, read, rfl⟩ := nested_cases eq
  have less : depth < settings.maxDepth := by omega
  obtain ⟨after, same, ha⟩ := h less { s with depth := s.depth + 1 } a u shallow (by simp [level]) read
  exact ⟨after, by simp [same], ha⟩

theorem inScope_digs {p : Parse α} (h : Digs most depth Q p) : Digs most depth Q (inScope p) := by
  intro s a t shallow level eq
  obtain ⟨u, read, rfl⟩ := inScope_cases eq
  exact h s a u shallow level read

theorem inBody_digs {p : Parse α} (h : Digs most depth Q p) (body : Body) :
    Digs most depth (fun r => Q r.1) (inBody body p) := by
  intro s r t shallow level eq
  obtain ⟨u, read, -, rfl⟩ := inBody_cases eq
  exact h { s with body := body, outer := s.body :: s.outer } _ u shallow level read

theorem inLoop_digs {p : Parse α} (h : Digs most depth Q p) : Digs most depth Q (inLoop p) := by
  intro s a t shallow level eq
  obtain ⟨u, read, rfl⟩ := inLoop_cases eq
  exact h { s with body := { s.body with loopDepth := s.body.loopDepth + 1 } } a u shallow level read

theorem exportNames_digs (n : Nat) (found : List (Text × Option Text)) :
    Digs most depth (fun _ => True) (exportNames n found) := by
  induction n generalizing found with
  | zero => exact stop _
  | succ n ih =>
    refine identifier?_quiet.andDigs fun name => ?_
    cases name with
    | none => exact (fail_fails _ _).digs
    | some name =>
      refine advance_quiet.andDigs fun _ => (use_digs name).bind fun _ _ => ?_
      refine (optionalAlias_quiet _).andDigs fun asName => ?_
      dsimp only
      split
      · exact ((failAt_fails _ _ _).bind _).digs
      · refine (accept_quiet _).andDigs fun more => ?_
        split
        · exact ih _
        · exact give trivial

theorem loopControl_digs (word : Text) {stmt : Position → Stmt}
    (leaf : ∀ pos, (stmt pos).nesting 0 = 0) :
    Digs most depth (fun s => s.nesting 0 = 0) (loopControl word stmt) := by
  refine currentPos_quiet.andDigs fun pos => Quiet.read.andDigs fun s => ?_
  dsimp only
  split
  · exact ((failAt_fails _ _ _).bind _).digs
  · exact advance_quiet.andDigs fun _ => give (leaf pos)

end Grammar

end Scripting
