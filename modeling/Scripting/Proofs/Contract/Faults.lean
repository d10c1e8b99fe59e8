import Scripting.Eval.Import

/-
Looking at values never leaves a function or a loop: flattening, comparing, printing and all that
natives do on their own can only fail with an error or run out of fuel.
-/
namespace Scripting

def Halt.isFault : Halt → Bool
  | .error _ | .outOfFuel => true
  | _ => false

def OnlyFaults {α : Type} (r : Except Halt α) : Prop := ∀ h, r = .error h → h.isFault = true

namespace OnlyFaults

variable {α β : Type}

theorem ok (a : α) : OnlyFaults (.ok a) := by
  intro h eq
  cases eq

theorem cause (c : Cause) (pos : Position) : OnlyFaults (.error (.cause c pos) : Except Halt α) := by
  intro h eq
  cases eq
  rfl

theorem outOfFuel : OnlyFaults (.error .outOfFuel : Except Halt α) := by
  intro h eq
  cases eq
  rfl

theorem bind {r : Except Halt α} {f : α → Except Halt β} (hr : OnlyFaults r)
    (hf : ∀ a, OnlyFaults (f a)) : OnlyFaults (r >>= f) := by
  intro h eq
  cases r with
  | error e =>
    cases eq
    exact hr _ rfl
  | ok a => exact hf a h eq

theorem same {r : Except Halt α} {e : Halt} (hr : OnlyFaults r) (eq : r = .error e) :
    OnlyFaults (.error e : Except Halt β) := by
  intro h also
  cases also
  exact hr e eq

theorem map {r : Except Halt α} (f : α → β) (hr : OnlyFaults r) : OnlyFaults (r.map f) := by
  intro h eq
  cases r with
  | error e =>
    cases eq
    exact hr _ rfl
  | ok a => cases eq

theorem mapM {f : α → Except Halt β} (hf : ∀ a, OnlyFaults (f a)) (as : List α) :
    OnlyFaults (as.mapM f) := by
  induction as with
  | nil => exact ok []
  | cons a rest ih =>
    rw [List.mapM_cons]
    exact bind (hf a) fun b => bind ih fun bs => ok (b :: bs)

end OnlyFaults

namespace Store

open OnlyFaults

theorem read_faults (s : Store) (c : Nat) (name : Text) (pos : Position) :
    OnlyFaults (s.read c name pos) := by
  unfold read
  split
  · exact cause _ pos
  · exact ok _

theorem flatten_faults (s : Store) (fuel : Nat) (v : Value) : OnlyFaults (s.flatten fuel v) := by
  induction fuel generalizing v with
  | zero => exact outOfFuel
  | succ n ih =>
    cases v with
    | shared c => exact bind (s.read_faults c [] .nowhere) fun w => ih w
    | _ => exact ok _

theorem typeOf_faults (s : Store) (fuel : Nat) (v : Value) : OnlyFaults (s.typeOf fuel v) := by
  induction fuel generalizing v with
  | zero => exact outOfFuel
  | succ n ih =>
    cases v with
    | shared c => exact bind (s.read_faults c [] .nowhere) fun w => ih w
    | _ => exact ok _

theorem beginWrite_faults (s : Store) (c : Nat) (name : Text) (pos : Position) :
    OnlyFaults (s.beginWrite c name pos) := by
  unfold beginWrite
  dsimp only
  split
  · exact cause _ pos
  · exact ok _

end Store

namespace Value

open OnlyFaults

theorem debugText_faults (s : Store) (fuel : Nat) (v : Value) :
    OnlyFaults (v.debugText s fuel) := by
  induction fuel generalizing v with
  | zero => exact outOfFuel
  | succ n ih =>
    cases v with
    | array items => exact bind (mapM ih items) fun texts => ok _
    | map entries => exact bind (mapM (fun e => bind (ih e.2) fun t => ok _) entries) fun texts => ok _
    | shared c => exact bind (s.read_faults c [] .nowhere) fun w => ih w
    | _ => exact ok _

theorem displayText_faults (s : Store) (fuel : Nat) (v : Value) :
    OnlyFaults (v.displayText s fuel) := by
  induction fuel generalizing v with
  | zero => exact outOfFuel
  | succ n ih =>
    cases v with
    | array items => exact debugText_faults s (n + 1) (.array items)
    | map entries => exact debugText_faults s (n + 1) (.map entries)
    | shared c => exact bind (s.read_faults c [] .nowhere) fun w => ih w
    | _ => exact ok _

theorem allEqual_faults {eq : Value → Value → Except Halt Bool} (h : ∀ a b, OnlyFaults (eq a b)) :
    ∀ as bs, OnlyFaults (allEqual eq as bs) := by
  intro as
  induction as with
  | nil => intro bs; cases bs <;> exact ok _
  | cons a as ih =>
    intro bs
    cases bs with
    | nil => exact ok _
    | cons b bs =>
      refine bind (h a b) fun same => ?_
      cases same with
      | true => exact ih bs
      | false => exact ok _

theorem entriesEqual_faults {eq : Value → Value → Except Halt Bool}
    (h : ∀ a b, OnlyFaults (eq a b)) : ∀ as bs, OnlyFaults (entriesEqual eq as bs) := by
  intro as
  induction as with
  | nil => intro bs; cases bs <;> exact ok _
  | cons a as ih =>
    intro bs
    cases bs with
    | nil => exact ok _
    | cons b bs =>
      unfold entriesEqual
      split
      · exact ok _
      · refine bind (h a.2 b.2) fun same => ?_
        cases same with
        | true => exact ih bs
        | false => exact ok _

theorem equalAt_faults (s : Store) (fuel : Nat) (sides : Sides) (a b : Value) :
    OnlyFaults (equalAt s fuel sides a b) := by
  induction fuel generalizing sides a b with
  | zero => exact outOfFuel
  | succ n ih =>
    unfold equalAt
    split
    · exact bind (s.read_faults _ [] .nowhere) fun w => ih _ _ _
    · exact bind (s.read_faults _ [] .nowhere) fun w => ih _ _ _
    all_goals first
      | exact ok _
      | split
        · exact ok _
        · exact allEqual_faults (fun a b => ih _ a b) _ _
      | split
        · exact ok _
        · exact entriesEqual_faults (fun a b => ih _ a b) _ _

end Value

theorem CoreFn.occurs_faults (s : Store) (fuel : Nat) (item : Value) (vs : List Value) :
    OnlyFaults (CoreFn.occurs s fuel item vs) := by
  induction vs with
  | nil => exact OnlyFaults.ok _
  | cons v rest ih =>
    refine OnlyFaults.bind (Value.equalAt_faults s fuel _ v item) fun same => ?_
    cases same with
    | true => exact OnlyFaults.ok _
    | false => exact ih

theorem HostFn.integerItem_faults (s : Store) (fuel : Nat) (items : List Value) (i : Nat) :
    OnlyFaults (HostFn.integerItem s fuel items i) := by
  unfold HostFn.integerItem
  split
  · exact OnlyFaults.cause _ .nowhere
  · refine OnlyFaults.bind (s.flatten_faults fuel _) fun v => ?_
    split
    · exact OnlyFaults.ok _
    · exact OnlyFaults.cause _ .nowhere

end Scripting
