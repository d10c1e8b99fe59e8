import Scripting.Proofs.Pointers
import Scripting.Proofs.Twin.Evaluation

/-
Calls by name and calls through a pointer. The pointer `Fn("f")` gets at the functions that the name `f`
gets at. So both calls do the same, but for the operations that making the pointer takes: a limit on the
number of operations may stop one of them and not the other.
-/
namespace Scripting

open Eval

/-- The call `f(..)`. -/
def plainCall (pos : Position) (name : Text) (args : List Expr) : Expr := .call pos name [] args false

/-- The pointer `Fn("f")`. -/
def pointerTo (pos namePos : Position) (name : Text) : Expr :=
  .call pos Service.fnPointer.text [] [.string namePos name] false

/-- The call `Fn("f").call(..)`. -/
def pointerCall (pos pointerPos namePos : Position) (name : Text) (args : List Expr) : Expr :=
  .method pos (pointerTo pointerPos namePos name) Service.call.text args

/-- A script defines a function of this name and number of parameters that can be called from here. -/
def Machine.Defines (m : Machine) (name : Text) (arity : Nat) : Prop :=
  ∃ target, scriptFn? name arity false m = .ok (some target) m

/-- A call of the name calls a function: the name is no service word, or a script function has taken
that over. -/
def Machine.CallsFunction (m : Machine) (name : Text) (arity : Nat) : Prop :=
  ∀ service, Service.ofText? name = some service → service.isOverridable = true ∧ m.Defines name arity

def Engine.Comes (engine : Engine) (e : Expr) (m : Machine) (r : EStateM.Result Halt Machine Value) : Prop :=
  (∃ fuel, evalAt engine fuel e m = r) ∧ ∀ n, r ≠ .error .outOfFuel n

def Engine.Stopped (engine : Engine) (r : EStateM.Result Halt Machine Value) : Prop :=
  ∃ h n, r = .error h n ∧ engine.Stops h

/-- Two evaluations end alike: with the same value or the same halt, and with machines that differ only in
how many operations they have counted. A limit on this number may stop one of them. -/
def Engine.Alike (engine : Engine) (r r' : EStateM.Result Halt Machine Value) : Prop :=
  (∃ v n n', r = .ok v n ∧ r' = .ok v n' ∧ n.Counted n') ∨
  (∃ h n n', r = .error h n ∧ r' = .error h n' ∧ n.Counted n') ∨
  engine.Stopped r ∨ engine.Stopped r'

theorem Engine.Alike.symm {engine : Engine} {r r' : EStateM.Result Halt Machine Value}
    (h : engine.Alike r r') : engine.Alike r' r := by
  rcases h with ⟨v, n, n', ok, ok', counted⟩ | ⟨e, n, n', error, error', counted⟩ | stopped | stopped
  · exact Or.inl ⟨v, n', n, ok', ok, counted.symm⟩
  · exact Or.inr (Or.inl ⟨e, n', n, error', error, counted.symm⟩)
  · exact Or.inr (Or.inr (Or.inr stopped))
  · exact Or.inr (Or.inr (Or.inl stopped))

theorem Machine.Counted.library {m n : Machine} (h : m.Counted n) : n.library = m.library := by
  obtain ⟨_, _, rfl⟩ := h
  rfl

theorem Machine.Counted.root {m n : Machine} (h : m.Counted n) : n.root = m.root := by
  obtain ⟨_, _, rfl⟩ := h
  rfl

namespace Match

variable {engine : Engine} {m : Machine} {r r' : EStateM.Result Halt Machine Value}

/-- Twin runs of which the first had fuel enough end alike. -/
theorem alike (h : Match engine.Stops (Twins.Later False m) r r')
    (fueled : ∀ n, r ≠ .error .outOfFuel n) : engine.Alike r r' := by
  cases h with
  | ok later => exact Or.inl ⟨_, _, _, rfl, rfl, later.twin⟩
  | error later => exact Or.inr (Or.inl ⟨_, _, _, rfl, rfl, later.twin⟩)
  | spent => exact absurd rfl (fueled _)
  | stopped stops => exact Or.inr (Or.inr (Or.inl ⟨_, _, rfl, stops⟩))
  | halted stops => exact Or.inr (Or.inr (Or.inr ⟨_, _, rfl, stops⟩))

theorem fueled (h : Match engine.Stops (Twins.Later False m) r r')
    (enough : ∀ n, r ≠ .error .outOfFuel n) (own : ¬ engine.Stopped r) :
    ∀ n, r' ≠ .error .outOfFuel n := by
  rintro n rfl
  cases h with
  | error later => exact enough _ rfl
  | spent => exact enough _ rfl
  | stopped stops => exact own ⟨_, _, rfl, stops⟩
  | halted stops => exact stops

end Match

section Ticks

variable {engine : Engine}

variable {quiet : Prop} {α : Type} {k k' : Run α}

theorem Goes.tick_right (h : Goes engine quiet k k') (pos : Position) :
    Goes engine quiet k (do tick engine pos; k') := by
  intro m m' counted
  rcases tick_cases engine pos m' with ⟨n', ticked, more⟩ | ⟨e, n', ticked, stops⟩
  · rw [bind_of_ok ticked]
    exact h m n' (Machine.Counted.trans counted more)
  · rw [bind_of_error ticked]
    exact .halted stops

theorem Goes.tick_left (h : Goes engine quiet k k') (pos : Position) :
    Goes engine quiet (do tick engine pos; k) k' := by
  intro m m' counted
  rcases tick_cases engine pos m with ⟨n, ticked, more⟩ | ⟨e, n, ticked, stops⟩
  · rw [bind_of_ok ticked]
    refine (h n m' (more.symm.trans counted)).mono fun _ _ later => ⟨later.twin, fun yes => ?_⟩
    have same : Twins.marks m = Twins.marks n := congrArg Scope.marks more.scope.symm
    rw [same]
    exact later.marks yes
  · rw [bind_of_error ticked]
    exact .stopped stops

end Ticks

namespace Eval

variable (engine : Engine) (ev : Evaluator)

def callFunction (callee : Evaluator) (name : Text) (args : List Expr) (pos : Position) : Run Value := do
  let values ← evalArgs ev args
  Held.drop none (callNamed engine callee name values false pos)

variable {engine ev} {m n : Machine} {name : Text} {args : List Expr} {values : List Value}
  {pos : Position}

theorem scriptFn?_along {arity : Nat} {found : Option Target} (library : n.library = m.library)
    (root : n.root = m.root) (h : scriptFn? name arity false m = .ok found m) :
    scriptFn? name arity false n = .ok found n := by
  rw [Survey.scriptFn?_eq] at h ⊢
  rw [library, root, (EStateM.Result.ok.inj h).1]

theorem evalArgs_length (ran : evalArgs ev args m = .ok values n) : values.length = args.length := by
  unfold evalArgs at ran
  induction args generalizing m values with
  | nil =>
    cases ran
    rfl
  | cons e rest ih =>
    rw [List.mapM_cons] at ran
    obtain ⟨v, o, -, ran⟩ := bind_cases ran
    obtain ⟨vs, o', later, ran⟩ := bind_cases ran
    cases ran
    rw [List.length_cons, List.length_cons, ih later]

theorem callPlain_passes (forms : ∀ e ∈ args, e.plainName? = none)
    (unscripted : scriptFn? name args.length false m = .ok none m) :
    callPlain engine ev name args false pos m =
      (do callByValue engine ev name (← evalArgs ev args) pos : Run Value) m := by
  unfold callPlain
  rw [bind_of_ok unscripted]
  cases args with
  | nil => rfl
  | cons e rest =>
    have form := forms e List.mem_cons_self
    cases e with
    | var varPos x path =>
      cases path with
      | nil => cases form
      | cons first more => rfl
    | _ => rfl

/-- By value and by name the same natives are tried; there is no function of the name otherwise. -/
theorem callNamed_byValue (uncompared : name ≠ Text.lit "==" ∧ name ≠ Text.lit "!=")
    (unscripted : scriptFn? name values.length false m = .ok none m) :
    Held.drop none (callNamed engine ev name values false pos) m =
      callByValue engine ev name values pos m := by
  have begun : callNamed engine ev name values false pos (none, m) = _ :=
    bind_of_ok (Held.lift_of_ok unscripted none) _
  dsimp only at begun
  rw [bind_of_ok (show (Held.held : Held (Option Value) (Option Value)) (none, m) = .ok none (none, m) from rfl)]
    at begun
  dsimp only at begun
  unfold callByValue
  cases tried : Held.drop values (tryNative engine ev name false pos) m with
  | error h n =>
    rw [bind_of_error (Held.lift_of_error tried none)] at begun
    rw [Held.drop_of_error begun, bind_of_error tried]
  | ok found n =>
    rw [bind_of_ok (Held.lift_of_ok tried none)] at begun
    rw [bind_of_ok tried]
    cases found with
    | some v => exact Held.drop_of_ok begun
    | none =>
      dsimp only at begun ⊢
      rw [if_neg fun compared => uncompared.1 compared.2,
        if_neg fun compared => uncompared.2 compared.2]
      have refused : callNamed engine ev name values false pos (none, m) =
          (Held.lift (notFound engine ev name values pos) : Held (Option Value) Value) (none, n) := begun
      cases failed : (notFound engine ev name values pos : Run Value) n with
      | ok v o =>
        rw [Held.lift_of_ok failed] at refused
        exact Held.drop_of_ok refused
      | error h o =>
        rw [Held.lift_of_error failed] at refused
        exact Held.drop_of_error refused

theorem callPlain_eq (forms : ∀ e ∈ args, e.plainName? = none)
    (uncompared : name ≠ Text.lit "==" ∧ name ≠ Text.lit "!=")
    (keeps : ∀ values n, evalArgs ev args m = .ok values n → n.library = m.library ∧ n.root = m.root) :
    callPlain engine ev name args false pos m = callFunction engine ev ev name args pos m := by
  obtain ⟨found, first⟩ : ∃ found, scriptFn? name args.length false m = .ok found m :=
    ⟨_, Survey.scriptFn?_eq name args.length false m⟩
  have evaluated : ∀ values n, evalArgs ev args m = .ok values n →
      scriptFn? name values.length false n = .ok found n := by
    intro values n ran
    rw [evalArgs_length ran]
    exact scriptFn?_along (keeps values n ran).1 (keeps values n ran).2 first
  cases found with
  | some target =>
    unfold callPlain callFunction
    rw [bind_of_ok first]
    cases ran : evalArgs ev args m with
    | error h n => exact (bind_of_error ran _).trans (bind_of_error ran _).symm
    | ok values n =>
      refine (bind_of_ok ran _).trans (Eq.trans ?_ (bind_of_ok ran _).symm)
      unfold Held.drop
      rw [callNamed_script (evaluated values n ran)]
  | none =>
    rw [callPlain_passes forms first]
    unfold callFunction
    cases ran : evalArgs ev args m with
    | error h n => exact (bind_of_error ran _).trans (bind_of_error ran _).symm
    | ok values n =>
      refine (bind_of_ok ran _).trans (Eq.trans ?_ (bind_of_ok ran _).symm)
      exact (callNamed_byValue uncompared (evaluated values n ran)).symm

theorem evalArgs_sameFrame {fuel : Nat} (ran : evalArgs (evaluator engine fuel) args m = .ok values n) :
    Machine.SameFrame m n := by
  unfold evalArgs at ran
  induction args generalizing m values with
  | nil =>
    cases ran
    exact .refl _
  | cons e rest ih =>
    rw [List.mapM_cons] at ran
    obtain ⟨v, o, first, ran⟩ := bind_cases ran
    obtain ⟨vs, o', later, ran⟩ := bind_cases ran
    cases ran
    have kept := eval_sameFrame engine fuel e m
    change Machine.SameFrame m (ending ((evaluator engine fuel).eval e m)) at kept
    rw [first] at kept
    exact kept.trans (ih later)

theorem evalCall_function {fuel : Nat} (forms : ∀ e ∈ args, e.plainName? = none)
    (uncompared : name ≠ Text.lit "==" ∧ name ≠ Text.lit "!=") (calls : m.CallsFunction name args.length) :
    evalCall engine (evaluator engine fuel) name [] args false pos m =
      callFunction engine (evaluator engine fuel) (evaluator engine fuel) name args pos m := by
  have plain : callPlain engine (evaluator engine fuel) name args false pos m =
      callFunction engine (evaluator engine fuel) (evaluator engine fuel) name args pos m :=
    callPlain_eq forms uncompared fun _ _ ran =>
      ⟨(evalArgs_sameFrame ran).library, (evalArgs_sameFrame ran).root⟩
  unfold evalCall
  cases service : Service.ofText? name with
  | none => exact plain
  | some s =>
    obtain ⟨overridable, target, defined⟩ := calls s service
    refine Eq.trans ?_ plain
    refine (bind_of_ok defined _).trans ?_
    rw [overridable]
    rfl

variable (engine) in
def makePointer (pos namePos : Position) : Nat → Run Unit
  | 0 => throw .outOfFuel
  | 1 => do
    tick engine pos
    throw .outOfFuel
  | _ + 2 => do
    tick engine pos
    tick engine namePos

theorem Defines.along {arity : Nat} (library : n.library = m.library) (root : n.root = m.root)
    (h : n.Defines name arity) : m.Defines name arity := by
  obtain ⟨target, defined⟩ := h
  exact ⟨target, scriptFn?_along library.symm root.symm defined⟩

theorem callService_pointer (pointable : FnPointer.isPointable name = true) {namePos : Position}
    (evaluated : ev.eval (.string namePos name) m = .ok (.string name) n) :
    callService engine ev .fnPointer [.string namePos name] pos m = .ok (.fn name []) n := by
  have one : evalArgs ev [.string namePos name] m = .ok [.string name] n := by
    unfold evalArgs
    rw [List.mapM_cons]
    exact bind_of_ok evaluated _
  have made : FnPointer.make name pos = .ok (.fn name []) := if_pos pointable
  refine (bind_of_ok one _).trans ?_
  change (liftM (FnPointer.make name pos) : Run Value) n = _
  rw [made]
  rfl

theorem callService_fails {namePos : Position} {h : Halt}
    (failed : ev.eval (.string namePos name) m = .error h n) :
    callService engine ev .fnPointer [.string namePos name] pos m = .error h n := by
  have one : evalArgs ev [.string namePos name] m = .error h n := by
    unfold evalArgs
    rw [List.mapM_cons]
    exact bind_of_error failed _
  exact bind_of_error one _

theorem evalCall_pointer {namePos : Position} (unmade : ¬ m.Defines Service.fnPointer.text 1) :
    evalCall engine ev Service.fnPointer.text [] [.string namePos name] false pos m =
      callService engine ev .fnPointer [.string namePos name] pos m := by
  have service : Service.ofText? Service.fnPointer.text = some .fnPointer := by decide
  obtain ⟨found, asked⟩ : ∃ found, scriptFn? Service.fnPointer.text 1 false m = .ok found m :=
    ⟨_, Survey.scriptFn?_eq _ _ _ m⟩
  have none : found = none := by
    cases found with
    | none => rfl
    | some target => exact absurd ⟨target, asked⟩ unmade
  rw [none] at asked
  unfold evalCall
  rw [service]
  exact bind_of_ok asked _

theorem evalAt_pointerTo (pointable : FnPointer.isPointable name = true)
    (unmade : ¬ m.Defines Service.fnPointer.text 1) (pos namePos : Position) (fuel : Nat) :
    evalAt engine fuel (pointerTo pos namePos name) m =
      (do makePointer engine pos namePos fuel; return .fn name [] : Run Value) m := by
  cases fuel with
  | zero => rfl
  | succ fuel =>
    have begun : evalAt engine (fuel + 1) (pointerTo pos namePos name) m = (do
      tick engine pos
      evalCall engine (evaluator engine fuel) Service.fnPointer.text [] [.string namePos name] false
        pos : Run Value) m := rfl
    rw [begun]
    rcases tick_cases engine pos m with ⟨n, ticked, counted⟩ | ⟨h, n, ticked, -⟩
    · have called : evalCall engine (evaluator engine fuel) Service.fnPointer.text []
          [.string namePos name] false pos n =
          callService engine (evaluator engine fuel) .fnPointer [.string namePos name] pos n :=
        evalCall_pointer fun defined =>
          unmade (Defines.along counted.library counted.root defined)
      rw [bind_of_ok ticked, called]
      cases fuel with
      | zero =>
        rw [callService_fails (show (evaluator engine 0).eval _ _ = _ from rfl)]
        exact (bind_of_error (bind_of_ok ticked _) _).symm
      | succ fuel =>
        have read : (evaluator engine (fuel + 1)).eval (.string namePos name) =
          (do tick engine namePos; return .string name : Run Value) := rfl
        have both : makePointer engine pos namePos (fuel + 2) m = tick engine namePos n :=
          bind_of_ok ticked fun _ => tick engine namePos
        rcases tick_cases engine namePos n with ⟨o, ticked', -⟩ | ⟨h, o, ticked', -⟩
        · rw [callService_pointer pointable (by rw [read]; exact bind_of_ok ticked' _)]
          exact (bind_of_ok (both.trans ticked') fun _ => (pure (.fn name []) : Run Value)).symm
        · rw [callService_fails (by rw [read]; exact bind_of_error ticked' _)]
          exact (bind_of_error (both.trans ticked') _).symm
    · rw [bind_of_error ticked]
      cases fuel <;> exact (bind_of_error (bind_of_error ticked _) _).symm

theorem callThrough_pointer (pointable : FnPointer.isPointable name = true)
    (unmade : ¬ m.Defines Service.fnPointer.text 1) (pointerPos namePos : Position) (fuel : Nat) :
    callThrough engine (evaluator engine fuel) (pointerTo pointerPos namePos name) values pos m = (do
      makePointer engine pointerPos namePos fuel
      Held.drop none ((evaluator engine fuel).callNamed name values false pos) : Run Value) m := by
  have evaluated : evalAt engine fuel (pointerTo pointerPos namePos name) m =
      (do makePointer engine pointerPos namePos fuel; return .fn name [] : Run Value) m :=
    evalAt_pointerTo pointable unmade pointerPos namePos fuel
  have opened : ∀ {α : Type} (k : Held Value α),
      access engine (evaluator engine fuel) (pointerTo pointerPos namePos name) false k =
        (do Held.drop (← (evaluator engine fuel).eval (pointerTo pointerPos namePos name)) k : Run α) :=
    fun k => rfl
  unfold callThrough
  rw [opened]
  cases made : makePointer engine pointerPos namePos fuel m with
  | ok u n =>
    rw [bind_of_ok made] at evaluated ⊢
    -- The value is a pointer, so what is called is its function and not something on the object.
    exact bind_of_ok (a := Sum.inl (name, [])) (t := n) ((bind_of_ok evaluated _).trans rfl) _
  | error h n =>
    rw [bind_of_error made] at evaluated ⊢
    exact bind_of_error (bind_of_error evaluated _) _

theorem evalAt_pointerCall (pointable : FnPointer.isPointable name = true)
    (unmade : ¬ m.Defines Service.fnPointer.text 1) (pos pointerPos namePos : Position) (fuel : Nat) :
    evalAt engine (fuel + 1) (pointerCall pos pointerPos namePos name args) m = (do
      tick engine pos
      let values ← evalArgs (evaluator engine fuel) args
      makePointer engine pointerPos namePos fuel
      Held.drop none ((evaluator engine fuel).callNamed name values false pos) : Run Value) m := by
  have service : Service.ofText? Service.call.text = some .call := by decide
  have begun : evalAt engine (fuel + 1) (pointerCall pos pointerPos namePos name args) m = (do
      tick engine pos
      let values ← evalArgs (evaluator engine fuel) args
      callThrough engine (evaluator engine fuel) (pointerTo pointerPos namePos name) values pos :
      Run Value) m := by
    refine Eq.trans (b := (do
      tick engine pos
      evalMethod engine (evaluator engine fuel) (pointerTo pointerPos namePos name)
        Service.call.text args pos : Run Value) m) rfl ?_
    unfold evalMethod
    rw [service]
  rw [begun]
  rcases tick_cases engine pos m with ⟨n, ticked, counted⟩ | ⟨h, n, ticked, -⟩
  · rw [bind_of_ok ticked, bind_of_ok ticked]
    cases ran : evalArgs (evaluator engine fuel) args n with
    | ok values o =>
      have frame := evalArgs_sameFrame ran
      rw [bind_of_ok ran, bind_of_ok ran]
      exact callThrough_pointer pointable (fun defined => unmade
        (Defines.along (frame.library.trans counted.library) (frame.root.trans counted.root) defined))
        pointerPos namePos fuel
    | error h o => rw [bind_of_error ran, bind_of_error ran]
  · rw [bind_of_error ticked, bind_of_error ticked]

theorem evalAt_plainCall (forms : ∀ e ∈ args, e.plainName? = none)
    (uncompared : name ≠ Text.lit "==" ∧ name ≠ Text.lit "!=") (calls : m.CallsFunction name args.length)
    (pos : Position) (fuel : Nat) :
    evalAt engine (fuel + 1) (plainCall pos name args) m = (do
      tick engine pos
      let values ← evalArgs (evaluator engine fuel) args
      Held.drop none ((evaluator engine (fuel + 1)).callNamed name values false pos) : Run Value) m := by
  have begun : evalAt engine (fuel + 1) (plainCall pos name args) m = (do
      tick engine pos
      evalCall engine (evaluator engine fuel) name [] args false pos : Run Value) m := rfl
  rw [begun]
  rcases tick_cases engine pos m with ⟨n, ticked, counted⟩ | ⟨h, n, ticked, -⟩
  · rw [bind_of_ok ticked, bind_of_ok ticked]
    refine evalCall_function forms uncompared fun service known => ?_
    obtain ⟨overridable, defined⟩ := calls service known
    exact ⟨overridable, Defines.along counted.library.symm counted.root.symm defined⟩
  · rw [bind_of_error ticked, bind_of_error ticked]

/-! ### Both calls, with any supplies of fuel -/

section Both

variable (pointable : FnPointer.isPointable name = true) (forms : ∀ e ∈ args, e.plainName? = none)
  (calls : m.CallsFunction name args.length) (unmade : ¬ m.Defines Service.fnPointer.text 1)
  (pos pointerPos namePos : Position) {i k : Nat}

theorem drop_callNamed_goes (le : i ≤ k) (values : List Value) : Goes engine False
    (Held.drop none ((evaluator engine i).callNamed name values false pos))
    (Held.drop none ((evaluator engine k).callNamed name values false pos)) :=
  Goes.drop ((evaluator_follows engine le).call False name values false pos) none

include pointable in
theorem uncompared_of_pointable : name ≠ Text.lit "==" ∧ name ≠ Text.lit "!=" := by
  constructor <;> rintro rfl <;> exact absurd pointable (by decide +kernel)

include pointable forms calls unmade in
theorem plain_follows_pointer (le : k ≤ i) : Match engine.Stops (Twins.Later False m)
    (evalAt engine (k + 1) (pointerCall pos pointerPos namePos name args) m)
    (evalAt engine (i + 1) (plainCall pos name args) m) := by
  rw [evalAt_pointerCall pointable unmade, evalAt_plainCall forms (uncompared_of_pointable pointable) calls]
  refine Goes.bind (tick_goes pos) (fun _ => Goes.bind
    (evalArgs_goes (evaluator_follows engine le) False.elim) fun values => ?_) m m (.refl m)
  have last : Goes engine False (Held.drop none ((evaluator engine k).callNamed name values false pos))
      (Held.drop none ((evaluator engine (i + 1)).callNamed name values false pos)) :=
    drop_callNamed_goes pos (Nat.le_succ_of_le le) values
  match k with
  | 0 => exact Goes.spent _
  | 1 =>
    rw [makePointer, bind_assoc]
    exact Goes.tick_left (Goes.spent _) pointerPos
  | k + 2 =>
    rw [makePointer, bind_assoc]
    exact Goes.tick_left (Goes.tick_left last namePos) pointerPos

include pointable forms calls unmade in
theorem pointer_follows_plain (le : i + 1 ≤ k) (two : 2 ≤ k) : Match engine.Stops (Twins.Later False m)
    (evalAt engine (i + 1) (plainCall pos name args) m)
    (evalAt engine (k + 1) (pointerCall pos pointerPos namePos name args) m) := by
  rw [evalAt_pointerCall pointable unmade, evalAt_plainCall forms (uncompared_of_pointable pointable) calls]
  refine Goes.bind (tick_goes pos) (fun _ => Goes.bind
    (evalArgs_goes (evaluator_follows engine (Nat.le_of_succ_le le)) False.elim)
    fun values => ?_) m m (.refl m)
  obtain ⟨k, rfl⟩ : ∃ j, k = j + 2 := ⟨k - 2, by omega⟩
  rw [makePointer, bind_assoc]
  exact Goes.tick_right (Goes.tick_right (drop_callNamed_goes pos le values) namePos) pointerPos

include pointable forms calls unmade in
/-- With this little fuel a plain call evaluates no argument, and a call through a pointer does not get
to the name: a limit has stopped one of them if they come to an end. -/
theorem stopped_of_short
    (plain : ∀ n, evalAt engine 1 (plainCall pos name args) m ≠ .error .outOfFuel n)
    (pointer : ∀ n, evalAt engine 2 (pointerCall pos pointerPos namePos name args) m ≠
      .error .outOfFuel n) :
    engine.Stopped (evalAt engine 1 (plainCall pos name args) m) ∨
      engine.Stopped (evalAt engine 2 (pointerCall pos pointerPos namePos name args) m) := by
  rw [evalAt_plainCall forms (uncompared_of_pointable pointable) calls] at plain ⊢
  rw [evalAt_pointerCall pointable unmade] at pointer ⊢
  rcases tick_cases engine pos m with ⟨n, ticked, -⟩ | ⟨h, n, ticked, stops⟩
  · rw [bind_of_ok ticked] at plain pointer ⊢
    rw [bind_of_ok ticked]
    cases args with
    | cons e rest => exact absurd rfl (plain n)
    | nil =>
      have none : ∀ ev : Evaluator, evalArgs ev [] n = .ok [] n := fun _ => rfl
      rw [bind_of_ok (none _), makePointer, bind_assoc] at pointer
      rw [bind_of_ok (none _), bind_of_ok (none _), makePointer, bind_assoc]
      rcases tick_cases engine pointerPos n with ⟨o, ticked', -⟩ | ⟨h, o, ticked', stops⟩
      · rw [bind_of_ok ticked'] at pointer
        exact absurd rfl (pointer o)
      · exact Or.inr ⟨h, o, bind_of_error ticked' _, stops⟩
  · exact Or.inl ⟨h, n, bind_of_error ticked _, stops⟩

end Both

end Eval

/-- A call by name and a call through a pointer end alike, and if one of them comes to an end of its own,
so does the other. -/
theorem pointer_calls_are_calls (engine : Engine) (m : Machine) (name : Text) (args : List Expr)
    (pos pointerPos namePos : Position) (pointable : FnPointer.isPointable name = true)
    (forms : ∀ e ∈ args, e.plainName? = none) (calls : m.CallsFunction name args.length)
    (unmade : ¬ m.Defines Service.fnPointer.text 1) :
    let plain := plainCall pos name args
    let pointer := pointerCall pos pointerPos namePos name args
    (∀ r r', engine.Comes plain m r → engine.Comes pointer m r' → engine.Alike r r') ∧
    (∀ r, engine.Comes plain m r → ¬ engine.Stopped r → ∃ r', engine.Comes pointer m r') ∧
    ∀ r', engine.Comes pointer m r' → ¬ engine.Stopped r' → ∃ r, engine.Comes plain m r := by
  refine ⟨?_, ?_, ?_⟩
  · rintro r r' ⟨⟨i, rfl⟩, plain⟩ ⟨⟨k, rfl⟩, pointer⟩
    cases i with
    | zero => exact absurd rfl (plain m)
    | succ i =>
      cases k with
      | zero => exact absurd rfl (pointer m)
      | succ k =>
        by_cases le : k ≤ i
        · exact ((plain_follows_pointer pointable forms calls unmade pos pointerPos namePos le).alike
            pointer).symm
        · by_cases two : 2 ≤ k
          · exact (pointer_follows_plain pointable forms calls unmade pos pointerPos namePos
              (Nat.lt_of_not_le le) two).alike plain
          · obtain ⟨rfl, rfl⟩ : i = 0 ∧ k = 1 := by omega
            exact Or.inr (Or.inr
              (stopped_of_short pointable forms calls unmade pos pointerPos namePos plain pointer))
  · rintro r ⟨⟨i, rfl⟩, plain⟩ own
    cases i with
    | zero => exact absurd rfl (plain m)
    | succ i =>
      exact ⟨_, ⟨i + 3, rfl⟩, (pointer_follows_plain pointable forms calls unmade pos pointerPos namePos
        (Nat.le_succ (i + 1)) (Nat.le_add_left 2 i)).fueled plain own⟩
  · rintro r' ⟨⟨k, rfl⟩, pointer⟩ own
    cases k with
    | zero => exact absurd rfl (pointer m)
    | succ k =>
      exact ⟨_, ⟨k + 1, rfl⟩, (plain_follows_pointer pointable forms calls unmade pos pointerPos namePos
        (Nat.le_refl k)).fueled pointer own⟩

/-- The function `fn yes() { true }`. -/
def yesFn : ScriptFn where
  name := Text.lit "yes"
  access := .exposed
  params := []
  body := [.expr ⟨1, 12⟩ (.bool ⟨1, 12⟩ true)]
  bodyPos := ⟨1, 10⟩
  pos := ⟨1, 1⟩

def yesMachine : Machine :=
  let library := Module.ofFunctions [(⟨Text.lit "yes", 0⟩, yesFn)]
  { world := {}, library, root := library }

/-- The call `yes()`. -/
def callYes : Expr := plainCall ⟨1, 19⟩ (Text.lit "yes") []

/-- The call `Fn("yes").call()`. -/
def callYesThrough : Expr := pointerCall ⟨1, 19⟩ ⟨1, 19⟩ ⟨1, 22⟩ (Text.lit "yes") []

/-- Without limits both calls come to the same value. -/
theorem pointer_calls_are_calls_yes :
    ∃ n, Engine.raw.Comes callYes yesMachine (.ok (.bool true) n) ∧
      ∃ n', Engine.raw.Comes callYesThrough yesMachine (.ok (.bool true) n') ∧ n.Counted n' := by
  have unlimited : ∀ r, ¬ Engine.raw.Stopped r := by
    rintro r ⟨h, n, -, stops⟩
    unfold Engine.Stops at stops
    split at stops
    · exact absurd stops (by decide)
    · obtain ⟨stop, watched, -⟩ := stops
      cases watched
    · exact stops
  have unmade : ¬ yesMachine.Defines Service.fnPointer.text 1 := by
    rintro ⟨target, found⟩
    cases found
  obtain ⟨alike, through, -⟩ := pointer_calls_are_calls Engine.raw yesMachine (Text.lit "yes") []
    ⟨1, 19⟩ ⟨1, 19⟩ ⟨1, 22⟩ (by decide +kernel) (by simp) (fun s known => by cases known) unmade
  have plain : Engine.raw.Comes callYes yesMachine (.ok (.bool true) _) :=
    ⟨⟨9, rfl⟩, nofun⟩
  obtain ⟨r', pointer⟩ := through _ plain (unlimited _)
  refine ⟨_, plain, ?_⟩
  rcases alike _ _ plain pointer with ⟨v, n, n', ok, rfl, counted⟩ | ⟨h, n, n', error, -⟩ | stopped | stopped
  · cases ok
    exact ⟨n', pointer, counted⟩
  · cases error
  · exact absurd stopped (unlimited _)
  · exact absurd stopped (unlimited _)

/-- A limit of three operations stops the call through the pointer, and not the call by name. -/
theorem limit_stops_pointer_call :
    let engine := { Engine.raw with limits := { operations := 3 } }
    (∃ n, engine.Comes callYes yesMachine (.ok (.bool true) n)) ∧
      ∃ n, engine.Comes callYesThrough yesMachine (.error (.cause .tooManyOperations ⟨1, 12⟩) n) :=
  ⟨⟨_, ⟨9, rfl⟩, nofun⟩, ⟨_, ⟨9, rfl⟩, nofun⟩⟩

end Scripting
