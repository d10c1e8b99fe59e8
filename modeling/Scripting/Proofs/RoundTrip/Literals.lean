import Scripting.Eval
import Scripting.Proofs.Regime.Sizes
import Scripting.Proofs.Running

/-
Expressions that are made of literals only, and what they evaluate to.
-/
namespace Scripting

mutual

def Expr.value? : Expr → Option Value
  | .int _ n => some (.i64 n)
  | .float _ f => some (.float f)
  | .char _ c => some (.char c)
  | .string _ t => some (.string t)
  | .bool _ b => some (.bool b)
  | .unit _ => some .unit
  | .array _ items => (Expr.values? items).map .array
  | .map _ entries => (Expr.entryValues? entries).map fun es => .map (Dict.ofList es)
  | _ => none

def Expr.values? : List Expr → Option (List Value)
  | [] => some []
  | e :: rest => e.value?.bind fun v => (Expr.values? rest).map (v :: ·)

def Expr.entryValues? : List (Text × Expr) → Option (List (Text × Value))
  | [] => some []
  | e :: rest => (Expr.entryValue? e).bind fun v => (Expr.entryValues? rest).map (v :: ·)

def Expr.entryValue? : Text × Expr → Option (Text × Value)
  | (key, e) => e.value?.map (key, ·)

end

theorem Expr.values?_append {es ds : List Expr} {vs ws : List Value}
    (first : Expr.values? es = some vs) (later : Expr.values? ds = some ws) :
    Expr.values? (es ++ ds) = some (vs ++ ws) := by
  induction es generalizing vs with
  | nil =>
    cases first
    exact later
  | cons e es ih =>
    obtain ⟨v, head, first⟩ := Option.bind_eq_some_iff.mp first
    obtain ⟨vs, tail, rfl⟩ := Option.map_eq_some_iff.mp first
    simp [Expr.values?, head, ih tail]

theorem Expr.entryValues?_append {es ds : List (Text × Expr)} {vs ws : List (Text × Value)}
    (first : Expr.entryValues? es = some vs) (later : Expr.entryValues? ds = some ws) :
    Expr.entryValues? (es ++ ds) = some (vs ++ ws) := by
  induction es generalizing vs with
  | nil =>
    cases first
    exact later
  | cons e es ih =>
    obtain ⟨v, head, first⟩ := Option.bind_eq_some_iff.mp first
    obtain ⟨vs, tail, rfl⟩ := Option.map_eq_some_iff.mp first
    simp [Expr.entryValues?, head, ih tail]

structure Engine.Unlimited (engine : Engine) : Prop where
  disabled : engine.disabled = []
  exprDepth : engine.limits.exprDepth = 0
  string : engine.limits.string = 0
  array : engine.limits.array = 0
  map : engine.limits.map = 0
  operations : engine.limits.operations = 0
  progress : engine.progress = none

namespace Dict

variable {α : Type}

theorem insert_last {d : Dict Text α} {key : Text} (h : ∀ e ∈ d, e.1 < key) (v : α) :
    Dict.insert key v d = d ++ [(key, v)] := by
  induction d with
  | nil => rfl
  | cons entry rest ih =>
    have before : entry.1 < key := h entry List.mem_cons_self
    have other : entry.1 ≠ key := by
      rintro rfl
      exact List.lt_irrefl _ before
    rw [Dict.insert, if_neg other, if_neg (List.lt_asymm before),
      ih fun e he => h e (List.mem_cons_of_mem _ he), List.cons_append]

theorem merge_of_ordered {d es : Dict Text α} (h : Ordered (d ++ es)) :
    Dict.merge d es = d ++ es := by
  induction es generalizing d with
  | nil => rw [Dict.merge, List.foldl_nil, List.append_nil]
  | cons entry rest ih =>
    have before : ∀ e ∈ d, e.1 < entry.1 := fun e he =>
      (List.pairwise_append.mp h).2.2 e he entry List.mem_cons_self
    have all : d ++ entry :: rest = d ++ [entry] ++ rest := by simp
    rw [Dict.merge, List.foldl_cons, insert_last before, all]
    exact ih (all ▸ h)

theorem ofList_of_ordered {es : Dict Text α} (h : Ordered es) : Dict.ofList es = es :=
  merge_of_ordered h

end Dict

theorem Expr.unshared_of_value? {e : Expr} {v : Value} (h : e.value? = some v) :
    v.isShared = false := by
  cases e with
  | array pos items =>
    obtain ⟨vs, -, rfl⟩ := Option.map_eq_some_iff.mp h
    rfl
  | map pos entries =>
    obtain ⟨es, -, rfl⟩ := Option.map_eq_some_iff.mp h
    rfl
  | int | float | char | string | bool | unit => cases h; rfl
  | _ => cases h

def Enough (P : Nat → Prop) : Prop := ∃ effort, ∀ fuel, effort ≤ fuel → P fuel

namespace Enough

variable {P Q : Nat → Prop}

theorem always (h : ∀ fuel, P fuel) : Enough P := ⟨0, fun fuel _ => h fuel⟩

theorem and (first : Enough P) (later : Enough Q) : Enough fun fuel => P fuel ∧ Q fuel := by
  obtain ⟨effort, first⟩ := first
  obtain ⟨effort', later⟩ := later
  exact ⟨max effort effort', fun fuel enough => ⟨first fuel (by omega), later fuel (by omega)⟩⟩

theorem imp (h : Enough P) (hQ : ∀ fuel, P fuel → Q fuel) : Enough Q := by
  obtain ⟨effort, h⟩ := h
  exact ⟨effort, fun fuel enough => hQ fuel (h fuel enough)⟩

theorem succ (h : Enough fun fuel => P (fuel + 1)) : Enough P := by
  obtain ⟨effort, h⟩ := h
  refine ⟨effort + 1, fun fuel enough => ?_⟩
  obtain ⟨n, rfl⟩ : ∃ n, fuel = n + 1 := ⟨fuel - 1, by omega⟩
  exact h n (by omega)

theorem next (h : Enough P) : Enough fun fuel => P (fuel + 1) := by
  obtain ⟨effort, h⟩ := h
  exact ⟨effort, fun fuel enough => h (fuel + 1) (by omega)⟩

theorem all {α : Type} {P : α → Nat → Prop} {rows : List α} (h : ∀ row ∈ rows, Enough (P row)) :
    Enough fun fuel => ∀ row ∈ rows, P row fuel := by
  induction rows with
  | nil => exact always fun fuel row none => by cases none
  | cons row rows ih =>
    have first := h row List.mem_cons_self
    have later := ih fun r hr => h r (List.mem_cons_of_mem _ hr)
    exact (first.and later).imp fun fuel both => List.forall_mem_cons.mpr both

end Enough

namespace Eval

variable {engine : Engine}

def Yields {α : Type} (run : Nat → Run α) (a : α) : Prop :=
  Enough fun fuel => ∀ m : Machine, ∃ operations, run fuel m = .ok a { m with operations }

namespace Yields

variable {α β : Type}

theorem give (a : α) : Yields (fun _ => pure a) a :=
  .always fun _ m => ⟨m.operations, rfl⟩

theorem bind {run : Nat → Run α} {next : Nat → α → Run β} {a : α} {b : β}
    (first : Yields run a) (later : Yields (fun fuel => next fuel a) b) :
    Yields (fun fuel => run fuel >>= next fuel) b := by
  refine (first.and later).imp fun fuel both m => ?_
  obtain ⟨operations, ran⟩ := both.1 m
  obtain ⟨operations', ran'⟩ := both.2 { m with operations }
  exact ⟨operations', (bind_of_ok ran _).trans ran'⟩

end Yields

variable (engine) in
theorem plain_yields {v : Value} (unshared : v.isShared = false) :
    Yields (fun fuel => plain (evaluator engine fuel) v) v := by
  refine .always fun fuel m => ⟨m.operations, ?_⟩
  simp only [plain, unshared]
  rfl

theorem tick_yields (unlimited : engine.Unlimited) (pos : Position) :
    Yields (fun _ => tick engine pos) () := by
  refine .always fun _ m => ⟨m.operations + 1, ?_⟩
  simp only [tick, unlimited.operations, unlimited.progress]
  rfl

theorem checkSize_unlimited (unlimited : engine.Unlimited) (v : Value) (pos : Position) :
    checkSize engine v pos = .ok () := by
  unfold checkSize
  cases v <;> simp [unlimited.string, unlimited.array, unlimited.map]

mutual

theorem eval_yields (unlimited : engine.Unlimited) (e : Expr) {v : Value}
    (known : e.value? = some v) : Yields (fun fuel => evalAt engine fuel e) v := by
  refine Enough.succ ?_
  have counted {run : Nat → Run Value} (h : Yields run v) :
      Yields (fun fuel => do tick engine e.pos; run fuel) v := (tick_yields unlimited e.pos).bind h
  cases e with
  | int pos n => cases known; exact counted (.give _)
  | float pos f => cases known; exact counted (.give _)
  | char pos c => cases known; exact counted (.give _)
  | string pos t => cases known; exact counted (.give _)
  | bool pos b => cases known; exact counted (.give _)
  | unit pos => cases known; exact counted (.give _)
  | array pos items =>
    obtain ⟨vs, found, rfl⟩ := Option.map_eq_some_iff.mp known
    refine counted ((evalItems_yields unlimited items found).bind ?_)
    rw [checkSize_unlimited unlimited]
    exact .give _
  | map pos entries =>
    obtain ⟨es, found, rfl⟩ := Option.map_eq_some_iff.mp known
    refine counted ((evalEntries_yields unlimited entries [] found).bind ?_)
    rw [checkSize_unlimited unlimited]
    exact .give _
  | _ => cases known

theorem evalItems_yields (unlimited : engine.Unlimited) (items : List Expr) {vs : List Value}
    (known : Expr.values? items = some vs) :
    Yields (fun fuel => items.mapM fun item => do
      plain (evaluator engine fuel) (← evalAt engine fuel item)) vs := by
  cases items with
  | nil =>
    cases known
    exact .give _
  | cons e rest =>
    obtain ⟨v, first, known⟩ := Option.bind_eq_some_iff.mp known
    obtain ⟨vs, later, rfl⟩ := Option.map_eq_some_iff.mp known
    simp only [List.mapM_cons]
    have item := (eval_yields unlimited e first).bind
      (plain_yields engine (Expr.unshared_of_value? first))
    exact item.bind ((evalItems_yields unlimited rest later).bind (.give _))

theorem evalEntries_yields (unlimited : engine.Unlimited) (entries : List (Text × Expr))
    (found : List (Text × Value)) {es : List (Text × Value)}
    (known : Expr.entryValues? entries = some es) :
    Yields (fun fuel => evalEntries (evaluator engine fuel) found entries)
      (Dict.merge found es) := by
  cases entries with
  | nil =>
    cases known
    exact .give _
  | cons entry rest =>
    obtain ⟨w, first, known⟩ := Option.bind_eq_some_iff.mp known
    obtain ⟨ws, later, rfl⟩ := Option.map_eq_some_iff.mp known
    cases entry with
    | mk key e =>
      obtain ⟨v, value, rfl⟩ := Option.map_eq_some_iff.mp first
      refine (eval_yields unlimited e value).bind ?_
      refine (plain_yields engine (Expr.unshared_of_value? value)).bind ?_
      exact evalEntries_yields unlimited rest (Dict.insert key v found) later

end

theorem runTop_yields (unlimited : engine.Unlimited) (pos : Position) (e : Expr) {v : Value}
    (known : e.value? = some v) :
    Yields (fun fuel => runTop (evaluator engine fuel) [.expr pos e]) v := by
  have executed : Yields (fun fuel => execAt engine fuel (.expr pos e)) v :=
    Enough.succ ((tick_yields unlimited pos).bind (eval_yields unlimited e known))
  refine executed.imp fun fuel done m => ?_
  obtain ⟨operations, ran⟩ := done m
  have all : execAll (evaluator engine fuel).exec .unit [.expr pos e] m =
      .ok v { m with operations } := bind_of_ok ran _
  exact ⟨operations, by simp only [runTop, all]⟩

end Eval

end Scripting
