import Scripting.Proofs.Frame

/-
Qualified names in the functions of a module. The modules that a script imported at top level are
kept in the module made from it, and are there for its functions. But imports of the caller stay in
effect during a call, and they come first: an alias means what the module has bound to it only as
long as no caller has an import of the same name.
-/
namespace Scripting

namespace Dict

variable {κ : Type u} {α : Type v} [DecidableEq κ]

theorem find?_append (key : κ) (d e : Dict κ α) :
    find? key (d ++ e) = (find? key d).or (find? key e) := by
  induction d with
  | nil => simp [find?]
  | cons entry rest ih =>
    obtain ⟨k, a⟩ := entry
    by_cases same : k = key
    · simp [find?, same]
    · simpa [find?, same] using ih

theorem find?_eq_none_of_ne {key : κ} {d : Dict κ α} (h : ∀ e ∈ d, e.1 ≠ key) : d.find? key = none := by
  induction d with
  | nil => rfl
  | cons entry rest ih =>
    obtain ⟨k, a⟩ := entry
    have differs : k ≠ key := h (k, a) List.mem_cons_self
    simpa [find?, differs] using ih fun e he => h e (List.mem_cons_of_mem _ he)

/-- In a table made from entries that are listed newest first, the newest entry of a key counts. -/
theorem find?_ofList_reverse [LT κ] [DecidableLT κ] (key : κ) (entries : List (κ × α)) :
    find? key (ofList entries.reverse) = find? key entries := by
  unfold ofList merge
  rw [List.foldl_reverse]
  induction entries with
  | nil => rfl
  | cons entry rest ih =>
    obtain ⟨k, a⟩ := entry
    rw [List.foldr_cons]
    by_cases same : k = key
    · subst same
      rw [find?_insert_self]
      simp [find?]
    · have other : key ≠ k := fun eq => same eq.symm
      rw [find?_insert_of_ne other, ih]
      simp [find?, same]

end Dict

namespace Eval

theorem findModule_cons (first : Text) (rest : List Text) (pos : Position) (m : Machine) :
    findModule (first :: rest) pos m =
      (match (Dict.find? first m.imports).or (m.library.module? first) with
        | some found => walkPath pos [first] found rest
        | none => Run.fail (.moduleNotFound first) pos) m := rfl

theorem findModule_eq (first : Text) (rest : List Text) (pos : Position) {m : Machine} {found : Module}
    (h : (Dict.find? first m.imports).or (m.library.module? first) = some found) :
    findModule (first :: rest) pos m = walkPath pos [first] found rest m := by
  rw [findModule_cons, h]

theorem isolated_ok {α : Type} {library : Module} {k : Run α} {m n : Machine} {a : α}
    (h : isolated library k m = .ok a n) : ∃ o, k (freshMachine m.world library) = .ok a o := by
  unfold isolated at h
  cases run : k (freshMachine m.world library) with
  | error e o => simp [run] at h
  | ok b o =>
    simp only [run] at h
    cases h
    exact ⟨o, rfl⟩

theorem runModule_cases {ev : Evaluator} {script : Script} {m n : Machine} {made : Module}
    (h : runModule ev script m = .ok made n) :
    ∃ v top, runTop ev script.statements (freshMachine m.world script.library) = .ok v top ∧
      made.functions = script.library.functions ∧
      ∀ name, made.module? name = Dict.find? name top.imports := by
  obtain ⟨o, inside⟩ := isolated_ok h
  cases run : runTop ev script.statements (freshMachine m.world script.library) with
  | error e top => simp [bind, EStateM.bind, run] at inside
  | ok v top =>
    simp only [bind, EStateM.bind, run] at inside
    change (EStateM.bind (exports ev top.scope.oldestFirst []) _ top) = _ at inside
    unfold EStateM.bind at inside
    cases values : exports ev top.scope.oldestFirst [] top with
    | error e last => simp [values] at inside
    | ok found last =>
      rw [values] at inside
      cases inside
      exact ⟨v, top, rfl, rfl, fun name => Dict.find?_ofList_reverse name top.imports⟩

end Eval

/-- Two moments in one frame: something has run in between, or a block has begun or ended. -/
inductive Moment (engine : Engine) : Machine → Machine → Prop where
  | now (m : Machine) : Moment engine m m
  /-- Operations are counted, cells are locked, a module is loaded. -/
  | work {m n : Machine} (h : Moment engine m n) (world : World) (operations : Nat) :
      Moment engine m { n with world, operations }
  | eval {m n : Machine} (h : Moment engine m n) (fuel : Nat) (e : Expr) :
      Moment engine m (ending (Eval.evalAt engine fuel e n))
  | exec {m n : Machine} (h : Moment engine m n) (fuel : Nat) (stmt : Stmt) :
      Moment engine m (ending (Eval.execAt engine fuel stmt n))
  | declare {m n : Machine} (h : Moment engine m n) (name : Text) (v : Value) (isConst : Bool) :
      Moment engine m { n with scope := n.scope.push name v isConst }
  | block {m n o : Machine} (h : Moment engine m n) (inside : Moment engine n o) :
      Moment engine m (o.rewind n.scope.length n.imports.length)

namespace Machine

theorem Grown.refl (m : Machine) : Grown m m := (SameFrame.refl m).grown

theorem grown_declare (m : Machine) (name : Text) (v : Value) (isConst : Bool) :
    Grown m { m with scope := m.scope.push name v isConst } :=
  ⟨List.suffix_cons _ _, List.suffix_refl _, rfl, rfl, rfl, rfl⟩

theorem grown_bind (m : Machine) (name : Text) (found : Module) :
    Grown m { m with imports := (name, found) :: m.imports } :=
  ⟨List.suffix_refl _, List.suffix_cons _ _, rfl, rfl, rfl, rfl⟩

end Machine

open Machine

theorem Stmt.Adds.grown {stmt : Stmt} {m n : Machine} (h : stmt.Adds m n) : Grown m n := by
  unfold Stmt.Adds at h
  split at h
  · obtain ⟨v, rfl⟩ := h
    exact grown_declare m _ v _
  · obtain ⟨found, rfl⟩ := h
    exact grown_bind m _ found
  · subst h
    exact Grown.refl _

theorem exec_grown (engine : Engine) (fuel : Nat) (stmt : Stmt) (m : Machine) :
    Grown m (ending (Eval.execAt engine fuel stmt m)) := by
  refine ((exec_frame engine fuel stmt m).mono ?_ ?_).ending
  · rintro v n ⟨o, same, adds⟩
    exact same.grown.trans adds.grown
  · exact fun _ _ same => same.grown

theorem Moment.grown {engine : Engine} {m n : Machine} (h : Moment engine m n) : Grown m n := by
  induction h with
  | now m => exact Grown.refl m
  | work _ world operations ih =>
    exact ih.trans ⟨List.suffix_refl _, List.suffix_refl _, rfl, rfl, rfl, rfl⟩
  | eval _ fuel e ih => exact ih.trans (eval_sameFrame engine fuel e _).grown
  | exec _ fuel stmt ih => exact ih.trans (exec_grown engine fuel stmt _)
  | declare _ name v isConst ih => exact ih.trans (grown_declare _ name v isConst)
  | block _ _ ih inside => exact ih.trans inside.rewind.grown

/-- What a path starting with `name` is looked up in, at any moment of a call into a module: in the
newest import of the function itself, of its callers, or else of the module's own script. -/
theorem Moment.findModule {engine : Engine} {caller n : Machine} {scope : Scope} {made : Module}
    {this : Option Value} (h : Moment engine (caller.enter scope made this) n) :
    ∃ own, n.imports = own ++ caller.imports ∧ ∀ name rest pos found,
      ((Dict.find? name own).or (Dict.find? name caller.imports)).or (made.module? name) = some found →
      Eval.findModule (name :: rest) pos n = Eval.walkPath pos [name] found rest n := by
  have grown := h.grown
  obtain ⟨own, split⟩ : caller.imports <:+ n.imports := grown.imports
  have library : n.library = made := grown.library
  refine ⟨own, split.symm, ?_⟩
  intro name rest pos found resolves
  refine Eval.findModule_eq name rest pos ?_
  rw [← split, Dict.find?_append, library]
  exact resolves

/-- In the functions of a module made from a script, an alias `name` that the script's top level
bound to `inner`, and that the function does not bind anew, is looked up in `inner` exactly as long
as no caller has an import of that name; otherwise in the newest such import of the callers. -/
theorem alias_yields_to_callers {engine : Engine} {fuel : Nat} {script : Script} {m m' : Machine}
    {made : Module}
    (runs : Eval.runModule (Eval.evaluator engine fuel) script m = .ok made m') :
    ∃ v top,
      Eval.runTop (Eval.evaluator engine fuel) script.statements
        (Eval.freshMachine m.world script.library) = .ok v top ∧
      made.functions = script.library.functions ∧
      ∀ name inner, Dict.find? name top.imports = some inner →
        ∀ (caller : Machine) scope this n, Moment engine (caller.enter scope made this) n →
          ∃ own, n.imports = own ++ caller.imports ∧ ((∀ e ∈ own, e.1 ≠ name) → ∀ rest pos,
            (Dict.find? name caller.imports = none →
              Eval.findModule (name :: rest) pos n = Eval.walkPath pos [name] inner rest n) ∧
            (∀ other, Dict.find? name caller.imports = some other →
              Eval.findModule (name :: rest) pos n = Eval.walkPath pos [name] other rest n)) := by
  obtain ⟨v, top, ran, functions, modules⟩ := Eval.runModule_cases runs
  refine ⟨v, top, ran, functions, ?_⟩
  intro name inner bound caller scope this n moment
  obtain ⟨own, split, resolves⟩ := moment.findModule
  refine ⟨own, split, fun unbound rest pos => ⟨?_, ?_⟩⟩
  · intro none
    refine resolves name rest pos inner ?_
    rw [Dict.find?_eq_none_of_ne unbound, none, modules name, bound]
    rfl
  · intro other some
    refine resolves name rest pos other ?_
    rw [Dict.find?_eq_none_of_ne unbound, some]
    rfl

def tableEngine : Engine := { resolver := some (.single .table) }

def numberModule (n : Nat) : Module := { values := [(Text.lit "x", .ofNat n)] }

def numberWorld : World where
  table := [(⟨0, Text.lit "one"⟩, numberModule 1), (⟨0, Text.lit "two"⟩, numberModule 2)]

/-- The statement `import "path" as name`. -/
def importAs (path name : String) : Stmt :=
  .importModule .nowhere (.string .nowhere (Text.lit path)) (some (Text.lit name))

/-- The script `import "two" as a; fn f() { a::x }`. -/
def innerScript : Script where
  statements := [importAs "two" "a"]
  functions := [(⟨Text.lit "f", 0⟩, {
    name := Text.lit "f", access := .exposed, params := []
    body := [.expr .nowhere (.var .nowhere (Text.lit "x") [Text.lit "a"])]
    bodyPos := .nowhere, pos := .nowhere })]

/-- At the beginning of a call from a script without imports the alias means the module's own
import, and from a script that has imported something else under the same name it means that. -/
theorem alias_yields_to_callers_two : ∃ made m',
    Eval.runModule (Eval.evaluator tableEngine 4) innerScript (Eval.freshMachine numberWorld {}) =
      .ok made m' ∧
    ∀ caller, (caller = Eval.freshMachine numberWorld {} →
        Eval.findModule [Text.lit "a"] .nowhere (caller.enter [] made none) =
          .ok (numberModule 2) (caller.enter [] made none)) ∧
      (caller = { Eval.freshMachine numberWorld {} with
          imports := [(Text.lit "a", numberModule 1)] } →
        Eval.findModule [Text.lit "a"] .nowhere (caller.enter [] made none) =
          .ok (numberModule 1) (caller.enter [] made none)) := by
  refine ⟨_, _, rfl, fun caller => ?_⟩
  obtain ⟨v, top, ran, -, resolves⟩ :=
    @alias_yields_to_callers tableEngine 4 innerScript (Eval.freshMachine numberWorld {}) _ _ rfl
  cases ran
  have moment := @Moment.now tableEngine
  constructor
  · rintro rfl
    obtain ⟨own, split, found⟩ := resolves (Text.lit "a") (numberModule 2) rfl
      (Eval.freshMachine numberWorld {}) [] none _ (moment _)
    have empty : own = [] := (List.append_eq_nil_iff.mp split.symm).1
    subst empty
    exact (found (by simp) [] .nowhere).1 rfl
  · rintro rfl
    obtain ⟨own, split, found⟩ := resolves (Text.lit "a") (numberModule 2) rfl
      { Eval.freshMachine numberWorld {} with imports := [(Text.lit "a", numberModule 1)] } [] none _
      (moment _)
    have empty : own = [] := List.append_left_eq_self.mp split.symm
    subst empty
    exact (found (by simp) [] .nowhere).2 (numberModule 1) rfl

def outerScript (imports : List Stmt) : Script where
  statements := imports ++ [importAs "inner" "i",
    .expr .nowhere (.call .nowhere (Text.lit "f") [Text.lit "i"] [] false)]

def outerResult? (script : Script) : Option Int :=
  match tableEngine.makeModule innerScript { world := numberWorld } with
  | .ok made s =>
    match tableEngine.run script
        { world := { s.world with table := (⟨0, Text.lit "inner"⟩, made) :: s.world.table } } with
    | .ok (.int _ n) _ => some n.val
    | _ => none
  | .error .. => none

/-- The same function of the same module reads another module's variable when the calling script has
imported that under the alias of the inner import. -/
theorem caller_alias_captures_name :
    outerResult? (outerScript []) = some 2 ∧
    outerResult? (outerScript [importAs "one" "a"]) = some 1 := by
  decide +kernel

end Scripting
