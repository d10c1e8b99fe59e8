import Scripting.Proofs.Access.Reading
import Scripting.Proofs.Overloads
import Scripting.Proofs.QualifiedNames

/-
What a native lookup selects. Modules made from scripts are searched as packages too, and so script
functions stand among the natives; only the search for the cheapest function leaves them out.
-/
namespace Scripting

namespace Module

/-- How a host comes by a module: from functions and values of its own, from the functions of a script,
and from other modules. -/
inductive Built : Module → Prop where
  | empty : Built {}
  | native {m : Module} (h : Built m) (name : Text) (params : List ValueType) (f : Native)
      (access : Access) : Built (m.setNative name params f access)
  | valued {m : Module} (h : Built m) (name : Text) (v : Value) : Built (m.setVariable name v)
  | submodule {m n : Module} (h : Built m) (name : Text) (h' : Built n) : Built (m.setModule name n)
  | script (functions : Dict FnKey ScriptFn) (values : Dict Text Value) {modules : List (Text × Module)}
      (h : ∀ e ∈ modules, Built e.2) :
      Built { functions := (ofFunctions functions).functions, values, modules }
  | combined {m n : Module} (h : Built m) (h' : Built n) : Built (m.combine n)
  | absorbed {m n : Module} (h : Built m) (h' : Built n) : Built (m.absorb n)

inductive TakesAll : Module → Prop where
  | intro {m : Module} (own : m.ScriptsTakeAll) (inside : ∀ e ∈ m.modules, TakesAll e.2) : TakesAll m

theorem TakesAll.own {m : Module} (h : m.TakesAll) : m.ScriptsTakeAll := by
  cases h with
  | intro own inside => exact own

theorem TakesAll.inside {m : Module} (h : m.TakesAll) : ∀ e ∈ m.modules, e.2.TakesAll := by
  cases h with
  | intro own inside => exact inside

theorem ScriptsTakeAll.merge {m n : Module} (hm : m.ScriptsTakeAll) (hn : n.ScriptsTakeAll)
    {values : Dict Text Value} {modules : List (Text × Module)} :
    ScriptsTakeAll { functions := m.functions.merge n.functions, values, modules } :=
  fun f mem => (Dict.mem_merge mem).elim (hn f) (hm f)

mutual

theorem takesAll_absorb {m : Module} (hm : m.TakesAll) : ∀ n : Module, n.TakesAll → (m.absorb n).TakesAll
  | ⟨functions, values, modules⟩, hn => by
    have first : (absorbAll m modules).TakesAll := takesAll_absorbAll hm modules hn.inside
    rw [absorb]
    exact .intro (first.own.merge hn.own) first.inside

theorem takesAll_absorbAll {m : Module} (hm : m.TakesAll) : ∀ modules : List (Text × Module),
    (∀ e ∈ modules, e.2.TakesAll) → (absorbAll m modules).TakesAll
  | [], _ => by
    rw [absorbAll]
    exact hm
  | (name, sub) :: rest, h => by
    obtain ⟨first, later⟩ := List.forall_mem_cons.mp h
    rw [absorbAll]
    exact takesAll_absorbAll (takesAll_absorb hm sub first) rest later

end

/-- A script function is put under parameters that take everything, and nothing that a host does to a
module changes this. -/
theorem Built.takesAll {m : Module} (h : m.Built) : m.TakesAll := by
  induction h with
  | empty => exact .intro (fun f mem => nomatch mem) fun e mem => nomatch mem
  | native h name params f access ih =>
    refine .intro (fun g mem script => ?_) ih.inside
    rcases Dict.mem_insert mem with rfl | old
    · cases script
    · exact ih.own g old script
  | valued h name v ih => exact .intro ih.own ih.inside
  | submodule h name h' ih ih' =>
    refine .intro ih.own fun e mem => ?_
    rcases Dict.mem_insert mem with rfl | old
    · exact ih'
    · exact ih.inside e old
  | script functions values h ih =>
    refine .intro (fun f mem _ p param => ?_) ih
    obtain ⟨⟨key, g⟩, -, rfl⟩ := List.mem_map.mp mem
    exact List.eq_of_mem_replicate param
  | combined h h' ih ih' =>
    refine .intro (ih.own.merge ih'.own) fun e mem => ?_
    exact (Dict.mem_merge mem).elim (ih'.inside e) (ih.inside e)
  | absorbed h h' ih ih' => exact takesAll_absorb ih _ ih'

theorem built_install {m : Module} (h : m.Built) (offers : List Package.Offer) :
    (Package.install m offers).Built := by
  induction offers generalizing m with
  | nil => exact h
  | cons offer offers ih =>
    obtain ⟨name, params, f⟩ := offer
    exact ih (h.native _ params f .exposed)

theorem built_core : Package.coreModule.Built := built_install .empty _

theorem built_runModule {ev : Evaluator} {script : Script} {m n : Machine} {made : Module}
    (ran : Eval.runModule ev script m = .ok made n) (inside : ∀ e ∈ made.modules, e.2.Built) :
    made.Built := by
  obtain ⟨-, -, -, functions, -⟩ := Eval.runModule_cases ran
  obtain ⟨own, values, modules⟩ := made
  cases functions
  exact .script script.functions values inside

end Module

theorem Store.typeOf_ne_any {s : Store} {fuel : Nat} {v : Value} {t : ValueType}
    (h : s.typeOf fuel v = .ok t) : t ≠ .any := by
  induction fuel generalizing v with
  | zero => cases h
  | succ fuel ih =>
    cases v with
    | shared c =>
      simp only [Store.typeOf] at h
      cases read : s.read c [] .nowhere with
      | error e =>
        rw [read] at h
        cases h
      | ok w =>
        rw [read] at h
        exact ih h
    | host w => cases w <;> cases h <;> rintro ⟨⟩
    | _ => cases h; rintro ⟨⟩

namespace Eval

theorem typesOf_cases {ev : Evaluator} {args : List Value} {types : List ValueType} {m n : Machine}
    (typed : typesOf ev args m = .ok types n) :
    n = m ∧ types.length = args.length ∧ ∀ t ∈ types, t ≠ .any := by
  induction args generalizing types with
  | nil =>
    cases typed
    exact ⟨rfl, rfl, fun t mem => nomatch mem⟩
  | cons v rest ih =>
    unfold typesOf at typed ih
    rw [List.mapM_cons] at typed
    obtain ⟨t, o, first, typed⟩ := bind_cases typed
    obtain ⟨ts, o', later, typed⟩ := bind_cases typed
    cases typed
    obtain ⟨known, rfl⟩ : m.store.typeOf ev.fuel v = .ok t ∧ o = m := by
      change (liftM (m.store.typeOf ev.fuel v) : Run ValueType) m = _ at first
      cases read : m.store.typeOf ev.fuel v with
      | ok u =>
        rw [read] at first
        cases first
        exact ⟨rfl, rfl⟩
      | error h =>
        rw [read] at first
        cases first
    obtain ⟨rfl, length, proper⟩ := ih later
    exact ⟨rfl, congrArg (· + 1) length, List.forall_mem_cons.mpr ⟨Store.typeOf_ne_any known, proper⟩⟩

end Eval

namespace Engine

open Scripting.Module

variable {engine : Engine} {name : Text} {types : List ValueType} {method : Bool} {f : Overload}

/-- Only a function of exactly the argument types can be one of a script. -/
theorem exact_of_isScript (found : engine.native? name types method = some f)
    (script : f.2.isScript = true) :
    engine.nativeModules.findSome? (fun m => m.withTypes? name types) = some f := by
  cases exact : engine.nativeModules.findSome? fun m => m.withTypes? name types with
  | some g =>
    unfold native? at found
    rw [exact] at found
    exact found
  | none =>
    rw [native?_eq_cheapest _ _ _ _ exact] at found
    obtain ⟨x, best, rfl⟩ := Option.map_eq_some_iff.mp found
    obtain ⟨m, -, bid⟩ := List.mem_filterMap.mp (cheapest_mem best)
    have native := (Option.filter_eq_some_iff.mp bid).2
    rw [script] at native
    cases native

/-- A script function takes everything, and no argument has this as its type: it can only be found for
a call without arguments. -/
theorem types_of_isScript (scripts : engine.ScriptsTakeAll) (proper : ∀ t ∈ types, t ≠ .any)
    (found : engine.native? name types method = some f) (script : f.2.isScript = true) : types = [] := by
  obtain ⟨m, there, same⟩ := List.exists_of_findSome?_eq_some (exact_of_isScript found script)
  obtain ⟨g, own, rfl⟩ := Option.map_eq_some_iff.mp same
  have takesAll := scripts m there _ (Dict.mem_of_find? own) script
  exact List.eq_nil_iff_forall_not_mem.mpr fun t mem => proper t mem (takesAll t mem)

end Engine

/-- The first module that has a function of this name without parameters has one of a script. -/
def Engine.MeetsScript (engine : Engine) (name : Text) : Prop :=
  ∃ f, engine.nativeModules.findSome? (fun m => m.withTypes? name []) = some f ∧ f.2.isScript = true

open Eval

/-- A function of a script that was taken for a native one fails without doing anything. -/
theorem callNative_script (engine : Engine) (ev : Evaluator) {f : Overload} (script : f.2.isScript = true)
    (name : Text) (method : Bool) (pos : Position) (m : Machine) :
    callNative engine ev f name method pos ([], m) =
      .error (.cause (.runtime (Text.lit "bad_function_call")) pos) ([], m) := by
  obtain ⟨signature, function⟩ := f
  cases body : function.body with
  | native g => simp [Function.isScript, Function.script?, body] at script
  | script g =>
    have run : runNative engine ev function name pos ([], m) =
        .error (.cause (.runtime (Text.lit "bad_function_call")) pos) ([], m) := by
      rw [runNative_script body]
      rfl
    exact bind_of_error run _

/-- The search for a native selects one that can be called, or nothing, for arguments of any types and
in every form of a call, but for one case: for a call without arguments it takes the first function of
the name without parameters, even if it is one of a script, and the call fails. -/
theorem selected_native_is_callable (engine : Engine) (built : ∀ m ∈ engine.nativeModules, m.Built)
    (ev : Evaluator) (name : Text) (args : List Value) (method : Bool) (pos : Position) (m n : Machine)
    (types : List ValueType) (typed : typesOf ev args m = .ok types n) :
    (args = [] ∧ engine.MeetsScript name → tryNative engine ev name method pos (args, m) =
      .error (.cause (.runtime (Text.lit "bad_function_call")) pos) (args, m)) ∧
    (¬ (args = [] ∧ engine.MeetsScript name) →
      engine.native? name types method = none ∧
        tryNative engine ev name method pos (args, m) = .ok none (args, m) ∨
      ∃ f g, engine.native? name types method = some f ∧ f.2.body = .native g ∧
        tryNative engine ev name method pos (args, m) =
          (some <$> callNative engine ev f name method pos) (args, m)) := by
  obtain ⟨rfl, length, proper⟩ := typesOf_cases typed
  have tried := tryNative_typed engine typed name method pos
  constructor
  · rintro ⟨rfl, f, exact, script⟩
    obtain rfl : types = [] := List.length_eq_zero_iff.mp length
    have found : engine.native? name [] method = some f := by
      unfold Engine.native?
      rw [exact]
    rw [tried, found]
    exact map_of_error (callNative_script engine ev script name method pos n) some
  · intro other
    cases found : engine.native? name types method with
    | none =>
      rw [found] at tried
      exact .inl ⟨rfl, tried⟩
    | some f =>
      rw [found] at tried
      cases body : f.2.body with
      | native g => exact .inr ⟨f, g, rfl, body, tried⟩
      | script g =>
        have script : f.2.isScript = true := by rw [Function.isScript, Function.script?, body]; rfl
        have scripts : engine.ScriptsTakeAll := fun m there => (built m there).takesAll.own
        obtain rfl : types = [] := Engine.types_of_isScript scripts proper found script
        obtain rfl : args = [] := List.length_eq_zero_iff.mp length.symm
        exact absurd ⟨rfl, f, Engine.exact_of_isScript found script, script⟩ other

/-- The script `fn f() { 1 }`. -/
def oneScript : Script where
  statements := []
  functions := [(⟨Text.lit "f", 0⟩,
    { name := Text.lit "f", access := .exposed, params := [], bodyPos := ⟨1, 8⟩, pos := ⟨1, 1⟩
      body := [.expr ⟨1, 10⟩ (.int ⟨1, 10⟩ (Integer.ofNat 1))] })]

/-- A native with a parameter, and a package with a function of a script of the same name. -/
def mixedEngine : Engine :=
  (Engine.raw.addNative (Text.lit "f") [.any] (.tagged .unit) .exposed).addPackage oneScript.library

/-- Without arguments the function of the script is found and cannot be called, with one the native is. -/
theorem selected_native_is_callable_mixed : (∀ m ∈ mixedEngine.nativeModules, m.Built) ∧
    let m : Machine := freshMachine {} {}
    let ev := evaluator mixedEngine 2
    typesOf ev [] m = .ok [] m ∧ tryNative mixedEngine ev (Text.lit "f") false ⟨1, 1⟩ ([], m) =
      .error (.cause (.runtime (Text.lit "bad_function_call")) ⟨1, 1⟩) ([], m) ∧
    typesOf ev [.unit] m = .ok [.unit] m ∧ ∃ f g,
      mixedEngine.native? (Text.lit "f") [.unit] false = some f ∧ f.2.body = .native g := by
  have built : ∀ m ∈ mixedEngine.nativeModules, m.Built := by
    intro m there
    simp only [Engine.nativeModules, mixedEngine, Engine.addPackage, Engine.addNative, Engine.raw,
      List.mem_cons, List.nil_append, List.not_mem_nil, or_false] at there
    rcases there with rfl | rfl
    · exact .native .empty _ _ _ _
    · exact .script oneScript.functions [] (by simp)
  let m : Machine := freshMachine {} {}
  let ev := evaluator mixedEngine 2
  have none : typesOf ev [] m = .ok [] m := rfl
  have one : typesOf ev [.unit] m = .ok [.unit] m := rfl
  have meets : mixedEngine.MeetsScript (Text.lit "f") := by
    have exact : (mixedEngine.nativeModules.findSome? (fun m => m.withTypes? (Text.lit "f") [])).map
        (·.2.isScript) = some true := by decide +kernel
    obtain ⟨f, found, script⟩ := Option.map_eq_some_iff.mp exact
    exact ⟨f, found, script⟩
  have found : (mixedEngine.native? (Text.lit "f") [.unit] false).isSome := by decide +kernel
  refine ⟨built, none, ?_, one, ?_⟩
  · exact (selected_native_is_callable mixedEngine built ev _ [] false ⟨1, 1⟩ m m [] none).1 ⟨rfl, meets⟩
  · rcases (selected_native_is_callable mixedEngine built ev (Text.lit "f") [.unit] false ⟨1, 1⟩ m m
      [.unit] one).2 (by simp) with ⟨nothing, -⟩ | ⟨f, g, chosen, body, -⟩
    · rw [nothing] at found
      cases found
    · exact ⟨f, g, chosen, body⟩

def faultText {σ α : Type} : EStateM.Result Halt σ α → Option Text
  | .error (.error e) _ => some e.message
  | _ => none

/-- With the module of the script `fn f() { 1 }` as a package, `f()` finds the function of the script
for a native and cannot call it. -/
theorem package_script_is_taken_for_native :
    (match Engine.raw.compile false [Text.lit "fn f() \x7b 1 \x7d"] 0 with
      | (.ok script, next) =>
        match Engine.raw.makeModule script { world := { nextClosure := next } } with
        | .ok made s =>
          let engine := Engine.raw.addPackage made
          match engine.compile false [Text.lit "f()"] s.world.nextClosure with
          | (.ok script, _) => ((engine.native? (Text.lit "f") [] false).map (·.2.isScript),
              faultText (engine.run script s))
          | (.error _, _) => (none, none)
        | .error _ _ => (none, none)
      | (.error _, _) => (none, none)) =
    (some true, some (Text.lit "RuntimeError: bad_function_call (line 1, position 1)")) := by
  decide +kernel

end Scripting
