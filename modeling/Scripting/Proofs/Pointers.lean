import Scripting.Proofs.Closures
import Scripting.Proofs.Course.Watch
import Scripting.Proofs.Parsing.Names
import Scripting.Proofs.QualifiedNames
import Scripting.Proofs.SharedVariables

/-
Calls of closures by their pointers. A pointer holds the name of the function and the captured cells,
but not the library that the function is in. So a call finds the closure where the calling function's
library, or that of the script the run started with, is the one of the script that made it. No other
library has a function of that name, and elsewhere the call fails.
-/
namespace Scripting

open Eval

namespace Module

variable {first next id : Nat} {found : Module}

def Lacks (first next : Nat) (functions : Dict Signature Function) : Prop :=
  ∀ e ∈ functions, ∀ id, first ≤ id → id < next → e.1.name ≠ closureName id

theorem Lacks.scriptFn? (h : Lacks first next found.functions) (since : first ≤ id) (before : id < next)
    (arity : Nat) (exposedOnly : Bool) :
    found.scriptFn? (closureName id) arity exposedOnly = none := by
  have absent : found.fn? (Signature.ofScript (closureName id) arity) = none := by
    cases there : found.fn? (Signature.ofScript (closureName id) arity) with
    | none => rfl
    | some f => exact absurd rfl (h _ (Dict.mem_of_find? there) id since before)
  unfold Module.scriptFn?
  rw [absent]
  rfl

theorem scriptFn?_congr {other : Module} (same : found.functions = other.functions) (name : Text)
    (arity : Nat) (exposedOnly : Bool) :
    found.scriptFn? name arity exposedOnly = other.scriptFn? name arity exposedOnly := by
  unfold Module.scriptFn? Module.fn?
  rw [same]

theorem fn?_ofFunctions (functions : Dict FnKey ScriptFn) (name : Text) (arity : Nat) :
    (ofFunctions functions).fn? (Signature.ofScript name arity) =
      (functions.find? ⟨name, arity⟩).map fun f => { access := f.access, body := .script f } := by
  induction functions with
  | nil => rfl
  | cons e rest ih =>
    obtain ⟨key, f⟩ := e
    unfold fn? ofFunctions
    simp only [List.map_cons]
    unfold Dict.find?
    by_cases same : key = ⟨name, arity⟩
    · subst same
      simp
    · have differ : Signature.ofScript key.name key.arity ≠ Signature.ofScript name arity := by
        intro alike
        have names : key.name = name := congrArg Signature.name alike
        have arities := congrArg (fun s : Signature => s.params.length) alike
        simp only [Signature.ofScript, List.length_replicate] at arities
        exact same (by rw [← names, ← arities])
      rw [if_neg differ, if_neg same]
      exact ih

theorem scriptFn?_ofFunctions {functions : Dict FnKey ScriptFn} {f : ScriptFn}
    (found : functions.find? f.key = some f) (exposed : f.access = .exposed) (exposedOnly : Bool) :
    (ofFunctions functions).scriptFn? f.name f.params.length exposedOnly = some f := by
  have there : functions.find? ⟨f.name, f.params.length⟩ = some f := found
  unfold scriptFn?
  rw [fn?_ofFunctions, there]
  cases exposedOnly <;> simp [Function.isHidden, Function.script?, exposed]

inductive Throughout (P : Dict Signature Function → Prop) : Module → Prop where
  | intro {m : Module} (functions : P m.functions) (modules : ∀ e ∈ m.modules, Throughout P e.2) :
      Throughout P m

variable {P : Dict Signature Function → Prop}

theorem Throughout.functions (h : found.Throughout P) : P found.functions := by
  cases h with
  | intro functions modules => exact functions

theorem Throughout.modules (h : found.Throughout P) : ∀ e ∈ found.modules, e.2.Throughout P := by
  cases h with
  | intro functions modules => exact modules

end Module

open Scripting.Module

structure Machine.Throughout (P : Dict Signature Function → Prop) (m : Machine) : Prop where
  library : m.library.Throughout P
  root : m.root.Throughout P
  imports : ∀ e ∈ m.imports, e.2.Throughout P
  table : ∀ e ∈ m.world.table, e.2.Throughout P
  loaded : ∀ e ∈ m.world.loaded, e.2.Throughout P

structure Standing.Throughout (P : Dict Signature Function → Prop) (s : Standing) : Prop where
  now : s.now.Throughout P
  waiting : ∀ f ∈ s.waiting, f.machine.Throughout P

section Travelling

variable {P : Dict Signature Function → Prop} {m n : Machine}

theorem Machine.Throughout.reaches (h : m.Throughout P) {found : Module} (reaches : m.Reaches found) :
    found.Throughout P := by
  induction reaches with
  | library => exact h.library
  | root => exact h.root
  | imported there => exact h.imports _ there
  | table there => exact h.table _ (Dict.mem_of_find? there)
  | loaded there => exact h.loaded _ (Dict.mem_of_find? there)
  | inner _ there ih => exact ih.modules _ (Dict.mem_of_find? there)

theorem Machine.Throughout.same (h : m.Throughout P) (library : n.library = m.library)
    (root : n.root = m.root) (imports : n.imports ⊆ m.imports)
    (table : n.world.table = m.world.table) (loaded : n.world.loaded = m.world.loaded) :
    n.Throughout P :=
  ⟨library ▸ h.library, root ▸ h.root, fun e he => h.imports e (imports he), table ▸ h.table,
    loaded ▸ h.loaded⟩

variable {engine : Engine} {C : Course engine} {s : Standing} {a : Act} {acts : List Act}

/-- Acts bring no functions but those of the scripts that they start. -/
theorem Course.Fits.throughout (fits : C.Fits a s) (h : s.Throughout P)
    (new : ∀ shelf script next, a = .begin shelf script next → P script.library.functions) :
    (a.next s).Throughout P := by
  obtain ⟨now, waiting⟩ := s
  obtain ⟨hnow, hwaiting⟩ := h
  dsimp only at hnow hwaiting
  cases a with
  | capture name =>
    refine ⟨?_, hwaiting⟩
    change (now.capture name).Throughout P
    unfold Machine.capture
    split
    · exact hnow
    · exact hnow.same rfl rfl (fun _ he => he) rfl rfl
  | bind name found =>
    exact ⟨⟨hnow.library, hnow.root, List.forall_mem_cons.mpr ⟨hnow.reaches fits, hnow.imports⟩,
      hnow.table, hnow.loaded⟩, hwaiting⟩
  | cut entries imports =>
    exact ⟨hnow.same rfl rfl (List.drop_subset _ _) rfl rfl, hwaiting⟩
  | call scope library this =>
    exact ⟨⟨hnow.reaches fits.1, hnow.root, hnow.imports, hnow.table, hnow.loaded⟩,
      List.forall_mem_cons.mpr ⟨hnow, hwaiting⟩⟩
  | back =>
    obtain ⟨m, rest, eq⟩ := fits
    cases eq
    obtain ⟨hm, hrest⟩ := List.forall_mem_cons.mp hwaiting
    exact ⟨⟨hm.library, hnow.root, fun e he => hnow.imports e (List.drop_subset _ _ he), hnow.table,
      hnow.loaded⟩, hrest⟩
  | begin path script next =>
    have library : script.library.Throughout P :=
      .intro (new path script next rfl) (by simp [Script.library, ofFunctions])
    exact ⟨⟨library, library, (fun _ none => by cases none), hnow.table, hnow.loaded⟩,
      List.forall_mem_cons.mpr ⟨hnow, hwaiting⟩⟩
  | finish found =>
    obtain ⟨m, path, rest, eq, made⟩ := fits
    cases eq
    obtain ⟨hm, hrest⟩ := List.forall_mem_cons.mp hwaiting
    have rejoined : (m.rejoin now path).Throughout P :=
      ⟨hm.library, hm.root, hm.imports, hnow.table, hnow.loaded⟩
    cases found with
    | none => exact ⟨rejoined, hrest⟩
    | some found =>
      obtain ⟨functions, -, modules, -⟩ := made found rfl
      have kept : found.Throughout P := by
        refine .intro ?_ fun e he => hnow.imports e (modules e he)
        rw [functions]
        exact hnow.library.functions
      refine ⟨⟨hm.library, hm.root, hm.imports, hnow.table, fun e he => ?_⟩, hrest⟩
      rcases Dict.mem_insert he with rfl | old
      · exact kept
      · exact hnow.loaded e old
  | _ => exact ⟨hnow.same rfl rfl (fun _ he => he) rfl rfl, hwaiting⟩

theorem Course.Fits.nextClosure_le (fits : C.Fits a s) :
    s.now.world.nextClosure ≤ (a.next s).now.world.nextClosure := by
  obtain ⟨now, waiting⟩ := s
  cases a with
  | idle operations progress nextClosure messages => exact fits.2
  | capture name =>
    change now.world.nextClosure ≤ (now.capture name).world.nextClosure
    unfold Machine.capture
    split <;> exact Nat.le_refl _
  | back =>
    obtain ⟨m, rest, eq⟩ := fits
    cases eq
    exact Nat.le_refl _
  | begin path script next =>
    obtain ⟨source, -, -, -, compiled, -⟩ := fits
    have later := engine.compile_next false [source] now.world.nextClosure
    rw [compiled] at later
    exact later
  | finish found =>
    obtain ⟨m, path, rest, eq, -⟩ := fits
    cases eq
    cases found <;> exact Nat.le_refl _
  | _ => exact Nat.le_refl _

end Travelling

def Script.Sorts (script : Script) (first next : Nat) (functions : Dict Signature Function) : Prop :=
  functions = script.library.functions ∨ Lacks first next functions

section Compiled

variable {engine : Engine} {asExpression : Bool} {pieces : List Text} {first next : Nat}
  {script : Script}

theorem Script.Numbered.lacks (h : script.Numbered first next) {first' next' : Nat}
    (apart : next ≤ first' ∨ next' ≤ first) : Lacks first' next' script.library.functions := by
  intro e he id since before named
  obtain ⟨⟨key, f⟩, there, rfl⟩ := List.mem_map.mp he
  have name : f.name = closureName id := by
    have keyed : key = f.key := h.keys _ there
    have same : key.name = closureName id := named
    rw [keyed] at same
    exact same
  have own := h.numbers _ there id name
  omega

theorem Engine.compiled_numbered (compiled : engine.compile asExpression pieces first = (.ok script, next)) :
    script.Numbered first next :=
  Engine.compile_numbered compiled (engine.dialect.unmarked_tokens pieces)

/-- A closure of a script that was compiled has its function there, by a number of its own. -/
theorem Engine.compiled_closure (compiled : engine.compile asExpression pieces first = (.ok script, next))
    {pos : Position} {name : Text} {captured : List Text}
    (literal : .closure pos name captured ∈ script.mentions) :
    ∃ id declared f, first ≤ id ∧ id < next ∧ name = closureName id ∧
      Grammar.Generates (engine.settings asExpression)
        ((engine.dialect.tokens pieces).takeWhile (!·.1.isEof)) (.closure pos name captured) declared f ∧
      f.name = name ∧ Grammar.Closes captured declared f ∧ script.functions.find? f.key = some f := by
  have accepted : (Grammar.parse (engine.settings asExpression) asExpression
      (engine.dialect.tokens pieces) first).1 = .ok script := congrArg Prod.fst compiled
  have clear : Grammar.Unmarked (Grammar.State.start (engine.dialect.tokens pieces) first).rest :=
    fun token there => engine.dialect.unmarked_tokens pieces token (List.takeWhile_subset _ there)
  obtain ⟨t, functions, statements, bodies⟩ := Grammar.parse_made accepted
  obtain ⟨declared, f, generates, named, closes, kept⟩ : Grammar.Made _ _ t
      (.closure pos name captured) := by
    rcases List.mem_append.mp literal with top | inside
    · exact statements _ top
    · obtain ⟨f, there, within⟩ := List.mem_flatMap.mp inside
      exact bodies f there _ within
  obtain ⟨⟨id, -, numbered⟩, found⟩ := kept clear
  rw [functions] at found
  have own := (Engine.compiled_numbered compiled).numbers _ (Dict.mem_of_find? found) id
    (named.trans numbered)
  exact ⟨id, declared, f, own.1, own.2, numbered, generates, named, closes, found⟩

end Compiled

def Machine.Away (m : Machine) (first next : Nat) : Prop :=
  Lacks first next m.library.functions ∧ Lacks first next m.root.functions

namespace Script

variable (script : Script) (first next : Nat)

def Home (m : Machine) : Prop :=
  m.library.functions = script.library.functions ∨
    Lacks first next m.library.functions ∧ m.root.functions = script.library.functions

variable {script first next}

theorem home_or_away {m : Machine} (h : m.Throughout (script.Sorts first next)) :
    script.Home first next m ∨ m.Away first next := by
  rcases h.library.functions with home | lacks
  · exact Or.inl (Or.inl home)
  · rcases h.root.functions with home | lacks'
    · exact Or.inl (Or.inr ⟨lacks, home⟩)
    · exact Or.inr ⟨lacks, lacks'⟩

end Script

namespace Eval

variable {engine : Engine} {ev : Evaluator} {script : Script} {first next id : Nat} {m : Machine}
  {f : ScriptFn} {args : List Value} {exposedOnly : Bool} {pos : Position} {this : Option Value}
  {name : Text}

theorem callNamed_script {target : Target}
    (found : scriptFn? name args.length exposedOnly m = .ok (some target) m) :
    callNamed engine ev name args exposedOnly pos (this, m) =
      callScript engine ev target args pos (this, m) :=
  bind_of_ok (Held.lift_of_ok found this) _

theorem tryNative_none {types : List ValueType} {method : Bool} (typed : typesOf ev args m = .ok types m)
    (unknown : engine.native? name types method = none) :
    tryNative engine ev name method pos (args, m) = .ok none (args, m) := by
  refine (bind_of_ok (show Held.held (args, m) = .ok args (args, m) from rfl) _).trans ?_
  refine (bind_of_ok (Held.lift_of_ok typed args) _).trans ?_
  simp only [unknown]
  rfl

theorem notFound_of_types {α : Type} {types : List ValueType} (typed : typesOf ev args m = .ok types m) :
    (notFound engine ev name args pos : Run α) m =
      .error (.cause (.functionNotFound (engine.signatureText name types)) pos) m :=
  bind_of_ok typed _

theorem callNamed_missing {types : List ValueType}
    (missing : scriptFn? name args.length exposedOnly m = .ok none m)
    (typed : typesOf ev (this.toList ++ args) m = .ok types m)
    (unknown : ∀ method, engine.native? name types method = none) :
    callNamed engine ev name args exposedOnly pos (this, m) =
      .error (.cause (.functionNotFound (engine.signatureText name types)) pos) (this, m) := by
  refine (bind_of_ok (Held.lift_of_ok missing this) _).trans ?_
  refine (bind_of_ok (show Held.held (this, m) = .ok this (this, m) from rfl) _).trans ?_
  have refused : (do Held.lift (notFound engine ev name ((← Held.held).toList ++ args) pos) :
      Held (Option Value) Value) (this, m) =
      .error (.cause (.functionNotFound (engine.signatureText name types)) pos) (this, m) :=
    Held.lift_of_error (notFound_of_types typed) this
  cases this with
  | none =>
    have tried : tryNative engine ev name false pos (args, m) = .ok Option.none (args, m) :=
      tryNative_none typed (unknown false)
    exact (bind_of_ok (Held.lift_of_ok (Held.drop_of_ok tried) Option.none) _).trans refused
  | some v =>
    have tried : tryNative engine ev name true pos (v :: args, m) = .ok Option.none (v :: args, m) :=
      tryNative_none typed (unknown true)
    have asked : asFirst args (tryNative engine ev name true pos) (v, m) = .ok Option.none (v, m) :=
      Held.zoom_of_ok tried _ v
    exact (bind_of_ok (Held.zoom_of_ok asked _ (some v)) _).trans refused

theorem scriptFn?_home (home : script.Home first next m) (since : first ≤ id) (before : id < next)
    (named : f.name = closureName id) (found : script.functions.find? f.key = some f)
    (exposed : f.access = .exposed) :
    ∃ library : Module, library.functions = script.library.functions ∧
      scriptFn? f.name f.params.length exposedOnly m = .ok (some ⟨f, library⟩) m := by
  have own : script.library.scriptFn? f.name f.params.length exposedOnly = some f :=
    scriptFn?_ofFunctions found exposed exposedOnly
  rw [Survey.scriptFn?_eq]
  rcases home with same | ⟨lacks, same⟩
  · refine ⟨m.library, same, ?_⟩
    rw [scriptFn?_congr same, own]
  · refine ⟨m.root, same, ?_⟩
    rw [named, lacks.scriptFn? since before, ← named, scriptFn?_congr same, own]
    rfl

theorem scriptFn?_away (away : m.Away first next) (since : first ≤ id) (before : id < next)
    (arity : Nat) : scriptFn? (closureName id) arity exposedOnly m = .ok none m := by
  rw [Survey.scriptFn?_eq, away.1.scriptFn? since before, away.2.scriptFn? since before]
  rfl

end Eval

theorem Scope.cells_of_aliases {s : Scope} {names : List Text} {values : List Value}
    (carried : List.Forall₂ (fun x v => ∃ c, s.Aliases x c ∧ v = .shared c) names values) :
    ∃ cells : List Nat, values = cells.map .shared ∧
      List.Forall₂ (fun x c => s.Aliases x c) names cells := by
  induction carried with
  | nil => exact ⟨[], rfl, .nil⟩
  | cons first rest ih =>
    obtain ⟨c, stands, rfl⟩ := first
    obtain ⟨cells, rfl, all⟩ := ih
    exact ⟨c :: cells, rfl, .cons stands all⟩

theorem Course.Lawful.throughout {engine : Engine} {C : Course engine} {s : Standing} {acts : List Act}
    {script : Script} {first next : Nat} (lawful : C.Lawful s acts)
    (start : s.Throughout (script.Sorts first next)) (later : next ≤ s.now.world.nextClosure) :
    ∀ t ∈ s.passed acts, t.Throughout (script.Sorts first next) := by
  induction acts generalizing s with
  | nil =>
    intro t ht
    rw [List.mem_singleton.mp ht]
    exact start
  | cons a rest ih =>
    intro t ht
    rcases List.mem_cons.mp ht with rfl | after
    · exact start
    · refine ih lawful.2 (lawful.1.throughout start ?_) (later.trans lawful.1.nextClosure_le) t after
      rintro path other last rfl
      obtain ⟨source, -, -, -, compiled, -⟩ := lawful.1
      exact Or.inr ((Engine.compiled_numbered compiled).lacks (Or.inr later))

/-- The pointer of a closure goes by name. It carries the cells of what the closure captured; called
with as many arguments as the closure declares, by scripts or by natives, it runs the body of the
closure on these cells if the calling function's library is the one of the script that made the
closure, or if that has nothing of the name and the root's is; and elsewhere the call fails, because
there is no such function. On a run there are no other machines than these two kinds, whichever
script is run. -/
theorem pointers_follow_their_library (engine : Engine) {pieces : List Text} {first next : Nat}
    {script : Script} (compiled : engine.compile false pieces first = (.ok script, next)) {pos : Position}
    {name : Text} {captured : List Text} (literal : .closure pos name captured ∈ script.mentions) :
    ∃ declared f, Grammar.Generates (engine.settings false)
        ((engine.dialect.tokens pieces).takeWhile (!·.1.isEof)) (.closure pos name captured) declared f ∧
      f.name = name ∧ f.params = captured ++ declared ∧
      (∀ fuel m v n, evalAt engine fuel (.closure pos name captured) m = .ok v n →
        ∃ cells : List Nat, v = .fn name (cells.map .shared) ∧
          List.Forall₂ (fun x c => n.scope.Aliases x c) captured cells) ∧
      (∀ ev (cells : List Nat) args exposedOnly pos this m, cells.length = captured.length →
        args.length = declared.length →
        (script.Home first next m → ∃ library : Module,
          library.functions = script.library.functions ∧
          callNamed engine ev name (cells.map .shared ++ args) exposedOnly pos (this, m) =
            callScript engine ev ⟨f, library⟩ (cells.map .shared ++ args) pos (this, m)) ∧
        (m.Away first next → ∀ types,
          typesOf ev (this.toList ++ (cells.map .shared ++ args)) m = .ok types m →
          (∀ method, engine.native? name types method = none) →
          callNamed engine ev name (cells.map .shared ++ args) exposedOnly pos (this, m) =
            .error (.cause (.functionNotFound (engine.signatureText name types)) pos) (this, m))) ∧
      (∀ K : Kind, (∀ m ∈ engine.nativeModules, m.Fair K) → ∀ (top : Script) (s : Stage), s.Tidy K →
        next ≤ s.world.nextClosure →
        (s.start top.library 0).Throughout (script.Sorts first next) →
        ∀ m, engine.Passes (Engine.runBy top) s m →
          script.Home first next m ∨ m.Away first next) := by
  obtain ⟨id, declared, f, since, before, numbered, generates, rfl, closes, found⟩ :=
    Engine.compiled_closure compiled literal
  refine ⟨declared, f, generates, rfl, closes.params, ?_, ?_, ?_⟩
  · intro fuel m v n evaluated
    obtain ⟨curry, rfl, carried, -⟩ := evalAt_closure evaluated
    obtain ⟨cells, rfl, aliases⟩ := Scope.cells_of_aliases carried
    exact ⟨cells, rfl, aliases⟩
  · intro ev cells args exposedOnly pos this m carried given
    have arity : (cells.map Value.shared ++ args).length = f.params.length := by
      rw [closes.params, List.length_append, List.length_append, List.length_map, carried, given]
    constructor
    · intro home
      obtain ⟨library, same, there⟩ := scriptFn?_home home since before numbered found closes.exposed
      refine ⟨library, same, callNamed_script ?_⟩
      rw [arity]
      exact there
    · intro away types typed unknown
      refine callNamed_missing ?_ typed unknown
      rw [numbered]
      exact scriptFn?_away away since before _
  · intro K natives top s tidy later sorted m passes
    obtain ⟨acts, out, traces⟩ := Engine.traces_run natives top tidy
    obtain ⟨t, passed, rfl⟩ := List.mem_map.mp (traces.passes m passes)
    have start : (s.start top.library 0).alone.Throughout (script.Sorts first next) :=
      ⟨sorted, fun _ none => by cases none⟩
    exact Script.home_or_away (traces.leads.lawful.throughout start later t passed).now

def addingPieces : List Text := [Text.lit "let a = 1; let f = |x| x + a;"]

def addingScript : Script := (Engine.standard.compile false addingPieces 0).1.toOption.getD {}

theorem pointers_follow_their_library_adding :
    Engine.standard.compile false addingPieces 0 = (.ok addingScript, 1) ∧
      .closure ⟨1, 20⟩ (closureName 0) [Text.lit "a"] ∈ addingScript.mentions ∧
      ∃ declared f, f.name = closureName 0 ∧ f.params = [Text.lit "a"] ++ declared ∧
        ∀ ev c args pos this m, args.length = declared.length → m.library = addingScript.library →
          ∃ library : Module, library.functions = addingScript.library.functions ∧
            callNamed Engine.standard ev (closureName 0) (.shared c :: args) true pos (this, m) =
              callScript Engine.standard ev ⟨f, library⟩ (.shared c :: args) pos (this, m) := by
  have compiled : Engine.standard.compile false addingPieces 0 = (.ok addingScript, 1) := by
    have ok : (Engine.standard.compile false addingPieces 0).1.toOption.isSome = true := by
      decide +kernel
    have last : (Engine.standard.compile false addingPieces 0).2 = 1 := by decide +kernel
    unfold addingScript
    cases read : Engine.standard.compile false addingPieces 0 with
    | mk result next =>
      rw [read] at ok last
      cases last
      cases result with
      | error stop => simp [Except.toOption] at ok
      | ok script => rfl
  have literal : .closure ⟨1, 20⟩ (closureName 0) [Text.lit "a"] ∈ addingScript.mentions := by
    decide +kernel
  obtain ⟨declared, f, -, named, params, -, calls, -⟩ :=
    pointers_follow_their_library Engine.standard compiled literal
  refine ⟨compiled, literal, declared, f, named, params, ?_⟩
  intro ev c args pos this m given home
  exact (calls ev [c] args true pos this m rfl given).1 (Or.inl (congrArg Module.functions home))

/-- The script `let f = || 1; export f;`. -/
def lendingScript : Script where
  statements := [
    .declare .nowhere false (Text.lit "f") (some (.closure .nowhere (closureName 0) [])),
    .exportNames .nowhere [(Text.lit "f", none)]]
  functions := [(⟨closureName 0, 0⟩, {
    name := closureName 0, access := .exposed, params := []
    body := [.expr .nowhere (.int .nowhere (Integer.ofNat 1))], bodyPos := .nowhere, pos := .nowhere })]

def callF : Stmt :=
  .expr .nowhere (.method .nowhere (.var .nowhere (Text.lit "f") []) (Text.lit "call") [])

/-- The script `import "m" as m; let f = m::f; f.call()`. -/
def borrowingScript : Script where
  statements := [importAs "m" "m",
    .declare .nowhere false (Text.lit "f") (some (.var .nowhere (Text.lit "f") [Text.lit "m"])), callF]

/-- What a script ends with: an integer, or the signature of a function that is not found. -/
def endOf (outcome : EStateM.Result Halt Stage Value) : Option (Int ⊕ Text) :=
  match outcome with
  | .ok (.int _ n) _ => some (.inl n.val)
  | .error (.error ⟨.functionNotFound signature, _⟩) _ => some (.inr signature)
  | _ => none

/-- A closure that can be called in its own script is not found from a script that has imported it. -/
theorem lent_closure_is_not_found :
    endOf (tableEngine.run { lendingScript with statements := lendingScript.statements ++ [callF] }
      { world := {} }) = some (.inl 1) ∧
    (match tableEngine.makeModule lendingScript { world := { nextClosure := 1 } } with
      | .ok made s => endOf (tableEngine.run borrowingScript
          { world := { s.world with table := [(⟨0, Text.lit "m"⟩, made)] } })
      | .error .. => none) = some (.inr (Text.lit "anon$0 ()")) := by
  decide +kernel

end Scripting
