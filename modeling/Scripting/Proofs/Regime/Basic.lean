import Scripting.Proofs.Contract.Basic
import Scripting.Proofs.Regime.Does

/-
What evaluation is made of, under a regime: counting, looking at values, checking sizes, and finding
functions and modules.
-/
namespace Scripting

namespace Regime

variable {engine : Engine} (R : Regime engine)

def Carries (name : Text) (args : List Value) : Prop :=
  ∀ v ∈ args, R.plain v ∨ v.isShared = true ∧ R.lends name

def Object (this : Option Value) : Prop := ∀ v, this = some v → R.plain v

def Plain (args : List Value) : Prop := ∀ v ∈ args, R.plain v

def Passing (args : List Value) : Prop := ∀ v ∈ args, R.passes v

structure Evaluates (ev : Evaluator) : Prop where
  native : ev.native = Native.apply engine.arithmetic ev.fuel
  eval : ∀ looping e, Obeys R.rule looping (.expr e) → R.Does (.body looping) R.plain (ev.eval e)
  exec : ∀ looping s, Obeys R.rule looping (.stmt s) → R.Does (.body looping) R.plain (ev.exec s)
  call : ∀ name args exposedOnly pos, R.Carries name args →
    R.Holds .call R.Object R.plain (ev.callNamed name args exposedOnly pos)

variable {R}

theorem object_none : R.Object none := by
  intro v never
  cases never

theorem object_some {v : Value} (hv : R.plain v) : R.Object (some v) := by
  intro w eq
  cases eq
  exact hv

theorem plain_nil : R.Plain [] := by
  intro v never
  cases never

theorem Plain.cons {v : Value} {args : List Value} (hv : R.plain v) (h : R.Plain args) :
    R.Plain (v :: args) :=
  List.forall_mem_cons.mpr ⟨hv, h⟩

theorem Plain.append {args more : List Value} (h : R.Plain args) (h' : R.Plain more) :
    R.Plain (args ++ more) :=
  List.forall_mem_append.mpr ⟨h, h'⟩

theorem Plain.tail {args : List Value} (h : R.Plain args) : R.Plain args.tail :=
  fun v hv => h v (List.mem_of_mem_tail hv)

theorem Plain.headD {args : List Value} (h : R.Plain args) {v : Value} (hv : R.plain v) :
    R.plain (args.headD v) := by
  cases args with
  | nil => exact hv
  | cons w rest => exact h w List.mem_cons_self

theorem Plain.passing {args : List Value} (h : R.Plain args) : R.Passing args :=
  fun v hv => passes_of_plain (h v hv)

theorem Plain.carries {args : List Value} (h : R.Plain args) (name : Text) : R.Carries name args :=
  fun v hv => Or.inl (h v hv)

theorem Carries.passing {name : Text} {args : List Value} (h : R.Carries name args) :
    R.Passing args := by
  intro v hv
  rcases h v hv with plain | ⟨shared, -⟩
  · exact Or.inr plain
  · exact Or.inl shared

theorem carries_curry {name : Text} {curry args : List Value} (h : R.plain (.fn name curry))
    (hargs : R.Plain args) : R.Carries name (curry ++ args) :=
  List.forall_mem_append.mpr ⟨(R.fn name curry).mp h, hargs.carries name⟩

end Regime

namespace Regime

variable {engine : Engine} {R : Regime engine} {way : Way} {ev : Evaluator}

open Eval

theorem tick_does (pos : Position) : R.Does way (fun _ => True) (tick engine pos) := by
  intro m hm
  have sound : (m.ticked engine).Sound R := hm.idle _ _ _ _ _
  refine tick_ends pos m ?_ ?_
  · exact fun _ => ⟨sound, trivial⟩
  · exact fun _ _ => ⟨allows_fault rfl, Or.inr sound⟩

theorem say_does (message : Message) : R.Does way (fun _ => True) (say engine message) := by
  unfold say
  split
  · exact Does.change fun n hn => hn.idle n.operations n.world.progress n.world.nextClosure _
      n.world.loading
  · exact Does.give trivial

theorem tooLarge_of_checkSize {v : Value} {pos : Position} {h : Halt}
    (refused : checkSize engine v pos = .error h) : h.isTooLarge = true := by
  unfold checkSize at refused
  dsimp only at refused
  split at refused
  case h_4 => cases refused
  all_goals
    split at refused
    · cases refused
      rfl
    · cases refused

theorem checkSize_does (v : Value) (pos : Position) :
    R.Does way (fun _ => R.fits v) (liftM (checkSize engine v pos)) :=
  Does.look (checkSize_faults v pos) fun _ ok => R.checked v pos ok

theorem checkSize_ends {φ : Type} {v : Value} (hv : R.nearly v) (pos : Position) (s : φ × Machine) :
    Ends (fun _ t => t = s ∧ R.plain v)
      (fun h t => R.allows way h ∧ (R.spoils h ∨ t = s ∧ ∀ v, R.plain v))
      ((liftM (checkSize engine v pos) : Held φ Unit) s) := by
  cases checked : checkSize engine v pos with
  | ok _ => exact ⟨rfl, hv (R.checked v pos checked)⟩
  | error e =>
    refine ⟨allows_fault (checkSize_faults v pos e checked), ?_⟩
    by_cases free : ∀ v, R.plain v
    · exact Or.inr ⟨rfl, free⟩
    · exact Or.inl ⟨tooLarge_of_checkSize checked, free⟩

theorem flatten_does {v : Value} (hv : R.passes v) : R.Does way R.plain (flatten ev v) := by
  refine Does.get_bind fun m hm => ?_
  exact Does.look (m.store.flatten_faults ev.fuel v)
    (fun w eq => Store.flatten_plain hm.world.cells hv eq) m hm

theorem typeOf_does (v : Value) : R.Does way (fun _ => True) (typeOf ev v) := by
  refine Does.get_bind fun m hm => ?_
  exact Does.look (m.store.typeOf_faults ev.fuel v) (fun _ _ => trivial) m hm

theorem displayText_does (v : Value) : R.Does way (fun _ => True) (displayText ev v) := by
  refine Does.get_bind fun m hm => ?_
  exact Does.look (v.displayText_faults m.store ev.fuel) (fun _ _ => trivial) m hm

theorem debugText_does (v : Value) : R.Does way (fun _ => True) (debugText ev v) := by
  refine Does.get_bind fun m hm => ?_
  exact Does.look (v.debugText_faults m.store ev.fuel) (fun _ _ => trivial) m hm

theorem scriptFn?_does (name : Text) (arity : Nat) (exposedOnly : Bool) :
    R.Does way (fun found => ∀ target, found = some target →
      target.function.Obeys R.rule ∧ target.library.Sound R) (scriptFn? name arity exposedOnly) := by
  refine Does.get_bind fun m hm => ?_
  cases own : m.library.scriptFn? name arity exposedOnly with
  | some f =>
    refine Does.give ?_ m hm
    intro target eq
    cases eq
    exact ⟨hm.library.scriptFn? own, hm.library⟩
  | none =>
    refine Does.give ?_ m hm
    intro target eq
    obtain ⟨f, found, rfl⟩ := Option.map_eq_some_iff.mp eq
    exact ⟨hm.root.scriptFn? found, hm.root⟩

theorem walkPath_does (pos : Position) (seen : List Text) {m : Module} (hm : m.Sound R)
    (path : List Text) : R.Does way (fun found => found.Sound R) (walkPath pos seen m path) := by
  induction path generalizing seen m with
  | nil => exact Does.give hm
  | cons name rest ih =>
    unfold walkPath
    cases found : m.module? name with
    | some sub => exact ih (seen ++ [name]) (hm.modules _ (Dict.mem_of_find? found))
    | none => exact Does.fail _ pos

theorem findModule_does (path : List Text) (pos : Position) :
    R.Does way (fun found => found.Sound R) (findModule path pos) := by
  cases path with
  | nil => exact Does.fail _ pos
  | cons first rest =>
    refine Does.get_bind fun m hm => ?_
    cases imported : Dict.find? first m.imports with
    | some found =>
      exact walkPath_does pos [first] (hm.imports _ (Dict.mem_of_find? imported)) rest m hm
    | none =>
      cases own : m.library.module? first with
      | some found =>
        exact walkPath_does pos [first] (hm.library.modules _ (Dict.mem_of_find? own)) rest m hm
      | none => exact Does.fail _ pos m hm

end Regime

end Scripting
