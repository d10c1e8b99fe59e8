import Scripting.Proofs.Contract.Basic
import Scripting.Proofs.Course.Survey

/-
What evaluation is made of, surveyed: counting, looking at values, and finding functions and modules.
-/
namespace Scripting

namespace Value

mutual

/-- How much there is to a value that can be called or passed on: the items of arrays and the
arguments of pointers count. -/
def weight : Value → Nat
  | .array items => 1 + weights items
  | .fn _ curry => 1 + weights curry
  | _ => 1

def weights : List Value → Nat
  | [] => 0
  | v :: vs => v.weight + weights vs

end

theorem weights_append (vs ws : List Value) : weights (vs ++ ws) = weights vs + weights ws := by
  induction vs with
  | nil => simp [weights]
  | cons v vs ih => simp [weights, ih, Nat.add_assoc]

theorem weight_toFloat (v : Value) : (Eval.toFloat v).weight = v.weight := by
  unfold Eval.toFloat
  split <;> simp [weight]

end Value

namespace Survey

variable {engine : Engine} {ι : Type} (L : Survey engine ι)

def Carries (name : Text) (args : List Value) : Prop :=
  ∀ v ∈ args, L.plain v ∨ v.isShared = true ∧ L.course.custody.lends name

def Object (this : Option Value) : Prop := ∀ v, this = some v → L.plain v

def Plain (args : List Value) : Prop := ∀ v ∈ args, L.plain v

def Passing (args : List Value) : Prop := ∀ v ∈ args, L.passes v

abbrev Permits (looping : Bool) (c : Code) : Prop :=
  Obeys (Rule.lending L.course.custody.lends) looping c

structure Callable (m : Machine) (target : Eval.Target) : Prop where
  body : target.function.Obeys (Rule.lending L.course.custody.lends)
  library : m.Reaches target.library

def Calls (ev : ι → Evaluator) (bound : Option Nat) : Prop :=
  ∀ name args exposedOnly pos this m, L.Ready m → L.Carries name args → L.Object this →
    (∀ b, bound = some b → Value.weights (this.toList ++ args) < b) →
    L.HeldAt L.Object m L.plain fun i => (ev i).callNamed name args exposedOnly pos (this, m)

structure Reads (ev : ι → Evaluator) : Prop where
  reading : ∀ {α : Type} (g : Nat → Except Halt α), L.spent ∨ Settles g →
    ∃ out fuel, g fuel = out ∧ (out = .error .outOfFuel → L.spent) ∧
      ∀ᶠ i in L.silent [], g (ev i).fuel = out
  native : ∀ f s args, L.Plain args → (∀ tag, f ≠ .tagged tag) →
    ∃ a : Applied, a.Plain L.course.custody ∧ (a.result = .error .outOfFuel → L.spent) ∧
      ∀ᶠ i in L.silent [], (ev i).native f s args = a

/-- A family of evaluators that yields on all that evaluation contains. -/
structure Evaluates (ev : ι → Evaluator) : Prop extends L.Reads ev where
  eval : ∀ looping e, L.Permits looping (.expr e) → L.Goes False L.plain fun i => (ev i).eval e
  exec : ∀ looping s, L.Permits looping (.stmt s) → L.Goes False L.plain fun i => (ev i).exec s
  call : L.Calls ev none
  loop : ∀ looping condition body, (∀ e, condition = some e → L.Permits looping (.expr e)) →
    L.Permits true (.expr body) → L.Goes False (fun _ => True) fun i =>
      Eval.repeatWhile (ev i) condition body (ev i).fuel
  resolve : ∀ path pos m, L.Ready m →
    L.Yields m (fun n => n) (fun s n => n.scope = m.scope ∧ n.Reaches s.supplied)
      (fun h n => n.scope = m.scope ∧ L.allows h) fun i => Eval.resolve engine (ev i) path pos m

variable {L}

theorem object_none : L.Object none := by
  intro v never
  cases never

theorem object_some {v : Value} (hv : L.plain v) : L.Object (some v) := by
  intro w eq
  cases eq
  exact hv

theorem plain_nil : L.Plain [] := by simp [Plain]

theorem Plain.cons {v : Value} {args : List Value} (hv : L.plain v) (h : L.Plain args) :
    L.Plain (v :: args) :=
  List.forall_mem_cons.mpr ⟨hv, h⟩

theorem Plain.append {args more : List Value} (h : L.Plain args) (h' : L.Plain more) :
    L.Plain (args ++ more) :=
  List.forall_mem_append.mpr ⟨h, h'⟩

theorem Plain.tail {args : List Value} (h : L.Plain args) : L.Plain args.tail :=
  fun v hv => h v (List.mem_of_mem_tail hv)

theorem Plain.headD {args : List Value} (h : L.Plain args) {v : Value} (hv : L.plain v) :
    L.plain (args.headD v) := by
  cases args with
  | nil => exact hv
  | cons w rest => exact h w List.mem_cons_self

theorem Plain.passing {args : List Value} (h : L.Plain args) : L.Passing args :=
  fun v hv => Stock.passes_of_plain (h v hv)

theorem Plain.carries {args : List Value} (h : L.Plain args) (name : Text) : L.Carries name args :=
  fun v hv => Or.inl (h v hv)

theorem Carries.passing {name : Text} {args : List Value} (h : L.Carries name args) :
    L.Passing args := by
  intro v hv
  rcases h v hv with plain | ⟨shared, -⟩
  · exact Or.inr plain
  · exact Or.inl shared

theorem carries_curry {name : Text} {curry args : List Value} (h : L.plain (.fn name curry))
    (hargs : L.Plain args) : L.Carries name (curry ++ args) :=
  List.forall_mem_append.mpr ⟨(L.course.custody.fn name curry).mp h, hargs.carries name⟩

theorem Callable.onward {m n : Machine} {target : Eval.Target} (h : L.Callable m target)
    (onward : m.Onward n) : L.Callable n target :=
  ⟨h.body, h.library.onward onward⟩

/-- Where fuel never runs out, plain values are no aliases. -/
theorem unshared {v : Value} (hv : L.plain v) (unspent : ¬ L.spent) : v.isShared = false :=
  (L.proper unspent v hv).unshared

theorem Ready.readable {m : Machine} (hm : L.Ready m) {v : Value} (hv : L.passes v)
    (unspent : ¬ L.spent) : v.Readable m.store := by
  apply Value.readable
  · exact fun c => L.proper unspent _ (hm.tidy.world.cells c)
  · exact hv.imp_right (L.proper unspent v)

variable {aside : Prop} {ev : ι → Evaluator}

open Eval

theorem idle_goes {f : Machine → Machine} (operations progress : Machine → Nat)
    (messages : Machine → List Message)
    (idle : ∀ m, f m = m.idle (operations m) (progress m) m.world.nextClosure (messages m)
      m.world.loading) (more : ∀ m, m.operations ≤ operations m) :
    L.Goes aside (fun _ => True) fun _ => (modify f : Run PUnit) := by
  apply Goes.act fun m => .idle (operations m) (progress m) m.world.nextClosure (messages m)
  · exact fun m _ => ⟨more m, Nat.le_refl _⟩
  · intro m
    rw [idle]
    rfl
  · intro m _
    rw [idle]
    exact ⟨⟨more m, Nat.le_refl _, rfl, rfl, rfl, fun _ _ there => there, rfl⟩, rfl,
      List.suffix_refl _⟩
  · intro _ m
    rw [idle]
    rfl

theorem tick_at (pos : Position) (m : Machine) :
    L.Yields m (fun n => n)
      (fun _ n => m.operations < n.operations ∧
        (0 < engine.limits.operations → m.operations < engine.limits.operations))
      (fun h n => m.operations < n.operations ∧ L.allows h) fun _ => tick engine pos m := by
  have count : L.course.Leads m [.idle (m.operations + 1)
      (engine.told (m.operations + 1) m.world.progress) m.world.nextClosure m.world.messages]
      (m.ticked engine) := by
    apply Course.Leads.act
    · exact ⟨Nat.le_succ _, Nat.le_refl _⟩
    · rfl
    · exact ⟨⟨Nat.le_succ _, Nat.le_refl _, rfl, rfl, rfl, fun _ _ there => there, rfl⟩, rfl,
        List.suffix_refl _⟩
  have more : m.operations < (m.ticked engine).operations := Nat.lt_succ_self _
  have left : Ends (fun _ n => n = m.ticked engine) (fun _ n => n = m.ticked engine)
      (tick engine pos m) := tick_ends pos m (fun _ => rfl) fun _ _ => rfl
  refine Yields.after count (.const _ left.ending (tick_ends pos m ?_ ?_))
  · exact fun goes => ⟨more, fun limited => Engine.within_of_stop? goes limited⟩
  · exact fun _ _ => ⟨more, trivial⟩

theorem say_goes (message : Message) : L.Goes aside (fun _ => True) fun _ => say engine message := by
  unfold say
  split
  · exact idle_goes (fun n => n.operations) (fun n => n.world.progress)
      (fun n => message :: n.world.messages) (fun _ => rfl) fun _ => Nat.le_refl _
  · exact Goes.give trivial

theorem checkSize_fueled (v : Value) (pos : Position) :
    checkSize engine v pos ≠ .error .outOfFuel := by
  unfold checkSize
  dsimp only
  split
  case h_4 => simp
  all_goals split <;> simp [Halt.cause]

theorem checkSize_goes (v : Value) (pos : Position) :
    L.Goes aside (fun _ => True) fun _ => liftM (checkSize engine v pos) :=
  Goes.look (checkSize_faults v pos) (checkSize_fueled v pos) fun _ _ => trivial

theorem checkSize_holds {φ : Type} {P : φ → Prop} (v : Value) (pos : Position) :
    L.Holds P (fun _ => True) fun _ => liftM (checkSize engine v pos) :=
  Holds.look (checkSize_faults v pos) (checkSize_fueled v pos) fun _ _ => trivial

theorem scriptFn?_eq (name : Text) (arity : Nat) (exposedOnly : Bool) (m : Machine) :
    scriptFn? name arity exposedOnly m = .ok
      (match m.library.scriptFn? name arity exposedOnly with
        | some f => some ⟨f, m.library⟩
        | none => (m.root.scriptFn? name arity exposedOnly).map (⟨·, m.root⟩)) m := by
  unfold scriptFn?
  rw [bind_of_ok (show (get : Run Machine) m = .ok m m from rfl)]
  cases m.library.scriptFn? name arity exposedOnly <;> rfl

theorem scriptFn?_at (name : Text) (arity : Nat) (exposedOnly : Bool) {m : Machine}
    (hm : L.Ready m) :
    L.At aside m (fun n found => ∀ target, found = some target → L.Callable n target)
      fun _ => scriptFn? name arity exposedOnly m := by
  have obeys : ∀ {library : Module} {f : ScriptFn}, library.Fair L.course.custody →
      library.scriptFn? name arity exposedOnly = some f →
      f.Obeys (Rule.lending L.course.custody.lends) :=
    fun fair found => (L.course.custody.lending _).mp (fair.scriptFn? found)
  rw [scriptFn?_eq]
  refine .const _ rfl ⟨fun _ => rfl, ?_⟩
  intro target eq
  cases own : m.library.scriptFn? name arity exposedOnly with
  | some f =>
    rw [own] at eq
    cases eq
    exact ⟨obeys hm.tidy.library own, .library⟩
  | none =>
    rw [own] at eq
    obtain ⟨f, own, rfl⟩ := Option.map_eq_some_iff.mp eq
    exact ⟨obeys hm.tidy.root own, .root⟩

theorem walkPath_at (pos : Position) (seen : List Text) {m : Machine} {module : Module}
    (h : m.Reaches module) (path : List Text) :
    L.At aside m (fun n found => n.Reaches found) fun _ => walkPath pos seen module path m := by
  induction path generalizing seen module with
  | nil => exact At.give h
  | cons name rest ih =>
    unfold walkPath
    cases found : module.module? name with
    | some sub => exact ih (seen ++ [name]) (.inner h found)
    | none => exact At.fail _ pos

theorem findModule_at (path : List Text) (pos : Position) {m : Machine} :
    L.At aside m (fun n found => n.Reaches found) fun _ => findModule path pos m := by
  cases path with
  | nil => exact At.fail _ pos
  | cons first rest =>
    unfold findModule
    simp only [bind_of_ok (show (get : Run Machine) m = .ok m m from rfl)]
    cases imported : Dict.find? first m.imports with
    | some found => exact walkPath_at pos [first] (.imported (Dict.mem_of_find? imported)) rest
    | none =>
      cases own : m.library.module? first with
      | some found => exact walkPath_at pos [first] (.inner .library own) rest
      | none => exact At.fail _ pos

section Readers

variable (hev : L.Reads ev)
include hev

theorem reading_goes {α : Type} {Q : α → Prop} {g : Nat → Except Halt α}
    (settles : ¬ L.spent → Settles g) (faults : ∀ n, OnlyFaults (g n))
    (good : ∀ n a, g n = .ok a → Q a) : L.Goes aside Q fun i => liftM (g (ev i).fuel) := by
  intro m _
  obtain ⟨out, fuel, eq, fueled, agree⟩ := hev.reading g (Classical.or_iff_not_imp_left.mpr settles)
  cases out with
  | ok a =>
    refine .settled (.ok a m) (agree.mono fun i same => ?_) rfl ⟨fun _ => rfl, good fuel a eq⟩
    simp only [same]
    rfl
  | error e =>
    have allowed : L.allows e := by
      apply allows_fault (faults fuel e eq)
      rintro rfl
      exact fueled rfl
    refine .settled (.error e m) (agree.mono fun i same => ?_) rfl ⟨fun _ => rfl, allowed⟩
    simp only [same]
    rfl

theorem flatten_goes {v : Value} (hv : L.passes v) :
    L.Goes aside (fun w => L.plain w ∧ (v.isShared = false → w = v)) fun i => flatten (ev i) v := by
  apply Goes.get_bind
  intro m hm
  refine reading_goes hev (fun unspent => (hm.readable hv unspent).flatten)
    (fun n => m.store.flatten_faults n v) ?_ m hm
  intro n w eq
  refine ⟨Store.flatten_plain hm.tidy.world.cells hv eq, ?_⟩
  intro unshared
  cases n with
  | zero => cases eq
  | succ n =>
    cases v with
    | shared c => cases unshared
    | _ =>
      cases eq
      rfl

theorem typeOf_goes {v : Value} (hv : L.passes v) :
    L.Goes aside (fun _ => True) fun i => typeOf (ev i) v := by
  apply Goes.get_bind
  intro m hm
  exact reading_goes hev (fun unspent => (hm.readable hv unspent).typeOf)
    (fun n => m.store.typeOf_faults n v) (fun _ _ _ => trivial) m hm

theorem displayText_goes {v : Value} (hv : L.passes v) :
    L.Goes aside (fun _ => True) fun i => displayText (ev i) v := by
  apply Goes.get_bind
  intro m hm
  exact reading_goes hev (fun unspent => (hm.readable hv unspent).displayText)
    (fun n => v.displayText_faults m.store n) (fun _ _ _ => trivial) m hm

theorem debugText_goes {v : Value} (hv : L.passes v) :
    L.Goes aside (fun _ => True) fun i => debugText (ev i) v := by
  apply Goes.get_bind
  intro m hm
  exact reading_goes hev (fun unspent => (hm.readable hv unspent).debugText)
    (fun n => v.debugText_faults m.store n) (fun _ _ _ => trivial) m hm

theorem plainMismatch_goes {α : Type} {Q : α → Prop} (expected : String) {v : Value}
    (hv : L.passes v) (pos : Position) : L.Goes aside Q fun i => plainMismatch (ev i) expected v pos :=
  Goes.bind (typeOf_goes hev hv) fun _ _ => Goes.fail _ pos

theorem requireBool_goes {v : Value} (hv : L.plain v) (pos : Position) :
    L.Goes aside (fun _ => True) fun i => requireBool (ev i) v pos := by
  cases v with
  | bool b => exact Goes.give trivial
  | _ => exact plainMismatch_goes hev "bool" (Stock.passes_of_plain hv) pos

end Readers

end Survey

end Scripting
