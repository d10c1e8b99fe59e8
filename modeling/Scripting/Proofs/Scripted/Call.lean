import Scripting.Proofs.Contract.Dispatch
import Scripting.Proofs.Scripted.Does

/-
What evaluation is made of, and calls, among the values of scripts. The standard package makes no
characters and no aliases. The arguments that a function pointer carries go into the variables of one
frame, where each of them keeps a cell of its own.
-/
namespace Scripting

section Natives

open Applied

variable {size : Nat}

structure Applied.Scripted (size : Nat) (a : Applied) : Prop where
  args : ∀ v ∈ a.args, v.Scripted size
  faults : OnlyFaults a.result
  result : ∀ v, a.result = .ok v → v.Scripted size

theorem Applied.scripted_update {first : Value} {rest : List Value} (hfirst : first.Scripted size)
    (hrest : ∀ v ∈ rest, v.Scripted size) {v : Value} (hv : v.Scripted size) :
    (update first rest (.ok v)).Scripted size := by
  refine ⟨List.forall_mem_cons.mpr ⟨hfirst, hrest⟩, OnlyFaults.ok v, ?_⟩
  intro w eq
  cases eq
  exact hv

namespace CoreFn

theorem Gives.scripted {args : List Value} (h : ∀ v ∈ args, v.Scripted size) {v : Value}
    (given : Gives args v) : v.Scripted size := by
  cases given with
  | atom atom => exact .leaf (by cases v <;> first | rfl | cases atom.1) atom.2
  | string t => exact Value.scripted_string t
  | range first last =>
    refine .array fun v hv => ?_
    obtain ⟨i, -, rfl⟩ := List.mem_map.mp hv
    exact .leaf rfl rfl
  | concat same =>
    subst same
    exact .array (List.forall_mem_append.mpr
      ⟨(Value.scripted_array _).mp (h _ (by simp)), (Value.scripted_array _).mp (h _ (by simp))⟩)
  | keys same =>
    refine .array fun v hv => ?_
    obtain ⟨e, -, rfl⟩ := List.mem_map.mp hv
    exact Value.scripted_string _
  | values same =>
    subst same
    refine .array fun v hv => ?_
    obtain ⟨e, mem, rfl⟩ := List.mem_map.mp hv
    exact (Value.scripted_map _).mp (h _ List.mem_cons_self) e mem

theorem change?_scripted {s : Store} {fuel : Nat} {f : CoreFn} {args : List Value}
    (h : ∀ v ∈ args, v.Scripted size) {a : Applied} (eq : f.change? s fuel args = some a) :
    a.Scripted size := by
  have items : ∀ {xs : List Value}, .array xs ∈ args → ∀ v ∈ xs, v.Scripted size :=
    fun mem => (Value.scripted_array _).mp (h _ mem)
  have later : ∀ v ∈ args.tail, v.Scripted size := fun v hv => h v (List.mem_of_mem_tail hv)
  unfold change? at eq
  split at eq
  case h_1 t v =>
    split at eq
    · cases eq
      exact scripted_update (Value.scripted_string _) later Value.scripted_unit
    · next e fault =>
      cases eq
      exact ⟨h, (v.displayText_faults s fuel).same fault, fun _ never => by cases never⟩
  case h_2 xs v =>
    cases eq
    refine scripted_update (.array ?_) later Value.scripted_unit
    exact List.forall_mem_append.mpr ⟨items List.mem_cons_self, later⟩
  case h_3 xs =>
    cases eq
    have own : ∀ v ∈ xs, v.Scripted size := items List.mem_cons_self
    refine scripted_update (.array fun v hv => own v ((List.dropLast_sublist xs).subset hv)) (by simp) ?_
    cases last : xs.getLast? with
    | none => exact Value.scripted_unit
    | some v => exact own v (List.mem_of_getLast? last)
  case h_4 xs =>
    cases eq
    exact scripted_update (.array (by simp)) (by simp) Value.scripted_unit
  case h_5 xs ys =>
    cases eq
    refine scripted_update (.array ?_) later Value.scripted_unit
    exact List.forall_mem_append.mpr ⟨items List.mem_cons_self, items (by simp)⟩
  case h_6 es key =>
    cases eq
    have entries := (Value.scripted_map es).mp (h _ List.mem_cons_self)
    refine scripted_update (.map fun e he => entries e (Dict.mem_of_mem_erase he)) later ?_
    cases found : Dict.find? key es with
    | none => exact Value.scripted_unit
    | some v => exact entries _ (Dict.mem_of_find? found)
  case h_7 => cases eq

theorem apply_scripted (mode : Arithmetic) (s : Store) (fuel : Nat) (f : CoreFn) {args : List Value}
    (h : ∀ v ∈ args, v.Scripted size) : (f.apply mode s fuel args).Scripted size := by
  unfold apply
  cases value : f.value? mode s fuel args with
  | some r =>
    obtain ⟨faults, gives⟩ := value?_gives value
    exact ⟨h, faults, fun v ok => (gives v ok).scripted h⟩
  | none =>
    cases changed : f.change? s fuel args with
    | some a => exact change?_scripted h changed
    | none => exact ⟨h, OnlyFaults.cause _ .nowhere, fun _ never => by cases never⟩

end CoreFn

theorem Engine.OnCore.native_scripted {engine : Engine} (core : engine.OnCore) {name : Text}
    {types : List ValueType} {method : Bool} {f : Overload}
    (found : engine.native? name types method = some f) : f.2.Scripted := by
  obtain ⟨m, hm, own⟩ := native?_mem found
  rw [core.nativeModules] at hm
  rcases List.mem_pair.mp hm with rfl | rfl
  · rw [core.globals] at own
    cases own
  · obtain ⟨⟨g, body⟩, -⟩ := Package.coreModule_native own
    constructor
    · intro g' script
      cases script.symm.trans body
    · intro n native
      cases native.symm.trans body
      exact ⟨g, rfl⟩

end Natives

namespace Scripted

def Own (size : Nat) (vs : List Value) : Prop := ∀ v ∈ vs, v.Scripted size

def Given (size : Nat) (vs : List Value) : Prop := ∀ v ∈ vs, v.Passing size

def Object (size : Nat) (this : Option Value) : Prop := ∀ v, this = some v → v.Scripted size

/-- Two evaluators that stay among the values of scripts on all code that obeys the rule, and agree. -/
structure Evaluators (engine : Engine) (ev ev' : Evaluator) : Prop where
  fuel : ev'.fuel = ev.fuel
  native : ev.native = Native.apply engine.arithmetic ev.fuel
  native' : ev'.native = ev.native
  eval : ∀ looping e, Obeys Rule.scripted looping (.expr e) →
    Does false 0 Value.Scripted (ev.eval e) (ev'.eval e)
  exec : ∀ looping s, Obeys Rule.scripted looping (.stmt s) →
    Does false 0 Value.Scripted (ev.exec s) (ev'.exec s)
  call : ∀ base name args exposedOnly pos, Bindable base args →
    Holds base Object Value.Scripted (ev.callNamed name args exposedOnly pos)
      (ev'.callNamed name args exposedOnly pos)

section

variable {size more : Nat} {v : Value} {vs ws : List Value}

theorem lasting_own : Lasting Own := ⟨fun le h v hv => (h v hv).grow le⟩

theorem lasting_given : Lasting Given := ⟨fun le h v hv => (h v hv).grow le⟩

theorem lasting_object : Lasting Object := ⟨fun le h v eq => (h v eq).grow le⟩

theorem object_none : Object size none := by
  intro v never
  cases never

theorem object_some (hv : v.Scripted size) : Object size (some v) := by
  intro w eq
  cases eq
  exact hv

theorem own_nil : Own size [] := by
  intro v never
  cases never

theorem Own.cons (hv : v.Scripted size) (h : Own size vs) : Own size (v :: vs) :=
  List.forall_mem_cons.mpr ⟨hv, h⟩

theorem Own.tail (h : Own size vs) : Own size vs.tail := fun v hv => h v (List.mem_of_mem_tail hv)

theorem Own.grow (h : Own size vs) (le : size ≤ more) : Own more vs := lasting_own.grow le h

theorem Own.given (h : Own size vs) : Given size vs := fun v hv => (h v hv).passing

theorem Own.headD (h : Own size vs) (hv : v.Scripted size) : (vs.headD v).Scripted size := by
  cases vs with
  | nil => exact hv
  | cons w rest => exact h w List.mem_cons_self

theorem Given.grow (h : Given size vs) (le : size ≤ more) : Given more vs := lasting_given.grow le h

theorem bindable_curry {name : Text} {curry : List Value} (h : Value.Scripted size (.fn name curry))
    (more : Own size vs) : Bindable size (curry ++ vs) :=
  ((Value.scripted_fn name curry).mp h).append more

theorem scripted_curry {name : Text} {curry : List Value} (h : Value.Scripted size (.fn name curry))
    (more : Own size vs) : Value.Scripted size (.fn name (curry ++ vs)) :=
  (Value.scripted_fn name _).mpr (bindable_curry h more)

end

variable {engine : Engine} {ev ev' : Evaluator} {kept : Bool} {base : Nat}

open Eval

/-! ### Looking -/

theorem At.look {α : Type} {Q : Nat → α → Prop} {m : Machine} (hm : m.Scripted) {r : Except Halt α}
    (faults : OnlyFaults r) (h : ∀ a, r = .ok a → Q m.store.size a) :
    At kept m Q ((liftM r : Run α) m) ((liftM r : Run α) m) := by
  cases r with
  | ok a => exact .ok ⟨.refl hm, h a rfl⟩
  | error e => exact .error ⟨.refl hm, Halt.scripted_of_fault (faults e rfl)⟩

theorem later_idle {m : Machine} (hm : m.Scripted) (operations progress nextClosure : Nat)
    (messages : List Message) (loading : List Shelf) :
    m.Later kept (m.idle operations progress nextClosure messages loading) :=
  ⟨hm.idle operations progress nextClosure messages loading, Nat.le_refl _, fun _ => rfl⟩

theorem tick_does (pos : Position) : Does kept base anything (tick engine pos) (tick engine pos) := by
  intro m hm _
  have later : m.Later kept (m.ticked engine) := later_idle hm _ _ _ _ _
  refine .of_ends (tick_ends pos m ?_ ?_)
  · exact fun _ => ⟨later, trivial⟩
  · exact fun _ _ => ⟨later, Halt.scripted_of_fault rfl⟩

theorem say_does (message : Message) :
    Does kept base anything (say engine message) (say engine message) := by
  unfold say
  split
  · exact Does.change fun n hn _ => later_idle hn n.operations n.world.progress n.world.nextClosure _
      n.world.loading
  · exact Does.done

theorem checkSize_does (v : Value) (pos : Position) :
    Does kept base anything (liftM (checkSize engine v pos)) (liftM (checkSize engine v pos)) :=
  fun _ hm _ => At.look hm (checkSize_faults v pos) fun _ _ => trivial

theorem checkSize_holds {P : Nat → φ → Prop} (v : Value) (pos : Position) :
    Holds base P anything (liftM (checkSize engine v pos)) (liftM (checkSize engine v pos)) :=
  Holds.look (checkSize_faults v pos) fun _ _ _ _ => trivial

theorem scriptFn?_does (name : Text) (arity : Nat) (exposedOnly : Bool) :
    Does kept base (fun size found => ∀ target, found = some target →
        target.function.Obeys Rule.scripted ∧ target.library.Scripted size)
      (scriptFn? name arity exposedOnly) (scriptFn? name arity exposedOnly) := by
  refine Does.get_bind fun m hm le => ?_
  cases own : m.library.scriptFn? name arity exposedOnly with
  | some f =>
    refine .ok ⟨.refl hm, ?_⟩
    intro target eq
    cases eq
    exact ⟨hm.library.scriptFn? own, hm.library⟩
  | none =>
    refine .ok ⟨.refl hm, ?_⟩
    intro target eq
    obtain ⟨f, found, rfl⟩ := Option.map_eq_some_iff.mp eq
    exact ⟨hm.root.scriptFn? found, hm.root⟩

theorem walkPath_does (pos : Position) (seen : List Text) {m : Module} (hm : m.Scripted base)
    (path : List Text) : Does kept base (fun size found => found.Scripted size)
      (walkPath pos seen m path) (walkPath pos seen m path) := by
  induction path generalizing seen m with
  | nil => exact Does.give fun _ le => hm.grow le
  | cons name rest ih =>
    unfold walkPath
    cases found : m.module? name with
    | some sub => exact ih (seen ++ [name]) (hm.modules _ (Dict.mem_of_find? found))
    | none => exact Does.fail _ pos

theorem findModule_does (path : List Text) (pos : Position) :
    Does kept base (fun size found => found.Scripted size) (findModule path pos)
      (findModule path pos) := by
  cases path with
  | nil => exact Does.fail _ pos
  | cons first rest =>
    refine Does.get_bind fun m hm le => ?_
    have walk : ∀ found : Module, found.Scripted m.store.size → At kept m
        (fun size found => Module.Scripted size found) (walkPath pos [first] found rest m)
        (walkPath pos [first] found rest m) :=
      fun found scripted => walkPath_does pos [first] scripted rest m hm (Nat.le_refl _)
    cases imported : Dict.find? first m.imports with
    | some found => exact walk found (hm.imports _ (Dict.mem_of_find? imported))
    | none =>
      cases own : m.library.module? first with
      | some found => exact walk found (hm.library.modules _ (Dict.mem_of_find? own))
      | none => exact Does.fail _ pos m hm le

section

variable (hev : Evaluators engine ev ev')
include hev

theorem flatten_does {v : Value} (hv : v.Passing base) :
    Does kept base Value.Scripted (flatten ev v) (flatten ev' v) := by
  unfold flatten
  rw [hev.fuel]
  refine Does.get_bind fun m hm le => ?_
  refine At.look hm (m.store.flatten_faults ev.fuel v) fun w eq => ?_
  refine Store.flatten_plain hm.cells ?_ eq
  by_cases own : v.isShared = false
  · exact Or.inr ((hv.own own).grow le)
  · exact Or.inl (by simpa using own)

theorem typeOf_does (v : Value) : Does kept base anything (typeOf ev v) (typeOf ev' v) := by
  unfold typeOf
  rw [hev.fuel]
  exact Does.get_bind fun m hm _ => At.look hm (m.store.typeOf_faults ev.fuel v) fun _ _ => trivial

theorem displayText_does (v : Value) :
    Does kept base anything (displayText ev v) (displayText ev' v) := by
  unfold Eval.displayText
  rw [hev.fuel]
  exact Does.get_bind fun m hm _ => At.look hm (v.displayText_faults m.store ev.fuel) fun _ _ => trivial

theorem debugText_does (v : Value) : Does kept base anything (debugText ev v) (debugText ev' v) := by
  unfold Eval.debugText
  rw [hev.fuel]
  exact Does.get_bind fun m hm _ => At.look hm (v.debugText_faults m.store ev.fuel) fun _ _ => trivial

theorem typesOf_does (args : List Value) :
    Does kept base anything (typesOf ev args) (typesOf ev' args) := by
  unfold typesOf
  exact (Does.mapM ⟨fun _ _ => trivial⟩ fun v _ => typeOf_does hev v).imp fun _ _ _ _ => trivial

theorem notFound_does {α : Type} {Q : Nat → α → Prop} (name : Text) (args : List Value)
    (pos : Position) :
    Does kept base Q (notFound engine ev name args pos) (notFound engine ev' name args pos) :=
  Does.bind (typesOf_does hev args) fun _ _ _ _ => Does.fail _ pos

theorem needsFloat_does (param : ValueType) (v : Value) :
    Does kept base anything (needsFloat ev param v) (needsFloat ev' param v) := by
  unfold needsFloat
  split
  · exact Does.bind (typeOf_does hev v) fun _ _ _ _ => Does.done
  · exact Does.done

omit hev in
theorem toFloat_scripted {size : Nat} {v : Value} (hv : v.Scripted size) :
    (toFloat v).Scripted size := by
  unfold toFloat
  split
  · exact .leaf rfl rfl
  · exact hv

theorem passCopy_does (param : ValueType) {v : Value} (hv : v.Passing base) :
    Does kept base Value.Scripted (passCopy ev param v) (passCopy ev' param v) := by
  refine Does.bind (needsFloat_does hev param v) fun size needs le _ => ?_
  split
  · refine Does.bind (flatten_does hev (hv.grow le)) fun more w _ hw => ?_
    exact Does.give fun _ le => toFloat_scripted (hw.grow le)
  · cases shared : v.isShared with
    | true => exact flatten_does hev (hv.grow le)
    | false => exact Does.give fun _ le' => (hv.own shared).grow (Nat.le_trans le le')

theorem passCopies_does (params : List ValueType) {args : List Value} (hargs : Given base args) :
    Does kept base Own (passCopies ev params args) (passCopies ev' params args) := by
  induction params generalizing args base with
  | nil => exact Does.give fun _ _ => own_nil
  | cons p ps ih =>
    cases args with
    | nil => exact Does.give fun _ _ => own_nil
    | cons v vs =>
      refine Does.bind (passCopy_does hev p (hargs v List.mem_cons_self)) fun size w le hw => ?_
      have rest : Given size vs := fun u hu => (hargs u (List.mem_cons_of_mem _ hu)).grow le
      refine Does.bind (ih rest) fun more ws le' hws => ?_
      exact Does.give fun _ le'' => (Own.cons (hw.grow le') hws).grow le''

/-! ### Script functions -/

variable {looping : Bool}

theorem execAll_does {last : Value} (hlast : last.Scripted base) {body : List Stmt}
    (hbody : ∀ s ∈ body, Obeys Rule.scripted looping (.stmt s)) :
    Does false base Value.Scripted (execAll ev.exec last body) (execAll ev'.exec last body) := by
  induction body generalizing last base with
  | nil => exact Does.give fun _ le => hlast.grow le
  | cons stmt rest ih =>
    have first := (hev.exec looping stmt (hbody stmt List.mem_cons_self)).raise (Nat.zero_le base)
    refine Does.bind first fun size v _ hv => ?_
    exact ih hv fun s hs => hbody s (List.mem_cons_of_mem _ hs)

theorem runBlock_does {body : List Stmt} (hbody : ∀ s ∈ body, Obeys Rule.scripted looping (.stmt s)) :
    Does false base Value.Scripted (runBlock ev body) (runBlock ev' body) :=
  (execAll_does hev Value.scripted_unit hbody).block

theorem runBody_does {body : List Stmt} (hbody : ∀ s ∈ body, Obeys Rule.scripted looping (.stmt s)) :
    Does false base Value.Scripted (runBody ev body) (runBody ev' body) := by
  intro m hm le
  rw [runBody_eq, runBody_eq]
  exact (runBlock_does hev hbody).caughtReturn m hm le

omit hev in
theorem inFrame_holds {α : Type} {Q : Nat → α → Prop} {k k' : Run α} (hk : Does false base Q k k')
    {scope : Scope} {library : Module} {this : Option Value} {m : Machine} (hm : m.Scripted)
    (le : base ≤ m.store.size) (hscope : Bindable m.store.size scope.values)
    (hlibrary : library.Scripted m.store.size) (hthis : Object m.store.size this) :
    HoldsAt Object m Q (inFrame scope library k (this, m)) (inFrame scope library k' (this, m)) := by
  have back : ∀ n, (m.enter scope library this).Later false n → m.Later true (m.leave n) :=
    fun n hn => ⟨hm.leave hn.scripted hn.size, hn.size, fun _ => rfl⟩
  rw [inFrame_eq, inFrame_eq]
  refine (hk _ (hm.enter hscope hlibrary hthis) le).map ?_ ?_
  · exact fun _ n hn => ⟨hn.1.scripted.this, back n hn.1, hn.2⟩
  · exact fun _ n hn => ⟨hn.1.scripted.this, back n hn.1, hn.2⟩

theorem callScript_holds {target : Target} (hbody : target.function.Obeys Rule.scripted)
    (hlibrary : target.library.Scripted base) {args : List Value} (hargs : Bindable base args)
    (pos : Position) : Holds base Object Value.Scripted (callScript engine ev target args pos)
      (callScript engine ev' target args pos) := by
  refine Holds.get_bind fun this m hm le hthis => ?_
  dsimp only
  split
  · exact .error ⟨hthis, .refl hm, Halt.scripted_of_fault rfl⟩
  · exact inFrame_holds (runBody_does hev hbody) hm le
      (Scope.bindable_params target.function.params (hargs.grow le)) (hlibrary.grow le) hthis

/-! ### Native functions -/

theorem applyNative_holds (g : CoreFn) (name : Text) (pos : Position) :
    Holds base Own Value.Scripted (applyNative engine ev (.core g) name pos)
      (applyNative engine ev' (.core g) name pos) := by
  intro args m hm le hargs
  have applied : (Native.apply engine.arithmetic ev.fuel (.core g) m.store args).Scripted m.store.size :=
    CoreFn.apply_scripted engine.arithmetic m.store ev.fuel g hargs
  rw [applyNative_core, applyNative_core, hev.native', hev.native]
  dsimp only
  cases result : (Native.apply engine.arithmetic ev.fuel (.core g) m.store args).result with
  | ok v => exact .ok ⟨applied.args, .refl hm, applied.result v result⟩
  | error e => exact .error ⟨applied.args, .refl hm, Halt.scripted_of_fault (applied.faults e result)⟩

theorem runNative_holds {f : Function} (hf : f.Scripted) (name : Text) (pos : Position) :
    Holds base Own Value.Scripted (runNative engine ev f name pos) (runNative engine ev' f name pos) := by
  intro args m hm le hargs
  cases body : f.body with
  | script g =>
    rw [runNative_script body, runNative_script body]
    exact .error ⟨hargs, .refl hm, Halt.scripted_of_fault rfl⟩
  | native n =>
    obtain ⟨g, rfl⟩ := hf.native n body
    rw [runNative_native body, runNative_native body]
    refine (applyNative_holds hev g name pos args m hm le hargs).locatedAt ?_ fun _ never => never
    exact fun _ _ hs => ⟨hs.1, hs.2.1, Halt.scripted_of_fault rfl⟩

theorem runChecked_holds {f : Function} (hf : f.Scripted) (name : Text) (method : Bool)
    (pos : Position) :
    Holds base Own Value.Scripted (runChecked engine ev f name method pos)
      (runChecked engine ev' f name method pos) := by
  refine Holds.bind (runNative_holds hev hf name pos) fun size result _ hresult => ?_
  refine Holds.bind (checkSize_holds result pos) fun size' _ le _ => ?_
  refine Holds.bind Holds.held fun more args le' hargs => ?_
  have done : ∀ {last}, more ≤ last → Holds last Own Value.Scripted (pure result) (pure result) := fun le'' =>
    Holds.give fun _ le''' => hresult.grow (by omega)
  cases args with
  | nil => exact done (Nat.le_refl _)
  | cons first rest =>
    cases method with
    | true => exact Holds.bind (checkSize_holds first pos) fun _ _ le _ => done le
    | false => exact done (Nat.le_refl _)

structure Receiver (S : Nat → Value → Prop) : Prop where
  lasting : Lasting S
  own : ∀ {size v}, v.Scripted size → S size v
  passing : ∀ {size v}, S size v → v.Passing size
  behind : ∀ {α : Type} {base : Nat} {Q : Nat → α → Prop} {k k' : Held Value α} (name : Text)
    (pos : Position), Holds base Value.Scripted Q k k' →
      Holds base S Q (Held.behind name pos k) (Held.behind name pos k')

omit hev in
theorem receiver_own : Receiver Value.Scripted :=
  ⟨lasting_scripted, id, fun h => h.passing, fun name pos h => h.behind name pos⟩

omit hev in
theorem receiver_passing : Receiver Value.Passing :=
  ⟨lasting_passing, fun h => h.passing, id, fun name pos h => h.behind_passing name pos⟩

def Args (S : Nat → Value → Prop) (size : Nat) (args : List Value) : Prop :=
  (∀ v, args.head? = some v → S size v) ∧ Given size args.tail

section

variable {S : Nat → Value → Prop} (hS : Receiver S)

omit hev in
theorem args_cons {size : Nat} {v : Value} {rest : List Value} (hv : S size v)
    (hrest : Given size rest) : Args S size (v :: rest) := by
  refine ⟨?_, hrest⟩
  intro w eq
  cases eq
  exact hv

omit hev in
theorem Args.headD {size : Nat} {args : List Value} (h : Args S size args) {v : Value} (hv : S size v) :
    S size (args.headD v) := by
  cases args with
  | nil => exact hv
  | cons w rest => exact h.1 w rfl

include hS

omit hev in
theorem lasting_args : Lasting (Args S) :=
  ⟨fun le h => ⟨fun v eq => hS.lasting.grow le (h.1 v eq), h.2.grow le⟩⟩

theorem callNative_holds {f : Overload} (hf : f.2.Scripted) (name : Text) (method : Bool)
    (pos : Position) :
    Holds base (Args S) Value.Scripted (callNative engine ev f name method pos)
      (callNative engine ev' f name method pos) := by
  refine Holds.held_bind fun args m hm le hargs => ?_
  cases args with
  | nil =>
    have own : ∀ {size args}, Own size args → Args S size args := fun h =>
      ⟨fun v eq => hS.own (h v (List.mem_of_mem_head? eq)), h.tail.given⟩
    refine (runChecked_holds hev hf name method pos [] m hm le own_nil).mono ?_ ?_
    · exact fun _ _ h => ⟨own h.1, h.2⟩
    · exact fun _ _ h => ⟨own h.1, h.2⟩
  | cons first rest =>
    have hfirst : S m.store.size first := hargs.1 first rfl
    dsimp only
    -- The call itself, on a first argument of its own.
    have call : Holds m.store.size Value.Scripted Value.Scripted
        (do let copies ← Held.lift (passCopies ev f.1.params.tail rest)
            let v ← Held.held
            Held.zoom (v :: copies) (fun args v => args.headD v)
              (runChecked engine ev f.2 name method pos))
        (do let copies ← Held.lift (passCopies ev' f.1.params.tail rest)
            let v ← Held.held
            Held.zoom (v :: copies) (fun args v => args.headD v)
              (runChecked engine ev' f.2 name method pos)) := by
      refine Holds.bind (Holds.lift lasting_scripted (passCopies_does hev _ hargs.2)) ?_
      intro size copies _ hcopies
      refine Holds.bind Holds.held fun more v le' hv => ?_
      refine Holds.zoom lasting_scripted (runChecked_holds hev hf name method pos) ?_ ?_
      · exact fun _ le'' => (Own.cons hv (hcopies.grow le')).grow le''
      · exact fun _ args v _ hargs hv => hargs.headD hv
    refine Holds.bind (Holds.lift (lasting_args hS) (needsFloat_does hev _ first))
      (fun size needs le' _ => ?_) (first :: rest) m hm (Nat.le_refl _) hargs
    split
    · have value := (hS.passing hfirst).grow le'
      refine Holds.bind (Holds.lift (lasting_args hS) (flatten_does hev value)) ?_
      intro more v le'' hv
      refine Holds.lift (lasting_args hS) ?_
      exact (call.raise (Nat.le_trans le' le'')).drop fun _ le => toFloat_scripted (hv.grow le)
    · refine Holds.zoom (lasting_args hS) (hS.behind [] pos (call.raise le')) ?_ ?_
      · exact fun _ le'' => hS.lasting.grow (Nat.le_trans le' le'') hfirst
      · exact fun _ v args _ hv hargs => args_cons hv hargs.2

theorem tryNative_holds (core : engine.OnCore) (name : Text) (method : Bool) (pos : Position) :
    Holds base (Args S) Object (tryNative engine ev name method pos)
      (tryNative engine ev' name method pos) := by
  refine Holds.bind Holds.held fun size args _ _ => ?_
  refine Holds.bind (Holds.lift (lasting_args hS) (typesOf_does hev args)) fun more types _ _ => ?_
  cases found : engine.native? name types method with
  | none => exact Holds.give fun _ _ => object_none
  | some f =>
    refine Holds.bind (callNative_holds hev hS (core.native_scripted found) name method pos) ?_
    exact fun _ v _ hv => Holds.give fun _ le => object_some (hv.grow le)

omit hev in
theorem asFirst_holds {α : Type} {Q : Nat → α → Prop} {k k' : Held (List Value) α}
    {rest : List Value} (hk : Holds base (Args S) Q k k') (hrest : Given base rest) :
    Holds base S Q (asFirst rest k) (asFirst rest k') := by
  refine Holds.bind Holds.held fun size v le hv => ?_
  refine Holds.zoom hS.lasting (hk.raise le) ?_ ?_
  · exact fun _ le' => args_cons (hS.lasting.grow le' hv) (hrest.grow (Nat.le_trans le le'))
  · exact fun _ args v _ hargs hv => hargs.headD hv

end

section

variable (core : engine.OnCore)
include core

theorem tryMethod_holds (name : Text) {rest : List Value} (hrest : Given base rest) (pos : Position) :
    Holds base Value.Scripted Object (tryMethod engine ev name rest pos)
      (tryMethod engine ev' name rest pos) :=
  asFirst_holds receiver_own (tryNative_holds hev receiver_own core name true pos) hrest

theorem tryArgs_does (name : Text) {args : List Value} (hargs : Given base args) (pos : Position) :
    Does true base Object (Held.drop args (tryNative engine ev name false pos))
      (Held.drop args (tryNative engine ev' name false pos)) := by
  refine (tryNative_holds hev receiver_passing core name false pos).drop fun _ le => ?_
  exact ⟨fun v eq => (hargs.grow le) v (List.mem_of_mem_head? eq),
    fun v hv => (hargs.grow le) v (List.mem_of_mem_tail hv)⟩

theorem callByValue_does (name : Text) {args : List Value} (hargs : Own base args) (pos : Position) :
    Does true base Value.Scripted (callByValue engine ev name args pos)
      (callByValue engine ev' name args pos) := by
  refine Does.bind (tryArgs_does hev core name hargs.given pos) fun size found le hfound => ?_
  cases found with
  | some v => exact Does.give fun _ le' => (hfound v rfl).grow le'
  | none =>
    dsimp only
    split
    · exact Does.give fun _ _ => Value.scripted_bool _
    · split
      · exact Does.give fun _ _ => Value.scripted_bool _
      · exact notFound_does hev name args pos

omit hev core in
theorem asThis_holds {α : Type} {Q : Nat → α → Prop} {k k' : Held (Option Value) α}
    (hk : Holds base Object Q k k') {v : Value} (hv : v.Scripted base) :
    Holds base Value.Scripted Q (Held.zoom (some v) (fun this v => this.getD v) k)
      (Held.zoom (some v) (fun this v => this.getD v) k') := by
  refine Holds.zoom lasting_scripted hk (fun _ le => object_some (hv.grow le)) ?_
  intro size this v _ hthis hv
  cases this with
  | none => exact hv
  | some w => exact hthis w rfl

theorem callMethod_holds (name : Text) {args : List Value} (hargs : Own base args) (pos : Position) :
    Holds base Value.Scripted Value.Scripted (callMethod engine ev name args pos)
      (callMethod engine ev' name args pos) := by
  refine Holds.bind (Holds.lift lasting_scripted (scriptFn?_does name args.length false)) ?_
  intro size found le hfound
  cases found with
  | some target =>
    obtain ⟨body, library⟩ := hfound target rfl
    refine Holds.bind Holds.held fun more v le' hv => ?_
    exact asThis_holds (callScript_holds hev body (library.grow le')
      (.own (hargs.grow (Nat.le_trans le le'))) pos) hv
  | none =>
    refine Holds.bind (tryMethod_holds hev core name (hargs.grow le).given pos) ?_
    intro more found _ hfound
    cases found with
    | some v => exact Holds.give fun _ le => (hfound v rfl).grow le
    | none =>
      exact Holds.bind Holds.held fun _ v _ _ => Holds.lift lasting_scripted (notFound_does hev name _ pos)

omit core in
theorem orNotFound_holds (name : Text) (args : List Value) (pos : Position) (size : Nat)
    (found : Option Value) : Object size found → Holds size Object Value.Scripted
      (match found with
        | some v => pure v
        | none => do
          let this ← Held.held
          Held.lift (notFound engine ev name (this.toList ++ args) pos))
      (match found with
        | some v => pure v
        | none => do
          let this ← Held.held
          Held.lift (notFound engine ev' name (this.toList ++ args) pos)) := by
  intro hfound
  cases found with
  | some v => exact Holds.give fun _ le => (hfound v rfl).grow le
  | none =>
    exact Holds.bind Holds.held fun _ this _ _ => Holds.lift lasting_object (notFound_does hev name _ pos)

theorem callNamed_holds (name : Text) {args : List Value} (hargs : Bindable base args)
    (exposedOnly : Bool) (pos : Position) :
    Holds base Object Value.Scripted (callNamed engine ev name args exposedOnly pos)
      (callNamed engine ev' name args exposedOnly pos) := by
  refine Holds.bind (Holds.lift lasting_object (scriptFn?_does name args.length exposedOnly)) ?_
  intro size found le hfound
  cases found with
  | some target =>
    obtain ⟨body, library⟩ := hfound target rfl
    exact callScript_holds hev body library (hargs.grow le) pos
  | none =>
    refine Holds.bind Holds.held fun more this le' hthis => ?_
    have given : Given more args := (hargs.grow (Nat.le_trans le le')).passing
    -- A native function works on the held value, or only on its arguments.
    cases this with
    | some v =>
      refine Holds.bind (Holds.zoom lasting_object (tryMethod_holds hev core name given pos)
        (fun _ le => (hthis v rfl).grow le) ?_) fun size found _ => orNotFound_holds hev name args pos size found
      exact fun _ v _ _ hv _ => object_some hv
    | none =>
      exact Holds.bind (Holds.lift lasting_object (tryArgs_does hev core name given pos))
        fun size found _ => orNotFound_holds hev name args pos size found

end

end

end Scripted

end Scripting
