import Scripting.Proofs.Contract.Dispatch
import Scripting.Proofs.Regime.Basic

/-
Calls under a regime. A native function may make its result and its receiver too large; that is seen
by the check after it, and the run ends there. Everything else that it leaves is plain.
-/
namespace Scripting

open Applied Regime

section

variable {engine : Engine} {R : Regime engine}

def Regime.Near (R : Regime engine) (args : List Value) : Prop :=
  (∀ v, args.head? = some v → R.nearly v) ∧ R.Plain args.tail

theorem Regime.Plain.near {args : List Value} (h : R.Plain args) : R.Near args :=
  ⟨fun v eq => nearly_of_plain (h v (List.mem_of_mem_head? eq)), h.tail⟩

/-- What a native function that needs no script leaves. If it fails, it has changed nothing. -/
structure Applied.Near (R : Regime engine) (a : Applied) : Prop where
  faults : OnlyFaults a.result
  result : ∀ v, a.result = .ok v → R.nearly v ∧ R.Near a.args
  failed : ∀ h, a.result = .error h → R.Plain a.args

theorem Applied.near_update {first : Value} {rest : List Value} (hfirst : R.nearly first)
    (hrest : R.Plain rest) {v : Value} (hv : R.nearly v) : (update first rest (.ok v)).Near R := by
  refine ⟨OnlyFaults.ok v, ?_, fun _ never => by cases never⟩
  intro w eq
  cases eq
  refine ⟨hv, ?_, hrest⟩
  intro u same
  cases same
  exact hfirst

namespace CoreFn

theorem Gives.nearly {args : List Value} (h : R.Plain args) {v : Value} (given : Gives args v) :
    R.nearly v := by
  cases given with
  | atom atom => exact nearly_of_plain (R.atom v atom.1)
  | string t => exact nearly_string t
  | range first last =>
    refine nearly_array fun v hv => ?_
    obtain ⟨i, -, rfl⟩ := List.mem_map.mp hv
    exact R.atom _ rfl
  | concat same =>
    subst same
    exact nearly_array (List.forall_mem_append.mpr
      ⟨items_plain (h _ (by simp)), items_plain (h _ (by simp))⟩)
  | keys same =>
    subst same
    refine nearly_array fun v hv => ?_
    obtain ⟨e, mem, rfl⟩ := List.mem_map.mp hv
    exact (entries_plain (h _ List.mem_cons_self) e mem).1
  | values same =>
    subst same
    refine nearly_array fun v hv => ?_
    obtain ⟨e, mem, rfl⟩ := List.mem_map.mp hv
    exact (entries_plain (h _ List.mem_cons_self) e mem).2

theorem change?_near {s : Store} {fuel : Nat} {f : CoreFn} {args : List Value} (h : R.Plain args)
    {a : Applied} (eq : f.change? s fuel args = some a) : a.Near R := by
  have unit : R.nearly .unit := nearly_of_plain R.plain_unit
  unfold change? at eq
  split at eq
  case h_1 t v =>
    split at eq
    · cases eq
      exact near_update (nearly_string _) h.tail unit
    · next e fault =>
      cases eq
      refine ⟨(v.displayText_faults s fuel).same fault, fun _ never => (by cases never), fun _ _ => h⟩
  case h_2 xs v =>
    cases eq
    have items : R.Plain (xs ++ [v]) := Plain.append (items_plain (h _ List.mem_cons_self)) h.tail
    exact near_update (nearly_array items) h.tail unit
  case h_3 xs =>
    cases eq
    have items : R.Plain xs := items_plain (h _ List.mem_cons_self)
    refine near_update (nearly_array fun v hv => items v ((List.dropLast_sublist xs).subset hv)) plain_nil ?_
    cases last : xs.getLast? with
    | none => exact unit
    | some v => exact nearly_of_plain (items v (List.mem_of_getLast? last))
  case h_4 xs =>
    cases eq
    exact near_update (nearly_array plain_nil) plain_nil unit
  case h_5 xs ys =>
    cases eq
    have items : R.Plain (xs ++ ys) :=
      Plain.append (items_plain (h _ List.mem_cons_self)) (items_plain (h.tail _ List.mem_cons_self))
    exact near_update (nearly_array items) h.tail unit
  case h_6 es key =>
    cases eq
    obtain ⟨-, ordered, entries⟩ := (R.map es).mp (h _ List.mem_cons_self)
    refine near_update (fun fits => ?_) h.tail ?_
    · refine (R.map _).mpr ⟨fits, R.erased ordered, ?_⟩
      exact fun e he => entries e (Dict.mem_of_mem_erase he)
    · cases found : Dict.find? key es with
      | none => exact unit
      | some v => exact nearly_of_plain (entries _ (Dict.mem_of_find? found)).2
  case h_7 => cases eq

theorem apply_near (mode : Arithmetic) (s : Store) (fuel : Nat) (f : CoreFn) {args : List Value}
    (h : R.Plain args) : (f.apply mode s fuel args).Near R := by
  unfold apply
  cases value : f.value? mode s fuel args with
  | some r =>
    obtain ⟨faults, gives⟩ := value?_gives value
    exact ⟨faults, fun v ok => ⟨(gives v ok).nearly h, h.near⟩, fun _ _ => h⟩
  | none =>
    cases changed : f.change? s fuel args with
    | some a => exact change?_near h changed
    | none => exact ⟨OnlyFaults.cause _ .nowhere, fun _ never => (by cases never), fun _ _ => h⟩

end CoreFn

theorem Error.tooLarge_located {e : Error} (h : (Halt.error e).isTooLarge = true) (pos : Position) :
    (Halt.error (e.located pos)).isTooLarge = true := by
  obtain ⟨cause, place⟩ := e
  cases cause with
  | dataTooLarge what limit =>
    unfold Error.located
    split <;> rfl
  | _ => cases h

end

namespace Regime

variable {engine : Engine} {R : Regime engine} {way : Way} {ev : Evaluator}

open Eval

abbrev Called (R : Regime engine) (way : Way) :
    EStateM.Result Halt (List Value × Machine) Value → Prop :=
  Ends (fun v s => R.nearly v ∧ R.Near s.1 ∧ s.2.Sound R)
    (fun h s => R.allows way h ∧ (R.spoils h ∨ R.Plain s.1 ∧ s.2.Sound R))

theorem inFrame_holding {α : Type} {Q : α → Prop} {k : Run α} (hk : R.Does way Q k) {scope : Scope}
    {library : Module} (hscope : ∀ e ∈ scope, R.passes e.value) (hlibrary : library.Sound R)
    {this : Option Value} (hthis : R.Object this) {m : Machine} (hm : m.Sound R) :
    R.Holding way R.Object Q (inFrame scope library k (this, m)) := by
  rw [inFrame_eq]
  refine (hk _ (hm.enter hscope hlibrary hthis)).map ?_ ?_
  · exact fun _ n hn => ⟨hn.1.this, hm.leave hn.1, hn.2⟩
  · exact fun _ n hn => ⟨hn.1, hn.2.imp_right fun inside => ⟨inside.this, hm.leave inside⟩⟩

theorem typesOf_does (args : List Value) : R.Does way (fun _ => True) (typesOf ev args) :=
  (Does.mapM fun v _ => typeOf_does v).imp fun _ _ => trivial

theorem notFound_does {α : Type} {Q : α → Prop} (name : Text) (args : List Value) (pos : Position) :
    R.Does way Q (notFound engine ev name args pos) :=
  Does.bind (typesOf_does args) fun _ _ => Does.fail _ pos

theorem needsFloat_does (param : ValueType) (v : Value) :
    R.Does way (fun _ => True) (needsFloat ev param v) := by
  unfold needsFloat
  split
  · exact Does.bind (typeOf_does v) fun _ _ => Does.give trivial
  · exact Does.give trivial

theorem toFloat_plain {v : Value} (hv : R.plain v) : R.plain (toFloat v) := by
  unfold toFloat
  split
  · exact R.atom _ rfl
  · exact hv

theorem passCopy_does (param : ValueType) {v : Value} (hv : R.passes v) :
    R.Does way R.plain (passCopy ev param v) := by
  refine Does.bind (needsFloat_does param v) fun needs _ => ?_
  split
  · exact Does.bind (flatten_does hv) fun w hw => Does.give (toFloat_plain hw)
  · cases shared : v.isShared with
    | true => exact flatten_does hv
    | false => exact Does.give (plain_of_passes hv shared)

theorem passCopies_does (params : List ValueType) {args : List Value} (hargs : R.Passing args) :
    R.Does way R.Plain (passCopies ev params args) := by
  induction params generalizing args with
  | nil => exact Does.give plain_nil
  | cons p ps ih =>
    cases args with
    | nil => exact Does.give plain_nil
    | cons v vs =>
      refine Does.bind (passCopy_does p (hargs v List.mem_cons_self)) fun w hw => ?_
      refine Does.bind (ih fun u hu => hargs u (List.mem_cons_of_mem _ hu)) fun ws hws => ?_
      exact Does.give (Plain.cons hw hws)

theorem finish_called {a : Applied} (h : a.Near R) {m : Machine} (hm : m.Sound R)
    (args : List Value) :
    Called R way ((do Held.setHeld a.args
                      match a.result with
                      | .ok v => return v
                      | .error e => throw e : Held (List Value) Value) (args, m)) := by
  cases result : a.result with
  | ok v => exact ⟨(h.result v result).1, (h.result v result).2, hm⟩
  | error e => exact ⟨allows_fault (h.faults e result), Or.inr ⟨h.failed e result, hm⟩⟩

section

variable (hev : R.Evaluates ev)
include hev

theorem execAll_does {looping : Bool} {last : Value} (hlast : R.plain last) {body : List Stmt}
    (hbody : ∀ s ∈ body, Obeys R.rule looping (.stmt s)) :
    R.Does (.body looping) R.plain (execAll ev.exec last body) := by
  induction body generalizing last with
  | nil => exact Does.give hlast
  | cons stmt rest ih =>
    refine Does.bind (hev.exec looping stmt (hbody stmt List.mem_cons_self)) fun v hv => ?_
    exact ih hv fun s hs => hbody s (List.mem_cons_of_mem _ hs)

theorem runBlock_does {looping : Bool} {body : List Stmt}
    (hbody : ∀ s ∈ body, Obeys R.rule looping (.stmt s)) :
    R.Does (.body looping) R.plain (runBlock ev body) :=
  (execAll_does hev R.plain_unit hbody).block

theorem runBody_does {body : List Stmt} (hbody : ∀ s ∈ body, Obeys R.rule false (.stmt s)) :
    R.Does way R.plain (runBody ev body) := by
  intro m hm
  rw [runBody_eq]
  exact (runBlock_does hev hbody).caughtReturn m hm

theorem callScript_holds {target : Target} (hbody : target.function.Obeys R.rule)
    (hlibrary : target.library.Sound R) {args : List Value} (hargs : R.Passing args)
    (pos : Position) : R.Holds way R.Object R.plain (callScript engine ev target args pos) := by
  refine Holds.get_bind fun this m hm hthis => ?_
  dsimp only
  split
  · exact ⟨allows_fault rfl, Or.inr ⟨hthis, hm⟩⟩
  · refine inFrame_holding (runBody_does hev hbody) ?_ hlibrary hthis hm
    intro e he
    rcases mem_bindParams he with none | arg
    · cases none
    · exact hargs _ arg

theorem callBack_holds (pos : Position) {fn : Value} (hfn : R.plain fn) {args : List Value}
    (hargs : R.Plain args) : R.Holds way R.Object R.plain (callBack ev pos fn args) := by
  cases fn with
  | fn name curry => exact (hev.call name _ true pos (carries_curry hfn hargs)).ofCall
  | _ => exact Holds.stop (allows_fault rfl)

theorem callAlone_does (pos : Position) {fn : Value} (hfn : R.plain fn) {args : List Value}
    (hargs : R.Plain args) : R.Does way R.plain (Held.drop none (callBack ev pos fn args)) :=
  (callBack_holds hev pos hfn hargs).drop object_none

theorem applyAll_holds (free : ∀ v, R.plain v) (pos : Position) (fn : Value)
    (done rest : List Value) :
    R.Holds way R.Plain (fun _ => True) (applyAll ev pos fn done rest) := by
  induction rest generalizing done with
  | nil => exact Holds.give trivial
  | cons v rest ih =>
    have called : R.Does way R.plain (Held.drop none (callBack ev pos fn [v])) :=
      callAlone_does hev pos (free fn) fun w _ => free w
    refine Holds.bind (Holds.lift called) fun w _ => ?_
    exact Holds.bind (Holds.setHeld fun u _ => free u) fun _ _ => ih (done ++ [w])

/-- Where everything is plain, natives may also call back. -/
theorem applyNative_holds (free : ∀ v, R.plain v) (f : Native) (name : Text) (pos : Position) :
    R.Holds way R.Plain R.plain (applyNative engine ev f name pos) := by
  have all : ∀ args, R.Plain args := fun args v _ => free v
  have lone : ∀ fn args, R.Does way R.plain (Held.drop none (callBack ev pos fn args)) :=
    fun fn args => callAlone_does hev pos (free fn) (all args)
  have finish : ∀ a : Applied, OnlyFaults a.result → R.Holds way R.Plain R.plain
      (do Held.setHeld a.args
          match a.result with
          | .ok v => return v
          | .error e => throw e) := by
    intro a faults
    refine Holds.bind (Holds.setHeld (all _)) fun _ _ => ?_
    cases result : a.result with
    | ok v => exact Holds.give (free v)
    | error e => exact Holds.stop (allows_fault (faults e result))
  refine Holds.held_bind fun args m hm hargs => ?_
  dsimp only
  split
  case h_1 tag =>
    have copies : R.Does way R.Plain (args.mapM (flatten ev)) :=
      Does.mapM fun v _ => flatten_does (passes_of_plain (free v))
    exact Holds.bind (Holds.lift copies) (fun vs _ => Holds.give (free _)) args m hm hargs
  case h_2 fn v => exact Holds.lift (lone fn [v]) _ m hm hargs
  case h_3 first fn => exact Holds.lift (lone fn []) _ m hm hargs
  case h_4 first fn v =>
    refine Holds.bind Holds.held (fun args _ => ?_) _ m hm hargs
    have called : R.Holds way R.Object R.plain (callBack ev pos fn [v]) :=
      callBack_holds hev pos (free fn) (all [v])
    exact Holds.zoom called (fun w _ => free w) fun _ _ _ _ => all _
  case h_5 items fn =>
    have applied : R.Holds way R.Plain (fun _ => True) (applyAll ev pos fn [] items) :=
      applyAll_holds hev free pos fn [] items
    refine Holds.bind (Holds.zoom applied (all items) fun _ _ _ _ => all _) (fun _ _ => ?_) _ m hm hargs
    exact Holds.give (free _)
  case h_6 v =>
    exact Holds.bind (Holds.lift (typeOf_does v)) (fun t _ => Holds.give (free _)) _ m hm hargs
  case h_7 f =>
    have applied := @CoreFn.apply_plain Kind.all engine.arithmetic m.store ev.fuel f args
      fun _ _ => trivial
    rw [hev.native]
    exact finish _ applied.result.1 args m hm hargs
  case h_8 f _ _ _ _ _ =>
    have applied := @HostFn.apply_plain Kind.all m.store ev.fuel f args fun _ _ => trivial
    rw [hev.native]
    exact finish _ applied.result.1 args m hm hargs

theorem applyNative_called {f : Native} (hf : (∃ g, f = .core g) ∨ ∀ v, R.plain v) (name : Text)
    (pos : Position) {args : List Value} (hargs : R.Plain args) {m : Machine} (hm : m.Sound R) :
    Called R way (applyNative engine ev f name pos (args, m)) := by
  rcases hf with ⟨g, rfl⟩ | free
  · change Called R way ((do
      let a := ev.native (.core g) m.store args
      Held.setHeld a.args
      match a.result with
      | .ok v => return v
      | .error e => throw e : Held (List Value) Value) (args, m))
    rw [hev.native]
    exact finish_called (CoreFn.apply_near engine.arithmetic m.store ev.fuel g hargs) hm args
  · refine (applyNative_holds hev free f name pos args m hm hargs).mono ?_ fun _ _ hs => hs
    exact fun v s hs => ⟨nearly_of_plain hs.2.2, hs.1.near, hs.2.1⟩

theorem runNative_called {f : Function}
    (hf : ∀ n, f.body = .native n → (∃ g, n = .core g) ∨ ∀ v, R.plain v) (name : Text)
    (pos : Position) {args : List Value} (hargs : R.Plain args) {m : Machine} (hm : m.Sound R) :
    Called R way (runNative engine ev f name pos (args, m)) := by
  cases body : f.body with
  | script g =>
    rw [runNative_script body]
    exact ⟨allows_fault rfl, Or.inr ⟨hargs, hm⟩⟩
  | native n =>
    have ends : Called R way (applyNative engine ev n name pos (args, m)) :=
      applyNative_called hev (hf n body) name pos hargs hm
    rw [runNative_native body]
    refine ends.locatedAt fun e s hs => ⟨allows_fault rfl, hs.2.imp_left fun spoils => ?_⟩
    exact ⟨Error.tooLarge_located spoils.1 pos, spoils.2⟩

theorem runChecked_works {f : Function}
    (hf : ∀ n, f.body = .native n → (∃ g, n = .core g) ∨ ∀ v, R.plain v) (name : Text)
    (method : Bool) (pos : Position) :
    R.Works way (method = true) R.Plain R.plain (runChecked engine ev f name method pos) := by
  intro args m hm hargs
  have called : Called R way (runNative engine ev f name pos (args, m)) :=
    runNative_called hev hf name pos hargs hm
  have checked : ∀ {v : Value} (s : List Value × Machine), R.nearly v →
      Ends (fun _ t => t = s ∧ R.plain v)
        (fun h t => R.allows way h ∧ (R.spoils h ∨ t = s ∧ ∀ v, R.plain v))
        ((liftM (checkSize engine v pos) : Held (List Value) Unit) s) :=
    fun s hv => checkSize_ends hv pos s
  have unspoilt : ∀ {s t : List Value × Machine}, s.2.Sound R → (t = s ∧ ∀ v, R.plain v) →
      (method = true → R.Plain t.1) ∧ t.2.Sound R := by
    rintro s t hs ⟨rfl, free⟩
    exact ⟨fun _ v _ => free v, hs⟩
  refine Ends.bind (called.mono ?_ ?_)
  · rintro v ⟨left, n⟩ ⟨hv, near, hn⟩
    refine Ends.bind ((checked (left, n) hv).mono ?_ ?_)
    · rintro _ _ ⟨rfl, plain⟩
      cases left with
      | nil => exact ⟨fun _ => plain_nil, hn, plain⟩
      | cons first rest =>
        cases method with
        | false => exact ⟨fun never => (by cases never), hn, plain⟩
        | true =>
          change Ends _ _ (((liftM (checkSize engine first pos) : Held (List Value) Unit) >>=
            fun _ => pure v) (first :: rest, n))
          refine Ends.bind ((checked (first :: rest, n) (near.1 first rfl)).mono ?_ ?_)
          · rintro _ _ ⟨rfl, hfirst⟩
            exact ⟨fun _ => Plain.cons hfirst near.2, hn, plain⟩
          · rintro h t ⟨allowed, refused⟩
            exact ⟨allowed, refused.imp_right (unspoilt hn)⟩
    · rintro h t ⟨allowed, refused⟩
      exact ⟨allowed, refused.imp_right (unspoilt hn)⟩
  · exact fun h s hs => ⟨hs.1, hs.2.imp_right fun h => ⟨fun _ => h.1, h.2⟩⟩

/-- The arguments of a native call: the first is plain, and the others are passed as copies. -/
def Args (R : Regime engine) (args : List Value) : Prop := R.Object args.head? ∧ R.Passing args.tail

omit hev in
theorem args_cons {v : Value} {rest : List Value} (hv : R.plain v) (hrest : R.Passing rest) :
    Args R (v :: rest) := ⟨object_some hv, hrest⟩

omit hev in
theorem Plain.args {args : List Value} (h : R.Plain args) : Args R args :=
  ⟨fun v eq => h v (List.mem_of_mem_head? eq), h.tail.passing⟩

omit hev in
theorem args_headD {args : List Value} (h : Args R args) {v : Value} (hv : R.plain v) :
    R.plain (args.headD v) := by
  cases args with
  | nil => exact hv
  | cons w rest => exact h.1 w rfl

theorem callNative_works {f : Overload}
    (hf : ∀ n, f.2.body = .native n → (∃ g, n = .core g) ∨ ∀ v, R.plain v) (name : Text)
    (method : Bool) (pos : Position) :
    R.Works way (method = true) (Args R) R.plain (callNative engine ev f name method pos) := by
  have checked : R.Works way (method = true) R.Plain R.plain
      (runChecked engine ev f.2 name method pos) := runChecked_works hev hf name method pos
  intro args m hm hargs
  cases args with
  | nil =>
    refine (checked [] m hm plain_nil).mono ?_ ?_
    · exact fun _ s hs => ⟨fun yes => (hs.1 yes).args, hs.2⟩
    · exact fun _ s hs => ⟨hs.1, hs.2.imp_right fun h => ⟨fun yes => (h.1 yes).args, h.2⟩⟩
  | cons first rest =>
    have hfirst : R.plain first := hargs.1 first rfl
    have call : R.Works way (method = true) R.plain R.plain
        (do let copies ← Held.lift (passCopies ev f.1.params.tail rest)
            let v ← Held.held
            Held.zoom (v :: copies) (fun args v => args.headD v)
              (runChecked engine ev f.2 name method pos)) := by
      refine Works.bind (Holds.lift (passCopies_does _ hargs.2)) fun copies hcopies => ?_
      refine Works.bind Holds.held fun v hv => ?_
      exact Works.zoom checked (Plain.cons hv hcopies) fun args v hargs hv => hargs.headD hv
    refine Works.bind (Holds.lift (needsFloat_does _ first)) (fun needs _ => ?_) (first :: rest) m hm
      hargs
    split
    · refine Works.bind (Holds.lift (flatten_does (passes_of_plain hfirst))) fun v hv => ?_
      exact (Holds.lift (call.drop (toFloat_plain hv))).works
    · refine Works.zoom (call.behind [] pos) hfirst ?_
      exact fun v args hv hargs => args_cons hv hargs.2

omit hev in
theorem native?_sound {name : Text} {types : List ValueType} {method : Bool} {f : Overload}
    (found : engine.native? name types method = some f) :
    ∀ n, f.2.body = .native n → (∃ g, n = .core g) ∨ ∀ v, R.plain v := by
  obtain ⟨m, mem, own⟩ := Engine.native?_mem found
  exact R.natives m mem f own

theorem tryNative_works (name : Text) (method : Bool) (pos : Position) :
    R.Works way (method = true) (Args R) R.Object (tryNative engine ev name method pos) := by
  refine Works.bind Holds.held fun args _ => ?_
  refine Works.bind (Holds.lift (typesOf_does args)) fun types _ => ?_
  cases found : engine.native? name types method with
  | none => exact (Holds.give object_none).works
  | some f =>
    exact Works.andThen (callNative_works hev (native?_sound found) name method pos)
      fun v hv => object_some hv

omit hev in
theorem asFirst_works {α : Type} {kept : Prop} {Q : α → Prop} {k : Held (List Value) α}
    {rest : List Value} (hk : R.Works way kept (Args R) Q k) (hrest : R.Passing rest) :
    R.Works way kept R.plain Q (asFirst rest k) := by
  refine Works.bind Holds.held fun v hv => ?_
  exact Works.zoom hk (args_cons hv hrest) fun args v hargs hv => args_headD hargs hv

theorem tryMethod_holds (name : Text) {rest : List Value} (hrest : R.Passing rest) (pos : Position) :
    R.Holds way R.plain R.Object (tryMethod engine ev name rest pos) :=
  (asFirst_works (tryNative_works hev name true pos) hrest).holds (Or.inl rfl)

theorem callByValue_does (name : Text) {args : List Value} (hargs : R.Plain args) (pos : Position) :
    R.Does way R.plain (callByValue engine ev name args pos) := by
  refine Does.bind ((tryNative_works hev name false pos).drop hargs.args) fun found hfound => ?_
  cases found with
  | some v => exact Does.give (hfound v rfl)
  | none =>
    dsimp only
    split
    · exact Does.give (R.plain_bool _)
    · split
      · exact Does.give (R.plain_bool _)
      · exact notFound_does name args pos

omit hev in
theorem asThis_holds {α : Type} {Q : α → Prop} {k : Held (Option Value) α}
    (hk : R.Holds way R.Object Q k) {v : Value} (hv : R.plain v) :
    R.Holds way R.plain Q (Held.zoom (some v) (fun this v => this.getD v) k) := by
  refine Holds.zoom hk (object_some hv) ?_
  intro this v hthis hv
  cases this with
  | none => exact hv
  | some w => exact hthis w rfl

theorem callMethod_holds (name : Text) {args : List Value} (hargs : R.Plain args) (pos : Position) :
    R.Holds way R.plain R.plain (callMethod engine ev name args pos) := by
  refine Holds.bind (Holds.lift (scriptFn?_does name args.length false)) fun found hfound => ?_
  cases found with
  | some target =>
    obtain ⟨body, library⟩ := hfound target rfl
    refine Holds.bind Holds.held fun v hv => ?_
    exact asThis_holds (callScript_holds hev body library hargs.passing pos) hv
  | none =>
    refine Holds.bind (tryMethod_holds hev name hargs.passing pos) fun found hfound => ?_
    cases found with
    | some v => exact Holds.give (hfound v rfl)
    | none => exact Holds.bind Holds.held fun v _ => Holds.lift (notFound_does name _ pos)

/-- A call without a receiver: natives that take aliases go by names of their own. -/
theorem tryPointer_does (name : Text) {args : List Value} (hargs : R.Carries name args)
    (pos : Position) : R.Does way R.Object (Held.drop args (tryNative engine ev name false pos)) := by
  by_cases plain : R.Plain args
  · exact (tryNative_works hev name false pos).drop plain.args
  · have lends : R.lends name := by
      refine Classical.byContradiction fun unlent => plain fun v hv => ?_
      exact (hargs v hv).resolve_right fun h => unlent h.2
    have missing : R.Holds way (fun _ => True) R.Object (tryNative engine ev name false pos) := by
      refine Holds.bind Holds.held fun args _ => ?_
      refine Holds.bind (Holds.lift (typesOf_does args)) fun types _ => ?_
      rw [R.unnamed name lends types false]
      exact Holds.give object_none
    exact missing.drop trivial

omit hev in
theorem orNotFound_holds (name : Text) (args : List Value) (pos : Position) (found : Option Value) :
    R.Object found → R.Holds way R.Object R.plain
      (match found with
        | some v => pure v
        | none => do
          let this ← Held.held
          Held.lift (notFound engine ev name (this.toList ++ args) pos)) := by
  intro hfound
  cases found with
  | some v => exact Holds.give (hfound v rfl)
  | none => exact Holds.bind Holds.held fun this _ => Holds.lift (notFound_does name _ pos)

theorem callNamed_holds (name : Text) {args : List Value} (hargs : R.Carries name args)
    (exposedOnly : Bool) (pos : Position) :
    R.Holds way R.Object R.plain (callNamed engine ev name args exposedOnly pos) := by
  refine Holds.bind (Holds.lift (scriptFn?_does name args.length exposedOnly)) fun found hfound => ?_
  cases found with
  | some target =>
    obtain ⟨body, library⟩ := hfound target rfl
    exact callScript_holds hev body library hargs.passing pos
  | none =>
    refine Holds.bind Holds.held fun this hthis => ?_
    have last := @orNotFound_holds engine R way ev name args pos
    cases this with
    | some v =>
      refine Holds.bind (Holds.zoom (tryMethod_holds hev name hargs.passing pos) (hthis v rfl) ?_) last
      exact fun v _ hv _ => object_some hv
    | none => exact Holds.bind (Holds.lift (tryPointer_does hev name hargs pos)) last

end

end Regime

end Scripting
