import Scripting.Proofs.Contract.Basic

/-
Calls side by side. A script function runs in a frame of its own, and the caller's frame is back
afterwards; a native function gets its first argument in place and copies of the others.
-/
namespace Scripting

namespace Contract

variable {engine : Engine} (C : Contract engine)

def Passing (args : List Value) : Prop := ∀ v ∈ args, C.kind.passes v

def Plain (args : List Value) : Prop := ∀ v ∈ args, C.kind.plain v

structure Receiver (S : Value → Prop) : Prop where
  plain : ∀ v, C.kind.plain v → S v
  passes : ∀ v, S v → C.kind.passes v
  behind : ∀ {α : Type} {Q : α → Prop} {k k' : Held Value α} name pos, C.Holds C.kind.plain Q k k' →
    C.Holds S Q (Held.behind name pos k) (Held.behind name pos k')

def Args (S : Value → Prop) (args : List Value) : Prop :=
  (∀ v, args.head? = some v → S v) ∧ C.Passing args.tail

variable {C}

theorem receiver_plain : C.Receiver C.kind.plain :=
  ⟨fun _ h => h, fun _ h => Stock.passes_of_plain h, fun name pos h => h.behind name pos⟩

theorem receiver_passing : C.Receiver C.kind.passes :=
  ⟨fun _ h => Stock.passes_of_plain h, fun _ h => h, fun name pos h => h.behind_passing name pos⟩

theorem plain_nil : C.Plain [] := by
  intro v hv
  cases hv

theorem Plain.passing {args : List Value} (h : C.Plain args) : C.Passing args :=
  fun v hv => Stock.passes_of_plain (h v hv)

theorem Plain.cons {v : Value} {args : List Value} (hv : C.kind.plain v) (h : C.Plain args) :
    C.Plain (v :: args) := by
  intro w hw
  rcases List.mem_cons.mp hw with rfl | old
  · exact hv
  · exact h w old

theorem Passing.append {args more : List Value} (h : C.Passing args) (h' : C.Passing more) :
    C.Passing (args ++ more) :=
  List.forall_mem_append.mpr ⟨h, h'⟩

theorem Plain.append {args more : List Value} (h : C.Plain args) (h' : C.Plain more) :
    C.Plain (args ++ more) :=
  List.forall_mem_append.mpr ⟨h, h'⟩

theorem Passing.tail {args : List Value} (h : C.Passing args) : C.Passing args.tail :=
  fun v hv => h v (List.mem_of_mem_tail hv)

theorem Plain.tail {args : List Value} (h : C.Plain args) : C.Plain args.tail :=
  fun v hv => h v (List.mem_of_mem_tail hv)

theorem Plain.headD {args : List Value} (h : C.Plain args) {v : Value} (hv : C.kind.plain v) :
    C.kind.plain (args.headD v) := by
  cases args with
  | nil => exact hv
  | cons w rest => exact h w List.mem_cons_self

theorem Args.cons {S : Value → Prop} {v : Value} {rest : List Value} (hv : S v)
    (hrest : C.Passing rest) : C.Args S (v :: rest) := by
  refine ⟨?_, hrest⟩
  intro w eq
  cases eq
  exact hv

theorem Args.headD {S : Value → Prop} {args : List Value} (h : C.Args S args) {v : Value}
    (hv : S v) : S (args.headD v) := by
  cases args with
  | nil => exact hv
  | cons w rest => exact h.1 w rfl

theorem Passing.args {args : List Value} (h : C.Passing args) : C.Args C.kind.passes args :=
  ⟨fun v eq => h v (List.mem_of_mem_head? eq), h.tail⟩

theorem passing_curry {name : Text} {curry args : List Value} (h : C.kind.plain (.fn name curry))
    (hargs : C.Passing args) : C.Passing (curry ++ args) :=
  Passing.append ((C.kind.fn name curry).mp h) hargs

end Contract

namespace Eval

variable {engine : Engine} {C : Contract engine} {ev ev' : Evaluator}

open Contract

theorem runBody_eq (ev : Evaluator) (body : List Stmt) (m : Machine) :
    runBody ev body m = caughtReturn (runBlock ev body m) := by
  unfold runBody caughtReturn
  cases runBlock ev body m with
  | ok v n => rfl
  | error h n => cases h <;> rfl

theorem runNative_native {f : Function} {n : Native} (body : f.body = .native n) (engine : Engine)
    (ev : Evaluator) (name : Text) (pos : Position) (s : List Value × Machine) :
    runNative engine ev f name pos s = locatedAt pos (applyNative engine ev n name pos s) := by
  unfold runNative
  rw [body]
  dsimp only
  cases applyNative engine ev n name pos s with
  | ok v t => rfl
  | error e t => cases e <;> rfl

theorem runNative_script {f : Function} {g : ScriptFn} (body : f.body = .script g) (engine : Engine)
    (ev : Evaluator) (name : Text) (pos : Position) (s : List Value × Machine) :
    runNative engine ev f name pos s =
      .error (.error (Error.located ⟨.runtime (Text.lit "bad_function_call"), .nowhere⟩ pos)) s := by
  unfold runNative
  rw [body]
  rfl

theorem inFrame_eq {α : Type} (scope : Scope) (library : Module) (k : Run α) (this : Option Value)
    (m : Machine) : inFrame scope library k (this, m) =
      inState (fun n => (n.this, m.leave n)) (k (m.enter scope library this)) := by
  unfold inFrame inState
  dsimp only [Machine.enter]
  cases k _ <;> rfl

theorem inFrame_keeps {α : Type} {Q : α → Prop} {k k' : Run α} (hk : C.Keeps Q k k') {scope : Scope}
    {library : Module} (hscope : ∀ e ∈ scope, C.kind.passes e.value)
    (hlibrary : library.Fair C.kind) {this : Option Value} (hthis : C.Object this) {m : Machine}
    (hm : C.Inv m) (room : 0 < engine.limits.callLevels → m.depth < engine.limits.callLevels) :
    C.HoldsAt C.Object m Q (inFrame scope library k (this, m)) (inFrame scope library k' (this, m)) := by
  have inside : C.Inv (m.enter scope library this) :=
    ⟨hm.1.enter hscope hlibrary hthis, C.discipline.enter scope library this hm.2 room⟩
  have back : ∀ n, C.Step (m.enter scope library this) n → C.Step m (m.leave n) := by
    intro n hn
    obtain ⟨keeps, holds⟩ := C.discipline.leave hm.2 hn.1 hn.2.2
    exact ⟨keeps, hm.1.leave hn.2.1, holds⟩
  rw [inFrame_eq, inFrame_eq]
  refine (hk _ inside).map ?_ ?_
  · exact fun _ n hn => ⟨hn.1.2.1.this, back n hn.1, hn.2⟩
  · exact fun _ n hn => ⟨hn.1.2.1.this, back n hn.1, hn.2⟩

section

variable (hev : C.Evaluators ev ev')
include hev

theorem execAll_grows {last : Value} (hlast : C.kind.plain last) (body : List Stmt) :
    C.Grows C.kind.plain (execAll ev.exec last body) (execAll ev'.exec last body) := by
  induction body generalizing last with
  | nil => exact (Keeps.give hlast).grows
  | cons stmt rest ih => exact Grows.bind (hev.exec stmt).grows fun v hv => ih hv

theorem runBlock_keeps (body : List Stmt) :
    C.Keeps C.kind.plain (runBlock ev body) (runBlock ev' body) :=
  (execAll_grows hev C.kind.plain_unit body).block

theorem runBody_keeps (body : List Stmt) :
    C.Keeps C.kind.plain (runBody ev body) (runBody ev' body) := by
  intro m hm
  rw [runBody_eq, runBody_eq]
  exact (runBlock_keeps hev body m hm).caughtReturn C.returning fun v n hn => ⟨hn.1, hn.2 v rfl⟩

theorem callScript_holds {target : Target} (hlibrary : target.library.Fair C.kind)
    {args : List Value} (hargs : C.Passing args) (pos : Position) :
    C.Holds C.Object C.kind.plain (callScript engine ev target args pos)
      (callScript (engine.inMode C.mode) ev' target args pos) := by
  rw [Engine.inMode_callScript]
  refine Holds.get_bind fun this m hm hthis => ?_
  dsimp only
  by_cases full : 0 < engine.limits.callLevels ∧ engine.limits.callLevels ≤ m.depth
  · rw [if_pos full, if_pos full]
    have overflow : C.Signal (.cause (.stackOverflow engine.limits.callLevels) pos) :=
      signal_of_fault rfl
    exact Holds.stop_bind overflow this m hm hthis
  · rw [if_neg full, if_neg full]
    refine inFrame_keeps (runBody_keeps hev target.function.body) ?_ hlibrary hthis hm (by omega)
    intro e he
    rcases mem_bindParams he with none | arg
    · cases none
    · exact hargs _ arg

theorem typesOf_keeps (args : List Value) :
    C.Keeps (fun _ => True) (typesOf ev args) (typesOf ev' args) :=
  (Keeps.mapM fun v _ => typeOf_keeps hev v).imp fun _ _ => trivial

theorem notFound_keeps {α : Type} {Q : α → Prop} (name : Text) (args : List Value) (pos : Position) :
    C.Keeps Q (notFound engine ev name args pos)
      (notFound (engine.inMode C.mode) ev' name args pos) :=
  Keeps.bind (typesOf_keeps hev args) fun _ _ => Keeps.fail _ pos

theorem needsFloat_keeps (param : ValueType) (v : Value) :
    C.Keeps (fun _ => True) (needsFloat ev param v) (needsFloat ev' param v) := by
  unfold needsFloat
  split
  · exact Keeps.bind (typeOf_keeps hev v) fun _ _ => Keeps.give trivial
  · exact Keeps.give trivial

omit hev in
theorem plain_toFloat {v : Value} (hv : C.kind.plain v) : C.kind.plain (toFloat v) := by
  unfold toFloat
  split
  · exact C.kind.plain_float _
  · exact hv

theorem passCopy_keeps (param : ValueType) {v : Value} (hv : C.kind.passes v) :
    C.Keeps C.kind.plain (passCopy ev param v) (passCopy ev' param v) := by
  refine Keeps.bind (needsFloat_keeps hev param v) fun needs _ => ?_
  split
  · exact Keeps.bind (flatten_keeps hev hv) fun w hw => Keeps.give (plain_toFloat hw)
  · split
    · exact flatten_keeps hev hv
    · next unshared =>
      rcases hv with shared | plain
      · exact absurd shared unshared
      · exact Keeps.give plain

theorem passCopies_keeps (params : List ValueType) {args : List Value} (hargs : C.Passing args) :
    C.Keeps C.Plain (passCopies ev params args) (passCopies ev' params args) := by
  induction params generalizing args with
  | nil => exact Keeps.give plain_nil
  | cons p ps ih =>
    cases args with
    | nil => exact Keeps.give plain_nil
    | cons v vs =>
      refine Keeps.bind (passCopy_keeps hev p (hargs v List.mem_cons_self)) fun w hw => ?_
      refine Keeps.bind (ih fun u hu => hargs u (List.mem_cons_of_mem _ hu)) fun ws hws => ?_
      exact Keeps.give (Plain.cons hw hws)

theorem callBack_holds (pos : Position) {fn : Value} (hfn : C.kind.plain fn) {args : List Value}
    (hargs : C.Passing args) :
    C.Holds C.Object C.kind.plain (callBack ev pos fn args) (callBack ev' pos fn args) := by
  cases fn with
  | fn name curry => exact hev.call name _ true pos (passing_curry hfn hargs)
  | _ => exact Holds.stop (signal_of_fault rfl)

theorem callAlone_keeps (pos : Position) {fn : Value} (hfn : C.kind.plain fn) {args : List Value}
    (hargs : C.Passing args) :
    C.Keeps C.kind.plain (Held.drop none (callBack ev pos fn args))
      (Held.drop none (callBack ev' pos fn args)) :=
  (callBack_holds hev pos hfn hargs).drop fun _ none => by cases none

theorem applyAll_holds (pos : Position) {fn : Value} (hfn : C.kind.plain fn) {done rest : List Value}
    (hdone : C.Plain done) (hrest : C.Plain rest) :
    C.Holds C.Plain (fun _ => True) (applyAll ev pos fn done rest) (applyAll ev' pos fn done rest) := by
  induction rest generalizing done with
  | nil => exact Holds.give trivial
  | cons v rest ih =>
    have later : C.Plain rest := fun w hw => hrest w (List.mem_cons_of_mem _ hw)
    have argument : C.Passing [v] := by
      intro w hw
      exact Stock.passes_of_plain (hrest w (by simp [List.mem_singleton.mp hw]))
    refine Holds.bind (Holds.lift (callAlone_keeps hev pos hfn argument)) fun w hw => ?_
    refine Holds.bind (Holds.setHeld (hdone.append (Plain.cons hw later))) fun _ _ => ?_
    exact ih (hdone.append (Plain.cons hw plain_nil)) later

end

end Eval

end Scripting
