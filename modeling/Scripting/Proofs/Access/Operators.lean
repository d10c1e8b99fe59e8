import Scripting.Proofs.Access.Working
import Scripting.Proofs.Selection

/-
The operators of the standard package on plain values. What `+` and the others give depends on the two
values alone, neither on the cells nor on the fuel; and the functions for `+=` leave in place what `+`
gives.
-/
namespace Scripting

/-- The value, with the state as it was, or no success. -/
def Brings {σ α : Type} (s : σ) : Option α → EStateM.Result Halt σ α → Prop
  | some a, out => out = .ok a s
  | none, out => Fails out

structure Engine.Limitless (engine : Engine) : Prop extends engine.Unstopped where
  string : engine.limits.string = 0
  array : engine.limits.array = 0
  map : engine.limits.map = 0

theorem Engine.Limitless.checkSize {engine : Engine} (h : engine.Limitless) (v : Value) (pos : Position) :
    Eval.checkSize engine v pos = .ok () := by
  unfold Eval.checkSize
  cases v <;> simp [h.string, h.array, h.map]

namespace Package

theorem install_keeps {m : Module} {offers : List Offer} {s : Signature} (h : (m.fn? s).isSome) :
    ((install m offers).fn? s).isSome := by
  induction offers generalizing m with
  | nil => exact h
  | cons o rest ih =>
    refine ih (m := m.setNative (Text.lit o.1) o.2.1 o.2.2 .exposed) ?_
    change (Dict.find? s (Dict.insert _ _ m.functions)).isSome
    by_cases same : s = ⟨Text.lit o.1, o.2.1⟩
    · rw [same, Dict.find?_insert_self]
      rfl
    · rw [Dict.find?_insert_of_ne same]
      exact h

theorem install_fn? {m : Module} {offers : List Offer} {o : Offer} (mem : o ∈ offers) :
    ((install m offers).fn? ⟨Text.lit o.1, o.2.1⟩).isSome := by
  induction offers generalizing m with
  | nil => cases mem
  | cons first rest ih =>
    rcases List.mem_cons.mp mem with rfl | mem
    · refine install_keeps (m := m.setNative (Text.lit o.1) o.2.1 o.2.2 .exposed) ?_
      change (Dict.find? _ (Dict.insert _ _ m.functions)).isSome
      rw [Dict.find?_insert_self]
      rfl
    · exact ih mem

theorem sorted_install {m : Module} (h : m.Sorted) (offers : List Offer) : (install m offers).Sorted := by
  induction offers generalizing m with
  | nil => exact h
  | cons o rest ih => exact ih (Module.sorted_setFn h _ _ _)

end Package

def Package.operators : List Text :=
  ["+", "-", "*", "/", "%", "&", "|", "^", "<<", ">>", "~"].map Text.lit

theorem Package.not_operators {name : Text} (h : name ∈ operators) :
    name ≠ Text.lit "==" ∧ name ≠ Text.lit "!=" := by
  have apart : operators.all (fun t => t != Text.lit "==" && t != Text.lit "!=") = true := by
    decide +kernel
  simpa using List.all_eq_true.mp apart name h

namespace Engine.OnCore

variable {engine : Engine} (core : engine.OnCore)
include core

theorem holdsNatives : engine.HoldsNatives := by
  have modules := core.nativeModules
  refine ⟨fun m hm => ?_, fun m hm f hf => ?_⟩
  · rw [modules] at hm
    rcases List.mem_pair.mp hm with rfl | rfl
    · rw [Module.Sorted, core.globals]
      exact .nil
    · exact Package.sorted_install (m := {}) List.Pairwise.nil _
  · rw [modules] at hm
    rcases List.mem_pair.mp hm with rfl | rfl
    · rw [core.globals] at hf
      cases hf
    · obtain ⟨⟨g, body⟩, -⟩ := Package.coreModule_native hf
      rw [Function.isScript, Function.script?, body]
      rfl

theorem offered {name : Text} {types : List ValueType} {method : Bool} {f : Overload}
    (found : engine.native? name types method = some f) :
    ∃ o ∈ Package.coreOffers, f.1 = ⟨Text.lit o.1, o.2.1⟩ ∧ f.2.body = .native o.2.2 ∧
      Text.lit o.1 = name ∧ Module.Viable method o.2.1 types := by
  obtain ⟨i, ⟨m, place, own⟩, named, viable⟩ := core.holdsNatives.candidate_of_found found
  have hm := List.mem_of_getElem? place
  rw [core.nativeModules] at hm
  rcases List.mem_pair.mp hm with rfl | rfl
  · rw [core.globals] at own
    cases own
  · rcases Package.mem_install own with never | ⟨o, mem, same, body⟩
    · cases never
    · rw [same] at named viable
      exact ⟨o, mem, same, body, named, viable⟩

theorem found_of_offer {o : Package.Offer} (mem : o ∈ Package.coreOffers) (method : Bool) :
    ∃ f, engine.native? (Text.lit o.1) o.2.1 method = some f ∧ f.1.params = o.2.1 := by
  obtain ⟨f, there⟩ := Option.isSome_iff_exists.mp (Package.install_fn? (m := {}) mem)
  have here : Package.coreModule.withTypes? (Text.lit o.1) o.2.1 = some (⟨Text.lit o.1, o.2.1⟩, f) := by
    rw [Module.withTypes?, Package.coreModule, there]
    rfl
  have global : engine.globals.withTypes? (Text.lit o.1) o.2.1 = none := by
    rw [Module.withTypes?, Module.fn?, core.globals]
    rfl
  refine ⟨(⟨Text.lit o.1, o.2.1⟩, f), ?_, rfl⟩
  unfold native?
  rw [core.nativeModules, List.findSome?_cons, global, List.findSome?_cons, here]

end Engine.OnCore

namespace Held

variable {φ ψ α : Type}

theorem drop_congr {k l : Held φ α} {x : φ} {m : Machine} (h : k (x, m) = l (x, m)) :
    drop x k m = drop x l m := by
  simp only [drop, h]

theorem drop_lift (x : φ) (k : Run α) (m : Machine) : drop x (lift k) m = k m := by
  rw [drop_eq, lift_eq, inState_inState]
  cases k m <;> rfl

theorem drop_zoom (x : φ) (part : ψ) (restore : ψ → φ → φ) (k : Held ψ α) (m : Machine) :
    drop x (zoom part restore k) m = drop part k m := by
  rw [drop_eq, zoom_eq, inState_inState, drop_eq]

end Held

def Value.isLone : Value → Bool
  | .array _ | .map _ | .shared _ => false
  | _ => true

theorem Value.displayText_lone {v : Value} (h : v.isLone = true) (s : Store) (fuel : Nat) :
    v.displayText s (fuel + 1) = .ok v.scalarText := by
  cases v <;> first | rfl | cases h

namespace CoreFn

def calculates : CoreFn → Bool
  | intBinary .. | intScale .. | intUnary .. | floatBinary _ | floatPower | floatUnary _
  | float32Binary _ | float32Power | float32Unary _ | boolAnd | boolOr | boolXor | arrayConcat => true
  | _ => false

/-- On these arguments the function gives the same in every store. -/
def Steady (mode : Arithmetic) (f : CoreFn) (args : List Value) : Prop :=
  ∀ s fuel, f.apply mode s (fuel + 1) args = Applied.give args (f.apply mode {} 1 args).result

theorem value?_steady {f : CoreFn} (h : f.calculates = true) (mode : Arithmetic) (s t : Store)
    (fuel more : Nat) (args : List Value) :
    f.value? mode s fuel args = f.value? mode t more args := by
  have looks := value?_looks mode mode s t fuel more f args
  generalize f.value? mode s fuel args = r, f.value? mode t more args = r' at looks
  cases looks with
  | display | debug | concat | contains => cases h
  | _ => rfl

theorem change?_of_calculates {f : CoreFn} (h : f.calculates = true) (s : Store) (fuel : Nat)
    (args : List Value) : f.change? s fuel args = none := by
  cases f <;> first | rfl | cases h

theorem steady_of_calculates {f : CoreFn} (h : f.calculates = true) (mode : Arithmetic)
    (args : List Value) : f.Steady mode args := by
  intro s fuel
  unfold apply
  rw [value?_steady h mode s {} (fuel + 1) 1 args]
  simp only [change?_of_calculates h]
  cases f.value? mode {} 1 args <;> rfl

theorem apply_concat (mode : Arithmetic) {v w : Value} (hv : v.isLone = true) (hw : w.isLone = true)
    (s : Store) (fuel : Nat) : concat.apply mode s (fuel + 1) [v, w] =
      Applied.give [v, w] (.ok (.string (v.scalarText ++ w.scalarText))) := by
  change Applied.give [v, w]
    (do return .string ((← v.displayText s (fuel + 1)) ++ (← w.displayText s (fuel + 1)))) = _
  rw [Value.displayText_lone hv, Value.displayText_lone hw]
  rfl

theorem apply_stringExtend (mode : Arithmetic) (t : Text) {w : Value} (hw : w.isLone = true)
    (s : Store) (fuel : Nat) : stringExtend.apply mode s (fuel + 1) [.string t, w] =
      Applied.update (.string (t ++ w.scalarText)) [w] (.ok .unit) := by
  change (stringExtend.change? s (fuel + 1) [.string t, w]).getD (Applied.refuse [.string t, w]) = _
  simp only [change?, Value.displayText_lone hw]
  rfl

theorem steady_concat (mode : Arithmetic) {v w : Value} (hv : v.isLone = true) (hw : w.isLone = true) :
    concat.Steady mode [v, w] := by
  intro s fuel
  rw [apply_concat mode hv hw, apply_concat mode hv hw {} 0]
  rfl

end CoreFn

namespace Eval

structure StandsFor (ev : Evaluator) (n : Machine) (v w : Value) : Prop where
  plain : w.isShared = false
  typeOf : typeOf ev v n = .ok w.plainType n
  flatten : flatten ev v n = .ok w n
  own : v.isShared = false → v = w

theorem StandsFor.self {ev : Evaluator} (fuel : 0 < ev.fuel) {v : Value} (plain : v.isShared = false)
    (n : Machine) : StandsFor ev n v v :=
  ⟨plain, typeOf_of_plain fuel plain n, flatten_of_plain fuel plain n, fun _ => rfl⟩

def converted (param : ValueType) (v : Value) : Value :=
  if param = .float ∧ v.plainType = .i64 then toFloat v else v

theorem needsFloat_of {ev : Evaluator} {n : Machine} {v w : Value} (stands : StandsFor ev n v w)
    (param : ValueType) :
    needsFloat ev param v n = .ok (decide (param = .float ∧ w.plainType = .i64)) n := by
  unfold needsFloat
  split
  · next float =>
    rw [bind_of_ok stands.typeOf]
    simp [float, pure, EStateM.pure]
  · next other => simp [other, pure, EStateM.pure]

theorem passCopy_of {ev : Evaluator} {n : Machine} {v w : Value} (stands : StandsFor ev n v w)
    (param : ValueType) : passCopy ev param v n = .ok (converted param w) n := by
  unfold passCopy converted
  rw [bind_of_ok (needsFloat_of stands param)]
  by_cases float : param = .float ∧ w.plainType = .i64
  · simp only [float, and_self, decide_true, if_true]
    rw [bind_of_ok stands.flatten]
    rfl
  · simp only [float, decide_false, if_false, Bool.false_eq_true]
    cases shared : v.isShared with
    | true => exact stands.flatten
    | false =>
      rw [stands.own shared]
      rfl

theorem passCopies_one {ev : Evaluator} {n : Machine} {v w : Value} (stands : StandsFor ev n v w)
    (param : ValueType) : passCopies ev [param] [v] n = .ok [converted param w] n := by
  unfold passCopies
  rw [bind_of_ok (passCopy_of stands param)]
  rfl

section
variable {engine : Engine} {f : Function} {g : CoreFn} (body : f.body = .native (.core g))

variable (engine g) in
theorem applyNative_core (ev : Evaluator) (name : Text) (pos : Position) (args : List Value)
    (n : Machine) : applyNative engine ev (.core g) name pos (args, n) =
      let a := ev.native (.core g) n.store args
      match a.result with
      | .ok v => .ok v (a.args, n)
      | .error h => .error h (a.args, n) := by
  change (match (ev.native (.core g) n.store args).result with
    | .ok v => return v
    | .error h => throw h : Held (List Value) Value) (_, n) = _
  dsimp only
  cases (ev.native (.core g) n.store args).result <;> rfl

include body

theorem runNative_ok {ev : Evaluator} {args args' : List Value} {n : Machine} {v : Value}
    (applied : ev.native (.core g) n.store args = ⟨args', .ok v⟩) (name : Text) (pos : Position) :
    runNative engine ev f name pos (args, n) = .ok v (args', n) := by
  have own := applyNative_core engine g ev name pos args n
  rw [applied] at own
  simp only [runNative, body, own]

theorem runNative_fails {ev : Evaluator} {args : List Value} {n : Machine} {h : Halt}
    (applied : (ev.native (.core g) n.store args).result = .error h) (name : Text) (pos : Position) :
    Fails (runNative engine ev f name pos (args, n)) := by
  have own := applyNative_core engine g ev name pos args n
  simp only [applied] at own
  simp only [runNative, body, own]
  cases h <;> exact .error _ _

theorem runChecked_ok (limitless : engine.Limitless) {ev : Evaluator} {args args' : List Value}
    {n : Machine} {v : Value} (applied : ev.native (.core g) n.store args = ⟨args', .ok v⟩)
    (name : Text) (method : Bool) (pos : Position) :
    runChecked engine ev f name method pos (args, n) = .ok v (args', n) := by
  unfold runChecked
  rw [bind_of_ok (runNative_ok body applied name pos), limitless.checkSize v pos]
  cases args' with
  | nil => rfl
  | cons first rest =>
    cases method with
    | false => rfl
    | true =>
      change (do
        liftM (checkSize engine first pos)
        return v : Held (List Value) Value) (first :: rest, n) = _
      rw [limitless.checkSize first pos]
      rfl

theorem runChecked_fails {ev : Evaluator} {args : List Value} {n : Machine} {h : Halt}
    (applied : (ev.native (.core g) n.store args).result = .error h) (name : Text) (method : Bool)
    (pos : Position) : Fails (runChecked engine ev f name method pos (args, n)) :=
  (runNative_fails body applied name pos).first _

theorem callNative_brings (limitless : engine.Limitless) {signature : Signature} {p q : ValueType}
    (params : signature.params = [p, q]) {fuel : Nat} {n : Machine} {v w x : Value}
    (plain : w.isShared = false) (stands : StandsFor (evaluator engine (fuel + 1)) n v x)
    (steady : g.Steady engine.arithmetic [converted p w, converted q x]) (name : Text) (pos : Position) :
    Brings n (g.apply engine.arithmetic {} 1 [converted p w, converted q x]).result.toOption
      (Held.drop [w, v] (callNative engine (evaluator engine (fuel + 1)) (signature, f) name false pos)
        n) := by
  let ev := evaluator engine (fuel + 1)
  let call : Held Value Value := do
    let copies ← Held.lift (passCopies ev [q] [v])
    let u ← Held.held
    Held.zoom (u :: copies) (fun args u => args.headD u) (runChecked engine ev f name false pos)
  have copies : passCopies ev [q] [v] n = .ok [converted q x] n := passCopies_one stands q
  have called : Brings n (g.apply engine.arithmetic {} 1 [converted p w, converted q x]).result.toOption
      (Held.drop (converted p w) call n) := by
    have applied : ev.native (.core g) n.store [converted p w, converted q x] =
        Applied.give _ (g.apply engine.arithmetic {} 1 [converted p w, converted q x]).result :=
      steady n.store fuel
    cases result : (g.apply engine.arithmetic {} 1 [converted p w, converted q x]).result with
    | ok y =>
      rw [result] at applied
      have ran := runChecked_ok body limitless applied name false pos
      exact Held.drop_of_ok ((bind_of_ok (Held.lift_of_ok copies _) _).trans (Held.zoom_of_ok ran _ _))
    | error h =>
      have failed : Fails (runChecked engine ev f name false pos ([converted p w, converted q x], n)) :=
        runChecked_fails body (congrArg Applied.result (applied.trans (congrArg _ result))) name false pos
      refine Fails.drop ?_
      change Fails ((Held.lift (passCopies ev [q] [v]) >>= _ : Held Value Value) (converted p w, n))
      rw [bind_of_ok (Held.lift_of_ok copies _)]
      exact failed.zoom _ _
  have itself : StandsFor ev n w w := .self (Nat.succ_pos fuel) plain n
  have entered : callNative engine ev (signature, f) name false pos ([w, v], n) =
      (if decide (p = .float ∧ w.plainType = .i64) then do
        let u ← Held.lift (flatten ev w)
        Held.lift (Held.drop (toFloat u) call)
      else Held.zoom w (fun u args => u :: args.tail) (Held.behind [] pos call) :
        Held (List Value) Value) ([w, v], n) := by
    have asked := Held.lift_of_ok (needsFloat_of itself p) [w, v]
    unfold callNative
    rw [bind_of_ok (p := Held.held) (a := [w, v]) rfl]
    simp only [params, List.headD_cons, Bool.not_false, Bool.true_and]
    rw [bind_of_ok asked]
    rfl
  have dropped : Held.drop [w, v] (callNative engine ev (signature, f) name false pos) n =
      Held.drop (converted p w) call n := by
    by_cases float : p = .float ∧ w.plainType = .i64
    · rw [decide_eq_true float, if_pos rfl, bind_of_ok (Held.lift_of_ok itself.flatten _)] at entered
      rw [converted, if_pos float, Held.drop_congr entered, Held.drop_lift]
    · rw [decide_eq_false float, if_neg Bool.false_ne_true] at entered
      rw [converted, if_neg float, Held.drop_congr entered, Held.drop_zoom,
        Held.drop_congr (Held.behind_plain plain [] pos call n)]
  rw [dropped]
  exact called

end

end Eval

def Package.shown : List ValueType := [.string, .char, .i64, .float, .bool, .unit]

def Native.core? : Native → Option CoreFn
  | .core g => some g
  | _ => none

theorem Package.operator_offers {o : Offer} (mem : o ∈ coreOffers) (named : Text.lit o.1 ∈ operators)
    {p q : ValueType} (params : o.2.1 = [p, q]) : p ≠ .any ∧ q ≠ .any ∧ ∃ g, o.2.2 = .core g ∧
      (g.calculates = true ∨ g = .concat ∧ p ∈ shown ∧ q ∈ shown) := by
  have table : coreOffers.all (fun o => !operators.contains (Text.lit o.1) || o.2.1.length != 2 ||
      o.2.1.all (· != .any) && o.2.2.core?.any fun g =>
        g.calculates || g == .concat && o.2.1.all shown.contains) = true := by decide +kernel
  have own := List.all_eq_true.mp table o mem
  obtain ⟨name, ps, f⟩ := o
  cases params
  cases f with
  | core g => simpa [Native.core?, and_assoc, show Text.lit name ∈ operators from named] using own
  | _ => exact absurd named (by simpa [Native.core?] using own)

theorem Value.isLone_of_type {v : Value} (h : v.plainType ∈ Package.shown) : v.isLone = true := by
  cases v <;> first | rfl | simp [plainType, Package.shown] at h

def Engine.operate (engine : Engine) (name : Text) (v w : Value) : Option Value :=
  (engine.native? name [v.plainType, w.plainType] false).bind fun f => match f.1.params, f.2.body with
    | [p, q], .native (.core g) => (g.apply engine.arithmetic {} 1
        [Eval.converted p v, Eval.converted q w]).result.toOption
    | _, _ => none

namespace Eval

theorem converted_type {method : Bool} {p q : ValueType} {v w : Value} (hp : p ≠ .any) (hq : q ≠ .any)
    (viable : Module.Viable method [p, q] [v.plainType, w.plainType]) :
    (converted p v).plainType = p ∧ (converted q w).plainType = q := by
  have one {p : ValueType} {v : Value} (hp : p ≠ .any)
      (fits : p ≠ v.plainType → p = .any ∨ p = .float ∧ v.plainType = .i64) :
      (converted p v).plainType = p := by
    unfold converted
    split
    · next float =>
      obtain ⟨rfl, integer⟩ := float
      cases v with
      | int t n =>
        cases integer
        rfl
      | host v => cases v <;> cases integer
      | _ => cases integer
    · next other =>
      by_contra differ
      exact (fits (Ne.symm differ)).elim hp other
  obtain ⟨-, fits⟩ := viable
  constructor
  · exact one hp fun differ => (fits 0 p _ rfl rfl differ).imp id fun h => ⟨h.1, h.2.1⟩
  · exact one hq fun differ => (fits 1 q _ rfl rfl differ).imp id fun h => ⟨h.1, h.2.1⟩

section
variable {engine : Engine} (core : engine.OnCore) {name : Text} (operator : name ∈ Package.operators)
  {v w : Value}
include core operator

theorem found_operator {f : Overload}
    (found : engine.native? name [v.plainType, w.plainType] false = some f) :
    ∃ p q g, f.1.params = [p, q] ∧ f.2.body = .native (.core g) ∧
      (g.calculates = true ∨ g = .concat) ∧
      g.Steady engine.arithmetic [converted p v, converted q w] := by
  obtain ⟨o, mem, signature, body, named, viable⟩ := core.offered found
  obtain ⟨p, q, params⟩ : ∃ p q, o.2.1 = [p, q] := List.length_eq_two.mp viable.1
  obtain ⟨hp, hq, g, own, kind⟩ := Package.operator_offers mem (named ▸ operator) params
  rw [params] at viable
  rw [own] at body
  obtain ⟨typeP, typeQ⟩ := converted_type hp hq viable
  refine ⟨p, q, g, (congrArg Signature.params signature).trans params, body, ?_⟩
  rcases kind with calculates | ⟨rfl, shownP, shownQ⟩
  · exact ⟨Or.inl calculates, CoreFn.steady_of_calculates calculates _ _⟩
  · exact ⟨Or.inr rfl, CoreFn.steady_concat _ (Value.isLone_of_type (typeP.symm ▸ shownP))
      (Value.isLone_of_type (typeQ.symm ▸ shownQ))⟩

theorem operate_plain {x : Value} (h : engine.operate name v w = some x) : x.isShared = false := by
  unfold Engine.operate at h
  obtain ⟨f, found, h⟩ := Option.bind_eq_some_iff.mp h
  obtain ⟨p, q, g, params, body, kind, -⟩ := found_operator core operator found
  simp only [params, body, CoreFn.apply] at h
  have unchanged (args : List Value) : g.change? {} 1 args = none := by
    rcases kind with calculates | rfl
    · exact CoreFn.change?_of_calculates calculates _ _ _
    · rfl
  cases value : g.value? engine.arithmetic {} 1 [converted p v, converted q w] with
  | none =>
    rw [value, unchanged] at h
    cases h
  | some r =>
    rw [value] at h
    cases r with
    | error e => cases h
    | ok y =>
      cases h
      have given := (CoreFn.value?_gives value).2 x rfl
      cases given with
      | atom atom => cases x <;> first | rfl | cases atom.1
      | _ => rfl

theorem callByValue_brings (limitless : engine.Limitless) {fuel : Nat} {n : Machine} {given : Value}
    (plain : v.isShared = false) (stands : StandsFor (evaluator engine (fuel + 1)) n given w)
    (pos : Position) : Brings n (engine.operate name v w)
      (callByValue engine (evaluator engine (fuel + 1)) name [v, given] pos n) := by
  let ev := evaluator engine (fuel + 1)
  have types : typesOf ev [v, given] n = .ok [v.plainType, w.plainType] n := by
    have first : typeOf ev v n = .ok v.plainType n := typeOf_of_plain (Nat.succ_pos fuel) plain n
    have second : typesOf ev [given] n = .ok [w.plainType] n := by
      unfold typesOf
      rw [List.mapM_cons, bind_of_ok stands.typeOf]
      rfl
    unfold typesOf at second ⊢
    rw [List.mapM_cons, bind_of_ok first, bind_of_ok second]
    rfl
  have tried := Held.drop_congr (tryNative_typed engine types name false pos)
  unfold Engine.operate
  cases found : engine.native? name [v.plainType, w.plainType] false with
  | none =>
    obtain ⟨notEq, notNe⟩ := Package.not_operators operator
    rw [found] at tried
    have nothing : Held.drop [v, given] (tryNative engine ev name false pos) n = .ok none n := tried
    change Fails (callByValue engine ev name [v, given] pos n)
    unfold callByValue
    rw [bind_of_ok nothing]
    simp only [notEq, notNe, and_false, if_false]
    exact (notFound_still engine ev name [v, given] pos).fails n
  | some f =>
    obtain ⟨p, q, g, params, body, -, steady⟩ := found_operator core operator found
    obtain ⟨s, fn⟩ := f
    dsimp only at params body
    have called := callNative_brings body limitless params plain stands steady name pos
    rw [found, Held.drop_map] at tried
    simp only [Option.bind_some, params, body]
    generalize (g.apply engine.arithmetic {} 1 [converted p v, converted q w]).result.toOption = r at called ⊢
    cases r with
    | some y =>
      rw [map_of_ok called] at tried
      exact bind_of_ok tried _
    | none =>
      refine Fails.first ?_ _
      rw [tried]
      exact called.map some

end

end Eval

end Scripting
