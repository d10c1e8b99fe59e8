import Scripting.Proofs.Access.Opening
import Scripting.Proofs.Access.Operators

/-
Compound assignments. An assignment by an operator does what the same assignment does when it is spelled
out, with the place on both sides.
-/
namespace Scripting

theorem Symbol.text_isEmpty (s : Symbol) : s.text.isEmpty = false := by
  cases s <;> rfl

namespace Package

theorem operators_of_compound {s : Symbol} (h : s.isCompoundAssignment = true) :
    s.text.dropLast ∈ operators := by
  cases s <;> first | decide | cases h

theorem offers_of_assignment :
    (Symbol.spelled.all fun s => !s.isCompoundAssignment || s == .plusAssign ||
      coreOffers.all fun o => Text.lit o.1 != s.text) = true ∧
    (coreOffers.all fun o => Text.lit o.1 != Text.lit "+=" || o.2.2.core?.any fun g =>
      (o.2.1 == [.string, .string] || o.2.1 == [.string, .char]) && g == .stringExtend ||
        o.2.1 == [.array, .array] && g == .arrayExtend) = true ∧
    (coreOffers.all fun o => Text.lit o.1 != Text.lit "+" || o.2.2.core?.any fun g =>
      (!(o.2.1 == [.string, .string] || o.2.1 == [.string, .char]) || g == .concat) &&
        (o.2.1 != [.array, .array] || g == .arrayConcat)) = true ∧
    ([[ValueType.string, .string], [.string, .char], [.array, .array]].all fun types =>
      coreOffers.any fun o => Text.lit o.1 == Text.lit "+" && o.2.1 == types) = true ∧
    (coreOffers.any fun o => Text.lit o.1 == Text.lit "+=" && o.2.1 == [.array, .array]) = true := by
  decide +kernel

/-- Only `+=` has functions of its own. -/
theorem overloads_of_compound {s : Symbol} (h : s.isCompoundAssignment = true)
    (other : s ≠ .plusAssign) : coreModule.overloads s.text = [] := by
  have mem : s ∈ Symbol.spelled := by cases s <;> first | decide | cases h
  have own := List.all_eq_true.mp offers_of_assignment.1 s mem
  refine overloads_unoffered fun o mem => ?_
  simp only [h, Bool.not_true, Bool.false_or, Bool.or_eq_true, beq_iff_eq, other, false_or] at own
  simpa using List.all_eq_true.mp own o mem

theorem extension_offers {o : Offer} (mem : o ∈ coreOffers) (named : Text.lit o.1 = Text.lit "+=") :
    ∃ g, o.2.2 = .core g ∧ ((o.2.1 = [.string, .string] ∨ o.2.1 = [.string, .char]) ∧ g = .stringExtend ∨
      o.2.1 = [.array, .array] ∧ g = .arrayExtend) := by
  have own := List.all_eq_true.mp offers_of_assignment.2.1 o mem
  obtain ⟨name, params, f⟩ := o
  cases f with
  | core g => exact ⟨g, rfl, by simpa [named, Native.core?] using own⟩
  | _ => simp [named, Native.core?] at own

theorem plus_offers {o : Offer} (mem : o ∈ coreOffers) (named : Text.lit o.1 = Text.lit "+") :
    (o.2.1 = [.string, .string] ∨ o.2.1 = [.string, .char] → o.2.2 = .core .concat) ∧
      (o.2.1 = [.array, .array] → o.2.2 = .core .arrayConcat) := by
  have own := List.all_eq_true.mp offers_of_assignment.2.2.1 o mem
  obtain ⟨name, params, f⟩ := o
  cases f with
  | core g =>
    simp only [named, Native.core?, Option.any_some, bne_self_eq_false, Bool.false_or,
      Bool.and_eq_true, Bool.or_eq_true, Bool.not_eq_true', beq_iff_eq, bne_iff_ne, ne_eq,
      Bool.or_eq_false_iff] at own
    constructor
    · rintro (rfl | rfl) <;> simpa using own.1
    · rintro rfl
      simpa using own.2
  | _ => simp [named, Native.core?] at own

theorem plus_is_offered (types : List ValueType)
    (h : types ∈ [[.string, .string], [.string, .char], [.array, .array]]) :
    ∃ o ∈ coreOffers, Text.lit o.1 = Text.lit "+" ∧ o.2.1 = types := by
  obtain ⟨o, mem, same⟩ :=
    List.any_eq_true.mp (List.all_eq_true.mp offers_of_assignment.2.2.2.1 types h)
  exact ⟨o, mem, by simpa using same⟩

end Package

theorem Module.Viable.eq_of_strict {method : Bool} {params types : List ValueType}
    (h : Viable method params types) (strict : ∀ p ∈ params, p ≠ .any ∧ p ≠ .float) :
    params = types := by
  obtain ⟨length, fits⟩ := h
  refine List.ext_getElem length fun i inside inside' => ?_
  by_contra differ
  have own := strict _ (List.getElem_mem inside)
  rcases fits i _ _ (List.getElem?_eq_getElem inside) (List.getElem?_eq_getElem inside') differ with
    any | ⟨float, -⟩
  · exact own.1 any
  · exact own.2 float

theorem Value.string_of_type {v : Value} (h : v.plainType = .string) : ∃ t, v = .string t := by
  cases v with
  | string t => exact ⟨t, rfl⟩
  | host v => cases v <;> cases h
  | _ => cases h

theorem Value.array_of_type {v : Value} (h : v.plainType = .array) : ∃ items, v = .array items := by
  cases v with
  | array items => exact ⟨items, rfl⟩
  | host v => cases v <;> cases h
  | _ => cases h

namespace Engine.OnCore

variable {engine : Engine} (core : engine.OnCore)
include core

theorem plus_found (types : List ValueType)
    (h : types ∈ [[.string, .string], [.string, .char], [.array, .array]]) :
    ∃ f, engine.native? (Text.lit "+") types false = some f ∧ f.1.params = types ∧
      f.2.body = .native (.core (if types = [.array, .array] then .arrayConcat else .concat)) := by
  obtain ⟨o, mem, plus, params⟩ := Package.plus_is_offered types h
  obtain ⟨f, found, own⟩ := core.found_of_offer mem false
  rw [plus, params] at found
  rw [params] at own
  obtain ⟨o', mem', signature, body, named, -⟩ := core.offered found
  have same : o'.2.1 = types := by rw [← own, signature]
  obtain ⟨texts, arrays⟩ := Package.plus_offers mem' named
  refine ⟨f, found, own, ?_⟩
  rw [body]
  simp only [List.mem_cons, List.not_mem_nil, or_false] at h
  rcases h with rfl | rfl | rfl
  · rw [texts (Or.inl same)]
    rfl
  · rw [texts (Or.inr same)]
    rfl
  · rw [arrays same]
    rfl

theorem operate_texts (t : Text) {w : Value} (h : w.plainType = .string ∨ w.plainType = .char) :
    engine.operate (Text.lit "+") (.string t) w = some (.string (t ++ w.scalarText)) := by
  have lone : w.isLone = true := Value.isLone_of_type (by rcases h with h | h <;> simp [h, Package.shown])
  have types : [(Value.string t).plainType, w.plainType] ∈
      [[ValueType.string, .string], [.string, .char], [.array, .array]] := by
    rcases h with h | h <;> simp [h, show (Value.string t).plainType = .string from rfl]
  obtain ⟨f, found, params, body⟩ := core.plus_found _ types
  have other : Eval.converted w.plainType w = w :=
    if_neg (by rcases h with h | h <;> simp [h])
  unfold operate
  rw [found, Option.bind_some]
  simp only [params, body, other]
  rw [if_neg (by rcases h with h | h <;> simp [h])]
  rw [CoreFn.apply_concat _ rfl lone]
  rfl

theorem operate_arrays (xs ys : List Value) :
    engine.operate (Text.lit "+") (.array xs) (.array ys) = some (.array (xs ++ ys)) := by
  obtain ⟨f, found, params, body⟩ := core.plus_found [.array, .array] (by simp)
  have found : engine.native? (Text.lit "+") [(Value.array xs).plainType, (Value.array ys).plainType]
      false = some f := found
  unfold operate
  rw [found, Option.bind_some]
  simp only [params, body]
  rfl

end Engine.OnCore

namespace Eval

section
variable (engine : Engine) (ev : Evaluator) (f : Overload) (name : Text) (pos : Position) (w : Value)

def methodCall : Held Value Value := do
  let copies ← Held.lift (passCopies ev f.1.params.tail [w])
  let v ← Held.held
  Held.zoom (v :: copies) (fun args v => args.headD v) (runChecked engine ev f.2 name true pos)

theorem callNative_method {n : Machine} {v : Value} {t : ValueType} (known : typeOf ev v n = .ok t n)
    {x y : Value} {o : Machine}
    (called : Held.behind [] pos (methodCall engine ev f name pos w) (v, n) = .ok y (x, o)) :
    callNative engine ev f name true pos ([v, w], n) = .ok y ([x, w], o) := by
  have asked : ∃ b, needsFloat ev (f.1.params.headD .any) v n = .ok b n := by
    unfold needsFloat
    split
    · exact ⟨_, bind_of_ok known _⟩
    · exact ⟨false, rfl⟩
  obtain ⟨b, asked⟩ := asked
  unfold callNative
  rw [bind_of_ok (p := Held.held) (a := [v, w]) rfl]
  simp only [Bool.not_true, Bool.false_and, Bool.false_eq_true, if_false]
  rw [bind_of_ok (Held.lift_of_ok asked _)]
  exact Held.zoom_of_ok called _ _

end

theorem methodCall_changes {engine : Engine} (limitless : engine.Limitless) {f : Overload} {g : CoreFn}
    (body : f.2.body = .native (.core g)) {p q : ValueType} (params : f.1.params = [p, q])
    {fuel : Nat} {n : Machine} {v w x y : Value} {rest : List Value} (plain : w.isShared = false)
    (applied : g.apply engine.arithmetic n.store (fuel + 1) [v, converted q w] = ⟨x :: rest, .ok y⟩)
    (name : Text) (pos : Position) :
    methodCall engine (evaluator engine (fuel + 1)) f name pos w (v, n) = .ok y (x, n) := by
  let ev := evaluator engine (fuel + 1)
  have stands : StandsFor ev n w w := .self (Nat.succ_pos fuel) plain n
  have copies : passCopies ev f.1.params.tail [w] n = .ok [converted q w] n := by
    rw [params]
    exact passCopies_one stands q
  have ran : runChecked engine ev f.2 name true pos ([v, converted q w], n) = .ok y (x :: rest, n) :=
    runChecked_ok body limitless applied name true pos
  exact (bind_of_ok (Held.lift_of_ok copies v) _).trans (Held.zoom_of_ok ran _ v)

def Leaves (n : Machine) : Option Value → EStateM.Result Halt Holding Unit → Prop
  | some x, out => out = .ok () (x, n)
  | none, out => Fails out

section
variable {engine : Engine} (core : engine.OnCore) (limitless : engine.Limitless) {v w : Value}
  (plain : ∀ u ∈ [v, w], u.isShared = false)
include core limitless plain

theorem compound_by_operator {operator : Text} (known : operator.dropLast ∈ Package.operators)
    {fuel : Nat} {pos : Position} {n : Machine} (none : tryMethod engine (evaluator engine (fuel + 1))
      operator [w] pos (v, n) = .ok none (v, n)) : Leaves n (engine.operate operator.dropLast v w)
        (compound engine (evaluator engine (fuel + 1)) operator w pos (v, n)) := by
  let ev := evaluator engine (fuel + 1)
  have stands : StandsFor ev n w w := .self (Nat.succ_pos fuel) (plain w (by simp)) n
  have given := callByValue_brings core known limitless (plain v (by simp)) stands pos
  have passed : compound engine ev operator w pos (v, n) =
      (Held.lift (callByValue engine ev operator.dropLast [v, w] pos) >>= fun x => do
        Held.setHeld x
        liftM (checkSize engine x pos) : Held Value Unit) (v, n) := bind_of_ok none _
  cases result : engine.operate operator.dropLast v w with
  | none =>
    rw [result] at given
    change Fails (compound engine ev operator w pos (v, n))
    rw [passed]
    exact (given.lift v).first _
  | some x =>
    rw [result] at given
    refine passed.trans ((bind_of_ok (Held.lift_of_ok given v) _).trans ?_)
    rw [limitless.checkSize x pos]
    rfl

theorem compound_in_place {f : Overload}
    (found : engine.native? (Text.lit "+=") [v.plainType, w.plainType] true = some f) (fuel : Nat)
    (pos : Position) (n : Machine) : Leaves n (engine.operate (Text.lit "+") v w)
      (compound engine (evaluator engine (fuel + 1)) (Text.lit "+=") w pos (v, n)) := by
  let ev := evaluator engine (fuel + 1)
  have own := plain v (by simp)
  obtain ⟨o, mem, signature, body, named, viable⟩ := core.offered found
  obtain ⟨g, code, kind⟩ := Package.extension_offers mem named
  rw [code] at body
  have params : f.1.params = o.2.1 := congrArg Signature.params signature
  have types : o.2.1 = [v.plainType, w.plainType] := by
    refine viable.eq_of_strict ?_
    rcases kind with ⟨texts | texts, -⟩ | ⟨arrays, -⟩
    · simp [texts]
    · simp [texts]
    · simp [arrays]
  have spare : 0 < ev.fuel := Nat.succ_pos fuel
  have method := tryMethod_of_plain engine spare plain (Text.lit "+=") pos n
  rw [List.map_cons, List.map_cons, List.map_nil, found] at method
  have finish {x : Value} (y : Value) (rest : List Value) (applied : g.apply engine.arithmetic n.store (fuel + 1)
      [v, converted w.plainType w] = ⟨x :: rest, .ok y⟩) :
      compound engine ev (Text.lit "+=") w pos (v, n) = .ok () (x, n) := by
    have called := methodCall_changes limitless body (params.trans types) (plain w (by simp)) applied
      (Text.lit "+=") pos
    have changed := callNative_method engine ev f (Text.lit "+=") pos w
      (typeOf_of_plain (Nat.succ_pos fuel) own n) ((Held.behind_plain own [] pos _ n).trans called)
    have first : asFirst [w] (callNative engine ev f (Text.lit "+=") true pos) (v, n) = .ok y (x, n) :=
      Held.zoom_of_ok changed _ v
    dsimp only at method
    rw [map_of_ok first] at method
    exact bind_of_ok method _
  rcases kind with ⟨texts, rfl⟩ | ⟨arrays, rfl⟩
  · have shape : v.plainType = .string ∧ (w.plainType = .string ∨ w.plainType = .char) := by
      rcases texts with texts | texts
      · simp only [texts, List.cons.injEq, and_true] at types
        exact ⟨types.1.symm, Or.inl types.2.symm⟩
      · simp only [texts, List.cons.injEq, and_true] at types
        exact ⟨types.1.symm, Or.inr types.2.symm⟩
    obtain ⟨t, rfl⟩ := Value.string_of_type shape.1
    have lone : w.isLone = true :=
      Value.isLone_of_type (by rcases shape.2 with h | h <;> simp [h, Package.shown])
    have other : converted w.plainType w = w := if_neg (by rcases shape.2 with h | h <;> simp [h])
    rw [core.operate_texts t shape.2]
    refine finish .unit [w] ?_
    rw [other]
    exact CoreFn.apply_stringExtend _ t lone _ _
  · rw [arrays] at types
    obtain ⟨xs, rfl⟩ := Value.array_of_type (v := v) (by simpa using types.symm : _ ∧ _).1
    obtain ⟨ys, rfl⟩ := Value.array_of_type (v := w) (by simpa using types.symm : _ ∧ _).2
    rw [core.operate_arrays xs ys]
    exact finish .unit [.array ys] rfl

theorem compound_leaves {s : Symbol} (known : s.isCompoundAssignment = true) (fuel : Nat)
    (pos : Position) (n : Machine) : Leaves n (engine.operate s.text.dropLast v w)
      (compound engine (evaluator engine (fuel + 1)) s.text w pos (v, n)) := by
  let ev := evaluator engine (fuel + 1)
  have base : s.text.dropLast ∈ Package.operators := Package.operators_of_compound known
  have spare : 0 < ev.fuel := Nat.succ_pos fuel
  have method := tryMethod_of_plain engine spare plain s.text pos n
  rw [List.map_cons, List.map_cons, List.map_nil] at method
  cases found : engine.native? s.text [v.plainType, w.plainType] true with
  | none =>
    rw [found] at method
    exact compound_by_operator core limitless plain base method
  | some f =>
    by_cases plus : s = .plusAssign
    · subst plus
      exact compound_in_place core limitless plain found fuel pos n
    · have unserved := core.unserved (Package.overloads_of_compound known plus)
        [v.plainType, w.plainType] true
      rw [unserved] at found
      cases found

end

def Silent (engine : Engine) (m : Machine) (e : Expr) : Prop :=
  (∃ v, ComesTo engine m e (some v)) ∨
    Enough fun fuel => ∀ n, m.Counted n → Fails (evalAt engine fuel e n)

def Unnamed (m : Machine) (name : Text) : Prop :=
  ∀ arity, m.library.scriptFn? name arity false = none ∧ m.root.scriptFn? name arity false = none

theorem scriptFn?_unnamed {m n : Machine} {name : Text} (unnamed : Unnamed m name)
    (counted : m.Counted n) (arity : Nat) : scriptFn? name arity false n = .ok none n := by
  obtain ⟨_, _, rfl⟩ := counted
  unfold scriptFn?
  rw [bind_of_ok (p := get) rfl]
  simp only [(unnamed arity).1, (unnamed arity).2]
  rfl

theorem standsFor_of_behind {ev : Evaluator} {m n : Machine} (fuel : 2 ≤ ev.fuel)
    (shallow : m.store.Shallow) (counted : m.Counted n) {v w : Value}
    (h : v.behind? m.store = some w) : StandsFor ev n v w := by
  have quiet : n.store.Shallow := counted.store ▸ shallow
  have own (plain : v.isShared = false) : v = w := by
    cases v with
    | shared c => cases plain
    | _ =>
      cases h
      rfl
  rw [← counted.store] at h
  rcases looks_behind fuel quiet v with ⟨x, shown, type, value⟩ | ⟨none, -⟩
  · cases h.symm.trans shown
    exact ⟨quiet.behind? h, type, value, own⟩
  · rw [h] at none
    cases none

theorem callByValue_fails {engine : Engine} {ev : Evaluator} {n : Machine} {v w : Value} (name : Text)
    (fuel : 0 < ev.fuel) (plain : v.isShared = false) (refused : Refuses (typeOf ev w) n)
    (pos : Position) : Fails (callByValue engine ev name [v, w] pos n) := by
  have types : Refuses (typesOf ev [v, w]) n := by
    unfold typesOf
    rw [List.mapM_cons, List.mapM_cons]
    exact .bind_ok (typeOf_of_plain fuel plain n) ((refused.bind _).bind _)
  have native : Refuses (tryNative engine ev name false pos) ([v, w], n) :=
    (types.lift [v, w]).bind _
  exact (native.drop.bind _).fails

def result? (engine : Engine) (m : Machine) (name : Text) (p : Expr) (right : Value) : Option Value :=
  (p.look m).bind fun v => (right.behind? m.store).bind fun w => engine.operate name v w

section
variable {engine : Engine} {m n : Machine} {name : Text} {p e : Expr}

theorem evalAt_operator (unstopped : engine.Unstopped) (unnamed : Unnamed m name)
    (counted : m.Counted n) (pos : Position) (fuel : Nat) :
    ∃ o, m.Counted o ∧ evalAt engine (fuel + 1) (.call pos name [] [p, e] true) n =
      (evalArgs (evaluator engine fuel) [p, e] >>= fun args =>
        callByValue engine (evaluator engine fuel) name args pos) o := by
  obtain ⟨o, ticked, counted⟩ := tick_comes unstopped pos counted
  refine ⟨o, counted, ?_⟩
  have own : callPlain engine (evaluator engine fuel) name [p, e] true pos o =
      (evalArgs (evaluator engine fuel) [p, e] >>= fun args =>
        callByValue engine (evaluator engine fuel) name args pos) o :=
    bind_of_ok (scriptFn?_unnamed unnamed counted 2) _
  exact (bind_of_ok ticked _).trans own

theorem evalArgs_pair (ev : Evaluator) {o q : Machine} {v w : Value} (first : ev.eval p n = .ok v o)
    (second : ev.eval e o = .ok w q) : evalArgs ev [p, e] n = .ok [v, w] q := by
  have last : evalArgs ev [e] o = .ok [w] q := by
    unfold evalArgs
    rw [List.mapM_cons, bind_of_ok second]
    rfl
  unfold evalArgs at last ⊢
  rw [List.mapM_cons, bind_of_ok first, bind_of_ok last]
  rfl

theorem evalArgs_fails {ev : Evaluator}
    (h : Fails (ev.eval p n) ∨ ∃ v o, ev.eval p n = .ok v o ∧ Fails (ev.eval e o)) :
    Fails (evalArgs ev [p, e] n) := by
  unfold evalArgs
  rw [List.mapM_cons]
  rcases h with fails | ⟨v, o, ran, fails⟩
  · exact fails.first _
  · rw [bind_of_ok ran, List.mapM_cons]
    exact (fails.first _).first _

theorem evalAt_operator_fails (unstopped : engine.Unstopped) (unnamed : Unnamed m name) {fuel : Nat}
    {r : Option Value} (left : ∀ n, m.Counted n → Comes m r (evalAt engine fuel p n))
    (right : ∀ n, m.Counted n → Fails (evalAt engine fuel e n)) (counted : m.Counted n) (pos : Position) :
    Fails (evalAt engine (fuel + 1) (.call pos name [] [p, e] true) n) := by
  obtain ⟨o, counted, eq⟩ := evalAt_operator (p := p) (e := e) unstopped unnamed counted pos fuel
  rw [eq]
  refine Fails.first (evalArgs_fails ?_) _
  have first := left o counted
  cases r with
  | none => exact Or.inl first.fails
  | some v =>
    obtain ⟨q, ran, counted⟩ := first
    exact Or.inr ⟨v, q, ran, right q counted⟩

variable (core : engine.OnCore) (limitless : engine.Limitless) (shallow : m.store.Shallow)
  (place : p.IsLocal) (operator : name ∈ Package.operators) (unnamed : Unnamed m name)
include core limitless shallow place operator unnamed

theorem operation_comes {v : Value} (value : ComesTo engine m e (some v)) (pos : Position) :
    Enough fun fuel => ∀ n, m.Counted n → match result? engine m name p v with
      | some y => ∃ o, evalAt engine fuel (.call pos name [] [p, e] true) n = .ok y o ∧ m.Counted o
      | none => Fails (evalAt engine fuel (.call pos name [] [p, e] true) n) := by
  refine Enough.succ ((((place_comesTo core limitless.toUnstopped shallow place.isPlace).and value).and
    (⟨2, fun _ enough => enough⟩ : Enough fun fuel => 2 ≤ fuel)).imp fun fuel both n counted => ?_)
  obtain ⟨⟨evalPlace, evalRight⟩, enough⟩ := both
  obtain ⟨k, rfl⟩ : ∃ k, fuel = k + 1 := ⟨fuel - 1, by omega⟩
  have enough : 2 ≤ (evaluator engine (k + 1)).fuel := enough
  obtain ⟨n, counted, eq⟩ := evalAt_operator (p := p) (e := e) limitless.toUnstopped unnamed counted pos
    (k + 1)
  rw [eq, result?]
  have left := evalPlace n counted
  cases held : p.look m with
  | none =>
    rw [held] at left
    exact (evalArgs_fails (Or.inl left.fails)).first _
  | some w =>
    rw [held] at left
    obtain ⟨o, leftRan, counted⟩ := left
    obtain ⟨q, rightRan, counted⟩ := evalRight o counted
    have plain := place.look_plain shallow held
    rw [bind_of_ok (evalArgs_pair (evaluator engine (k + 1)) leftRan rightRan), Option.bind_some]
    cases shown : v.behind? m.store with
    | none =>
      have quiet : q.store.Shallow := counted.store ▸ shallow
      rcases looks_behind enough quiet v with
        ⟨x, here, -⟩ | ⟨-, refused, -⟩
      · rw [counted.store, shown] at here
        cases here
      · exact callByValue_fails name (Nat.succ_pos k) plain refused pos
    | some x =>
      have stands := standsFor_of_behind enough shallow counted shown
      have given := callByValue_brings core operator limitless plain stands pos
      rw [Option.bind_some]
      cases result : engine.operate name w x with
      | none =>
        rw [result] at given
        exact given
      | some y =>
        rw [result] at given
        exact ⟨q, given, counted⟩

end

theorem plain_brings {ev : Evaluator} {m n : Machine} (fuel : 2 ≤ ev.fuel) (shallow : m.store.Shallow)
    (counted : m.Counted n) (v : Value) : Brings n (v.behind? m.store) (plain ev v n) := by
  cases v with
  | shared c =>
    have quiet : n.store.Shallow := counted.store ▸ shallow
    rw [← counted.store]
    rcases looks_behind fuel quiet (.shared c) with ⟨w, shown, -, value⟩ | ⟨none, -, refused⟩
    · rw [shown]
      exact value
    · rw [none]
      exact refused.fails
  | _ => exact rfl

section
variable {engine : Engine} {m : Machine} {s : Symbol} {p e : Expr} (core : engine.OnCore)
  (limitless : engine.Limitless) (shallow : m.store.Shallow) (place : p.IsLocal)
  (known : s.isCompoundAssignment = true)
include core limitless shallow place known

theorem compound_alike {x : Value} (plain : x.isShared = false) {fuel : Nat} (pos : Position) {may : Prop}
    {l : Held Value Unit} (h : ∀ v, p.look m = some v → match engine.operate s.text.dropLast v x with
      | some y => may ∧ l = Held.setHeld y
      | none => ∀ t, Fails (l t)) :
    ∀ v, p.look m = some v →
      WorkAlike may m v (compound engine (evaluator engine (fuel + 1)) s.text x pos) l := by
  intro v held n o mirrors counted
  have given := h v held
  have left := compound_leaves core limitless (v := v) (w := x)
    (by simp [plain, place.look_plain shallow held]) known fuel pos n
  cases result : engine.operate s.text.dropLast v x with
  | none =>
    rw [result] at given left
    exact Or.inl ⟨left, given _⟩
  | some y =>
    rw [result] at given left
    obtain ⟨allowed, rfl⟩ := given
    exact Or.inr ⟨allowed, (), _, _, left, rfl, rfl, counted⟩

/-- A compound assignment and the one that spells it out end alike. -/
theorem execAssign_alike {v : Value} (unnamed : Unnamed m s.text.dropLast)
    (value : ComesTo engine m e (some v)) (pos asPos opPos : Position) :
    Enough fun fuel => ∀ n o, m.Counted n → m.Counted o → Alike Machine.Counted True
      (execAssign engine (evaluator engine fuel) pos s.text p e n)
      (execAssign engine (evaluator engine fuel) asPos [] p
        (.call opPos s.text.dropLast [] [p, e] true) o) := by
  have base := Package.operators_of_compound known
  refine (((operation_comes core limitless shallow place base unnamed value opPos).and
    ((place_alike core limitless.toUnstopped shallow place.isPlace).and value)).and
      (⟨2, fun _ enough => enough⟩ : Enough fun fuel => 2 ≤ fuel)).imp fun fuel both n o counted counted' => ?_
  obtain ⟨⟨operation, opened, right⟩, enough⟩ := both
  obtain ⟨k, rfl⟩ : ∃ k, fuel = k + 1 := ⟨fuel - 1, by omega⟩
  let ev := evaluator engine (k + 1)
  have operation := operation o counted'
  obtain ⟨n', ran, later⟩ := right n counted
  have enough : 2 ≤ ev.fuel := enough
  have own := plain_brings enough shallow later v
  have direct : execAssign engine ev pos s.text p e n = (plain ev v >>= fun x =>
      access engine ev p true (compound engine ev s.text x pos)) n' := by
    refine (bind_of_ok ran _).trans ?_
    rw [Symbol.text_isEmpty]
    rfl
  cases result : result? engine m s.text.dropLast p v with
  | none =>
    rw [result] at operation
    refine Or.inl ⟨?_, operation.first _⟩
    rw [direct]
    cases shown : v.behind? m.store with
    | none =>
      rw [shown] at own
      exact own.first _
    | some x =>
      rw [shown] at own
      have alike := opened Unit False (compound engine ev s.text x pos) (fun t => .error .outOfFuel t)
        (compound_alike core limitless shallow place known (shallow.behind? shown) pos
          fun w held => by
            have nothing : engine.operate s.text.dropLast w x = none := by
              simpa [result?, held, shown] using result
            rw [nothing]
            exact fun t => .error _ t) n' o later counted'
      rw [bind_of_ok own]
      rcases alike with ⟨fails, -⟩ | ⟨never, -⟩
      · exact fails
      · exact never.elim
  | some y =>
    rw [result] at operation
    obtain ⟨o', evaluated, later'⟩ := operation
    obtain ⟨w, held, result⟩ := Option.bind_eq_some_iff.mp result
    obtain ⟨x, shown, result⟩ := Option.bind_eq_some_iff.mp result
    rw [shown] at own
    have plainResult := operate_plain core base result
    have spelled : execAssign engine ev asPos [] p (.call opPos s.text.dropLast [] [p, e] true) o =
        access engine ev p true (Held.setHeld y) o' := by
      refine (bind_of_ok evaluated _).trans ?_
      rw [plain, plainResult, if_neg Bool.false_ne_true, bind_of_ok (p := pure y) (a := y) rfl,
        limitless.checkSize y asPos]
      rfl
    rw [direct, bind_of_ok own, spelled]
    refine opened Unit True _ _ (compound_alike core limitless shallow place known
      (shallow.behind? shown) pos fun v' held' => ?_) n' o' later later'
    cases held.symm.trans held'
    rw [result]
    exact ⟨trivial, rfl⟩

end

end Eval

open Eval in
/-- A compound assignment succeeds exactly if the assignment that spells it out does, and then both
leave the same machine but for the counts of operations. -/
theorem compound_assignment_is_spelled_out {engine : Engine} {m : Machine} {s : Symbol} {p e : Expr}
    (core : engine.OnCore) (limitless : engine.Limitless) (shallow : m.store.Shallow)
    (known : s.isCompoundAssignment = true) (unnamed : Unnamed m s.text.dropLast) (place : p.IsLocal)
    (silent : Silent engine m e) (pos asPos opPos : Position) :
    Enough fun fuel =>
      let direct := execAt engine fuel (.assign pos s.text p e) m
      let spelled := execAt engine fuel (.assign asPos [] p
        (.call opPos s.text.dropLast [] [p, e] true)) m
      ((∃ v n, direct = .ok v n) ↔ ∃ v o, spelled = .ok v o) ∧
        ∀ v w n o, direct = .ok v n → spelled = .ok w o → n.Counted o := by
  have ended : Enough fun fuel => ∀ n o, m.Counted n → m.Counted o → Alike Machine.Counted True
      (execAssign engine (evaluator engine fuel) pos s.text p e n)
      (execAssign engine (evaluator engine fuel) asPos [] p
        (.call opPos s.text.dropLast [] [p, e] true) o) := by
    rcases silent with ⟨v, value⟩ | fails
    · exact execAssign_alike core limitless shallow place known unnamed value pos asPos opPos
    · refine Enough.succ (((place_comesTo core limitless.toUnstopped shallow place.isPlace).and
        (fails.and fails.next)).imp fun fuel both n o counted counted' => ?_)
      obtain ⟨left, right, right'⟩ := both
      have failing := evalAt_operator_fails limitless.toUnstopped unnamed left right counted' opPos
      exact Or.inl ⟨(right' n counted).first _, failing.first _⟩
  refine Enough.succ (ended.imp fun fuel alike => ?_)
  obtain ⟨n, ticked, counted⟩ := tick_comes limitless.toUnstopped pos (.refl m)
  obtain ⟨o, ticked', counted'⟩ := tick_comes limitless.toUnstopped asPos (.refl m)
  have whole := (alike n o counted counted').bind (f := fun _ => pure Value.unit)
    (g := fun _ => pure Value.unit) fun _ a n o same => Or.inr ⟨trivial, .unit, n, o, rfl, rfl, same⟩
  have direct : execAt engine (fuel + 1) (.assign pos s.text p e) m =
      (execAssign engine (evaluator engine fuel) pos s.text p e >>= fun _ => pure .unit) n :=
    bind_of_ok ticked _
  have spelled : execAt engine (fuel + 1) (.assign asPos [] p
      (.call opPos s.text.dropLast [] [p, e] true)) m =
      (execAssign engine (evaluator engine fuel) asPos [] p
        (.call opPos s.text.dropLast [] [p, e] true) >>= fun _ => pure .unit) o :=
    bind_of_ok ticked' _
  dsimp only
  rw [direct, spelled]
  rcases whole with ⟨fails, fails'⟩ | ⟨-, v, n', o', ran, ran', same⟩
  · exact ⟨⟨fun ⟨v, n, ran⟩ => absurd ran (fails v n), fun ⟨v, o, ran⟩ => absurd ran (fails' v o)⟩,
      fun v _ n _ ran => absurd ran (fails v n)⟩
  · rw [ran, ran']
    refine ⟨⟨fun _ => ⟨v, o', rfl⟩, fun _ => ⟨v, n', rfl⟩⟩, fun _ _ _ _ left right => ?_⟩
    cases left
    cases right
    exact same

theorem standard_limitless : Engine.standard.Limitless where
  operations := rfl
  progress _ none := by cases none
  string := rfl
  array := rfl
  map := rfl

/-- The assignment `x.a[i] += 1` where `x` is an alias of a map. -/
theorem compound_assignment_to_item : itemUnderA.look aliasOfMap = some (.i64 (Integer.ofNat 7)) ∧
    Enough fun fuel =>
      ((∃ v n, Eval.execAt .standard fuel (.assign .nowhere Symbol.plusAssign.text itemUnderA one)
          aliasOfMap = .ok v n) ↔
        ∃ v o, Eval.execAt .standard fuel (.assign .nowhere [] itemUnderA
          (.call .nowhere Symbol.plusAssign.text.dropLast [] [itemUnderA, one] true)) aliasOfMap = .ok v o) := by
  have shallow : aliasOfMap.store.Shallow :=
    Store.forall_cell (P := fun cell => cell.value.isShared = false) (by simp [sevenUnderA, Value.isShared]) rfl
  have silent : Eval.Silent .standard aliasOfMap one :=
    Or.inl ⟨_, Eval.operand_comesTo standard_limitless.toUnstopped shallow .int⟩
  have spelled := compound_assignment_is_spelled_out ⟨rfl, rfl⟩ standard_limitless shallow
    (s := .plusAssign) rfl (fun _ => ⟨rfl, rfl⟩) (p := itemUnderA) (.index (.property .var) .var) silent
    .nowhere .nowhere .nowhere
  exact ⟨rfl, spelled.imp fun fuel both => both.1⟩

theorem Engine.OnCore.extension_found {engine : Engine} (core : engine.OnCore) :
    ∃ f, engine.native? (Text.lit "+=") [.array, .array] true = some f ∧
      f.1.params = [.array, .array] ∧ f.2.body = .native (.core .arrayExtend) := by
  obtain ⟨o, mem, own⟩ := List.any_eq_true.mp Package.offers_of_assignment.2.2.2.2
  obtain ⟨plus, params⟩ : Text.lit o.1 = Text.lit "+=" ∧ o.2.1 = [.array, .array] := by simpa using own
  obtain ⟨f, found, own⟩ := core.found_of_offer mem true
  rw [plus, params] at found
  rw [params] at own
  obtain ⟨o', mem', signature, body, named, -⟩ := core.offered found
  obtain ⟨g, code, kind⟩ := Package.extension_offers mem' named
  have same : o'.2.1 = [.array, .array] := by rw [← own, signature]
  refine ⟨f, found, own, ?_⟩
  simp only [same] at kind
  rw [body, code]
  rcases kind with ⟨texts, -⟩ | ⟨-, rfl⟩
  · simp at texts
  · rfl

namespace Eval

section
variable {engine : Engine} (core : engine.OnCore) (limitless : engine.Limitless)
include core limitless

theorem callByValue_arrays (xs ys : List Value) (fuel : Nat) (pos : Position) (n : Machine) :
    callByValue engine (evaluator engine (fuel + 1)) (Text.lit "+") [.array xs, .array ys] pos n =
      .ok (.array (xs ++ ys)) n := by
  have known : Text.lit "+" ∈ Package.operators :=
    Package.operators_of_compound (s := .plusAssign) rfl
  have given := callByValue_brings core known limitless (v := .array xs) rfl
    (.self (Nat.succ_pos fuel) (rfl : (Value.array ys).isShared = false) n) pos
  rwa [core.operate_arrays] at given

/-- What is behind an alias is extended where it is. -/
theorem compound_behind_alias {c : Nat} {xs : List Value} {n : Machine}
    (free : n.store.cell c = ⟨.array xs, 0, false⟩) (ys : List Value) (fuel : Nat) (pos : Position) :
    ∃ o, compound engine (evaluator engine (fuel + 2)) (Text.lit "+=") (.array ys) pos (.shared c, n) =
      .ok () (.shared c, o) ∧ o.store.size = n.store.size := by
  let ev := evaluator engine (fuel + 2)
  obtain ⟨f, found, params, body⟩ := core.extension_found
  have type : typeOf ev (.shared c) n = .ok .array n := by
    have known : n.store.typeOf (fuel + 2) (.shared c) = .ok .array := by
      simp only [Store.typeOf, Store.read, free]
      rfl
    change (monadLift (n.store.typeOf (fuel + 2) (.shared c)) : Run ValueType) n = _
    rw [known]
    rfl
  have types : typesOf ev [.shared c, .array ys] n = .ok [.array, .array] n := by
    have second : typesOf ev [.array ys] n = .ok [.array] n := rfl
    unfold typesOf at second ⊢
    rw [List.mapM_cons, bind_of_ok type, bind_of_ok second]
    rfl
  let taken := n.withStore (n.store.put c ⟨.array xs, 0, true⟩)
  have called : methodCall engine ev f (Text.lit "+=") pos (.array ys) (.array xs, taken) =
      .ok .unit (.array (xs ++ ys), taken) :=
    methodCall_changes limitless body params rfl rfl (Text.lit "+=") pos
  have behind := Held.behind_free free [] pos (methodCall engine ev f (Text.lit "+=") pos (.array ys))
  rw [called] at behind
  have native : tryNative engine ev (Text.lit "+=") true pos ([.shared c, .array ys], n) =
      (some <$> callNative engine ev f (Text.lit "+=") true pos : Held (List Value) _)
        ([.shared c, .array ys], n) := by
    refine (bind_of_ok (Held.lift_of_ok types _) _).trans ?_
    rw [found]
    rfl
  rw [map_of_ok (callNative_method engine ev f (Text.lit "+=") pos (.array ys) type behind)] at native
  refine ⟨_, bind_of_ok (Held.zoom_of_ok native _ _) _, ?_⟩
  exact (Store.size_endWrite _ c).trans ((Store.size_setValue _ c _).trans (n.store.size_put c _))

end

end Eval

def theX : Expr := .var .nowhere (Text.lit "x") []

open Eval in
/-- The assignments `x += x` and `x = x + x` where the cell that `x` stands for holds an alias: the
one changes what is behind it, the other puts a list in its place. -/
theorem extension_through_alias_of_alias : theX.IsLocal ∧ ∀ fuel, ∃ n o,
    execAt .standard (fuel + 10) (.assign .nowhere (Text.lit "+=") theX theX) aliasOfAlias =
      .ok .unit n ∧
    execAt .standard (fuel + 10) (.assign .nowhere [] theX
      (.call .nowhere (Text.lit "+") [] [theX, theX] true)) aliasOfAlias = .ok .unit o ∧
    (n.store.cell 0).value = .shared 1 ∧
      (o.store.cell 0).value = .array [.i64 (Integer.ofNat 7), .i64 (Integer.ofNat 7)] := by
  refine ⟨.var, fun fuel => ?_⟩
  have core : Engine.standard.OnCore := ⟨rfl, rfl⟩
  let ev := evaluator .standard (fuel + 9)
  let twice : Value := .array [.i64 (Integer.ofNat 7), .i64 (Integer.ofNat 7)]
  have read {n : Machine} (counted : aliasOfAlias.Counted n) (fuel : Nat) :
      ∃ o, evalAt .standard (fuel + 8) theX n = .ok justSeven o ∧ aliasOfAlias.Counted o := by
    obtain ⟨operations, progress, rfl⟩ := counted
    exact ⟨_, rfl, _, _, rfl⟩
  have there {n : Machine} (counted : aliasOfAlias.Counted n) :
      0 < (n.withStore (n.store.put 0 ⟨.shared 1, 0, true⟩)).store.size := by
    change 0 < (n.store.put 0 _).size
    rw [Store.size_put, counted.store]
    decide
  have own (v : Value) (known : v.isShared = false) (m : Machine) : plain ev v m = .ok v m := by
    unfold plain
    rw [if_neg (by simp [known])]
    rfl
  -- what is held in the end is what cell 0 holds
  have through {n : Machine} (counted : aliasOfAlias.Counted n) {k : Held Value Unit} {v : Value}
      {o : Machine} (ran : k (.shared 1, n.withStore (n.store.put 0 ⟨.shared 1, 0, true⟩)) = .ok () (v, o))
      (size : 0 < o.store.size) :
      ∃ q, access .standard ev theX true k n = .ok () q ∧ (q.store.cell 0).value = v := by
    have cell : n.store.cell 0 = ⟨.shared 1, 0, false⟩ := by
      rw [counted.store]
      rfl
    have found : n.scope.find? (Text.lit "x") = some { name := Text.lit "x", value := .shared 0 } := by
      rw [counted.scope]
      rfl
    have opened := Held.behind_free cell (Text.lit "x") .nowhere k
    rw [ran] at opened
    refine ⟨_, (atVariable_found found true .nowhere).trans (Held.ofMachine_of_ok opened _), ?_⟩
    exact (Store.endWrite_value _ 0 0).trans (congrArg Cell.value (Store.cell_put_self size _))
  obtain ⟨m, ticked, counted⟩ := tick_comes standard_limitless.toUnstopped .nowhere (.refl aliasOfAlias)
  have direct : ∃ n, execAssign .standard ev .nowhere (Text.lit "+=") theX theX m = .ok () n ∧
      (n.store.cell 0).value = .shared 1 := by
    obtain ⟨n, value, counted⟩ := read counted (fuel + 1)
    have cell : (n.withStore (n.store.put 0 ⟨.shared 1, 0, true⟩)).store.cell 1 =
        ⟨justSeven, 0, false⟩ := by
      obtain ⟨_, _, rfl⟩ := counted
      rfl
    obtain ⟨o, extended, left⟩ := compound_behind_alias core standard_limitless cell
      [.i64 (Integer.ofNat 7)] (fuel + 7) .nowhere
    obtain ⟨q, ran, held⟩ := through counted extended (left ▸ there counted)
    refine ⟨q, (bind_of_ok value _).trans ?_, held⟩
    rw [bind_of_ok (own justSeven rfl _)]
    exact ran
  have spelled : ∃ o, execAssign .standard ev .nowhere [] theX
      (.call .nowhere (Text.lit "+") [] [theX, theX] true) m = .ok () o ∧
        (o.store.cell 0).value = twice := by
    have unnamed : Unnamed aliasOfAlias (Text.lit "+") := fun _ => ⟨rfl, rfl⟩
    obtain ⟨n, counted, eq⟩ := evalAt_operator (p := theX) (e := theX)
      standard_limitless.toUnstopped unnamed counted .nowhere (fuel + 8)
    obtain ⟨o, left, counted⟩ := read counted fuel
    obtain ⟨q, right, counted⟩ := read counted fuel
    have added := callByValue_arrays core standard_limitless [.i64 (Integer.ofNat 7)]
      [.i64 (Integer.ofNat 7)] (fuel + 7) .nowhere q
    rw [bind_of_ok (evalArgs_pair (evaluator .standard (fuel + 8)) left right)] at eq
    have value := eq.trans added
    obtain ⟨r, ran, held⟩ := through counted (k := Held.setHeld twice) rfl (there counted)
    refine ⟨r, (bind_of_ok value _).trans ?_, held⟩
    rw [bind_of_ok (own _ rfl _)]
    exact ran
  obtain ⟨n, ran, value⟩ := direct
  obtain ⟨o, ran', value'⟩ := spelled
  exact ⟨n, o, (bind_of_ok ticked _).trans (bind_of_ok ran _),
    (bind_of_ok ticked _).trans (bind_of_ok ran' _), value, value'⟩

end Scripting
