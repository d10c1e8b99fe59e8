import Mathlib.Data.List.Induction
import Scripting.Proofs.Contract.Dispatch
import Scripting.Proofs.Locks
import Scripting.Proofs.Running

/-
Which native function a plain call is given to. A variable as first argument is offered in place
before its value is, and a first argument in place is never converted; so the form of the argument
decides where a conversion to a float would have been the cheapest way.
-/
namespace Scripting

namespace Module

def ConvertsFirst (params types : List ValueType) : Prop :=
  params.head? = some .float ∧ types.head? = some .i64

instance (params types : List ValueType) : Decidable (ConvertsFirst params types) :=
  inferInstanceAs (Decidable (_ ∧ _))

/-- A method takes the same as a function, but for the conversion of its receiver. -/
theorem callCost_method (params types : List ValueType) :
    callCost true params types =
      if ConvertsFirst params types then none else callCost false params types := by
  cases params with
  | nil => cases types <;> simp [callCost, ConvertsFirst]
  | cons p ps =>
    cases types with
    | nil => simp [callCost, ConvertsFirst]
    | cons a as =>
      by_cases converts : p = .float ∧ a = .i64
      · obtain ⟨rfl, rfl⟩ := converts
        simp [callCost, argumentCost, ConvertsFirst]
      · have other : ¬ ConvertsFirst (p :: ps) (a :: as) := by simpa [ConvertsFirst] using converts
        have same : argumentCost true p a = argumentCost false p a := by
          unfold argumentCost
          split
          · rfl
          · split
            · rfl
            · have rest : ¬ (p = .float ∧ a = .i64 ∧ (!false) = true) := by grind
              have rest' : ¬ (p = .float ∧ a = .i64 ∧ (!true) = true) := by grind
              rw [if_neg rest, if_neg rest']
        rw [if_neg other, callCost, callCost, same]

def cheapest (candidates : List (Overload × Nat)) : Option (Overload × Nat) :=
  candidates.foldl (fun best c => cheaper best c.1 c.2) none

theorem cheapest_append_one (candidates : List (Overload × Nat)) (c : Overload × Nat) :
    cheapest (candidates ++ [c]) = cheaper (cheapest candidates) c.1 c.2 := by
  simp [cheapest]

theorem cheapest_split {candidates : List (Overload × Nat)} {x : Overload × Nat}
    (h : cheapest candidates = some x) : ∃ front back, candidates = front ++ x :: back ∧
      (∀ y ∈ front, x.2 < y.2) ∧ ∀ y ∈ back, x.2 ≤ y.2 := by
  induction candidates using List.reverseRecOn generalizing x with
  | nil => cases h
  | append_singleton earlier c ih =>
    rw [cheapest_append_one] at h
    cases best : cheapest earlier with
    | none =>
      have none : earlier = [] := by
        cases earlier using List.reverseRecOn with
        | nil => rfl
        | append_singleton before d =>
          rw [cheapest_append_one] at best
          unfold cheaper at best
          split at best
          · cases best
          · split at best <;> cases best
      rw [best] at h
      cases h
      exact ⟨[], [], by simp [none], by simp, by simp⟩
    | some z =>
      obtain ⟨front, back, split, before, behind⟩ := ih best
      rw [best] at h
      by_cases less : c.2 < z.2
      · simp only [cheaper, if_pos less, Option.some.injEq] at h
        subst h
        refine ⟨earlier, [], rfl, ?_, by simp⟩
        intro y hy
        rw [split] at hy
        rcases List.mem_append.mp hy with hy | hy
        · exact Nat.lt_trans less (before y hy)
        · rcases List.mem_cons.mp hy with rfl | hy
          · exact less
          · exact Nat.lt_of_lt_of_le less (behind y hy)
      · simp only [cheaper, if_neg less, Option.some.injEq] at h
        subst h
        refine ⟨front, back ++ [c], by simp [split], before, ?_⟩
        intro y hy
        rcases List.mem_append.mp hy with hy | hy
        · exact behind y hy
        · rw [List.mem_singleton.mp hy]
          exact Nat.le_of_not_lt less

theorem cheapest_mem {candidates : List (Overload × Nat)} {x : Overload × Nat}
    (h : cheapest candidates = some x) : x ∈ candidates := by
  obtain ⟨front, back, rfl, -, -⟩ := cheapest_split h
  simp

theorem cheapest_of_split {front back : List (Overload × Nat)} {x : Overload × Nat}
    (before : ∀ y ∈ front, x.2 < y.2) (behind : ∀ y ∈ back, x.2 ≤ y.2) :
    cheapest (front ++ x :: back) = some x := by
  induction back using List.reverseRecOn with
  | nil =>
    rw [cheapest_append_one]
    cases best : cheapest front with
    | none => rfl
    | some z =>
      have less : x.2 < z.2 := before z (cheapest_mem best)
      simp [cheaper, less]
  | append_singleton back c ih =>
    have first := ih fun y hy => behind y (List.mem_append_left _ hy)
    have more : ¬ c.2 < x.2 := Nat.not_lt.mpr (behind c (by simp))
    rw [← List.cons_append, ← List.append_assoc, cheapest_append_one, first]
    simp [cheaper, more]

theorem cheapest_le {candidates : List (Overload × Nat)} {x y : Overload × Nat}
    (h : cheapest candidates = some x) (hy : y ∈ candidates) : x.2 ≤ y.2 := by
  obtain ⟨front, back, rfl, before, behind⟩ := cheapest_split h
  rcases List.mem_append.mp hy with hy | hy
  · exact Nat.le_of_lt (before y hy)
  · rcases List.mem_cons.mp hy with rfl | hy
    · exact Nat.le_refl _
    · exact behind y hy

theorem cheapest_of_mem {candidates : List (Overload × Nat)} {y : Overload × Nat}
    (hy : y ∈ candidates) : ∃ x, cheapest candidates = some x := by
  induction candidates using List.reverseRecOn with
  | nil => cases hy
  | append_singleton earlier c _ =>
    rw [cheapest_append_one]
    unfold cheaper
    split
    · exact ⟨_, rfl⟩
    · split <;> exact ⟨_, rfl⟩

theorem cheapest_filter {candidates : List (Overload × Nat)} {x : Overload × Nat}
    (h : cheapest candidates = some x) {p : Overload × Nat → Bool} (stays : p x = true) :
    cheapest (candidates.filter p) = some x := by
  obtain ⟨front, back, rfl, before, behind⟩ := cheapest_split h
  rw [List.filter_append, List.filter_cons_of_pos stays]
  exact cheapest_of_split (fun y hy => before y (List.mem_filter.mp hy).1)
    (fun y hy => behind y (List.mem_filter.mp hy).1)

def candidates (m : Module) (name : Text) (types : List ValueType) (method : Bool) :
    List (Overload × Nat) :=
  (m.overloads name).filterMap fun f => (callCost method f.1.params types).map (f, ·)

theorem promoted?_eq_cheapest (m : Module) (name : Text) (types : List ValueType) (method : Bool) :
    m.promoted? name types method false = cheapest (m.candidates name types method) := by
  unfold promoted? cheapest candidates
  rw [List.foldl_filterMap]
  congr 1
  funext best f
  cases callCost method f.1.params types <;> rfl

theorem candidates_method (m : Module) (name : Text) (types : List ValueType) :
    m.candidates name types true =
      (m.candidates name types false).filter fun c => !decide (ConvertsFirst c.1.1.params types) := by
  unfold candidates
  rw [List.filter_filterMap]
  congr 1
  funext f
  rw [callCost_method]
  by_cases converts : ConvertsFirst f.1.params types
  · rw [if_pos converts]
    cases callCost false f.1.params types <;> simp [Option.filter, converts]
  · rw [if_neg converts]
    cases callCost false f.1.params types <;> simp [Option.filter, converts]

/-- What a module bids for a call: its cheapest function, unless that is one of a script. -/
def bid? (name : Text) (types : List ValueType) (method : Bool) (m : Module) :
    Option (Overload × Nat) :=
  (m.promoted? name types method false).filter fun c => !c.1.2.isScript

/-- The functions of scripts in a module take arguments of all types, whatever else it holds. -/
def ScriptsTakeAll (m : Module) : Prop :=
  ∀ f ∈ m.functions, f.2.isScript = true → ∀ p ∈ f.1.params, p = .any

theorem bid?_method {m : Module} {name : Text} {types : List ValueType} {x : Overload × Nat}
    (h : m.bid? name types false = some x) (kept : ¬ ConvertsFirst x.1.1.params types) :
    m.bid? name types true = some x := by
  obtain ⟨found, native⟩ := Option.filter_eq_some_iff.mp h
  rw [promoted?_eq_cheapest] at found
  unfold bid?
  rw [promoted?_eq_cheapest, candidates_method, cheapest_filter found (by simpa using kept)]
  simpa [Option.filter] using native

/-- A module that bids in place also bids by value, and not more. -/
theorem bid?_value {m : Module} (scripts : m.ScriptsTakeAll) {name : Text} {types : List ValueType}
    {y : Overload × Nat} (h : m.bid? name types true = some y) :
    ∃ x, m.bid? name types false = some x ∧ x.2 ≤ y.2 := by
  obtain ⟨found, native⟩ := Option.filter_eq_some_iff.mp h
  rw [promoted?_eq_cheapest] at found
  have mem : y ∈ m.candidates name types false := by
    have own : y ∈ m.candidates name types true := cheapest_mem found
    rw [candidates_method] at own
    exact (List.mem_filter.mp own).1
  obtain ⟨x, best⟩ := cheapest_of_mem mem
  have least := cheapest_le best mem
  -- A cheapest function of a script would be the cheapest in place as well, and `y` is no script.
  have plain : x.1.2.isScript = false := by
    by_contra script
    rw [Bool.not_eq_false] at script
    have own : x.1 ∈ m.functions := promoted?_mem (promoted?_eq_cheapest .. ▸ best)
    have kept : ¬ ConvertsFirst x.1.1.params types := by
      rintro ⟨first, -⟩
      have any := scripts x.1 own script _ (List.mem_of_mem_head? first)
      cases any
    rw [candidates_method, cheapest_filter best (by simpa using kept)] at found
    cases found
    simp [script] at native
  refine ⟨x, ?_, least⟩
  unfold bid?
  rw [promoted?_eq_cheapest, best]
  simp [Option.filter, plain]

end Module

namespace Engine

open Scripting.Module

variable (engine : Engine)

/-- All modules that natives are looked up in keep scripts to functions that take everything. -/
def ScriptsTakeAll : Prop := ∀ m ∈ engine.nativeModules, m.ScriptsTakeAll

theorem native?_eq_cheapest (name : Text) (types : List ValueType) (method : Bool)
    (inexact : engine.nativeModules.findSome? (fun m => m.withTypes? name types) = none) :
    engine.native? name types method =
      (cheapest (engine.nativeModules.filterMap (bid? name types method))).map (·.1) := by
  unfold native?
  rw [inexact]
  unfold cheapest
  rw [List.foldl_filterMap]
  have step (best : Option (Overload × Nat)) (m : Module) :
      better best (m.promoted? name types method false) =
        match bid? name types method m with
        | some c => cheaper best c.1 c.2
        | none => best := by
    unfold better bid?
    cases m.promoted? name types method false with
    | none => rfl
    | some c =>
      obtain ⟨f, cost⟩ := c
      cases script : f.2.isScript <;> simp [Option.filter, script]
  refine congrArg (Option.map _) (congrArg (fun f => List.foldl f none _) ?_)
  funext best m
  rw [step]
  cases bid? name types method m <;> rfl

variable {engine} {name : Text} {types : List ValueType}

/-- Without a conversion of the first argument, a call in place gets to the same function. -/
theorem native?_method {g : Overload} (scripts : engine.ScriptsTakeAll)
    (h : engine.native? name types false = some g) (kept : ¬ ConvertsFirst g.1.params types) :
    engine.native? name types true = some g := by
  cases exact : engine.nativeModules.findSome? fun m => m.withTypes? name types with
  | some f =>
    unfold native? at h ⊢
    rw [exact] at h ⊢
    exact h
  | none =>
    rw [native?_eq_cheapest _ _ _ _ exact] at h ⊢
    obtain ⟨x, best, rfl⟩ := Option.map_eq_some_iff.mp h
    obtain ⟨front, back, split, before, behind⟩ := cheapest_split best
    obtain ⟨ms, rest, modules, hfront, hrest⟩ := List.filterMap_eq_append_iff.mp split
    obtain ⟨ns, m, ms', rfl, unbidden, hx, hback⟩ := List.filterMap_eq_cons_iff.mp hrest
    -- Each other module bids at least what it bid by value.
    have dearer : ∀ n ∈ engine.nativeModules, ∀ y, n.bid? name types true = some y →
        ∃ z, n.bid? name types false = some z ∧ z.2 ≤ y.2 :=
      fun n hn y hy => bid?_value (scripts n hn) hy
    have chosen : cheapest (engine.nativeModules.filterMap (bid? name types true)) = some x := by
      rw [modules] at dearer ⊢
      rw [List.filterMap_append, List.filterMap_append,
        List.filterMap_cons_some (bid?_method hx kept), ← List.append_assoc]
      refine cheapest_of_split ?_ ?_
      · intro y hy
        rcases List.mem_append.mp hy with hy | hy
        · obtain ⟨n, hn, bids⟩ := List.mem_filterMap.mp hy
          obtain ⟨z, hz, le⟩ := dearer n (by simp [hn]) y bids
          have early : z ∈ front := hfront ▸ List.mem_filterMap.mpr ⟨n, hn, hz⟩
          exact Nat.lt_of_lt_of_le (before z early) le
        · obtain ⟨n, hn, bids⟩ := List.mem_filterMap.mp hy
          obtain ⟨z, hz, le⟩ := dearer n (by simp [hn]) y bids
          rw [unbidden n hn] at hz
          cases hz
      · intro y hy
        obtain ⟨n, hn, bids⟩ := List.mem_filterMap.mp hy
        obtain ⟨z, hz, le⟩ := dearer n (by simp [hn]) y bids
        have late : z ∈ back := hback ▸ List.mem_filterMap.mpr ⟨n, hn, hz⟩
        exact Nat.le_trans (behind z late) le
    rw [chosen]
    rfl

theorem native?_value {f : Overload} (scripts : engine.ScriptsTakeAll)
    (h : engine.native? name types true = some f) :
    ∃ g, engine.native? name types false = some g := by
  cases exact : engine.nativeModules.findSome? fun m => m.withTypes? name types with
  | some g => exact ⟨g, by unfold native?; rw [exact]⟩
  | none =>
    rw [native?_eq_cheapest _ _ _ _ exact] at h ⊢
    obtain ⟨y, best, -⟩ := Option.map_eq_some_iff.mp h
    obtain ⟨n, hn, bids⟩ := List.mem_filterMap.mp (cheapest_mem best)
    obtain ⟨z, hz, -⟩ := bid?_value (scripts n hn) bids
    obtain ⟨x, least⟩ := cheapest_of_mem (List.mem_filterMap.mpr ⟨n, hn, hz⟩)
    exact ⟨x.1, by rw [least]; rfl⟩

/-- In place, the function chosen never converts the first argument. -/
theorem native?_keeps_first {f : Overload} (h : engine.native? name types true = some f) :
    ¬ ConvertsFirst f.1.params types := by
  cases exact : engine.nativeModules.findSome? fun m => m.withTypes? name types with
  | some g =>
    unfold native? at h
    rw [exact] at h
    cases h
    obtain ⟨m, -, found⟩ := List.exists_of_findSome?_eq_some exact
    obtain ⟨_, -, rfl⟩ := Option.map_eq_some_iff.mp found
    rintro ⟨first, second⟩
    rw [first] at second
    cases second
  | none =>
    rw [native?_eq_cheapest _ _ _ _ exact] at h
    obtain ⟨y, best, rfl⟩ := Option.map_eq_some_iff.mp h
    obtain ⟨n, -, bids⟩ := List.mem_filterMap.mp (cheapest_mem best)
    obtain ⟨found, -⟩ := Option.filter_eq_some_iff.mp bids
    rw [promoted?_eq_cheapest] at found
    have mem : y ∈ n.candidates name types true := cheapest_mem found
    rw [candidates_method] at mem
    simpa using (List.mem_filter.mp mem).2

variable (engine name types) in
def chosen (onVariable : Bool) : Option Overload :=
  if onVariable then (engine.native? name types true).or (engine.native? name types false)
  else engine.native? name types false

theorem chosen_differs_iff (scripts : engine.ScriptsTakeAll) :
    engine.chosen name types true ≠ engine.chosen name types false ↔
      ∃ f g, engine.native? name types true = some f ∧
        engine.native? name types false = some g ∧ ConvertsFirst g.1.params types := by
  change (engine.native? name types true).or (engine.native? name types false) ≠
    engine.native? name types false ↔ _
  constructor
  · intro differs
    cases inPlace : engine.native? name types true with
    | none => simp [inPlace] at differs
    | some f =>
      obtain ⟨g, byValue⟩ := native?_value scripts inPlace
      refine ⟨f, g, rfl, byValue, ?_⟩
      by_contra kept
      have same := native?_method scripts byValue kept
      rw [inPlace] at same
      simp [inPlace, byValue, same] at differs
  · rintro ⟨f, g, inPlace, byValue, converts⟩ same
    rw [inPlace, byValue, Option.some_or] at same
    cases same
    exact native?_keeps_first inPlace converts

end Engine

theorem Store.give_back {s : Store} {c : Nat} {v : Value} (h : s.cell c = ⟨v, 0, false⟩) :
    ((s.put c ⟨v, 0, true⟩).setValue c v).endWrite c = s := by
  by_cases inside : c < s.size
  · have same := put_cell s c
    rw [h] at same
    simp only [endWrite, setValue, cell_put_self inside, put_put, same]
  · have absent : s.size ≤ c := by omega
    simp only [endWrite, setValue, put_of_size_le absent]

/-- A variable has a value, in its own place or in a cell that nobody uses. -/
structure Machine.Holds (m : Machine) (name : Text) (e : Entry) (v : Value) : Prop where
  found : m.scope.find? name = some e
  value : e.value = v ∨ ∃ c, e.value = .shared c ∧ m.store.cell c = ⟨v, 0, false⟩
  plain : v.isShared = false

namespace Held

variable {α : Type}

theorem behind_plain {v : Value} (h : v.isShared = false) (name : Text) (pos : Position)
    (k : Held Value α) (m : Machine) : behind name pos k (v, m) = k (v, m) := by
  cases v <;> first | rfl | cases h

theorem behind_free {m : Machine} {c : Nat} {v : Value} (h : m.store.cell c = ⟨v, 0, false⟩)
    (name : Text) (pos : Position) (k : Held Value α) :
    behind name pos k (Value.shared c, m) =
      match k (v, m.withStore (m.store.put c ⟨v, 0, true⟩)) with
      | .ok a (w, n) => .ok a (Value.shared c, n.withStore ((n.store.setValue c w).endWrite c))
      | .error e (w, n) =>
        .error e (Value.shared c, n.withStore ((n.store.setValue c w).endWrite c)) := by
  have free : m.store.beginWrite c name pos = .ok (m.store.put c ⟨v, 0, true⟩) := by
    simp [Store.beginWrite, h]
  have inside : ((m.store.put c ⟨v, 0, true⟩).cell c).value = v := by
    by_cases there : c < m.store.size
    · rw [Store.cell_put_self there]
    · rw [Store.put_of_size_le (by omega), h]
  change lift (ofCell c name pos k) (Value.shared c, m) = _
  unfold lift ofCell ofMachine
  simp only [free, inside]
  cases k (v, m.withStore (m.store.put c ⟨v, 0, true⟩)) <;> rfl

end Held

namespace Run

variable {α : Type} {n : Machine} {name : Text} {e : Entry} {v : Value} (holds : n.Holds name e v)
include holds

theorem onVariable_congr {k k' : Held Value α} (same : ∀ m, k (v, m) = k' (v, m)) (pos : Position) :
    onVariable name e.value (Held.behind name pos k) n =
      onVariable name e.value (Held.behind name pos k') n := by
  rw [onVariable_eq, onVariable_eq]
  rcases holds.value with own | ⟨c, alias', free⟩
  · rw [own, Held.behind_plain holds.plain, Held.behind_plain holds.plain, same]
  · rw [alias', Held.behind_free free, Held.behind_free free, same]

theorem onVariable_pure (a : α) (pos : Position) :
    onVariable name e.value (Held.behind name pos (pure a)) n = .ok a n := by
  have back : { n with scope := n.scope.setValue name e.value } = n := by
    rw [Scope.setValue_self holds.found]
  unfold onVariable Held.ofMachine
  rcases holds.value with own | ⟨c, alias', free⟩
  · rw [own] at back ⊢
    rw [Held.behind_plain holds.plain]
    exact congrArg _ back
  · have cell : (n.withStore (n.store.put c ⟨v, 0, true⟩)).withStore
        (((n.store.put c ⟨v, 0, true⟩).setValue c v).endWrite c) = n := by
      rw [Store.give_back free]
      rfl
    rw [alias'] at back ⊢
    rw [Held.behind_free free]
    change EStateM.Result.ok a { (n.withStore (n.store.put c ⟨v, 0, true⟩)).withStore
        (((n.store.put c ⟨v, 0, true⟩).setValue c v).endWrite c) with
      scope := n.scope.setValue name (.shared c) } = _
    rw [cell, back]

end Run

theorem Store.flatten_unshared (s : Store) {fuel : Nat} (enough : 0 < fuel) {v : Value}
    (plain : v.isShared = false) : s.flatten fuel v = .ok v := by
  cases fuel with
  | zero => omega
  | succ n => cases v <;> first | rfl | cases plain

theorem Store.typeOf_unshared (s : Store) {fuel : Nat} (enough : 0 < fuel) {v : Value}
    (plain : v.isShared = false) : s.typeOf fuel v = .ok v.plainType := by
  cases fuel with
  | zero => omega
  | succ n => cases v <;> first | rfl | cases plain

namespace Eval

variable {engine : Engine} {ev : Evaluator} (fuel : 0 < ev.fuel)
include fuel

theorem flatten_of_plain {v : Value} (plain : v.isShared = false) (m : Machine) :
    flatten ev v m = .ok v m := by
  change (monadLift (m.store.flatten ev.fuel v) : Run Value) m = _
  rw [m.store.flatten_unshared fuel plain]
  rfl

theorem typeOf_of_plain {v : Value} (plain : v.isShared = false) (m : Machine) :
    typeOf ev v m = .ok v.plainType m := by
  change (monadLift (m.store.typeOf ev.fuel v) : Run ValueType) m = _
  rw [m.store.typeOf_unshared fuel plain]
  rfl

theorem typesOf_of_plain {args : List Value} (plain : ∀ v ∈ args, v.isShared = false)
    (m : Machine) : typesOf ev args m = .ok (args.map Value.plainType) m := by
  induction args with
  | nil => rfl
  | cons v rest ih =>
    have first := typeOf_of_plain fuel (plain v List.mem_cons_self) m
    have later := ih fun w hw => plain w (List.mem_cons_of_mem v hw)
    unfold typesOf at later ⊢
    rw [List.mapM_cons, bind_of_ok first, bind_of_ok later]
    rfl

variable (engine) in
theorem tryNative_of_plain {args : List Value} (plain : ∀ v ∈ args, v.isShared = false)
    (name : Text) (method : Bool) (pos : Position) (m : Machine) :
    tryNative engine ev name method pos (args, m) =
      (match engine.native? name (args.map Value.plainType) method with
      | none => pure none
      | some f => some <$> callNative engine ev f name method pos :
        Held (List Value) (Option Value)) (args, m) := by
  have types := Held.lift_of_ok (typesOf_of_plain fuel plain m) args
  unfold tryNative
  rw [bind_of_ok (p := Held.held) (a := args) rfl, bind_of_ok types]
  cases engine.native? name (args.map Value.plainType) method with
  | none => rfl
  | some f => rfl

variable (engine) in
theorem tryMethod_of_plain {v : Value} {args : List Value}
    (plain : ∀ w ∈ v :: args, w.isShared = false) (name : Text) (pos : Position) (m : Machine) :
    tryMethod engine ev name args pos (v, m) =
      (match engine.native? name ((v :: args).map Value.plainType) true with
      | none => pure none
      | some f => some <$> asFirst args (callNative engine ev f name true pos) :
        Held Value (Option Value)) (v, m) := by
  have found := tryNative_of_plain engine fuel plain name true pos m
  unfold tryMethod asFirst
  rw [bind_of_ok (p := Held.held) (a := v) rfl]
  cases chosen : engine.native? name ((v :: args).map Value.plainType) true with
  | none =>
    rw [chosen] at found
    exact Held.zoom_of_ok found _ v
  | some f =>
    rw [chosen] at found
    have called := Held.zoom_map some (callNative engine ev f name true pos) (v :: args)
      (fun args v => args.headD v) v m
    simp only [Held.zoom, found] at called ⊢
    rw [called]
    rfl

theorem callByValue_chosen {args : List Value} (plain : ∀ v ∈ args, v.isShared = false)
    {name : Text} {f : Overload}
    (chosen : engine.native? name (args.map Value.plainType) false = some f) (pos : Position)
    (m : Machine) :
    callByValue engine ev name args pos m =
      Held.drop args (callNative engine ev f name false pos) m := by
  have found := tryNative_of_plain engine fuel plain name false pos m
  rw [chosen] at found
  have offered : Held.drop args (tryNative engine ev name false pos) m =
      (some <$> Held.drop args (callNative engine ev f name false pos)) m := by
    rw [← Held.drop_map]
    simp only [Held.drop, found]
  unfold callByValue
  cases ran : Held.drop args (callNative engine ev f name false pos) m with
  | ok v n =>
    rw [map_of_ok ran] at offered
    rw [bind_of_ok offered]
    rfl
  | error h n =>
    rw [map_of_error ran] at offered
    rw [bind_of_error offered]

theorem readVariable_holding {m : Machine} {name : Text} {e : Entry} {v : Value}
    (holds : m.Holds name e v) (pos : Position) : readVariable ev pos name [] m = .ok v m := by
  simp only [readVariable]
  rw [bind_of_ok (p := get) (a := m) rfl, holds.found]
  rcases holds.value with own | ⟨c, alias', free⟩
  · have plain := holds.plain
    simp only [own]
    cases v <;> first | rfl | cases plain
  · have seen : m.store.read c name pos = .ok v := by simp [Store.read, free]
    simp only [alias']
    change ((monadLift (m.store.read c name pos) : Run Value) >>= flatten ev) m = _
    rw [seen]
    exact flatten_of_plain fuel holds.plain m

omit fuel in
theorem callPlain_values {name : Text} {e : Expr} {rest : List Expr} {m n : Machine}
    {args : List Value} (form : e.plainName? = none)
    (unscripted : scriptFn? name (rest.length + 1) false m = .ok none m)
    (values : evalArgs ev (e :: rest) m = .ok args n) (pos : Position) :
    callPlain engine ev name (e :: rest) false pos m = callByValue engine ev name args pos n := by
  unfold callPlain
  rw [List.length_cons, bind_of_ok unscripted]
  have passed : (do callByValue engine ev name (← evalArgs ev (e :: rest)) pos : Run Value) m =
      callByValue engine ev name args pos n := bind_of_ok values _
  cases e with
  | var varPos x path =>
    cases path with
    | nil => cases form
    | cons first more => exact passed
  | _ => exact passed

/-- What a call makes of a native that it has chosen for a variable: it is called in place, or with
the value. -/
inductive CallsOn (engine : Engine) (ev : Evaluator) (f : Overload) (name : Text)
    (varPos pos : Position) (x : Text) (e : Entry) (v : Value) (args : List Value) (n : Machine) :
    EStateM.Result Halt Machine Value → Prop where
  | inPlace : CallsOn engine ev f name varPos pos x e v args n (Run.onVariable x e.value
      (Held.behind x varPos (asFirst args (callNative engine ev f name true pos))) n)
  | byValue : CallsOn engine ev f name varPos pos x e v args n
      (Held.drop (v :: args) (callNative engine ev f name false pos) n)

theorem callPlain_variable {name : Text} {rest : List Expr} {m n : Machine} {args : List Value}
    {x : Text} {entry : Entry} {v : Value} {f : Overload} (varPos pos : Position)
    (unscripted : scriptFn? name (rest.length + 1) false m = .ok none m)
    (values : evalArgs ev rest m = .ok args n) (holds : n.Holds x entry v)
    (plain : ∀ w ∈ args, w.isShared = false)
    (chosen : engine.chosen name ((v :: args).map Value.plainType) (!entry.isConst) = some f) :
    CallsOn engine ev f name varPos pos x entry v args n
      (callPlain engine ev name (.var varPos x [] :: rest) false pos m) := by
  have unshared : ∀ w ∈ v :: args, w.isShared = false :=
    List.forall_mem_cons.mpr ⟨holds.plain, plain⟩
  have read := readVariable_holding fuel holds varPos
  unfold callPlain
  rw [List.length_cons, bind_of_ok unscripted]
  change CallsOn engine ev f name varPos pos x entry v args n
    (callOnVariable engine ev name varPos x rest pos m)
  unfold callOnVariable
  rw [bind_of_ok values, bind_of_ok (p := get) (a := n) rfl, holds.found]
  dsimp only
  cases const : entry.isConst with
  | true =>
    rw [const] at chosen
    rw [if_pos rfl, bind_of_ok (p := pure none) (a := none) rfl]
    dsimp only
    rw [bind_of_ok read, callByValue_chosen fuel unshared chosen]
    exact .byValue
  | false =>
    rw [const] at chosen
    rw [if_neg Bool.false_ne_true]
    have offered := Run.onVariable_congr holds
      (fun m => tryMethod_of_plain engine fuel unshared name pos m) varPos
    cases direct : engine.native? name ((v :: args).map Value.plainType) true with
    | some g =>
      have same : g = f := by
        simp only [Engine.chosen, Bool.not_false, if_true, direct, Option.some_or] at chosen
        exact Option.some.inj chosen
      subst same
      rw [direct] at offered
      simp only [Held.behind_map, Run.onVariable, Held.ofMachine_map] at offered
      have called : CallsOn engine ev g name varPos pos x entry v args n (Run.onVariable x entry.value
        (Held.behind x varPos (asFirst args (callNative engine ev g name true pos))) n) := .inPlace
      unfold Run.onVariable at called ⊢
      cases ran : Held.ofMachine entry.value
          (fun v m => { m with scope := m.scope.setValue x v })
          (Held.behind x varPos (asFirst args (callNative engine ev g name true pos))) n with
      | ok a t =>
        rw [map_of_ok ran] at offered
        rw [ran] at called
        rw [bind_of_ok offered]
        exact called
      | error h t =>
        rw [map_of_error ran] at offered
        rw [ran] at called
        rw [bind_of_error offered]
        exact called
    | none =>
      simp only [Engine.chosen, Bool.not_false, if_true, direct, Option.none_or] at chosen
      rw [direct] at offered
      rw [Run.onVariable_pure holds] at offered
      rw [bind_of_ok offered]
      dsimp only
      rw [bind_of_ok read, callByValue_chosen fuel unshared chosen]
      exact .byValue

end Eval

/-- Overload choice depends on the name, the types, and whether the first argument is written as a
plain variable. The form matters exactly where the cheapest function by value converts the first
argument from an integer to a float, and another function takes it as it is. -/
theorem overload_choice_depends_on_form (engine : Engine) (scripts : engine.ScriptsTakeAll)
    (name : Text) :
    (∀ types, engine.chosen name types true ≠ engine.chosen name types false ↔
      ∃ f g, engine.native? name types true = some f ∧ engine.native? name types false = some g ∧
        Module.ConvertsFirst g.1.params types) ∧
    (∀ ev e rest pos m n args f, 0 < ev.fuel → e.plainName? = none →
      Eval.scriptFn? name (rest.length + 1) false m = .ok none m →
      Eval.evalArgs ev (e :: rest) m = .ok args n → (∀ v ∈ args, v.isShared = false) →
      engine.chosen name (args.map Value.plainType) false = some f →
      Eval.callPlain engine ev name (e :: rest) false pos m =
        Held.drop args (Eval.callNative engine ev f name false pos) n) ∧
    (∀ ev varPos x rest pos m n args entry v f, 0 < ev.fuel →
      Eval.scriptFn? name (rest.length + 1) false m = .ok none m →
      Eval.evalArgs ev rest m = .ok args n → n.Holds x entry v → (∀ w ∈ args, w.isShared = false) →
      engine.chosen name ((v :: args).map Value.plainType) (!entry.isConst) = some f →
      Eval.CallsOn engine ev f name varPos pos x entry v args n
        (Eval.callPlain engine ev name (.var varPos x [] :: rest) false pos m)) := by
  refine ⟨fun types => Engine.chosen_differs_iff scripts, ?_, ?_⟩
  · intro ev e rest pos m n args f fuel form unscripted values plain chosen
    rw [Eval.callPlain_values form unscripted values]
    exact Eval.callByValue_chosen fuel plain chosen pos n
  · intro ev varPos x rest pos m n args entry v f fuel unscripted values holds plain chosen
    exact Eval.callPlain_variable fuel varPos pos unscripted values holds plain chosen

def pickEngine : Engine :=
  let tagged (tag : String) : Native := .tagged (.string (Text.lit tag))
  let one := ({} : Engine).addNative (Text.lit "pick") [.float] (tagged "float") .exposed
  one.addNative (Text.lit "pick") [.any] (tagged "any") .exposed

theorem overload_choice_depends_on_form_pick : pickEngine.ScriptsTakeAll ∧
    pickEngine.chosen (Text.lit "pick") [.i64] true ≠
      pickEngine.chosen (Text.lit "pick") [.i64] false := by
  have natives : ∀ m ∈ pickEngine.nativeModules, ∀ f ∈ m.functions, f.2.isScript = false := by
    decide +kernel
  have scripts : pickEngine.ScriptsTakeAll := by
    intro m hm f hf script
    rw [natives m hm f hf] at script
    cases script
  have params : ∀ method, (pickEngine.native? (Text.lit "pick") [.i64] method).map (·.1.params) =
      some [if method then .any else .float] := by decide +kernel
  obtain ⟨f, inPlace, -⟩ := Option.map_eq_some_iff.mp (params true)
  obtain ⟨g, byValue, first⟩ := Option.map_eq_some_iff.mp (params false)
  refine ⟨scripts, ((overload_choice_depends_on_form pickEngine scripts _).1 _).mpr ?_⟩
  exact ⟨f, g, inPlace, byValue, by rw [first]; decide⟩

def leadingTexts : EStateM.Result Halt Stage Value → List Text
  | .ok (.array items) _ => items.filterMap fun
    | .array (.string t :: _) => some t
    | _ => none
  | _ => []

/-- The same value gets to one native as a literal and to the other one as a variable. -/
theorem variable_gets_another_overload :
    (match pickEngine.compile false [Text.lit "let x = 1; [pick(1), pick(x)]"] 0 with
      | (.ok script, next) =>
        leadingTexts (pickEngine.run script { world := { nextClosure := next } })
      | (.error _, _) => []) = [Text.lit "float", Text.lit "any"] := by
  decide +kernel

end Scripting
