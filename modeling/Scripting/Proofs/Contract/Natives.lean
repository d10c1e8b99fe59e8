import Scripting.Proofs.Contract.Tidy

/-
Native functions work within a kind: from plain arguments they make plain arguments and plain
results, and when they fail it is by a fault. What they depend on besides their arguments is told once,
for two calls side by side.
-/
namespace Scripting

def Fine (K : Stock) (r : Except Halt Value) : Prop := OnlyFaults r ∧ ∀ v, r = .ok v → K.plain v

namespace Fine

variable {K : Stock}

theorem ok {v : Value} (h : K.plain v) : Fine K (.ok v) := by
  refine ⟨OnlyFaults.ok v, ?_⟩
  intro w eq
  cases eq
  exact h

theorem leaf {v : Value} (h : v.isLeaf = true) : Fine K (.ok v) := ok (K.leaf v h)

theorem failure (cause : Cause) : Fine K (Applied.failure cause) := by
  refine ⟨OnlyFaults.cause cause .nowhere, ?_⟩
  intro w eq
  cases eq

end Fine

structure Applied.Plain (K : Stock) (a : Applied) : Prop where
  args : ∀ v ∈ a.args, K.plain v
  result : Fine K a.result

namespace Applied

variable {K : Stock} {args : List Value}

theorem plain_give (h : ∀ v ∈ args, K.plain v) {r : Except Halt Value} (fine : Fine K r) :
    (give args r).Plain K := ⟨h, fine⟩

theorem plain_update {first : Value} {rest : List Value} (hfirst : K.plain first)
    (hrest : ∀ v ∈ rest, K.plain v) {r : Except Halt Value} (fine : Fine K r) :
    (update first rest r).Plain K := by
  refine ⟨?_, fine⟩
  intro v hv
  rcases List.mem_cons.mp hv with rfl | old
  · exact hfirst
  · exact hrest v old

theorem plain_refuse (h : ∀ v ∈ args, K.plain v) : (refuse args).Plain K := ⟨h, Fine.failure _⟩

end Applied

open Applied

theorem plain_integerRange (K : Stock) (first last : Integer) :
    K.plain (.array (integerRange first last)) := by
  rw [K.array]
  intro v hv
  obtain ⟨i, -, rfl⟩ := List.mem_map.mp hv
  exact K.plain_int _ _

theorem plain_strings (K : Stock) {α : Type} (text : α → Text) (items : List α) :
    K.plain (.array (items.map fun a => .string (text a))) := by
  rw [K.array]
  intro v hv
  obtain ⟨a, -, rfl⟩ := List.mem_map.mp hv
  exact K.plain_string _

section

variable {K : Stock}

theorem plain_append {xs ys : List Value} (hxs : K.plain (.array xs)) (hys : K.plain (.array ys)) :
    K.plain (.array (xs ++ ys)) := by
  rw [K.array] at hxs hys ⊢
  intro v hv
  rcases List.mem_append.mp hv with left | right
  · exact hxs v left
  · exact hys v right

theorem plain_values {es : Dict Text Value} (h : K.plain (.map es)) :
    K.plain (.array (es.map (·.2))) := by
  rw [K.map] at h
  rw [K.array]
  intro v hv
  obtain ⟨e, mem, rfl⟩ := List.mem_map.mp hv
  exact h e mem

end

def Value.isChar : Value → Bool
  | .char _ => true
  | _ => false

namespace CoreFn

variable {K : Stock}

/-- What the functions that only look at their arguments can give. They make no characters. -/
inductive Gives (args : List Value) : Value → Prop where
  | atom {v : Value} (h : v.isAtom = true ∧ v.isChar = false) : Gives args v
  | string (t : Text) : Gives args (.string t)
  | range (first last : Integer) : Gives args (.array (integerRange first last))
  | concat {xs ys : List Value} (h : args = [.array xs, .array ys]) : Gives args (.array (xs ++ ys))
  | keys {es : Dict Text Value} (h : args = [.map es]) :
      Gives args (.array (es.map fun e => .string e.1))
  | values {es : Dict Text Value} (h : args = [.map es]) : Gives args (.array (es.map (·.2)))

theorem given_ok {args : List Value} {v : Value} (h : Gives args v) :
    OnlyFaults (.ok v) ∧ ∀ w, Except.ok (ε := Halt) v = .ok w → Gives args w := by
  refine ⟨OnlyFaults.ok v, ?_⟩
  intro w eq
  cases eq
  exact h

theorem given_map {α : Type} {args : List Value} {r : Except Halt α} {make : α → Value}
    (faults : OnlyFaults r) (h : ∀ a, Gives args (make a)) :
    OnlyFaults (r.map make) ∧ ∀ w, r.map make = .ok w → Gives args w := by
  refine ⟨faults.map make, ?_⟩
  intro w eq
  cases r with
  | error e => cases eq
  | ok a =>
    cases eq
    exact h a

theorem given_bind {α : Type} {args : List Value} {r : Except Halt α} {f : α → Except Halt Value}
    (faults : OnlyFaults r) (h : ∀ a, OnlyFaults (f a) ∧ ∀ w, f a = .ok w → Gives args w) :
    OnlyFaults (r >>= f) ∧ ∀ w, r >>= f = .ok w → Gives args w := by
  refine ⟨faults.bind fun a => (h a).1, ?_⟩
  intro w eq
  cases r with
  | error e => cases eq
  | ok a => exact (h a).2 w eq

theorem given_arithmetic {α : Type} {args : List Value} {make : α → Value}
    (h : ∀ a, (make a).isAtom = true ∧ (make a).isChar = false) (r : Arithmetic.Result α) :
    OnlyFaults (arithmetic make r) ∧ ∀ w, arithmetic make r = .ok w → Gives args w := by
  cases r with
  | ok a => exact given_ok (.atom (h a))
  | error fault => exact ⟨OnlyFaults.cause _ .nowhere, fun _ never => by cases never⟩

/-- What a function that only looks at its arguments gives, in two calls side by side: something that the
arguments alone decide, or something that depends on the arithmetic, or on the store and the fuel. -/
inductive Looks (mode mode' : Arithmetic) (s s' : Store) (n n' : Nat) : CoreFn → List Value →
    Option (Except Halt Value) → Option (Except Halt Value) → Prop where
  | unserved {f : CoreFn} {args : List Value} : Looks mode mode' s s' n n' f args none none
  | given {f : CoreFn} {args : List Value} {v : Value} (h : Gives args v) :
      Looks mode mode' s s' n n' f args (some (.ok v)) (some (.ok v))
  | binary {f : CoreFn} {args : List Value} {t : IntType} (op : IntBinary) (x y : Fixed t) :
      Looks mode mode' s s' n n' f args (some (arithmetic (.int t) (Arithmetic.binary mode op x y)))
        (some (arithmetic (.int t) (Arithmetic.binary mode' op x y)))
  | scale {f : CoreFn} {args : List Value} {t : IntType} (op : IntScale) (x : Fixed t) (y : Integer) :
      Looks mode mode' s s' n n' f args (some (arithmetic (.int t) (Arithmetic.scale mode op x y)))
        (some (arithmetic (.int t) (Arithmetic.scale mode' op x y)))
  | unary {f : CoreFn} {args : List Value} {t : IntType} (op : Sign) (x : Fixed t) :
      Looks mode mode' s s' n n' f args (some (arithmetic (.int t) (Arithmetic.unary mode op x)))
        (some (arithmetic (.int t) (Arithmetic.unary mode' op x)))
  | power {f : CoreFn} {args : List Value} {φ : Type} [Arithmetic.FloatLike φ] {make : φ → Value}
      (h : ∀ a, (make a).isAtom = true ∧ (make a).isChar = false) (x : φ) (y : Integer) :
      Looks mode mode' s s' n n' f args (some (arithmetic make (Arithmetic.floatPower mode x y)))
        (some (arithmetic make (Arithmetic.floatPower mode' x y)))
  | display (v : Value) : Looks mode mode' s s' n n' .display [v]
      (some ((v.displayText s n).map .string)) (some ((v.displayText s' n').map .string))
  | debug (v : Value) : Looks mode mode' s s' n n' .debug [v]
      (some ((v.debugText s n).map .string)) (some ((v.debugText s' n').map .string))
  | concat (v w : Value) : Looks mode mode' s s' n n' .concat [v, w]
      (some do return .string ((← v.displayText s n) ++ (← w.displayText s n)))
      (some do return .string ((← v.displayText s' n') ++ (← w.displayText s' n')))
  | contains (xs : List Value) (v : Value) : Looks mode mode' s s' n n' .arrayContains [.array xs, v]
      (some ((occurs s n v xs).map .bool)) (some ((occurs s' n' v xs).map .bool))

theorem value?_looks (mode mode' : Arithmetic) (s s' : Store) (n n' : Nat) (f : CoreFn)
    (args : List Value) :
    Looks mode mode' s s' n n' f args (f.value? mode s n args) (f.value? mode' s' n' args) := by
  unfold value?
  split
  -- Integers are calculated with after their types.
  case h_1 | h_2 | h_3 =>
    split
    · first | exact .binary _ _ _ | exact .scale _ _ _ | exact .unary _ _
    · exact .unserved
  all_goals first
    | exact .unserved
    | exact .given (.atom ⟨rfl, rfl⟩)
    | exact .given (.string _)
    | exact .power (fun _ => ⟨rfl, rfl⟩) _ _
    | exact .given (.range _ _)
    | exact .given (.concat rfl)
    | exact .given (.keys rfl)
    | exact .given (.values rfl)
    | exact .display _
    | exact .debug _
    | exact .concat _ _
    | exact .contains _ _

theorem value?_gives {mode : Arithmetic} {s : Store} {fuel : Nat} {f : CoreFn} {args : List Value}
    {r : Except Halt Value} (eq : f.value? mode s fuel args = some r) :
    OnlyFaults r ∧ ∀ v, r = .ok v → Gives args v := by
  have looks := value?_looks mode mode s s fuel fuel f args
  rw [eq] at looks
  cases looks with
  | given h => exact given_ok h
  | binary op x y => exact given_arithmetic (fun _ => ⟨rfl, rfl⟩) _
  | scale op x y => exact given_arithmetic (fun _ => ⟨rfl, rfl⟩) _
  | unary op x => exact given_arithmetic (fun _ => ⟨rfl, rfl⟩) _
  | power h x y => exact given_arithmetic h _
  | display v => exact given_map (Value.displayText_faults s fuel v) fun _ => .string _
  | debug v => exact given_map (Value.debugText_faults s fuel v) fun _ => .string _
  | concat v w =>
    exact given_bind (Value.displayText_faults s fuel v) fun _ =>
      given_bind (Value.displayText_faults s fuel w) fun _ => given_ok (.string _)
  | contains xs v => exact given_map (occurs_faults s fuel v xs) fun _ => .atom ⟨rfl, rfl⟩

theorem Gives.plain {args : List Value} (h : ∀ v ∈ args, K.plain v) {v : Value}
    (given : Gives args v) : K.plain v := by
  cases given with
  | atom atom => exact K.leaf v (by cases v <;> first | rfl | cases atom.1)
  | string t => exact K.plain_string t
  | range first last => exact plain_integerRange K first last
  | concat same =>
    subst same
    exact plain_append (h _ (by simp)) (h _ (by simp))
  | keys same => exact plain_strings K _ _
  | values same =>
    subst same
    exact plain_values (h _ (by simp))

theorem value?_fine (mode : Arithmetic) (s : Store) (fuel : Nat) (f : CoreFn) {args : List Value}
    (h : ∀ v ∈ args, K.plain v) {r : Except Halt Value} (eq : f.value? mode s fuel args = some r) :
    Fine K r := by
  obtain ⟨faults, gives⟩ := value?_gives eq
  exact ⟨faults, fun v ok => (gives v ok).plain h⟩

theorem change?_plain (s : Store) (fuel : Nat) (f : CoreFn) {args : List Value}
    (h : ∀ v ∈ args, K.plain v) {a : Applied} (eq : f.change? s fuel args = some a) :
    a.Plain K := by
  unfold change? at eq
  split at eq
  case h_1 t v =>
    have hv : ∀ w ∈ [v], K.plain w := by
      intro w hw
      exact h w (List.mem_cons_of_mem _ hw)
    split at eq
    · cases eq
      exact plain_update (K.plain_string _) hv (Fine.leaf rfl)
    · next e fault =>
      cases eq
      refine plain_give h ⟨?_, fun _ none => by cases none⟩
      intro e' same
      cases same
      exact v.displayText_faults s fuel e fault
  case h_2 xs v =>
    cases eq
    have added : ∀ w ∈ [v], K.plain w := by
      intro w hw
      exact h w (List.mem_cons_of_mem _ hw)
    have items : K.plain (.array (xs ++ [v])) :=
      plain_append (h _ (by simp)) ((K.array [v]).mpr added)
    exact plain_update items added (Fine.leaf rfl)
  case h_3 xs =>
    cases eq
    have items := (K.array xs).mp (h _ (by simp))
    refine plain_update ((K.array _).mpr ?_) (by simp) (Fine.ok ?_)
    · intro w hw
      exact items w ((List.dropLast_sublist xs).subset hw)
    · cases last : xs.getLast? with
      | none => exact K.plain_unit
      | some w => exact items w (List.mem_of_getLast? last)
  case h_4 xs =>
    cases eq
    exact plain_update ((K.array _).mpr (by simp)) (by simp) (Fine.leaf rfl)
  case h_5 xs ys =>
    cases eq
    refine plain_update (plain_append (h _ (by simp)) (h _ (by simp))) ?_ (Fine.leaf rfl)
    intro w hw
    exact h w (List.mem_cons_of_mem _ hw)
  case h_6 es key =>
    cases eq
    have entries := (K.map es).mp (h _ (by simp))
    refine plain_update ((K.map _).mpr ?_) ?_ (Fine.ok ?_)
    · intro e he
      exact entries e (Dict.mem_of_mem_erase he)
    · intro w hw
      exact h w (List.mem_cons_of_mem _ hw)
    · cases found : Dict.find? key es with
      | none => exact K.plain_unit
      | some w => exact entries _ (Dict.mem_of_find? found)
  case h_7 => cases eq

theorem apply_plain (mode : Arithmetic) (s : Store) (fuel : Nat) (f : CoreFn) {args : List Value}
    (h : ∀ v ∈ args, K.plain v) : (f.apply mode s fuel args).Plain K := by
  unfold apply
  cases value : f.value? mode s fuel args with
  | some r => exact plain_give h (value?_fine mode s fuel f h value)
  | none =>
    cases changed : f.change? s fuel args with
    | some a => exact change?_plain s fuel f h changed
    | none => exact plain_refuse h

end CoreFn

namespace HostFn

variable {K : Stock}

theorem setPair_fine (s : Store) (fuel : Nat) (x y : Integer) (items : List Value) :
    Fine K (setPair s fuel y x items).2 := by
  unfold setPair
  cases first : integerItem s fuel items 0 with
  | error e => exact ⟨(integerItem_faults s fuel items 0).same first, fun _ none => by cases none⟩
  | ok x =>
    cases second : integerItem s fuel items 1 with
    | error e => exact ⟨(integerItem_faults s fuel items 1).same second, fun _ none => by cases none⟩
    | ok y => exact Fine.leaf rfl

theorem plain_leaves {vs : List Value} (h : vs.all Value.isLeaf = true) : ∀ v ∈ vs, K.plain v := by
  intro v hv
  exact K.leaf v (List.all_eq_true.mp h v hv)

/-- What a function of a host does with its arguments, in two calls side by side. Only a pair of coordinates
is looked for in the store. -/
inductive Acts (s s' : Store) (n n' : Nat) (args : List Value) : Applied → Applied → Prop where
  | give {r : Except Halt Value} (fine : ∀ K, Fine K r) : Acts s s' n n' args (give args r) (give args r)
  | change {first : Value} {rest : List Value} {r : Except Halt Value} (own : first.isLeaf = true)
      (leaves : rest.all Value.isLeaf = true) (fine : ∀ K, Fine K r) :
      Acts s s' n n' args (update first rest r) (update first rest r)
  | pair {x y : Integer} {items : List Value} (h : args = [.host (.point x y), .array items]) :
      Acts s s' n n' args
        (update (.host (setPair s n y x items).1) [.array items] (setPair s n y x items).2)
        (update (.host (setPair s' n' y x items).1) [.array items] (setPair s' n' y x items).2)

theorem apply_acts (s s' : Store) (n n' : Nat) (f : HostFn) (args : List Value) :
    Acts s s' n n' args (f.apply s n args) (f.apply s' n' args) := by
  unfold apply
  split
  case h_7 b =>
    cases b
    · exact .give fun _ => Fine.leaf rfl
    · exact .give fun _ => Fine.failure _
  case h_8 => exact .give fun _ => ⟨OnlyFaults.cause _ _, fun _ none => by cases none⟩
  case h_9 => exact .give fun _ => ⟨OnlyFaults.cause _ _, fun _ none => by cases none⟩
  case h_17 x y => exact .give fun K => Fine.ok ((K.array _).mpr (plain_leaves rfl))
  case h_18 x y items => exact .pair rfl
  case h_19 x y i =>
    split
    · exact .give fun _ => Fine.leaf rfl
    · split
      · exact .give fun _ => Fine.leaf rfl
      · exact .give fun _ => Fine.failure _
  case h_20 x y i v =>
    split
    · exact .change rfl rfl fun _ => Fine.leaf rfl
    · split
      · exact .change rfl rfl fun _ => Fine.leaf rfl
      · exact .give fun _ => Fine.failure _
  all_goals first
    | exact .give fun _ => Fine.leaf rfl
    | exact .give fun _ => Fine.failure _
    | exact .change rfl rfl fun _ => Fine.leaf rfl
    | exact .change rfl rfl fun _ => Fine.failure _

theorem apply_plain (s : Store) (fuel : Nat) (f : HostFn) {args : List Value}
    (h : ∀ v ∈ args, K.plain v) : (f.apply s fuel args).Plain K := by
  have acts := apply_acts s s fuel fuel f args
  generalize f.apply s fuel args = a at acts
  cases acts with
  | give fine => exact plain_give h (fine K)
  | change own leaves fine => exact plain_update (K.leaf _ own) (plain_leaves leaves) (fine K)
  | @pair x y items same =>
    subst same
    refine plain_update (K.leaf _ rfl) ?_ (setPair_fine s fuel x y items)
    exact fun v hv => h v (List.mem_cons_of_mem _ hv)

end HostFn

end Scripting
