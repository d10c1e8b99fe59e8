import Scripting.Proofs.Assignment.Remains
import Scripting.Proofs.RoundTrip.Literals
import Scripting.Proofs.Sharing

/-
Places. A place is a variable, a variable of a module or `this`, and the steps that lead from there into
arrays, maps and strings. Here it is said what a place holds, and what it means to put a value at its
start, as functions of the variables and cells alone. Evaluation comes in later: reading a place, and
working on it, are shown to do just this.
-/
namespace Scripting

/-- A step into a container: to an item of an array or a character of a string, or to an entry of a
map. -/
inductive Key where
  | item (n : Integer)
  | entry (name : Text)

def Value.key? : Value → Option Key
  | .int .i64 n => some (.item n)
  | .string t => some (.entry t)
  | _ => none

theorem Value.eq_of_key?_item {v : Value} {n : Integer} (h : v.key? = some (.item n)) : v = .i64 n := by
  unfold key? at h
  split at h
  · cases h
    rfl
  · cases h
  · cases h

theorem Value.eq_of_key?_entry {v : Value} {name : Text} (h : v.key? = some (.entry name)) :
    v = .string name := by
  unfold key? at h
  split at h
  · cases h
  · cases h
    rfl
  · cases h

namespace Key

def character? (n : Integer) (t : Text) : Option (Text × CodePoint × Text) :=
  if n.val < 0 then none else Utf8.locate n.val.toNat t

def sees : Key → Value → Option Value
  | .item n, .array items => if n.val < 0 then none else items[n.val.toNat]?
  | .item n, .string t => (character? n t).map fun found => .char found.2.1
  | .entry name, .map entries => some ((Dict.find? name entries).getD .unit)
  | _, _ => none

def put : Key → Value → Value → Option Value
  | .item n, .array items, x => some (.array (items.set n.val.toNat x))
  | .item n, .string t, .char c =>
    (character? n t).map fun found => .string (found.1 ++ Utf8.encode c ++ found.2.2)
  | .entry name, .map entries, x => some (.map (Dict.insert name x entries))
  | _, _, _ => none

inductive Into : Key → Value → Value → Prop where
  | item {n : Integer} {items : List Value} {v : Value} (start : ¬ n.val < 0)
      (there : items[n.val.toNat]? = some v) : Into (.item n) (.array items) v
  | char {n : Integer} {t : Text} {found : Text × CodePoint × Text}
      (there : character? n t = some found) : Into (.item n) (.string t) (.char found.2.1)
  | entry {name : Text} {entries : List (Text × Value)} :
      Into (.entry name) (.map entries) ((Dict.find? name entries).getD .unit)

theorem into_of_sees {k : Key} {v part : Value} (h : k.sees v = some part) : k.Into v part := by
  unfold sees at h
  split at h
  · split at h
    · cases h
    · next start => exact .item start h
  · obtain ⟨found, there, rfl⟩ := Option.map_eq_some_iff.mp h
    exact .char there
  · cases h
    exact .entry
  · cases h

end Key

/-- What a value stands for, if it is an alias. A cell that is being written shows nothing. -/
def Value.behind? (s : Store) : Value → Option Value
  | .shared c => if (s.cell c).writer then none else some (s.cell c).value
  | v => some v

theorem Value.behind?_of_own {v : Value} (own : v.isShared = false) (s : Store) :
    v.behind? s = some v := by
  cases v with
  | shared c => cases own
  | _ => rfl

theorem Value.InOrder.item {items : List Value} (h : (Value.array items).InOrder) {v : Value}
    (mem : v ∈ items) : v.InOrder := by
  cases h with
  | array items => exact items v mem
  | other noArray => exact absurd rfl (noArray items)

theorem Value.InOrder.entry {entries : List (Text × Value)} (h : (Value.map entries).InOrder)
    {name : Text} {v : Value} (found : Dict.find? name entries = some v) : v.InOrder := by
  cases h with
  | map _ values => exact values _ (Dict.mem_of_find? found)
  | other _ noMap => exact absurd rfl (noMap entries)

theorem Value.InOrder.entries {entries : List (Text × Value)} (h : (Value.map entries).InOrder) :
    Dict.Ordered entries := by
  cases h with
  | map ordered => exact ordered
  | other _ noMap => exact absurd rfl (noMap entries)

inductive Root where
  | variable (name : Text)
  | qualified (path : List Text) (name : Text)
  | this

/-- A start and the steps from there, the last one first. -/
structure Place where
  root : Root
  keys : List Key := []

namespace Module

def descendant? (m : Module) : List Text → Option Module
  | [] => some m
  | name :: rest => (m.module? name).bind (·.descendant? rest)

end Module

namespace Machine

def module? (m : Machine) : List Text → Option Module
  | [] => none
  | first :: rest =>
    ((Dict.find? first m.imports).or (m.library.module? first)).bind (·.descendant? rest)

def start? (m : Machine) : Root → Option Value
  | .variable name => (m.scope.find? name).bind fun e => e.value.behind? m.store
  | .qualified path name => (m.module? path).bind (·.value? name)
  | .this => m.this.bind (·.behind? m.store)

def look (m : Machine) (root : Root) : List Key → Option Value
  | [] => m.start? root
  | k :: rest => (m.look root rest).bind fun v => (k.sees v).bind (·.behind? m.store)

def putCell (m : Machine) (c : Nat) (x : Value) : Option Machine :=
  if (m.store.cell c).lock = (0, false) then some (m.withStore (m.store.setValue c x)) else none

def putStart (m : Machine) (x : Value) : Root → Option Machine
  | .variable name => (m.scope.find? name).bind fun e => match e.value with
    | .shared c => m.putCell c x
    | _ => some { m with scope := m.scope.setValue name x }
  | .qualified _ _ => none
  | .this => m.this.bind fun v => match v with
    | .shared c => m.putCell c x
    | _ => some { m with this := some x }

end Machine

namespace Expr

def operand? (m : Machine) : Expr → Option Value
  | .int _ n => some (.i64 n)
  | .float _ f => some (.float f)
  | .string _ t => some (.string t)
  | .char _ c => some (.char c)
  | .bool _ b => some (.bool b)
  | .unit _ => some .unit
  | .var _ name [] => m.start? (.variable name)
  | .var _ name path => m.start? (.qualified path name)
  | _ => none

/-- The place that an expression stands for, if its indices have values that can be used so. -/
def place? (m : Machine) : Expr → Option Place
  | .var _ name [] => some ⟨.variable name, []⟩
  | .var _ name path => some ⟨.qualified path name, []⟩
  | .this _ => some ⟨.this, []⟩
  | .index _ object i => do
    let p ← object.place? m
    let k ← (← i.operand? m).key?
    return { p with keys := k :: p.keys }
  | .property _ object name => do
    let p ← object.place? m
    return { p with keys := .entry name :: p.keys }
  | _ => none

def look (m : Machine) (e : Expr) : Option Value := (e.place? m).bind fun p => m.look p.root p.keys

inductive IsOperand : Expr → Prop where
  | int {pos : Position} {n : Integer} : IsOperand (.int pos n)
  | float {pos : Position} {f : Float} : IsOperand (.float pos f)
  | string {pos : Position} {t : Text} : IsOperand (.string pos t)
  | char {pos : Position} {c : CodePoint} : IsOperand (.char pos c)
  | bool {pos : Position} {b : Bool} : IsOperand (.bool pos b)
  | unit {pos : Position} : IsOperand (.unit pos)
  | var {pos : Position} {name : Text} {path : List Text} : IsOperand (.var pos name path)

/-- A variable or `this`, with indices that are literals or variables and with properties. -/
inductive IsPlace : Expr → Prop where
  | var {pos : Position} {name : Text} {path : List Text} : IsPlace (.var pos name path)
  | this {pos : Position} : IsPlace (.this pos)
  | index {pos : Position} {object i : Expr} : IsPlace object → IsOperand i →
      IsPlace (.index pos object i)
  | property {pos : Position} {object : Expr} {name : Text} : IsPlace object →
      IsPlace (.property pos object name)

/-- A place that starts at a variable of the scope or at `this`. -/
inductive IsLocal : Expr → Prop where
  | var {pos : Position} {name : Text} : IsLocal (.var pos name [])
  | this {pos : Position} : IsLocal (.this pos)
  | index {pos : Position} {object i : Expr} : IsLocal object → IsOperand i →
      IsLocal (.index pos object i)
  | property {pos : Position} {object : Expr} {name : Text} : IsLocal object →
      IsLocal (.property pos object name)

theorem IsLocal.isPlace {e : Expr} (h : e.IsLocal) : e.IsPlace := by
  induction h with
  | var => exact .var
  | this => exact .this
  | index _ operand ih => exact .index ih operand
  | property _ ih => exact .property ih

variable {m : Machine}

theorem look_index (pos : Position) (object i : Expr) :
    (Expr.index pos object i).look m = (object.look m).bind fun v =>
      (i.operand? m).bind fun w => (w.key?.bind fun k => k.sees v).bind (·.behind? m.store) := by
  cases place : object.place? m with
  | none => simp [look, place?, place]
  | some p =>
    cases operand : i.operand? m with
    | none => cases m.look p.root p.keys <;> simp [look, place?, place, operand]
    | some w =>
      cases key : w.key? with
      | none => cases m.look p.root p.keys <;> simp [look, place?, place, operand, key]
      | some k => simp [look, place?, place, operand, key, Machine.look]

theorem look_property (pos : Position) (object : Expr) (name : Text) :
    (Expr.property pos object name).look m = (object.look m).bind fun v =>
      ((Key.entry name).sees v).bind (·.behind? m.store) := by
  cases place : object.place? m with
  | none => simp [look, place?, place]
  | some p => simp [look, place?, place, Machine.look]

end Expr

end Scripting
