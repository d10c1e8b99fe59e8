import Scripting.Proofs.Access.Operators
import Scripting.Proofs.Regime.Evaluation

/-
What scripts make of values and variables by themselves, on the standard package. A function pointer
carries each cell once, and a frame has each cell in one variable; every alias is of a cell that is there;
and every character has a code point that is read back from its bytes. Which cells there are depends on
the store, so all of this is said for a size of the store, and stays true when the store grows.
-/
namespace Scripting

def aliased (vs : List Value) : List Nat := vs.filterMap Value.cell?

theorem mem_aliased {vs : List Value} {c : Nat} : c ∈ aliased vs ↔ .shared c ∈ vs := by
  unfold aliased
  rw [List.mem_filterMap]
  constructor
  · rintro ⟨v, mem, cell⟩
    cases v with
    | shared d =>
      cases cell
      exact mem
    | _ => cases cell
  · exact fun mem => ⟨_, mem, rfl⟩

theorem aliased_cons_own {v : Value} (own : v.isShared = false) (vs : List Value) :
    aliased (v :: vs) = aliased vs := by
  cases v with
  | shared c => cases own
  | _ => rfl

theorem aliased_own {vs : List Value} (own : ∀ v ∈ vs, v.isShared = false) : aliased vs = [] := by
  induction vs with
  | nil => rfl
  | cons v rest ih =>
    rw [aliased_cons_own (own v List.mem_cons_self)]
    exact ih fun w hw => own w (List.mem_cons_of_mem _ hw)

inductive Value.Scripted (size : Nat) : Value → Prop where
  | char {c : CodePoint} (small : c.toNat < 0x200000) : Scripted size (.char c)
  | leaf {v : Value} (h : v.isLeaf = true) (noChar : v.isChar = false) : Scripted size v
  | array {items : List Value} (h : ∀ v ∈ items, Scripted size v) : Scripted size (.array items)
  | map {entries : List (Text × Value)} (h : ∀ e ∈ entries, Scripted size e.2) :
      Scripted size (.map entries)
  | fn {name : Text} {curry : List Value} (own : ∀ v ∈ curry, v.isShared = false → Scripted size v)
      (there : ∀ c, .shared c ∈ curry → c < size) (apart : (aliased curry).Nodup) :
      Scripted size (.fn name curry)

structure Value.Passing (size : Nat) (v : Value) : Prop where
  own : v.isShared = false → v.Scripted size
  there : ∀ c, v = .shared c → c < size

structure Bindable (size : Nat) (vs : List Value) : Prop where
  passing : ∀ v ∈ vs, v.Passing size
  apart : (aliased vs).Nodup

namespace Value

variable {size more : Nat} {v : Value}

theorem Scripted.unshared (h : v.Scripted size) : v.isShared = false := by
  cases h with
  | leaf h => cases v <;> first | rfl | cases h
  | _ => rfl

theorem Scripted.grow (h : v.Scripted size) (le : size ≤ more) : v.Scripted more := by
  induction h with
  | char small => exact .char small
  | leaf h noChar => exact .leaf h noChar
  | array _ ih => exact .array ih
  | map _ ih => exact .map ih
  | fn _ there apart ih => exact .fn ih (fun c mem => Nat.lt_of_lt_of_le (there c mem) le) apart

theorem scripted_array (items : List Value) :
    Scripted size (.array items) ↔ ∀ v ∈ items, Scripted size v := by
  constructor
  · intro h
    cases h with
    | leaf h => cases h
    | array h => exact h
  · exact .array

theorem scripted_map (entries : List (Text × Value)) :
    Scripted size (.map entries) ↔ ∀ e ∈ entries, Scripted size e.2 := by
  constructor
  · intro h
    cases h with
    | leaf h => cases h
    | map h => exact h
  · exact .map

theorem scripted_fn (name : Text) (curry : List Value) :
    Scripted size (.fn name curry) ↔ Bindable size curry := by
  constructor
  · intro h
    cases h with
    | leaf h => cases h
    | fn own there apart =>
      exact ⟨fun v mem => ⟨own v mem, fun c eq => there c (eq ▸ mem)⟩, apart⟩
  · exact fun h => .fn (fun v mem => (h.passing v mem).own)
      (fun c mem => (h.passing _ mem).there c rfl) h.apart

theorem scripted_unit : Scripted size .unit := .leaf rfl rfl

theorem scripted_bool (b : Bool) : Scripted size (.bool b) := .leaf rfl rfl

theorem scripted_string (t : Text) : Scripted size (.string t) := .leaf rfl rfl

theorem scripted_atom {v : Value} (atom : v.isAtom = true)
    (small : ∀ c, v = .char c → c.toNat < 0x200000) : Scripted size v := by
  cases v with
  | char c => exact .char (small c rfl)
  | string _ => cases atom
  | array _ => cases atom
  | map _ => cases atom
  | fn _ _ => cases atom
  | shared _ => cases atom
  | _ => exact .leaf rfl rfl

theorem scripted_char {c : CodePoint} : Scripted size (.char c) ↔ c.toNat < 0x200000 := by
  constructor
  · intro h
    cases h with
    | char small => exact small
    | leaf _ noChar => cases noChar
  · exact .char

theorem scripted_set {items : List Value} (h : Scripted size (.array items)) (i : Nat)
    (hv : v.Scripted size) : Scripted size (.array (items.set i v)) := by
  rw [scripted_array] at h ⊢
  intro w hw
  rcases List.mem_or_eq_of_mem_set hw with old | rfl
  · exact h w old
  · exact hv

theorem scripted_entry {entries : List (Text × Value)} (h : Scripted size (.map entries)) {key : Text}
    (found : Dict.find? key entries = some v) : v.Scripted size :=
  (scripted_map entries).mp h _ (Dict.mem_of_find? found)

theorem scripted_insert {entries : List (Text × Value)} (h : ∀ e ∈ entries, Scripted size e.2)
    (key : Text) (hv : v.Scripted size) : ∀ e ∈ Dict.insert key v entries, Scripted size e.2 := by
  intro e he
  rcases Dict.mem_insert he with rfl | old
  · exact hv
  · exact h e old

theorem Scripted.passing (h : v.Scripted size) : v.Passing size :=
  ⟨fun _ => h, fun c eq => by
    subst eq
    cases h.unshared⟩

theorem Passing.grow (h : v.Passing size) (le : size ≤ more) : v.Passing more :=
  ⟨fun own => (h.own own).grow le, fun c eq => Nat.lt_of_lt_of_le (h.there c eq) le⟩

end Value

namespace Bindable

variable {size more : Nat} {vs ws : List Value}

theorem grow (h : Bindable size vs) (le : size ≤ more) : Bindable more vs :=
  ⟨fun v mem => (h.passing v mem).grow le, h.apart⟩

theorem own (h : ∀ v ∈ vs, v.Scripted size) : Bindable size vs := by
  refine ⟨fun v mem => (h v mem).passing, ?_⟩
  rw [aliased_own fun v mem => (h v mem).unshared]
  exact List.nodup_nil

theorem append (h : Bindable size vs) (more : ∀ v ∈ ws, v.Scripted size) : Bindable size (vs ++ ws) := by
  refine ⟨List.forall_mem_append.mpr ⟨h.passing, fun v mem => (more v mem).passing⟩, ?_⟩
  have none : aliased ws = [] := aliased_own fun v mem => (more v mem).unshared
  rw [aliased, List.filterMap_append, ← aliased, ← aliased, none, List.append_nil]
  exact h.apart

theorem sublist (h : Bindable size vs) (sub : ws.Sublist vs) : Bindable size ws :=
  ⟨fun v mem => h.passing v (sub.subset mem), h.apart.sublist (sub.filterMap _)⟩

theorem cons {v : Value} (hv : v.Passing size) (h : Bindable size vs)
    (new : ∀ c, v = .shared c → .shared c ∉ vs) : Bindable size (v :: vs) := by
  refine ⟨List.forall_mem_cons.mpr ⟨hv, h.passing⟩, ?_⟩
  cases v with
  | shared c => exact List.nodup_cons.mpr ⟨fun mem => new c rfl (mem_aliased.mp mem), h.apart⟩
  | _ => exact h.apart

end Bindable

/-! ### Variables -/

namespace Scope

variable {s : Scope} {name : Text} {v : Value} {size : Nat}

def values (s : Scope) : List Value := s.map Entry.value

theorem mem_values {e : Entry} (mem : e ∈ s) : e.value ∈ s.values := List.mem_map_of_mem mem

theorem values_setValue {w : Value} (mem : w ∈ (s.setValue name v).values) : w = v ∨ w ∈ s.values := by
  obtain ⟨e, there, rfl⟩ := List.mem_map.mp mem
  rcases value_mem_setValue there with new | ⟨old, before, same⟩
  · exact Or.inl new
  · exact Or.inr (same ▸ mem_values before)

theorem bindable_setValue (h : Bindable size s.values) (hv : v.Scripted size) :
    Bindable size (s.setValue name v).values := by
  induction s with
  | nil => exact h
  | cons e rest ih =>
    have others : Bindable size (values rest) := h.sublist (List.sublist_cons_self _ _)
    unfold setValue modify
    by_cases same : e.name = name
    · rw [if_pos same]
      exact .cons hv.passing others fun c eq => by
        subst eq
        cases hv.unshared
    · rw [if_neg same]
      refine .cons (h.passing _ List.mem_cons_self) (ih others) fun c eq mem => ?_
      rcases values_setValue mem with new | old
      · subst new
        cases hv.unshared
      · have first := h.apart
        rw [values, List.map_cons, eq] at first
        exact (List.nodup_cons.mp first).1 (mem_aliased.mpr old)

theorem bindable_share (h : Bindable size s.values) :
    Bindable (size + 1) (s.setValue name (.shared size)).values := by
  have fresh : (Value.shared size).Passing (size + 1) :=
    ⟨fun own => (by cases own), fun c eq => (by
      cases eq
      exact Nat.lt_succ_self _)⟩
  induction s with
  | nil => exact h.grow (Nat.le_succ _)
  | cons e rest ih =>
    have others : Bindable size (values rest) := h.sublist (List.sublist_cons_self _ _)
    unfold setValue modify
    by_cases same : e.name = name
    · rw [if_pos same]
      refine .cons fresh (others.grow (Nat.le_succ _)) fun c eq mem => ?_
      cases eq
      exact absurd ((others.passing _ mem).there size rfl) (Nat.lt_irrefl _)
    · rw [if_neg same]
      refine .cons ((h.passing _ List.mem_cons_self).grow (Nat.le_succ _)) (ih others) fun c eq mem => ?_
      have old : c < size := (h.passing _ List.mem_cons_self).there c eq
      rcases values_setValue mem with new | later
      · cases new
        exact absurd old (Nat.lt_irrefl _)
      · have first := h.apart
        rw [values, List.map_cons, eq] at first
        exact (List.nodup_cons.mp first).1 (mem_aliased.mpr later)

theorem values_bindParams (params : List Text) (args : List Value) :
    ∃ taken : List Value, taken.Sublist args ∧
      (Eval.bindParams params args s).values = taken.reverse ++ s.values := by
  induction params generalizing args s with
  | nil => exact ⟨[], List.nil_sublist _, rfl⟩
  | cons x rest ih =>
    cases args with
    | nil => exact ⟨[], List.nil_sublist _, rfl⟩
    | cons v more =>
      obtain ⟨taken, sub, same⟩ := ih (s := s.push x v false) more
      refine ⟨v :: taken, sub.cons_cons v, ?_⟩
      rw [List.reverse_cons, List.append_assoc]
      exact same

theorem bindable_params (params : List Text) {args : List Value} (h : Bindable size args) :
    Bindable size (Eval.bindParams params args []).values := by
  obtain ⟨taken, sub, same⟩ := values_bindParams (s := []) params args
  have bound := h.sublist sub
  rw [same, values, List.map_nil, List.append_nil]
  refine ⟨fun v mem => bound.passing v (List.mem_reverse.mp mem), ?_⟩
  rw [aliased, List.filterMap_reverse, List.Nodup, List.pairwise_reverse]
  exact bound.apart.imp Ne.symm

end Scope

/-! ### Code and modules -/

/-- What code must look like to make no other values: its characters are read back, and its closures
capture every variable once. -/
def Rule.scripted : Rule
  | _, .expr (.char _ c) => c.toNat < 0x200000
  | _, .expr (.closure _ _ captured) => captured.Nodup
  | _, _ => True

structure Function.Scripted (f : Function) : Prop where
  script : ∀ g, f.body = .script g → g.Obeys Rule.scripted
  native : ∀ n, f.body = .native n → ∃ g, n = .core g

inductive Module.Scripted (size : Nat) : Module → Prop where
  | intro {m : Module} (functions : ∀ f ∈ m.functions, f.2.Scripted)
      (values : ∀ e ∈ m.values, e.2.Scripted size) (modules : ∀ e ∈ m.modules, Scripted size e.2) :
      Scripted size m

namespace Module.Scripted

variable {size more : Nat} {m : Module}

theorem functions (h : m.Scripted size) : ∀ f ∈ m.functions, f.2.Scripted := by
  cases h with
  | intro functions => exact functions

theorem values (h : m.Scripted size) : ∀ e ∈ m.values, e.2.Scripted size := by
  cases h with
  | intro _ values => exact values

theorem modules (h : m.Scripted size) : ∀ e ∈ m.modules, e.2.Scripted size := by
  cases h with
  | intro _ _ modules => exact modules

theorem grow (h : m.Scripted size) (le : size ≤ more) : m.Scripted more := by
  induction h with
  | intro functions values _ ih => exact .intro functions (fun e he => (values e he).grow le) ih

theorem scriptFn? (h : m.Scripted size) {name : Text} {arity : Nat} {exposedOnly : Bool} {f : ScriptFn}
    (found : m.scriptFn? name arity exposedOnly = some f) : f.Obeys Rule.scripted := by
  unfold Module.scriptFn? at found
  obtain ⟨g, hg, chosen⟩ := Option.bind_eq_some_iff.mp found
  split at chosen
  · cases chosen
  · have own := h.functions _ (Dict.mem_of_find? hg)
    unfold Function.script? at chosen
    cases body : g.body with
    | native n =>
      rw [body] at chosen
      cases chosen
    | script s =>
      rw [body] at chosen
      cases chosen
      exact own.script f body

theorem library {script : Script} (h : script.Obeys Rule.scripted) : script.library.Scripted size := by
  refine .intro ?_ (by simp [Script.library, ofFunctions]) (by simp [Script.library, ofFunctions])
  intro f hf
  obtain ⟨⟨key, g⟩, mem, rfl⟩ := List.mem_map.mp hf
  constructor
  · intro g' body
    cases body
    exact h.functions _ mem
  · intro n body
    cases body

end Module.Scripted

/-! ### Machines -/

structure World.Scripted (w : World) : Prop where
  cells : ∀ c, (w.store.cell c).value.Scripted w.store.size
  table : ∀ e ∈ w.table, e.2.Scripted w.store.size
  loaded : ∀ e ∈ w.loaded, e.2.Scripted w.store.size

structure Machine.Scripted (m : Machine) : Prop where
  world : m.world.Scripted
  scope : Bindable m.store.size m.scope.values
  this : ∀ v, m.this = some v → v.Scripted m.store.size
  library : m.library.Scripted m.store.size
  root : m.root.Scripted m.store.size
  imports : ∀ e ∈ m.imports, e.2.Scripted m.store.size

namespace World.Scripted

variable {w : World}

theorem withStore (h : w.Scripted) {s : Store} (le : w.store.size ≤ s.size)
    (cells : ∀ c, (s.cell c).value.Scripted s.size) : World.Scripted { w with store := s } :=
  ⟨cells, fun e he => (h.table e he).grow le, fun e he => (h.loaded e he).grow le⟩

theorem load (h : w.Scripted) {found : Module} (scripted : found.Scripted w.store.size) (shelf : Shelf) :
    World.Scripted { w with loaded := w.loaded.insert shelf found } := by
  refine ⟨h.cells, h.table, ?_⟩
  intro e he
  rcases Dict.mem_insert he with rfl | old
  · exact scripted
  · exact h.loaded e old

end World.Scripted

namespace Machine.Scripted

variable {m n : Machine} {name : Text} {v : Value}

theorem cells (h : m.Scripted) (c : Nat) : (m.store.cell c).value.Scripted m.store.size := h.world.cells c

theorem entry (h : m.Scripted) {e : Entry} (found : m.scope.find? name = some e) :
    e.value.Passing m.store.size :=
  h.scope.passing _ (Scope.mem_values (Scope.mem_of_find? found))

theorem withWorld (h : m.Scripted) {w : World} (hw : w.Scripted) (le : m.store.size ≤ w.store.size) :
    Machine.Scripted { m with world := w } :=
  ⟨hw, h.scope.grow le, fun v eq => (h.this v eq).grow le, h.library.grow le, h.root.grow le,
    fun e he => (h.imports e he).grow le⟩

theorem withScope (h : m.Scripted) {s : Scope} (hs : Bindable m.store.size s.values) :
    Machine.Scripted { m with scope := s } :=
  ⟨h.world, hs, h.this, h.library, h.root, h.imports⟩

theorem withStore (h : m.Scripted) {s : Store} (le : m.store.size ≤ s.size)
    (cells : ∀ c, (s.cell c).value.Scripted s.size) : (m.withStore s).Scripted :=
  h.withWorld (h.world.withStore le cells) le

theorem setThis (h : m.Scripted) (hv : v.Scripted m.store.size) :
    Machine.Scripted { m with this := some v } := by
  refine ⟨h.world, h.scope, ?_, h.library, h.root, h.imports⟩
  intro w eq
  cases eq
  exact hv

theorem openCell (h : m.Scripted) {s : Store} {c : Nat} {pos : Position}
    (locked : m.store.beginWrite c name pos = .ok s) :
    (m.withStore s).Scripted ∧ s.size = m.store.size := by
  have size : s.size = m.store.size := by
    unfold Store.beginWrite at locked
    dsimp only at locked
    split at locked
    · cases locked
    · cases locked
      exact Store.size_put _ _ _
  refine ⟨h.withStore (Nat.le_of_eq size.symm) fun d => ?_, size⟩
  rw [Store.beginWrite_value locked d, size]
  exact h.cells d

theorem closeCell (h : m.Scripted) (c : Nat) (hv : v.Scripted m.store.size) :
    (m.withStore ((m.store.setValue c v).endWrite c)).Scripted := by
  have size : ((m.store.setValue c v).endWrite c).size = m.store.size := by
    simp [Store.endWrite, Store.setValue]
  refine h.withStore (Nat.le_of_eq size.symm) fun d => ?_
  rw [Store.endWrite_value, size]
  exact Store.setValue_plain h.cells c hv d

/-- A captured variable becomes an alias of a cell that no other variable of the frame is. -/
theorem share (h : m.Scripted) {e : Entry} (found : m.scope.find? name = some e) :
    Machine.Scripted { m.withStore (m.store.share e.value).1 with
      scope := m.scope.setValue name (m.store.share e.value).2 } := by
  have value := h.entry found
  by_cases own : e.value.isShared = false
  · have new : m.store.share e.value = ((m.store.alloc e.value).1, .shared m.store.size) := by
      unfold Store.share
      split
      · next same => cases same ▸ own
      · rfl
    have size : (m.store.alloc e.value).1.size = m.store.size + 1 := Store.size_alloc _ _
    have le : m.store.size ≤ (m.store.alloc e.value).1.size := size ▸ Nat.le_succ _
    rw [new]
    have stored := h.withStore le (Store.alloc_plain (fun c => (h.cells c).grow le) Value.scripted_unit
      ((value.own own).grow le))
    refine stored.withScope ?_
    change Bindable (m.store.alloc e.value).1.size _
    rw [size]
    exact Scope.bindable_share h.scope
  · have old : m.store.share e.value = (m.store, e.value) := by
      cases shared : e.value with
      | shared c => rfl
      | _ => exact absurd (shared ▸ rfl) own
    rw [old]
    refine (h.withStore (Nat.le_refl _) h.cells).withScope ?_
    rw [Scope.setValue_self found]
    exact h.scope

theorem rewind (h : m.Scripted) (entries imports : Nat) : (m.rewind entries imports).Scripted :=
  ⟨h.world, h.scope.sublist ((List.drop_sublist _ _).map _), h.this, h.library, h.root,
    fun e he => h.imports e (List.mem_of_mem_drop he)⟩

theorem push (h : m.Scripted) (name : Text) (hv : v.Scripted m.store.size) (isConst : Bool) :
    Machine.Scripted { m with scope := m.scope.push name v isConst } :=
  h.withScope (.cons hv.passing h.scope fun c eq => by
    subst eq
    cases hv.unshared)

theorem mark (h : m.Scripted) (name : Text) (as : Option Text) :
    Machine.Scripted { m with scope := m.scope.modify name fun e => { e with exported := as } } := by
  have same : Scope.values (m.scope.modify name fun e => { e with exported := as }) =
      m.scope.values := by
    unfold Scope.values
    induction m.scope with
    | nil => rfl
    | cons e rest ih => by_cases named : e.name = name <;> simp [Scope.modify, named, ih]
  refine h.withScope ?_
  rw [same]
  exact h.scope

theorem bind (h : m.Scripted) (name : Text) {found : Module} (scripted : found.Scripted m.store.size) :
    Machine.Scripted { m with imports := (name, found) :: m.imports } := by
  refine ⟨h.world, h.scope, h.this, h.library, h.root, ?_⟩
  intro e he
  rcases List.mem_cons.mp he with rfl | old
  · exact scripted
  · exact h.imports e old

theorem idle (h : m.Scripted) (operations progress nextClosure : Nat) (messages : List Message)
    (loading : List Shelf) : (m.idle operations progress nextClosure messages loading).Scripted :=
  ⟨⟨h.world.cells, h.world.table, h.world.loaded⟩, h.scope, h.this, h.library, h.root, h.imports⟩

theorem enter (h : m.Scripted) {scope : Scope} {library : Module} {this : Option Value}
    (hscope : Bindable m.store.size scope.values) (hlibrary : library.Scripted m.store.size)
    (hthis : ∀ v, this = some v → v.Scripted m.store.size) : (m.enter scope library this).Scripted :=
  ⟨h.world, hscope, hthis, hlibrary, h.root, h.imports⟩

theorem leave (h : m.Scripted) (hn : n.Scripted) (le : m.store.size ≤ n.store.size) :
    (m.leave n).Scripted :=
  ⟨hn.world, h.scope.grow le, fun v eq => (h.this v eq).grow le, h.library.grow le, hn.root,
    fun e he => hn.imports e (List.mem_of_mem_drop he)⟩

theorem fresh {w : World} {library : Module} (hw : w.Scripted)
    (hlibrary : library.Scripted w.store.size) : (Eval.freshMachine w library).Scripted where
  world := hw
  scope := .own (by simp [Eval.freshMachine, Scope.values])
  this := by simp [Eval.freshMachine]
  library := hlibrary
  root := hlibrary
  imports := by simp [Eval.freshMachine]

end Machine.Scripted

end Scripting
