import Scripting.Proofs.Contract.Faults
import Scripting.Proofs.Contract.Kind

/-
Machines in which every stored value is of a kind: plain in cells, modules and `this`, plain or an
alias in a variable. Each step that evaluation is made of leads from such a machine to another.
-/
namespace Scripting

namespace Scope

theorem mem_of_find? {s : Scope} {name : Text} {e : Entry} (h : s.find? name = some e) : e ∈ s := by
  induction s with
  | nil => simp [find?] at h
  | cons entry rest ih =>
    simp only [find?] at h
    split at h
    · cases h
      exact List.mem_cons_self
    · exact List.mem_cons_of_mem _ (ih h)

theorem mem_modify {s : Scope} {name : Text} {f : Entry → Entry} {e : Entry}
    (h : e ∈ s.modify name f) : e ∈ s ∨ ∃ old ∈ s, e = f old := by
  induction s with
  | nil => simp [modify] at h
  | cons entry rest ih =>
    simp only [modify] at h
    split at h
    · rcases List.mem_cons.mp h with rfl | old
      · exact Or.inr ⟨entry, List.mem_cons_self, rfl⟩
      · exact Or.inl (List.mem_cons_of_mem _ old)
    · rcases List.mem_cons.mp h with rfl | later
      · exact Or.inl List.mem_cons_self
      · rcases ih later with old | ⟨old, mem, eq⟩
        · exact Or.inl (List.mem_cons_of_mem _ old)
        · exact Or.inr ⟨old, List.mem_cons_of_mem _ mem, eq⟩

theorem value_mem_setValue {s : Scope} {name : Text} {v : Value} {e : Entry}
    (h : e ∈ s.setValue name v) : e.value = v ∨ ∃ old ∈ s, e.value = old.value := by
  rcases mem_modify h with old | ⟨old, -, rfl⟩
  · exact Or.inr ⟨e, old, rfl⟩
  · exact Or.inl rfl

end Scope

theorem Eval.mem_bindParams {params : List Text} {args : List Value} {s : Scope} {e : Entry}
    (h : e ∈ Eval.bindParams params args s) : e ∈ s ∨ e.value ∈ args := by
  induction params generalizing args s with
  | nil => exact Or.inl h
  | cons name rest ih =>
    cases args with
    | nil => exact Or.inl h
    | cons v vs =>
      rcases ih (s := s.push name v false) h with here | later
      · rcases List.mem_cons.mp here with rfl | old
        · exact Or.inr List.mem_cons_self
        · exact Or.inl old
      · exact Or.inr (List.mem_cons_of_mem _ later)

namespace Store

variable {P : Value → Prop}

theorem put_value {s : Store} {c : Nat} {cell : Cell} (h : cell.value = (s.cell c).value) (d : Nat) :
    ((s.put c cell).cell d).value = (s.cell d).value := by
  by_cases same : d = c
  · subst same
    by_cases inside : d < s.size
    · rw [cell_put_self inside, h]
    · have outside : ¬ d < s.cells.size := inside
      simp [put, Store.cell, outside]
  · rw [cell_put_of_ne same]

theorem beginWrite_value {s s' : Store} {c : Nat} {name : Text} {pos : Position}
    (h : s.beginWrite c name pos = .ok s') (d : Nat) : (s'.cell d).value = (s.cell d).value := by
  unfold beginWrite at h
  dsimp only at h
  split at h
  · cases h
  · cases h
    exact put_value (by rfl) d

theorem endWrite_value (s : Store) (c d : Nat) : ((s.endWrite c).cell d).value = (s.cell d).value :=
  put_value (by rfl) d

theorem setValue_plain {s : Store} (h : ∀ c, P (s.cell c).value) (c : Nat) {v : Value}
    (hv : P v) : ∀ d, P ((s.setValue c v).cell d).value := by
  intro d
  by_cases same : d = c
  · subst same
    by_cases inside : d < s.size
    · rw [setValue, cell_put_self inside]
      exact hv
    · have outside : ¬ d < s.cells.size := inside
      have value : P (s.cell d).value := h d
      simpa [setValue, put, Store.cell, outside] using value
  · rw [setValue, cell_put_of_ne same]
    exact h d

theorem alloc_plain {s : Store} (h : ∀ c, P (s.cell c).value) (unit : P .unit) {v : Value}
    (hv : P v) : ∀ d, P ((s.alloc v).1.cell d).value := by
  intro d
  by_cases old : d < s.size
  · rw [cell_alloc_old old]
    exact h d
  · by_cases new : d = s.size
    · subst new
      have here := cell_alloc_new s v
      have at_end : (s.alloc v).1.cell s.size = ⟨v, 0, false⟩ := here
      rw [at_end]
      exact hv
    · have outside : (s.alloc v).1.cells[d]? = none := by
        apply Array.getElem?_eq_none
        have size : (s.alloc v).1.cells.size = s.size + 1 := size_alloc s v
        omega
      simp only [cell, outside]
      exact unit

theorem share_plain {s : Store} (h : ∀ c, P (s.cell c).value) (unit : P .unit) {v : Value}
    (hv : v.isShared = true ∨ P v) : ∀ d, P ((s.share v).1.cell d).value := by
  cases v with
  | shared c => exact h
  | _ =>
    rcases hv with shared | plain
    · cases shared
    · exact alloc_plain h unit plain

theorem isShared_share (s : Store) (v : Value) : (s.share v).2.isShared = true := by
  cases v <;> rfl

theorem flatten_plain {s : Store} (h : ∀ c, P (s.cell c).value) {fuel : Nat} {v w : Value}
    (hv : v.isShared = true ∨ P v) (eq : s.flatten fuel v = .ok w) : P w := by
  induction fuel generalizing v with
  | zero => cases eq
  | succ n ih =>
    cases v with
    | shared c =>
      unfold flatten read at eq
      split at eq
      · cases eq
      · exact ih (Or.inr (h c)) eq
    | _ =>
      cases eq
      rcases hv with shared | plain
      · cases shared
      · exact plain

end Store

structure World.Tidy (K : Stock) (w : World) : Prop where
  cells : ∀ c, K.plain (w.store.cell c).value
  table : ∀ e ∈ w.table, e.2.Fair K
  loaded : ∀ e ∈ w.loaded, e.2.Fair K

structure Machine.Tidy (K : Stock) (m : Machine) : Prop where
  world : m.world.Tidy K
  scope : ∀ e ∈ m.scope, K.passes e.value
  this : ∀ v, m.this = some v → K.plain v
  library : m.library.Fair K
  root : m.root.Fair K
  imports : ∀ e ∈ m.imports, e.2.Fair K

namespace World

variable {K : Stock} {w : World}

theorem tidy_all (w : World) : w.Tidy Kind.all :=
  ⟨fun _ => trivial, fun e _ => Module.fair_all e.2, fun e _ => Module.fair_all e.2⟩

theorem Tidy.withStore (h : w.Tidy K) {s : Store} (cells : ∀ c, K.plain (s.cell c).value) :
    World.Tidy K { w with store := s } := ⟨cells, h.table, h.loaded⟩

theorem Tidy.load (h : w.Tidy K) {found : Module} (fair : found.Fair K) (shelf : Shelf) :
    World.Tidy K { w with loaded := w.loaded.insert shelf found } := by
  refine ⟨h.cells, h.table, ?_⟩
  intro e he
  rcases Dict.mem_insert he with rfl | old
  · exact fair
  · exact h.loaded e old

end World

namespace Machine

variable {K : Stock} {m n : Machine}

theorem tidy_all (m : Machine) : m.Tidy Kind.all where
  world := World.tidy_all m.world
  scope _ _ := Or.inr trivial
  this _ _ := trivial
  library := Module.fair_all m.library
  root := Module.fair_all m.root
  imports e _ := Module.fair_all e.2

theorem Tidy.withWorld (h : m.Tidy K) {w : World} (hw : w.Tidy K) :
    Machine.Tidy K { m with world := w } :=
  ⟨hw, h.scope, h.this, h.library, h.root, h.imports⟩

theorem Tidy.withScope (h : m.Tidy K) {s : Scope} (hs : ∀ e ∈ s, K.passes e.value) :
    Machine.Tidy K { m with scope := s } :=
  ⟨h.world, hs, h.this, h.library, h.root, h.imports⟩

theorem Tidy.withStore (h : m.Tidy K) {s : Store} (cells : ∀ c, K.plain (s.cell c).value) :
    (m.withStore s).Tidy K :=
  h.withWorld (h.world.withStore cells)

theorem Tidy.setVariable (h : m.Tidy K) (name : Text) {v : Value} (hv : K.passes v) :
    Machine.Tidy K { m with scope := m.scope.setValue name v } := by
  refine h.withScope ?_
  intro e he
  rcases Scope.value_mem_setValue he with new | ⟨old, mem, same⟩
  · rw [new]
    exact hv
  · rw [same]
    exact h.scope old mem

theorem Tidy.share (h : m.Tidy K) {name : Text} {e : Entry} (found : m.scope.find? name = some e) :
    Machine.Tidy K { m.withStore (m.store.share e.value).1 with
      scope := m.scope.setValue name (m.store.share e.value).2 } := by
  have value : K.passes e.value := h.scope e (Scope.mem_of_find? found)
  have stored := h.withStore (Store.share_plain h.world.cells K.plain_unit value)
  exact stored.setVariable name (Or.inl (Store.isShared_share m.store e.value))

theorem Tidy.setThis (h : m.Tidy K) {v : Value} (hv : K.plain v) :
    Machine.Tidy K { m with this := some v } := by
  refine ⟨h.world, h.scope, ?_, h.library, h.root, h.imports⟩
  intro w eq
  cases eq
  exact hv

theorem Tidy.openCell (h : m.Tidy K) {s : Store} {c : Nat} {name : Text} {pos : Position}
    (locked : m.store.beginWrite c name pos = .ok s) : (m.withStore s).Tidy K := by
  refine h.withStore ?_
  intro d
  rw [Store.beginWrite_value locked d]
  exact h.world.cells d

theorem Tidy.closeCell (h : m.Tidy K) (c : Nat) {v : Value} (hv : K.plain v) :
    (m.withStore ((m.store.setValue c v).endWrite c)).Tidy K := by
  refine h.withStore ?_
  intro d
  rw [Store.endWrite_value]
  exact Store.setValue_plain h.world.cells c hv d

theorem Tidy.rewind (h : m.Tidy K) (entries imports : Nat) : (m.rewind entries imports).Tidy K :=
  ⟨h.world, fun e he => h.scope e (List.mem_of_mem_drop he), h.this, h.library, h.root,
    fun e he => h.imports e (List.mem_of_mem_drop he)⟩

theorem Tidy.push (h : m.Tidy K) (name : Text) {v : Value} (hv : K.passes v) (isConst : Bool) :
    Machine.Tidy K { m with scope := m.scope.push name v isConst } := by
  refine h.withScope ?_
  intro e he
  rcases List.mem_cons.mp he with rfl | old
  · exact hv
  · exact h.scope e old

theorem Tidy.mark (h : m.Tidy K) (name : Text) (as : Option Text) :
    Machine.Tidy K { m with scope := m.scope.modify name fun e => { e with exported := as } } := by
  refine h.withScope ?_
  intro e he
  rcases Scope.mem_modify he with old | ⟨old, mem, rfl⟩
  · exact h.scope e old
  · exact h.scope old mem

theorem Tidy.bind (h : m.Tidy K) (name : Text) {found : Module} (fair : found.Fair K) :
    Machine.Tidy K { m with imports := (name, found) :: m.imports } := by
  refine ⟨h.world, h.scope, h.this, h.library, h.root, ?_⟩
  intro e he
  rcases List.mem_cons.mp he with rfl | old
  · exact fair
  · exact h.imports e old

end Machine

end Scripting
