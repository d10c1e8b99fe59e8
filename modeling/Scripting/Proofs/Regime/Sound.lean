import Scripting.Proofs.Code
import Scripting.Proofs.Contract.Discipline

/-
A regime: which values a run may store, which code keeps to that, and how it may be left. Unlike a
kind of values, a regime also looks at how large values are, and at the code that makes them.
-/
namespace Scripting

/-- `fits` looks at the size of a value only, `plain` at the value as a whole. Only pointers whose
name `lends` can carry aliases. -/
structure Regime (engine : Engine) where
  plain : Value → Prop
  fits : Value → Prop
  ordered : List (Text × Value) → Prop
  lends : Text → Prop
  atom : ∀ v : Value, v.isAtom = true → plain v
  string : ∀ t, plain (.string t) ↔ fits (.string t)
  array : ∀ items, plain (.array items) ↔ fits (.array items) ∧ ∀ v ∈ items, plain v
  map : ∀ entries, plain (.map entries) ↔
    fits (.map entries) ∧ ordered entries ∧ ∀ e ∈ entries, plain (.string e.1) ∧ plain e.2
  fn : ∀ name curry, plain (.fn name curry) ↔
    ∀ v ∈ curry, plain v ∨ v.isShared = true ∧ lends name
  shared : ∀ c, plain (.shared c) → ∀ v, plain v
  resized : ∀ {xs ys : List Value}, xs.length = ys.length → fits (.array ys) → fits (.array xs)
  empty : ordered []
  inserted : ∀ {es key v}, ordered es → ordered (Dict.insert key v es)
  erased : ∀ {es key}, ordered es → ordered (Dict.erase key es)
  replaced : ∀ {es key v w}, ordered es → Dict.find? key es = some w → fits (.map es) →
    fits (.map (Dict.insert key v es))
  checked : ∀ v pos, Eval.checkSize engine v pos = .ok () → fits v
  typeNames : ∀ t, plain (.string (engine.typeName t))
  /-- No native goes by the name of a pointer that carries aliases. -/
  unnamed : ∀ name, lends name → ∀ types method, engine.native? name types method = none
  natives : ∀ m ∈ engine.nativeModules, ∀ f ∈ m.functions, ∀ n, f.2.body = .native n →
    (∃ g, n = .core g) ∨ ∀ v, plain v

namespace Regime

variable {engine : Engine} (R : Regime engine)

def passes (v : Value) : Prop := v.isShared = true ∨ R.plain v

def nearly (v : Value) : Prop := R.fits v → R.plain v

def roomy : Prop := (∀ t, R.fits (.string t)) ∧ ∀ entries, R.fits (.map entries)

/-- What code must look like to store plain values only: its literals are plain, its closures lend
what they capture, and it makes no entries in containers that are not to grow. -/
def rule : Rule
  | _, .expr (.string _ t) => R.plain (.string t)
  | _, .expr (.map _ entries) => ∀ e ∈ entries, R.plain (.string e.1)
  | _, .expr (.closure _ name captured) => captured = [] ∨ R.lends name ∨ ∀ v, R.plain v
  | _, .stmt (.assign _ _ target _) => target.isPart = false ∨ R.roomy
  | looping, .stmt (.breakLoop _) => looping = true
  | looping, .stmt (.continueLoop _) => looping = true
  | _, _ => True

variable {R}

theorem passes_of_plain {v : Value} (h : R.plain v) : R.passes v := Or.inr h

theorem plain_of_passes {v : Value} (h : R.passes v) (unshared : v.isShared = false) : R.plain v := by
  rcases h with shared | plain
  · rw [unshared] at shared
    cases shared
  · exact plain

theorem nearly_of_plain {v : Value} (h : R.plain v) : R.nearly v := fun _ => h

theorem nearly_string (t : Text) : R.nearly (.string t) := (R.string t).mpr

theorem nearly_array {items : List Value} (h : ∀ v ∈ items, R.plain v) : R.nearly (.array items) :=
  fun fits => (R.array items).mpr ⟨fits, h⟩

theorem items_plain {items : List Value} (h : R.plain (.array items)) : ∀ v ∈ items, R.plain v :=
  ((R.array items).mp h).2

theorem entries_plain {entries : List (Text × Value)} (h : R.plain (.map entries)) :
    ∀ e ∈ entries, R.plain (.string e.1) ∧ R.plain e.2 :=
  ((R.map entries).mp h).2.2

theorem entry_plain {entries : List (Text × Value)} (h : R.plain (.map entries)) {key : Text}
    {v : Value} (found : Dict.find? key entries = some v) : R.plain (.string key) ∧ R.plain v :=
  entries_plain h _ (Dict.mem_of_find? found)

variable (R)

theorem plain_unit : R.plain .unit := R.atom _ rfl

theorem plain_bool (b : Bool) : R.plain (.bool b) := R.atom _ rfl

theorem plain_char (c : CodePoint) : R.plain (.char c) := R.atom _ rfl

variable {R}

theorem plain_set {items : List Value} (h : R.plain (.array items)) (i : Nat) {v : Value}
    (hv : R.plain v) : R.plain (.array (items.set i v)) := by
  obtain ⟨fits, plain⟩ := (R.array items).mp h
  refine (R.array _).mpr ⟨R.resized (by simp) fits, ?_⟩
  intro w hw
  rcases List.mem_or_eq_of_mem_set hw with old | rfl
  · exact plain w old
  · exact hv

theorem entries_insert {entries : List (Text × Value)}
    (h : ∀ e ∈ entries, R.plain (.string e.1) ∧ R.plain e.2) {key : Text}
    (hkey : R.plain (.string key)) {v : Value} (hv : R.plain v) :
    ∀ e ∈ Dict.insert key v entries, R.plain (.string e.1) ∧ R.plain e.2 := by
  intro e he
  rcases Dict.mem_insert he with rfl | old
  · exact ⟨hkey, hv⟩
  · exact h e old

/-- An entry that is there can always be replaced; a new one needs room. -/
theorem plain_insert {entries : List (Text × Value)} (h : R.plain (.map entries)) {key : Text}
    {v : Value} (hv : R.plain v) (room : (Dict.find? key entries).isSome = true ∨ R.roomy) :
    R.plain (.map (Dict.insert key v entries)) := by
  obtain ⟨fits, ordered, plain⟩ := (R.map entries).mp h
  refine (R.map _).mpr ⟨?_, R.inserted ordered, ?_⟩
  · rcases room with there | roomy
    · obtain ⟨w, found⟩ := Option.isSome_iff_exists.mp there
      exact R.replaced ordered found fits
    · exact roomy.2 _
  · rcases room with there | roomy
    · obtain ⟨w, found⟩ := Option.isSome_iff_exists.mp there
      exact entries_insert plain (entry_plain h found).1 hv
    · exact entries_insert plain ((R.string key).mpr (roomy.1 key)) hv

/-- A function of a module: a script function that obeys the rule, or a native one that is part of
the standard package wherever not every value is plain. -/
structure Sound (R : Regime engine) (f : Function) : Prop where
  script : ∀ g, f.body = .script g → g.Obeys R.rule
  native : ∀ n, f.body = .native n → (∃ g, n = .core g) ∨ ∀ v, R.plain v

end Regime

inductive Module.Sound {engine : Engine} (R : Regime engine) : Module → Prop where
  | intro {m : Module} (functions : ∀ f ∈ m.functions, R.Sound f.2)
      (values : ∀ e ∈ m.values, R.plain e.2) (modules : ∀ e ∈ m.modules, Module.Sound R e.2) :
      Module.Sound R m

section

variable {engine : Engine} {R : Regime engine}

namespace Module

variable {m : Module}

theorem Sound.functions (h : m.Sound R) : ∀ f ∈ m.functions, R.Sound f.2 := by
  cases h with
  | intro functions values modules => exact functions

theorem Sound.values (h : m.Sound R) : ∀ e ∈ m.values, R.plain e.2 := by
  cases h with
  | intro functions values modules => exact values

theorem Sound.modules (h : m.Sound R) : ∀ e ∈ m.modules, e.2.Sound R := by
  cases h with
  | intro functions values modules => exact modules

theorem Sound.scriptFn? (h : m.Sound R) {name : Text} {arity : Nat} {exposedOnly : Bool}
    {f : ScriptFn} (found : m.scriptFn? name arity exposedOnly = some f) : f.Obeys R.rule := by
  unfold Module.scriptFn? at found
  obtain ⟨g, hg, chosen⟩ := Option.bind_eq_some_iff.mp found
  split at chosen
  · cases chosen
  · have sound := h.functions _ (Dict.mem_of_find? hg)
    unfold Function.script? at chosen
    cases body : g.body with
    | native n =>
      rw [body] at chosen
      cases chosen
    | script s =>
      rw [body] at chosen
      cases chosen
      exact sound.script f body

theorem sound_empty : Module.Sound R {} := .intro (by simp) (by simp) (by simp)

theorem sound_library {script : Script} (h : script.Obeys R.rule) : script.library.Sound R := by
  refine .intro ?_ (by simp [Script.library, ofFunctions]) (by simp [Script.library, ofFunctions])
  intro f hf
  obtain ⟨⟨key, g⟩, mem, rfl⟩ := List.mem_map.mp hf
  refine ⟨?_, ?_⟩
  · intro g' body
    cases body
    exact h.functions _ mem
  · intro n body
    cases body

end Module

/-- The stored values of a world are plain, its modules are sound, and so is every script that one
of its sources compiles to. -/
structure World.Sound (R : Regime engine) (w : World) : Prop where
  cells : ∀ c, R.plain (w.store.cell c).value
  table : ∀ e ∈ w.table, e.2.Sound R
  loaded : ∀ e ∈ w.loaded, e.2.Sound R
  sources : ∀ e ∈ w.sources, ∀ nextClosure script next,
    engine.compile false [e.2] nextClosure = (.ok script, next) → script.Obeys R.rule

structure Machine.Sound (R : Regime engine) (m : Machine) : Prop where
  world : m.world.Sound R
  scope : ∀ e ∈ m.scope, R.passes e.value
  this : ∀ v, m.this = some v → R.plain v
  library : m.library.Sound R
  root : m.root.Sound R
  imports : ∀ e ∈ m.imports, e.2.Sound R

theorem World.Sound.withStore {w : World} (h : w.Sound R) {s : Store}
    (cells : ∀ c, R.plain (s.cell c).value) : World.Sound R { w with store := s } :=
  ⟨cells, h.table, h.loaded, h.sources⟩

theorem World.Sound.load {w : World} (h : w.Sound R) {found : Module} (sound : found.Sound R)
    (shelf : Shelf) : World.Sound R { w with loaded := w.loaded.insert shelf found } := by
  refine ⟨h.cells, h.table, ?_, h.sources⟩
  intro e he
  rcases Dict.mem_insert he with rfl | old
  · exact sound
  · exact h.loaded e old

namespace Machine

variable {m n : Machine}

theorem Sound.withWorld (h : m.Sound R) {w : World} (hw : w.Sound R) :
    Machine.Sound R { m with world := w } :=
  ⟨hw, h.scope, h.this, h.library, h.root, h.imports⟩

theorem Sound.withScope (h : m.Sound R) {s : Scope} (hs : ∀ e ∈ s, R.passes e.value) :
    Machine.Sound R { m with scope := s } :=
  ⟨h.world, hs, h.this, h.library, h.root, h.imports⟩

theorem Sound.withStore (h : m.Sound R) {s : Store} (cells : ∀ c, R.plain (s.cell c).value) :
    (m.withStore s).Sound R :=
  h.withWorld (h.world.withStore cells)

theorem Sound.setVariable (h : m.Sound R) (name : Text) {v : Value} (hv : R.passes v) :
    Machine.Sound R { m with scope := m.scope.setValue name v } := by
  refine h.withScope ?_
  intro e he
  rcases Scope.value_mem_setValue he with new | ⟨old, mem, same⟩
  · rw [new]
    exact hv
  · rw [same]
    exact h.scope old mem

theorem Sound.share (h : m.Sound R) {name : Text} {e : Entry} (found : m.scope.find? name = some e) :
    Machine.Sound R { m.withStore (m.store.share e.value).1 with
      scope := m.scope.setValue name (m.store.share e.value).2 } := by
  have value : R.passes e.value := h.scope e (Scope.mem_of_find? found)
  have stored := h.withStore (Store.share_plain h.world.cells R.plain_unit value)
  exact stored.setVariable name (Or.inl (Store.isShared_share m.store e.value))

theorem Sound.setThis (h : m.Sound R) {v : Value} (hv : R.plain v) :
    Machine.Sound R { m with this := some v } := by
  refine ⟨h.world, h.scope, ?_, h.library, h.root, h.imports⟩
  intro w eq
  cases eq
  exact hv

theorem Sound.openCell (h : m.Sound R) {s : Store} {c : Nat} {name : Text} {pos : Position}
    (locked : m.store.beginWrite c name pos = .ok s) : (m.withStore s).Sound R := by
  refine h.withStore ?_
  intro d
  rw [Store.beginWrite_value locked d]
  exact h.world.cells d

theorem Sound.closeCell (h : m.Sound R) (c : Nat) {v : Value} (hv : R.plain v) :
    (m.withStore ((m.store.setValue c v).endWrite c)).Sound R := by
  refine h.withStore ?_
  intro d
  rw [Store.endWrite_value]
  exact Store.setValue_plain h.world.cells c hv d

theorem Sound.rewind (h : m.Sound R) (entries imports : Nat) : (m.rewind entries imports).Sound R :=
  ⟨h.world, fun e he => h.scope e (List.mem_of_mem_drop he), h.this, h.library, h.root,
    fun e he => h.imports e (List.mem_of_mem_drop he)⟩

theorem Sound.push (h : m.Sound R) (name : Text) {v : Value} (hv : R.passes v) (isConst : Bool) :
    Machine.Sound R { m with scope := m.scope.push name v isConst } := by
  refine h.withScope ?_
  intro e he
  rcases List.mem_cons.mp he with rfl | old
  · exact hv
  · exact h.scope e old

theorem Sound.mark (h : m.Sound R) (name : Text) (as : Option Text) :
    Machine.Sound R { m with scope := m.scope.modify name fun e => { e with exported := as } } := by
  refine h.withScope ?_
  intro e he
  rcases Scope.mem_modify he with old | ⟨old, mem, rfl⟩
  · exact h.scope e old
  · exact h.scope old mem

theorem Sound.bind (h : m.Sound R) (name : Text) {found : Module} (sound : found.Sound R) :
    Machine.Sound R { m with imports := (name, found) :: m.imports } := by
  refine ⟨h.world, h.scope, h.this, h.library, h.root, ?_⟩
  intro e he
  rcases List.mem_cons.mp he with rfl | old
  · exact sound
  · exact h.imports e old

theorem Sound.idle (h : m.Sound R) (operations progress nextClosure : Nat) (messages : List Message)
    (loading : List Shelf) : (m.idle operations progress nextClosure messages loading).Sound R :=
  ⟨⟨h.world.cells, h.world.table, h.world.loaded, h.world.sources⟩, h.scope, h.this, h.library,
    h.root, h.imports⟩

theorem Sound.enter (h : m.Sound R) {scope : Scope} {library : Module} {this : Option Value}
    (hscope : ∀ e ∈ scope, R.passes e.value) (hlibrary : library.Sound R)
    (hthis : ∀ v, this = some v → R.plain v) : (m.enter scope library this).Sound R :=
  ⟨h.world, hscope, hthis, hlibrary, h.root, h.imports⟩

theorem Sound.leave (h : m.Sound R) (hn : n.Sound R) : (m.leave n).Sound R :=
  ⟨hn.world, h.scope, h.this, h.library, hn.root, fun e he => hn.imports e (List.mem_of_mem_drop he)⟩

theorem sound_fresh {w : World} {library : Module} (hw : w.Sound R) (hlibrary : library.Sound R) :
    (Eval.freshMachine w library).Sound R where
  world := hw
  scope := by simp [Eval.freshMachine]
  this := by simp [Eval.freshMachine]
  library := hlibrary
  root := hlibrary
  imports := by simp [Eval.freshMachine]

end Machine

end

end Scripting
