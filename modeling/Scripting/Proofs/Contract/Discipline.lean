import Scripting.Proofs.Contract.Tidy

/-
What is to be true of a machine throughout an evaluation, and between two moments of it. A
discipline names the property and the relation, and says that each step which evaluation is made of
respects them; that whole evaluations do is then proved once for all disciplines.
-/
namespace Scripting

namespace Machine

def enter (m : Machine) (scope : Scope) (library : Module) (this : Option Value) : Machine :=
  { m with scope, library, this, depth := m.depth + 1 }

def leave (m n : Machine) : Machine :=
  { n with
    scope := m.scope, library := m.library, this := m.this, depth := m.depth
    imports := n.imports.drop (n.imports.length - m.imports.length) }

def idle (m : Machine) (operations progress nextClosure : Nat) (messages : List Message)
    (loading : List Shelf) : Machine :=
  { m with operations, world := { m.world with progress, nextClosure, messages, loading } }

theorem Tidy.idle {K : Stock} {m : Machine} (h : m.Tidy K) (operations progress nextClosure : Nat)
    (messages : List Message) (loading : List Shelf) :
    (m.idle operations progress nextClosure messages loading).Tidy K :=
  ⟨⟨h.world.cells, h.world.table, h.world.loaded⟩, h.scope, h.this, h.library, h.root, h.imports⟩

theorem Tidy.enter {K : Stock} {m : Machine} (h : m.Tidy K) {scope : Scope} {library : Module}
    {this : Option Value} (hscope : ∀ e ∈ scope, K.passes e.value) (hlibrary : library.Fair K)
    (hthis : ∀ v, this = some v → K.plain v) : (m.enter scope library this).Tidy K :=
  ⟨h.world, hscope, hthis, hlibrary, h.root, h.imports⟩

theorem Tidy.leave {K : Stock} {m n : Machine} (h : m.Tidy K) (hn : n.Tidy K) :
    (m.leave n).Tidy K :=
  ⟨hn.world, h.scope, h.this, h.library, hn.root, fun e he => hn.imports e (List.mem_of_mem_drop he)⟩

theorem tidy_fresh {K : Stock} {w : World} {library : Module} (hw : w.Tidy K)
    (hlibrary : library.Fair K) : (Eval.freshMachine w library).Tidy K where
  world := hw
  scope := by simp [Eval.freshMachine]
  this := by simp [Eval.freshMachine]
  library := hlibrary
  root := hlibrary
  imports := by simp [Eval.freshMachine]

end Machine

/-- `keeps` relates the two ends of an evaluation, `grows` those of some statements in a row, which
may declare variables and import modules. -/
structure Discipline (engine : Engine) (K : Kind) where
  holds : Machine → Prop
  keeps : Machine → Machine → Prop
  grows : Machine → Machine → Prop
  refl : ∀ m, keeps m m
  trans : ∀ {a b c}, keeps a b → keeps b c → keeps a c
  widen : ∀ {a b}, keeps a b → grows a b
  follow : ∀ {a b c}, grows a b → grows b c → grows a c
  idle : ∀ {m} o p c ms l, holds m → keeps m (m.idle o p c ms l) ∧ holds (m.idle o p c ms l)
  load : ∀ {m : Machine} shelf {found : Module}, holds m → found.Fair K →
    keeps m { m with world := { m.world with loaded := m.world.loaded.insert shelf found } } ∧
      holds { m with world := { m.world with loaded := m.world.loaded.insert shelf found } }
  /-- A variable is captured. -/
  share : ∀ {m : Machine} {name e}, holds m → m.scope.find? name = some e →
    keeps m { m.withStore (m.store.share e.value).1 with
        scope := m.scope.setValue name (m.store.share e.value).2 } ∧
      holds { m.withStore (m.store.share e.value).1 with
        scope := m.scope.setValue name (m.store.share e.value).2 }
  /-- A variable is written, after something ran that keeps the machine. An alias stays. -/
  assign : ∀ {m n : Machine} {name e v}, holds m → m.scope.find? name = some e →
    e.isConst = false → keeps m n → holds n → v = e.value ∨ e.value.isShared = false ∧ K.plain v →
    keeps m { n with scope := n.scope.setValue name v } ∧
      holds { n with scope := n.scope.setValue name v }
  setThis : ∀ {m n : Machine} {v}, holds m → m.this.isSome = true → keeps m n → holds n →
    K.plain v → keeps m { n with this := some v } ∧ holds { n with this := some v }
  openCell : ∀ {m : Machine} {c name pos s}, holds m → m.store.beginWrite c name pos = .ok s →
    holds (m.withStore s)
  closeCell : ∀ {m n : Machine} {c name pos s v}, holds m →
    m.store.beginWrite c name pos = .ok s → keeps (m.withStore s) n → holds n → K.plain v →
    keeps m (n.withStore ((n.store.setValue c v).endWrite c)) ∧
      holds (n.withStore ((n.store.setValue c v).endWrite c))
  /-- A block ends. -/
  rewind : ∀ {m n : Machine}, holds m → grows m n → holds n →
    keeps m (n.rewind m.scope.length m.imports.length) ∧
      holds (n.rewind m.scope.length m.imports.length)
  enter : ∀ {m : Machine} scope library this, holds m →
    (0 < engine.limits.callLevels → m.depth < engine.limits.callLevels) →
    holds (m.enter scope library this)
  leave : ∀ {m n : Machine} {scope library this}, holds m → keeps (m.enter scope library this) n →
    holds n → keeps m (m.leave n) ∧ holds (m.leave n)
  declare : ∀ {m : Machine} name v isConst, holds m → K.passes v →
    grows m { m with scope := m.scope.push name v isConst } ∧
      holds { m with scope := m.scope.push name v isConst }
  mark : ∀ {m : Machine} name as, holds m →
    keeps m { m with scope := m.scope.modify name fun e => { e with exported := as } } ∧
      holds { m with scope := m.scope.modify name fun e => { e with exported := as } }
  bind : ∀ {m : Machine} name found, holds m → found.Fair K →
    grows m { m with imports := (name, found) :: m.imports } ∧
      holds { m with imports := (name, found) :: m.imports }
  /-- A module is run on its own. -/
  isolate : ∀ {m : Machine} library, holds m → holds (Eval.freshMachine m.world library)
  rejoin : ∀ {m n : Machine} {library}, holds m → grows (Eval.freshMachine m.world library) n →
    holds n → keeps m { m with world := n.world } ∧ holds { m with world := n.world }

def Discipline.free (engine : Engine) (K : Kind) : Discipline engine K where
  holds _ := True
  keeps _ _ := True
  grows _ _ := True
  refl _ := trivial
  trans _ _ := trivial
  widen _ := trivial
  follow _ _ := trivial
  idle _ _ _ _ _ _ := ⟨trivial, trivial⟩
  load _ _ _ _ := ⟨trivial, trivial⟩
  share _ _ := ⟨trivial, trivial⟩
  assign _ _ _ _ _ _ := ⟨trivial, trivial⟩
  setThis _ _ _ _ _ := ⟨trivial, trivial⟩
  openCell _ _ := trivial
  closeCell _ _ _ _ _ := ⟨trivial, trivial⟩
  rewind _ _ _ := ⟨trivial, trivial⟩
  enter _ _ _ _ _ := trivial
  leave _ _ _ := ⟨trivial, trivial⟩
  declare _ _ _ _ _ := ⟨trivial, trivial⟩
  mark _ _ _ := ⟨trivial, trivial⟩
  bind _ _ _ _ := ⟨trivial, trivial⟩
  isolate _ _ := trivial
  rejoin _ _ _ := ⟨trivial, trivial⟩

end Scripting
