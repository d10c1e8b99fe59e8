import Scripting.Eval.Import
import Scripting.Proofs.Code
import Scripting.Proofs.Contract.Discipline
import Scripting.Proofs.Locks

/-
The course of an evaluation, act by act. An act changes the machine that is running, or starts
something that the machine then waits for: a call, or the script of a module. What an evaluation
does as a whole is a list of such acts, and what is true along every lawful list is proved from what
one act does.
-/
namespace Scripting

def Rule.lending (lends : Text → Prop) : Rule
  | _, .expr (.closure _ name captured) => captured = [] ∨ lends name
  | _, _ => True

/-- A stock in which only pointers whose name lends carry aliases. -/
structure Custody extends Stock where
  lends : Text → Prop
  fn : ∀ name curry, plain (.fn name curry) ↔ ∀ v ∈ curry, plain v ∨ v.isShared = true ∧ lends name
  lending : ∀ f, code f ↔ f.Obeys (Rule.lending lends)

instance : Coe Custody Stock := ⟨Custody.toStock⟩

/-- The modules that a machine can get at. -/
inductive Machine.Reaches (m : Machine) : Module → Prop where
  | library : Reaches m m.library
  | root : Reaches m m.root
  | imported {e : Text × Module} (h : e ∈ m.imports) : Reaches m e.2
  | table {shelf : Shelf} {found : Module} (h : m.world.table.find? shelf = some found) : Reaches m found
  | loaded {shelf : Shelf} {found : Module} (h : m.world.loaded.find? shelf = some found) :
      Reaches m found
  | inner {outer found : Module} {name : Text} (h : Reaches m outer)
      (there : outer.module? name = some found) : Reaches m found

theorem Machine.Reaches.fair {K : Stock} {m : Machine} (hm : m.Tidy K) {found : Module}
    (h : m.Reaches found) : found.Fair K := by
  induction h with
  | library => exact hm.library
  | root => exact hm.root
  | imported h => exact hm.imports _ h
  | table h => exact hm.world.table _ (Dict.mem_of_find? h)
  | loaded h => exact hm.world.loaded _ (Dict.mem_of_find? h)
  | inner _ there ih => exact ih.module? there

namespace Machine

def capture (m : Machine) (name : Text) : Machine :=
  match m.scope.find? name with
  | none => m
  | some e => { m.withStore (m.store.share e.value).1 with
      scope := m.scope.setValue name (m.store.share e.value).2 }

def lock (m : Machine) (c : Nat) : Machine :=
  m.withStore (m.store.put c { m.store.cell c with writer := true })

def write (m : Machine) (c : Nat) (v : Value) : Machine :=
  m.withStore ((m.store.setValue c v).endWrite c)

def embark (m : Machine) (shelf : Shelf) (script : Script) (next : Nat) : Machine :=
  Eval.freshMachine
    { m.world with loading := shelf :: m.world.loading, nextClosure := next } script.library

def rejoin (m n : Machine) (shelf : Shelf) : Machine :=
  { m with world := { n.world with loading := n.world.loading.erase shelf } }

def load (m : Machine) (shelf : Shelf) (found : Module) : Machine :=
  { m with world := { m.world with loaded := m.world.loaded.insert shelf found } }

end Machine

/-- A machine that waits for a call, or for the script of a module. -/
inductive Frame where
  | caller (m : Machine)
  | importer (m : Machine) (shelf : Shelf)

def Frame.machine : Frame → Machine
  | caller m => m
  | importer m _ => m

/-- The running machine and those that wait, the last one first. -/
structure Standing where
  now : Machine
  waiting : List Frame := []

inductive Act where
  /-- Count, report or number something. -/
  | idle (operations progress nextClosure : Nat) (messages : List Message)
  | capture (name : Text)
  | assign (name : Text) (v : Value)
  | setThis (v : Value)
  | lock (c : Nat)
  | write (c : Nat) (v : Value)
  | declare (name : Text) (v : Value) (isConst : Bool)
  | mark (name : Text) (as : Option Text)
  | bind (name : Text) (found : Module)
  /-- End a block. -/
  | cut (entries imports : Nat)
  | call (scope : Scope) (library : Module) (this : Option Value)
  | back
  /-- Start the script of a module. -/
  | begin (shelf : Shelf) (script : Script) (next : Nat)
  /-- End it, with a module or without one. -/
  | finish (found : Option Module)

namespace Act

def change : Act → Machine → Machine
  | idle o p c ms, m => m.idle o p c ms m.world.loading
  | capture name, m => m.capture name
  | assign name v, m => { m with scope := m.scope.setValue name v }
  | setThis v, m => { m with this := some v }
  | lock c, m => m.lock c
  | write c v, m => m.write c v
  | declare name v isConst, m => { m with scope := m.scope.push name v isConst }
  | mark name as, m => { m with scope := m.scope.modify name fun e => { e with exported := as } }
  | bind name found, m => { m with imports := (name, found) :: m.imports }
  | cut entries imports, m => m.rewind entries imports
  | _, m => m

def next : Act → Standing → Standing
  | call scope library this, ⟨m, waiting⟩ => ⟨m.enter scope library this, .caller m :: waiting⟩
  | back, ⟨n, .caller m :: waiting⟩ => ⟨m.leave n, waiting⟩
  | begin shelf script next, ⟨m, waiting⟩ => ⟨m.embark shelf script next, .importer m shelf :: waiting⟩
  | finish none, ⟨n, .importer m shelf :: waiting⟩ => ⟨m.rejoin n shelf, waiting⟩
  | finish (some found), ⟨n, .importer m shelf :: waiting⟩ =>
    ⟨(m.rejoin n shelf).load shelf found, waiting⟩
  | a, ⟨m, waiting⟩ => ⟨a.change m, waiting⟩

end Act

/-- What an evaluation keeps to: the values and the code it may hold, and the modules it makes. -/
structure Course (engine : Engine) where
  custody : Custody
  made : Text → Module → Prop

namespace Course

variable {engine : Engine} (C : Course engine)

/-- The acts that an evaluation may do. Whatever comes to be stored is plain, an alias is never
overwritten, and only scripts of modules that are neither loaded nor being loaded are started. -/
def Fits : Act → Standing → Prop
  | .idle operations _ nextClosure _, s =>
    s.now.operations ≤ operations ∧ s.now.world.nextClosure ≤ nextClosure
  | .capture name, s => ∃ e, s.now.scope.find? name = some e
  | .assign name v, s => ∃ e, s.now.scope.find? name = some e ∧ e.isConst = false ∧
      (v = e.value ∨ e.value.isShared = false ∧ C.custody.plain v)
  | .setThis v, _ => C.custody.plain v
  | .lock c, s => (s.now.store.cell c).lock = (0, false)
  | .write _ v, _ => C.custody.plain v
  | .declare _ v _, _ => C.custody.plain v
  | .mark .., _ => True
  | .bind _ found, s => s.now.Reaches found
  | .cut .., _ => True
  | .call scope library this, s => s.now.Reaches library ∧
      (∀ e ∈ scope, C.custody.passes e.value) ∧ ∀ v, this = some v → C.custody.plain v
  | .back, s => ∃ m waiting, s.waiting = .caller m :: waiting
  | .begin shelf script next, s => ∃ source, s.now.world.loaded.find? shelf = none ∧
      s.now.world.sources.find? shelf = some source ∧ shelf ∉ s.now.world.loading ∧
      engine.compile false [source] s.now.world.nextClosure = (.ok script, next) ∧
      script.Obeys (Rule.lending C.custody.lends)
  | .finish found, s => ∃ m shelf waiting, s.waiting = .importer m shelf :: waiting ∧
      ∀ module, found = some module → module.functions = s.now.library.functions ∧
        (∀ e ∈ module.values, C.custody.plain e.2) ∧ (∀ e ∈ module.modules, e ∈ s.now.imports) ∧
        ∃ source, m.world.sources.find? shelf = some source ∧ C.made source module

/-- A list of acts that can be done one after the other. -/
def Lawful : Standing → List Act → Prop
  | _, [] => True
  | s, a :: rest => C.Fits a s ∧ Lawful (a.next s) rest

end Course

def Standing.after : Standing → List Act → Standing
  | s, [] => s
  | s, a :: rest => (a.next s).after rest

def Standing.passed : Standing → List Act → List Standing
  | s, [] => [s]
  | s, a :: rest => s :: (a.next s).passed rest

def Standing.visits (s : Standing) (acts : List Act) : List Machine :=
  (s.passed acts).map Standing.now

namespace Standing

variable {s : Standing} {acts more : List Act}

theorem after_append : s.after (acts ++ more) = (s.after acts).after more := by
  induction acts generalizing s with
  | nil => rfl
  | cons a rest ih => exact ih

theorem visits_append_left : s.visits acts ⊆ s.visits (acts ++ more) := by
  induction acts generalizing s with
  | nil => cases more <;> simp [visits, passed]
  | cons a rest ih =>
    intro m hm
    rcases List.mem_cons.mp hm with rfl | later
    · exact List.mem_cons_self
    · exact List.mem_cons_of_mem _ (ih later)

theorem visits_append_right : (s.after acts).visits more ⊆ s.visits (acts ++ more) := by
  induction acts generalizing s with
  | nil => exact fun _ hm => hm
  | cons a rest ih => exact fun m hm => List.mem_cons_of_mem _ (ih hm)

theorem mem_visits_start : s.now ∈ s.visits acts := by
  cases acts with
  | nil => exact List.mem_cons_self
  | cons a rest => exact List.mem_cons_self

theorem mem_passed_after : s.after acts ∈ s.passed acts := by
  induction acts generalizing s with
  | nil => exact List.mem_cons_self
  | cons a rest ih => exact List.mem_cons_of_mem _ ih

theorem mem_visits_after : (s.after acts).now ∈ s.visits acts :=
  List.mem_map_of_mem mem_passed_after

def above (s : Standing) (base : List Frame) : Standing := ⟨s.now, s.waiting ++ base⟩

end Standing

namespace Course

variable {engine : Engine} {C : Course engine} {s : Standing} {a : Act} {acts more : List Act}

theorem lawful_append :
    C.Lawful s (acts ++ more) ↔ C.Lawful s acts ∧ C.Lawful (s.after acts) more := by
  induction acts generalizing s with
  | nil => simp [Lawful, Standing.after]
  | cons a rest ih => simp [Lawful, Standing.after, ih, and_assoc]

/-- An act that fits never ends what was waiting before it could start anything. -/
theorem Fits.above (h : C.Fits a s) (base : List Frame) :
    C.Fits a (s.above base) ∧ a.next (s.above base) = (a.next s).above base := by
  obtain ⟨now, waiting⟩ := s
  cases a with
  | back =>
    obtain ⟨m, rest, eq⟩ := h
    cases eq
    exact ⟨⟨m, rest ++ base, rfl⟩, rfl⟩
  | finish found =>
    obtain ⟨m, shelf, rest, eq, module⟩ := h
    cases eq
    refine ⟨⟨m, shelf, rest ++ base, rfl, module⟩, ?_⟩
    cases found <;> rfl
  | _ => exact ⟨h, rfl⟩

theorem Lawful.above (h : C.Lawful s acts) (base : List Frame) :
    C.Lawful (s.above base) acts ∧ (s.above base).after acts = (s.after acts).above base ∧
      (s.above base).visits acts = s.visits acts := by
  induction acts generalizing s with
  | nil => exact ⟨trivial, rfl, rfl⟩
  | cons a rest ih =>
    obtain ⟨fits, next⟩ := h.1.above base
    obtain ⟨lawful, after, visits⟩ := ih h.2
    unfold Lawful Standing.after Standing.visits Standing.passed
    rw [next]
    exact ⟨⟨fits, lawful⟩, after, congrArg (s.now :: ·) visits⟩

end Course

structure Standing.Tidy (K : Stock) (s : Standing) : Prop where
  now : s.now.Tidy K
  waiting : ∀ f ∈ s.waiting, f.machine.Tidy K

namespace Machine

variable {K : Stock} {m n : Machine}

theorem Tidy.capture (h : m.Tidy K) (name : Text) : (m.capture name).Tidy K := by
  unfold Machine.capture
  split
  · exact h
  · next e found => exact h.share found

theorem Tidy.lock (h : m.Tidy K) (c : Nat) : (m.lock c).Tidy K := by
  apply h.withStore
  intro d
  have same : ((m.lock c).store.cell d).value = (m.store.cell d).value := Store.put_value (by rfl) d
  exact same ▸ h.world.cells d

theorem Tidy.embark (h : m.Tidy K) (shelf : Shelf) {script : Script} (fair : script.library.Fair K)
    (next : Nat) : (m.embark shelf script next).Tidy K :=
  tidy_fresh ⟨h.world.cells, h.world.table, h.world.loaded⟩ fair

theorem Tidy.rejoin (h : m.Tidy K) (hn : n.Tidy K) (shelf : Shelf) : (m.rejoin n shelf).Tidy K :=
  h.withWorld ⟨hn.world.cells, hn.world.table, hn.world.loaded⟩

end Machine

theorem Script.Obeys.fair {C : Custody} {script : Script} (h : script.Obeys (Rule.lending C.lends)) :
    script.library.Fair C :=
  Module.fair_ofCode fun f hf => (C.lending f.2).mpr (h.functions f hf)

namespace Course

variable {engine : Engine} {C : Course engine} {s : Standing} {a : Act} {acts : List Act}

theorem Fits.tidy (h : C.Fits a s) (tidy : s.Tidy C.custody) : (a.next s).Tidy C.custody := by
  obtain ⟨now, waiting⟩ := s
  obtain ⟨hnow, hwaiting⟩ := tidy
  dsimp only at hnow hwaiting
  cases a with
  | idle o p c ms => exact ⟨hnow.idle o p c ms _, hwaiting⟩
  | capture name => exact ⟨hnow.capture name, hwaiting⟩
  | assign name v =>
    obtain ⟨e, found, -, value⟩ := h
    have passes : C.custody.passes v := by
      rcases value with rfl | ⟨-, plain⟩
      · exact hnow.scope e (Scope.mem_of_find? found)
      · exact Stock.passes_of_plain plain
    exact ⟨hnow.setVariable name passes, hwaiting⟩
  | setThis v => exact ⟨hnow.setThis h, hwaiting⟩
  | lock c => exact ⟨hnow.lock c, hwaiting⟩
  | write c v => exact ⟨hnow.closeCell c h, hwaiting⟩
  | declare name v isConst => exact ⟨hnow.push name (Stock.passes_of_plain h) isConst, hwaiting⟩
  | mark name as => exact ⟨hnow.mark name as, hwaiting⟩
  | bind name found => exact ⟨hnow.bind name (h.fair hnow), hwaiting⟩
  | cut entries imports => exact ⟨hnow.rewind entries imports, hwaiting⟩
  | call scope library this =>
    obtain ⟨reaches, hscope, hthis⟩ := h
    exact ⟨hnow.enter hscope (reaches.fair hnow) hthis, List.forall_mem_cons.mpr ⟨hnow, hwaiting⟩⟩
  | back =>
    obtain ⟨m, rest, eq⟩ := h
    cases eq
    obtain ⟨hm, hrest⟩ := List.forall_mem_cons.mp hwaiting
    exact ⟨Machine.Tidy.leave hm hnow, hrest⟩
  | begin shelf script next =>
    obtain ⟨source, -, -, -, -, obeys⟩ := h
    exact ⟨hnow.embark shelf obeys.fair next, List.forall_mem_cons.mpr ⟨hnow, hwaiting⟩⟩
  | finish found =>
    obtain ⟨m, shelf, rest, eq, made⟩ := h
    cases eq
    obtain ⟨hm, hrest⟩ := List.forall_mem_cons.mp hwaiting
    have rejoined : (m.rejoin now shelf).Tidy C.custody := Machine.Tidy.rejoin hm hnow shelf
    cases found with
    | none => exact ⟨rejoined, hrest⟩
    | some found =>
      obtain ⟨functions, values, modules, -⟩ := made found rfl
      have fair : found.Fair C.custody := by
        refine .intro ?_ values fun e he => hnow.imports e (modules e he)
        rw [functions]
        exact hnow.library.functions
      exact ⟨rejoined.withWorld (rejoined.world.load fair shelf), hrest⟩

theorem Lawful.tidy (h : C.Lawful s acts) (tidy : s.Tidy C.custody) :
    ∀ t ∈ s.passed acts, t.Tidy C.custody := by
  induction acts generalizing s with
  | nil =>
    intro t ht
    rw [List.mem_singleton.mp ht]
    exact tidy
  | cons a rest ih =>
    intro t ht
    rcases List.mem_cons.mp ht with rfl | later
    · exact tidy
    · exact ih h.2 (h.1.tidy tidy) t later

end Course

end Scripting
