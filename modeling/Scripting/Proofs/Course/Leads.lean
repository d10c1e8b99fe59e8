import Scripting.Proofs.Course.Act

/-
Acts that lead from one machine to another and leave nothing waiting. They are put together as
evaluations are: one after the other, as a block, as a call, or as the script of a module.
-/
namespace Scripting

/-- What is true of every moment of a run as seen from an earlier one, also inside of a call. -/
structure Machine.Since (m n : Machine) : Prop where
  operations : m.operations ≤ n.operations
  nextClosure : m.world.nextClosure ≤ n.world.nextClosure
  loading : n.world.loading = m.world.loading
  sources : n.world.sources = m.world.sources
  table : n.world.table = m.world.table
  loaded : ∀ shelf found, m.world.loaded.find? shelf = some found →
    n.world.loaded.find? shelf = some found
  root : n.root = m.root

/-- What is true of the end of an evaluation as seen from its start. -/
structure Machine.Onward (m n : Machine) : Prop extends Machine.Since m n where
  library : n.library = m.library
  imports : m.imports <:+ n.imports

namespace Machine

variable {m n o : Machine}

theorem Since.trans (h : m.Since n) (h' : n.Since o) : m.Since o where
  operations := Nat.le_trans h.operations h'.operations
  nextClosure := Nat.le_trans h.nextClosure h'.nextClosure
  loading := h'.loading.trans h.loading
  sources := h'.sources.trans h.sources
  table := h'.table.trans h.table
  loaded shelf found there := h'.loaded shelf found (h.loaded shelf found there)
  root := h'.root.trans h.root

theorem since_refl (m : Machine) : m.Since m :=
  ⟨Nat.le_refl _, Nat.le_refl _, rfl, rfl, rfl, fun _ _ there => there, rfl⟩

theorem Onward.trans (h : m.Onward n) (h' : n.Onward o) : m.Onward o :=
  ⟨h.toSince.trans h'.toSince, h'.library.trans h.library, h.imports.trans h'.imports⟩

theorem onward_refl (m : Machine) : m.Onward m := ⟨since_refl m, rfl, List.suffix_refl _⟩

theorem onward_inside (m : Machine) (store : Store) (scope : Scope) (this : Option Value) :
    m.Onward { m.withStore store with scope, this } :=
  ⟨⟨Nat.le_refl _, Nat.le_refl _, rfl, rfl, rfl, fun _ _ there => there, rfl⟩, rfl,
    List.suffix_refl _⟩

theorem onward_idle (m : Machine) {operations nextClosure : Nat} (counted : m.operations ≤ operations)
    (numbered : m.world.nextClosure ≤ nextClosure) (progress : Nat) (messages : List Message) :
    m.Onward (m.idle operations progress nextClosure messages m.world.loading) :=
  ⟨⟨counted, numbered, rfl, rfl, rfl, fun _ _ there => there, rfl⟩, rfl, List.suffix_refl _⟩

theorem onward_bind (m : Machine) (e : Text × Module) :
    m.Onward { m with imports := e :: m.imports } :=
  ⟨⟨Nat.le_refl _, Nat.le_refl _, rfl, rfl, rfl, fun _ _ there => there, rfl⟩, rfl,
    List.suffix_cons _ _⟩

theorem since_enter (m : Machine) (scope : Scope) (library : Module) (this : Option Value) :
    m.Since (m.enter scope library this) :=
  ⟨Nat.le_refl _, Nat.le_refl _, rfl, rfl, rfl, fun _ _ there => there, rfl⟩

theorem Onward.drop_imports (h : m.Onward n) :
    n.imports.drop (n.imports.length - m.imports.length) = m.imports :=
  (List.suffix_iff_eq_drop.mp h.imports).symm

theorem Onward.rewind (h : m.Onward n) (entries : Nat) :
    m.Onward (n.rewind entries m.imports.length) := by
  refine ⟨⟨h.operations, h.nextClosure, h.loading, h.sources, h.table, h.loaded, h.root⟩, h.library,
    ?_⟩
  change m.imports <:+ n.imports.drop (n.imports.length - m.imports.length)
  simp only [h.drop_imports, List.suffix_refl]

theorem Onward.leave {scope : Scope} {library : Module} {this : Option Value}
    (h : (m.enter scope library this).Onward n) : m.Onward (m.leave n) := by
  refine ⟨⟨h.operations, h.nextClosure, h.loading, h.sources, h.table, h.loaded, h.root⟩, rfl, ?_⟩
  change m.imports <:+ n.imports.drop (n.imports.length - m.imports.length)
  have imports := h.drop_imports
  change n.imports.drop (n.imports.length - m.imports.length) = m.imports at imports
  simp only [imports, List.suffix_refl]

theorem Onward.rejoin {shelf : Shelf} {script : Script} {next : Nat}
    (h : (m.embark shelf script next).Onward n) (later : m.world.nextClosure ≤ next) :
    m.Onward (m.rejoin n shelf) where
  operations := Nat.le_refl _
  nextClosure := Nat.le_trans later h.nextClosure
  loading := by
    have loading : n.world.loading = shelf :: m.world.loading := h.loading
    simp [Machine.rejoin, loading]
  sources := h.sources
  table := h.table
  loaded := h.loaded
  root := rfl
  library := rfl
  imports := List.suffix_refl _

theorem Onward.load (h : m.Onward n) {shelf : Shelf} (absent : m.world.loaded.find? shelf = none)
    (found : Module) : m.Onward (n.load shelf found) := by
  refine ⟨⟨h.operations, h.nextClosure, h.loading, h.sources, h.table, ?_, h.root⟩, h.library,
    h.imports⟩
  intro other kept there
  have ne : other ≠ shelf := by
    rintro rfl
    rw [absent] at there
    cases there
  change (n.world.loaded.insert shelf found).find? other = some kept
  rw [Dict.find?_insert_of_ne ne]
  exact h.loaded other kept there

theorem Reaches.onward (h : m.Onward n) {found : Module} (reaches : m.Reaches found) :
    n.Reaches found := by
  induction reaches with
  | library => exact h.library ▸ .library
  | root => exact h.root ▸ .root
  | imported there => exact .imported (h.imports.subset there)
  | table there => exact .table (h.table ▸ there)
  | loaded there => exact .loaded (h.loaded _ _ there)
  | inner _ there ih => exact .inner ih there

abbrev alone (m : Machine) : Standing := ⟨m, []⟩

end Machine

namespace Course

variable {engine : Engine} (C : Course engine)

/-- Acts that lead from `m` to `n`. -/
structure Leads (m : Machine) (acts : List Act) (n : Machine) : Prop where
  lawful : C.Lawful m.alone acts
  ends : m.alone.after acts = n.alone
  onward : m.Onward n

variable {C} {m n o : Machine} {acts more : List Act}

theorem leads_nil (m : Machine) : C.Leads m [] m := ⟨trivial, rfl, m.onward_refl⟩

namespace Leads

theorem append (h : C.Leads m acts n) (h' : C.Leads n more o) : C.Leads m (acts ++ more) o := by
  refine ⟨lawful_append.mpr ⟨h.lawful, ?_⟩, ?_, h.onward.trans h'.onward⟩
  · rw [h.ends]
    exact h'.lawful
  · rw [Standing.after_append, h.ends]
    exact h'.ends

theorem act {a : Act} (fits : C.Fits a m.alone) (next : a.next m.alone = n.alone)
    (onward : m.Onward n) : C.Leads m [a] n :=
  ⟨⟨fits, trivial⟩, next, onward⟩

theorem tidy (h : C.Leads m acts n) (hm : m.Tidy C.custody) : n.Tidy C.custody := by
  have start : m.alone.Tidy C.custody := ⟨hm, by simp⟩
  obtain ⟨t, mem, eq⟩ := List.mem_map.mp (@Standing.mem_visits_after m.alone acts)
  have there : n.Tidy C.custody ↔ t.now.Tidy C.custody := by rw [eq, h.ends]
  exact there.mpr (h.lawful.tidy start t mem).now

theorem visits_left (_ : C.Leads m acts n) (more : List Act) :
    m.alone.visits acts ⊆ m.alone.visits (acts ++ more) :=
  Standing.visits_append_left

theorem visits_right (h : C.Leads m acts n) (more : List Act) :
    n.alone.visits more ⊆ m.alone.visits (acts ++ more) := by
  have later := @Standing.visits_append_right m.alone acts more
  rwa [h.ends] at later

/-- A block ends where it began, but for what was done to the variables that were there. -/
theorem block (h : C.Leads m acts n) (entries : Nat) :
    C.Leads m (acts ++ [.cut entries m.imports.length]) (n.rewind entries m.imports.length) := by
  refine ⟨lawful_append.mpr ⟨h.lawful, trivial, trivial⟩, ?_, h.onward.rewind entries⟩
  rw [Standing.after_append, h.ends]
  rfl

section

variable {scope : Scope} {library : Module} {this : Option Value}

theorem call (fits : C.Fits (.call scope library this) m.alone)
    (h : C.Leads (m.enter scope library this) acts n) :
    C.Leads m (.call scope library this :: (acts ++ [.back])) (m.leave n) := by
  obtain ⟨lawful, after, -⟩ := h.lawful.above [.caller m]
  rw [h.ends] at after
  refine ⟨⟨fits, lawful_append.mpr ⟨lawful, ?_⟩⟩, ?_, h.onward.leave⟩
  · have back : C.Fits .back (n.alone.above [.caller m]) := ⟨m, [], rfl⟩
    exact after ▸ ⟨back, trivial⟩
  · change Standing.after ((m.enter scope library this).alone.above [.caller m]) (acts ++ [.back]) = _
    rw [Standing.after_append, after]
    rfl

theorem visits_call (h : C.Leads (m.enter scope library this) acts n) :
    (m.enter scope library this).alone.visits acts ⊆
      m.alone.visits (.call scope library this :: (acts ++ [.back])) := by
  obtain ⟨-, -, visits⟩ := h.lawful.above [.caller m]
  rw [← visits]
  exact fun o ho => List.mem_cons_of_mem _ (Standing.visits_append_left ho)

end

section

variable {shelf : Shelf} {script : Script} {next : Nat} {found : Option Module}

theorem embark (fits : C.Fits (.begin shelf script next) m.alone)
    (later : m.world.nextClosure ≤ next)
    (h : C.Leads (m.embark shelf script next) acts n)
    (made : C.Fits (.finish found) ⟨n, [.importer m shelf]⟩) :
    C.Leads m (.begin shelf script next :: (acts ++ [.finish found]))
      (found.elim (m.rejoin n shelf) ((m.rejoin n shelf).load shelf)) := by
  obtain ⟨lawful, after, -⟩ := h.lawful.above [.importer m shelf]
  rw [h.ends] at after
  have absent : m.world.loaded.find? shelf = none := by
    obtain ⟨source, absent, -⟩ := fits
    exact absent
  refine ⟨⟨fits, lawful_append.mpr ⟨lawful, ?_⟩⟩, ?_, ?_⟩
  · exact after ▸ ⟨made, trivial⟩
  · change Standing.after ((m.embark shelf script next).alone.above [.importer m shelf])
      (acts ++ [.finish found]) = _
    rw [Standing.after_append, after]
    cases found <;> rfl
  · cases found with
    | none => exact h.onward.rejoin later
    | some found => exact (h.onward.rejoin later).load absent found

theorem visits_embark (h : C.Leads (m.embark shelf script next) acts n) :
    (m.embark shelf script next).alone.visits acts ⊆
      m.alone.visits (.begin shelf script next :: (acts ++ [.finish found])) := by
  obtain ⟨-, -, visits⟩ := h.lawful.above [.importer m shelf]
  rw [← visits]
  exact fun o ho => List.mem_cons_of_mem _ (Standing.visits_append_left ho)

end

end Leads

end Course

end Scripting
