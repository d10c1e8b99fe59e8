import Mathlib.Data.Finset.Card
import Mathlib.Data.List.Perm.Subperm
import Scripting.Proofs.Course.Leads

/-
The scripts of modules along a course. What is being loaded are the shelves that a machine waits for,
one for each and no two the same; what is loaded was made from its script and stays, and while it is
there or on the way its script is not started again.
-/
namespace Scripting

namespace Shelf

theorem lt_iff {a b : Shelf} :
    a < b ↔ a.supplier < b.supplier ∨ a.supplier = b.supplier ∧ a.path < b.path := Iff.rfl

instance : Trans (· < · : Shelf → Shelf → Prop) (· < ·) (· < ·) where
  trans {a b c} first second := by
    rcases first with first | ⟨same, first⟩
    · rcases second with second | ⟨same, -⟩
      · exact .inl (Nat.lt_trans first second)
      · exact .inl (same ▸ first)
    · rcases second with second | ⟨same', second⟩
      · exact .inl (same ▸ second)
      · exact .inr ⟨same.trans same', List.lt_trans first second⟩

instance : Std.Irrefl (· < · : Shelf → Shelf → Prop) where
  irrefl a h := by
    rcases h with h | ⟨-, h⟩
    · exact Nat.lt_irrefl _ h
    · exact List.lt_irrefl _ h

instance : Std.Trichotomous (· < · : Shelf → Shelf → Prop) where
  trichotomous a b before after := by
    obtain ⟨first, path⟩ := a
    obtain ⟨second, path'⟩ := b
    rw [lt_iff, not_or] at before after
    obtain rfl : first = second := Nat.le_antisymm (Nat.not_lt.mp after.1) (Nat.not_lt.mp before.1)
    obtain rfl : path = path' := Std.le_antisymm
      (Std.not_lt.mp fun h => after.2 ⟨rfl, h⟩) (Std.not_lt.mp fun h => before.2 ⟨rfl, h⟩)
    rfl

end Shelf

def Frame.shelf? : Frame → Option Shelf
  | caller _ => none
  | importer _ shelf => some shelf

def Standing.shelves (s : Standing) : List Shelf := s.waiting.filterMap Frame.shelf?

def Act.begins (shelf : Shelf) : Act → Bool
  | .begin other _ _ => other == shelf
  | _ => false

def World.unstarted (w : World) : Finset Shelf :=
  (w.sources.map Prod.fst).toFinset \ w.loading.toFinset

theorem World.unstarted_lt {w w' : World} {shelf : Shelf} {source : Text}
    (written : w.sources.find? shelf = some source) (free : shelf ∉ w.loading)
    (sources : w'.sources = w.sources) (loading : w'.loading = shelf :: w.loading) :
    w'.unstarted.card < w.unstarted.card := by
  have there : shelf ∈ w.unstarted := by
    have key : shelf ∈ w.sources.map Prod.fst := List.mem_map.mpr ⟨_, Dict.mem_of_find? written, rfl⟩
    simp [unstarted, key, free]
  apply Finset.card_lt_card
  refine (Finset.ssubset_iff_of_subset ?_).mpr ⟨shelf, there, ?_⟩
  · intro other mem
    simp only [unstarted, sources, loading, Finset.mem_sdiff, List.mem_toFinset, List.mem_cons,
      not_or] at mem ⊢
    exact ⟨mem.1, mem.2.2⟩
  · simp [unstarted, loading]

namespace Course

variable {engine : Engine} (C : Course engine)

/-- What is true of the modules made from scripts at every moment; `busy` are those that were being
loaded before. -/
structure Loading (scripts : Dict Shelf Text) (busy : List Shelf) (s : Standing) : Prop where
  running : s.now.world.loading = s.shelves ++ busy
  nodup : s.shelves.Nodup
  registered : ∀ shelf ∈ s.shelves, ∃ source, scripts.find? shelf = some source
  pending : ∀ shelf ∈ s.shelves, s.now.world.loaded.find? shelf = none
  sources : s.now.world.sources = scripts
  waiting : ∀ f ∈ s.waiting, f.machine.world.sources = scripts
  ordered : Dict.Ordered s.now.world.loaded
  made : ∀ shelf found, s.now.world.loaded.find? shelf = some found →
    ∃ source, scripts.find? shelf = some source ∧ C.made source found

variable {C} {scripts : Dict Shelf Text} {busy : List Shelf} {s : Standing} {a : Act} {acts : List Act}

theorem loading_alone {m : Machine} (ordered : Dict.Ordered m.world.loaded)
    (made : ∀ shelf found, m.world.loaded.find? shelf = some found →
      ∃ source, m.world.sources.find? shelf = some source ∧ C.made source found) :
    C.Loading m.world.sources m.world.loading m.alone :=
  ⟨rfl, List.nodup_nil, by simp [Standing.shelves], by simp [Standing.shelves], rfl, by simp, ordered,
    made⟩

namespace Loading

theorem change (h : C.Loading scripts busy s) {m : Machine}
    (loading : m.world.loading = s.now.world.loading) (loaded : m.world.loaded = s.now.world.loaded)
    (same : m.world.sources = s.now.world.sources) : C.Loading scripts busy ⟨m, s.waiting⟩ where
  running := loading.trans h.running
  nodup := h.nodup
  registered := h.registered
  pending shelf mem := loaded ▸ h.pending shelf mem
  sources := same.trans h.sources
  waiting := h.waiting
  ordered := loaded ▸ h.ordered
  made shelf found there := h.made shelf found (loaded ▸ there)

theorem rejoin {now m : Machine} {shelf : Shelf} {rest : List Frame}
    (h : C.Loading scripts busy ⟨now, .importer m shelf :: rest⟩) :
    C.Loading scripts busy ⟨m.rejoin now shelf, rest⟩ := by
  have head : now.world.loading = shelf :: (Standing.shelves ⟨now, rest⟩ ++ busy) := h.running
  refine ⟨?_, (List.nodup_cons.mp h.nodup).2, (List.forall_mem_cons.mp h.registered).2,
    (List.forall_mem_cons.mp h.pending).2, h.sources, (List.forall_mem_cons.mp h.waiting).2, h.ordered,
    h.made⟩
  change now.world.loading.erase shelf = _
  rw [head, List.erase_cons_head]
  rfl

theorem load {m : Machine} {rest : List Frame} (h : C.Loading scripts busy ⟨m, rest⟩) {shelf : Shelf}
    {found : Module} (idle : shelf ∉ Standing.shelves ⟨m, rest⟩)
    (made : ∃ source, scripts.find? shelf = some source ∧ C.made source found) :
    C.Loading scripts busy ⟨m.load shelf found, rest⟩ := by
  refine ⟨h.running, h.nodup, h.registered, ?_, h.sources, h.waiting, h.ordered.insert shelf found, ?_⟩
  · intro other mem
    have ne : other ≠ shelf := fun eq => idle (eq ▸ mem)
    exact (Dict.find?_insert_of_ne ne _ _).trans (h.pending other mem)
  · intro other module there
    change (m.world.loaded.insert shelf found).find? other = some module at there
    by_cases same : other = shelf
    · subst same
      rw [Dict.find?_insert_self] at there
      cases there
      exact made
    · rw [Dict.find?_insert_of_ne same] at there
      exact h.made other module there

theorem next (h : C.Loading scripts busy s) (fits : C.Fits a s) : C.Loading scripts busy (a.next s) := by
  obtain ⟨now, waiting⟩ := s
  cases a with
  | idle o p c ms => exact h.change rfl rfl rfl
  | capture name =>
    have same : (now.capture name).world = { now.world with store := (now.capture name).store } := by
      unfold Machine.capture
      split <;> rfl
    apply h.change <;> exact same ▸ rfl
  | assign name v => exact h.change rfl rfl rfl
  | setThis v => exact h.change rfl rfl rfl
  | lock c => exact h.change rfl rfl rfl
  | write c v => exact h.change rfl rfl rfl
  | declare name v isConst => exact h.change rfl rfl rfl
  | mark name as => exact h.change rfl rfl rfl
  | bind name found => exact h.change rfl rfl rfl
  | cut entries imports => exact h.change rfl rfl rfl
  | call scope library this =>
    exact ⟨h.running, h.nodup, h.registered, h.pending, h.sources,
      List.forall_mem_cons.mpr ⟨h.sources, h.waiting⟩, h.ordered, h.made⟩
  | back =>
    obtain ⟨m, rest, eq⟩ := fits
    cases eq
    exact ⟨h.running, h.nodup, h.registered, h.pending, h.sources,
      (List.forall_mem_cons.mp h.waiting).2, h.ordered, h.made⟩
  | begin shelf script next =>
    obtain ⟨source, absent, written, free, -⟩ := fits
    have unseen : shelf ∉ Standing.shelves ⟨now, waiting⟩ := fun mem =>
      free (h.running ▸ List.mem_append_left busy mem)
    refine ⟨congrArg (shelf :: ·) h.running, List.nodup_cons.mpr ⟨unseen, h.nodup⟩, ?_, ?_, h.sources,
      List.forall_mem_cons.mpr ⟨h.sources, h.waiting⟩, h.ordered, h.made⟩
    · exact List.forall_mem_cons.mpr ⟨⟨source, h.sources ▸ written⟩, h.registered⟩
    · exact List.forall_mem_cons.mpr ⟨absent, h.pending⟩
  | finish found =>
    obtain ⟨m, shelf, rest, eq, made⟩ := fits
    cases eq
    cases found with
    | none => exact h.rejoin
    | some found =>
      obtain ⟨-, -, -, source, written, making⟩ := made found rfl
      have own : m.world.sources = scripts := h.waiting (.importer m shelf) List.mem_cons_self
      exact h.rejoin.load (List.nodup_cons.mp h.nodup).1 ⟨source, own ▸ written, making⟩

theorem run (h : C.Loading scripts busy s) (lawful : C.Lawful s acts) :
    ∀ t ∈ s.passed acts, C.Loading scripts busy t := by
  induction acts generalizing s with
  | nil =>
    intro t ht
    rw [List.mem_singleton.mp ht]
    exact h
  | cons a rest ih =>
    intro t ht
    rcases List.mem_cons.mp ht with rfl | later
    · exact h
    · exact ih (h.next lawful.1) lawful.2 t later

/-- There are never more scripts running than there are scripts. -/
theorem depth_le (h : C.Loading scripts busy s) : s.shelves.length ≤ scripts.length := by
  have sub : s.shelves ⊆ scripts.map Prod.fst := by
    intro shelf mem
    obtain ⟨source, written⟩ := h.registered shelf mem
    exact List.mem_map.mpr ⟨(shelf, source), Dict.mem_of_find? written, rfl⟩
  have le := (h.nodup.subperm sub).length_le
  rwa [List.length_map] at le

theorem keeps_next (h : C.Loading scripts busy s) (fits : C.Fits a s) {shelf : Shelf} {found : Module}
    (loaded : s.now.world.loaded.find? shelf = some found) :
    a.begins shelf = false ∧ (a.next s).now.world.loaded.find? shelf = some found := by
  obtain ⟨now, waiting⟩ := s
  have loaded : now.world.loaded.find? shelf = some found := loaded
  cases a with
  | capture name =>
    refine ⟨rfl, ?_⟩
    change (now.capture name).world.loaded.find? shelf = some found
    unfold Machine.capture
    split <;> exact loaded
  | back =>
    obtain ⟨m, rest, eq⟩ := fits
    cases eq
    exact ⟨rfl, loaded⟩
  | begin other script next =>
    obtain ⟨source, absent, -⟩ := fits
    refine ⟨?_, loaded⟩
    have ne : other ≠ shelf := by
      rintro rfl
      exact absurd (absent.symm.trans loaded) (by simp)
    exact beq_false_of_ne ne
  | finish module =>
    obtain ⟨m, other, rest, eq, -⟩ := fits
    cases eq
    have ne : shelf ≠ other := by
      rintro rfl
      have pending : now.world.loaded.find? shelf = none := h.pending shelf List.mem_cons_self
      exact absurd (pending.symm.trans loaded) (by simp)
    cases module with
    | none => exact ⟨rfl, loaded⟩
    | some module => exact ⟨rfl, (Dict.find?_insert_of_ne ne _ _).trans loaded⟩
  | _ => exact ⟨rfl, loaded⟩

theorem keeps (h : C.Loading scripts busy s) (lawful : C.Lawful s acts) {shelf : Shelf} {found : Module}
    (loaded : s.now.world.loaded.find? shelf = some found) :
    acts.countP (Act.begins shelf) = 0 ∧
      (s.after acts).now.world.loaded.find? shelf = some found := by
  induction acts generalizing s with
  | nil => exact ⟨rfl, loaded⟩
  | cons a rest ih =>
    obtain ⟨other, kept⟩ := h.keeps_next lawful.1 loaded
    obtain ⟨none, still⟩ := ih (h.next lawful.1) lawful.2 kept
    exact ⟨by simp [other, none], still⟩

/-- While a machine waits for a script, the script is not started again. -/
theorem waits {base : List Frame} {shelf : Shelf} (mem : shelf ∈ base.filterMap Frame.shelf?)
    (h : C.Loading scripts busy (s.above base)) (lawful : C.Lawful s acts) :
    acts.countP (Act.begins shelf) = 0 := by
  induction acts generalizing s with
  | nil => rfl
  | cons a rest ih =>
    obtain ⟨fits, next⟩ := lawful.1.above base
    have other : a.begins shelf = false := by
      cases a with
      | begin first script next =>
        obtain ⟨source, -, -, free, -⟩ := fits
        have busy : shelf ∈ (s.above base).now.world.loading := by
          rw [h.running]
          apply List.mem_append_left
          simp only [Standing.shelves, Standing.above, List.filterMap_append]
          exact List.mem_append_right _ mem
        have ne : first ≠ shelf := fun eq => free (eq ▸ busy)
        exact beq_false_of_ne ne
      | _ => rfl
    have later := ih (next ▸ h.next fits) lawful.2
    simp [other, later]

end Loading

end Course

end Scripting
