import Scripting.Proofs.Locks
import Scripting.Proofs.Running
import Scripting.Workbench

/-
Locks on a workbench. Cells are shared, copied and locked through any of their aliases, in any order. A
cell counts the locks that are held on it, so who asks for one is told whether it can be had.
-/
namespace Scripting

namespace Dict

variable {α : Type}

theorem count_values_insert [DecidableEq α] {d : Dict Text α} {key : Text} (fresh : d.find? key = none) (v x : α) :
    (d.insert key v).values.count x = d.values.count x + if v = x then 1 else 0 := by
  induction d with
  | nil => simp [insert, values, List.count_cons]
  | cons entry rest ih =>
    obtain ⟨k, w⟩ := entry
    by_cases same : k = key
    · simp [find?, same] at fresh
    · simp only [find?, if_neg same] at fresh
      have later := ih fresh
      simp only [values] at later
      by_cases before : key < k
      · simp [insert, same, before, values, List.count_cons]
      · simp [insert, same, before, values, List.count_cons, later]
        omega

theorem count_values_erase [DecidableEq α] (d : Dict Text α) (key : Text) (x : α) :
    (d.erase key).values.count x + (if d.find? key = some x then 1 else 0) = d.values.count x := by
  induction d with
  | nil => simp [erase, find?, values]
  | cons entry rest ih =>
    obtain ⟨k, w⟩ := entry
    by_cases same : k = key
    · simp [erase, find?, same, values, List.count_cons]
    · simp only [values] at ih
      simp [erase, find?, same, values, List.count_cons, ← ih]
      omega

theorem erase_of_find?_none {d : Dict Text α} {key : Text} (h : d.find? key = none) :
    d.erase key = d := by
  induction d with
  | nil => rfl
  | cons entry rest ih =>
    obtain ⟨k, w⟩ := entry
    by_cases same : k = key
    · simp [find?, same] at h
    · simp only [find?, if_neg same] at h
      rw [erase, if_neg same, ih h]

theorem mem_values_of_find? {d : Dict Text α} {key : Text} {v : α} (h : d.find? key = some v) :
    v ∈ d.values := List.mem_map.mpr ⟨_, mem_of_find? h, rfl⟩

theorem Ordered.find?_erase_ite {d : Dict Text α} (h : Ordered d) (key name : Text) :
    (d.erase key).find? name = if some key = some name then none else d.find? name := by
  by_cases same : key = name
  · rw [same, if_pos rfl, h.find?_erase]
  · rw [if_neg (by simpa using same), find?_erase_of_ne (Ne.symm same)]

end Dict

namespace Store

/-- Cells have been added that nobody uses and that hold no aliases; the others are as they were. -/
structure Grown (s t : Store) : Prop where
  size : s.size ≤ t.size
  old : ∀ c < s.size, t.cell c = s.cell c
  new : ∀ c, s.size ≤ c → ∃ v : Value, v.isShared = false ∧ t.cell c = ⟨v, 0, false⟩

theorem Grown.refl (s : Store) : Grown s s :=
  ⟨Nat.le_refl _, fun _ _ => rfl, fun _ outside => ⟨.unit, rfl, cell_of_size_le outside⟩⟩

theorem Grown.trans {s t u : Store} (h : Grown s t) (h' : Grown t u) : Grown s u := by
  refine ⟨Nat.le_trans h.size h'.size, fun c inside => ?_, fun c outside => ?_⟩
  · rw [h'.old c (Nat.lt_of_lt_of_le inside h.size), h.old c inside]
  · by_cases added : c < t.size
    · obtain ⟨v, proper, cell⟩ := h.new c outside
      exact ⟨v, proper, (h'.old c added).trans cell⟩
    · exact h'.new c (Nat.le_of_not_lt added)

theorem alloc_grown (s : Store) {v : Value} (proper : v.isShared = false) : Grown s (s.alloc v).1 := by
  refine ⟨by simp, fun c inside => cell_alloc_old inside v, fun c outside => ?_⟩
  by_cases new : c = s.size
  · exact ⟨v, proper, new ▸ cell_alloc_new s v⟩
  · have beyond : (s.alloc v).1.size ≤ c := by
      rw [size_alloc]
      omega
    exact ⟨.unit, rfl, cell_of_size_le beyond⟩

theorem share_grown (s : Store) (v : Value) : Grown s (s.share v).1 := by
  cases v with
  | shared c => exact .refl s
  | _ => exact alloc_grown s rfl

end Store

namespace Draft

variable (kept : Dict Text Value)

mutual

theorem build_grown (s : Store) : (d : Draft) → s.Grown (build kept s d).1
  | .plain v => by
    rw [build]
    exact .refl s
  | .array items => by
    rw [build]
    exact buildAll_grown s items
  | .map entries => by
    rw [build]
    exact buildEntries_grown s entries
  | .fn name curry => by
    rw [build]
    exact buildAll_grown s curry
  | .shared content => by
    rw [build]
    exact (build_grown s content).trans (Store.share_grown _ _)
  | .kept name => by
    rw [build]
    exact .refl s

theorem buildAll_grown (s : Store) : (ds : List Draft) → s.Grown (buildAll kept s ds).1
  | [] => by
    rw [buildAll]
    exact .refl s
  | d :: rest => by
    rw [buildAll]
    exact (build_grown s d).trans (buildAll_grown _ rest)

theorem buildEntries_grown (s : Store) :
    (es : List (Text × Draft)) → s.Grown (buildEntries kept s es).1
  | [] => by
    rw [buildEntries]
    exact .refl s
  | (key, d) :: rest => by
    rw [buildEntries]
    exact (build_grown s d).trans (buildEntries_grown _ rest)

end

end Draft

namespace Workbench

inductive Op where
  | share (a dest : Text)
  | copy (a dest : Text)
  | assign (a b : Text)
  | flatten (a dest : Text)
  | lockRead (a id name : Text)
  | lockWrite (a id name : Text)
  | poke (id : Text) (d : Draft)
  | unlock (id : Text)

def Op.run : Op → Work Unit
  | share a dest => discard (Workbench.share a dest)
  | copy a dest => Workbench.copy a dest
  | assign a b => discard (Workbench.assign a b)
  | flatten a dest => discard (Workbench.flatten a dest)
  | lockRead a id name => Workbench.lockRead a id name
  | lockWrite a id name => Workbench.lockWrite a id name
  | poke id d => discard (Workbench.poke id d)
  | unlock id => Workbench.unlock id

def left {α : Type} : EStateM.Result Halt Workbench α → Workbench
  | .ok _ b => b
  | .error _ b => b

def Op.after (o : Op) (b : Workbench) : Workbench := left (o.run b)

def Op.Allowed (b : Workbench) : Op → Prop
  | poke _ d => (d.build b.slots b.store).2.isShared = false
  | _ => True

inductive Course : Workbench → List Op → Workbench → Prop
  | nil (b : Workbench) : Course b [] b
  | cons {b b' : Workbench} {o : Op} {ops : List Op} (allowed : o.Allowed b)
      (later : Course (o.after b) ops b') : Course b (o :: ops) b'

theorem Course.append {b b' b'' : Workbench} {ops later : List Op} (h : Course b ops b')
    (h' : Course b' later b'') : Course b (ops ++ later) b'' := by
  induction h with
  | nil => exact h'
  | cons allowed _ ih => exact .cons allowed (ih h')

structure Plain (b : Workbench) : Prop where
  aliases : ∀ e ∈ b.slots, ∀ c, e.2 = .shared c → c < b.store.size
  contents : ∀ c, (b.store.cell c).value.isShared = false

structure Unlocked (b : Workbench) : Prop extends Plain b where
  reading : b.reading = []
  writing : b.writing = []
  idle : ∀ c, (b.store.cell c).readers = 0 ∧ (b.store.cell c).writer = false

structure Counts (b : Workbench) (c : Nat) : Prop where
  readers : b.reading.values.count (.cell c) = (b.store.cell c).readers
  writers : b.writing.values.count (.cell c) = (b.store.cell c).writer.toNat
  apart : (b.store.cell c).writer = true → (b.store.cell c).readers = 0

structure Sound (b : Workbench) : Prop extends Plain b where
  reading : b.reading.Ordered
  writing : b.writing.Ordered
  counts : ∀ c, b.Counts c

def stopReading (id : Text) (b : Workbench) : Workbench :=
  let b' := { b with reading := b.reading.erase id }
  match b.reading.find? id with
  | some (.cell c) => { b' with store := b.store.endRead c }
  | _ => b'

def stopWriting (id : Text) (b : Workbench) : Workbench :=
  let b' := { b with writing := b.writing.erase id }
  match b.writing.find? id with
  | some (.cell c) => { b' with store := b.store.endWrite c }
  | _ => b'

def grip (b : Workbench) (a : Text) : Grip :=
  match (b.slots.find? a).getD .unit with
  | .shared c => .cell c
  | _ => .slot a

variable {b : Workbench}

theorem Unlocked.sound (h : b.Unlocked) : b.Sound := by
  refine ⟨h.toPlain, ?_, ?_, fun c => ?_⟩
  · rw [h.reading]
    exact List.Pairwise.nil
  · rw [h.writing]
    exact List.Pairwise.nil
  · obtain ⟨readers, writer⟩ := h.idle c
    refine ⟨?_, ?_, fun _ => readers⟩
    · rw [h.reading, readers]
      rfl
    · rw [h.writing, writer]
      rfl

theorem Plain.inside (h : b.Plain) {a : Text} {c : Nat}
    (aliased : (b.slots.find? a).getD .unit = .shared c) : c < b.store.size := by
  cases found : b.slots.find? a with
  | none =>
    rw [found] at aliased
    cases aliased
  | some v =>
    rw [found] at aliased
    exact h.aliases _ (Dict.mem_of_find? found) c aliased

namespace Sound

theorem grow (h : b.Sound) {t : Store} {slots : Dict Text Value} (grown : b.store.Grown t)
    (aliases : ∀ e ∈ slots, ∀ c, e.2 = .shared c → c < t.size) :
    Sound { b with store := t, slots } := by
  have cells (c : Nat) : t.cell c = b.store.cell c ∨ b.store.cell c = default ∧
      ∃ v : Value, v.isShared = false ∧ t.cell c = ⟨v, 0, false⟩ := by
    by_cases inside : c < b.store.size
    · exact .inl (grown.old c inside)
    · exact .inr ⟨Store.cell_of_size_le (Nat.le_of_not_lt inside), grown.new c (Nat.le_of_not_lt inside)⟩
  refine ⟨⟨aliases, fun c => ?_⟩, h.reading, h.writing, fun c => ?_⟩
  · rcases cells c with same | ⟨-, v, proper, cell⟩
    · rw [same]
      exact h.contents c
    · rw [cell]
      exact proper
  · obtain ⟨readers, writers, apart⟩ := h.counts c
    rcases cells c with same | ⟨absent, v, -, cell⟩
    · exact ⟨by rw [same]; exact readers, by rw [same]; exact writers, by rw [same]; exact apart⟩
    · rw [absent] at readers writers
      exact ⟨by rw [cell]; exact readers, by rw [cell]; exact writers, fun _ => by rw [cell]⟩

theorem setSlot (h : b.Sound) (dest : Text) {v : Value}
    (inside : ∀ c, v = .shared c → c < b.store.size) :
    Sound { b with slots := b.slots.insert dest v } := by
  refine h.grow (.refl _) fun e he c aliased => ?_
  rcases Dict.mem_insert he with rfl | old
  · exact inside c aliased
  · exact h.aliases e old c aliased

theorem setValue (h : b.Sound) (c : Nat) {v : Value} (proper : v.isShared = false) :
    Sound { b with store := b.store.setValue c v } := by
  have locks (d : Nat) := Store.lock_setValue b.store c v d
  refine ⟨⟨fun e he d aliased => ?_, fun d => ?_⟩, h.reading, h.writing, fun d => ?_⟩
  · rw [Store.setValue, Store.size_put]
    exact h.aliases e he d aliased
  · by_cases same : d = c
    · subst same
      by_cases inside : d < b.store.size
      · rw [Store.setValue, Store.cell_put_self inside]
        exact proper
      · rw [Store.setValue, Store.put_of_size_le (Nat.le_of_not_lt inside)]
        exact h.contents d
    · rw [Store.setValue, Store.cell_put_of_ne same]
      exact h.contents d
  · obtain ⟨readers, writers, apart⟩ := h.counts d
    obtain ⟨sameReaders, sameWriter⟩ := Prod.mk.inj (locks d)
    exact ⟨by rw [sameReaders]; exact readers, by rw [sameWriter]; exact writers,
      by rw [sameReaders, sameWriter]; exact apart⟩

theorem inside_of_held (h : b.Sound) {c : Nat}
    (held : .cell c ∈ b.reading.values ∨ .cell c ∈ b.writing.values) : c < b.store.size := by
  refine Nat.lt_of_not_le fun outside => ?_
  obtain ⟨readers, writers, -⟩ := h.counts c
  rw [Store.cell_of_size_le outside] at readers writers
  rcases held with read | written
  · exact absurd read (List.count_eq_zero.mp readers)
  · exact absurd written (List.count_eq_zero.mp writers)

section

variable {reading writing : Dict Text Grip} (ordered : reading.Ordered ∧ writing.Ordered)
include ordered

theorem relist (h : b.Sound)
    (same : ∀ d, reading.values.count (.cell d) = b.reading.values.count (.cell d) ∧
      writing.values.count (.cell d) = b.writing.values.count (.cell d)) :
    Sound { b with reading, writing } := by
  refine ⟨⟨h.aliases, h.contents⟩, ordered.1, ordered.2, fun d => ?_⟩
  obtain ⟨readers, writers, apart⟩ := h.counts d
  exact ⟨(same d).1.trans readers, (same d).2.trans writers, apart⟩

theorem relock (h : b.Sound) {c : Nat} {x : Cell} (inside : c < b.store.size)
    (value : x.value = (b.store.cell c).value)
    (others : ∀ d, d ≠ c → reading.values.count (.cell d) = b.reading.values.count (.cell d) ∧
      writing.values.count (.cell d) = b.writing.values.count (.cell d))
    (readers : reading.values.count (.cell c) = x.readers)
    (writers : writing.values.count (.cell c) = x.writer.toNat)
    (apart : x.writer = true → x.readers = 0) :
    Sound { b with store := b.store.put c x, reading, writing } := by
  refine ⟨⟨fun e he d aliased => ?_, fun d => ?_⟩, ordered.1, ordered.2, fun d => ?_⟩
  · rw [Store.size_put]
    exact h.aliases e he d aliased
  · by_cases same : d = c
    · subst same
      rw [Store.cell_put_self inside, value]
      exact h.contents d
    · rw [Store.cell_put_of_ne same]
      exact h.contents d
  · by_cases same : d = c
    · subst same
      have cell := Store.cell_put_self inside x
      exact ⟨by rw [cell]; exact readers, by rw [cell]; exact writers, by rw [cell]; exact apart⟩
    · obtain ⟨readers, writers, apart⟩ := h.counts d
      have cell := Store.cell_put_of_ne same b.store x
      exact ⟨by rw [cell, ← readers]; exact (others d same).1,
        by rw [cell, ← writers]; exact (others d same).2, by rw [cell]; exact apart⟩

end

theorem stopReading (h : b.Sound) (id : Text) : (b.stopReading id).Sound := by
  have fewer (x : Grip) := Dict.count_values_erase b.reading id x
  have ordered := And.intro (h.reading.erase id) h.writing
  unfold Workbench.stopReading
  split
  · next c found =>
    obtain ⟨readers, writers, apart⟩ := h.counts c
    have less := fewer (.cell c)
    rw [found, if_pos rfl] at less
    have inside := h.inside_of_held (.inl (Dict.mem_values_of_find? found))
    refine h.relock ordered inside rfl (fun d other => ⟨?_, rfl⟩) ?_ writers fun written => ?_
    · have kept := fewer (.cell d)
      rwa [found, if_neg (by simpa using Ne.symm other)] at kept
    · simp only
      omega
    · have none : (b.store.cell c).readers = 0 := apart written
      simp only [none, Nat.zero_sub]
  · next other =>
    refine h.relist ordered fun d => ⟨?_, rfl⟩
    have kept := fewer (.cell d)
    rwa [if_neg (other d)] at kept

theorem stopWriting (h : b.Sound) (id : Text) : (b.stopWriting id).Sound := by
  have fewer (x : Grip) := Dict.count_values_erase b.writing id x
  have ordered := And.intro h.reading (h.writing.erase id)
  unfold Workbench.stopWriting
  split
  · next c found =>
    obtain ⟨readers, writers, apart⟩ := h.counts c
    have less := fewer (.cell c)
    rw [found, if_pos rfl] at less
    have inside := h.inside_of_held (.inr (Dict.mem_values_of_find? found))
    refine h.relock ordered inside rfl (fun d other => ⟨rfl, ?_⟩) readers ?_ (fun never => by cases never)
    · have kept := fewer (.cell d)
      rwa [found, if_neg (by simpa using Ne.symm other)] at kept
    · have one := Bool.toNat_le (b.store.cell c).writer
      simp only [Bool.toNat_false]
      omega
  · next other =>
    refine h.relist ordered fun d => ⟨rfl, ?_⟩
    have kept := fewer (.cell d)
    rwa [if_neg (other d)] at kept

end Sound

theorem stopReading_eq {id : Text} (fresh : b.reading.find? id = none) : b.stopReading id = b := by
  unfold stopReading
  rw [fresh, Dict.erase_of_find?_none fresh]

theorem stopWriting_eq {id : Text} (fresh : b.writing.find? id = none) : b.stopWriting id = b := by
  unfold stopWriting
  rw [fresh, Dict.erase_of_find?_none fresh]

theorem find?_stopReading (h : b.Sound) (id : Text) : (b.stopReading id).reading.find? id = none := by
  have gone := h.reading.find?_erase id
  unfold stopReading
  split <;> exact gone

theorem find?_stopWriting (h : b.Sound) (id : Text) : (b.stopWriting id).writing.find? id = none := by
  have gone := h.writing.find?_erase id
  unfold stopWriting
  split <;> exact gone

/-- The locks of these names are given up: each is gone, its cell counts it no more, and all else is as
it was. -/
structure Released (b b' : Workbench) (read written : Option Text) : Prop where
  reading : ∀ name, b'.reading.find? name = if read = some name then none else b.reading.find? name
  writing : ∀ name, b'.writing.find? name = if written = some name then none else b.writing.find? name
  slots : b'.slots = b.slots
  value : ∀ c, (b'.store.cell c).value = (b.store.cell c).value
  readers : ∀ c, (b'.store.cell c).readers +
    (if read.bind b.reading.find? = some (.cell c) then 1 else 0) = (b.store.cell c).readers
  writer : ∀ c, (b'.store.cell c).writer.toNat +
    (if written.bind b.writing.find? = some (.cell c) then 1 else 0) = (b.store.cell c).writer.toNat

theorem Released.both {b' b'' : Workbench} {id : Text} (h : b.Released b' (some id) none)
    (h' : b'.Released b'' none (some id)) : b.Released b'' (some id) (some id) := by
  have same (name : Text) : b'.writing.find? name = b.writing.find? name := h.writing name
  refine ⟨fun name => (h'.reading name).trans (h.reading name), fun name => ?_, h'.slots.trans h.slots,
    fun c => (h'.value c).trans (h.value c), fun c => ?_, fun c => ?_⟩
  · rw [h'.writing, same]
  · rw [← h.readers c]
    exact congrArg (· + _) (h'.readers c)
  · have less := h'.writer c
    simp only [Option.bind_some, same] at less
    rw [Option.bind_some, less]
    exact h.writer c

/-- Lists without some names, and one cell that counts what they held no more. -/
theorem Released.put {reading writing : Dict Text Grip} {read written : Option Text}
    (listed : ∀ name, reading.find? name = if read = some name then none else b.reading.find? name)
    (listed' : ∀ name, writing.find? name = if written = some name then none else b.writing.find? name)
    {c : Nat} {x : Cell} (inside : c < b.store.size) (value : x.value = (b.store.cell c).value)
    (readers : x.readers + (if read.bind b.reading.find? = some (.cell c) then 1 else 0) =
      (b.store.cell c).readers)
    (writer : x.writer.toNat + (if written.bind b.writing.find? = some (.cell c) then 1 else 0) =
      (b.store.cell c).writer.toNat)
    (others : ∀ d, d ≠ c → read.bind b.reading.find? ≠ some (.cell d) ∧
      written.bind b.writing.find? ≠ some (.cell d)) :
    b.Released { b with store := b.store.put c x, reading, writing } read written := by
  have cells (d : Nat) : d = c ∧ (b.store.put c x).cell d = x ∨
      d ≠ c ∧ (b.store.put c x).cell d = b.store.cell d := by
    by_cases same : d = c
    · exact .inl ⟨same, same ▸ Store.cell_put_self inside x⟩
    · exact .inr ⟨same, Store.cell_put_of_ne same _ _⟩
  refine ⟨listed, listed', rfl, fun d => ?_, fun d => ?_, fun d => ?_⟩ <;> dsimp only <;>
    obtain ⟨rfl, cell⟩ | ⟨other, cell⟩ := cells d <;> rw [cell]
  · exact value
  · exact readers
  · rw [if_neg (others d other).1, Nat.add_zero]
  · exact writer
  · rw [if_neg (others d other).2, Nat.add_zero]

theorem Sound.released_reading (h : b.Sound) (id : Text) :
    b.Released (b.stopReading id) (some id) none := by
  have listed := h.reading.find?_erase_ite id
  unfold Workbench.stopReading
  split
  · next c found =>
    have member := Dict.mem_values_of_find? found
    have held : 0 < (b.store.cell c).readers := by
      rw [← (h.counts c).readers]
      exact List.count_pos_iff.mpr member
    refine Released.put listed (fun _ => rfl) (h.inside_of_held (.inl member)) rfl ?_ rfl
      fun d other => ⟨?_, nofun⟩ <;> rw [Option.bind_some, found]
    · rw [if_pos rfl]
      exact Nat.sub_add_cancel held
    · simpa using Ne.symm other
  · next other =>
    refine ⟨listed, fun _ => rfl, rfl, fun _ => rfl, fun d => ?_, fun d => rfl⟩
    rw [Option.bind_some, if_neg (other d), Nat.add_zero]

theorem Sound.released_writing (h : b.Sound) (id : Text) :
    b.Released (b.stopWriting id) none (some id) := by
  have listed := h.writing.find?_erase_ite id
  unfold Workbench.stopWriting
  split
  · next c found =>
    have member := Dict.mem_values_of_find? found
    have held : 0 < (b.store.cell c).writer.toNat := by
      rw [← (h.counts c).writers]
      exact List.count_pos_iff.mpr member
    have one := Bool.toNat_le (b.store.cell c).writer
    refine Released.put (fun _ => rfl) listed (h.inside_of_held (.inr member)) rfl rfl ?_
      fun d other => ⟨nofun, ?_⟩ <;> rw [Option.bind_some, found]
    · rw [if_pos rfl, Bool.toNat_false]
      omega
    · simpa using Ne.symm other
  · next other =>
    refine ⟨fun _ => rfl, listed, rfl, fun _ => rfl, fun d => rfl, fun d => ?_⟩
    rw [Option.bind_some, if_neg (other d), Nat.add_zero]

theorem Sound.unlock (h : b.Sound) (id : Text) :
    ∃ b', Workbench.unlock id b = .ok () b' ∧ b'.Sound ∧ b.Released b' (some id) (some id) := by
  have freed := h.stopReading id
  exact ⟨_, rfl, freed.stopWriting id, (h.released_reading id).both (freed.released_writing id)⟩

/-! Requests. -/

def ReadConflict (b : Workbench) (a : Text) : Prop :=
  ∃ c, b.grip a = .cell c ∧ .cell c ∈ b.writing.values

def WriteConflict (b : Workbench) (a : Text) : Prop :=
  ∃ c, b.grip a = .cell c ∧ (.cell c ∈ b.writing.values ∨ .cell c ∈ b.reading.values)

def grantRead (b : Workbench) (a id : Text) : Workbench :=
  let b' := { b with reading := b.reading.insert id (b.grip a) }
  match b.grip a with
  | .cell c => { b' with
      store := b.store.put c { b.store.cell c with readers := (b.store.cell c).readers + 1 } }
  | .slot _ => b'

def grantWrite (b : Workbench) (a id : Text) : Workbench :=
  let b' := { b with writing := b.writing.insert id (b.grip a) }
  match b.grip a with
  | .cell c => { b' with store := b.store.put c { b.store.cell c with writer := true } }
  | .slot _ => b'

theorem endReading_run (id : Text) (b : Workbench) : endReading id b = .ok () (b.stopReading id) := rfl

theorem endWriting_run (id : Text) (b : Workbench) : endWriting id b = .ok () (b.stopWriting id) := rfl

theorem grip_of_shared {a : Text} {c : Nat} (h : (b.slots.find? a).getD .unit = .shared c) :
    b.grip a = .cell c := by
  simp only [grip, h]

theorem shared_of_grip {a : Text} {c : Nat} (h : b.grip a = .cell c) :
    (b.slots.find? a).getD .unit = .shared c := by
  unfold grip at h
  split at h
  · next d aliased =>
    cases h
    exact aliased
  · cases h

theorem slot_of_grip {a s : Text} (h : b.grip a = .slot s) : s = a := by
  unfold grip at h
  split at h <;> cases h
  rfl

theorem slot_run (a : Text) (b : Workbench) :
    slot a b = .ok ((b.slots.find? a).getD .unit) b := rfl

theorem get_run (b : Workbench) : (get : Work Workbench) b = .ok b b := rfl

theorem lockRead_run (a id name : Text) (b : Workbench) : lockRead a id name b =
    let freed := b.stopReading id
    match freed.grip a with
    | .cell c => if (freed.store.cell c).writer then .error (.cause (.dataRace name) readPlace) freed
      else .ok () (freed.grantRead a id)
    | .slot _ => .ok () (freed.grantRead a id) := by
  unfold lockRead
  rw [bind_of_ok (endReading_run id b), bind_of_ok (get_run _), bind_of_ok (slot_run a _)]
  generalize b.stopReading id = freed
  dsimp only
  cases held : freed.grip a with
  | cell c =>
    simp only [shared_of_grip held, grantRead, held, Store.beginRead]
    split <;> rfl
  | slot s =>
    simp only [grantRead, held, slot_of_grip held]
    cases aliased : (freed.slots.find? a).getD .unit with
    | shared c =>
      rw [grip_of_shared aliased] at held
      cases held
    | _ => rfl

theorem lockWrite_run (a id name : Text) (b : Workbench) : lockWrite a id name b =
    let freed := b.stopWriting id
    match freed.grip a with
    | .cell c => if (freed.store.cell c).writer || (freed.store.cell c).readers != 0 then
        .error (.cause (.dataRace name) writePlace) freed
      else .ok () (freed.grantWrite a id)
    | .slot _ => .ok () (freed.grantWrite a id) := by
  unfold lockWrite
  rw [bind_of_ok (endWriting_run id b), bind_of_ok (get_run _), bind_of_ok (slot_run a _)]
  generalize b.stopWriting id = freed
  dsimp only
  cases held : freed.grip a with
  | cell c =>
    simp only [shared_of_grip held, grantWrite, held, Store.beginWrite]
    split <;> rfl
  | slot s =>
    simp only [grantWrite, held, slot_of_grip held]
    cases aliased : (freed.slots.find? a).getD .unit with
    | shared c =>
      rw [grip_of_shared aliased] at held
      cases held
    | _ => rfl

namespace Sound

theorem writer_iff (h : b.Sound) (c : Nat) :
    (b.store.cell c).writer = true ↔ .cell c ∈ b.writing.values := by
  rw [← List.count_pos_iff, (h.counts c).writers]
  cases (b.store.cell c).writer <;> simp

theorem readers_iff (h : b.Sound) (c : Nat) :
    (b.store.cell c).readers ≠ 0 ↔ .cell c ∈ b.reading.values := by
  rw [← List.count_pos_iff, (h.counts c).readers]
  omega

theorem lockRead (h : b.Sound) (a id name : Text) :
    ((b.stopReading id).ReadConflict a → Workbench.lockRead a id name b =
      .error (.cause (.dataRace name) readPlace) (b.stopReading id)) ∧
    (¬ (b.stopReading id).ReadConflict a →
      Workbench.lockRead a id name b = .ok () ((b.stopReading id).grantRead a id)) := by
  have freed := h.stopReading id
  rw [lockRead_run]
  generalize b.stopReading id = f at freed
  unfold ReadConflict
  dsimp only
  cases held : f.grip a with
  | slot s => exact ⟨fun ⟨c, never, _⟩ => (by cases never), fun _ => rfl⟩
  | cell c =>
    dsimp only
    refine ⟨fun ⟨d, same, written⟩ => ?_, fun free => ?_⟩
    · cases same
      rw [if_pos ((freed.writer_iff c).mpr written)]
    · rw [if_neg fun written => free ⟨c, rfl, (freed.writer_iff c).mp written⟩]

theorem lockWrite (h : b.Sound) (a id name : Text) :
    ((b.stopWriting id).WriteConflict a → Workbench.lockWrite a id name b =
      .error (.cause (.dataRace name) writePlace) (b.stopWriting id)) ∧
    (¬ (b.stopWriting id).WriteConflict a →
      Workbench.lockWrite a id name b = .ok () ((b.stopWriting id).grantWrite a id)) := by
  have freed := h.stopWriting id
  rw [lockWrite_run]
  generalize b.stopWriting id = f at freed
  unfold WriteConflict
  dsimp only
  cases held : f.grip a with
  | slot s => exact ⟨fun ⟨c, never, _⟩ => (by cases never), fun _ => rfl⟩
  | cell c =>
    dsimp only
    have used : ((f.store.cell c).writer || (f.store.cell c).readers != 0) = true ↔
        .cell c ∈ f.writing.values ∨ .cell c ∈ f.reading.values := by
      rw [Bool.or_eq_true, bne_iff_ne, freed.writer_iff, freed.readers_iff]
    refine ⟨fun ⟨d, same, taken⟩ => ?_, fun free => ?_⟩
    · cases same
      rw [if_pos (used.mpr taken)]
    · rw [if_neg fun taken => free ⟨c, rfl, used.mp taken⟩]

theorem grantRead (h : b.Sound) {a id : Text} (fresh : b.reading.find? id = none)
    (free : ¬ b.ReadConflict a) : (b.grantRead a id).Sound := by
  have ordered := And.intro (h.reading.insert id (b.grip a)) h.writing
  have more (x : Grip) := Dict.count_values_insert fresh (b.grip a) x
  unfold Workbench.grantRead
  dsimp only
  split
  · next c held =>
    obtain ⟨readers, writers, -⟩ := h.counts c
    refine h.relock ordered (h.inside (shared_of_grip held)) rfl (fun d other => ⟨?_, rfl⟩) ?_
      writers fun written => ?_
    · rw [more, held, if_neg (by simpa using Ne.symm other), Nat.add_zero]
    · rw [more, held, if_pos rfl, readers]
    · exact absurd ⟨c, held, (h.writer_iff c).mp written⟩ free
  · next s held =>
    refine h.relist ordered fun d => ⟨?_, rfl⟩
    rw [more, held, if_neg (by simp), Nat.add_zero]

theorem grantWrite (h : b.Sound) {a id : Text} (fresh : b.writing.find? id = none)
    (free : ¬ b.WriteConflict a) : (b.grantWrite a id).Sound := by
  have ordered := And.intro h.reading (h.writing.insert id (b.grip a))
  have more (x : Grip) := Dict.count_values_insert fresh (b.grip a) x
  unfold Workbench.grantWrite
  dsimp only
  split
  · next c held =>
    obtain ⟨readers, writers, -⟩ := h.counts c
    have unread : (b.store.cell c).readers = 0 := by
      by_cases none : (b.store.cell c).readers = 0
      · exact none
      · exact absurd ⟨c, held, .inr ((h.readers_iff c).mp none)⟩ free
    have unwritten : .cell c ∉ b.writing.values := fun mem => free ⟨c, held, .inl mem⟩
    refine h.relock ordered (h.inside (shared_of_grip held)) rfl (fun d other => ⟨rfl, ?_⟩) readers
      ?_ fun _ => unread
    · rw [more, held, if_neg (by simpa using Ne.symm other), Nat.add_zero]
    · rw [more, held, if_pos rfl, List.count_eq_zero.mpr unwritten]
      rfl
  · next s held =>
    refine h.relist ordered fun d => ⟨rfl, ?_⟩
    rw [more, held, if_neg (by simp), Nat.add_zero]

end Sound

/-! What is left of a workbench. -/

theorem left_discard {α : Type} (k : Work α) (b : Workbench) : left (discard k b) = left (k b) := by
  change left (EStateM.map (Function.const α ()) k b) = left (k b)
  unfold EStateM.map
  cases k b <;> rfl

theorem left_look (v : Value) (b : Workbench) : left (look v b) = b := by
  unfold look
  rw [bind_of_ok (get_run b)]
  cases Snapshot.take b.store ampleFuel false v <;> rfl

theorem left_deposit (dest : Text) (v : Value) (b : Workbench) :
    left (deposit dest v b) = { b with slots := b.slots.insert dest v } :=
  left_look v { b with slots := b.slots.insert dest v }

theorem left_share (a dest : Text) (b : Workbench) : left (share a dest b) =
    let r := b.store.share ((b.slots.find? a).getD .unit)
    { b with store := r.1, slots := b.slots.insert dest r.2 } := by
  unfold share
  rw [bind_of_ok (slot_run a b), bind_of_ok (get_run b)]
  exact left_deposit dest _ _

theorem left_assign (a c : Text) (b : Workbench) : left (assign a c b) =
    { b with slots := b.slots.insert a ((b.slots.find? c).getD .unit) } := by
  unfold assign
  rw [bind_of_ok (slot_run c b)]
  exact left_deposit a _ b

def built (d : Draft) (b : Workbench) : Workbench := { b with store := (d.build b.slots b.store).1 }

theorem left_poke (id : Text) (d : Draft) (b : Workbench) : left (poke id d b) =
    let v := (d.build b.slots b.store).2
    match b.writing.find? id with
    | some (.slot name) => { built d b with slots := b.slots.insert name v }
    | some (.cell c) => { built d b with store := (built d b).store.setValue c v }
    | none => built d b := by
  have made : build d b = .ok (d.build b.slots b.store).2 (built d b) := rfl
  unfold poke
  rw [bind_of_ok made, bind_of_ok (get_run _)]
  have same : (built d b).writing = b.writing := rfl
  cases held : b.writing.find? id with
  | none =>
    simp only [same, held]
    exact left_look _ (built d b)
  | some grip =>
    cases grip with
    | slot name =>
      simp only [same, held]
      exact left_look _ { built d b with slots := _ }
    | cell c =>
      simp only [same, held]
      exact left_look _ { built d b with store := _ }

/-- Flattening a slot looks through one alias, since no cell holds another. -/
theorem flatten_run (h : b.Plain) (a dest : Text) : flatten a dest b =
    match (b.slots.find? a).getD .unit with
    | .shared c => if (b.store.cell c).writer then .error (.cause (.dataRace []) .nowhere) b
      else deposit dest (b.store.cell c).value b
    | v => deposit dest v b := by
  unfold flatten
  rw [bind_of_ok (get_run b), bind_of_ok (slot_run a b)]
  obtain ⟨n, enough⟩ : ∃ n, ampleFuel = n + 2 := ⟨ampleFuel - 2, rfl⟩
  have proper {v : Value} (own : v.isShared = false) (k : Nat) :
      b.store.flatten (k + 1) v = .ok v := by
    cases v with
    | shared c => cases own
    | _ => rfl
  rw [enough]
  cases value : (b.slots.find? a).getD .unit with
  | shared c =>
    simp only [Store.flatten, Store.read]
    by_cases written : (b.store.cell c).writer = true
    · rw [if_pos written, if_pos written]
      rfl
    · rw [if_neg written, if_neg written]
      have plain := proper (h.contents c) n
      simp only [bind, Except.bind, plain]
      rfl
  | _ => rfl

namespace Sound

theorem share (h : b.Sound) (a dest : Text) : Sound (left (Workbench.share a dest b)) := by
  rw [left_share]
  have inside (c : Nat) (aliased : (b.slots.find? a).getD .unit = .shared c) := h.inside aliased
  revert inside
  generalize (b.slots.find? a).getD .unit = v
  intro inside
  have grown := Store.share_grown b.store v
  refine h.grow grown fun e he c aliased => ?_
  rcases Dict.mem_insert he with rfl | old
  · cases v with
    | shared d =>
      cases aliased
      exact inside c rfl
    | _ =>
      cases aliased
      change b.store.size < (b.store.alloc _).1.size
      rw [Store.size_alloc]
      exact Nat.lt_succ_self _
  · exact Nat.lt_of_lt_of_le (h.aliases e old c aliased) grown.size

theorem flatten (h : b.Sound) (a dest : Text) : Sound (left (Workbench.flatten a dest b)) := by
  rw [flatten_run h.toPlain]
  split
  · next c _ =>
    split
    · exact h
    · rw [left_deposit]
      refine h.setSlot dest fun d aliased => ?_
      have proper := h.contents c
      rw [aliased] at proper
      cases proper
  · next v plain =>
    rw [left_deposit]
    exact h.setSlot dest fun d aliased => absurd aliased (plain d)

theorem poke (h : b.Sound) (id : Text) {d : Draft}
    (proper : (d.build b.slots b.store).2.isShared = false) :
    Sound (left (Workbench.poke id d b)) := by
  have grown := Draft.build_grown b.slots b.store d
  have made : (built d b).Sound :=
    h.grow grown fun e he c aliased => Nat.lt_of_lt_of_le (h.aliases e he c aliased) grown.size
  rw [left_poke]
  dsimp only
  split
  · refine made.setSlot _ fun c aliased => ?_
    rw [aliased] at proper
    cases proper
  · exact made.setValue _ proper
  · exact made

/-- Whatever a host does, cells count their locks. -/
theorem after (h : b.Sound) {o : Op} (allowed : o.Allowed b) : (o.after b).Sound := by
  unfold Op.after Op.run
  cases o with
  | share a dest =>
    rw [left_discard]
    exact h.share a dest
  | copy a dest => exact h.setSlot dest fun c aliased => h.inside aliased
  | assign a c =>
    rw [left_discard, left_assign]
    exact h.setSlot a fun d aliased => h.inside aliased
  | flatten a dest =>
    rw [left_discard]
    exact h.flatten a dest
  | lockRead a id name =>
    obtain ⟨refused, granted⟩ := h.lockRead a id name
    have freed := h.stopReading id
    dsimp only
    by_cases conflict : (b.stopReading id).ReadConflict a
    · rw [refused conflict]
      exact freed
    · rw [granted conflict]
      exact freed.grantRead (find?_stopReading h id) conflict
  | lockWrite a id name =>
    obtain ⟨refused, granted⟩ := h.lockWrite a id name
    have freed := h.stopWriting id
    dsimp only
    by_cases conflict : (b.stopWriting id).WriteConflict a
    · rw [refused conflict]
      exact freed
    · rw [granted conflict]
      exact freed.grantWrite (find?_stopWriting h id) conflict
  | poke id d =>
    rw [left_discard]
    exact h.poke id allowed
  | unlock id => exact (h.stopReading id).stopWriting id

theorem along (h : b.Sound) {ops : List Op} {b' : Workbench} (course : Course b ops b') :
    b'.Sound := by
  induction course with
  | nil => exact h
  | cons allowed later ih => exact ih (h.after allowed)

end Sound

namespace Sound

/-- Once the locks of all names that hold any are given up, every slot can be locked both ways. -/
theorem unlockAll (h : b.Sound) {ids : List Text}
    (all : ∀ id, b.reading.find? id ≠ none ∨ b.writing.find? id ≠ none → id ∈ ids) :
    let freed := ids.foldl (fun b id => (Op.unlock id).after b) b
    ∀ a id name, Workbench.lockRead a id name freed = .ok () (freed.grantRead a id) ∧
      Workbench.lockWrite a id name freed = .ok () (freed.grantWrite a id) := by
  induction ids generalizing b with
  | nil =>
    intro freed a id name
    have none (d : Dict Text Grip) (free : ∀ id, ¬ d.find? id ≠ none) : d = [] := by
      cases d with
      | nil => rfl
      | cons e d =>
        refine absurd ?_ (free e.1)
        rw [Dict.find?, if_pos rfl]
        exact Option.some_ne_none _
    have unread : b.reading = [] := none _ fun id held => List.not_mem_nil (all id (.inl held))
    have unwritten : b.writing = [] := none _ fun id held => List.not_mem_nil (all id (.inr held))
    have granted := (h.lockRead a id name).2
    have granted' := (h.lockWrite a id name).2
    rw [stopReading_eq (by rw [unread]; rfl)] at granted
    rw [stopWriting_eq (by rw [unwritten]; rfl)] at granted'
    refine ⟨granted ?_, granted' ?_⟩
    · rintro ⟨c, -, written⟩
      rw [unwritten] at written
      cases written
    · rintro ⟨c, -, written | read⟩
      · rw [unwritten] at written
        cases written
      · rw [unread] at read
        cases read
  | cons id ids ih =>
    obtain ⟨b', run, sound, gone⟩ := h.unlock id
    have after : (Op.unlock id).after b = b' := congrArg left run
    rw [List.foldl_cons, after]
    refine ih sound fun other held => ?_
    rw [gone.reading, gone.writing] at held
    by_cases same : some id = some other
    · simp [same] at held
    · rw [if_neg same, if_neg same] at held
      exact (List.mem_cons.mp (all other held)).resolve_left fun eq => same (congrArg some eq.symm)

end Sound

/-- After any sequence of operations each cell counts the locks that are held on it, and has a single
writer or readers or neither. A request for a lock, which first gives up a lock of the same name, fails
exactly if it conflicts with a lock of the same cell, and then nothing else is changed; so does
flattening a cell that is being written. Giving up the locks of a name takes them off the lists and the
counts, and changes nothing else. A cell without locks can be locked both ways, and so can every slot
when the locks of all names have been given up. -/
theorem locks_conflict_by_cell {start : Workbench} (unlocked : start.Unlocked) {ops : List Op}
    (course : Course start ops b) :
    (∀ c, b.reading.values.count (.cell c) = (b.store.cell c).readers ∧
      b.writing.values.count (.cell c) = (b.store.cell c).writer.toNat ∧
      ((b.store.cell c).writer = true → (b.store.cell c).readers = 0)) ∧
    (∀ a id name, let freed := b.stopReading id
      (freed.ReadConflict a →
        lockRead a id name b = .error (.cause (.dataRace name) readPlace) freed) ∧
      (¬ freed.ReadConflict a → lockRead a id name b = .ok () (freed.grantRead a id))) ∧
    (∀ a id name, let freed := b.stopWriting id
      (freed.WriteConflict a →
        lockWrite a id name b = .error (.cause (.dataRace name) writePlace) freed) ∧
      (¬ freed.WriteConflict a → lockWrite a id name b = .ok () (freed.grantWrite a id))) ∧
    (∀ id, (b.reading.find? id = none → b.stopReading id = b) ∧
      (b.writing.find? id = none → b.stopWriting id = b) ∧
      b.Released (b.stopReading id) (some id) none ∧ b.Released (b.stopWriting id) none (some id)) ∧
    (∀ id, ∃ b', unlock id b = .ok () b' ∧ b.Released b' (some id) (some id) ∧
      Course start (ops ++ [.unlock id]) b') ∧
    (∀ a dest, (b.ReadConflict a → flatten a dest b = .error (.cause (.dataRace []) .nowhere) b) ∧
      (¬ b.ReadConflict a → ∃ v, v.isShared = false ∧ flatten a dest b = deposit dest v b)) ∧
    (∀ c, .cell c ∉ b.reading.values → .cell c ∉ b.writing.values → ∀ name pos,
      (∃ t, b.store.beginRead c name pos = .ok t) ∧ ∃ t, b.store.beginWrite c name pos = .ok t) ∧
    ∀ ids : List Text, (∀ id, b.reading.find? id ≠ none ∨ b.writing.find? id ≠ none → id ∈ ids) →
      let freed := ids.foldl (fun b id => (Op.unlock id).after b) b
      ∀ a id name, lockRead a id name freed = .ok () (freed.grantRead a id) ∧
        lockWrite a id name freed = .ok () (freed.grantWrite a id) := by
  have h := unlocked.sound.along course
  refine ⟨fun c => ?_, h.lockRead, h.lockWrite, fun id => ⟨stopReading_eq, stopWriting_eq,
    h.released_reading id, h.released_writing id⟩, fun id => ?_, fun a dest => ?_,
    fun c unread unwritten name pos => ?_, fun ids all => h.unlockAll all⟩
  · obtain ⟨readers, writers, apart⟩ := h.counts c
    exact ⟨readers, writers, apart⟩
  · obtain ⟨b', run, -, gone⟩ := h.unlock id
    have after : (Op.unlock id).after b = b' := congrArg left run
    exact ⟨b', run, gone, course.append (.cons trivial (after ▸ .nil b'))⟩
  · rw [flatten_run h.toPlain]
    refine ⟨fun ⟨c, held, written⟩ => ?_, fun free => ?_⟩
    · rw [shared_of_grip held]
      exact if_pos ((h.writer_iff c).mpr written)
    · split
      · next c aliased =>
        have unwritten : ¬ (b.store.cell c).writer = true := fun written =>
          free ⟨c, grip_of_shared aliased, (h.writer_iff c).mp written⟩
        exact ⟨_, h.contents c, if_neg unwritten⟩
      · next v plain =>
        refine ⟨_, ?_, rfl⟩
        cases value : (b.slots.find? a).getD .unit with
        | shared c => exact absurd value (plain c)
        | _ => rfl
  · have idle : (b.store.cell c).writer = false :=
      Bool.eq_false_iff.mpr fun written => unwritten ((h.writer_iff c).mp written)
    have none : (b.store.cell c).readers = 0 := by
      have mem := mt (h.readers_iff c).mp unread
      omega
    exact ⟨⟨_, by simp only [Store.beginRead, idle]; rfl⟩,
      ⟨_, by simp only [Store.beginWrite, idle, none]; rfl⟩⟩

def oneSlot : Workbench := { slots := [(Text.lit "x", .i64 (Integer.ofNat 1))] }

/-- Through `y`, an alias made of `x`, a lock for reading is held: through `z`, a copy of the alias, the
cell can be read but not written, while `x` is no alias and can be written. When the lock is given up
the cell has no reader any more, and can be written through `z` too. -/
theorem locks_conflict_by_cell_aliases :
    let ops : List Op := [.share (Text.lit "x") (Text.lit "y"), .copy (Text.lit "y") (Text.lit "z"),
      .lockRead (Text.lit "y") (Text.lit "r") []]
    let b := ops.foldl (fun b o => o.after b) oneSlot
    let b' := (Op.unlock (Text.lit "r")).after b
    oneSlot.Unlocked ∧ Course oneSlot ops b ∧
      lockWrite (Text.lit "z") (Text.lit "w") [] b = .error (.cause (.dataRace []) writePlace) b ∧
      lockRead (Text.lit "z") (Text.lit "s") [] b = .ok () (b.grantRead (Text.lit "z") (Text.lit "s")) ∧
      lockWrite (Text.lit "x") (Text.lit "w") [] b =
        .ok () (b.grantWrite (Text.lit "x") (Text.lit "w")) ∧
      (b.store.cell 0).readers = 1 ∧ unlock (Text.lit "r") b = .ok () b' ∧
      b'.reading.find? (Text.lit "r") = none ∧ (b'.store.cell 0).readers = 0 ∧
      lockWrite (Text.lit "z") (Text.lit "w") [] b' =
        .ok () (b'.grantWrite (Text.lit "z") (Text.lit "w")) := by
  intro ops b b'
  have unlocked : oneSlot.Unlocked := by
    refine ⟨⟨fun e he c aliased => ?_, fun c => rfl⟩, rfl, rfl, fun c => ⟨rfl, rfl⟩⟩
    cases List.mem_singleton.mp he
    cases aliased
  have course : Course oneSlot ops b :=
    .cons trivial (.cons trivial (.cons trivial (.nil b)))
  obtain ⟨-, reads, writes, freed, released, -, -, every⟩ := locks_conflict_by_cell unlocked course
  have fresh := (freed (Text.lit "w")).2.1 rfl
  have fresh' := (freed (Text.lit "s")).1 rfl
  have race := (writes (Text.lit "z") (Text.lit "w") []).1
  have shared := (reads (Text.lit "z") (Text.lit "s") []).2
  have other := (writes (Text.lit "x") (Text.lit "w") []).2
  simp only [fresh, fresh'] at race shared other
  obtain ⟨b₁, run, gone, -⟩ := released (Text.lit "r")
  have after : b' = b₁ := congrArg left run
  have again := every [Text.lit "r"] ?_ (Text.lit "z") (Text.lit "w") []
  · refine ⟨unlocked, course, race ⟨0, rfl, .inr (List.mem_cons_self)⟩, shared ?_, other ?_, rfl,
      after ▸ run, after ▸ gone.reading _, ?_, again.2⟩
    · rintro ⟨c, -, never⟩
      cases never
    · rintro ⟨c, never, -⟩
      cases never
    · exact Nat.succ.inj (after ▸ gone.readers 0)
  · rintro id (read | written)
    · have only : b.reading = [(Text.lit "r", .cell 0)] := rfl
      rw [only, Dict.find?] at read
      split at read
      · next same => exact List.mem_singleton.mpr same.symm
      · exact absurd rfl read
    · exact absurd rfl written

end Workbench

end Scripting
