import Scripting.Proofs.Course.Watch

/-
Variables along a course. A variable is known by its slot: the frame that it is in and its number
there. One act does to it what it can do at most, and from that follows what becomes of it while it
is there: what is an alias stays the same alias, and every cell that a variable becomes an alias of
was made for it, unless the variable was an alias from the start.
-/
namespace Scripting

namespace Stack

variable {α β : Type}

/-- The item of a stack with a number. The newest item comes first, and the oldest has number zero. -/
def item? (i : Nat) : List α → Option α
  | [] => none
  | a :: rest => if i = rest.length then some a else item? i rest

theorem lt_of_item? {i : Nat} {items : List α} {a : α} (h : item? i items = some a) :
    i < items.length := by
  induction items with
  | nil => cases h
  | cons b rest ih =>
    unfold item? at h
    split at h
    · next last => simp [last]
    · have := ih h
      simp only [List.length_cons]
      omega

theorem mem_of_item? {i : Nat} {items : List α} {a : α} (h : item? i items = some a) : a ∈ items := by
  induction items with
  | nil => cases h
  | cons b rest ih =>
    unfold item? at h
    split at h
    · cases h
      exact List.mem_cons_self
    · exact List.mem_cons_of_mem _ (ih h)

theorem item?_length (items : List α) : item? items.length items = none := by
  cases found : item? items.length items with
  | none => rfl
  | some a => exact absurd (lt_of_item? found) (Nat.lt_irrefl _)

@[simp]
theorem item?_top (a : α) (rest : List α) : item? rest.length (a :: rest) = some a := if_pos rfl

theorem item?_below {i : Nat} {rest : List α} (h : i < rest.length) (a : α) :
    item? i (a :: rest) = item? i rest :=
  if_neg (by omega)

theorem item?_drop {i k : Nat} {items : List α} {a : α} (h : item? i (items.drop k) = some a) :
    item? i items = some a := by
  induction k generalizing items with
  | zero => exact h
  | succ k ih =>
    cases items with
    | nil => exact h
    | cons b rest =>
      have later : item? i rest = some a := ih h
      rw [item?_below (lt_of_item? later), later]

end Stack

namespace Scope

open Stack

variable {s : Scope} {name : Text} {i : Nat} {e : Entry}

theorem length_modify (s : Scope) (name : Text) (f : Entry → Entry) :
    (s.modify name f).length = s.length := by
  induction s with
  | nil => rfl
  | cons e rest ih => by_cases same : e.name = name <;> simp [modify, same, ih]

theorem item?_modify {f : Entry → Entry} {e' : Entry} (h : item? i s = some e)
    (h' : item? i (s.modify name f) = some e') :
    e' = e ∨ s.indexOf? name = some i ∧ s.find? name = some e ∧ e' = f e := by
  induction s with
  | nil => cases h
  | cons first rest ih =>
    unfold modify at h'
    unfold indexOf? find?
    by_cases same : first.name = name
    · simp only [if_pos same] at h' ⊢
      by_cases top : i = rest.length
      · subst top
        rw [item?_top] at h h'
        cases h
        cases h'
        exact Or.inr ⟨rfl, rfl, rfl⟩
      · unfold item? at h h'
        rw [if_neg top] at h h'
        rw [h] at h'
        cases h'
        exact Or.inl rfl
    · simp only [if_neg same] at h' ⊢
      have length : (Scope.modify name f rest).length = rest.length := length_modify rest name f
      unfold item? at h h'
      rw [length] at h'
      by_cases top : i = rest.length
      · rw [if_pos top] at h h'
        cases h
        cases h'
        exact Or.inl rfl
      · rw [if_neg top] at h h'
        exact ih h h'

end Scope

/-- A place for a variable: the frame, counted from the one that waits longest, and the number there. -/
structure Slot where
  level : Nat
  index : Nat

namespace Standing

def scopes (s : Standing) : List Scope := s.now.scope :: s.waiting.map fun f => f.machine.scope

def held? (s : Standing) (p : Slot) : Option Entry :=
  (Stack.item? p.level s.scopes).bind (Stack.item? p.index)

def nextSlot (s : Standing) : Slot := ⟨s.waiting.length, s.now.scope.length⟩

def Names (s : Standing) (name : Text) (p : Slot) : Prop :=
  p.level = s.waiting.length ∧ s.now.scope.indexOf? name = some p.index

variable {s : Standing} {p : Slot} {e : Entry}

theorem level_lt (h : s.held? p = some e) : p.level < s.waiting.length + 1 := by
  obtain ⟨scope, there, -⟩ := Option.bind_eq_some_iff.mp h
  have lt := Stack.lt_of_item? there
  simpa [scopes] using lt

theorem held?_now (same : p.level = s.waiting.length) :
    s.held? p = Stack.item? p.index s.now.scope := by
  have top : Stack.item? p.level s.scopes = some s.now.scope := by
    rw [same]
    have length : s.waiting.length = (s.waiting.map fun f => f.machine.scope).length := by simp
    rw [length]
    exact Stack.item?_top _ _
  rw [held?, top]
  rfl

theorem held?_waiting (below : p.level < s.waiting.length) :
    s.held? p = (Stack.item? p.level (s.waiting.map fun f => f.machine.scope)).bind
      (Stack.item? p.index) := by
  rw [held?, scopes, Stack.item?_below (by simpa using below)]

theorem held?_nextSlot (s : Standing) : s.held? s.nextSlot = none := by
  rw [held?_now rfl]
  exact Stack.item?_length _

theorem Names.unique {name : Text} {q : Slot} (h : s.Names name p) (h' : s.Names name q) : p = q := by
  have level : p.level = q.level := h.1.trans h'.1.symm
  have index : p.index = q.index := Option.some.inj (h.2.symm.trans h'.2)
  cases p
  cases q
  simp_all

end Standing

namespace Act

def store : Act → Machine → Store
  | capture name, m => (m.capture name).store
  | lock c, m => (m.lock c).store
  | write c v, m => (m.write c v).store
  | _, m => m.store

def content (c : Nat) : Act → Value → Value
  | write d v, w => if d = c then v else w
  | _, w => w

end Act

namespace Machine

variable {m : Machine} {name : Text} {e : Entry}

theorem size_capture (m : Machine) (name : Text) : m.store.size ≤ (m.capture name).store.size := by
  unfold Machine.capture
  split
  · exact Nat.le_refl _
  · next e _ =>
    change m.store.size ≤ (m.store.share e.value).1.size
    unfold Store.share
    split
    · exact Nat.le_refl _
    · simp

theorem size_capture_new (found : m.scope.find? name = some e) (own : e.value.isShared = false) :
    (m.capture name).store.size = m.store.size + 1 := by
  simp only [Machine.capture, found]
  change (m.store.share e.value).1.size = _
  cases value : e.value with
  | shared c => simp [value, Value.isShared] at own
  | _ => exact Store.size_alloc _ _

theorem content_capture {c : Nat} (old : c < m.store.size) (name : Text) :
    (m.capture name).store.cell c = m.store.cell c := by
  unfold Machine.capture
  split
  · rfl
  · next e _ =>
    change (m.store.share e.value).1.cell c = _
    unfold Store.share
    split
    · rfl
    · exact Store.cell_alloc_old old _

end Machine

abbrev Engine.properCourse (engine : Engine) : Course engine := engine.course Kind.proper

namespace Course

variable {engine : Engine} {s : Standing} {a : Act} {acts : List Act} {p : Slot} {e e' : Entry}

/-- What an act can do to a variable: nothing to an alias; a variable that is none can get another
value that is none, or become an alias of a new cell. -/
structure Touches (a : Act) (s : Standing) (p : Slot) (e e' : Entry) : Prop where
  name : e'.name = e.name
  value : e'.value = e.value ∨ e.value.isShared = false ∧ (e'.value.isShared = false ∨
    e'.value = .shared s.now.store.size ∧ s.now.store.size < (a.next s).now.store.size ∧
      ∃ name, a = .capture name ∧ s.Names name p)

theorem Touches.refl (a : Act) (s : Standing) (p : Slot) (e : Entry) : Touches a s p e e :=
  ⟨rfl, Or.inl rfl⟩

theorem touches_now {m : Machine} (h : s.held? p = some e)
    (h' : Standing.held? ⟨m, s.waiting⟩ p = some e')
    (now : p.level = s.waiting.length → Stack.item? p.index s.now.scope = some e →
      Stack.item? p.index m.scope = some e' → Touches a s p e e') : Touches a s p e e' := by
  by_cases same : p.level = s.waiting.length
  · rw [Standing.held?_now same] at h
    rw [Standing.held?_now (s := ⟨m, s.waiting⟩) same] at h'
    exact now same h h'
  · have below : p.level < s.waiting.length := by
      have := Standing.level_lt h
      omega
    rw [Standing.held?_waiting below] at h
    rw [Standing.held?_waiting (s := ⟨m, s.waiting⟩) below] at h'
    rw [h] at h'
    cases h'
    exact .refl a s p e

theorem touches_same {m : Machine} (h : s.held? p = some e)
    (h' : Standing.held? ⟨m, s.waiting⟩ p = some e') (scope : m.scope = s.now.scope) :
    Touches a s p e e' := by
  refine touches_now h h' fun _ there there' => ?_
  rw [scope, there] at there'
  cases there'
  exact .refl a s p e

theorem touches_enter {m : Machine} {f : Frame} (scope : f.machine.scope = s.now.scope)
    (h : s.held? p = some e) (h' : Standing.held? ⟨m, f :: s.waiting⟩ p = some e') :
    Touches a s p e e' := by
  have lt := Standing.level_lt h
  rw [Standing.held?_waiting (s := ⟨m, f :: s.waiting⟩) (by simpa using lt)] at h'
  simp only [List.map_cons, scope] at h'
  unfold Standing.held? Standing.scopes at h
  rw [h] at h'
  cases h'
  exact .refl a s p e

theorem touches_exit {m n : Machine} {f : Frame} {rest : List Frame} (scope : m.scope = f.machine.scope)
    (h : Standing.held? ⟨n, f :: rest⟩ p = some e) (h' : Standing.held? ⟨m, rest⟩ p = some e')
    (s : Standing) : Touches a s p e e' := by
  have lt := Standing.level_lt h'
  rw [Standing.held?_waiting (s := ⟨n, f :: rest⟩) (by simpa using lt)] at h
  simp only [List.map_cons, ← scope] at h
  unfold Standing.held? Standing.scopes at h'
  rw [h] at h'
  cases h'
  exact .refl a s p e

theorem Fits.touches (fits : engine.properCourse.Fits a s) (h : s.held? p = some e)
    (h' : (a.next s).held? p = some e') : Touches a s p e e' := by
  obtain ⟨now, waiting⟩ := s
  cases a with
  | idle o p c ms => exact touches_same h h' rfl
  | setThis v => exact touches_same h h' rfl
  | lock c => exact touches_same h h' rfl
  | write c v => exact touches_same h h' rfl
  | bind name found => exact touches_same h h' rfl
  | call scope library this => exact touches_enter (f := .caller now) rfl h h'
  | begin shelf script next => exact touches_enter (f := .importer now shelf) rfl h h'
  | back =>
    obtain ⟨m, rest, eq⟩ := fits
    cases eq
    exact touches_exit (f := .caller m) rfl h h' _
  | finish found =>
    obtain ⟨m, shelf, rest, eq, -⟩ := fits
    cases eq
    cases found <;> exact touches_exit (f := .importer m shelf) rfl h h' _
  | declare name v isConst =>
    refine touches_now h h' fun _ there there' => ?_
    have same := Stack.item?_below (Stack.lt_of_item? there) ⟨name, v, isConst, none⟩
    have stays : some e = some e' := there.symm.trans (same.symm.trans there')
    cases stays
    exact .refl _ _ p e
  | cut entries imports =>
    refine touches_now h h' fun _ there there' => ?_
    rw [Stack.item?_drop there'] at there
    cases there
    exact .refl _ _ p _
  | mark name as =>
    refine touches_now h h' fun _ there there' => ?_
    rcases Scope.item?_modify there there' with rfl | ⟨-, -, rfl⟩
    · exact .refl _ _ p _
    · exact ⟨rfl, Or.inl rfl⟩
  | assign name v =>
    obtain ⟨old, found, -, value⟩ := fits
    refine touches_now h h' fun _ there there' => ?_
    rcases Scope.item?_modify there there' with rfl | ⟨-, found', rfl⟩
    · exact .refl _ _ p _
    · have same : old = e := Option.some.inj (found.symm.trans found')
      subst same
      refine ⟨rfl, ?_⟩
      rcases value with rfl | ⟨own, proper⟩
      · exact Or.inl rfl
      · have unshared : v.isShared = false := Value.Proper.unshared proper
        exact Or.inr ⟨own, Or.inl unshared⟩
  | capture name =>
    obtain ⟨old, found⟩ := fits
    have found : now.scope.find? name = some old := found
    have next : (now.capture name).scope = now.scope.setValue name (now.store.share old.value).2 := by
      simp only [Machine.capture, found]
    refine touches_now h h' fun level there there' => ?_
    change Stack.item? p.index (now.capture name).scope = some e' at there'
    rw [next] at there'
    rcases Scope.item?_modify there there' with rfl | ⟨index, found', rfl⟩
    · exact .refl _ _ p _
    · have same : old = e := Option.some.inj (found.symm.trans found')
      subst same
      refine ⟨rfl, ?_⟩
      have new : old.value.isShared = false → now.store.size < (now.capture name).store.size := by
        intro own
        rw [Machine.size_capture_new found own]
        exact Nat.lt_succ_self _
      cases value : old.value with
      | shared c => exact Or.inl rfl
      | _ => exact Or.inr ⟨rfl, Or.inr ⟨rfl, new (by rw [value]; rfl), name, rfl, level, index⟩⟩

theorem Fits.store_next {C : Course engine} (fits : C.Fits a s) :
    (a.next s).now.store = a.store s.now := by
  obtain ⟨now, waiting⟩ := s
  cases a with
  | back =>
    obtain ⟨m, rest, eq⟩ := fits
    cases eq
    rfl
  | finish found =>
    obtain ⟨m, shelf, rest, eq, -⟩ := fits
    cases eq
    cases found <;> rfl
  | _ => rfl

end Course

namespace Course

variable {engine : Engine} {C : Course engine} {s : Standing} {a : Act} {acts : List Act}

theorem Fits.size_le (fits : C.Fits a s) : s.now.store.size ≤ (a.next s).now.store.size := by
  rw [fits.store_next]
  cases a with
  | capture name => exact s.now.size_capture name
  | lock c => exact (Store.size_put _ _ _).ge
  | write c v => exact ((Store.size_put _ _ _).trans (Store.size_put _ _ _)).ge
  | _ => exact Nat.le_refl _

theorem Fits.content (fits : C.Fits a s) {c : Nat} (old : c < s.now.store.size) :
    ((a.next s).now.store.cell c).value = a.content c (s.now.store.cell c).value := by
  rw [fits.store_next]
  cases a with
  | capture name => exact congrArg Cell.value (Machine.content_capture old name)
  | lock d => exact Store.put_value (by rfl) c
  | write d v =>
    change (((s.now.store.setValue d v).endWrite d).cell c).value = if d = c then v else _
    rw [Store.endWrite_value, Store.setValue]
    by_cases same : d = c
    · subst same
      rw [Store.cell_put_self old, if_pos rfl]
    · rw [Store.cell_put_of_ne (Ne.symm same), if_neg same]
  | _ => rfl

end Course

namespace Standing

def moment (s : Standing) (acts : List Act) (k : Nat) : Standing := s.after (acts.take k)

/-- A variable that is in its slot all the time from one moment to another. -/
def Lives (s : Standing) (acts : List Act) (p : Slot) (i j : Nat) : Prop :=
  ∀ k, i ≤ k → k ≤ j → ∃ e, (s.moment acts k).held? p = some e

variable {s : Standing} {acts : List Act} {a : Act} {k : Nat}

theorem moment_succ (h : acts[k]? = some a) : s.moment acts (k + 1) = a.next (s.moment acts k) := by
  obtain ⟨inside, rfl⟩ := List.getElem?_eq_some_iff.mp h
  rw [moment, List.take_succ_eq_append_getElem inside, after_append]
  rfl

theorem Lives.less {p : Slot} {i j l : Nat} (h : s.Lives acts p i j) (less : l ≤ j) :
    s.Lives acts p i l :=
  fun k first last => h k first (Nat.le_trans last less)

end Standing

namespace Course

variable {engine : Engine} {C : Course engine} {s : Standing} {a : Act} {acts : List Act}
  {i j k : Nat} {p q : Slot}

theorem Lawful.fits (lawful : C.Lawful s acts) (h : acts[k]? = some a) :
    C.Fits a (s.moment acts k) := by
  obtain ⟨inside, rfl⟩ := List.getElem?_eq_some_iff.mp h
  have split : acts = acts.take k ++ acts[k] :: acts.drop (k + 1) := by simp
  rw [split] at lawful
  exact (lawful_append.mp lawful).2.1

theorem Lawful.size_mono (lawful : C.Lawful s acts) (later : i ≤ j) (inside : j ≤ acts.length) :
    (s.moment acts i).now.store.size ≤ (s.moment acts j).now.store.size := by
  induction j, later using Nat.le_induction with
  | base => exact Nat.le_refl _
  | succ j later ih =>
    obtain ⟨a, act⟩ : ∃ a, acts[j]? = some a := ⟨acts[j], List.getElem?_eq_getElem inside⟩
    rw [Standing.moment_succ act]
    exact Nat.le_trans (ih (by omega)) (lawful.fits act).size_le

/-- The content of a cell is what was last written to it. -/
theorem Lawful.content (lawful : C.Lawful s acts) {c : Nat}
    (there : c < (s.moment acts i).now.store.size) (later : i ≤ j) (inside : j ≤ acts.length) :
    ((s.moment acts j).now.store.cell c).value =
      ((acts.take j).drop i).foldl (fun v a => a.content c v)
        ((s.moment acts i).now.store.cell c).value := by
  induction j, later using Nat.le_induction with
  | base => simp
  | succ j later ih =>
    obtain ⟨a, act⟩ : ∃ a, acts[j]? = some a := ⟨acts[j], List.getElem?_eq_getElem inside⟩
    have old := Nat.lt_of_lt_of_le there (lawful.size_mono later (by omega))
    have split : (acts.take (j + 1)).drop i = (acts.take j).drop i ++ [a] := by
      obtain ⟨inside, rfl⟩ := List.getElem?_eq_some_iff.mp act
      rw [List.take_succ_eq_append_getElem inside, List.drop_append_of_le_length]
      simp
      omega
    rw [Standing.moment_succ act, (lawful.fits act).content old, split, List.foldl_append, ih (by omega)]
    rfl

section Proper

variable (lawful : engine.properCourse.Lawful s acts)
include lawful

/-- A variable that is an alias stays the same alias as long as it is there. -/
theorem alias_stays (later : i ≤ j) (inside : j ≤ acts.length) (lives : s.Lives acts p i j) {e : Entry}
    {c : Nat} (first : (s.moment acts i).held? p = some e) (shared : e.value = .shared c) :
    ∃ e', (s.moment acts j).held? p = some e' ∧ e'.name = e.name ∧ e'.value = .shared c := by
  induction j, later using Nat.le_induction with
  | base => exact ⟨e, first, rfl, shared⟩
  | succ j later ih =>
    obtain ⟨e', there, name, shared'⟩ := ih (by omega) (lives.less (by omega))
    obtain ⟨a, act⟩ : ∃ a, acts[j]? = some a := ⟨acts[j], List.getElem?_eq_getElem inside⟩
    obtain ⟨e'', next⟩ := lives (j + 1) (by omega) (Nat.le_refl _)
    rw [Standing.moment_succ act] at next ⊢
    have touches := (lawful.fits act).touches there next
    refine ⟨e'', next, touches.name.trans name, ?_⟩
    rcases touches.value with same | ⟨own, -⟩
    · exact same.trans shared'
    · simp [shared', Value.isShared] at own

/-- A variable that has become an alias was captured, and the cell was made for it. -/
theorem alias_origin (later : i ≤ j) (inside : j ≤ acts.length) (lives : s.Lives acts p i j)
    {e e' : Entry} {c : Nat} (first : (s.moment acts i).held? p = some e)
    (own : e.value.isShared = false) (last : (s.moment acts j).held? p = some e')
    (shared : e'.value = .shared c) :
    ∃ k name, i ≤ k ∧ k < j ∧ acts[k]? = some (.capture name) ∧ (s.moment acts k).Names name p ∧
      c = (s.moment acts k).now.store.size ∧ c < (s.moment acts (k + 1)).now.store.size := by
  induction j, later using Nat.le_induction generalizing e' with
  | base =>
    rw [first] at last
    cases last
    simp [shared, Value.isShared] at own
  | succ j later ih =>
    obtain ⟨a, act⟩ : ∃ a, acts[j]? = some a := ⟨acts[j], List.getElem?_eq_getElem inside⟩
    obtain ⟨_, there⟩ := lives j later (by omega)
    rw [Standing.moment_succ act] at last
    rcases ((lawful.fits act).touches there last).value with same | ⟨-, unshared | ⟨new, more, name, rfl, names⟩⟩
    · obtain ⟨k, name, since, before, rest⟩ := ih (by omega) (lives.less (by omega)) there (same ▸ shared)
      exact ⟨k, name, since, by omega, rest⟩
    · simp [shared, Value.isShared] at unshared
    · have cell : c = (s.moment acts j).now.store.size := by
        rw [shared] at new
        cases new
        rfl
      refine ⟨j, name, later, Nat.lt_succ_self j, act, names, cell, ?_⟩
      rw [Standing.moment_succ act, cell]
      exact more

theorem declared_own {name : Text} {v : Value} {isConst : Bool}
    (act : acts[k]? = some (.declare name v isConst)) :
    (s.moment acts (k + 1)).held? (s.moment acts k).nextSlot = some ⟨name, v, isConst, none⟩ ∧
      v.isShared = false := by
  constructor
  · rw [Standing.moment_succ act, Standing.held?_now rfl]
    exact Stack.item?_top _ _
  · exact Value.Proper.unshared (lawful.fits act)

end Proper

end Course

end Scripting
