import Scripting.Proofs.Course.Variables

/-
Captured variables. A closure carries the cells that its variables are aliases of; calling it makes
its parameters aliases of the same cells; and whatever is done to such a variable is done to its
cell. Along a course nothing else happens to these aliases, so all that stand for one cell read the
value that was last written to it, and variables that were declared apart never share one.
-/
namespace Scripting

open Stack

namespace Scope

variable {s : Scope} {name other x : Text} {c k : Nat} {e : Entry} {v : Value}

theorem find?_setValue_self (h : s.find? name = some e) (v : Value) :
    (s.setValue name v).find? name = some { e with value := v } := by
  induction s with
  | nil => cases h
  | cons first rest ih =>
    unfold find? at h
    unfold setValue modify
    by_cases same : first.name = name
    · simp only [if_pos same] at h ⊢
      cases h
      exact if_pos same
    · simp only [if_neg same] at h ⊢
      exact (if_neg same).trans (ih h)

theorem find?_setValue_of_ne (h : other ≠ name) (v : Value) :
    (s.setValue name v).find? other = s.find? other := by
  induction s with
  | nil => rfl
  | cons first rest ih =>
    unfold setValue modify
    by_cases same : first.name = name
    · have ne : first.name ≠ other := fun eq => h (eq ▸ same)
      simp only [if_pos same]
      unfold find?
      simp only [if_neg ne]
    · simp only [if_neg same]
      unfold find?
      rw [show find? other (modify name _ rest) = find? other rest from ih]

def Aliases (s : Scope) (name : Text) (c : Nat) : Prop :=
  ∃ e, s.find? name = some e ∧ e.value = .shared c

theorem Aliases.share {store : Store} (h : s.Aliases other c) (found : s.find? name = some e) :
    (s.setValue name (store.share e.value).2).Aliases other c := by
  obtain ⟨e', found', shared⟩ := h
  by_cases same : other = name
  · subst same
    rw [found] at found'
    cases found'
    refine ⟨_, find?_setValue_self found _, ?_⟩
    simp [shared, Store.share]
  · exact ⟨e', (find?_setValue_of_ne same _).trans found', shared⟩

end Scope

namespace Eval

variable {engine : Engine} {ev : Evaluator} {α : Type} {m n : Machine} {pos : Position} {name : Text}
  {c : Nat} {e : Entry}

section Parameters

variable {params : List Text} {args : List Value} {s : Scope} {i k : Nat} {x : Text} {v : Value}

theorem item?_bindParams_below (h : i < s.length) (params : List Text) (args : List Value) :
    item? i (bindParams params args s) = item? i s := by
  induction params generalizing args s with
  | nil => rfl
  | cons y rest ih =>
    cases args with
    | nil => rfl
    | cons w more =>
      change item? i (bindParams rest more (s.push y w false)) = _
      rw [ih (show i < (s.push y w false).length from Nat.lt_succ_of_lt h)]
      exact item?_below h _

theorem item?_bindParams (param : params[k]? = some x) (arg : args[k]? = some v) :
    item? (s.length + k) (bindParams params args s) = some ⟨x, v, false, none⟩ := by
  induction params generalizing args s k with
  | nil => cases param
  | cons y rest ih =>
    cases args with
    | nil => cases arg
    | cons w more =>
      change item? _ (bindParams rest more (s.push y w false)) = _
      cases k with
      | zero =>
        cases param
        cases arg
        rw [item?_bindParams_below (Nat.lt_succ_self _)]
        exact item?_top _ _
      | succ k =>
        have length : (s.push y w false).length + k = s.length + (k + 1) := by
          simp only [Scope.push, List.length_cons]
          omega
        rw [← length]
        exact ih param arg

end Parameters

theorem callScript_eq {target : Target} {args : List Value} {this : Option Value}
    (room : ¬ (0 < engine.limits.callLevels ∧ engine.limits.callLevels ≤ m.depth)) :
    callScript engine ev target args pos (this, m) =
      inFrame (bindParams target.function.params args []) target.library
        (runBody ev target.function.body) (this, m) := by
  change (if 0 < engine.limits.callLevels ∧ engine.limits.callLevels ≤ m.depth then _ else _ :
    Held (Option Value) Value) (this, m) = _
  exact congrFun (if_neg room) (this, m)

theorem tick_ok {u : Unit} (h : tick engine pos m = .ok u n) :
    n.scope = m.scope ∧ n.store = m.store := by
  rw [tick_eq] at h
  split at h <;> cases h
  exact ⟨rfl, rfl⟩

theorem flatten_own {s : Store} {fuel : Nat} {v w : Value} (own : v.isShared = false)
    (h : s.flatten fuel v = .ok w) : w = v := by
  cases fuel with
  | zero => cases h
  | succ fuel =>
    cases v with
    | shared c => cases own
    | _ =>
      cases h
      rfl

theorem read_ok {s : Store} {v : Value} (h : s.read c name pos = .ok v) : v = (s.cell c).value := by
  unfold Store.read at h
  split at h <;> cases h
  rfl

theorem evalAt_alias (tidy : m.Tidy Kind.proper) (stands : m.scope.Aliases name c) {fuel : Nat}
    {v : Value} (h : evalAt engine fuel (.var pos name []) m = .ok v n) :
    v = (m.store.cell c).value := by
  obtain ⟨e, found, shared⟩ := stands
  cases fuel with
  | zero => cases h
  | succ fuel =>
    obtain ⟨_, o, ticked, read⟩ := bind_cases (p := tick engine pos)
      (f := fun _ => readVariable (evaluator engine fuel) pos name []) h
    obtain ⟨scope, store⟩ := tick_ok ticked
    have plain : (m.store.cell c).value.isShared = false := (tidy.world.cells c).unshared
    obtain ⟨_, _, got, read⟩ := bind_cases (p := get) read
    cases got
    simp only [scope, found, shared] at read
    obtain ⟨_, _, got, read⟩ := bind_cases (p := get) read
    cases got
    obtain ⟨w, _, opened, read⟩ := bind_cases read
    have content : w = (m.store.cell c).value := by
      rw [store] at opened
      cases looked : m.store.read c name pos with
      | error e =>
        rw [looked] at opened
        cases opened
      | ok w' =>
        rw [looked] at opened
        cases opened
        exact read_ok looked
    obtain ⟨_, _, got, read⟩ := bind_cases (p := get) read
    cases got
    cases flat : Store.flatten _ (evaluator engine fuel).fuel w with
    | error h =>
      rw [flat] at read
      cases read
    | ok v' =>
      rw [flat] at read
      cases read
      rw [flatten_own (content ▸ plain) flat, content]

/-- Whatever works behind an alias works on the content of its cell, and leaves what it makes of that
in the cell. -/
theorem behind_alias {k : Held Value α} {a : α} {v : Value}
    (h : Held.behind name pos k (.shared c, m) = .ok a (v, n)) :
    v = .shared c ∧ ∃ w o, k ((m.store.cell c).value, m.lock c) = .ok a (w, o) ∧ n = o.write c w := by
  replace h : Held.lift (Held.ofCell c name pos k) (.shared c, m) = .ok a (v, n) := h
  rw [Held.lift_eq] at h
  obtain ⟨p, worked, same⟩ := inState_cases h
  cases same
  refine ⟨rfl, ?_⟩
  cases opened : m.store.beginWrite c name pos with
  | error e =>
    rw [Held.ofCell_refused opened] at worked
    cases worked
  | ok s =>
    obtain ⟨free, rfl⟩ := Store.beginWrite_cases opened
    rw [Held.ofCell_eq opened, Store.beginWrite_value opened] at worked
    obtain ⟨⟨w, o⟩, done, rfl⟩ := inState_cases worked
    exact ⟨w, o, done, rfl⟩

theorem access_alias {k : Held Value α} {forWrite : Bool} {a : α} (found : m.scope.find? name = some e)
    (mutable : e.isConst = false) (shared : e.value = .shared c)
    (h : access engine ev (.var pos name []) forWrite k m = .ok a n) :
    ∃ w o, k ((m.store.cell c).value, m.lock c) = .ok a (w, o) ∧
      n = { o.write c w with scope := o.scope.setValue name (.shared c) } := by
  obtain ⟨_, _, got, h⟩ := bind_cases (p := get) h
  cases got
  simp only [found, mutable, shared, Bool.false_eq_true, if_false] at h
  rw [Run.onVariable_eq] at h
  obtain ⟨⟨v, p⟩, worked, rfl⟩ := inState_cases h
  obtain ⟨rfl, w, o, done, rfl⟩ := behind_alias worked
  exact ⟨w, o, done, rfl⟩

theorem capture_ok {v : Value} (h : capture pos name m = .ok v n) :
    (∃ c, n.scope.Aliases name c ∧ v = .shared c) ∧
      ∀ other c, m.scope.Aliases other c → n.scope.Aliases other c := by
  obtain ⟨_, _, got, h⟩ := bind_cases (p := get) h
  cases got
  cases found : m.scope.find? name with
  | none =>
    rw [found] at h
    cases h
  | some e =>
    rw [found] at h
    cases h
    refine ⟨?_, fun other c stands => stands.share found⟩
    obtain ⟨c, shared⟩ : ∃ c, (m.store.share e.value).2 = .shared c := by
      cases e.value <;> exact ⟨_, rfl⟩
    exact ⟨c, ⟨_, Scope.find?_setValue_self found _, shared⟩, shared⟩

theorem captures_ok {captured : List Text} {curry : List Value}
    (h : captured.mapM (capture pos) m = .ok curry n) :
    List.Forall₂ (fun x v => ∃ c, n.scope.Aliases x c ∧ v = .shared c) captured curry ∧
      ∀ other c, m.scope.Aliases other c → n.scope.Aliases other c := by
  induction captured generalizing m curry with
  | nil =>
    cases h
    exact ⟨.nil, fun _ _ stands => stands⟩
  | cons x rest ih =>
    rw [List.mapM_cons] at h
    obtain ⟨v, o, first, h⟩ := bind_cases h
    obtain ⟨vs, u, later, h⟩ := bind_cases h
    cases h
    obtain ⟨⟨c, stands, rfl⟩, keeps⟩ := capture_ok first
    obtain ⟨all, keeps'⟩ := ih later
    exact ⟨.cons ⟨c, keeps' x c stands, rfl⟩ all, fun other d old => keeps' other d (keeps other d old)⟩

/-- A closure carries the cells that its captured variables are aliases of. -/
theorem evalAt_closure {fuel : Nat} {captured : List Text} {v : Value}
    (h : evalAt engine fuel (.closure pos name captured) m = .ok v n) :
    ∃ curry, v = .fn name curry ∧
      List.Forall₂ (fun x v => ∃ c, n.scope.Aliases x c ∧ v = .shared c) captured curry ∧
      ∀ other c, m.scope.Aliases other c → n.scope.Aliases other c := by
  cases fuel with
  | zero => cases h
  | succ fuel =>
    obtain ⟨_, o, ticked, h⟩ := bind_cases (p := tick engine pos)
      (f := fun _ => captured.mapM (capture pos) >>= fun curry => pure (Value.fn name curry)) h
    obtain ⟨curry, u, made, h⟩ := bind_cases h
    cases h
    rw [← (tick_ok ticked).1]
    obtain ⟨all, keeps⟩ := captures_ok made
    exact ⟨curry, rfl, all, keeps⟩

end Eval

namespace Standing

variable {s : Standing} {acts : List Act} {p q : Slot} {i j k t u : Nat}

inductive Begins (s : Standing) (acts : List Act) (p : Slot) : Nat → Prop where
  | start {e : Entry} (there : s.held? p = some e) : Begins s acts p 0
  | declared {k : Nat} {name : Text} {v : Value} {isConst : Bool}
      (act : acts[k]? = some (.declare name v isConst)) (slot : p = (s.moment acts k).nextSlot) :
      Begins s acts p (k + 1)

theorem Begins.after (h : s.Begins acts p j) (begun : i < j) (lives : s.Lives acts p i t) : t < j := by
  cases h with
  | start there => cases begun
  | @declared k name v isConst act slot =>
    refine Nat.lt_of_not_le fun still => ?_
    obtain ⟨e, there⟩ := lives k (Nat.le_of_lt_succ begun) (Nat.le_of_succ_le still)
    rw [slot, held?_nextSlot] at there
    cases there

theorem moment_mem_passed (s : Standing) (acts : List Act) (k : Nat) :
    s.moment acts k ∈ s.passed acts := by
  induction acts generalizing s k with
  | nil =>
    rw [moment, List.take_nil]
    exact List.mem_cons_self
  | cons a rest ih =>
    cases k with
    | zero => exact List.mem_cons_self
    | succ k => exact List.mem_cons_of_mem _ (ih (a.next s) k)

end Standing

namespace Course

variable {engine : Engine} {s : Standing} {acts : List Act} {p q : Slot} {i j t u : Nat}

section Proper

variable (lawful : engine.properCourse.Lawful s acts)
include lawful

theorem begins_own (own : ∀ e ∈ s.now.scope, e.value.isShared = false) (alone : s.waiting = [])
    (h : s.Begins acts p i) : ∃ e, (s.moment acts i).held? p = some e ∧ e.value.isShared = false := by
  cases h with
  | @start e there =>
    refine ⟨e, there, own e ?_⟩
    have level : p.level = s.waiting.length := by
      have := Standing.level_lt there
      simp only [alone, List.length_nil] at this ⊢
      omega
    rw [Standing.held?_now level] at there
    exact mem_of_item? there
  | @declared k name v isConst act slot =>
    obtain ⟨there, own⟩ := declared_own lawful act
    exact ⟨_, slot ▸ there, own⟩

/-- Two variables that are different, or there at different times, never become aliases of one cell. -/
theorem own_apart (lives : s.Lives acts p i t) (lives' : s.Lives acts q j u) (first : i ≤ t)
    (second : j ≤ u) (t_le : t ≤ acts.length) (u_le : u ≤ acts.length) {e₁ e₂ f₁ f₂ : Entry} {c d : Nat}
    (start : (s.moment acts i).held? p = some e₁) (own : e₁.value.isShared = false)
    (there : (s.moment acts t).held? p = some e₂) (shared : e₂.value = .shared c)
    (start' : (s.moment acts j).held? q = some f₁) (own' : f₁.value.isShared = false)
    (there' : (s.moment acts u).held? q = some f₂) (shared' : f₂.value = .shared d)
    (apart : p = q → t < j ∨ u < i) : c ≠ d := by
  obtain ⟨m, x, i_le, m_lt, capture, names, c_eq, c_lt⟩ :=
    alias_origin lawful first t_le lives start own there shared
  obtain ⟨n, y, j_le, n_lt, capture', names', d_eq, d_lt⟩ :=
    alias_origin lawful second u_le lives' start' own' there' shared'
  rcases Nat.lt_trichotomy m n with before | rfl | after
  · have := lawful.size_mono (i := m + 1) (j := n) before (by omega)
    omega
  · -- One act captures one variable only.
    have name : x = y := by
      rw [capture] at capture'
      cases capture'
      rfl
    have := apart (names.unique (name ▸ names'))
    omega
  · have := lawful.size_mono (i := n + 1) (j := m) after (by omega)
    omega

end Proper

end Course

def Act.lastWritten (c : Nat) (v : Value) (acts : List Act) : Value :=
  acts.foldl (fun w a => a.content c w) v

/-- How the variables of a course share cells: an alias stays the same alias as long as the variable is
there; a read through an alias gives what was last written to its cell; and variables that began
apart never share a cell. -/
structure Standing.Shares (engine : Engine) (s : Standing) (acts : List Act) : Prop where
  stays : ∀ p i j e c, i ≤ j → j ≤ acts.length → s.Lives acts p i j →
    (s.moment acts i).held? p = some e → e.value = .shared c →
    ∃ e', (s.moment acts j).held? p = some e' ∧ e'.name = e.name ∧ e'.value = .shared c
  reads : ∀ i j c, i ≤ j → j ≤ acts.length → c < (s.moment acts i).now.store.size →
    ∀ fuel pos name v n, (s.moment acts j).now.scope.Aliases name c →
      Eval.evalAt engine fuel (.var pos name []) (s.moment acts j).now = .ok v n →
      v = Act.lastWritten c ((s.moment acts i).now.store.cell c).value ((acts.take j).drop i)
  apart : ∀ p q i j t u e f c d, s.Begins acts p i → s.Begins acts q j → (p, i) ≠ (q, j) →
    i ≤ t → j ≤ u → t ≤ acts.length → u ≤ acts.length → s.Lives acts p i t → s.Lives acts q j u →
    (s.moment acts t).held? p = some e → e.value = .shared c →
    (s.moment acts u).held? q = some f → f.value = .shared d → c ≠ d

theorem Course.Lawful.shares {engine : Engine} {s : Standing} {acts : List Act}
    (lawful : engine.properCourse.Lawful s acts) (tidy : s.Tidy Kind.proper) (alone : s.waiting = [])
    (own : ∀ e ∈ s.now.scope, e.value.isShared = false) : s.Shares engine acts where
  stays p i j e c later inside lives first shared :=
    alias_stays lawful later inside lives first shared
  reads i j c later inside there fuel pos name v n stands read := by
    have clean := lawful.tidy tidy _ (s.moment_mem_passed acts j)
    rw [Eval.evalAt_alias clean.now stands read, lawful.content there later inside]
    rfl
  apart p q i j t u e f c d begins begins' different first second t_le u_le lives lives' there shared
      there' shared' := by
    obtain ⟨e₁, start, own₁⟩ := begins_own lawful own alone begins
    obtain ⟨f₁, start', own₂⟩ := begins_own lawful own alone begins'
    refine own_apart lawful lives lives' first second t_le u_le start own₁ there shared start' own₂
      there' shared' ?_
    rintro rfl
    rcases Nat.lt_trichotomy i j with before | rfl | after
    · exact Or.inl (begins'.after before lives)
    · exact absurd rfl different
    · exact Or.inr (begins.after after lives')

/-- Captured variables share their cells. Every run, with natives that hand out no aliases of their own
and variables that are none, is a course in which aliases stay, reads give what was last written,
and variables that began apart stay apart. A closure carries the cells of the variables that it
captures; a call makes parameters aliases of the cells that it is given; and whatever is done to a
variable that is an alias is done to the content of its cell. -/
theorem captured_variables_share (engine : Engine)
    (natives : ∀ m ∈ engine.nativeModules, m.Fair Kind.proper) (script : Script) (s : Stage)
    (tidy : s.Tidy Kind.proper) (own : ∀ e ∈ s.scope, e.value.isShared = false) :
    (∃ acts out, engine.Traces Kind.proper (Engine.runBy script) s (s.start script.library 0) acts out ∧
      (s.start script.library 0).alone.Shares engine acts) ∧
    (∀ fuel pos name captured m v n,
      Eval.evalAt engine fuel (.closure pos name captured) m = .ok v n →
      ∃ curry, v = .fn name curry ∧
        List.Forall₂ (fun x v => ∃ c, n.scope.Aliases x c ∧ v = .shared c) captured curry ∧
        ∀ other c, m.scope.Aliases other c → n.scope.Aliases other c) ∧
    (∀ ev (target : Eval.Target) args pos this m, ∃ scope : Scope,
      (¬ (0 < engine.limits.callLevels ∧ engine.limits.callLevels ≤ m.depth) →
        Eval.callScript engine ev target args pos (this, m) =
          Eval.inFrame scope target.library (Eval.runBody ev target.function.body) (this, m)) ∧
      ∀ k x v, target.function.params[k]? = some x → args[k]? = some v →
        item? k scope = some ⟨x, v, false, none⟩) ∧
    (∀ ev (α : Type) pos name forWrite (k : Held Value α) m e c a n, m.scope.find? name = some e →
      e.isConst = false → e.value = .shared c →
      Eval.access engine ev (.var pos name []) forWrite k m = .ok a n →
      ∃ w o, k ((m.store.cell c).value, m.lock c) = .ok a (w, o) ∧
        n = { o.write c w with scope := o.scope.setValue name (.shared c) }) := by
  refine ⟨?_, ?_, ?_, ?_⟩
  · obtain ⟨acts, out, traces⟩ := Engine.traces_run natives script tidy
    exact ⟨acts, out, traces, traces.leads.lawful.shares ⟨tidy.start script 0, by simp⟩ rfl own⟩
  · exact fun fuel pos name captured m v n h => Eval.evalAt_closure h
  · intro ev target args pos this m
    refine ⟨Eval.bindParams target.function.params args [], ?_, ?_⟩
    · exact fun room => Eval.callScript_eq room
    · intro k x v param arg
      have there := Eval.item?_bindParams (s := []) param arg
      rwa [List.length_nil, Nat.zero_add] at there
  · exact fun ev α pos name forWrite k m e c a n found mutable shared h =>
      Eval.access_alias found mutable shared h

/-- The script `let count = 1; let bump = || { count += 1; }; bump.call(); count`. -/
def countingScript : Script where
  statements := [
    .declare .nowhere false (Text.lit "count") (some (.int .nowhere (Integer.ofNat 1))),
    .declare .nowhere false (Text.lit "bump")
      (some (.closure .nowhere (closureName 0) [Text.lit "count"])),
    .expr .nowhere (.method .nowhere (.var .nowhere (Text.lit "bump") []) (Text.lit "call") []),
    .expr .nowhere (.var .nowhere (Text.lit "count") [])]
  functions := [(⟨closureName 0, 1⟩, {
    name := closureName 0, access := .exposed, params := [Text.lit "count"]
    body := [.assign .nowhere (Text.lit "+=") (.var .nowhere (Text.lit "count") [])
      (.int .nowhere (Integer.ofNat 1))]
    bodyPos := .nowhere, pos := .nowhere })]

/-- What the closure writes is what the script reads, along a course that shares as it should. -/
theorem captured_variables_share_counting :
    (∀ m ∈ Engine.standard.nativeModules, m.Fair Kind.proper) ∧ ({ world := {} } : Stage).Tidy Kind.proper ∧
      (∃ acts out, Engine.standard.Traces Kind.proper (Engine.runBy countingScript) { world := {} }
          (Stage.start { world := {} } countingScript.library 0) acts out ∧
        (Stage.start { world := {} } countingScript.library 0).alone.Shares Engine.standard acts) ∧
      (match Engine.standard.run countingScript { world := {} } with
        | .ok (.int _ n) _ => some n.val
        | _ => none) = some 2 := by
  have natives := Engine.natives_standard Kind.proper
  have tidy : ({ world := {} } : Stage).Tidy Kind.proper := by
    refine ⟨⟨fun c => .leaf rfl, by simp, by simp⟩, by simp, by simp⟩
  have shares := captured_variables_share Engine.standard natives countingScript { world := {} } tidy
    (by simp)
  exact ⟨natives, tidy, shares.1, by decide +kernel⟩

end Scripting
