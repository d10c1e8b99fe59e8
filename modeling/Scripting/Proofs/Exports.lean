import Scripting.Proofs.Access.Reading
import Scripting.Proofs.Course.Variables
import Scripting.Proofs.Locks
import Scripting.Proofs.Overloads
import Scripting.Proofs.Sharing
import Scripting.Proofs.Signals
import Scripting.Proofs.Twin.Evaluation

/-
Exports. A clause of an export marks the variable that it names, and the script goes on. A variable has
room for one mark only, so a later clause about it replaces the mark. What is exported in the end is
read off the marks that are left.
-/
namespace Scripting

/-- A clause of an export that has run: the variable by its name and its number, and the name under which
it is exported. -/
structure Clause where
  name : Text
  entry : Nat
  exported : Text
  deriving DecidableEq, Repr

def Scope.clauses (s : Scope) (names : List (Text × Option Text)) : List Clause :=
  names.filterMap fun entry => (s.indexOf? entry.1).map fun i => ⟨entry.1, i, entry.2.getD entry.1⟩

def Stmt.clauses (s : Scope) : Stmt → List Clause
  | .exportNames _ names => s.clauses names
  | _ => []

def Eval.clauses (exec : Stmt → Run Value) : List Stmt → Machine → List Clause
  | [], _ => []
  | stmt :: rest, m =>
    match exec stmt m with
    | .ok _ n => stmt.clauses m.scope ++ clauses exec rest n
    | .error _ _ => []

namespace Clause

/-- The mark that is left on a variable by clauses, one after another. -/
def mark (i : Nat) (cs : List Clause) : Option Text :=
  cs.foldl (fun found c => if c.entry = i then some c.exported else found) none

theorem mark_append_one (i : Nat) (cs : List Clause) (c : Clause) :
    mark i (cs ++ [c]) = if c.entry = i then some c.exported else mark i cs := by
  simp [mark, List.foldl_append]

theorem foldl_of_others {i : Nat} {cs : List Clause} (others : ∀ c ∈ cs, c.entry ≠ i)
    (found : Option Text) :
    cs.foldl (fun found c => if c.entry = i then some c.exported else found) found = found := by
  induction cs generalizing found with
  | nil => rfl
  | cons c rest ih =>
    obtain ⟨other, rest⟩ := List.forall_mem_cons.mp others
    rw [List.foldl_cons, if_neg other, ih rest]

theorem mark_of_others {i : Nat} {cs : List Clause} (others : ∀ c ∈ cs, c.entry ≠ i) :
    mark i cs = none := foldl_of_others others none

/-- The last clause about a variable counts. -/
theorem mark_of_last {before after : List Clause} {c : Clause} (last : ∀ d ∈ after, d.entry ≠ c.entry) :
    mark c.entry (before ++ c :: after) = some c.exported := by
  rw [mark, List.foldl_append, List.foldl_cons, if_pos rfl, foldl_of_others last]

theorem exists_of_mark {i : Nat} {cs : List Clause} {x : Text} (marked : mark i cs = some x) :
    ∃ c ∈ cs, c.entry = i ∧ c.exported = x := by
  induction cs using List.reverseRecOn with
  | nil => cases marked
  | append_singleton cs c ih =>
    rw [mark_append_one] at marked
    by_cases here : c.entry = i
    · rw [if_pos here] at marked
      cases marked
      exact ⟨c, by simp, here, rfl⟩
    · rw [if_neg here] at marked
      obtain ⟨d, mem, facts⟩ := ih marked
      exact ⟨d, by simp [mem], facts⟩

end Clause

namespace Stack

variable {α β : Type}

theorem item?_map (f : α → β) (i : Nat) (items : List α) :
    item? i (items.map f) = (item? i items).map f := by
  induction items with
  | nil => rfl
  | cons a rest ih =>
    by_cases top : i = rest.length
    · simp [item?, top]
    · simp [item?, top, ih]

theorem item?_of_mem {items : List α} {a : α} (mem : a ∈ items) : ∃ i, item? i items = some a := by
  induction items with
  | nil => cases mem
  | cons b rest ih =>
    rcases List.mem_cons.mp mem with rfl | later
    · exact ⟨rest.length, item?_top _ _⟩
    · obtain ⟨i, found⟩ := ih later
      exact ⟨i, (item?_below (lt_of_item? found) b).trans found⟩

end Stack

namespace Scope

open Stack

variable {s t : Scope} {cs : List Clause}

theorem indexOf?_item? {name : Text} {i : Nat} (found : s.indexOf? name = some i) :
    ∃ e, item? i s = some e ∧ e.name = name := by
  induction s with
  | nil => cases found
  | cons e rest ih =>
    unfold indexOf? at found
    by_cases same : e.name = name
    · rw [if_pos same] at found
      cases found
      exact ⟨e, item?_top _ _, same⟩
    · rw [if_neg same] at found
      obtain ⟨f, later, named⟩ := ih found
      exact ⟨f, (item?_below (lt_of_item? later) e).trans later, named⟩

theorem indexOf?_isSome (s : Scope) (name : Text) : (s.indexOf? name).isSome = (s.find? name).isSome := by
  induction s with
  | nil => rfl
  | cons e rest ih =>
    by_cases same : e.name = name
    · simp [indexOf?, find?, same]
    · simp [indexOf?, find?, same, ih]

theorem item?_modify_of_indexOf {name : Text} {i : Nat} (found : s.indexOf? name = some i)
    (f : Entry → Entry) (j : Nat) :
    item? j (s.modify name f) = if i = j then (item? j s).map f else item? j s := by
  induction s with
  | nil => cases found
  | cons e rest ih =>
    have length : (modify name f rest).length = rest.length := length_modify rest name f
    unfold indexOf? at found
    unfold modify
    by_cases same : e.name = name
    · rw [if_pos same] at found ⊢
      cases found
      by_cases top : j = rest.length
      · simp [item?, top]
      · simp [item?, top, Ne.symm top]
    · rw [if_neg same] at found ⊢
      have below : i < rest.length := by
        obtain ⟨g, there, -⟩ := indexOf?_item? found
        exact lt_of_item? there
      by_cases top : j = rest.length
      · have other : i ≠ j := by omega
        simp [item?, top, length, show i ≠ rest.length by omega]
      · simp [item?, top, length, ih found]

theorem clauses_of_names {s t : Scope} (same : s.map Entry.name = t.map Entry.name)
    (names : List (Text × Option Text)) : s.clauses names = t.clauses names := by
  have index : ∀ name, s.indexOf? name = t.indexOf? name := by
    intro name
    induction s generalizing t with
    | nil =>
      rw [List.map_nil, eq_comm, List.map_eq_nil_iff] at same
      rw [same]
    | cons e rest ih =>
      obtain ⟨f, later, rfl, named, same⟩ := List.map_eq_cons_iff.mp same.symm
      have length : rest.length = later.length := by simpa using (congrArg List.length same).symm
      simp only [indexOf?, named, length, ih same.symm]
  simp only [clauses, index]

/-- The variables carry the marks that clauses have left on them, and those that the clauses name are
still there. -/
structure Carries (cs : List Clause) (s : Scope) : Prop where
  marks : ∀ i e, item? i s = some e → e.exported = Clause.mark i cs
  named : ∀ c ∈ cs, ∃ e, item? c.entry s = some e ∧ e.name = c.name

theorem Carries.nil : Carries [] [] := ⟨fun _ _ none => (nomatch none), fun _ none => nomatch none⟩

theorem Carries.entry_lt (h : Carries cs s) : ∀ c ∈ cs, c.entry < s.length := fun c mem => by
  obtain ⟨e, there, -⟩ := h.named c mem
  exact lt_of_item? there

theorem Carries.push (h : Carries cs s) (name : Text) (v : Value) (isConst : Bool) :
    Carries cs (s.push name v isConst) where
  marks i e found := by
    change item? i (_ :: s) = some e at found
    unfold item? at found
    split at found
    · next top =>
      cases found
      exact (Clause.mark_of_others fun c mem => by have := h.entry_lt c mem; omega).symm
    · exact h.marks i e found
  named c mem := by
    obtain ⟨e, there, named⟩ := h.named c mem
    exact ⟨e, (item?_below (lt_of_item? there) _).trans there, named⟩

theorem Carries.along (h : Carries cs s) (labels : t.labels = s.labels) (marks : t.marks = s.marks) :
    Carries cs t where
  marks i e found := by
    have mark : (item? i s).map Entry.exported = some e.exported := by
      rw [← item?_map, ← Scope.marks, ← marks, Scope.marks, item?_map, found]
      rfl
    obtain ⟨f, there, same⟩ := Option.map_eq_some_iff.mp mark
    rw [← same]
    exact h.marks i f there
  named c mem := by
    obtain ⟨e, there, named⟩ := h.named c mem
    have label : (item? c.entry t).map Entry.label = some e.label := by
      rw [← item?_map, ← Scope.labels, labels, Scope.labels, item?_map, there]
      rfl
    obtain ⟨f, found, same⟩ := Option.map_eq_some_iff.mp label
    exact ⟨f, found, (congrArg Prod.fst same).trans named⟩

theorem Carries.marked (h : Carries cs s) {name : Text} {i : Nat} (found : s.indexOf? name = some i)
    (x : Text) :
    Carries (cs ++ [⟨name, i, x⟩]) (s.modify name fun e => { e with exported := some x }) where
  marks j e there := by
    rw [item?_modify_of_indexOf found] at there
    rw [Clause.mark_append_one]
    dsimp only
    by_cases here : i = j
    · rw [if_pos here] at there ⊢
      obtain ⟨f, -, rfl⟩ := Option.map_eq_some_iff.mp there
      rfl
    · rw [if_neg here] at there ⊢
      exact h.marks j e there
  named c mem := by
    obtain ⟨e, there, named⟩ : ∃ e, item? c.entry s = some e ∧ e.name = c.name := by
      rcases List.mem_append.mp mem with old | new
      · exact h.named c old
      · rw [List.mem_singleton.mp new]
        exact indexOf?_item? found
    rw [item?_modify_of_indexOf found]
    by_cases here : i = c.entry
    · exact ⟨{ e with exported := some x }, by rw [if_pos here, there]; rfl, named⟩
    · exact ⟨e, by rw [if_neg here, there], named⟩

end Scope

def Script.Exporting (script : Script) : Prop :=
  ∀ s ∈ script.statements, (Code.stmt s).Exportless ∨ ∃ pos names, s = .exportNames pos names

theorem Script.Accepted.exporting {script : Script} (h : script.Accepted) : script.Exporting := by
  induction h with
  | parsed h =>
    obtain ⟨statements, -⟩ := Grammar.parse_checks (congrArg Prod.fst h)
    intro s mem
    refine (statements s mem).symm.imp_left fun obeys => ⟨false, obeys.mono fun looping c obeyed => ?_⟩
    unfold Rule.exportless
    split
    · exact obeyed.1
    · trivial
  | merged h h' ih ih' => exact fun s mem => (List.mem_append.mp mem).elim (ih s) (ih' s)
  | functionsOnly h ih => exact fun s mem => nomatch mem

namespace Eval

variable {engine : Engine} {fuel : Nat} {m n : Machine} {cs : List Clause}

/-- A run of top-level statements ends here, at its last statement or at a `return`. -/
def Completes (r : EStateM.Result Halt Machine Value) (n : Machine) : Prop :=
  (∃ v, r = .ok v n) ∨ ∃ v, r = .error (.returning v) n

theorem runTop_completes {ev : Evaluator} {statements : List Stmt} {v : Value}
    (ran : runTop ev statements m = .ok v n) : Completes (execAll ev.exec .unit statements m) n := by
  unfold runTop at ran
  split at ran
  · next eq =>
    cases ran
    exact Or.inr ⟨_, eq⟩
  · exact Or.inl ⟨v, ran⟩

/-- Twin runs of the same code from the same machine: it keeps its marks if it exports nothing. -/
theorem exec_marks {stmt : Stmt} (exportless : (Code.stmt stmt).Exportless)
    (completes : Completes (execAt engine fuel stmt m) n) : m.scope.marks <:+ n.scope.marks := by
  have follows := (evaluator_follows engine (Nat.le_refl fuel)).exec stmt m m (Machine.Counted.refl m)
  change Match _ _ (execAt engine fuel stmt m) (execAt engine fuel stmt m) at follows
  rcases completes with ⟨v, eq⟩ | ⟨v, eq⟩
  · rw [eq] at follows
    cases follows with
    | ok later => exact later.marks exportless
  · rw [eq] at follows
    cases follows with
    | error later => exact later.marks exportless
    | stopped stops => exact stops.elim
    | halted stops => exact stops.elim

theorem exec_carries {stmt : Stmt} (exportless : (Code.stmt stmt).Exportless)
    (completes : Completes (execAt engine fuel stmt m) n) (h : m.scope.Carries cs) :
    n.scope.Carries cs := by
  have suffix := exec_marks exportless completes
  have frame := exec_frame engine fuel stmt m
  have same : ∀ {s : Scope}, s.labels = m.scope.labels → m.scope.marks <:+ s.marks →
      s.Carries cs := fun kept suffix => by
    refine h.along kept (suffix.eq_of_length ?_).symm
    simpa [Scope.labels, Scope.marks] using (congrArg List.length kept).symm
  rcases completes with ⟨v, eq⟩ | ⟨v, eq⟩
  · rw [eq] at frame
    obtain ⟨o, kept, adds⟩ := frame
    unfold Stmt.Adds at adds
    split at adds
    · next isConst name _ =>
      obtain ⟨w, rfl⟩ := adds
      have older : m.scope.marks <:+ o.scope.marks := by
        refine (List.suffix_cons_iff.mp suffix).resolve_left fun whole => ?_
        have counts := (congrArg List.length whole).symm.trans
          (by simpa [Scope.labels, Scope.marks] using (congrArg List.length kept.labels).symm)
        simp at counts
      exact (same kept.labels older).push name w isConst
    · obtain ⟨found, rfl⟩ := adds
      exact same kept.labels suffix
    · rw [adds] at suffix ⊢
      exact same kept.labels suffix
  · rw [eq] at frame
    exact same frame.labels suffix

theorem execExport_carries {pos : Position} {names : List (Text × Option Text)}
    (ran : execExport pos names m = .ok () n) (h : m.scope.Carries cs) :
    n.scope.Carries (cs ++ m.scope.clauses names) := by
  induction names generalizing m cs with
  | nil =>
    cases ran
    simpa [Scope.clauses] using h
  | cons entry rest ih =>
    obtain ⟨name, asName⟩ := entry
    unfold execExport at ran
    cases found : m.scope.find? name with
    | none =>
      rw [bind_of_ok (show (get : Run Machine) m = .ok m m from rfl), found] at ran
      cases ran
    | some e =>
      rw [bind_of_ok (show (get : Run Machine) m = .ok m m from rfl), found] at ran
      obtain ⟨i, here⟩ := Option.isSome_iff_exists.mp
        ((m.scope.indexOf?_isSome name).trans (by rw [found]; rfl))
      have later := ih ran (h.marked here (asName.getD name))
      have same : Scope.clauses (m.scope.modify name fun e => { e with exported := some (asName.getD name) })
          rest = m.scope.clauses rest := by
        refine Scope.clauses_of_names (Scope.map_name_modify _ _ ?_ _) rest
        exact fun _ => rfl
      rw [same, List.append_assoc] at later
      have first : m.scope.clauses ((name, asName) :: rest) =
          ⟨name, i, asName.getD name⟩ :: m.scope.clauses rest := by
        simp [Scope.clauses, here]
      rw [first]
      exact later

theorem execExport_unreturned (pos : Position) (names : List (Text × Option Text)) (m n : Machine)
    (v : Value) : execExport pos names m ≠ .error (.returning v) n := by
  induction names generalizing m with
  | nil => exact nofun
  | cons entry rest ih =>
    obtain ⟨name, asName⟩ := entry
    unfold execExport
    rw [bind_of_ok (show (get : Run Machine) m = .ok m m from rfl)]
    cases m.scope.find? name with
    | none => exact nofun
    | some e => exact ih _

theorem exec_export_carries {pos : Position} {names : List (Text × Option Text)}
    (completes : Completes (execAt engine fuel (.exportNames pos names) m) n) (h : m.scope.Carries cs) :
    (∃ v, execAt engine fuel (.exportNames pos names) m = .ok v n) ∧
      n.scope.Carries (cs ++ m.scope.clauses names) := by
  cases fuel with
  | zero => rcases completes with ⟨v, eq⟩ | ⟨v, eq⟩ <;> cases eq
  | succ fuel =>
    have begun : execAt engine (fuel + 1) (.exportNames pos names) m = (do
      tick engine pos
      execExport pos names
      return .unit : Run Value) m := rfl
    rw [begun] at completes ⊢
    rcases tick_cases engine pos m with ⟨o, ticked, counted⟩ | ⟨e, o, ticked, stops⟩
    · rw [bind_of_ok ticked] at completes ⊢
      cases marked : execExport pos names o with
      | ok _ o' =>
        rw [bind_of_ok marked] at completes ⊢
        rcases completes with ⟨v, eq⟩ | ⟨v, eq⟩
        · cases eq
          refine ⟨⟨.unit, rfl⟩, ?_⟩
          have same : o.scope = m.scope := counted.scope
          rw [← same] at h ⊢
          exact execExport_carries marked h
        · cases eq
      | error e o' =>
        rw [bind_of_error marked] at completes
        rcases completes with ⟨v, eq⟩ | ⟨v, eq⟩
        · cases eq
        · cases eq
          exact absurd marked (execExport_unreturned pos names o n v)
    · rw [bind_of_error ticked] at completes
      rcases completes with ⟨v, eq⟩ | ⟨v, eq⟩
      · cases eq
      · cases eq
        exact stops.elim

theorem execAll_carries {statements : List Stmt} {last : Value}
    (exporting : ∀ s ∈ statements, (Code.stmt s).Exportless ∨ ∃ pos names, s = .exportNames pos names)
    (completes : Completes (execAll (evaluator engine fuel).exec last statements m) n)
    (h : m.scope.Carries cs) :
    n.scope.Carries (cs ++ clauses (evaluator engine fuel).exec statements m) := by
  induction statements generalizing m cs last with
  | nil =>
    rcases completes with ⟨v, eq⟩ | ⟨v, eq⟩
    · cases eq
      simpa [clauses] using h
    · cases eq
  | cons stmt rest ih =>
    obtain ⟨first, later⟩ := List.forall_mem_cons.mp exporting
    cases ran : (evaluator engine fuel).exec stmt m with
    | ok v o =>
      have here : o.scope.Carries (cs ++ stmt.clauses m.scope) := by
        rcases first with exportless | ⟨pos, names, rfl⟩
        · have none : stmt.clauses m.scope = [] := by
            cases stmt with
            | exportNames pos names =>
              obtain ⟨looping, obeys⟩ := exportless
              exact obeys.here.elim
            | _ => rfl
          rw [none, List.append_nil]
          exact exec_carries exportless (Or.inl ⟨v, ran⟩) h
        · exact (exec_export_carries (Or.inl ⟨v, ran⟩) h).2
      have begun : execAll (evaluator engine fuel).exec last (stmt :: rest) m =
        execAll (evaluator engine fuel).exec v rest o := bind_of_ok ran _
      rw [begun] at completes
      have rest := ih later completes here
      rw [clauses, ran]
      rwa [List.append_assoc] at rest
    | error e o =>
      have begun : execAll (evaluator engine fuel).exec last (stmt :: rest) m = .error e o :=
        bind_of_error ran _
      rw [begun] at completes
      rw [clauses, ran, List.append_nil]
      have left : Completes (execAt engine fuel stmt m) n := by
        rcases completes with ⟨v, eq⟩ | ⟨v, eq⟩
        · cases eq
        · cases eq
          exact Or.inr ⟨v, ran⟩
      rcases first with exportless | ⟨pos, names, rfl⟩
      · exact exec_carries exportless left h
      · obtain ⟨⟨v, done⟩, -⟩ := exec_export_carries left h
        cases done.symm.trans ran

/-! ### What is read off the marks -/

theorem flatten_of_ok {ev : Evaluator} {v w : Value} (h : m.store.flatten ev.fuel v = .ok w) :
    flatten ev v m = .ok w m := by
  change (liftM (m.store.flatten ev.fuel v) : Run Value) m = _
  rw [h]
  rfl

theorem flatten_of_error {ev : Evaluator} {v : Value} {h : Halt}
    (failed : m.store.flatten ev.fuel v = .error h) : flatten ev v m = .error h m := by
  change (liftM (m.store.flatten ev.fuel v) : Run Value) m = _
  rw [failed]
  rfl

def markedWith (x : Text) (e : Entry) : Bool := e.exported = some x

theorem exports_unmarked {ev : Evaluator} {e : Entry} (mark : e.exported = none) (rest : List Entry)
    (found : Dict Text Value) : exports ev (e :: rest) found = exports ev rest found := by
  simp only [exports, mark]

theorem exports_marked {ev : Evaluator} {e : Entry} {x : Text} (mark : e.exported = some x)
    (rest : List Entry) (found : Dict Text Value) : exports ev (e :: rest) found = (do
      exports ev rest (found.insert x (← flatten ev e.value))) := by
  simp only [exports, mark]

theorem exports_find? {ev : Evaluator} {entries : List Entry} {found values : Dict Text Value}
    (ran : exports ev entries found m = .ok values n) : n = m ∧ ∀ x,
      match entries.reverse.find? (markedWith x) with
      | some e => ∃ v, m.store.flatten ev.fuel e.value = .ok v ∧ values.find? x = some v
      | none => values.find? x = found.find? x := by
  induction entries generalizing found with
  | nil =>
    cases ran
    exact ⟨rfl, fun x => rfl⟩
  | cons e rest ih =>
    cases mark : e.exported with
    | none =>
      rw [exports_unmarked mark] at ran
      obtain ⟨same, finds⟩ := ih ran
      refine ⟨same, fun x => ?_⟩
      have other : markedWith x e = false := by simp [markedWith, mark]
      have finds := finds x
      simp only [List.reverse_cons, List.find?_append, List.find?_singleton, other]
      simpa using finds
    | some y =>
      rw [exports_marked mark] at ran
      cases flat : m.store.flatten ev.fuel e.value with
      | error h =>
        rw [bind_of_error (flatten_of_error flat)] at ran
        cases ran
      | ok v =>
        rw [bind_of_ok (flatten_of_ok flat)] at ran
        obtain ⟨same, finds⟩ := ih ran
        refine ⟨same, fun x => ?_⟩
        have finds := finds x
        simp only [List.reverse_cons, List.find?_append, List.find?_singleton]
        cases newer : rest.reverse.find? (markedWith x) with
        | some f =>
          rw [newer] at finds
          exact finds
        | none =>
          rw [newer] at finds
          dsimp only at finds
          by_cases here : y = x
          · subst here
            have this : markedWith y e = true := by simp [markedWith, mark]
            rw [this]
            exact ⟨v, flat, finds.trans (Dict.find?_insert_self _ _ _)⟩
          · have other : markedWith x e = false := by simp [markedWith, mark, here]
            rw [other]
            exact finds.trans (Dict.find?_insert_of_ne (Ne.symm here) _ _)

theorem exports_cases (ev : Evaluator) (entries : List Entry) (found : Dict Text Value) (m : Machine) :
    (∃ values, exports ev entries found m = .ok values m) ∨
      ∃ h, exports ev entries found m = .error h m ∧
        ∃ e ∈ entries, e.exported.isSome ∧ m.store.flatten ev.fuel e.value = .error h := by
  induction entries generalizing found with
  | nil => exact Or.inl ⟨found, rfl⟩
  | cons e rest ih =>
    have further : ∀ {r : EStateM.Result Halt Machine (Dict Text Value)},
        ((∃ values, r = .ok values m) ∨ ∃ h, r = .error h m ∧
          ∃ e ∈ rest, e.exported.isSome ∧ m.store.flatten ev.fuel e.value = .error h) →
        (∃ values, r = .ok values m) ∨ ∃ h, r = .error h m ∧
          ∃ f ∈ e :: rest, f.exported.isSome ∧ m.store.flatten ev.fuel f.value = .error h :=
      Or.imp_right fun ⟨h, failed, f, mem, facts⟩ => ⟨h, failed, f, List.mem_cons_of_mem _ mem, facts⟩
    cases mark : e.exported with
    | none =>
      rw [exports_unmarked mark]
      exact further (ih found)
    | some x =>
      rw [exports_marked mark]
      cases flat : m.store.flatten ev.fuel e.value with
      | ok v =>
        rw [bind_of_ok (flatten_of_ok flat)]
        exact further (ih (found.insert x v))
      | error h =>
        rw [bind_of_error (flatten_of_error flat)]
        exact Or.inr ⟨h, rfl, e, List.mem_cons_self, by rw [mark]; rfl, flat⟩

end Eval

/-- The variables of a module are what clauses have exported. A variable goes by the name of a clause with
the value that it has in the end, if no other clause uses that name and no later one is about the
variable. -/
structure Module.HoldsExports (found : Module) (cs : List Clause) (last : Machine) (fuel : Nat) :
    Prop where
  bound : ∀ before c after, cs = before ++ c :: after →
    (∀ d ∈ before ++ after, d.exported ≠ c.exported) → (∀ d ∈ after, d.entry ≠ c.entry) →
    ∃ e v, Stack.item? c.entry last.scope = some e ∧ e.name = c.name ∧
      last.store.flatten fuel e.value = .ok v ∧ found.values.find? c.exported = some v
  only : ∀ x, (found.values.find? x).isSome → ∃ c ∈ cs, c.exported = x

namespace Scope

open Stack

variable {s : Scope} {cs : List Clause}

theorem Carries.find?_marked (h : s.Carries cs) {x : Text} {e : Entry}
    (found : List.find? (Eval.markedWith x) s = some e) :
    ∃ i, item? i s = some e ∧ ∃ c ∈ cs, c.entry = i ∧ c.exported = x := by
  obtain ⟨i, there⟩ := item?_of_mem (List.mem_of_find?_eq_some found)
  have marked : e.exported = some x := by simpa [Eval.markedWith] using List.find?_some found
  exact ⟨i, there, Clause.exists_of_mark ((h.marks i e there).symm.trans marked)⟩

end Scope

namespace Eval

open Stack

variable {engine : Engine} {fuel : Nat} {m last : Machine} {cs : List Clause}

theorem evaluator_fuel (engine : Engine) (fuel : Nat) : (evaluator engine fuel).fuel = fuel := by
  cases fuel <;> rfl

theorem holdsExports_of_carries (h : last.scope.Carries cs) {found : Module}
    (ran : exports (evaluator engine fuel) last.scope.oldestFirst [] last = .ok found.values last) :
    found.HoldsExports cs last fuel := by
  obtain ⟨-, finds⟩ := exports_find? ran
  rw [Scope.oldestFirst, List.reverse_reverse, evaluator_fuel] at finds
  constructor
  · intro before c after split unused final
    obtain ⟨e, there, named⟩ := h.named c (by simp [split])
    have mark : e.exported = some c.exported :=
      (h.marks _ e there).trans (split ▸ Clause.mark_of_last final)
    have value := finds c.exported
    cases newest : List.find? (markedWith c.exported) last.scope with
    | none =>
      have unmarked := List.find?_eq_none.mp newest e (mem_of_item? there)
      exact absurd (by simp [markedWith, mark]) unmarked
    | some f =>
      rw [newest] at value
      obtain ⟨v, flat, bound⟩ := value
      obtain ⟨i, there', d, mem, about, exported⟩ := h.find?_marked newest
      -- The mark is left by this clause, since no other uses the name.
      have same : d = c := by
        rw [split] at mem
        rcases List.mem_append.mp mem with before | later
        · exact absurd exported (unused d (List.mem_append_left _ before))
        · rcases List.mem_cons.mp later with same | after
          · exact same
          · exact absurd exported (unused d (List.mem_append_right _ after))
      rw [← about, same, there] at there'
      cases there'
      exact ⟨e, v, there, named, flat, bound⟩
  · intro x held
    have value := finds x
    cases newest : List.find? (markedWith x) last.scope with
    | none =>
      rw [newest] at value
      rw [value] at held
      cases held
    | some f =>
      obtain ⟨-, -, c, mem, -, exported⟩ := h.find?_marked newest
      exact ⟨c, mem, exported⟩

/-- After its statements, a module is made unless a marked variable cannot be read. -/
theorem runModule_of_completes {script : Script} {v : Value}
    (completes : runTop (evaluator engine fuel) script.statements
      (freshMachine m.world script.library) = .ok v last) :
    (∃ found, runModule (evaluator engine fuel) script m = .ok found { m with world := last.world } ∧
      exports (evaluator engine fuel) last.scope.oldestFirst [] last = .ok found.values last) ∨
    ∃ h, runModule (evaluator engine fuel) script m = .error h { m with world := last.world } ∧
      ∃ e ∈ last.scope, e.exported.isSome ∧ last.store.flatten fuel e.value = .error h := by
  have isolation : ∀ {r : EStateM.Result Halt Machine Module}, (do
      let _ ← runTop (evaluator engine fuel) script.statements
      let m ← get
      let values ← exports (evaluator engine fuel) m.scope.oldestFirst []
      return { functions := script.library.functions, values, modules := Dict.ofList m.imports.reverse } :
      Run Module) (freshMachine m.world script.library) = r →
      runModule (evaluator engine fuel) script m = inState (fun n => { m with world := n.world }) r := by
    rintro r rfl
    exact isolated_eq _ _ m
  rcases exports_cases (evaluator engine fuel) last.scope.oldestFirst [] last with
    ⟨values, ran⟩ | ⟨h, ran, e, mem, marked, flat⟩
  · exact Or.inl ⟨_, isolation ((bind_of_ok completes _).trans (bind_of_ok ran _)), ran⟩
  · rw [evaluator_fuel] at flat
    exact Or.inr ⟨h, isolation ((bind_of_ok completes _).trans (bind_of_error ran _)), e,
      List.mem_reverse.mp mem, marked, flat⟩

/-- Variables of a script can be read after it has run, if nobody holds a lock and no native hands out an
alias. -/
theorem readable_of_completes {script : Script} {v : Value}
    (natives : ∀ k ∈ engine.nativeModules, k.Fair Kind.proper) (tidy : m.Tidy Kind.proper)
    (free : m.store.Free) (enough : 2 ≤ fuel)
    (completes : runTop (evaluator engine fuel) script.statements
      (freshMachine m.world script.library) = .ok v last) :
    ∀ e ∈ last.scope, ∃ w, last.store.flatten fuel e.value = .ok w := by
  let C := Contract.strict (Discipline.free engine Kind.proper) natives
  have fair : script.library.Fair Kind.proper := Module.fair_ofFunctions Kind.proper script.functions
  have kept : last.Tidy Kind.proper := by
    have start : C.Inv (freshMachine m.world script.library) :=
      ⟨Machine.tidy_fresh tidy.world fair, trivial⟩
    have ends := (runTop_grows (evaluators_inMode C fuel) script.statements _ start).ends
    rw [completes] at ends
    exact ends.1.2.1
  have unlocked : last.store.Free := by
    have ends := (runTop_grows (Contract.locks_evaluators engine fuel) script.statements
      (freshMachine m.world script.library) (Contract.locks_inv engine _)).ends
    rw [completes] at ends
    exact fun c => (ends.1.1 c).trans (free c)
  intro e mem
  obtain ⟨k, rfl⟩ : ∃ k, fuel = k + 2 := ⟨fuel - 2, by omega⟩
  rcases kept.scope e mem with shared | proper
  · cases value : e.value with
    | shared c =>
      have content := (kept.world.cells c).unshared
      have unwritten : (last.store.cell c).writer = false := congrArg Prod.snd (unlocked c)
      have read : last.store.read c [] .nowhere = .ok (last.store.cell c).value := by
        simp [Store.read, unwritten]
      refine ⟨(last.store.cell c).value, ?_⟩
      rw [Store.flatten, read]
      exact Store.flatten_unshared last.store (Nat.succ_pos k) content
    | _ =>
      rw [value] at shared
      cases shared
  · exact ⟨e.value, Store.flatten_unshared last.store (by omega) (Value.Proper.unshared proper)⟩

end Eval

open Eval

/-- A module whose statements have run holds what its exports have exported, unless a marked variable
cannot be read; and this does not happen if nobody holds a lock and no native hands out an alias. -/
theorem module_holds_exports (engine : Engine) (fuel : Nat) {script : Script}
    (accepted : script.Accepted) {m last : Machine} {v : Value}
    (completes : runTop (evaluator engine fuel) script.statements
      (freshMachine m.world script.library) = .ok v last) :
    let cs := clauses (evaluator engine fuel).exec script.statements (freshMachine m.world script.library)
    let outcome := runModule (evaluator engine fuel) script m
    ((∃ found : Module, outcome = .ok found { m with world := last.world } ∧
        found.HoldsExports cs last fuel) ∨
      ∃ h, outcome = .error h { m with world := last.world } ∧
        ∃ e ∈ last.scope, e.exported.isSome ∧ last.store.flatten fuel e.value = .error h) ∧
    ((∀ k ∈ engine.nativeModules, k.Fair Kind.proper) → m.Tidy Kind.proper → m.store.Free → 2 ≤ fuel →
      ∃ found, outcome = .ok found { m with world := last.world }) := by
  have carries : last.scope.Carries
      (clauses (evaluator engine fuel).exec script.statements (freshMachine m.world script.library)) :=
    execAll_carries accepted.exporting (runTop_completes completes) .nil
  have outcomes := runModule_of_completes (m := m) completes
  constructor
  · exact outcomes.imp_left fun ⟨found, made, ran⟩ => ⟨found, made, holdsExports_of_carries carries ran⟩
  · intro natives tidy free enough
    rcases outcomes with ⟨found, made, -⟩ | ⟨h, -, e, mem, -, failed⟩
    · exact ⟨found, made⟩
    · obtain ⟨w, flat⟩ := readable_of_completes natives tidy free enough completes e mem
      cases flat.symm.trans failed

/-- The tokens of `let x = true; export x as a; x = false; let x = ();`. -/
def hidingTokens : List PlacedToken :=
  [(.symbol .kwLet, ⟨1, 1⟩), (.identifier (Text.lit "x"), ⟨1, 5⟩), (.symbol .equals, ⟨1, 7⟩),
    (.symbol .kwTrue, ⟨1, 9⟩), (.symbol .semicolon, ⟨1, 13⟩),
    (.symbol .kwExport, ⟨1, 15⟩), (.identifier (Text.lit "x"), ⟨1, 22⟩), (.symbol .kwAs, ⟨1, 24⟩),
    (.identifier (Text.lit "a"), ⟨1, 27⟩), (.symbol .semicolon, ⟨1, 28⟩),
    (.identifier (Text.lit "x"), ⟨1, 30⟩), (.symbol .equals, ⟨1, 32⟩), (.symbol .kwFalse, ⟨1, 34⟩),
    (.symbol .semicolon, ⟨1, 39⟩), (.symbol .kwLet, ⟨1, 41⟩), (.identifier (Text.lit "x"), ⟨1, 45⟩),
    (.symbol .equals, ⟨1, 47⟩), (.symbol .leftParen, ⟨1, 49⟩), (.symbol .rightParen, ⟨1, 50⟩),
    (.symbol .semicolon, ⟨1, 51⟩)]

def hidingScript : Script where
  statements := [
    .declare ⟨1, 1⟩ false (Text.lit "x") (some (.bool ⟨1, 9⟩ true)),
    .exportNames ⟨1, 15⟩ [(Text.lit "x", some (Text.lit "a"))],
    .assign ⟨1, 32⟩ [] (.var ⟨1, 30⟩ (Text.lit "x") []) (.bool ⟨1, 34⟩ false),
    .declare ⟨1, 41⟩ false (Text.lit "x") (some (.unit ⟨1, 49⟩))]

/-- What is exported is the variable that the name stood for then, with the value that it has now. -/
theorem module_holds_exports_hidden :
    hidingScript.Accepted ∧
    ∃ found n, runModule (evaluator Engine.raw 9) hidingScript (freshMachine {} {}) = .ok found n ∧
      found.values.find? (Text.lit "a") = some (.bool false) := by
  -- Statement by statement, since a parse of all tokens at once takes too long to evaluate.
  have declared : Grammar.parse (Engine.raw.settings false) false (hidingTokens.take 5) 0 =
      (.ok { statements := hidingScript.statements.take 1 }, 0) := by
    with_unfolding_all rfl
  have exported : Grammar.parse (Engine.raw.settings false) false ((hidingTokens.drop 5).take 5) 0 =
      (.ok { statements := (hidingScript.statements.drop 1).take 1 }, 0) := by
    with_unfolding_all rfl
  have assigned : Grammar.parse (Engine.raw.settings false) false ((hidingTokens.drop 10).take 4) 0 =
      (.ok { statements := (hidingScript.statements.drop 2).take 1 }, 0) := by
    with_unfolding_all rfl
  have anew : Grammar.parse (Engine.raw.settings false) false (hidingTokens.drop 14) 0 =
      (.ok { statements := hidingScript.statements.drop 3 }, 0) := by
    with_unfolding_all rfl
  have accepted : hidingScript.Accepted :=
    (((Script.Accepted.parsed declared).merged (.parsed exported)).merged
      (.parsed assigned)).merged (.parsed anew)
  obtain ⟨last, completes, scope⟩ : ∃ last, runTop (evaluator Engine.raw 9) hidingScript.statements
      (freshMachine {} hidingScript.library) = .ok .unit last ∧ last.scope =
        [{ name := Text.lit "x", value := .unit },
          { name := Text.lit "x", value := .bool false, exported := some (Text.lit "a") }] :=
    ⟨_, by with_unfolding_all rfl, rfl⟩
  obtain ⟨made, succeeds⟩ := module_holds_exports Engine.raw 9 accepted (m := freshMachine {} {})
    completes
  have fair : ∀ k ∈ Engine.raw.nativeModules, k.Fair Kind.proper :=
    List.forall_mem_singleton.mpr (Package.fair_empty Kind.proper)
  have tidy : World.Tidy Kind.proper {} := ⟨fun c => .leaf rfl, by simp, by simp⟩
  have free : Store.Free {} := fun c => rfl
  obtain ⟨found, succeeded⟩ := succeeds fair (Machine.tidy_fresh tidy (Package.fair_empty _)) free (by decide)
  rcases made with ⟨_, again, holds⟩ | ⟨h, failed, -⟩
  · have ran : clauses (evaluator Engine.raw 9).exec hidingScript.statements
        (freshMachine {} hidingScript.library) = [⟨Text.lit "x", 0, Text.lit "a"⟩] := by
      with_unfolding_all rfl
    obtain ⟨e, v, there, -, flat, bound⟩ := holds.bound [] _ [] ran (by simp) (by simp)
    rw [scope] at there
    cases there
    cases flat
    exact ⟨accepted, _, _, again, bound⟩
  · cases failed.symm.trans succeeded

/-- The script `let x = true; export x as a, x as b;`. -/
def twiceScript : Script where
  statements := [
    .declare ⟨1, 1⟩ false (Text.lit "x") (some (.bool ⟨1, 9⟩ true)),
    .exportNames ⟨1, 15⟩ [(Text.lit "x", some (Text.lit "a")), (Text.lit "x", some (Text.lit "b"))]]

/-- A variable that is exported twice goes by the last of its names only. -/
theorem second_export_replaces_first :
    clauses (evaluator Engine.raw 9).exec twiceScript.statements (freshMachine {} twiceScript.library) =
        [⟨Text.lit "x", 0, Text.lit "a"⟩, ⟨Text.lit "x", 0, Text.lit "b"⟩] ∧
      ∃ found n, runModule (evaluator Engine.raw 9) twiceScript (freshMachine {} {}) = .ok found n ∧
        found.values.find? (Text.lit "a") = none ∧
        found.values.find? (Text.lit "b") = some (.bool true) := by
  refine ⟨by with_unfolding_all rfl, _, _, by with_unfolding_all rfl, ?_, ?_⟩
  · with_unfolding_all rfl
  · with_unfolding_all rfl

end Scripting
