import Mathlib.Data.List.Forall2
import Scripting.Proofs.Frame

/-
Constants. Nothing that a script does puts another value into a constant; the one thing that can
happen to it is that a closure captures it. Its value then moves into a new cell, the closure gets
the cell as a variable, and from there on the value changes with the cell.
-/
namespace Scripting

/-- An entry at a later time, where `size` cells were there at first: a constant still has its
value, or it had one of its own and is now an alias of a new cell. -/
structure Entry.Kept (size : Nat) (e f : Entry) : Prop where
  label : f.label = e.label
  value : e.isConst = true →
    f.value = e.value ∨ e.value.isShared = false ∧ ∃ c, size ≤ c ∧ f.value = .shared c

namespace Entry.Kept

theorem refl (size : Nat) (e : Entry) : Kept size e e := ⟨rfl, fun _ => Or.inl rfl⟩

theorem isConst {size : Nat} {e f : Entry} (h : Kept size e f) : f.isConst = e.isConst :=
  congrArg Prod.snd h.label

theorem name {size : Nat} {e f : Entry} (h : Kept size e f) : f.name = e.name :=
  congrArg Prod.fst h.label

theorem trans {size later : Nat} (grown : size ≤ later) {e f g : Entry} (h : Kept size e f)
    (h' : Kept later f g) : Kept size e g := by
  refine ⟨h'.label.trans h.label, ?_⟩
  intro const
  have first := h.value const
  have second := h'.value (h.isConst.trans const)
  rcases first with same | ⟨unshared, c, new, shared⟩
  · rw [same] at second
    rcases second with same' | ⟨unshared, c, new, shared⟩
    · exact Or.inl same'
    · exact Or.inr ⟨unshared, c, Nat.le_trans grown new, shared⟩
  · rcases second with same' | ⟨unshared', -⟩
    · exact Or.inr ⟨unshared, c, new, same'.trans shared⟩
    · rw [shared] at unshared'
      cases unshared'

/-- A constant that is no alias afterwards has the value it had, whatever happened to the cells. -/
theorem flatten {size : Nat} {e f : Entry} (h : Kept size e f) (const : e.isConst = true)
    (own : f.value.isShared = false) (s t : Store) (fuel : Nat) :
    t.flatten fuel f.value = s.flatten fuel e.value := by
  rcases h.value const with same | ⟨-, c, -, shared⟩
  · rw [same] at own ⊢
    cases fuel with
    | zero => rfl
    | succ n =>
      cases stored : e.value with
      | shared c =>
        rw [stored] at own
        cases own
      | _ => rfl
  · rw [shared] at own
    cases own

theorem write (size : Nat) {e : Entry} (writable : e.isConst = false) (v : Value) :
    Kept size e { e with value := v } := by
  refine ⟨rfl, ?_⟩
  intro const
  rw [writable] at const
  cases const

end Entry.Kept

namespace Scope

/-- A scope at a later time, entry by entry. -/
def Kept (size : Nat) (s t : Scope) : Prop := List.Forall₂ (Entry.Kept size) s t

variable {size : Nat} {s t u : Scope}

theorem Kept.refl (size : Nat) (s : Scope) : s.Kept size s :=
  List.forall₂_same.mpr fun e _ => Entry.Kept.refl size e

theorem Kept.trans {later : Nat} (grown : size ≤ later) (h : s.Kept size t) (h' : t.Kept later u) :
    s.Kept size u := by
  induction h generalizing u with
  | nil =>
    cases h' with
    | nil => exact .nil
  | cons first rest ih =>
    cases h' with
    | cons first' rest' => exact .cons (first.trans grown first') (ih rest')

theorem Kept.find? (h : s.Kept size t) {name : Text} {e : Entry} (found : s.find? name = some e) :
    ∃ f, t.find? name = some f ∧ Entry.Kept size e f := by
  induction h with
  | nil => cases found
  | @cons a b as bs first rest ih =>
    unfold Scope.find? at found ⊢
    by_cases same : a.name = name
    · rw [if_pos same] at found
      cases found
      exact ⟨b, if_pos (first.name.trans same), first⟩
    · rw [if_neg same] at found
      rw [if_neg (fun eq => same (first.name.symm.trans eq))]
      exact ih found

theorem Kept.oldestFirst {older : Scope} (h : s.Kept size older) (suffix : older <:+ t) {i : Nat}
    {e : Entry} (found : s.oldestFirst[i]? = some e) :
    ∃ f, t.oldestFirst[i]? = some f ∧ Entry.Kept size e f := by
  obtain ⟨bound, rfl⟩ := List.getElem?_eq_some_iff.mp found
  have kept : List.Forall₂ (Entry.Kept size) s.oldestFirst older.oldestFirst :=
    List.forall₂_reverse_iff.mpr h
  have bound' : i < older.oldestFirst.length := kept.length_eq ▸ bound
  have same : t.oldestFirst[i]? = some (older.oldestFirst.get ⟨i, bound'⟩) :=
    List.prefix_iff_getElem?.mp (List.reverse_prefix.mpr suffix) i bound'
  exact ⟨_, same, kept.get bound bound'⟩

/-- Every constant of the first scope is at its place in the second, and unless it is an alias there,
its value behind all aliases is what it was. -/
def Unwritten (s : Scope) (cells : Store) (t : Scope) (cells' : Store) : Prop :=
  ∀ (i : Nat) (e : Entry), s.oldestFirst[i]? = some e → e.isConst = true →
    ∃ f : Entry, t.oldestFirst[i]? = some f ∧ f.label = e.label ∧
      (f.value.isShared = false → ∀ fuel, cells'.flatten fuel f.value = cells.flatten fuel e.value)

theorem Kept.unwritten {older : Scope} (h : s.Kept size older) (suffix : older <:+ t)
    (cells cells' : Store) : s.Unwritten cells t cells' := by
  intro i e found const
  obtain ⟨f, found', kept⟩ := h.oldestFirst suffix found
  exact ⟨f, found', kept.label, fun own => kept.flatten const own cells cells'⟩

theorem kept_modify {name : Text} {e : Entry} {f : Entry → Entry} (found : s.find? name = some e)
    (h : Entry.Kept size e (f e)) : s.Kept size (s.modify name f) := by
  induction s with
  | nil => cases found
  | cons a rest ih =>
    unfold Scope.find? at found
    unfold modify
    by_cases same : a.name = name
    · rw [if_pos same] at found ⊢
      cases found
      exact .cons h (Kept.refl size rest)
    · rw [if_neg same] at found ⊢
      exact .cons (Entry.Kept.refl size a) (ih found)

theorem kept_export (size : Nat) (s : Scope) (name : Text) (as : Option Text) :
    s.Kept size (s.modify name fun e => { e with exported := as }) := by
  induction s with
  | nil => exact .nil
  | cons a rest ih =>
    unfold modify
    split
    · exact .cons ⟨rfl, fun _ => Or.inl rfl⟩ (Kept.refl size rest)
    · exact .cons (Entry.Kept.refl size a) ih

end Scope

namespace Store

@[simp]
theorem size_setValue (s : Store) (c : Nat) (v : Value) : (s.setValue c v).size = s.size :=
  s.size_put c _

@[simp]
theorem size_endWrite (s : Store) (c : Nat) : (s.endWrite c).size = s.size := s.size_put c _

theorem size_beginWrite {s s' : Store} {c : Nat} {name : Text} {pos : Position}
    (h : s.beginWrite c name pos = .ok s') : s'.size = s.size := by
  unfold beginWrite at h
  dsimp only at h
  split at h
  · cases h
  · cases h
    exact s.size_put c _

theorem size_le_share (s : Store) (v : Value) : s.size ≤ (s.share v).1.size := by
  cases v with
  | shared c => exact Nat.le_refl _
  | _ =>
    have added := s.size_alloc
    simp only [share, added]
    exact Nat.le_succ _

/-- A captured value is an alias already, or gets a cell that was not there before. -/
theorem kept_share (s : Store) (e : Entry) :
    Entry.Kept s.size e { e with value := (s.share e.value).2 } := by
  refine ⟨rfl, fun _ => ?_⟩
  cases stored : e.value with
  | shared c => exact Or.inl rfl
  | _ => exact Or.inr ⟨rfl, s.size, Nat.le_refl _, rfl⟩

end Store

namespace Machine

/-- No constant of the first machine has another value in the second. -/
structure ConstantsKept (m n : Machine) : Prop where
  cells : m.store.size ≤ n.store.size
  scope : m.scope.Kept m.store.size n.scope

structure ConstantsStay (m n : Machine) : Prop where
  cells : m.store.size ≤ n.store.size
  scope : ∃ older, older <:+ n.scope ∧ m.scope.Kept m.store.size older

namespace ConstantsKept

theorem same {m n : Machine} (store : n.store.size = m.store.size) (scope : n.scope = m.scope) :
    ConstantsKept m n := by
  refine ⟨Nat.le_of_eq store.symm, ?_⟩
  rw [scope]
  exact Scope.Kept.refl _ _

theorem trans {a b c : Machine} (h : ConstantsKept a b) (h' : ConstantsKept b c) :
    ConstantsKept a c :=
  ⟨Nat.le_trans h.cells h'.cells, h.scope.trans h.cells h'.scope⟩

theorem stay {m n : Machine} (h : ConstantsKept m n) : ConstantsStay m n :=
  ⟨h.cells, n.scope, List.suffix_refl _, h.scope⟩

end ConstantsKept

namespace ConstantsStay

theorem trans {a b c : Machine} (h : ConstantsStay a b) (h' : ConstantsStay b c) :
    ConstantsStay a c := by
  obtain ⟨older, ⟨newer, split⟩, kept⟩ := h.scope
  obtain ⟨older', suffix', kept'⟩ := h'.scope
  -- The part of the last scope that goes back to the first one.
  have part : Scope.Kept b.store.size older (older'.drop newer.length) := by
    have dropped := List.forall₂_drop newer.length kept'
    rw [← split, List.drop_left] at dropped
    exact dropped
  refine ⟨Nat.le_trans h.cells h'.cells, older'.drop newer.length, ?_, kept.trans h.cells part⟩
  exact (List.drop_suffix _ _).trans suffix'

theorem rewind {m n : Machine} (h : ConstantsStay m n) (imports : Nat) :
    ConstantsKept m (n.rewind m.scope.length imports) := by
  obtain ⟨older, suffix, kept⟩ := h.scope
  refine ⟨h.cells, ?_⟩
  have cut : n.scope.rewind m.scope.length = older := by
    unfold Scope.rewind
    rw [List.Forall₂.length_eq kept]
    exact (List.suffix_iff_eq_drop.mp suffix).symm
  change m.scope.Kept _ (n.scope.rewind m.scope.length)
  rw [cut]
  exact kept

end ConstantsStay

end Machine

open Machine

def Discipline.constants (engine : Engine) : Discipline engine Kind.all where
  holds _ := True
  keeps := ConstantsKept
  grows := ConstantsStay
  refl m := .same rfl rfl
  trans := ConstantsKept.trans
  widen := ConstantsKept.stay
  follow := ConstantsStay.trans
  idle _ _ _ _ _ _ := ⟨.same rfl rfl, trivial⟩
  load _ _ _ _ := ⟨.same rfl rfl, trivial⟩
  share {m _ e} _ found :=
    ⟨⟨m.store.size_le_share e.value, Scope.kept_modify found (m.store.kept_share e)⟩, trivial⟩
  assign {m n name e v} _ found writable keeps _ _ := by
    obtain ⟨f, found', kept⟩ := keeps.scope.find? found
    have writable' : f.isConst = false := kept.isConst.trans writable
    have written : ConstantsKept n { n with scope := n.scope.setValue name v } :=
      ⟨Nat.le_refl _, Scope.kept_modify found' (Entry.Kept.write _ writable' v)⟩
    exact ⟨keeps.trans written, trivial⟩
  setThis _ _ keeps _ _ := ⟨⟨keeps.cells, keeps.scope⟩, trivial⟩
  openCell _ _ := trivial
  closeCell {m n c _ _ s v} _ locked keeps _ _ := by
    have first : ConstantsKept m (m.withStore s) := .same (Store.size_beginWrite locked) rfl
    have last : ConstantsKept n (n.withStore ((n.store.setValue c v).endWrite c)) := by
      refine .same ?_ rfl
      change ((n.store.setValue c v).endWrite c).size = _
      simp
    exact ⟨(first.trans keeps).trans last, trivial⟩
  rewind _ grows _ := ⟨grows.rewind _, trivial⟩
  enter _ _ _ _ _ := trivial
  leave _ keeps _ := ⟨⟨keeps.cells, Scope.Kept.refl _ _⟩, trivial⟩
  declare _ _ _ _ _ :=
    ⟨⟨Nat.le_refl _, _, List.suffix_cons _ _, Scope.Kept.refl _ _⟩, trivial⟩
  mark _ _ _ := ⟨⟨Nat.le_refl _, Scope.kept_export _ _ _ _⟩, trivial⟩
  bind _ _ _ _ := ⟨⟨Nat.le_refl _, _, List.suffix_refl _, Scope.Kept.refl _ _⟩, trivial⟩
  isolate _ _ := trivial
  rejoin _ grows _ := ⟨⟨grows.cells, Scope.Kept.refl _ _⟩, trivial⟩

namespace Expr

def rootVariable? : Expr → Option Text
  | .var _ name [] => some name
  | .index _ object _ => object.rootVariable?
  | .property _ object _ => object.rootVariable?
  | _ => none

def indices : Expr → List Expr
  | .index _ object i => i :: object.indices
  | .property _ object _ => object.indices
  | _ => []

end Expr

section

variable (engine : Engine)

def Contract.constants : Contract engine :=
  Contract.strict (Discipline.constants engine) fun m _ => Module.fair_all m

theorem Contract.constants_inv (m : Machine) : (Contract.constants engine).Inv m :=
  ⟨Machine.tidy_all m, trivial⟩

theorem Contract.constants_evaluators (fuel : Nat) :
    (Contract.constants engine).Evaluators (Eval.evaluator engine fuel) (Eval.evaluator engine fuel) :=
  Eval.evaluators_inMode (Contract.constants engine) fuel

theorem eval_constantsKept (fuel : Nat) (e : Expr) (m : Machine) :
    ConstantsKept m (ending (Eval.evalAt engine fuel e m)) := by
  have kept := (Contract.constants_evaluators engine fuel).eval e m (Contract.constants_inv engine m)
  exact (kept.ends.mono (fun _ _ h => h.1.1) (fun _ _ h => h.1.1)).ending

theorem exec_constantsStay (fuel : Nat) (stmt : Stmt) (m : Machine) :
    ConstantsStay m (ending (Eval.execAt engine fuel stmt m)) := by
  have grown := ((Contract.constants_evaluators engine fuel).exec stmt).grows m
    (Contract.constants_inv engine m)
  exact (grown.ends.mono (fun _ _ h => h.1.1) (fun _ _ h => h.1.1)).ending

theorem run_constantsStay (script : Script) (s : Stage) :
    ∃ older, older <:+ (ending (engine.run script s)).scope ∧
      s.scope.Kept s.world.store.size older := by
  rw [← Engine.runBy_evaluator]
  have start := Contract.constants_inv engine (s.start script.library 0)
  have staged := Contract.runBy_staging (Contract.constants_evaluators engine ampleFuel) start
  refine (staged.ends.mono ?_ ?_).ending
    (P := fun t => ∃ older, older <:+ t.scope ∧ s.scope.Kept s.world.store.size older)
  · rintro v t ⟨n, stride, rfl, -⟩
    exact stride.1.scope
  · rintro h t ⟨n, stride, rfl, -⟩
    exact stride.1.scope

theorem Eval.atVariable_write {ev : Evaluator} {α : Type} (name : Text) (pos : Position)
    (k : Held Value α) (m : Machine) :
    Eval.atVariable ev name true pos k m =
      (match m.scope.find? name with
        | none => Run.fail (.variableNotFound name) pos
        | some entry =>
          if entry.isConst then Run.fail (.assignmentToConstant name) pos
          else Run.onVariable name entry.value (Held.behind name pos k)) m := rfl

/-- Nothing is ever written to a place in a constant: an index on the way to it fails, or the place
is refused. -/
theorem access_constant_refused (fuel : Nat) {α : Type} (expr : Expr) {name : Text}
    (root : expr.rootVariable? = some name) (k : Held Value α) {m : Machine} {e : Entry}
    (found : m.scope.find? name = some e) (const : e.isConst = true) :
    Ends (fun _ _ => False)
      (fun h n => (∃ pos, h = .cause (.assignmentToConstant name) pos) ∨
        ∃ index ∈ expr.indices, ∃ o, Eval.evalAt engine fuel index o = .error h n)
      (Eval.access engine (Eval.evaluator engine fuel) expr true k m) := by
  fun_induction Eval.access engine (Eval.evaluator engine fuel) expr true k generalizing m e with
  | case1 k pos name' =>
    cases root
    have refused : Eval.atVariable (Eval.evaluator engine fuel) name true pos k m =
        .error (.cause (.assignmentToConstant name) pos) m := by
      rw [Eval.atVariable_write, found]
      dsimp only
      rw [if_pos const]
      rfl
    rw [refused]
    exact Or.inl ⟨pos, rfl⟩
  | case2 k pos name' path qualified write =>
    cases path with
    | nil => exact absurd rfl qualified
    | cons first rest => cases root
  | case3 k pos name' path qualified write => exact absurd rfl write
  | case4 k pos => cases root
  | case5 k pos object index ih =>
    refine Ends.bind ?_
    have kept := eval_constantsKept engine fuel index m
    change Ends _ _ (Eval.evalAt engine fuel index m)
    cases evaluated : Eval.evalAt engine fuel index m with
    | ok i n =>
      rw [evaluated] at kept
      obtain ⟨f, found', same⟩ := kept.scope.find? found
      refine (ih i root found' (same.isConst.trans const)).mono (fun _ _ h => h) ?_
      rintro h o (refused | ⟨index', mem, rest⟩)
      · exact Or.inl refused
      · exact Or.inr ⟨index', List.mem_cons_of_mem _ mem, rest⟩
    | error h n => exact Or.inr ⟨index, List.mem_cons_self, m, evaluated⟩
  | case6 k pos object property ih => exact ih root found const
  | case7 k expr noVariable noQualified noThis noIndex noProperty =>
    unfold Expr.rootVariable? at root
    split at root
    · exact absurd rfl (noVariable _ _)
    · exact absurd rfl (noIndex _ _ _)
    · exact absurd rfl (noProperty _ _ _)
    · cases root

end

/-- Across every expression, statement and run, however they end, a constant keeps its place and its
value, unless a closure captures it and makes it an alias of a new cell; an alias stays what it is.
Nothing is ever written to a place in a constant as such. -/
theorem constants_change_only_by_capture (engine : Engine) :
    (∀ fuel e m n, n = ending (Eval.evalAt engine fuel e m) →
      ConstantsKept m n ∧ m.scope.Unwritten m.store n.scope n.store) ∧
    (∀ fuel stmt m n, n = ending (Eval.execAt engine fuel stmt m) →
      ConstantsStay m n ∧ m.scope.Unwritten m.store n.scope n.store) ∧
    (∀ script s t, t = ending (engine.run script s) →
      (∃ older, older <:+ t.scope ∧ s.scope.Kept s.world.store.size older) ∧
      s.scope.Unwritten s.world.store t.scope t.world.store) ∧
    (∀ fuel (α : Type) expr name (k : Held Value α) m e, Expr.rootVariable? expr = some name →
      m.scope.find? name = some e → e.isConst = true →
      Ends (fun _ _ => False)
        (fun h n => (∃ pos, h = .cause (.assignmentToConstant name) pos) ∨
          ∃ index ∈ expr.indices, ∃ o, Eval.evalAt engine fuel index o = .error h n)
        (Eval.access engine (Eval.evaluator engine fuel) expr true k m)) := by
  refine ⟨?_, ?_, ?_, ?_⟩
  · rintro fuel e m n rfl
    have kept := eval_constantsKept engine fuel e m
    exact ⟨kept, kept.scope.unwritten (List.suffix_refl _) _ _⟩
  · rintro fuel stmt m n rfl
    have stay := exec_constantsStay engine fuel stmt m
    obtain ⟨older, suffix, kept⟩ := stay.scope
    exact ⟨stay, kept.unwritten suffix _ _⟩
  · rintro script s t rfl
    obtain ⟨older, suffix, kept⟩ := run_constantsStay engine script s
    exact ⟨⟨older, suffix, kept⟩, kept.unwritten suffix _ _⟩
  · intro fuel α expr name k m e root found const
    exact access_constant_refused engine fuel expr root k found const

/-- The script `const a = [1]; let f = || { a.push(2); }; f.call();`. -/
def captureScript : Script where
  statements := [
    .declare .nowhere true (Text.lit "a") (some (.array .nowhere [.int .nowhere (Integer.ofNat 1)])),
    .declare .nowhere false (Text.lit "f")
      (some (.closure .nowhere (closureName 0) [Text.lit "a"])),
    .expr .nowhere (.method .nowhere (.var .nowhere (Text.lit "f") []) (Text.lit "call") [])]
  functions := [(⟨closureName 0, 1⟩, {
    name := closureName 0, access := .exposed, params := [Text.lit "a"]
    body := [.expr .nowhere (.method .nowhere (.var .nowhere (Text.lit "a") []) (Text.lit "push")
      [.int .nowhere (Integer.ofNat 2)])]
    bodyPos := .nowhere, pos := .nowhere })]

def containerEngine : Engine := { globals := Package.install {} Package.containerOffers }

/-- The name and the items of the entry with this number, if it is a constant array of integers. -/
def constantItems? (t : Stage) (i : Nat) : Option (Text × List Int) :=
  match t.scope.oldestFirst[i]? with
  | some ⟨name, v, true, _⟩ =>
    match t.world.store.flatten ampleFuel v with
    | .ok (.array items) => some (name, items.filterMap fun
      | .int _ n => some n.val
      | _ => none)
    | _ => none
  | _ => none

/-- A closure that captures a constant changes it: the entry is the same constant with one item
after the first statement of the script, and with two items at its end. -/
theorem captured_constant_changes :
    constantItems? (ending (containerEngine.run
      { captureScript with statements := captureScript.statements.take 1 } { world := {} })) 0 =
        some (Text.lit "a", [1]) ∧
    constantItems? (ending (containerEngine.run captureScript { world := {} })) 0 =
      some (Text.lit "a", [1, 2]) := by
  decide +kernel

end Scripting
