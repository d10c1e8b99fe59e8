import Scripting.Eval
import Scripting.Proofs.Assignment.Work
import Scripting.Proofs.Constants
import Scripting.Proofs.Locks

/-
What an assignment leaves behind when it fails. Nothing is undone, and everything on the way to a place
is worked on where it is, so what was done before the failure stays: a map entry that was missing on the
way is there, as unit, and native functions have done what they did. Nothing else is changed.
-/
namespace Scripting

structure Machine.Agrees (m n : Machine) : Prop where
  scope : n.scope = m.scope
  store : n.store = m.store
  this : n.this = m.this

namespace Machine.Agrees

theorem refl (m : Machine) : m.Agrees m := ⟨rfl, rfl, rfl⟩

theorem trans {m n o : Machine} (h : m.Agrees n) (later : n.Agrees o) : m.Agrees o :=
  ⟨later.scope.trans h.scope, later.store.trans h.store, later.this.trans h.this⟩

end Machine.Agrees

/-- Where a place starts. Anything but a variable and `this` is a passing value, but for the names in
modules, which cannot be assigned. -/
inductive Origin where
  | variable (name : Text)
  | this
  | passing (v : Value)
  | foreign

namespace Expr

/-- What is evaluated on the way to a place: the indices, the last one first, and what is at the start
if that is no variable. -/
def operands : Expr → List Expr
  | .index _ object i => i :: object.operands
  | .property _ object _ => object.operands
  | .var _ _ _ => []
  | .this _ => []
  | e => [e]

def way : Expr → List Value → List Part
  | .index _ object _, i :: rest => object.way rest ++ [.index i]
  | .property _ object name, operands => object.way operands ++ [.property name]
  | _, _ => []

def origin : Expr → List Value → Origin
  | .index _ object _, operands => object.origin operands.tail
  | .property _ object _, operands => object.origin operands
  | .var _ name [], _ => .variable name
  | .var _ _ (_ :: _), _ => .foreign
  | .this _, _ => .this
  | _, operands => .passing (operands.headD .unit)

end Expr

/-- The expressions are evaluated one after the other, without an error and without a trace. -/
inductive Quiet (ev : Evaluator) : Machine → List Expr → List Value → Machine → Prop
  | nil {m : Machine} : Quiet ev m [] [] m
  | cons {m n o : Machine} {e : Expr} {v : Value} {rest : List Expr} {values : List Value} :
    ev.eval e m = .ok v n → m.Agrees n → Quiet ev n rest values o →
    Quiet ev m (e :: rest) (v :: values) o

section
variable (engine : Engine) (ev : Evaluator) (operator : Text) (given : Value) (way : List Part)

/-- What a failed assignment leaves of the machine: everything, or what work on the variable, on `this` or
on the passing value leaves that its place starts from. -/
inductive Remains (m : Machine) : Origin → Machine → Prop
  | all {origin : Origin} {n : Machine} : m.Agrees n → Remains m origin n
  | inVariable {n o : Machine} {name : Text} {e : Entry} {v : Value} : m.Agrees n →
    m.scope.find? name = some e → e.isConst = false →
    Worked engine ev operator given way false (e.value, n) (v, o) →
    Remains m (.variable name) { o with scope := o.scope.setValue name v }
  | inThis {n o : Machine} {v w : Value} : m.Agrees n → m.this = some v →
    Worked engine ev operator given way false (v, n) (w, o) →
    Remains m .this { o with this := some w }
  | aside {n o : Machine} {v w : Value} : m.Agrees n →
    Worked engine ev operator given way false (v, n) (w, o) → Remains m (.passing v) o

end

section
variable {engine : Engine} {ev : Evaluator} {operator : Text} {given : Value} {way : List Part}

theorem Works.ofMachine {α : Type} {k : Held Value α} (hk : Works engine ev operator given way k)
    {part : Value} {restore : Value → Machine → Machine} {origin : Origin} {m n : Machine}
    (back : ∀ w o, Worked engine ev operator given way false (part, n) (w, o) →
      Remains engine ev operator given way m origin (restore w o)) :
    Ends (fun _ _ => True) (fun _ p => Remains engine ev operator given way m origin p)
      (Held.ofMachine part restore k n) := by
  rw [Held.ofMachine_eq]
  exact (hk (part, n)).map (fun _ _ _ => trivial) fun _ t => back t.1 t.2

theorem Eval.access_this {α : Type} (pos : Position) (forWrite : Bool) (k : Held Value α)
    (m : Machine) : Eval.access engine ev (.this pos) forWrite k m =
      (match m.this with
        | none => Run.fail (.variableNotFound Reserved.this) pos
        | some v => Run.onThis v (Held.behind Reserved.this pos k)) m := rfl

theorem access_remains {α : Type} {k : Held Value α} (hk : Works engine ev operator given way k)
    {target : Expr} {values : List Value} {m n o : Machine} (before : m.Agrees n)
    (quiet : Quiet ev n target.operands values o) :
    Ends (fun _ _ => True)
      (fun _ p => Remains engine ev operator given (target.way values ++ way) m
        (target.origin values) p)
      (Eval.access engine ev target true k n) := by
  -- along the place, from its end to its start; what is done there grows on the way
  fun_induction Eval.access engine ev target true k generalizing n values way with
  | case1 k pos name =>
    rw [Eval.atVariable_write]
    cases found : n.scope.find? name with
    | none => exact .all before
    | some e =>
      dsimp only
      split
      · exact .all before
      · next writable =>
        rw [before.scope] at found
        exact (hk.behind name pos).ofMachine fun v o worked =>
          .inVariable before found (by simpa using writable) worked
  | case2 k pos name path qualified write => exact .all before
  | case3 k pos name path qualified write => exact absurd rfl write
  | case4 k pos =>
    change Ends _ _ (Eval.access engine ev (.this pos) true k n)
    rw [Eval.access_this]
    cases found : n.this with
    | none => exact .all before
    | some v =>
      rw [before.this] at found
      exact (hk.behind Reserved.this pos).ofMachine fun w o worked => .inThis before found worked
  | case5 k pos object index ih =>
    cases quiet with
    | @cons _ _ _ _ i _ values evaluated same rest =>
      refine Ends.bind ?_
      rw [evaluated, show (Expr.index pos object index).way (i :: values) ++ way =
        object.way values ++ (.index i :: way) from List.append_assoc _ _ _]
      exact ih _ (hk.atIndex i pos) (before.trans same) rest
  | case6 k pos object property ih =>
    rw [show (Expr.property pos object property).way values ++ way =
      object.way values ++ (.property property :: way) from List.append_assoc _ _ _]
    exact ih (hk.atProperty property pos) before quiet
  | case7 k expr noVariable noQualified noThis noIndex noProperty =>
    have alone : expr.operands = [expr] ∧ expr.way values = [] ∧
        expr.origin values = .passing (values.headD .unit) := by
      cases expr with
      | index pos object i => exact absurd rfl (noIndex _ _ _)
      | property pos object name => exact absurd rfl (noProperty _ _ _)
      | var pos name path => exact absurd rfl (noQualified _ _ _)
      | this pos => exact absurd rfl (noThis _)
      | _ => exact ⟨rfl, rfl, rfl⟩
    obtain ⟨operands, straight, origin⟩ := alone
    rw [operands] at quiet
    rw [straight, origin]
    cases quiet with
    | @cons _ o _ _ v _ _ evaluated same rest =>
      refine Ends.bind ?_
      rw [evaluated]
      change Ends _ _ (Held.drop v k o)
      rw [Held.drop_eq]
      exact (hk (v, o)).map (fun _ _ _ => trivial) fun _ _ worked => .aside (before.trans same) worked

end

/-- What remains is everything, or what work with the plain value that was assigned leaves. -/
def RemainsOf (engine : Engine) (ev : Evaluator) (operator : Text) (v : Value) (way : List Part)
    (origin : Origin) (m p : Machine) : Prop :=
  m.Agrees p ∨ ∃ n given, m.Agrees n ∧ Eval.plain ev v n = .ok given n ∧
    Remains engine ev operator given way m origin p

theorem execAssign_remains (engine : Engine) (ev : Evaluator) (pos : Position) (operator : Text)
    (target value : Expr) {v : Value} {values : List Value} {m n o : Machine} (before : m.Agrees n)
    (quiet : Quiet ev n (value :: target.operands) (v :: values) o) :
    Ends (fun _ _ => True)
      (fun _ p => RemainsOf engine ev operator v (target.way values) (target.origin values) m p)
      (Eval.execAssign engine ev pos operator target value n) := by
  cases quiet with
  | @cons _ n' _ _ _ _ _ evaluated same rest =>
    have before := before.trans same
    have still := Eval.plain_still ev v n'
    refine Ends.bind ?_
    rw [evaluated]
    refine Ends.bind ?_
    cases plain : Eval.plain ev v n' with
    | error h p =>
      rw [plain] at still
      cases still
      exact .inl before
    | ok given p =>
      rw [plain] at still
      obtain ⟨rfl, -⟩ := still
      have left {q : Machine} (h : Remains engine ev operator given (target.way values ++ []) m
          (target.origin values) q) :
          RemainsOf engine ev operator v (target.way values) (target.origin values) m q := by
        rw [List.append_nil] at h
        exact .inr ⟨p, given, before, plain, h⟩
      change Ends _ _ ((if operator.isEmpty = true then _ else _ : Run Unit) p)
      by_cases replaces : operator.isEmpty = true
      · rw [if_pos replaces]
        refine (Eval.checkSize_still engine given pos).bind_ends (fun _ _ => ?_) fun _ => .inl before
        have put : Works engine ev operator given [] (Held.setHeld given) :=
          .setHeld (List.isEmpty_iff.mp replaces)
        exact (access_remains put before rest).mono (fun _ _ h => h) fun _ _ h => left h
      · rw [if_neg replaces]
        have worked : Works engine ev operator given [] (Eval.compound engine ev operator given pos) :=
          .compound (by simpa using replaces) pos
        exact (access_remains worked before rest).mono (fun _ _ h => h) fun _ _ h => left h

theorem Eval.tick_agrees (engine : Engine) (pos : Position) (m : Machine) :
    Ends (fun _ n => m.Agrees n) (fun _ n => m.Agrees n) (Eval.tick engine pos m) := by
  have agrees : m.Agrees (m.ticked engine) := ⟨rfl, rfl, rfl⟩
  exact Eval.tick_ends pos m (fun _ => agrees) fun _ _ => agrees

theorem assignment_remains (engine : Engine) (fuel : Nat) (pos : Position) (operator : Text)
    (target value : Expr) {v : Value} {values : List Value} (m : Machine)
    (quiet : ∀ n, Eval.tick engine pos m = .ok () n →
      ∃ o, Quiet (Eval.evaluator engine fuel) n (value :: target.operands) (v :: values) o) :
    Ends (fun _ _ => True)
      (fun _ p => RemainsOf engine (Eval.evaluator engine fuel) operator v (target.way values)
        (target.origin values) m p)
      (Eval.execAt engine (fuel + 1) (.assign pos operator target value) m) := by
  refine Ends.bind ?_
  have begun := Eval.tick_agrees engine pos m
  change Ends _ _ (Eval.tick engine pos m)
  cases ticked : Eval.tick engine pos m with
  | error h n =>
    rw [ticked] at begun
    exact .inl begun
  | ok u n =>
    rw [ticked] at begun
    obtain ⟨o, quiet⟩ := quiet n ticked
    have left := execAssign_remains engine _ pos operator target value begun quiet
    refine Ends.bind (left.mono ?_ ?_)
    · exact fun _ _ _ => trivial
    · exact fun _ _ left => left

/-! ### An entry that was missing -/

/-- A map that a way comes by in the value has one entry more, the one that the way goes on to. It is
unit. -/
inductive Value.Gains : List Part → Value → Value → Prop
  | here {part : Part} {way : List Part} {entries : List (Text × Value)} {key : Text} :
    part.key? = some key → Dict.find? key entries = none →
    Gains (part :: way) (.map entries) (.map (Dict.insert key .unit entries))
  | item {part : Part} {way : List Part} {items : List Value} {i : Nat} {v w : Value} :
    part.item? items.length = some i → items[i]? = some v → Gains way v w →
    Gains (part :: way) (.array items) (.array (items.set i w))
  | entry {part : Part} {way : List Part} {entries : List (Text × Value)} {key : Text} {v w : Value} :
    part.key? = some key → Dict.find? key entries = some v → Gains way v w →
    Gains (part :: way) (.map entries) (.map (Dict.insert key w entries))

/-- A way comes by an alias of the cell, with the rest of the way behind it. -/
inductive Value.Meets (s : Store) (c : Nat) (rest : List Part) : List Part → Value → Prop
  | here : Meets s c rest rest (.shared c)
  | behind {way : List Part} {d : Nat} : Meets s c rest way (s.cell d).value →
    Meets s c rest way (.shared d)
  | item {part : Part} {way : List Part} {items : List Value} {i : Nat} {v : Value} :
    part.item? items.length = some i → items[i]? = some v → Meets s c rest way v →
    Meets s c rest (part :: way) (.array items)
  | entry {part : Part} {way : List Part} {entries : List (Text × Value)} {key : Text} {v : Value} :
    part.key? = some key → Dict.find? key entries = some v → Meets s c rest way v →
    Meets s c rest (part :: way) (.map entries)

theorem Value.Meets.congr {s t : Store} {c : Nat} {rest way : List Part} {v : Value}
    (same : ∀ d, (t.cell d).value = (s.cell d).value) (h : v.Meets s c rest way) :
    v.Meets t c rest way := by
  induction h with
  | here => exact .here
  | behind _ ih => exact .behind ((same _).symm ▸ ih)
  | item meant there _ ih => exact .item meant there ih
  | entry meant found _ ih => exact .entry meant found ih

def Machine.At (m : Machine) (v : Value) : Origin → Prop
  | .variable name => ∃ e, m.scope.find? name = some e ∧ e.value = v
  | .this => m.this = some v
  | .passing w => w = v
  | .foreign => False

/-- A map that a way comes by has one entry more, which is unit: in the variable or in the `this` that the
way starts from, or in a cell that it comes by. -/
inductive Machine.Gains (way : List Part) (m : Machine) : Origin → Machine → Prop
  | inVariable {n : Machine} {name : Text} {e : Entry} {v : Value} : m.scope.find? name = some e →
    e.value.Gains way v → Machine.Agrees { m with scope := m.scope.setValue name v } n →
    Gains way m (.variable name) n
  | inThis {n : Machine} {v w : Value} : m.this = some v → v.Gains way w →
    Machine.Agrees { m with this := some w } n → Gains way m .this n
  | inCell {origin : Origin} {n : Machine} {c : Nat} {rest : List Part} {u v : Value} :
    m.At u origin → u.Meets m.store c rest way → (m.store.cell c).value.Gains rest v →
    (m.withStore (m.store.setValue c v)).Agrees n → Gains way m origin n

inductive Value.InOrder : Value → Prop
  | array {items : List Value} : (∀ v ∈ items, InOrder v) → InOrder (.array items)
  | map {entries : List (Text × Value)} : Dict.Ordered entries → (∀ e ∈ entries, InOrder e.2) →
    InOrder (.map entries)
  | other {v : Value} : (∀ items, v ≠ .array items) → (∀ entries, v ≠ .map entries) → InOrder v

structure Machine.InOrder (m : Machine) : Prop where
  scope : ∀ e ∈ m.scope, e.value.InOrder
  cells : ∀ c, (m.store.cell c).value.InOrder
  this : ∀ v, m.this = some v → v.InOrder

namespace Store

theorem put_comm {c d : Nat} (h : c ≠ d) (s : Store) (x y : Cell) :
    (s.put c x).put d y = (s.put d y).put c x :=
  congrArg Store.mk (Array.setIfInBounds_comm x y h)

theorem setValue_self (s : Store) (c : Nat) : s.setValue c (s.cell c).value = s := put_cell s c

theorem setValue_setValue (s : Store) (c : Nat) (v w : Value) :
    (s.setValue c v).setValue c w = s.setValue c w := by
  by_cases inside : c < s.size
  · rw [setValue, setValue, cell_put_self inside, put_put]
    rfl
  · have absent : s.size ≤ c := by omega
    rw [setValue, setValue, put_of_size_le absent]
    rfl

section
variable {s t : Store} {c : Nat} {name : Text} {pos : Position}
  (taken : s.beginWrite c name pos = .ok t)
include taken

theorem endWrite_setValue (v : Value) : (t.setValue c v).endWrite c = s.setValue c v := by
  obtain ⟨free, rfl⟩ := beginWrite_cases taken
  by_cases inside : c < s.size
  · have unwritten : (s.cell c).writer = false := congrArg Prod.snd free
    rw [setValue, cell_put_self inside, put_put, endWrite, cell_put_self inside, put_put, setValue]
    simp only [← unwritten]
  · have absent : s.size ≤ c := by omega
    rw [put_of_size_le absent, setValue, put_of_size_le absent, endWrite, put_of_size_le absent]

theorem beginWrite_setValue {d : Nat} (other : d ≠ c) (v : Value) :
    (s.setValue d v).beginWrite c name pos = .ok (t.setValue d v) := by
  obtain ⟨free, rfl⟩ := beginWrite_cases taken
  have same : (s.setValue d v).cell c = s.cell c := cell_put_of_ne other.symm _ _
  have unread : (s.cell c).readers = 0 := congrArg Prod.fst free
  have unwritten : (s.cell c).writer = false := congrArg Prod.snd free
  rw [beginWrite]
  simp only [same, unread, unwritten]
  rw [if_neg (by simp), setValue, setValue, cell_put_of_ne other, put_comm other]

end

end Store

theorem Dict.Ordered.insert_self {α : Type} {d : Dict Text α} (h : Ordered d) {key : Text} {a : α}
    (found : d.find? key = some a) : d.insert key a = d := by
  induction d with
  | nil => cases found
  | cons entry rest ih =>
    obtain ⟨k, v⟩ := entry
    obtain ⟨first, later⟩ := List.pairwise_cons.mp h
    unfold find? at found
    unfold Dict.insert
    split at found
    · next same =>
      cases found
      rw [if_pos same, same]
    · next other =>
      have after : ¬ key < k := List.lt_asymm (first _ (mem_of_find? found))
      rw [if_neg other, if_neg after, ih later found]

section
variable (engine : Engine) (ev : Evaluator) (operator : Text) (way : List Part)

/-- The functions of a compound assignment change no variable, no cell and not `this`, and a function
that works in place and fails leaves its value as it is. Natives stand for no part of the way. -/
structure Mild : Prop where
  inPlace : operator ≠ [] → ∀ given pos s,
    s.2.Agrees (ending (Eval.tryMethod engine ev operator [given] pos s)).2 ∧
      (Refused (Eval.tryMethod engine ev operator [given] pos s) →
        (ending (Eval.tryMethod engine ev operator [given] pos s)).1 = s.1)
  onCopies : operator ≠ [] → ∀ args pos (m : Machine),
    m.Agrees (ending (Eval.callByValue engine ev operator.dropLast args pos m))
  accessors : ∀ part ∈ way, ∀ types,
    engine.native? part.getter types true = none ∧ engine.native? part.setter types true = none

/-- Nothing is changed but for an entry more on the way, in the value or in a cell. A value that is not in
the order of its keys may be put in order. -/
inductive Slight : Holding → Holding → Prop
  | same {v w : Value} {m n : Machine} : (v.InOrder → w = v) → m.Agrees n → Slight (v, m) (w, n)
  | value {v w : Value} {m n : Machine} : (v.InOrder → v.Gains way w) → m.Agrees n →
    Slight (v, m) (w, n)
  | cell {v w u : Value} {c : Nat} {rest : List Part} {m n : Machine} : (v.InOrder → w = v) →
    v.Meets m.store c rest way → (m.store.cell c).value.Gains rest u →
    (m.withStore (m.store.setValue c u)).Agrees n → Slight (v, m) (w, n)

end

section
variable {way : List Part} {part : Part}

theorem Slight.behind {m n : Machine} {c : Nat} {name : Text} {pos : Position} {s : Store} {w : Value}
    (taken : m.store.beginWrite c name pos = .ok s) (ordered : (m.store.cell c).value.InOrder)
    (h : Slight way ((s.cell c).value, m.withStore s) (w, n)) :
    Slight way (.shared c, m) (.shared c, n.withStore ((n.store.setValue c w).endWrite c)) := by
  have value := Store.beginWrite_value taken
  rw [value c] at h
  cases h with
  | same kept agrees =>
    refine .same (fun _ => rfl) ⟨agrees.scope, ?_, agrees.this⟩
    change (n.store.setValue c w).endWrite c = m.store
    rw [show n.store = s from agrees.store, Store.endWrite_setValue taken, kept ordered,
      Store.setValue_self]
  | value gains agrees =>
    refine .cell (fun _ => rfl) .here (gains ordered) ⟨agrees.scope, ?_, agrees.this⟩
    change (n.store.setValue c w).endWrite c = m.store.setValue c w
    rw [show n.store = s from agrees.store, Store.endWrite_setValue taken]
  | @cell _ _ u d rest _ _ kept meets gains agrees =>
    have store : n.store = s.setValue d u := agrees.store
    have onWay : (Value.shared c).Meets m.store d rest way :=
      .behind (meets.congr fun d => (value d).symm)
    rw [kept ordered]
    by_cases same : d = c
    · subst same
      refine .same (fun _ => rfl) ⟨agrees.scope, ?_, agrees.this⟩
      change (n.store.setValue d _).endWrite d = m.store
      rw [store, Store.setValue_setValue, Store.endWrite_setValue taken, Store.setValue_self]
    · rw [show (((m.withStore s).store).cell d).value = (m.store.cell d).value from value d] at gains
      refine .cell (fun _ => rfl) onWay gains ⟨agrees.scope, ?_, agrees.this⟩
      change (n.store.setValue c _).endWrite c = m.store.setValue d u
      have other : (m.store.cell c).value = ((m.store.setValue d u).cell c).value := by
        rw [Store.setValue, Store.cell_put_of_ne (Ne.symm same)]
      rw [store, Store.endWrite_setValue (Store.beginWrite_setValue taken same u), other,
        Store.setValue_self]

theorem Slight.item {items : List Value} {i : Nat} {v w : Value} {m n : Machine}
    (meant : part.item? items.length = some i) (there : items[i]? = some v)
    (h : Slight way (v, m) (w, n)) :
    Slight (part :: way) (.array items, m) (.array (items.set i w), n) := by
  have inner (ordered : (Value.array items).InOrder) : v.InOrder := by
    cases ordered with
    | array parts => exact parts v (List.mem_of_getElem? there)
    | other noArray _ => exact absurd rfl (noArray _)
  have kept (same : v.InOrder → w = v) (ordered : (Value.array items).InOrder) :
      Value.array (items.set i w) = .array items := by
    obtain ⟨inside, rfl⟩ := List.getElem?_eq_some_iff.mp there
    rw [same (inner ordered), List.set_getElem_self inside]
  cases h with
  | same same agrees => exact .same (kept same) agrees
  | value gains agrees =>
    exact .value (fun ordered => .item meant there (gains (inner ordered))) agrees
  | cell same meets gains agrees => exact .cell (kept same) (.item meant there meets) gains agrees

theorem Slight.entry {entries : Dict Text Value} {key : Text} {v w : Value} {m n : Machine}
    (meant : part.key? = some key) (found : Dict.find? key entries = some v)
    (h : Slight way (v, m) (w, n)) :
    Slight (part :: way) (.map entries, m) (.map (Dict.insert key w entries), n) := by
  have inner (ordered : (Value.map entries).InOrder) : Dict.Ordered entries ∧ v.InOrder := by
    cases ordered with
    | map ordered parts => exact ⟨ordered, parts _ (Dict.mem_of_find? found)⟩
    | other _ noMap => exact absurd rfl (noMap _)
  have kept (same : v.InOrder → w = v) (ordered : (Value.map entries).InOrder) :
      Value.map (Dict.insert key w entries) = .map entries := by
    obtain ⟨ordered, one⟩ := inner ordered
    rw [same one, ordered.insert_self found]
  cases h with
  | same same agrees => exact .same (kept same) agrees
  | value gains agrees =>
    exact .value (fun ordered => .entry meant found (gains (inner ordered).2)) agrees
  | cell same meets gains agrees => exact .cell (kept same) (.entry meant found meets) gains agrees

/-- An entry that was missing. It starts as unit, which has no parts: the work on it changes nothing
else. -/
theorem Slight.missing {entries : Dict Text Value} {key : Text} {w : Value} {m n : Machine}
    (meant : part.key? = some key) (missing : Dict.find? key entries = none) (agrees : m.Agrees n)
    (h : Slight way (.unit, m) (w, n)) :
    Slight (part :: way) (.map entries, m) (.map (Dict.insert key w entries), n) := by
  have atom : Value.unit.InOrder := .other (fun _ => nofun) fun _ => nofun
  have made (same : Value.unit.InOrder → w = .unit) :
      (Value.map entries).Gains (part :: way) (.map (Dict.insert key w entries)) := by
    rw [same atom]
    exact .here meant missing
  cases h with
  | same same _ => exact .value (fun _ => made same) agrees
  | value gains _ => cases gains atom
  | cell same _ _ _ => exact .value (fun _ => made same) agrees

end

section
variable {engine : Engine} {ev : Evaluator} {operator : Text} {way : List Part} {given : Value}

theorem Mild.tail {part : Part} (mild : Mild engine ev operator (part :: way)) :
    Mild engine ev operator way where
  inPlace := mild.inPlace
  onCopies := mild.onCopies
  accessors other inside := mild.accessors other (List.mem_cons_of_mem _ inside)

theorem Mild.unserved {part : Part} (mild : Mild engine ev operator (part :: way)) (pos : Position)
    (s : Holding) : Ends (fun found t => found = none ∧ t = s) (fun _ t => t = s)
      (Eval.tryMethod engine ev part.getter part.args pos s) :=
  Eval.tryMethod_unserved (fun types => (mild.accessors part List.mem_cons_self types).1) s

theorem Mild.back {part : Part} (mild : Mild engine ev operator (part :: way)) (w : Value)
    (pos : Position) (s : Holding) :
    ending (Eval.tryMethod engine ev part.setter (part.args ++ [w]) pos s) = s :=
  have unserved : Ends (fun found t => found = none ∧ t = s) (fun _ t => t = s)
      (Eval.tryMethod engine ev part.setter (part.args ++ [w]) pos s) :=
    Eval.tryMethod_unserved (fun types => (mild.accessors part List.mem_cons_self types).2) s
  (unserved.mono (fun _ _ h => h.2) fun _ _ h => h).ending (P := (· = s))

theorem Worked.agrees {done : Bool} {s t : Holding}
    (h : Worked engine ev operator given way done s t) (mild : Mild engine ev operator way)
    (simple : s.1 = .unit ∨ ∃ c, s.1 = .char c) : s.2.Agrees t.2 := by
  induction h with
  | idle => exact .refl _
  | put _ => exact .refl _
  | @inPlace _ s pos compound _ => exact (mild.inPlace compound given pos s).1
  | @failing _ v m n pos h compound called =>
    have left := mild.onCopies compound [v, given] pos m
    rwa [called] at left
  | @replacing v w m n pos compound called =>
    have left := mild.onCopies compound [v, given] pos m
    rwa [called] at left
  | item _ _ _ _ => simp at simple
  | entry _ _ _ => simp at simple
  | cell _ _ _ => simp at simple
  | char _ _ _ => simp at simple
  | charPut _ _ _ => simp at simple
  | @getting part way _ pos s t h called =>
    have unserved := mild.unserved pos s
    rw [called] at unserved
    cases unserved
    exact .refl _
  | @got part way _ pos s found v w m n called _ ih =>
    have unserved := mild.unserved pos s
    rw [called] at unserved
    obtain ⟨rfl, rfl⟩ := unserved
    exact ih mild.tail (.inl rfl)
  | @setting part way _ pos s found v w m n called _ _ ih =>
    have unserved := mild.unserved pos s
    rw [called] at unserved
    obtain ⟨rfl, rfl⟩ := unserved
    rw [mild.back w pos (v, n)]
    exact ih mild.tail (.inl rfl)

theorem Worked.slight {done : Bool} {s t : Holding}
    (h : Worked engine ev operator given way done s t) (mild : Mild engine ev operator way)
    (failed : done = false) (cells : ∀ c, (s.2.store.cell c).value.InOrder) : Slight way s t := by
  -- along the way: a container whose part is unchanged is put back as it was
  induction h with
  | idle => exact .same (fun _ => rfl) (.refl _)
  | put _ => cases failed
  | @inPlace _ s pos compound finished =>
    obtain ⟨agrees, kept⟩ := mild.inPlace compound given pos s
    have same := kept (finished.resolve_left (by simp [failed]))
    exact .same (fun _ => same) agrees
  | @failing _ v m n pos h compound called =>
    have left := mild.onCopies compound [v, given] pos m
    rw [called] at left
    exact .same (fun _ => rfl) left
  | replacing _ _ => cases failed
  | item meant there _ ih => exact (ih mild.tail failed cells).item meant there
  | @entry _ _ _ entries key w m n meant worked ih =>
    cases found : Dict.find? key entries with
    | none =>
      rw [found] at ih worked
      exact (ih mild.tail failed cells).missing meant found (worked.agrees mild.tail (.inl rfl))
    | some v =>
      rw [found] at ih
      exact (ih mild.tail failed cells).entry meant found
  | @cell _ _ c name pos s w m n taken _ ih =>
    refine Slight.behind taken (cells c) (ih mild failed fun d => ?_)
    rw [show ((m.withStore s).store.cell d).value = (m.store.cell d).value from
      Store.beginWrite_value taken d]
    exact cells d
  | char _ worked _ => exact .same (fun _ => rfl) (worked.agrees mild.tail (.inr ⟨_, rfl⟩))
  | charPut _ _ _ => cases failed
  | @getting part way _ pos s t h called =>
    have unserved := mild.unserved pos s
    rw [called] at unserved
    cases unserved
    exact .same (fun _ => rfl) (.refl _)
  | @got part way _ pos s found v w m n called worked _ =>
    have unserved := mild.unserved pos s
    rw [called] at unserved
    obtain ⟨rfl, rfl⟩ := unserved
    exact .same (fun _ => rfl) (worked.agrees mild.tail (.inl rfl))
  | @setting part way _ pos s found v w m n called worked _ _ =>
    have unserved := mild.unserved pos s
    rw [called] at unserved
    obtain ⟨rfl, rfl⟩ := unserved
    rw [mild.back w pos (v, n)]
    exact .same (fun _ => rfl) (worked.agrees mild.tail (.inl rfl))

theorem Remains.slight {origin : Origin} {m n : Machine}
    (h : Remains engine ev operator given way m origin n) (mild : Mild engine ev operator way)
    (ordered : m.InOrder) : m.Agrees n ∨ m.Gains way origin n := by
  have start {v : Value} {o p : Machine} {w : Value} (before : m.Agrees o)
      (worked : Worked engine ev operator given way false (v, o) (w, p)) : Slight way (v, o) (w, p) :=
    worked.slight mild rfl fun c => by
      rw [before.store]
      exact ordered.cells c
  -- the gain of a cell, seen from the beginning
  have inCell {o p q : Machine} {c : Nat} {rest : List Part} {v u : Value} (before : m.Agrees o)
      (there : m.At v origin) (meets : v.Meets o.store c rest way)
      (gains : (o.store.cell c).value.Gains rest u)
      (agrees : (o.withStore (o.store.setValue c u)).Agrees p) (scope : q.scope = p.scope)
      (store : q.store = p.store) (this : q.this = p.this) : m.Gains way origin q := by
    rw [before.store] at gains meets
    refine .inCell there meets gains ⟨scope.trans (agrees.scope.trans before.scope), ?_,
      this.trans (agrees.this.trans before.this)⟩
    rw [store, agrees.store]
    exact congrArg (·.setValue c u) before.store
  cases h with
  | all agrees => exact .inl agrees
  | @inVariable n o name e v before found writable worked =>
    have value := ordered.scope e (Scope.mem_of_find? found)
    have back {scope : Scope} (same : scope = m.scope) : scope.setValue name e.value = scope := by
      rw [same, Scope.setValue_self found]
    cases start before worked with
    | same kept agrees =>
      have all := before.trans agrees
      refine .inl ⟨?_, all.store, all.this⟩
      rw [kept value]
      exact (back all.scope).trans all.scope
    | value gains agrees =>
      have all := before.trans agrees
      exact .inr (.inVariable found (gains value)
        ⟨congrArg (·.setValue name v) all.scope, all.store, all.this⟩)
    | cell kept meets gains agrees =>
      rw [kept value]
      exact .inr (inCell before ⟨e, found, rfl⟩ meets gains agrees
        (back (agrees.scope.trans before.scope)) rfl rfl)
  | @inThis n o v w before found worked =>
    have value := ordered.this v found
    cases start before worked with
    | same kept agrees =>
      have all := before.trans agrees
      refine .inl ⟨all.scope, all.store, ?_⟩
      rw [kept value, found]
    | value gains agrees =>
      have all := before.trans agrees
      exact .inr (.inThis found (gains value) ⟨all.scope, all.store, rfl⟩)
    | cell kept meets gains agrees =>
      rw [kept value]
      refine .inr (inCell before found meets gains agrees rfl rfl ?_)
      rw [← found]
      exact (agrees.this.trans before.this).symm
  | aside before worked =>
    cases start before worked with
    | same _ agrees => exact .inl (before.trans agrees)
    | value _ agrees => exact .inl (before.trans agrees)
    | cell _ meets gains agrees => exact .inr (inCell before rfl meets gains agrees rfl rfl rfl)

end

/-- An assignment whose operands are evaluated without an error and without a trace, and that fails all
the same, leaves what work on the place has come to: nothing is changed but for entries that were missing
on the way, which starts from the variable, `this` or passing value of the place and goes by its indices
and properties, and for what native functions have done. If these do nothing but to their own value, and
that not when they fail, then nothing is changed at all or one entry is made. -/
theorem failed_assignment_leaves (engine : Engine) (fuel : Nat) (pos : Position) (operator : Text)
    (target value : Expr) {v : Value} {values : List Value} (m : Machine)
    (quiet : ∀ n, Eval.tick engine pos m = .ok () n →
      ∃ o, Quiet (Eval.evaluator engine fuel) n (value :: target.operands) (v :: values) o)
    {h : Halt} {p : Machine}
    (failed : Eval.execAt engine (fuel + 1) (.assign pos operator target value) m = .error h p) :
    RemainsOf engine (Eval.evaluator engine fuel) operator v (target.way values)
        (target.origin values) m p ∧
      (Mild engine (Eval.evaluator engine fuel) operator (target.way values) → m.InOrder →
        m.Agrees p ∨ m.Gains (target.way values) (target.origin values) p) := by
  have left := assignment_remains engine fuel pos operator target value m quiet
  rw [failed] at left
  refine ⟨left, fun mild ordered => ?_⟩
  rcases left with agrees | ⟨n, given, -, -, remains⟩
  · exact .inl agrees
  · exact remains.slight mild ordered

def emptyMap : Machine where
  world := {}
  scope := [{ name := Text.lit "m", value := .map [] }]
  library := {}
  root := {}

/-- The place `m["a"].b`. -/
def nestedPlace : Expr :=
  .property .nowhere (.index .nowhere (.var .nowhere (Text.lit "m") []) (.string .nowhere (Text.lit "a")))
    (Text.lit "b")

def one : Expr := .int .nowhere (Integer.ofNat 1)

theorem emptyMap_quiet (n : Machine) (begun : Eval.tick .raw .nowhere emptyMap = .ok () n) :
    ∃ o, Quiet (Eval.evaluator .raw 1) n (one :: nestedPlace.operands)
      [.i64 (Integer.ofNat 1), .string (Text.lit "a")] o := by
  have counted : Eval.tick .raw .nowhere emptyMap = .ok () { emptyMap with operations := 1 } := rfl
  rw [counted] at begun
  cases begun
  exact ⟨_, .cons rfl ⟨rfl, rfl, rfl⟩ (.cons rfl ⟨rfl, rfl, rfl⟩ .nil)⟩

theorem mild_raw (way : List Part) : Mild .raw (Eval.evaluator .raw 1) [] way where
  inPlace compound := absurd rfl compound
  onCopies compound := absurd rfl compound
  accessors _ _ _ := ⟨rfl, rfl⟩

theorem emptyMap_inOrder : emptyMap.InOrder where
  scope e inside := by
    rw [List.mem_singleton.mp inside]
    exact .map .nil fun _ none => by cases none
  cells c := .other (fun _ => nofun) fun _ => nofun
  this v none := by cases none

/-- The entry `a` of `m` is made on the way to a property that unit does not have. -/
theorem failed_assignment_leaves_nested :
    (∀ n, Eval.tick .raw .nowhere emptyMap = .ok () n →
      ∃ o, Quiet (Eval.evaluator .raw 1) n (one :: nestedPlace.operands)
        [.i64 (Integer.ofNat 1), .string (Text.lit "a")] o) ∧
    ∃ h p, Eval.execAt .raw 2 (.assign .nowhere [] nestedPlace one) emptyMap = .error h p ∧
      RemainsOf .raw (Eval.evaluator .raw 1) [] (.i64 (Integer.ofNat 1))
        [.index (.string (Text.lit "a")), .property (Text.lit "b")] (.variable (Text.lit "m"))
        emptyMap p ∧
      emptyMap.Gains [.index (.string (Text.lit "a")), .property (Text.lit "b")]
        (.variable (Text.lit "m")) p ∧
      p.scope.find? (Text.lit "m") =
        some { name := Text.lit "m", value := .map [(Text.lit "a", .unit)] } := by
  refine ⟨emptyMap_quiet, _, _, rfl, ?_⟩
  obtain ⟨remains, slight⟩ := failed_assignment_leaves .raw 1 .nowhere [] nestedPlace one emptyMap
    emptyMap_quiet rfl
  refine ⟨remains, (slight (mild_raw _) emptyMap_inOrder).resolve_left fun same => ?_, rfl⟩
  cases same.scope

/-- Though all operands are quiet, a failed assignment can leave another value. -/
theorem missing_entry_is_left : ¬ ∀ (engine : Engine) (fuel : Nat) (pos : Position)
    (operator : Text) (target value : Expr) (v : Value) (values : List Value) (m : Machine),
    (∀ n, Eval.tick engine pos m = .ok () n →
      ∃ o, Quiet (Eval.evaluator engine fuel) n (value :: target.operands) (v :: values) o) →
    ∀ h p, Eval.execAt engine (fuel + 1) (.assign pos operator target value) m = .error h p →
      m.Agrees p := by
  intro kept
  have agrees := kept .raw 1 .nowhere [] nestedPlace one _ _ emptyMap emptyMap_quiet _ _ rfl
  have same := agrees.scope
  cases same

end Scripting
