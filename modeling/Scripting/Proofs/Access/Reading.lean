import Scripting.Proofs.Access.Place
import Scripting.Proofs.Overloads
import Scripting.Proofs.Regime.Sizes

/-
Reading a place. Where no cell holds an alias, evaluating a place gives what the place holds, or fails if
it holds nothing, and changes nothing but the counts of operations.
-/
namespace Scripting

def Machine.Counted (m n : Machine) : Prop :=
  ∃ operations progress, n = { m with operations, world := { m.world with progress } }

namespace Machine.Counted

variable {m n o : Machine}

theorem refl (m : Machine) : m.Counted m := ⟨m.operations, m.world.progress, rfl⟩

theorem trans (h : m.Counted n) (later : n.Counted o) : m.Counted o := by
  obtain ⟨_, _, rfl⟩ := h
  obtain ⟨operations, progress, rfl⟩ := later
  exact ⟨operations, progress, rfl⟩

theorem symm (h : m.Counted n) : n.Counted m := by
  obtain ⟨_, _, rfl⟩ := h
  exact ⟨m.operations, m.world.progress, rfl⟩

theorem agrees (h : m.Counted n) : m.Agrees n := by
  obtain ⟨_, _, rfl⟩ := h
  exact ⟨rfl, rfl, rfl⟩

theorem scope (h : m.Counted n) : n.scope = m.scope := h.agrees.scope

theorem store (h : m.Counted n) : n.store = m.store := h.agrees.store

theorem this (h : m.Counted n) : n.this = m.this := h.agrees.this

end Machine.Counted

/-- An array or a map that holds no alias at any depth, or any other value that is no alias. -/
inductive Value.Flat : Value → Prop where
  | array {items : List Value} (h : ∀ v ∈ items, Flat v) : Flat (.array items)
  | map {entries : List (Text × Value)} (h : ∀ e ∈ entries, Flat e.2) : Flat (.map entries)
  | other {v : Value} (own : v.isShared = false) (noArray : ∀ items, v ≠ .array items)
      (noMap : ∀ entries, v ≠ .map entries) : Flat v

theorem Value.Flat.own {v : Value} (h : v.Flat) : v.isShared = false := by
  cases h with
  | array => rfl
  | map => rfl
  | other own => exact own

structure Engine.OnCore (engine : Engine) : Prop where
  globals : engine.globals.functions = []
  packages : engine.packages = [Package.coreModule]

structure Engine.Unstopped (engine : Engine) : Prop where
  operations : engine.limits.operations = 0
  progress : ∀ stop, engine.progress = some stop → stop = 0

theorem Engine.Unstopped.stop?_none {engine : Engine} (unstopped : engine.Unstopped)
    (operations : Nat) : engine.stop? operations = none := by
  unfold Engine.stop?
  rw [if_neg fun beyond => absurd unstopped.operations (Nat.ne_of_gt beyond.1)]
  cases watched : engine.progress with
  | none => rfl
  | some stop =>
    exact if_neg fun reached => absurd (unstopped.progress stop watched) (Nat.ne_of_gt reached.1)

namespace Engine.OnCore

variable {engine : Engine} (core : engine.OnCore)
include core

theorem nativeModules : engine.nativeModules = [engine.globals, Package.coreModule] := by
  rw [Engine.nativeModules, core.packages]

theorem unserved {name : Text} (other : Package.coreModule.overloads name = [])
    (types : List ValueType) (method : Bool) : engine.native? name types method = none := by
  refine Engine.native?_none (fun m hm => ?_) types method
  rw [core.nativeModules] at hm
  rcases List.mem_cons.mp hm with rfl | hm
  · rw [Module.overloads, core.globals]
    rfl
  · rw [List.mem_singleton.mp hm]
    exact other

end Engine.OnCore

namespace Package

def dollar : UInt8 := 36

theorem overloads_unoffered {name : Text} (h : ∀ o ∈ coreOffers, Text.lit o.1 ≠ name) :
    coreModule.overloads name = [] := by
  refine List.filter_eq_nil_iff.mpr fun f hf named => ?_
  rcases mem_install hf with never | ⟨o, mem, same, -⟩
  · cases never
  · exact h o mem ((congrArg Signature.name same).symm.trans (eq_of_beq named))

theorem overloads_of_dollar {name : Text} (h : dollar ∈ name) : coreModule.overloads name = [] := by
  have plain : coreOffers.all (fun o => !(Text.lit o.1).contains dollar) = true := by decide +kernel
  refine overloads_unoffered fun o mem same => ?_
  have own := List.all_eq_true.mp plain o mem
  rw [same] at own
  simp [h] at own

theorem dollar_mem_getter (name : Text) : dollar ∈ getter name :=
  List.mem_append_left _ (by decide)

theorem dollar_mem_setter (name : Text) : dollar ∈ setter name :=
  List.mem_append_left _ (by decide)

theorem dollar_mem_index : dollar ∈ indexGetter ∧ dollar ∈ indexSetter := by decide

end Package

/-- A computation that fails with an error and leaves everything as it was. -/
def Refuses {σ α : Type} (k : EStateM Halt σ α) (s : σ) : Prop := ∃ e, k s = .error (.error e) s

namespace Refuses

variable {σ α β : Type} {s : σ}

theorem fail (cause : Cause) (pos : Position) (m : Machine) :
    Refuses (Run.fail cause pos : Run α) m := ⟨_, rfl⟩

theorem bind {k : EStateM Halt σ α} (h : Refuses k s) (f : α → EStateM Halt σ β) :
    Refuses (k >>= f) s := by
  obtain ⟨e, failed⟩ := h
  exact ⟨e, bind_of_error failed f⟩

theorem bind_ok {k : EStateM Halt σ α} {f : α → EStateM Halt σ β} {a : α} (ran : k s = .ok a s)
    (h : Refuses (f a) s) : Refuses (k >>= f) s := by
  obtain ⟨e, failed⟩ := h
  exact ⟨e, (bind_of_ok ran f).trans failed⟩

theorem lift {φ : Type} {k : Run α} {m : Machine} (h : Refuses k m) (x : φ) :
    Refuses (Held.lift k) (x, m) := by
  obtain ⟨e, failed⟩ := h
  exact ⟨e, Held.lift_of_error failed x⟩

theorem drop {φ : Type} {k : Held φ α} {x : φ} {m : Machine} (h : Refuses k (x, m)) :
    Refuses (Held.drop x k) m := by
  obtain ⟨e, failed⟩ := h
  exact ⟨e, Held.drop_of_error failed⟩

end Refuses

namespace Store

def Shallow (s : Store) : Prop := ∀ c, (s.cell c).value.isShared = false

def Flat (s : Store) : Prop := ∀ c, (s.cell c).value.Flat

def Free (s : Store) : Prop := ∀ c, (s.cell c).lock = (0, false)

theorem Flat.shallow {s : Store} (flat : s.Flat) : s.Shallow := fun c => (flat c).own

theorem Shallow.behind? {s : Store} (shallow : s.Shallow) {v w : Value} (h : v.behind? s = some w) :
    w.isShared = false := by
  cases v with
  | shared c =>
    have content : (if (s.cell c).writer then none else some (s.cell c).value) = some w := h
    split at content
    · cases content
    · cases content
      exact shallow c
  | _ =>
    cases h
    rfl

end Store

theorem Expr.IsLocal.look_plain {m : Machine} (shallow : m.store.Shallow) {e : Expr} (place : e.IsLocal)
    {w : Value} (h : e.look m = some w) : w.isShared = false := by
  cases place with
  | var =>
    obtain ⟨entry, -, shown⟩ := Option.bind_eq_some_iff.mp
      (show (m.start? (.variable _)) = some w from h)
    exact shallow.behind? shown
  | this =>
    obtain ⟨v, -, shown⟩ := Option.bind_eq_some_iff.mp (show (m.start? .this) = some w from h)
    exact shallow.behind? shown
  | index _ _ =>
    rw [Expr.look_index] at h
    obtain ⟨v, -, h⟩ := Option.bind_eq_some_iff.mp h
    obtain ⟨i, -, h⟩ := Option.bind_eq_some_iff.mp h
    obtain ⟨part, -, shown⟩ := Option.bind_eq_some_iff.mp h
    exact shallow.behind? shown
  | property _ =>
    rw [Expr.look_property] at h
    obtain ⟨v, -, h⟩ := Option.bind_eq_some_iff.mp h
    obtain ⟨part, -, shown⟩ := Option.bind_eq_some_iff.mp h
    exact shallow.behind? shown

namespace Eval

theorem tryNative_typed (engine : Engine) {ev : Evaluator} {m : Machine} {args : List Value}
    {types : List ValueType} (known : typesOf ev args m = .ok types m) (name : Text) (method : Bool)
    (pos : Position) : tryNative engine ev name method pos (args, m) =
      (match engine.native? name types method with
        | none => pure none
        | some f => some <$> callNative engine ev f name method pos) (args, m) := by
  refine (bind_of_ok (Held.lift_of_ok known _) _).trans ?_
  cases engine.native? name types method <;> rfl

theorem tryMethod_untyped {engine : Engine} {ev : Evaluator} {m : Machine} {name : Text} {v : Value}
    {rest : List Value} {types : List ValueType} (known : typesOf ev (v :: rest) m = .ok types m)
    (unserved : engine.native? name types true = none) (pos : Position) :
    tryMethod engine ev name rest pos (v, m) = .ok none (v, m) := by
  have whole : tryMethod engine ev name rest pos (v, m) = Held.zoom (v :: rest)
    (fun args v => args.headD v) (tryNative engine ev name true pos) (v, m) := rfl
  have native := tryNative_typed engine known name true pos
  rw [unserved] at native
  rw [whole, Held.zoom_of_ok native]
  rfl

section
variable {engine : Engine} {ev : Evaluator} {m : Machine} (fuel : 2 ≤ ev.fuel)
  (shallow : m.store.Shallow)
include fuel shallow

/-- A value can be looked behind, unless it is an alias of a cell that is being written. -/
theorem looks_behind (v : Value) :
    (∃ w, v.behind? m.store = some w ∧ typeOf ev v m = .ok w.plainType m ∧
      flatten ev v m = .ok w m) ∨
    v.behind? m.store = none ∧ Refuses (typeOf ev v) m ∧ Refuses (flatten ev v) m := by
  obtain ⟨n, more⟩ : ∃ n, ev.fuel = n + 2 := ⟨ev.fuel - 2, by omega⟩
  cases v with
  | shared c =>
    have type : typeOf ev (.shared c) m =
        (monadLift (do m.store.typeOf (n + 1) (← m.store.read c [] .nowhere)) : Run ValueType) m := by
      change (monadLift (m.store.typeOf ev.fuel (.shared c)) : Run ValueType) m = _
      rw [more]
      rfl
    have value : flatten ev (.shared c) m =
        (monadLift (do m.store.flatten (n + 1) (← m.store.read c [] .nowhere)) : Run Value) m := by
      change (monadLift (m.store.flatten ev.fuel (.shared c)) : Run Value) m = _
      rw [more]
      rfl
    cases locked : (m.store.cell c).writer with
    | true =>
      have read : m.store.read c [] .nowhere = .error (.cause (.dataRace []) .nowhere) := if_pos locked
      rw [read] at type value
      exact Or.inr ⟨if_pos locked, ⟨_, type⟩, ⟨_, value⟩⟩
    | false =>
      have unlocked : ¬ (m.store.cell c).writer = true := by simp [locked]
      have read : m.store.read c [] .nowhere = .ok (m.store.cell c).value := if_neg unlocked
      rw [type, value, read]
      refine Or.inl ⟨(m.store.cell c).value, if_neg unlocked, ?_, ?_⟩
      · change (monadLift (m.store.typeOf (n + 1) (m.store.cell c).value) : Run ValueType) m = _
        rw [m.store.typeOf_unshared (Nat.succ_pos n) (shallow c)]
        rfl
      · change (monadLift (m.store.flatten (n + 1) (m.store.cell c).value) : Run Value) m = _
        rw [m.store.flatten_unshared (Nat.succ_pos n) (shallow c)]
        rfl
  | _ =>
    exact Or.inl ⟨_, rfl, typeOf_of_plain (by omega) rfl m, flatten_of_plain (by omega) rfl m⟩

theorem typeOf_known (v : Value) :
    (∃ t, typeOf ev v m = .ok t m) ∨ Refuses (typeOf ev v) m := by
  rcases looks_behind fuel shallow v with ⟨w, -, known, -⟩ | ⟨-, refused, -⟩
  · exact Or.inl ⟨w.plainType, known⟩
  · exact Or.inr refused

theorem typesOf_known (args : List Value) :
    (∃ types, typesOf ev args m = .ok types m) ∨ Refuses (typesOf ev args) m := by
  unfold typesOf
  induction args with
  | nil => exact Or.inl ⟨[], rfl⟩
  | cons v rest ih =>
    rw [List.mapM_cons]
    rcases typeOf_known fuel shallow v with ⟨t, known⟩ | refused
    · rcases ih with ⟨ts, rest⟩ | refused
      · refine Or.inl ⟨t :: ts, ?_⟩
        rw [bind_of_ok known, bind_of_ok rest]
        rfl
      · exact Or.inr (.bind_ok known (refused.bind _))
    · exact Or.inr (refused.bind _)

theorem plainMismatch_refuses {α : Type} (expected : String) (v : Value) (pos : Position) :
    Refuses (plainMismatch ev expected v pos : Run α) m := by
  rcases typeOf_known fuel shallow v with ⟨t, known⟩ | refused
  · exact .bind_ok known (.fail _ _ m)
  · exact refused.bind _

theorem notFound_refuses {α : Type} (name : Text) (args : List Value) (pos : Position) :
    Refuses (notFound engine ev name args pos : Run α) m := by
  rcases typesOf_known fuel shallow args with ⟨t, known⟩ | refused
  · exact .bind_ok known (.fail _ _ m)
  · exact refused.bind _

theorem tryMethod_nothing {name : Text} (unserved : ∀ types, engine.native? name types true = none)
    (v : Value) (rest : List Value) (pos : Position) :
    tryMethod engine ev name rest pos (v, m) = .ok none (v, m) ∨
      Refuses (tryMethod engine ev name rest pos) (v, m) := by
  rcases typesOf_known fuel shallow (v :: rest) with ⟨types, known⟩ | refused
  · exact Or.inl (tryMethod_untyped known (unserved types) pos)
  · have whole : tryMethod engine ev name rest pos (v, m) = Held.zoom (v :: rest)
      (fun args v => args.headD v) (tryNative engine ev name true pos) (v, m) := rfl
    have native : Refuses (tryNative engine ev name true pos) (v :: rest, m) :=
      (refused.lift (v :: rest)).bind _
    obtain ⟨e, failed⟩ := native
    refine Or.inr ⟨e, ?_⟩
    rw [whole, Held.zoom_of_error failed]
    rfl

end

/-- A computation has given this value, or has failed with an error, and has only counted operations. -/
def Comes {α : Type} (m : Machine) : Option α → EStateM.Result Halt Machine α → Prop
  | some a, out => ∃ o, out = .ok a o ∧ m.Counted o
  | none, out => ∃ e o, out = .error (.error e) o ∧ m.Counted o

namespace Comes

variable {α β : Type} {m n : Machine}

theorem give (h : m.Counted n) (a : α) : Comes m (some a) ((pure a : Run α) n) := ⟨n, rfl, h⟩

theorem refuse {k : Run α} (h : m.Counted n) (refused : Refuses k n) : Comes m none (k n) := by
  obtain ⟨e, failed⟩ := refused
  exact ⟨e, n, failed, h⟩

theorem bind {k : Run α} {f : α → Run β} {a : α} {r : Option β} (first : Comes m (some a) (k n))
    (later : ∀ o, m.Counted o → Comes m r (f a o)) : Comes m r ((k >>= f) n) := by
  obtain ⟨o, ran, counted⟩ := first
  rw [bind_of_ok ran]
  exact later o counted

theorem bind_none {k : Run α} {f : α → Run β} (first : Comes m none (k n)) :
    Comes m none ((k >>= f) n) := by
  obtain ⟨e, o, failed, counted⟩ := first
  exact ⟨e, o, bind_of_error failed f, counted⟩

end Comes

section
variable {engine : Engine} {ev : Evaluator} {m n : Machine}

theorem tick_comes (unstopped : engine.Unstopped) (pos : Position) (h : m.Counted n) :
    Comes m (some ()) (tick engine pos n) := by
  refine ⟨n.ticked engine, ?_, h.trans ⟨_, _, rfl⟩⟩
  rw [tick_eq, unstopped.stop?_none]

/-! ### Indices -/

variable (ev) in
theorem arrayIndex_item {k : Integer} {items : List Value} {v : Value} (start : ¬ k.val < 0)
    (there : items[k.val.toNat]? = some v) (pos : Position) (n : Machine) :
    arrayIndex ev items.length (.i64 k) pos n = .ok k.val.toNat n := by
  have inside : k.val.toNat < items.length := (List.getElem?_eq_some_iff.mp there).1
  have fits : ¬ (k.val < 0 ∨ (items.length : Int) ≤ k.val) := by omega
  simp only [arrayIndex, if_neg fits]
  rfl

variable (ev) in
theorem locateChar_char {k : Integer} {t : Text} {found : Text × CodePoint × Text}
    (there : Key.character? k t = some found) (pos : Position) (n : Machine) :
    locateChar ev t (.i64 k) pos n = .ok found n := by
  unfold Key.character? at there
  simp only [locateChar, there]
  rfl

section
variable (fuel : 2 ≤ ev.fuel) (shallow : n.store.Shallow)
include fuel shallow

theorem arrayIndex_refuses {w : Value} {items : List Value}
    (none : (w.key?.bind fun k => k.sees (.array items)) = none) (pos : Position) :
    Refuses (arrayIndex ev items.length w pos) n := by
  unfold arrayIndex
  split
  · next k =>
    split
    · exact .fail _ pos n
    · next inside =>
      have start : ¬ k.val < 0 := by omega
      have absent : items[k.val.toNat]? = Option.none := by
        simpa [Value.key?, Key.sees, start] using none
      have outside := List.getElem?_eq_none_iff.mp absent
      omega
  · exact plainMismatch_refuses fuel shallow _ w pos

theorem mapKey_refuses {w : Value} {entries : List (Text × Value)}
    (none : (w.key?.bind fun k => k.sees (.map entries)) = none) (pos : Position) :
    Refuses (mapKey ev w pos) n := by
  unfold mapKey
  split
  · simp [Value.key?, Key.sees] at none
  · exact plainMismatch_refuses fuel shallow _ w pos

theorem locateChar_refuses {w : Value} {t : Text}
    (none : (w.key?.bind fun k => k.sees (.string t)) = none) (pos : Position) :
    Refuses (locateChar ev t w pos) n := by
  unfold locateChar
  split
  · next k =>
    have absent : (if k.val < 0 then Option.none else Utf8.locate k.val.toNat t) = Option.none := by
      simpa [Value.key?, Key.sees, Key.character?] using none
    rw [absent]
    exact .fail _ pos n
  · exact plainMismatch_refuses fuel shallow _ w pos

end

end

/-! ### Paths -/

section
variable {m n : Machine}

theorem walkPath_comes (counted : m.Counted n) (pos : Position) (path seen : List Text)
    (found : Module) : Comes m (found.descendant? path) (walkPath pos seen found path n) := by
  induction path generalizing seen found with
  | nil => exact .give counted found
  | cons name rest ih =>
    unfold walkPath Module.descendant?
    cases found.module? name with
    | none => exact .refuse counted (.fail _ pos n)
    | some sub => exact ih (seen ++ [name]) sub

theorem findModule_comes (counted : m.Counted n) (pos : Position) (path : List Text) :
    Comes m (m.module? path) (findModule path pos n) := by
  cases path with
  | nil => exact .refuse counted (.fail _ pos n)
  | cons first rest =>
    have same : (Dict.find? first n.imports).or (n.library.module? first) =
        (Dict.find? first m.imports).or (m.library.module? first) := by
      obtain ⟨_, _, rfl⟩ := counted
      rfl
    simp only [findModule, Machine.module?]
    rw [bind_of_ok (p := get) (a := n) rfl, same]
    cases (Dict.find? first m.imports).or (m.library.module? first) with
    | none => exact .refuse counted (.fail _ pos n)
    | some found => exact walkPath_comes counted pos rest [first] found

end

theorem readQualified_comes (ev : Evaluator) {m n : Machine} (counted : m.Counted n) (pos : Position)
    (name first : Text) (rest : List Text) :
    Comes m (m.start? (.qualified (first :: rest) name))
      (readVariable ev pos name (first :: rest) n) := by
  simp only [readVariable, Machine.start?]
  have followed := findModule_comes counted pos (first :: rest)
  cases found : m.module? (first :: rest) with
  | none => exact (found ▸ followed).bind_none
  | some sub =>
    refine (found ▸ followed).bind fun o counted => ?_
    simp only [Option.bind_some]
    cases sub.value? name with
    | none => exact .refuse counted (.fail _ pos o)
    | some v => exact .give counted v

/-! ### Variables -/

section
variable {ev : Evaluator} {α : Type} {k : Held Value α} {n : Machine} {name : Text}

theorem atVariable_found {e : Entry} (found : n.scope.find? name = some e) (write : Bool)
    (pos : Position) :
    atVariable ev name write pos k n = (if e.isConst then
        if write then Run.fail (.assignmentToConstant name) pos
        else do Held.drop (← flatten ev e.value) k
      else Run.onVariable name e.value (Held.behind name pos k)) n := by
  rw [atVariable, bind_of_ok (p := get) (a := n) rfl, found]

theorem atVariable_missing (missing : n.scope.find? name = none) (write : Bool) (pos : Position) :
    Refuses (atVariable ev name write pos k) n := by
  refine .bind_ok (a := n) rfl ?_
  rw [missing]
  exact .fail _ pos n

end

/-! ### Reading -/

section
variable {engine : Engine} {ev : Evaluator} {m n : Machine} (fuel : 2 ≤ ev.fuel)
  (shallow : m.store.Shallow)
include fuel shallow

theorem flatten_comes (counted : m.Counted n) (v : Value) :
    Comes m (v.behind? m.store) (flatten ev v n) := by
  have quiet : n.store.Shallow := counted.store ▸ shallow
  rw [← counted.store]
  rcases looks_behind fuel quiet v with ⟨w, shown, -, value⟩ | ⟨none, -, refused⟩
  · rw [shown]
    exact ⟨n, value, counted⟩
  · rw [none]
    exact .refuse counted refused

theorem this_comes (counted : m.Counted n) (pos : Position) :
    Comes m (m.this.bind (·.behind? m.store)) ((match n.this with
      | none => Run.fail (.variableNotFound Reserved.this) pos
      | some v => flatten ev v) n) := by
  rw [counted.this]
  cases m.this with
  | none => exact .refuse counted (.fail _ pos n)
  | some v => exact flatten_comes fuel shallow counted v

theorem readVariable_comes (counted : m.Counted n) (pos : Position) (name : Text) :
    Comes m (m.start? (.variable name)) (readVariable ev pos name [] n) := by
  simp only [readVariable]
  rw [bind_of_ok (p := get) (a := n) rfl, counted.scope, Machine.start?]
  cases found : m.scope.find? name with
  | none => exact .refuse counted (.fail _ pos n)
  | some e =>
    cases value : e.value with
    | shared c =>
      simp only [Option.bind_some, value, Value.behind?]
      rw [bind_of_ok (p := get) (a := n) rfl, counted.store]
      cases locked : (m.store.cell c).writer with
      | true =>
        have read : m.store.read c name pos = .error (.cause (.dataRace name) pos) := if_pos locked
        rw [read]
        exact .refuse counted (.bind ⟨_, rfl⟩ _)
      | false =>
        have read : m.store.read c name pos = .ok (m.store.cell c).value := if_neg (by simp [locked])
        rw [read, bind_of_ok (p := liftM (Except.ok _)) (a := (m.store.cell c).value) (t := n) rfl]
        exact ⟨n, flatten_of_plain (by omega) (shallow c) n, counted⟩
    | _ =>
      simp only [Option.bind_some, value]
      exact .give counted _

theorem readIndex_comes (core : engine.OnCore) (counted : m.Counted n) (container index : Value)
    (pos : Position) :
    Comes m ((index.key?.bind fun k => k.sees container).bind (·.behind? m.store))
      (readIndex engine ev container index pos n) := by
  have quiet : n.store.Shallow := counted.store ▸ shallow
  cases sees : index.key?.bind fun k => k.sees container with
  | none =>
    refine .refuse counted ?_
    unfold readIndex
    split
    · exact (arrayIndex_refuses fuel quiet sees pos).bind _
    · exact (mapKey_refuses fuel quiet sees pos).bind _
    · exact (locateChar_refuses fuel quiet sees pos).bind _
    · have unserved := core.unserved (Package.overloads_of_dollar Package.dollar_mem_index.1)
      rcases tryMethod_nothing fuel quiet (fun types => unserved types true) _ [index] pos with
        nothing | refused
      · refine .bind_ok (Held.drop_of_ok (bind_of_ok nothing _)) ?_
        rcases typeOf_known fuel quiet container with ⟨t, known⟩ | refused
        · exact .bind_ok known (.fail _ pos n)
        · exact refused.bind _
      · exact (refused.bind _).drop.bind _
  | some part =>
    rw [Option.bind_some]
    obtain ⟨k, key, sees⟩ := Option.bind_eq_some_iff.mp sees
    cases Key.into_of_sees sees with
    | @item k items _ start there =>
      rw [Value.eq_of_key?_item key]
      simp only [readIndex]
      rw [bind_of_ok (arrayIndex_item ev start there pos n), there]
      exact flatten_comes fuel shallow counted part
    | char there =>
      rw [Value.eq_of_key?_item key]
      simp only [readIndex]
      rw [bind_of_ok (locateChar_char ev there pos n)]
      exact ⟨n, rfl, counted⟩
    | @entry name entries =>
      rw [Value.eq_of_key?_entry key]
      simp only [readIndex, mapKey]
      rw [bind_of_ok (p := pure name) (a := name) (t := n) rfl]
      cases found : Dict.find? name entries with
      | none => exact ⟨n, rfl, counted⟩
      | some v => exact flatten_comes fuel shallow counted v

theorem readProperty_comes (core : engine.OnCore) (counted : m.Counted n) (container : Value)
    (name : Text) (pos : Position) :
    Comes m (((Key.entry name).sees container).bind (·.behind? m.store))
      (readProperty engine ev container name pos n) := by
  have quiet : n.store.Shallow := counted.store ▸ shallow
  unfold readProperty
  split
  · next entries =>
    simp only [Key.sees]
    cases Dict.find? name entries with
    | none => exact ⟨n, rfl, counted⟩
    | some v => exact flatten_comes fuel shallow counted v
  · next other =>
    have nothing : (Key.entry name).sees container = none := by
      cases container with
      | map entries => exact absurd rfl (other entries)
      | _ => rfl
    rw [nothing]
    refine .refuse counted ?_
    have unserved := core.unserved (Package.overloads_of_dollar (Package.dollar_mem_getter name))
    rcases tryMethod_nothing fuel quiet (fun types => unserved types true) container [] pos with
      nothing | refused
    · refine .bind_ok (Held.drop_of_ok (bind_of_ok nothing _)) ?_
      exact notFound_refuses fuel quiet _ _ pos
    · exact (refused.bind _).drop.bind _

end

/-- With enough fuel an expression has this value, or fails with an error, whatever has been counted so
far; and evaluating it only counts operations. -/
def ComesTo (engine : Engine) (m : Machine) (e : Expr) (r : Option Value) : Prop :=
  Enough fun fuel => ∀ n, m.Counted n → Comes m r (evalAt engine fuel e n)

section
variable {engine : Engine} {m : Machine} (core : engine.OnCore) (unstopped : engine.Unstopped)
  (shallow : m.store.Shallow)
include unstopped shallow

theorem variable_comesTo (pos : Position) (name : Text) (path : List Text) :
    ComesTo engine m (.var pos name path)
      (m.start? (if path = [] then .variable name else .qualified path name)) := by
  refine Enough.succ ⟨2, fun fuel enough n counted => ?_⟩
  refine (tick_comes unstopped pos counted).bind fun o counted => ?_
  change Comes m _ (readVariable (evaluator engine fuel) pos name path o)
  cases path with
  | nil => exact readVariable_comes enough shallow counted pos name
  | cons first rest => exact readQualified_comes _ counted pos name first rest

theorem operand_comesTo {e : Expr} (operand : e.IsOperand) :
    ComesTo engine m e (e.operand? m) := by
  have literal (v : Value) (eval : ∀ fuel n, evalAt engine (fuel + 1) e n =
      (tick engine e.pos >>= fun _ => pure v) n) : ComesTo engine m e (some v) := by
    refine Enough.succ (.always fun fuel n counted => ?_)
    rw [eval]
    exact (tick_comes unstopped e.pos counted).bind fun o counted => .give counted v
  cases operand with
  | @var pos name path =>
    have known := variable_comesTo unstopped shallow pos name path
    cases path <;> exact known
  | _ => exact literal _ fun fuel n => rfl

include core in
theorem place_comesTo {e : Expr} (place : e.IsPlace) : ComesTo engine m e (e.look m) := by
  induction place with
  | @var pos name path =>
    have known := variable_comesTo unstopped shallow pos name path
    cases path <;> exact known
  | @this pos =>
    refine Enough.succ ⟨2, fun fuel enough n counted => ?_⟩
    refine (tick_comes unstopped pos counted).bind fun o counted => ?_
    exact this_comes enough shallow counted pos
  | @index pos object i _ operand ih =>
    rw [Expr.look_index]
    refine Enough.succ (((ih.and (operand_comesTo unstopped shallow operand)).and
      (⟨2, fun _ enough => enough⟩ : Enough fun fuel => 2 ≤ fuel)).imp fun fuel both n counted => ?_)
    obtain ⟨⟨evalObject, evalIndex⟩, enough⟩ := both
    refine (tick_comes unstopped pos counted).bind fun o counted => ?_
    have container := evalObject o counted
    cases held : object.look m with
    | none => exact (held ▸ container).bind_none
    | some v =>
      refine (held ▸ container).bind fun o counted => ?_
      have position := evalIndex o counted
      cases value : i.operand? m with
      | none => exact (value ▸ position).bind_none
      | some w =>
        exact (value ▸ position).bind fun o counted =>
          readIndex_comes enough shallow core counted v w pos
  | @property pos object name _ ih =>
    rw [Expr.look_property]
    refine Enough.succ ((ih.and (⟨2, fun _ enough => enough⟩ : Enough fun fuel => 2 ≤ fuel)).imp
      fun fuel both n counted => ?_)
    refine (tick_comes unstopped pos counted).bind fun o counted => ?_
    have container := both.1 o counted
    cases held : object.look m with
    | none => exact (held ▸ container).bind_none
    | some v =>
      exact (held ▸ container).bind fun o counted =>
        readProperty_comes both.2 shallow core counted v name pos

end

end Eval

end Scripting
