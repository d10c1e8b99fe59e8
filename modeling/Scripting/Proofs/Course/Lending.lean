import Scripting.Proofs.Course.Act
import Scripting.Proofs.Pointers

/-
Who captures. A compiled script makes pointers that carry aliases only in its closures, and these go
by names of their own; if no native function goes by such a name, natives never come by an alias.
-/
namespace Scripting

def Code.mentions : Code → List Mention
  | .expr e => e.mentions
  | .stmt s => s.mentions

section Literals

variable {pos : Position} {name : Text} {captured : List Text}

theorem Expr.mem_mentionsAll {m : Mention} {e : Expr} {es : List Expr} (there : e ∈ es)
    (h : m ∈ e.mentions) : m ∈ Expr.mentionsAll es := by
  induction es with
  | nil => cases there
  | cons first rest ih =>
    rcases List.mem_cons.mp there with rfl | later
    · exact List.mem_append_left _ h
    · exact List.mem_append_right _ (ih later)

theorem Expr.mem_mentionsEntries {m : Mention} {e : Text × Expr} {es : List (Text × Expr)}
    (there : e ∈ es) (h : m ∈ e.2.mentions) : m ∈ Expr.mentionsEntries es := by
  induction es with
  | nil => cases there
  | cons first rest ih =>
    rcases List.mem_cons.mp there with rfl | later
    · obtain ⟨key, e⟩ := e
      exact List.mem_append_left _ h
    · exact List.mem_append_right _ (ih later)

theorem Stmt.mem_mentionsAll {m : Mention} {s : Stmt} {ss : List Stmt} (there : s ∈ ss)
    (h : m ∈ s.mentions) : m ∈ Stmt.mentionsAll ss := by
  induction ss with
  | nil => cases there
  | cons first rest ih =>
    rcases List.mem_cons.mp there with rfl | later
    · exact List.mem_append_left _ h
    · exact List.mem_append_right _ (ih later)

theorem Code.mem_mentions_option {m : Mention} {e : Option Expr} {p : Code}
    (there : p ∈ e.toList.map Code.expr) (h : m ∈ p.mentions) : m ∈ Expr.mentionsOption e := by
  cases e with
  | none => cases there
  | some e =>
    cases List.mem_singleton.mp there
    exact h

theorem Code.mem_mentions_all {m : Mention} {es : List Expr} {p : Code}
    (there : p ∈ es.map Code.expr) (h : m ∈ p.mentions) : m ∈ Expr.mentionsAll es := by
  obtain ⟨e, mem, rfl⟩ := List.mem_map.mp there
  exact Expr.mem_mentionsAll mem h

theorem Code.closure_of_part {c p : Code} (part : p ∈ c.parts ∨ p ∈ c.turns)
    (h : .closure pos name captured ∈ p.mentions) : .closure pos name captured ∈ c.mentions := by
  cases c with
  | expr e =>
    have part : p ∈ (Code.expr e).parts := part.resolve_right (by simp [Code.turns])
    cases e with
    | array _ items => exact mem_mentions_all part h
    | map _ entries =>
      obtain ⟨e, mem, rfl⟩ := List.mem_map.mp part
      exact Expr.mem_mentionsEntries mem h
    | call _ _ _ args _ => exact mem_mentions_all part h
    | method _ object _ args =>
      rcases List.mem_cons.mp part with rfl | arg
      · exact List.mem_append_left _ h
      · exact List.mem_append_right _ (mem_mentions_all arg h)
    | property _ object _ =>
      cases List.mem_singleton.mp part
      exact h
    | index _ first second | logical _ _ first second | member _ first second =>
      rcases List.mem_cons.mp part with rfl | last
      · exact List.mem_append_left _ h
      · cases List.mem_singleton.mp last
        exact List.mem_append_right _ h
    | block _ body =>
      obtain ⟨s, mem, rfl⟩ := List.mem_map.mp part
      exact Mention.closure_mem_enclose (Stmt.mem_mentionsAll mem h)
    | branch _ condition yes no =>
      rcases List.mem_cons.mp part with rfl | later
      · exact List.mem_append_left _ h
      · rcases List.mem_cons.mp later with rfl | last
        · exact List.mem_append_right _ (List.mem_append_left _ h)
        · exact List.mem_append_right _ (List.mem_append_right _ (mem_mentions_option last h))
    | _ => cases part
  | stmt s =>
    cases s with
    | declare _ _ x value =>
      exact List.mem_append_left _ (mem_mentions_option (part.resolve_right (by simp [Code.turns])) h)
    | assign _ _ target value =>
      rcases List.mem_cons.mp (part.resolve_right (by simp [Code.turns])) with rfl | last
      · exact List.mem_append_left _ h
      · cases List.mem_singleton.mp last
        exact List.mem_append_right _ h
    | loop _ condition body =>
      rcases part with first | body
      · exact List.mem_append_left _ (mem_mentions_option first h)
      · cases List.mem_singleton.mp body
        exact List.mem_append_right _ h
    | each _ x items body =>
      rcases part with first | body
      · cases List.mem_singleton.mp first
        exact List.mem_append_left _ h
      · cases List.mem_singleton.mp body
        exact List.mem_append_right _ (Mention.closure_mem_enclose h)
    | returnValue _ value | throwValue _ value =>
      exact mem_mentions_option (part.resolve_right (by simp [Code.turns])) h
    | expr _ e | importModule _ e _ =>
      cases List.mem_singleton.mp (part.resolve_right (by simp [Code.turns]))
      exact h
    | _ => rcases part with none | none <;> cases none

theorem Code.obeys_closures {rule : Rule} {allowed : Text → List Text → Prop}
    (closures : ∀ looping c, (∀ pos name captured, c = .expr (.closure pos name captured) →
      allowed name captured) → rule looping c) {looping : Bool} {c : Code}
    (named : ∀ pos name captured, .closure pos name captured ∈ c.mentions → allowed name captured) :
    Obeys rule looping c := by
  have any : Obeys (fun _ _ => True) looping c := by
    cases c with
    | expr e => exact e.obeys (fun _ _ => trivial) looping
    | stmt s => exact s.obeys (fun _ _ => trivial) looping
  induction any with
  | @intro looping c here parts turns inParts inTurns =>
    refine .intro ?_ ?_ ?_
    · refine closures looping c fun pos name captured eq => named pos name captured ?_
      subst eq
      exact List.mem_cons_self
    · exact fun p hp => inParts p hp fun pos name captured there =>
        named pos name captured (closure_of_part (Or.inl hp) there)
    · exact fun p hp => inTurns p hp fun pos name captured there =>
        named pos name captured (closure_of_part (Or.inr hp) there)

theorem Script.obeys_closures {rule : Rule} {allowed : Text → List Text → Prop}
    (closures : ∀ looping c, (∀ pos name captured, c = .expr (.closure pos name captured) →
      allowed name captured) → rule looping c) {script : Script}
    (named : ∀ pos name captured, .closure pos name captured ∈ script.mentions →
      allowed name captured) : script.Obeys rule := by
  constructor
  · intro s hs
    refine Code.obeys_closures closures fun pos name captured there => named pos name captured ?_
    exact List.mem_append_left _ (Stmt.mem_mentionsAll hs there)
  · intro f hf s hs
    refine Code.obeys_closures closures fun pos name captured there => named pos name captured ?_
    exact List.mem_append_right _ (List.mem_flatMap.mpr ⟨f, hf, Stmt.mem_mentionsAll hs there⟩)

end Literals

/-- A script that was compiled captures only in closures, and these have names of their own. -/
theorem Engine.compiled_lending {engine : Engine} {asExpression : Bool} {pieces : List Text}
    {first next : Nat} {script : Script}
    (compiled : engine.compile asExpression pieces first = (.ok script, next)) {lends : Text → Prop}
    (lent : ∀ id, lends (closureName id)) : script.Obeys (Rule.lending lends) := by
  have named : ∀ pos name captured, .closure pos name captured ∈ script.mentions → lends name := by
    intro pos name captured literal
    obtain ⟨id, -, -, -, -, rfl, -⟩ := Engine.compiled_closure compiled literal
    exact lent id
  refine Script.obeys_closures (fun looping c allowed => ?_) named
  unfold Rule.lending
  split
  · next pos name captured => exact Or.inr (allowed pos name captured rfl)
  · trivial

/-- A value that is no alias and holds none, but among the arguments of pointers whose name lends. -/
inductive Value.Lent (lends : Text → Prop) : Value → Prop where
  | leaf {v : Value} (h : v.isLeaf = true) : Lent lends v
  | array {items : List Value} (h : ∀ v ∈ items, Lent lends v) : Lent lends (.array items)
  | map {entries : List (Text × Value)} (h : ∀ e ∈ entries, Lent lends e.2) : Lent lends (.map entries)
  | fn {name : Text} {curry : List Value} (own : ∀ v ∈ curry, v.isShared = false → Lent lends v)
      (shared : ∀ v ∈ curry, v.isShared = true → lends name) : Lent lends (.fn name curry)

namespace Value.Lent

variable {lends : Text → Prop}

theorem proper {v : Value} (h : v.Lent lends) : v.Proper := by
  induction h with
  | leaf h => exact .leaf h
  | array _ ih => exact .array ih
  | map _ ih => exact .map ih
  | fn _ _ ih => exact .fn ih

theorem array_iff (items : List Value) : Lent lends (.array items) ↔ ∀ v ∈ items, Lent lends v := by
  constructor
  · intro h
    cases h with
    | leaf h => cases h
    | array h => exact h
  · exact .array

theorem map_iff (entries : List (Text × Value)) :
    Lent lends (.map entries) ↔ ∀ e ∈ entries, Lent lends e.2 := by
  constructor
  · intro h
    cases h with
    | leaf h => cases h
    | map h => exact h
  · exact .map

theorem fn_iff (name : Text) (curry : List Value) :
    Lent lends (.fn name curry) ↔ ∀ v ∈ curry, Lent lends v ∨ v.isShared = true ∧ lends name := by
  constructor
  · intro h
    cases h with
    | leaf h => cases h
    | fn own lent =>
      intro v hv
      cases shared : v.isShared with
      | true => exact Or.inr ⟨rfl, lent v hv shared⟩
      | false => exact Or.inl (own v hv shared)
  · intro h
    refine .fn (fun v hv unshared => ?_) fun v hv shared => ?_
    · rcases h v hv with own | ⟨shared, -⟩
      · exact own
      · rw [unshared] at shared
        cases shared
    · rcases h v hv with own | ⟨-, lent⟩
      · rw [own.proper.unshared] at shared
        cases shared
      · exact lent

end Value.Lent

namespace Engine

variable (engine : Engine)

def Unnamed (name : Text) : Prop := ∀ types method, engine.native? name types method = none

/-- The custody in which pointers carry aliases only if no native function goes by their name. -/
def lending : Custody where
  plain := Value.Lent engine.Unnamed
  code f := f.Obeys (Rule.lending engine.Unnamed)
  leaf _ h := .leaf h
  array := Value.Lent.array_iff
  map := Value.Lent.map_iff
  lends := engine.Unnamed
  fn := Value.Lent.fn_iff
  lending _ := Iff.rfl

def SparesClosures : Prop := ∀ id, engine.Unnamed (closureName id)

end Engine

end Scripting
