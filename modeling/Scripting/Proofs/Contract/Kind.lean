import Scripting.Eval.Import

/-
Kinds of values, and machines that hold nothing else. A kind looks through arrays, maps and the
arguments of function pointers; what an alias stands for is judged where it is stored, in its cell.
So a kind says two things of a value: that it is plain, or that it may be passed on as an alias.
What does not depend on function pointers is said of a stock, of which kinds are one sort.
-/
namespace Scripting

def Value.isLeaf : Value → Bool
  | .array _ | .map _ | .fn .. | .shared _ => false
  | _ => true

def Value.isAtom : Value → Bool
  | .string _ | .array _ | .map _ | .fn .. | .shared _ => false
  | _ => true

theorem Value.isLeaf_of_isAtom {v : Value} (h : v.isAtom = true) : v.isLeaf = true := by
  cases v <;> first | rfl | cases h

structure Stock where
  plain : Value → Prop
  code : ScriptFn → Prop
  leaf : ∀ v : Value, v.isLeaf = true → plain v
  array : ∀ items, plain (.array items) ↔ ∀ v ∈ items, plain v
  map : ∀ entries, plain (.map entries) ↔ ∀ e ∈ entries, plain e.2

structure Kind extends Stock where
  fn : ∀ name curry, plain (.fn name curry) ↔ ∀ v ∈ curry, v.isShared = true ∨ plain v
  codes : ∀ f, code f

instance : Coe Kind Stock := ⟨Kind.toStock⟩

def Kind.all : Kind where
  plain _ := True
  code _ := True
  leaf _ _ := trivial
  array _ := by simp
  map _ := by simp
  fn _ _ := by simp
  codes _ := trivial

namespace Stock

/-- An alias of anything, or a plain value. -/
def passes (K : Stock) (v : Value) : Prop := v.isShared = true ∨ K.plain v

theorem passes_of_plain {K : Stock} {v : Value} (h : K.plain v) : K.passes v := Or.inr h

theorem plain_of_passes {K : Stock} {v : Value} (h : K.passes v) (unshared : v.isShared = false) :
    K.plain v := by
  rcases h with shared | plain
  · rw [unshared] at shared
    cases shared
  · exact plain

variable (K : Stock)

theorem plain_unit : K.plain .unit := K.leaf _ rfl

theorem plain_bool (b : Bool) : K.plain (.bool b) := K.leaf _ rfl

theorem plain_string (t : Text) : K.plain (.string t) := K.leaf _ rfl

theorem plain_char (c : CodePoint) : K.plain (.char c) := K.leaf _ rfl

theorem plain_int (t : IntType) (n : Fixed t) : K.plain (.int t n) := K.leaf _ rfl

theorem plain_float (f : Float) : K.plain (.float f) := K.leaf _ rfl

theorem plain_set {items : List Value} (h : K.plain (.array items)) (i : Nat) {v : Value}
    (hv : K.plain v) : K.plain (.array (items.set i v)) := by
  rw [K.array] at h ⊢
  intro w hw
  rcases List.mem_or_eq_of_mem_set hw with old | rfl
  · exact h w old
  · exact hv

end Stock

namespace Dict

variable {κ : Type u} {α : Type v} [DecidableEq κ]

theorem mem_of_find? {key : κ} {a : α} {d : Dict κ α} (h : d.find? key = some a) :
    (key, a) ∈ d := by
  induction d with
  | nil => simp [find?] at h
  | cons entry rest ih =>
    obtain ⟨k, b⟩ := entry
    by_cases same : k = key
    · simp only [find?, same, if_true, Option.some.injEq] at h
      simp [same, h]
    · simp only [find?, same, if_false] at h
      exact List.mem_cons_of_mem _ (ih h)

theorem mem_insert [LT κ] [DecidableLT κ] {key : κ} {value : α} {d : Dict κ α} {e : κ × α}
    (h : e ∈ d.insert key value) : e = (key, value) ∨ e ∈ d := by
  induction d with
  | nil => simpa [insert] using h
  | cons entry rest ih =>
    obtain ⟨k, b⟩ := entry
    simp only [insert] at h
    split at h
    · rcases List.mem_cons.mp h with rfl | old
      · exact Or.inl rfl
      · exact Or.inr (List.mem_cons_of_mem _ old)
    · split at h
      · rcases List.mem_cons.mp h with rfl | old
        · exact Or.inl rfl
        · exact Or.inr old
      · rcases List.mem_cons.mp h with rfl | old
        · exact Or.inr List.mem_cons_self
        · rcases ih old with new | older
          · exact Or.inl new
          · exact Or.inr (List.mem_cons_of_mem _ older)

theorem mem_insert_of_ne [LT κ] [DecidableLT κ] {key : κ} (value : α) {d : Dict κ α} {e : κ × α}
    (h : e ∈ d) (other : e.1 ≠ key) : e ∈ d.insert key value := by
  induction d with
  | nil => cases h
  | cons entry rest ih =>
    obtain ⟨k, b⟩ := entry
    simp only [insert]
    split
    · next same =>
      rcases List.mem_cons.mp h with rfl | later
      · exact absurd same other
      · exact List.mem_cons_of_mem _ later
    · split
      · exact List.mem_cons_of_mem _ h
      · rcases List.mem_cons.mp h with rfl | later
        · exact List.mem_cons_self
        · exact List.mem_cons_of_mem _ (ih later)

theorem mem_of_mem_erase {key : κ} {d : Dict κ α} {e : κ × α} (h : e ∈ d.erase key) : e ∈ d := by
  induction d with
  | nil => simp [erase] at h
  | cons entry rest ih =>
    obtain ⟨k, b⟩ := entry
    simp only [erase] at h
    split at h
    · exact List.mem_cons_of_mem _ h
    · rcases List.mem_cons.mp h with rfl | old
      · exact List.mem_cons_self
      · exact List.mem_cons_of_mem _ (ih old)

theorem mem_merge [LT κ] [DecidableLT κ] {d e : Dict κ α} {x : κ × α} (h : x ∈ d.merge e) :
    x ∈ e ∨ x ∈ d := by
  induction e generalizing d with
  | nil => exact Or.inr h
  | cons entry rest ih =>
    rcases ih (d := d.insert entry.1 entry.2) h with later | earlier
    · exact Or.inl (List.mem_cons_of_mem _ later)
    · rcases mem_insert earlier with rfl | old
      · exact Or.inl List.mem_cons_self
      · exact Or.inr old

theorem mem_ofList [LT κ] [DecidableLT κ] {entries : List (κ × α)} {x : κ × α}
    (h : x ∈ ofList entries) : x ∈ entries := by
  rcases mem_merge h with mem | none
  · exact mem
  · cases none

theorem pairwise_insert [LT κ] [DecidableLT κ] (trans : ∀ {a b c : κ}, a < b → b < c → a < c)
    (total : ∀ {a b : κ}, a ≠ b → ¬ b < a → a < b) {d : Dict κ α}
    (h : d.Pairwise fun a b => a.1 < b.1) (key : κ) (v : α) :
    (Dict.insert key v d).Pairwise fun a b => a.1 < b.1 := by
  induction d with
  | nil => exact List.pairwise_singleton _ _
  | cons entry rest ih =>
    obtain ⟨k, w⟩ := entry
    obtain ⟨first, later⟩ := List.pairwise_cons.mp h
    unfold Dict.insert
    split
    · next same =>
      subst same
      exact List.pairwise_cons.mpr ⟨first, later⟩
    · next other =>
      split
      · next before =>
        refine List.pairwise_cons.mpr ⟨?_, h⟩
        exact List.forall_mem_cons.mpr ⟨before, fun e he => trans before (first e he)⟩
      · next after =>
        refine List.pairwise_cons.mpr ⟨?_, ih later⟩
        intro e he
        rcases mem_insert he with rfl | old
        · exact total other after
        · exact first e old

section Ordered

variable {κ α : Type} [DecidableEq κ] [LT κ]

omit [DecidableEq κ] in
def Ordered (d : Dict κ α) : Prop := d.Pairwise fun a b => a.1 < b.1

theorem Ordered.insert [DecidableLT κ]
    [Trans (· < · : κ → κ → Prop) (· < · : κ → κ → Prop) (· < · : κ → κ → Prop)]
    [Std.Trichotomous (· < · : κ → κ → Prop)] {d : Dict κ α} (h : Ordered d) (key : κ) (v : α) :
    Ordered (Dict.insert key v d) :=
  pairwise_insert Trans.trans
    (fun other after => Classical.byContradiction fun before =>
      other (Std.Trichotomous.trichotomous _ _ before after)) h key v

theorem Ordered.erase {d : Dict κ α} (h : Ordered d) (key : κ) : Ordered (Dict.erase key d) := by
  induction d with
  | nil => exact h
  | cons entry rest ih =>
    obtain ⟨k, w⟩ := entry
    obtain ⟨first, later⟩ := List.pairwise_cons.mp h
    unfold Dict.erase
    split
    · exact later
    · exact List.pairwise_cons.mpr ⟨fun e he => first e (mem_of_mem_erase he), ih later⟩

theorem Ordered.find?_erase [Std.Irrefl (· < · : κ → κ → Prop)] {d : Dict κ α} (h : Ordered d) (key : κ) :
    find? key (Dict.erase key d) = none := by
  induction d with
  | nil => rfl
  | cons entry rest ih =>
    obtain ⟨k, w⟩ := entry
    obtain ⟨first, later⟩ := List.pairwise_cons.mp h
    by_cases same : k = key
    · subst same
      simp only [Dict.erase, if_true]
      cases found : find? k rest with
      | none => rfl
      | some v => exact absurd (first _ (mem_of_find? found)) (Std.Irrefl.irrefl k)
    · simp only [Dict.erase, if_neg same, find?]
      exact ih later

end Ordered

end Dict

namespace Stock

variable (K : Stock)

theorem plain_entry {entries : List (Text × Value)} (h : K.plain (.map entries)) {key : Text}
    {v : Value} (found : Dict.find? key entries = some v) : K.plain v :=
  (K.map entries).mp h _ (Dict.mem_of_find? found)

theorem plain_insert {entries : List (Text × Value)} (h : K.plain (.map entries)) (key : Text)
    {v : Value} (hv : K.plain v) : K.plain (.map (Dict.insert key v entries)) := by
  rw [K.map] at h ⊢
  intro e he
  rcases Dict.mem_insert he with rfl | old
  · exact hv
  · exact h e old

end Stock

/-- A function that gives back nothing but plain values of its own, or one of a script that may be
called. -/
structure Function.Fair (K : Stock) (f : Function) : Prop where
  native : ∀ tag, f.body = .native (.tagged tag) → K.plain tag
  script : ∀ g, f.body = .script g → K.code g

/-- A module whose values, functions and sub-modules are of a stock. -/
inductive Module.Fair (K : Stock) : Module → Prop where
  | intro {m : Module} (functions : ∀ f ∈ m.functions, f.2.Fair K)
      (values : ∀ e ∈ m.values, K.plain e.2) (modules : ∀ e ∈ m.modules, Module.Fair K e.2) :
      Module.Fair K m

namespace Module

variable {K : Stock} {m : Module}

theorem Fair.functions (h : m.Fair K) : ∀ f ∈ m.functions, f.2.Fair K := by
  cases h with
  | intro functions values modules => exact functions

theorem Fair.values (h : m.Fair K) : ∀ e ∈ m.values, K.plain e.2 := by
  cases h with
  | intro functions values modules => exact values

theorem Fair.modules (h : m.Fair K) : ∀ e ∈ m.modules, e.2.Fair K := by
  cases h with
  | intro functions values modules => exact modules

theorem Fair.module? (h : m.Fair K) {name : Text} {sub : Module} (found : m.module? name = some sub) :
    sub.Fair K :=
  h.modules _ (Dict.mem_of_find? found)

theorem Fair.value? (h : m.Fair K) {name : Text} {v : Value} (found : m.value? name = some v) :
    K.plain v :=
  h.values _ (Dict.mem_of_find? found)

theorem withTypes?_mem {name : Text} {types : List ValueType} {f : Overload}
    (found : m.withTypes? name types = some f) : f ∈ m.functions := by
  obtain ⟨g, hg, rfl⟩ := Option.map_eq_some_iff.mp found
  exact Dict.mem_of_find? hg

theorem promoted?_mem {name : Text} {types : List ValueType} {method exposedOnly : Bool}
    {f : Overload} {cost : Nat} (found : m.promoted? name types method exposedOnly = some (f, cost)) :
    f ∈ m.functions := by
  unfold promoted? at found
  refine List.foldlRecOn (motive := fun best => ∀ g c, best = some (g, c) → g ∈ m.functions)
    (m.overloads name) _ (by simp) ?_ f cost found
  -- Each candidate is a function of the module, and so is the best one before it.
  intro best hbest g hg x c chosen
  have own : g ∈ m.functions := (List.mem_filter.mp hg).1
  unfold cheaper at chosen
  grind

theorem Fair.scriptFn? (h : m.Fair K) {name : Text} {arity : Nat} {exposedOnly : Bool} {f : ScriptFn}
    (found : m.scriptFn? name arity exposedOnly = some f) : K.code f := by
  unfold Module.scriptFn? at found
  obtain ⟨g, hg, chosen⟩ := Option.bind_eq_some_iff.mp found
  split at chosen
  · cases chosen
  · unfold Function.script? at chosen
    cases body : g.body with
    | native n =>
      rw [body] at chosen
      cases chosen
    | script s =>
      rw [body] at chosen
      cases chosen
      exact (h.functions _ (Dict.mem_of_find? hg)).script f body

theorem fair_ofCode {functions : Dict FnKey ScriptFn} (h : ∀ f ∈ functions, K.code f.2) :
    (ofFunctions functions).Fair K := by
  refine .intro ?_ (by simp [ofFunctions]) (by simp [ofFunctions])
  intro f hf
  obtain ⟨⟨key, g⟩, mem, rfl⟩ := List.mem_map.mp hf
  refine ⟨?_, ?_⟩
  · intro tag body
    cases body
  · intro g' body
    cases body
    exact h _ mem

theorem fair_ofFunctions (K : Kind) (functions : Dict FnKey ScriptFn) :
    (ofFunctions functions).Fair K :=
  fair_ofCode fun f _ => K.codes f.2

theorem fair_all : ∀ m : Module, m.Fair Kind.all
  | ⟨functions, values, modules⟩ =>
    .intro (fun _ _ => ⟨fun _ _ => trivial, fun _ _ => trivial⟩) (fun _ _ => trivial)
      (fun e _ => fair_all e.2)
termination_by m => sizeOf m
decreasing_by
  have small := List.sizeOf_lt_of_mem ‹e ∈ _›
  obtain ⟨name, sub⟩ := e
  simp at small ⊢
  omega

end Module

end Scripting
