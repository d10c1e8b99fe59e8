import Mathlib.Data.List.Sort
import Scripting.Proofs.Selection

/-
Putting modules together. A table that is kept in the order of its keys is settled by what is found in
it, and a merged table finds what the second one has, or else what the first one has. So it plays no
part how modules are grouped when they are combined, and, where they share nothing, in which order.
-/
namespace Scripting

instance Signature.strictTotalOrder : IsStrictTotalOrder Signature (· < ·) where
  trichotomous _ _ before after := by_contra fun differ => before (Signature.before_of_ne differ after)
  irrefl := Signature.not_before_self
  trans _ _ _ := Signature.before_trans

instance Text.strictTotalOrder : IsStrictTotalOrder Text (· < ·) where
  trichotomous _ _ before after := by_contra fun differ => before (Std.lt_of_le_of_ne after differ)
  irrefl := List.lt_irrefl
  trans _ _ _ := List.lt_trans

namespace Dict

section

variable {κ : Type u} {α : Type v} [DecidableEq κ] [LT κ] [IsStrictTotalOrder κ (· < ·)]
  {d e f : Dict κ α}

theorem find?_eq_some_iff (hd : d.Pairwise fun a b => a.1 < b.1) {key : κ} {a : α} :
    d.find? key = some a ↔ (key, a) ∈ d := by
  refine ⟨mem_of_find?, fun mem => ?_⟩
  induction d with
  | nil => cases mem
  | cons entry rest ih =>
    obtain ⟨first, later⟩ := List.pairwise_cons.mp hd
    rcases List.mem_cons.mp mem with rfl | mem
    · simp [find?]
    · have differ : entry.1 ≠ key := fun same => irrefl key (same ▸ first _ mem)
      simpa [find?, differ] using ih later mem

theorem eq_of_find? (hd : d.Pairwise fun a b => a.1 < b.1) (he : e.Pairwise fun a b => a.1 < b.1)
    (same : ∀ key, d.find? key = e.find? key) : d = e := by
  have irrefl : Std.Irrefl fun a b : κ × α => a.1 < b.1 := ⟨fun a => irrefl a.1⟩
  have antisymm : Std.Antisymm fun a b : κ × α => a.1 < b.1 :=
    ⟨fun _ _ before after => absurd after (asymm before)⟩
  refine List.Pairwise.eq_of_mem_iff hd he fun entry => ?_
  rw [← find?_eq_some_iff hd, ← find?_eq_some_iff he, same]

variable [DecidableLT κ]

theorem pairwise_merge (hd : d.Pairwise fun a b => a.1 < b.1) (e : Dict κ α) :
    (d.merge e).Pairwise fun a b => a.1 < b.1 := by
  induction e generalizing d with
  | nil => exact hd
  | cons entry rest ih =>
    refine ih (pairwise_insert (IsTrans.trans _ _ _) ?_ hd _ _)
    intro a b differ after
    exact by_contra fun before => differ (Std.Trichotomous.trichotomous a b before after)

theorem find?_merge (d : Dict κ α) (he : e.Pairwise fun a b => a.1 < b.1) (key : κ) :
    (d.merge e).find? key = (e.find? key).or (d.find? key) := by
  induction e generalizing d with
  | nil => rfl
  | cons entry rest ih =>
    obtain ⟨k, v⟩ := entry
    obtain ⟨first, later⟩ := List.pairwise_cons.mp he
    change ((d.insert k v).merge rest).find? key = _
    rw [ih (d.insert k v) later]
    by_cases same : k = key
    · subst same
      have once : find? k rest = none := by
        by_contra found
        obtain ⟨w, found⟩ := Option.ne_none_iff_exists'.mp found
        exact irrefl k (first _ (mem_of_find? found))
      rw [once, find?_insert_self]
      simp [find?]
    · rw [find?_insert_of_ne (Ne.symm same)]
      simp [find?, same]

theorem merge_assoc (hd : d.Pairwise fun a b => a.1 < b.1) (he : e.Pairwise fun a b => a.1 < b.1)
    (hf : f.Pairwise fun a b => a.1 < b.1) : (d.merge e).merge f = d.merge (e.merge f) := by
  refine eq_of_find? (pairwise_merge (pairwise_merge hd e) f) (pairwise_merge hd _) fun key => ?_
  rw [find?_merge _ hf, find?_merge _ he, find?_merge _ (pairwise_merge he f), find?_merge _ hf,
    Option.or_assoc]

theorem merge_comm (hd : d.Pairwise fun a b => a.1 < b.1) (he : e.Pairwise fun a b => a.1 < b.1)
    (apart : d.keys.Disjoint e.keys) : d.merge e = e.merge d := by
  refine eq_of_find? (pairwise_merge hd e) (pairwise_merge he d) fun key => ?_
  rw [find?_merge d he, find?_merge e hd]
  cases own : d.find? key with
  | none => cases e.find? key <;> rfl
  | some v =>
    cases other : e.find? key with
    | none => rfl
    | some w =>
      have here : key ∈ d.keys := List.mem_map_of_mem (mem_of_find? own)
      exact absurd (List.mem_map_of_mem (mem_of_find? other)) (apart here)

end

end Dict

namespace Module

/-- The tables of a module stand in the order of their keys, and no key comes twice. -/
structure InOrder (m : Module) : Prop where
  functions : m.Sorted
  values : Dict.Ordered m.values
  modules : Dict.Ordered m.modules

/-- Modules that share no signature and no name of a variable or a sub-module. -/
structure Apart (m n : Module) : Prop where
  functions : m.functions.keys.Disjoint n.functions.keys
  values : m.values.keys.Disjoint n.values.keys
  modules : (Dict.keys m.modules).Disjoint (Dict.keys n.modules)

variable {m n : Module}

theorem inOrder_empty : InOrder {} := ⟨.nil, .nil, .nil⟩

namespace InOrder

theorem setNative (h : m.InOrder) (name : Text) (params : List ValueType) (f : Native)
    (access : Access) : (m.setNative name params f access).InOrder :=
  ⟨sorted_setFn h.functions _ _ _, h.values, h.modules⟩

theorem setVariable (h : m.InOrder) (name : Text) (v : Value) : (m.setVariable name v).InOrder :=
  ⟨h.functions, h.values.insert name v, h.modules⟩

theorem setModule (h : m.InOrder) (name : Text) (sub : Module) : (m.setModule name sub).InOrder :=
  ⟨h.functions, h.values, h.modules.insert name sub⟩

theorem combine (h : m.InOrder) (n : Module) : (m.combine n).InOrder :=
  ⟨Dict.pairwise_merge h.functions _, Dict.pairwise_merge h.values _,
    Dict.pairwise_merge h.modules _⟩

mutual

theorem absorb {m : Module} (h : m.InOrder) (n : Module) : (m.absorb n).InOrder := by
  match n with
  | ⟨functions, values, modules⟩ =>
    rw [Module.absorb]
    have dissolved := absorbAll h modules
    exact ⟨Dict.pairwise_merge dissolved.functions _, Dict.pairwise_merge dissolved.values _,
      dissolved.modules⟩

theorem absorbAll {m : Module} (h : m.InOrder) (modules : List (Text × Module)) :
    (m.absorbAll modules).InOrder := by
  match modules with
  | [] => exact h
  | (_, sub) :: rest =>
    rw [Module.absorbAll]
    exact absorbAll (absorb h sub) rest

end

end InOrder

/-- Script functions are put in the order of their names and then of their numbers of parameters, and
so are their signatures. -/
theorem inOrder_ofFunctions {functions : Dict FnKey ScriptFn}
    (h : functions.Pairwise fun a b => a.1 < b.1) : (ofFunctions functions).InOrder := by
  refine ⟨List.pairwise_map.mpr (h.imp ?_), .nil, .nil⟩
  rintro a b (before | ⟨same, fewer⟩)
  · exact .inl before
  · exact .inr ⟨same, .inl (by simpa [Signature.ofScript] using fewer)⟩

theorem eq_of_tables (functions : m.functions = n.functions) (values : m.values = n.values)
    (modules : m.modules = n.modules) : m = n := by
  cases m
  cases n
  cases functions
  cases values
  cases modules
  rfl

theorem resolve?_congr (functions : m.functions = n.functions) (name : Text)
    (types : List ValueType) (method : Bool) :
    m.resolve? name types method = n.resolve? name types method := by
  unfold resolve? withTypes? fn? promoted? overloads
  rw [functions]

/-- Combined modules are one module that has everything of both, where the second wins: they may be
grouped in any way, and what is looked up is found in the second or else in the first. Modules that
share nothing may also come in any order, and calls are resolved in the same way in either order as soon
as no signature is shared. -/
theorem combining_overrides {a b c : Module} (ha : a.InOrder) (hb : b.InOrder) (hc : c.InOrder) :
    (a.combine b).combine c = a.combine (b.combine c) ∧
    (∀ signature, (a.combine b).fn? signature = (b.fn? signature).or (a.fn? signature)) ∧
    (∀ name, (a.combine b).value? name = (b.value? name).or (a.value? name)) ∧
    (∀ name, (a.combine b).module? name = (b.module? name).or (a.module? name)) ∧
    (a.Apart b → a.combine b = b.combine a) ∧
    (a.functions.keys.Disjoint b.functions.keys → ∀ name types method,
      (a.combine b).resolve? name types method = (b.combine a).resolve? name types method) := by
  refine ⟨?_, ?_, ?_, ?_, ?_, ?_⟩
  · exact eq_of_tables (Dict.merge_assoc ha.functions hb.functions hc.functions)
      (Dict.merge_assoc ha.values hb.values hc.values)
      (Dict.merge_assoc ha.modules hb.modules hc.modules)
  · exact Dict.find?_merge a.functions hb.functions
  · exact Dict.find?_merge a.values hb.values
  · exact Dict.find?_merge a.modules hb.modules
  · intro apart
    exact eq_of_tables (Dict.merge_comm ha.functions hb.functions apart.functions)
      (Dict.merge_comm ha.values hb.values apart.values)
      (Dict.merge_comm ha.modules hb.modules apart.modules)
  · intro apart
    exact resolve?_congr (Dict.merge_comm ha.functions hb.functions apart)

def tiedLeft : Module :=
  (Module.setNative {} (Text.lit "f") [.any, .i64] (.tagged .unit) .exposed).setVariable
    (Text.lit "x") .unit

def tiedRight : Module :=
  (Module.setNative {} (Text.lit "f") [.i64, .any] (.tagged .unit) .exposed).setVariable
    (Text.lit "y") .unit

theorem combining_overrides_tied : tiedLeft.InOrder ∧ tiedRight.InOrder ∧ tiedLeft.Apart tiedRight ∧
    tiedLeft.combine tiedRight = tiedRight.combine tiedLeft ∧
    ((tiedRight.combine tiedLeft).resolve? (Text.lit "f") [.i64, .i64] false).map (·.1.params) =
      some [.any, .i64] ∧
    (tiedLeft.combine tiedRight).combine tiedLeft = tiedLeft.combine (tiedRight.combine tiedLeft) := by
  have left : tiedLeft.InOrder := (inOrder_empty.setNative _ _ _ _).setVariable _ _
  have right : tiedRight.InOrder := (inOrder_empty.setNative _ _ _ _).setVariable _ _
  have apart : tiedLeft.Apart tiedRight :=
    ⟨List.disjoint_singleton.mpr (by decide), List.disjoint_singleton.mpr (by decide),
      List.disjoint_nil_left _⟩
  obtain ⟨grouped, -, -, -, either, -⟩ := combining_overrides left right left
  refine ⟨left, right, apart, either apart, ?_, grouped⟩
  decide +kernel

end Module

end Scripting
