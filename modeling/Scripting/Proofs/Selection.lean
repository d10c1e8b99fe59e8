import Scripting.Proofs.Overloads

/-
Which native function a call gets. Modules are searched in order, and the functions of a module stand
in the order of their signatures, so that ties are decided by where a function stands.
-/
namespace Scripting

namespace ValueType

def inOrder : List ValueType :=
  [.point, .sealed, .char, .string, .unit, .fn, .any, .map, .array, .int .i8, .bool, .float, .float32,
    .int .u8, .int .i32, .int .u32, .int .i64, .int .u64, .int .i16, .int .u16]

theorem inOrder_rank (t : ValueType) : inOrder[t.rank]? = some t := by
  cases t with
  | int t => cases t <;> rfl
  | _ => rfl

theorem rank_injective : Function.Injective rank := by
  intro a b same
  have there := inOrder_rank a
  rw [same, inOrder_rank b] at there
  exact (Option.some.inj there).symm

end ValueType

namespace Signature

theorem before_trans {a b c : Signature} (ab : a < b) (bc : b < c) : a < c := by
  rcases ab with name | ⟨name, rest⟩
  · rcases bc with later | ⟨same, -⟩
    · exact .inl (List.lt_trans name later)
    · exact .inl (same ▸ name)
  · rcases bc with later | ⟨same, more⟩
    · exact .inl (name ▸ later)
    · refine .inr ⟨name.trans same, ?_⟩
      rcases rest with shorter | ⟨length, params⟩
      · rcases more with still | ⟨length, -⟩
        · exact .inl (Nat.lt_trans shorter still)
        · exact .inl (length ▸ shorter)
      · rcases more with still | ⟨length', params'⟩
        · exact .inl (length ▸ still)
        · exact .inr ⟨length.trans length', List.lt_trans params params'⟩

theorem not_before_self (a : Signature) : ¬ a < a := by
  rintro (name | ⟨-, shorter | ⟨-, params⟩⟩)
  · exact List.lt_irrefl _ name
  · exact Nat.lt_irrefl _ shorter
  · exact List.lt_irrefl _ params

theorem before_of_ne {a b : Signature} (differ : a ≠ b) (after : ¬ b < a) : a < b := by
  by_cases name : a.name = b.name
  · refine .inr ⟨name, ?_⟩
    by_cases length : a.params.length = b.params.length
    · refine .inr ⟨length, Std.lt_of_le_of_ne ?_ ?_⟩
      · exact Std.not_lt.mp fun params => after (.inr ⟨name.symm, .inr ⟨length.symm, params⟩⟩)
      · intro params
        have same : a.params = b.params :=
          (List.map_inj_right fun _ _ => (ValueType.rank_injective ·)).mp params
        exact differ (by cases a; cases b; simp_all)
    · refine .inl (Nat.lt_of_le_of_ne (Nat.le_of_not_lt fun shorter => ?_) length)
      exact after (.inr ⟨name.symm, .inl shorter⟩)
  · exact .inl (Std.lt_of_le_of_ne (fun before => after (.inl before)) name)

end Signature

namespace Module

def Sorted (m : Module) : Prop := m.functions.Pairwise fun a b => a.1 < b.1

theorem sorted_setFn {m : Module} (h : m.Sorted) (name : Text) (params : List ValueType)
    (f : Function) : (m.setFn name params f).Sorted :=
  Dict.pairwise_insert Signature.before_trans Signature.before_of_ne h _ _

theorem Sorted.find?_of_mem {m : Module} (h : m.Sorted) {s : Signature} {f : Function}
    (own : (s, f) ∈ m.functions) : m.fn? s = some f := by
  unfold Sorted at h
  unfold fn?
  generalize m.functions = d at h own ⊢
  induction d with
  | nil => cases own
  | cons entry rest ih =>
    obtain ⟨k, g⟩ := entry
    obtain ⟨first, later⟩ := List.pairwise_cons.mp h
    rcases List.mem_cons.mp own with same | own
    · cases same
      simp [Dict.find?]
    · have differ : k ≠ s := by
        rintro rfl
        exact Signature.not_before_self k (first _ own)
      rw [Dict.find?, if_neg differ]
      exact ih later own

/-- Every parameter of another type than its argument takes everything, or takes the integer as a
float; the receiver of a method is not converted. -/
def Viable (method : Bool) (params types : List ValueType) : Prop :=
  params.length = types.length ∧ ∀ (i : Nat) p a, params[i]? = some p → types[i]? = some a → p ≠ a →
    p = .any ∨ (p = .float ∧ a = .i64 ∧ ¬ (method = true ∧ i = 0))

/-- What a position adds: nothing for the same type, two for a parameter that takes everything, one
for a conversion. -/
def positionCost (param arg : ValueType) : Nat :=
  if param = arg then 0 else if param = .any then 2 else 1

def totalCost : List ValueType → List ValueType → Nat
  | p :: ps, a :: as => positionCost p a + totalCost ps as
  | _, _ => 0

theorem viable_cons {method : Bool} {p a : ValueType} {ps as : List ValueType} :
    Viable method (p :: ps) (a :: as) ↔
      (p ≠ a → p = .any ∨ (p = .float ∧ a = .i64 ∧ method = false)) ∧ Viable false ps as := by
  constructor
  · rintro ⟨length, fits⟩
    refine ⟨fun differ => ?_, Nat.succ_inj.mp length, fun i q b hq hb differ => ?_⟩
    · simpa using fits 0 p a rfl rfl differ
    · simpa using fits (i + 1) q b hq hb differ
  · rintro ⟨first, length, later⟩
    refine ⟨congrArg Nat.succ length, fun i q b hq hb differ => ?_⟩
    cases i with
    | zero =>
      cases hq
      cases hb
      simpa using first differ
    | succ i => simpa using later i q b hq hb differ

theorem argumentCost_eq_some_iff {fixed : Bool} {p a : ValueType} {cost : Nat} :
    argumentCost fixed p a = some cost ↔
      (p ≠ a → p = .any ∨ (p = .float ∧ a = .i64 ∧ fixed = false)) ∧ cost = positionCost p a := by
  unfold argumentCost positionCost
  by_cases same : p = a
  · simp [same, eq_comm]
  · by_cases all : p = .any
    · simp only [if_neg same, if_pos all, Option.some.injEq]
      simp [all, eq_comm]
    · by_cases converts : p = .float ∧ a = .i64 ∧ fixed = false
      · simp [converts, eq_comm]
      · have stays : ¬ (p = .float ∧ a = .i64 ∧ (!fixed) = true) := by simpa using converts
        simp only [if_neg same, if_neg all, if_neg stays]
        simp [same, all, converts]

theorem callCost_eq_some_iff {method : Bool} {params types : List ValueType} {cost : Nat} :
    callCost method params types = some cost ↔
      Viable method params types ∧ cost = totalCost params types := by
  induction params generalizing method types cost with
  | nil =>
    cases types with
    | nil => simp [callCost, Viable, totalCost, eq_comm]
    | cons a as => simp [callCost, Viable]
  | cons p ps ih =>
    cases types with
    | nil => simp [callCost, Viable]
    | cons a as =>
      rw [viable_cons, totalCost]
      constructor
      · intro h
        simp only [callCost, Option.bind_eq_bind, Option.bind_eq_some_iff, Option.pure_def,
          Option.some.injEq] at h
        obtain ⟨x, first, y, rest, rfl⟩ := h
        obtain ⟨fits, rfl⟩ := argumentCost_eq_some_iff.mp first
        obtain ⟨later, rfl⟩ := ih.mp rest
        exact ⟨⟨fits, later⟩, rfl⟩
      · rintro ⟨⟨fits, later⟩, rfl⟩
        have first := argumentCost_eq_some_iff.mpr ⟨fits, rfl⟩
        have rest := ih.mpr ⟨later, rfl⟩
        simp [callCost, first, rest]

theorem mem_candidates {m : Module} {name : Text} {types : List ValueType} {method : Bool}
    {f : Overload} {cost : Nat} :
    (f, cost) ∈ m.candidates name types method ↔
      f ∈ m.functions ∧ f.1.name = name ∧ Viable method f.1.params types ∧
        cost = totalCost f.1.params types := by
  unfold candidates overloads
  rw [List.mem_filterMap]
  constructor
  · rintro ⟨g, own, bids⟩
    obtain ⟨mem, named⟩ := List.mem_filter.mp own
    obtain ⟨c, found, same⟩ := Option.map_eq_some_iff.mp bids
    cases same
    exact ⟨mem, by simpa using named, callCost_eq_some_iff.mp found⟩
  · rintro ⟨mem, named, fits⟩
    refine ⟨f, List.mem_filter.mpr ⟨mem, by simpa using named⟩, ?_⟩
    rw [callCost_eq_some_iff.mpr fits]
    rfl

theorem Sorted.candidates {m : Module} (h : m.Sorted) (name : Text) (types : List ValueType)
    (method : Bool) :
    (m.candidates name types method).Pairwise fun a b => a.1.1 < b.1.1 := by
  unfold Module.candidates overloads
  rw [List.pairwise_filterMap]
  refine (List.Pairwise.filter _ h).imp ?_
  intro f g before x hx y hy
  obtain ⟨_, -, rfl⟩ := Option.map_eq_some_iff.mp hx
  obtain ⟨_, -, rfl⟩ := Option.map_eq_some_iff.mp hy
  exact before

/-- The cheapest candidate takes less than those before it, and no more than those behind it. -/
theorem Sorted.cheapest {m : Module} (h : m.Sorted) {name : Text} {types : List ValueType}
    {method : Bool} {x y : Overload × Nat}
    (best : Module.cheapest (m.candidates name types method) = some x)
    (hy : y ∈ m.candidates name types method) :
    y = x ∨ x.2 < y.2 ∨ (x.2 = y.2 ∧ x.1.1 < y.1.1) := by
  obtain ⟨front, back, split, before, behind⟩ := cheapest_split best
  have order := h.candidates name types method
  rw [split] at hy order
  rcases List.mem_append.mp hy with early | late
  · exact .inr (.inl (before y early))
  · rcases List.mem_cons.mp late with rfl | late
    · exact .inl rfl
    · have after := (List.pairwise_cons.mp (List.pairwise_append.mp order).2.1).1 y late
      rcases Nat.lt_or_eq_of_le (behind y late) with less | same
      · exact .inr (.inl less)
      · exact .inr (.inr ⟨same, after⟩)

end Module

namespace Engine

open Scripting.Module

variable (engine : Engine) (name : Text) (types : List ValueType) (method : Bool)

/-- A function that the call can be given to, in the `i`-th of the modules that are searched. -/
structure Candidate (i : Nat) (f : Overload) : Prop where
  own : ∃ m, engine.nativeModules[i]? = some m ∧ f ∈ m.functions
  named : f.1.name = name
  viable : Viable method f.1.params types

/-- The first function takes less, or as much and stands in an earlier module, or in the same one with
an earlier signature. -/
def Preferred (types : List ValueType) (i : Nat) (f : Overload) (j : Nat) (g : Overload) : Prop :=
  totalCost f.1.params types < totalCost g.1.params types ∨
    (totalCost f.1.params types = totalCost g.1.params types ∧ (i < j ∨ (i = j ∧ f.1 < g.1)))

def Best (i : Nat) (f : Overload) : Prop :=
  engine.Candidate name types method i f ∧
    ∀ j g, engine.Candidate name types method j g → (j = i ∧ g = f) ∨ Preferred types i f j g

/-- The modules that natives are looked up in are in order and hold no functions of scripts. -/
structure HoldsNatives : Prop where
  sorted : ∀ m ∈ engine.nativeModules, m.Sorted
  native : ∀ m ∈ engine.nativeModules, ∀ f ∈ m.functions, f.2.isScript = false

variable {engine name types method}

theorem not_preferred_both {i j : Nat} {f g : Overload} (h : Preferred types i f j g) :
    ¬ Preferred types j g i f := by
  rcases h with less | ⟨same, earlier⟩
  · rintro (more | ⟨same, -⟩) <;> omega
  · rintro (more | ⟨-, later⟩)
    · omega
    · rcases earlier with before | ⟨rfl, before⟩
      · rcases later with after | ⟨rfl, -⟩ <;> omega
      · rcases later with after | ⟨-, after⟩
        · omega
        · exact Signature.not_before_self _ (Signature.before_trans before after)

theorem Best.unique {i j : Nat} {f g : Overload} (hf : engine.Best name types method i f)
    (hg : engine.Best name types method j g) : g = f := by
  rcases hf.2 j g hg.1 with ⟨-, same⟩ | first
  · exact same
  · rcases hg.2 i f hf.1 with ⟨-, same⟩ | second
    · exact same.symm
    · exact absurd second (not_preferred_both first)

/-- A module without functions of scripts bids its cheapest candidate. -/
theorem bid?_of_native {m : Module} (native : ∀ f ∈ m.functions, f.2.isScript = false) :
    bid? name types method m = cheapest (m.candidates name types method) := by
  unfold bid?
  rw [promoted?_eq_cheapest]
  cases best : cheapest (m.candidates name types method) with
  | none => rfl
  | some x =>
    obtain ⟨f, cost⟩ := x
    have own := (mem_candidates.mp (cheapest_mem best)).1
    simp [Option.filter, native f own]

theorem place_in_append {ms ns : List Module} {m n : Module} {j : Nat}
    (h : (ms ++ m :: ns)[j]? = some n) :
    (j < ms.length ∧ n ∈ ms) ∨ (j = ms.length ∧ n = m) ∨ (ms.length < j ∧ n ∈ ns) := by
  rcases Nat.lt_trichotomy j ms.length with early | rfl | late
  · rw [List.getElem?_append_left early] at h
    exact .inl ⟨early, List.mem_of_getElem? h⟩
  · simp only [List.getElem?_append_right (Nat.le_refl _), Nat.sub_self,
      List.getElem?_cons_zero, Option.some.injEq] at h
    exact .inr (.inl ⟨rfl, h.symm⟩)
  · rw [List.getElem?_append_right (Nat.le_of_lt late)] at h
    obtain ⟨k, hk⟩ : ∃ k, j - ms.length = k + 1 := ⟨j - ms.length - 1, by omega⟩
    rw [hk, List.getElem?_cons_succ] at h
    exact .inr (.inr ⟨late, List.mem_of_getElem? h⟩)

namespace HoldsNatives

variable (h : engine.HoldsNatives)
include h

/-- A module with a candidate bids, and bids no more than the candidate takes. -/
theorem bids {n : Module} (there : n ∈ engine.nativeModules) {g : Overload} (mem : g ∈ n.functions)
    (named : g.1.name = name) (viable : Viable method g.1.params types) :
    ∃ z, bid? name types method n = some z ∧ z.2 ≤ totalCost g.1.params types := by
  have own : (g, totalCost g.1.params types) ∈ n.candidates name types method :=
    mem_candidates.mpr ⟨mem, named, viable, rfl⟩
  obtain ⟨z, best⟩ := cheapest_of_mem own
  exact ⟨z, by rw [bid?_of_native (h.native n there), best], cheapest_le best own⟩

theorem best_of_inexact
    (inexact : engine.nativeModules.findSome? (fun m => m.withTypes? name types) = none)
    {f : Overload} (found : engine.native? name types method = some f) :
    ∃ i, engine.Best name types method i f := by
  rw [native?_eq_cheapest _ _ _ _ inexact] at found
  obtain ⟨x, best, rfl⟩ := Option.map_eq_some_iff.mp found
  obtain ⟨front, back, split, before, behind⟩ := cheapest_split best
  obtain ⟨ms, rest, modules, hfront, hrest⟩ := List.filterMap_eq_append_iff.mp split
  obtain ⟨ns, m, ms', rfl, unbidden, hx, hback⟩ := List.filterMap_eq_cons_iff.mp hrest
  rw [← List.append_assoc] at modules
  have there : m ∈ engine.nativeModules := by simp [modules]
  rw [bid?_of_native (h.native m there)] at hx
  obtain ⟨own, named, viable, cost⟩ := mem_candidates.mp (cheapest_mem hx)
  refine ⟨(ms ++ ns).length, ⟨⟨m, by simp [modules], own⟩, named, viable⟩, ?_⟩
  rintro j g ⟨⟨n, place, mem⟩, gNamed, gViable⟩
  have bids := h.bids (List.mem_of_getElem? place) mem gNamed gViable
  rw [modules] at place
  unfold Preferred
  rw [← cost]
  -- A module in front bids more, one behind no less, and in the module itself the order decides.
  rcases place_in_append place with ⟨early, there⟩ | ⟨rfl, rfl⟩ | ⟨late, there⟩
  · obtain ⟨z, hz, least⟩ := bids
    rcases List.mem_append.mp there with there | there
    · have less := before z (hfront ▸ List.mem_filterMap.mpr ⟨n, there, hz⟩)
      exact .inr (.inl (Nat.lt_of_lt_of_le less least))
    · rw [unbidden n there] at hz
      cases hz
  · have listed : (g, totalCost g.1.params types) ∈ n.candidates name types method :=
      mem_candidates.mpr ⟨mem, gNamed, gViable, rfl⟩
    rcases (h.sorted n there).cheapest hx listed with same | less | ⟨same, first⟩
    · exact .inl ⟨rfl, by rw [← same]⟩
    · exact .inr (.inl less)
    · exact .inr (.inr ⟨same, .inr ⟨rfl, first⟩⟩)
  · obtain ⟨z, hz, least⟩ := bids
    have more := behind z (hback ▸ List.mem_filterMap.mpr ⟨n, there, hz⟩)
    rcases Nat.lt_or_eq_of_le (Nat.le_trans more least) with less | same
    · exact .inr (.inl less)
    · exact .inr (.inr ⟨same, .inl late⟩)

theorem withTypes?_eq_none {n : Module} (there : n ∈ engine.nativeModules) :
    n.withTypes? name types = none ↔ ∀ g, (⟨name, types⟩, g) ∉ n.functions := by
  rw [withTypes?, Option.map_eq_none_iff]
  constructor
  · intro absent g own
    rw [(h.sorted n there).find?_of_mem own] at absent
    cases absent
  · intro absent
    cases found : n.fn? ⟨name, types⟩ with
    | none => rfl
    | some g => exact absurd (Dict.mem_of_find? found) (absent g)

theorem inexact_iff : engine.nativeModules.findSome? (fun m => m.withTypes? name types) = none ↔
    ∀ m ∈ engine.nativeModules, ∀ g, (⟨name, types⟩, g) ∉ m.functions := by
  rw [List.findSome?_eq_none_iff]
  exact ⟨fun none m there => (h.withTypes?_eq_none there).mp (none m there),
    fun none m there => (h.withTypes?_eq_none there).mpr (none m there)⟩

theorem exact_of_first {i : Nat} {m : Module} {g : Function}
    (place : engine.nativeModules[i]? = some m) (own : (⟨name, types⟩, g) ∈ m.functions)
    (first : ∀ j < i, ∀ n, engine.nativeModules[j]? = some n →
      ∀ f, (⟨name, types⟩, f) ∉ n.functions) :
    engine.native? name types method = some (⟨name, types⟩, g) := by
  have there := List.mem_of_getElem? place
  obtain ⟨inside, rfl⟩ := List.getElem?_eq_some_iff.mp place
  have split : engine.nativeModules = engine.nativeModules.take i ++ engine.nativeModules[i] ::
      engine.nativeModules.drop (i + 1) := by simp
  have exact : engine.nativeModules.findSome? (fun m => m.withTypes? name types) =
      some (⟨name, types⟩, g) := by
    refine List.findSome?_eq_some_iff.mpr ⟨_, _, _, split, ?_, ?_⟩
    · rw [withTypes?, (h.sorted _ there).find?_of_mem own]
      rfl
    · intro n early
      obtain ⟨j, before, at'⟩ := List.mem_take_iff_getElem.mp early
      have place : engine.nativeModules[j]? = some n := by
        rw [List.getElem?_eq_some_iff]
        exact ⟨by omega, at'⟩
      exact (h.withTypes?_eq_none (List.mem_of_getElem? place)).mpr (first j (by omega) n place)
  unfold native?
  rw [exact]

theorem found_of_candidate {i : Nat} {f : Overload}
    (candidate : engine.Candidate name types method i f) :
    ∃ g, engine.native? name types method = some g := by
  cases exact : engine.nativeModules.findSome? fun m => m.withTypes? name types with
  | some g => exact ⟨g, by unfold native?; rw [exact]⟩
  | none =>
    obtain ⟨⟨m, place, own⟩, named, viable⟩ := candidate
    have there := List.mem_of_getElem? place
    obtain ⟨z, hz, -⟩ := h.bids there own named viable
    obtain ⟨x, best⟩ := cheapest_of_mem (List.mem_filterMap.mpr ⟨m, there, hz⟩)
    exact ⟨x.1, by rw [native?_eq_cheapest _ _ _ _ exact, best]; rfl⟩

theorem candidate_of_found {f : Overload} (found : engine.native? name types method = some f) :
    ∃ i, engine.Candidate name types method i f := by
  cases exact : engine.nativeModules.findSome? fun m => m.withTypes? name types with
  | some g =>
    unfold native? at found
    rw [exact] at found
    cases found
    obtain ⟨m, there, same⟩ := List.exists_of_findSome?_eq_some exact
    obtain ⟨f, own, rfl⟩ := Option.map_eq_some_iff.mp same
    obtain ⟨i, place⟩ := List.getElem?_of_mem there
    refine ⟨i, ⟨m, place, Dict.mem_of_find? own⟩, rfl, rfl, ?_⟩
    intro k p a hp ha differ
    rw [hp] at ha
    exact absurd (Option.some.inj ha) differ
  | none =>
    obtain ⟨i, best⟩ := h.best_of_inexact exact found
    exact ⟨i, best.1⟩

end HoldsNatives

end Engine

/-- A call gets the function of exactly its argument types in the first module that has one. If there
is none it gets, of all functions that take its arguments with conversions, the one that takes least;
the earlier module and then the earlier signature decides between those that take the same. It gets
nothing exactly if no function takes its arguments. -/
theorem native_is_exact_or_cheapest (engine : Engine) (natives : engine.HoldsNatives) (name : Text)
    (types : List ValueType) (method : Bool) :
    (∀ (i : Nat) (m : Module) g, engine.nativeModules[i]? = some m →
      (⟨name, types⟩, g) ∈ m.functions →
      (∀ j < i, ∀ n : Module, engine.nativeModules[j]? = some n →
        ∀ f, (⟨name, types⟩, f) ∉ n.functions) →
      engine.native? name types method = some (⟨name, types⟩, g)) ∧
    ((∀ m ∈ engine.nativeModules, ∀ g, (⟨name, types⟩, g) ∉ m.functions) →
      ∀ f, engine.native? name types method = some f ↔ ∃ i, engine.Best name types method i f) ∧
    (engine.native? name types method = none ↔
      ∀ i f, ¬ engine.Candidate name types method i f) := by
  refine ⟨fun i m g place own first => natives.exact_of_first place own first, ?_, ?_⟩
  · intro absent f
    have inexact := natives.inexact_iff.mpr absent
    constructor
    · exact natives.best_of_inexact inexact
    · rintro ⟨i, best⟩
      obtain ⟨g, found⟩ := natives.found_of_candidate best.1
      obtain ⟨j, other⟩ := natives.best_of_inexact inexact found
      rw [found, other.unique best]
  · constructor
    · intro none i f candidate
      obtain ⟨g, found⟩ := natives.found_of_candidate candidate
      rw [none] at found
      cases found
    · intro absent
      cases found : engine.native? name types method with
      | none => rfl
      | some f =>
        obtain ⟨i, candidate⟩ := natives.candidate_of_found found
        exact absurd candidate (absent i f)

/-- An engine with natives of one name in three modules; none takes two integers as they are. -/
def tiedEngine : Engine :=
  let pick (m : Module) (params : List ValueType) : Module :=
    m.setNative (Text.lit "pick") params (.tagged .unit) .exposed
  { globals := pick (pick {} [.float, .any]) [.any, .float]
    packages := [pick {} [.float, .float], pick (pick {} [.any, .any]) [.float, .float]] }

/-- By value it is cheapest to convert both arguments, and as a method to convert only the second. -/
theorem native_is_exact_or_cheapest_tied : tiedEngine.HoldsNatives ∧
    (∃ i f, tiedEngine.Best (Text.lit "pick") [.i64, .i64] false i f ∧
      f.1.params = [.float, .float]) ∧
    ∃ i f, tiedEngine.Best (Text.lit "pick") [.i64, .i64] true i f ∧ f.1.params = [.any, .float] := by
  have empty : ({} : Module).Sorted := List.Pairwise.nil
  have sorted : ∀ m ∈ tiedEngine.nativeModules, m.Sorted := by
    intro m there
    simp only [Engine.nativeModules, tiedEngine, List.mem_cons, List.not_mem_nil, or_false] at there
    rcases there with rfl | rfl | rfl
    · exact Module.sorted_setFn (Module.sorted_setFn empty _ _ _) _ _ _
    · exact Module.sorted_setFn empty _ _ _
    · exact Module.sorted_setFn (Module.sorted_setFn empty _ _ _) _ _ _
  have natives : tiedEngine.HoldsNatives := ⟨sorted, by decide +kernel⟩
  have inexact : ∀ m ∈ tiedEngine.nativeModules, ∀ f ∈ m.functions,
      f.1 ≠ ⟨Text.lit "pick", [.i64, .i64]⟩ := by decide +kernel
  have params : ∀ method, (tiedEngine.native? (Text.lit "pick") [.i64, .i64] method).map
      (·.1.params) = some [if method then .any else .float, .float] := by decide +kernel
  have best (method : Bool) : ∃ i f, tiedEngine.Best (Text.lit "pick") [.i64, .i64] method i f ∧
      f.1.params = [if method then .any else .float, .float] := by
    obtain ⟨f, found, takes⟩ := Option.map_eq_some_iff.mp (params method)
    obtain ⟨i, best⟩ := ((native_is_exact_or_cheapest tiedEngine natives _ _ _).2.1
      (fun m there g own => inexact m there _ own rfl) f).mp found
    exact ⟨i, f, best, takes⟩
  exact ⟨natives, best false, best true⟩

end Scripting
