import Scripting.Proofs.Parsing.Strings
import Scripting.Proofs.Regime.Evaluation

/-
The regime of sizes: values within limits that the engine checks. Maps are kept in the order of
their keys, so that replacing an entry makes none; and closures are the only pointers that carry
aliases, since no native goes by the name of a closure.
-/
namespace Scripting

def Value.SizeFits (l : Limits) : Value → Prop
  | .string t => Fits l.string (Utf8.length t)
  | .array items => Fits l.array items.length
  | .map entries => Fits l.map entries.length
  | _ => True

namespace Dict

variable {α : Type}

theorem length_insert_of_find? {d : Dict Text α} (h : Ordered d) {key : Text} {w : α}
    (found : find? key d = some w) (v : α) : (Dict.insert key v d).length = d.length := by
  induction d with
  | nil => cases found
  | cons entry rest ih =>
    obtain ⟨k, u⟩ := entry
    obtain ⟨first, later⟩ := List.pairwise_cons.mp h
    unfold find? at found
    unfold Dict.insert
    split
    · rfl
    · next other =>
      rw [if_neg other] at found
      split
      · next before =>
        have above : k < key := first _ (mem_of_find? found)
        exact absurd (List.lt_trans above before) (List.lt_irrefl k)
      · simp [ih later found]

end Dict

namespace Package

theorem mem_install {m : Module} {offers : List Offer} {f : Overload}
    (h : f ∈ (install m offers).functions) :
    f ∈ m.functions ∨ ∃ o ∈ offers, f.1 = ⟨Text.lit o.1, o.2.1⟩ ∧ f.2.body = .native o.2.2 := by
  induction offers generalizing m with
  | nil => exact Or.inl h
  | cons offer rest ih =>
    rcases ih h with earlier | ⟨o, mem, same⟩
    · rcases Dict.mem_insert earlier with rfl | old
      · exact Or.inr ⟨offer, List.mem_cons_self, rfl, rfl⟩
      · exact Or.inl old
    · exact Or.inr ⟨o, List.mem_cons_of_mem _ mem, same⟩

theorem coreModule_native {f : Overload} (h : f ∈ coreModule.functions) :
    (∃ g, f.2.body = .native (.core g)) ∧ ∀ id, f.1.name ≠ closureName id := by
  have offered : coreOffers.all (fun o => (o.2.2 matches .core _) &&
      !closureMark.isPrefixOf (Text.lit o.1)) = true := by decide +kernel
  rcases mem_install h with never | ⟨⟨name, params, n⟩, mem, named, body⟩
  · cases never
  · have own := List.all_eq_true.mp offered _ mem
    rw [Bool.and_eq_true] at own
    refine ⟨?_, fun id same => ?_⟩
    · cases n with
      | core g => exact ⟨g, body⟩
      | _ => cases own.1
    · have mark : closureMark.isPrefixOf (Text.lit name) = true := by
        have name : f.1.name = Text.lit name := congrArg Signature.name named
        rw [List.isPrefixOf_iff_prefix, ← name, same]
        exact List.prefix_append _ _
      simp [mark] at own

end Package

theorem Engine.native?_none {engine : Engine} {name : Text}
    (h : ∀ m ∈ engine.nativeModules, m.overloads name = []) (types : List ValueType) (method : Bool) :
    engine.native? name types method = none := by
  have exact : engine.nativeModules.findSome? (fun m => m.withTypes? name types) = none := by
    refine List.findSome?_eq_none_iff.mpr fun m hm => ?_
    cases found : m.withTypes? name types with
    | none => rfl
    | some f =>
      have named : f.1.name = name := by
        obtain ⟨g, -, rfl⟩ := Option.map_eq_some_iff.mp found
        rfl
      have own : f ∈ m.overloads name :=
        List.mem_filter.mpr ⟨Module.withTypes?_mem found, by simp [named]⟩
      rw [h m hm] at own
      cases own
  have promoted : engine.nativeModules.foldl
      (fun best m => Engine.better best (m.promoted? name types method false)) none = none := by
    refine List.foldlRecOn (motive := fun best => best = none) engine.nativeModules _ rfl ?_
    intro best hbest m hm
    have unpromoted : m.promoted? name types method false = none := by
      rw [Module.promoted?, h m hm]
      rfl
    rw [unpromoted]
    exact hbest
  rw [Engine.native?, exact]
  dsimp only
  rw [promoted]
  rfl

theorem Engine.native?_closureName {engine : Engine}
    (core : ∀ m ∈ engine.nativeModules, ∀ f ∈ m.functions, f ∈ Package.coreModule.functions) (id : Nat)
    (types : List ValueType) (method : Bool) :
    engine.native? (closureName id) types method = none := by
  refine Engine.native?_none (fun m hm => ?_) types method
  refine List.filter_eq_nil_iff.mpr fun f hf named => ?_
  have own := Package.coreModule_native (core m hm f hf)
  exact own.2 id (by simpa using named)

inductive Value.Tame (l : Limits) : Value → Prop where
  | atom {v : Value} (h : v.isAtom = true) : Value.Tame l v
  | string {t : Text} (fits : (Value.string t).SizeFits l) : Value.Tame l (.string t)
  | array {items : List Value} (fits : (Value.array items).SizeFits l)
      (tame : ∀ v ∈ items, Value.Tame l v) : Value.Tame l (.array items)
  | map {entries : List (Text × Value)} (fits : (Value.map entries).SizeFits l)
      (ordered : Dict.Ordered entries) (keys : ∀ e ∈ entries, (Value.string e.1).SizeFits l)
      (tame : ∀ e ∈ entries, Value.Tame l e.2) : Value.Tame l (.map entries)
  | fn {name : Text} {curry : List Value} (own : ∀ v ∈ curry, v.isShared = false → Value.Tame l v)
      (lent : ∀ v ∈ curry, v.isShared = true → ∃ id, name = closureName id) :
      Value.Tame l (.fn name curry)

namespace Value.Tame

variable {l : Limits}

theorem string_iff {t : Text} : Tame l (.string t) ↔ (Value.string t).SizeFits l := by
  constructor
  · intro h
    cases h with
    | atom h => cases h
    | string fits => exact fits
  · exact .string

theorem array_iff {items : List Value} :
    Tame l (.array items) ↔ (Value.array items).SizeFits l ∧ ∀ v ∈ items, Tame l v := by
  constructor
  · intro h
    cases h with
    | atom h => cases h
    | array fits tame => exact ⟨fits, tame⟩
  · exact fun h => .array h.1 h.2

theorem map_iff {entries : List (Text × Value)} :
    Tame l (.map entries) ↔ (Value.map entries).SizeFits l ∧ Dict.Ordered entries ∧
      ∀ e ∈ entries, Tame l (.string e.1) ∧ Tame l e.2 := by
  constructor
  · intro h
    cases h with
    | atom h => cases h
    | map fits ordered keys tame =>
      exact ⟨fits, ordered, fun e he => ⟨.string (keys e he), tame e he⟩⟩
  · rintro ⟨fits, ordered, parts⟩
    exact .map fits ordered (fun e he => string_iff.mp (parts e he).1) fun e he => (parts e he).2

theorem not_shared {c : Nat} : ¬ Tame l (.shared c) := by
  intro h
  cases h with
  | atom h => cases h

theorem fn_iff {name : Text} {curry : List Value} :
    Tame l (.fn name curry) ↔
      ∀ v ∈ curry, Tame l v ∨ v.isShared = true ∧ ∃ id, name = closureName id := by
  constructor
  · intro h v hv
    cases h with
    | atom h => cases h
    | fn own lent =>
      cases shared : v.isShared with
      | false => exact Or.inl (own v hv shared)
      | true => exact Or.inr ⟨rfl, lent v hv shared⟩
  · intro h
    refine .fn (fun v hv unshared => ?_) fun v hv shared => ?_
    · exact (h v hv).resolve_right fun lent => by simp [unshared] at lent
    · cases v with
      | shared c => exact ((h _ hv).resolve_left not_shared).2
      | _ => cases shared

end Value.Tame

structure Engine.Checks (engine : Engine) (l : Limits) : Prop where
  globals : engine.globals = {}
  packages : engine.packages = [Package.coreModule]
  string : l.string = 0 ∨ l.string = engine.limits.string
  array : l.array = 0 ∨ l.array = engine.limits.array
  map : l.map = 0 ∨ l.map = engine.limits.map
  names : ∀ t, Fits l.string (Utf8.length (engine.typeName t))

namespace Engine.Checks

variable {engine : Engine} {l : Limits}

theorem fits_of_check {limit cap size : Nat} (same : cap = 0 ∨ cap = limit)
    (within : ¬ (decide (0 < limit) && decide (limit < size)) = true) : Fits cap size := by
  simp only [Bool.and_eq_true, decide_eq_true_eq] at within
  unfold Fits
  omega

theorem checked (h : engine.Checks l) {v : Value} {pos : Position}
    (ok : Eval.checkSize engine v pos = .ok ()) : v.SizeFits l := by
  unfold Eval.checkSize at ok
  dsimp only at ok
  cases v with
  | string t =>
    dsimp only at ok
    split at ok
    · cases ok
    · next within => exact fits_of_check h.string within
  | array items =>
    dsimp only at ok
    split at ok
    · cases ok
    · next within => exact fits_of_check h.array within
  | map entries =>
    dsimp only at ok
    split at ok
    · cases ok
    · next within => exact fits_of_check h.map within
  | _ => trivial

theorem mem_nativeModules (h : engine.Checks l) {m : Module} (hm : m ∈ engine.nativeModules)
    {f : Overload} (hf : f ∈ m.functions) : f ∈ Package.coreModule.functions := by
  rw [Engine.nativeModules, h.globals, h.packages] at hm
  rcases List.mem_cons.mp hm with rfl | package
  · cases hf
  · rw [List.mem_singleton.mp package] at hf
    exact hf

theorem unnamed (h : engine.Checks l) (id : Nat) (types : List ValueType) (method : Bool) :
    engine.native? (closureName id) types method = none :=
  Engine.native?_closureName (fun _ hm _ hf => h.mem_nativeModules hm hf) id types method

theorem natives (h : engine.Checks l) {m : Module} (hm : m ∈ engine.nativeModules) {f : Overload}
    (hf : f ∈ m.functions) {n : Native} (body : f.2.body = .native n) : ∃ g, n = .core g := by
  obtain ⟨⟨g, own⟩, -⟩ := Package.coreModule_native (h.mem_nativeModules hm hf)
  rw [own] at body
  cases body
  exact ⟨g, rfl⟩

end Engine.Checks

def Regime.sizes {engine : Engine} {l : Limits} (checks : engine.Checks l) : Regime engine where
  plain := Value.Tame l
  fits := Value.SizeFits l
  ordered := Dict.Ordered
  lends name := ∃ id, name = closureName id
  atom _ h := .atom h
  string _ := Value.Tame.string_iff
  array _ := Value.Tame.array_iff
  map _ := Value.Tame.map_iff
  fn _ _ := Value.Tame.fn_iff
  shared _ h := absurd h Value.Tame.not_shared
  resized {xs ys} same fits := by
    change Fits l.array xs.length
    rw [same]
    exact fits
  empty := List.Pairwise.nil
  inserted ordered := ordered.insert _ _
  erased ordered := ordered.erase _
  replaced {es key v w} ordered found fits := by
    change Fits l.map (List.length (Dict.insert key v es))
    rw [Dict.length_insert_of_find? ordered found]
    exact fits
  checked _ _ ok := checks.checked ok
  typeNames t := .string (checks.names t)
  unnamed := by
    rintro name ⟨id, rfl⟩ types method
    exact checks.unnamed id types method
  natives _ hm _ hf _ body := Or.inl (checks.natives hm hf body)

end Scripting
