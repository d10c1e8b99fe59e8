import Scripting.Proofs.Access.Place
import Scripting.Proofs.Characters
import Scripting.Proofs.Scripted.Parts

/-
Changing a value in its inside. Steps lead from a value to something inside of it, through arrays, maps
and the characters of strings. When this is changed, it is found again at the end of the same steps, and
what is found by other steps, of which neither are the first steps of the others, is as it was.
-/
namespace Scripting

/-! ### One step -/

namespace Key

variable {k other : Key} {v part x v' : Value} {size : Nat}

theorem toNat_ne_of_ne {n n' : Integer} (ne : Key.item n' ≠ .item n) (start : ¬ n.val < 0)
    (start' : ¬ n'.val < 0) : n'.val.toNat ≠ n.val.toNat := by
  intro same
  refine ne (congrArg Key.item (Fixed.eq_of_val ?_))
  omega

theorem sees_put (sees : k.sees v = some part) (put : k.put v x = some v')
    (small : ∀ c, x = .char c → c.toNat < 0x200000) :
    k.sees v' = some x ∧ ∀ other, other ≠ k → other.sees v' = other.sees v := by
  cases into_of_sees sees with
  | @item n items _ start there =>
    cases put
    obtain ⟨inside, -⟩ := List.getElem?_eq_some_iff.mp there
    constructor
    · simp [Key.sees, start, inside]
    · intro other ne
      cases other with
      | entry => rfl
      | item n' =>
        by_cases start' : n'.val < 0
        · simp [Key.sees, start']
        · have apart := toNat_ne_of_ne ne start start'
          simp [Key.sees, start', List.getElem?_set_ne apart.symm]
  | @char n t found there =>
    cases x with
    | char c =>
      have start : ¬ n.val < 0 := by
        intro negative
        simp [character?, negative] at there
      have located : Utf8.locate n.val.toNat t = some found := by simpa [character?, start] using there
      obtain ⟨front, d, tail⟩ := found
      have replaced := Utf8.locate_replaced located (small c rfl)
      simp only [Key.put, there, Option.map_some, Option.some.injEq] at put
      subst put
      constructor
      · have here := replaced n.val.toNat
        rw [if_pos rfl] at here
        have both := congrArg (Option.map Value.char) here
        simpa [Key.sees, character?, start, Function.comp_def] using both
      · intro other ne
        cases other with
        | entry => rfl
        | item n' =>
          by_cases start' : n'.val < 0
          · simp [Key.sees, character?, start']
          · have apart := toNat_ne_of_ne ne start start'
            have there' := replaced n'.val.toNat
            rw [if_neg apart] at there'
            have both := congrArg (Option.map Value.char) there'
            simpa [Key.sees, character?, start', Function.comp_def] using both
    | _ => simp [Key.put] at put
  | @entry name entries =>
    cases put
    constructor
    · simp [Key.sees, Dict.find?_insert_self]
    · intro other ne
      cases other with
      | item => rfl
      | entry name' =>
        have apart : name' ≠ name := fun same => ne (congrArg Key.entry same)
        simp [Key.sees, Dict.find?_insert_of_ne apart]

theorem sees_scripted (h : v.Scripted size) (sees : k.sees v = some part) : part.Scripted size := by
  cases into_of_sees sees with
  | item _ there => exact (Value.scripted_array _).mp h _ (List.mem_of_getElem? there)
  | @char n t found there =>
    have located : Utf8.locate n.val.toNat t = some found := by
      unfold character? at there
      split at there
      · cases there
      · exact there
    obtain ⟨front, c, tail⟩ := found
    exact .char (Utf8.locate_small located)
  | @entry name entries =>
    cases found : Dict.find? name entries with
    | none => exact Value.scripted_unit
    | some w => exact Value.scripted_entry h found

theorem put_scripted (h : v.Scripted size) (hx : x.Scripted size) (put : k.put v x = some v') :
    v'.Scripted size := by
  unfold Key.put at put
  split at put
  · cases put
    exact Value.scripted_set h _ hx
  · obtain ⟨found, -, rfl⟩ := Option.map_eq_some_iff.mp put
    exact Value.scripted_string _
  · cases put
    exact .map (Value.scripted_insert ((Value.scripted_map _).mp h) _ hx)
  · cases put

end Key

/-! ### Many steps -/

namespace Value

def inside? (v : Value) : List Key → Option Value
  | [] => some v
  | k :: rest => (v.inside? rest).bind k.sees

def through (k : Key) (change : Value → Option Value) (v : Value) : Option Value :=
  (k.sees v).bind fun part => (change part).bind (k.put v)

def deep : List Key → (Value → Option Value) → Value → Option Value
  | [], change => change
  | k :: rest, change => deep rest (through k change)

variable {size : Nat} {v v' : Value} {change : Value → Option Value}

def KeepsScripted (size : Nat) (change : Value → Option Value) : Prop :=
  ∀ v v', v.Scripted size → change v = some v' → v'.Scripted size

theorem KeepsScripted.through (proper : KeepsScripted size change) (k : Key) :
    KeepsScripted size (through k change) := by
  intro v v' h changed
  obtain ⟨part, sees, changed⟩ := Option.bind_eq_some_iff.mp changed
  obtain ⟨x, made, put⟩ := Option.bind_eq_some_iff.mp changed
  exact Key.put_scripted h (proper part x (Key.sees_scripted h sees) made) put

/-- A change one step into a container is found there, and elsewhere in it nothing has changed. -/
theorem through_changes (proper : KeepsScripted size change) (h : v.Scripted size) {k : Key}
    (changed : through k change v = some v') : ∃ part x, k.sees v = some part ∧ change part = some x ∧
      k.sees v' = some x ∧ ∀ other, other ≠ k → other.sees v' = other.sees v := by
  obtain ⟨part, sees, changed⟩ := Option.bind_eq_some_iff.mp changed
  obtain ⟨x, made, put⟩ := Option.bind_eq_some_iff.mp changed
  have small : ∀ c, x = .char c → c.toNat < 0x200000 := by
    rintro c rfl
    exact scripted_char.mp (proper _ _ (Key.sees_scripted h sees) made)
  exact ⟨part, x, sees, made, Key.sees_put sees put small⟩

theorem inside?_scripted (h : v.Scripted size) {keys : List Key} {w : Value}
    (found : v.inside? keys = some w) : w.Scripted size := by
  induction keys generalizing w with
  | nil =>
    cases found
    exact h
  | cons k rest ih =>
    obtain ⟨container, there, sees⟩ := Option.bind_eq_some_iff.mp found
    exact Key.sees_scripted (ih there) sees

theorem inside?_append (front rest : List Key) :
    v.inside? (front ++ rest) = (v.inside? rest).bind (·.inside? front) := by
  induction front with
  | nil => simp [inside?]
  | cons k front ih => simp [inside?, ih, Option.bind_assoc]

theorem deep_append (front rest : List Key) :
    deep (front ++ rest) change = deep rest (deep front change) := by
  induction front generalizing change with
  | nil => rfl
  | cons k front ih => exact ih

theorem deep_changes (proper : KeepsScripted size change) (h : v.Scripted size) {keys : List Key}
    (changed : deep keys change v = some v') : v'.Scripted size ∧
      ∃ w w', v.inside? keys = some w ∧ change w = some w' ∧ v'.inside? keys = some w' := by
  induction keys generalizing change v' with
  | nil => exact ⟨proper v v' h changed, v, v', rfl, changed, rfl⟩
  | cons k rest ih =>
    obtain ⟨scripted, container, new, there, changed, there'⟩ := ih (proper.through k) changed
    obtain ⟨part, x, sees, made, sees', -⟩ := through_changes proper (inside?_scripted h there) changed
    refine ⟨scripted, part, x, ?_, made, ?_⟩
    · rw [inside?, there, Option.bind_some, sees]
    · rw [inside?, there', Option.bind_some, sees']

theorem exists_fork {keys others : List Key} (noPart : ¬ keys <:+ others) (noWhole : ¬ others <:+ keys) :
    ∃ front k front' k' rest, k' ≠ k ∧ keys = front ++ k :: rest ∧ others = front' ++ k' :: rest := by
  induction keys with
  | nil => exact absurd (List.nil_suffix) noPart
  | cons k keys ih =>
    by_cases part : keys <:+ others
    · obtain ⟨front', rfl⟩ := part
      rcases List.eq_nil_or_concat front' with rfl | ⟨front', k', rfl⟩
      · exact absurd (List.suffix_cons k keys) noWhole
      · refine ⟨[], k, front', k', keys, ?_, rfl, by simp⟩
        rintro rfl
        refine noPart ⟨front', by simp⟩
    · obtain ⟨front, l, front', l', rest, ne, rfl, rfl⟩ :=
        ih part fun whole => noWhole (whole.trans (List.suffix_cons k _))
      exact ⟨k :: front, l, front', l', rest, ne, rfl, rfl⟩

theorem deep_keeps (proper : KeepsScripted size change) (h : v.Scripted size) {keys others : List Key}
    (changed : deep keys change v = some v') (noPart : ¬ keys <:+ others)
    (noWhole : ¬ others <:+ keys) : v'.inside? others = v.inside? others := by
  obtain ⟨front, k, front', k', rest, ne, rfl, rfl⟩ := exists_fork noPart noWhole
  have proper' : KeepsScripted size (deep front change) := fun w w' hw changed =>
    (deep_changes proper hw changed).1
  rw [deep_append] at changed
  obtain ⟨-, container, new, there, changed, there'⟩ :=
    deep_changes (proper'.through k) h (show deep rest (through k (deep front change)) v = some v' from changed)
  obtain ⟨-, -, -, -, -, others⟩ := through_changes proper' (inside?_scripted h there) changed
  rw [inside?_append, inside?_append, inside?, inside?, there, there', Option.bind_some,
    Option.bind_some, others k' ne]

end Value

end Scripting
