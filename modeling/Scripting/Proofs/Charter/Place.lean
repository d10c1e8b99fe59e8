import Scripting.Proofs.Charter.Basic
import Scripting.Proofs.Parsing.Strings

/-
Places under a charter. Whatever is reached on the way to a place is plain, and so is what is put back.
-/
namespace Scripting

namespace Utf8

theorem locate_small {i : Nat} {t front tail : Text} {c : CodePoint}
    (h : locate i t = some (front, c, tail)) : c.toNat < 0x200000 := by
  induction i generalizing t front with
  | zero =>
    cases t with
    | nil => cases h
    | cons b rest =>
      cases h
      exact decodeFrom_small b rest
  | succ i ih =>
    cases t with
    | nil => cases h
    | cons b rest =>
      obtain ⟨⟨before, d, after⟩, there, same⟩ := Option.map_eq_some_iff.mp h
      cases same
      exact ih there

end Utf8

namespace Charter

variable {engine : Engine} {C : Charter engine} {x : Extent C.Way} {l : C.Level}

open Eval

theorem arrayIndex_does (size : Nat) {index : Value} (hindex : C.plain l index) (pos : Position) :
    C.Does x l (fun _ _ => True) fun i => arrayIndex (C.ev i) size index pos := by
  have refused : C.Does x l (fun _ (_ : Nat) => True) fun i => plainMismatch (C.ev i) "i64" index pos :=
    plainMismatch_does "i64" hindex pos
  unfold arrayIndex
  split
  · split
    · exact C.fail _ pos
    · exact C.give fun _ _ => trivial
  · exact refused

theorem mapKey_does {index : Value} (hindex : C.plain l index) (pos : Position) :
    C.Does x l (fun _ _ => True) fun i => mapKey (C.ev i) index pos := by
  have refused : C.Does x l (fun _ (_ : Text) => True) fun i =>
      plainMismatch (C.ev i) "string" index pos := plainMismatch_does "string" hindex pos
  cases index with
  | string t => exact C.give fun _ _ => trivial
  | _ => exact refused

theorem locateChar_does (t : Text) {index : Value} (hindex : C.plain l index) (pos : Position) :
    C.Does x l (fun _ found => found.2.1.toNat < 0x200000) fun i =>
      locateChar (C.ev i) t index pos := by
  have refused : C.Does x l (fun _ (found : Text × CodePoint × Text) => found.2.1.toNat < 0x200000)
      fun i => plainMismatch (C.ev i) "i64" index pos := plainMismatch_does "i64" hindex pos
  unfold locateChar
  split
  · split
    · next found there =>
      refine C.give fun _ _ => ?_
      split at there
      · cases there
      · exact Utf8.locate_small there
    · exact C.fail _ pos
  · exact refused

section Parts

variable {α : Type} {Q : C.Level → α → Prop} {k : C.Side → Held Value α} (lasting : C.Lasting Q)
  (hk : C.Works l Q k)
include hk

include lasting in
theorem returning_works : C.Works l (fun l' p => Q l' p.1 ∧ C.plain l' p.2)
    fun i => (do return (← k i, ← Held.held) : Held Value (α × Value)) := by
  refine C.bindHeld hk fun l₁ a _ ha => ?_
  refine C.bindHeld C.held fun l₂ v le hv => C.giveHeld fun l₃ le' => ?_
  exact ⟨lasting _ _ _ (le_trans le le') ha, C.grow le' hv⟩

include lasting in
theorem atChar_works (t : Text) {index : Value} (hindex : C.plain l index) {forWrite : Bool}
    (room : forWrite = false ∨ C.room) (pos : Position) :
    C.Works l Q fun i => atChar (C.side i) (C.ev i) t index forWrite pos (k i) := by
  refine C.bindHeld (C.lift (locateChar_does t hindex pos)) ?_
  rintro l₁ ⟨front, c, tail⟩ le small
  refine C.bindHeld (C.lift (C.raise (C.drop (returning_works lasting hk) (plain_char small)) le)) ?_
  rintro l₂ ⟨a, v⟩ _ ⟨ha, hv⟩
  have stays : C.Works l₂ Q fun _ => pure a := C.giveHeld fun l₃ le => lasting _ _ _ le ha
  have refused : C.Works l₂ Q fun i =>
      (Held.lift (mismatch (C.side i) (C.ev i) "char" v pos) >>= fun _ : PUnit => pure a :
        Held Value α) := by
    refine C.bindHeld (C.lift (mismatch_does (Q := fun _ _ => False) "char" hv pos)) ?_
    exact fun _ _ _ never => never.elim
  cases forWrite with
  | false => exact stays
  | true =>
    cases v with
    | char c =>
      refine C.bindHeld (C.setHeld (C.text _ (room.resolve_left (by simp)))) fun l₃ _ le _ => ?_
      exact C.raiseHeld stays le
    | _ => exact refused

theorem atKey_works {entries : List (Text × Value)} (hentries : C.plain l (.map entries)) (key : Text)
    {forWrite : Bool} (room : forWrite = false ∨ C.room) (pos : Position) :
    C.Works l Q fun i => atKey entries key forWrite pos (k i) := by
  have onEntry : ∀ v, C.plain l v → (Dict.find? key entries).isSome = true ∨ C.room →
      C.Works l Q fun i => Held.zoom v (fun v _ => .map (Dict.insert key v entries))
        (Held.behind key pos (k i)) := by
    intro v hv place
    refine C.zoom (C.behind key pos hk) hv ?_
    exact fun l' w _ le hw _ => C.insert (C.grow le hentries) hw place
  unfold atKey
  cases found : Dict.find? key entries with
  | some v => exact onEntry v (C.entry hentries found) (Or.inl (by rw [found]; rfl))
  | none =>
    cases forWrite with
    | true => exact onEntry .unit plain_unit (Or.inr (room.resolve_left (by simp)))
    | false => exact C.lift (C.drop hk plain_unit)

include lasting

theorem atAccessors_works (getName setName : Text) {index : List Value} (hindex : C.Plain l index)
    {missing : C.Side → Held Value α} (hmissing : C.Works l Q missing) (forWrite : Bool)
    (pos : Position) : C.Works l Q fun i =>
      atAccessors (C.side i) (C.ev i) getName setName index (missing i) forWrite pos (k i) := by
  refine C.bindHeld (C.tryMethod getName pos hindex) fun l₁ found le hfound => ?_
  by_cases skip : (found.isNone && !forWrite) = true
  · simp only [if_pos skip]
    exact C.raiseHeld hmissing le
  · simp only [if_neg skip]
    have value : C.plain l₁ (found.getD .unit) := by
      cases found with
      | some v => exact hfound v rfl
      | none => exact plain_unit
    refine C.bindHeld (C.lift (C.drop (C.raiseHeld (returning_works lasting hk) le) value)) ?_
    rintro l₂ ⟨a, v⟩ le' ⟨ha, hv⟩
    have args : C.Plain l₂ (index ++ [v]) :=
      plain_append (plain_grow (le_trans le le') hindex) (plain_cons hv plain_nil)
    refine C.bindHeld (C.tryMethod setName pos args) fun l₃ written le'' _ => ?_
    by_cases lost : (written.isNone && forWrite) = true
    · simp only [if_pos lost]
      refine C.bindHeld C.held fun l₄ w le₃ hw => ?_
      exact C.lift (notFound_does setName (plain_cons hw (plain_grow (le_trans le'' le₃) args)) pos)
    · simp only [if_neg lost]
      exact C.giveHeld fun _ le => lasting _ _ _ (le_trans le'' le) ha

theorem atIndex_works {index : Value} (hindex : C.plain l index) {forWrite : Bool}
    (room : forWrite = false ∨ C.room) (pos : Position) :
    C.Works l Q fun i => atIndex (C.side i) (C.ev i) index forWrite pos (k i) := by
  have missing : ∀ l', C.Works l' Q fun i =>
      (do let t ← Held.lift (Eval.typeOf (C.ev i) (← Held.held))
          throw (.cause (.indexing (.unsupported (engine.typeName t))) pos) : Held Value α) := by
    intro l'
    refine C.bindHeld C.held fun l₁ v _ hv => ?_
    exact C.bindHeld (C.lift (C.typeOf hv)) fun l₂ t _ _ => C.failHeld _ pos
  refine C.bindHeld C.held fun l₁ v le hv => ?_
  have accessors : C.Works l₁ Q fun i => atAccessors (C.side i) (C.ev i) Package.indexGetter
      Package.indexSetter [index] _ forWrite pos (k i) :=
    atAccessors_works lasting (C.raiseHeld hk le) _ _ (plain_cons (C.grow le hindex) plain_nil)
      (missing l₁) forWrite pos
  cases v with
  | array items =>
    refine C.bindHeld (C.lift (arrayIndex_does items.length (C.grow le hindex) pos)) ?_
    intro l₂ i le' _
    refine C.zoom (C.behind [] pos (C.raiseHeld hk (le_trans le le'))) ?_ ?_
    · exact C.grow le' (plain_item hv i)
    · exact fun l₃ w _ le'' hw _ => C.set i (C.grow (le_trans le' le'') hv) hw
  | map entries =>
    refine C.bindHeld (C.lift (mapKey_does (C.grow le hindex) pos)) fun l₂ key le' _ => ?_
    exact atKey_works (C.raiseHeld hk (le_trans le le')) (C.grow le' hv) key room pos
  | string t => exact atChar_works lasting (C.raiseHeld hk le) t (C.grow le hindex) room pos
  | _ => exact accessors

theorem atProperty_works (name : Text) {forWrite : Bool} (room : forWrite = false ∨ C.room)
    (pos : Position) :
    C.Works l Q fun i => atProperty (C.side i) (C.ev i) name forWrite pos (k i) := by
  have missing : ∀ l', C.Works l' Q fun i =>
      (do Held.lift (notFound (C.side i) (C.ev i) (Package.getter name) [← Held.held] pos) :
        Held Value α) := by
    intro l'
    refine C.bindHeld C.held fun l₁ v _ hv => ?_
    exact C.lift (notFound_does _ (plain_cons hv plain_nil) pos)
  refine C.bindHeld C.held fun l₁ v le hv => ?_
  have accessors : C.Works l₁ Q fun i => atAccessors (C.side i) (C.ev i) (Package.getter name)
      (Package.setter name) [] _ forWrite pos (k i) :=
    atAccessors_works lasting (C.raiseHeld hk le) _ _ plain_nil (missing l₁) forWrite pos
  cases v with
  | map entries => exact atKey_works (C.raiseHeld hk le) hv name room pos
  | _ => exact accessors

end Parts

/-- Work on the place that an expression stands for. It needs room only if it writes to an element
of a container. -/
theorem access_does {w : C.Way} {α : Type} {Q : C.Level → α → Prop} (lasting : C.Lasting Q)
    {forWrite : Bool} : ∀ (expr : Expr) {l : C.Level} {k : C.Side → Held Value α},
    C.admits w (.expr expr) → expr.isPart = false ∨ forWrite = false ∨ C.room → C.Works l Q k →
    C.Does (.expr w) l Q fun i => access (C.side i) (C.ev i) expr forWrite (k i) := by
  intro expr l k admits room hk
  have passing : C.Does (.expr w) l Q fun i => (do Held.drop (← (C.ev i).eval expr) (k i) : Run α) :=
    C.bind (C.eval admits) fun l₁ v le hv => C.loose (C.drop (C.raiseHeld hk le) hv)
  match expr with
  | .var pos name [] => exact C.atVariable name forWrite pos hk
  | .var pos name (first :: rest) =>
    cases forWrite with
    | true => exact C.fail _ pos
    | false =>
      refine C.loose (C.bind (C.readVariable pos name _) fun l₁ v le hv => ?_)
      exact C.drop (C.raiseHeld hk le) hv
  | .this pos => exact C.onThis pos hk
  | .index pos object index =>
    have inside : forWrite = false ∨ C.room := room.resolve_left (by simp [Expr.isPart])
    refine C.bind (C.eval (C.parts admits _ (by simp [Code.parts]))) fun l₁ i le hi => ?_
    refine access_does lasting object (C.parts admits _ (by simp [Code.parts])) (Or.inr inside) ?_
    exact atIndex_works lasting (C.raiseHeld hk le) hi inside pos
  | .property pos object name =>
    have inside : forWrite = false ∨ C.room := room.resolve_left (by simp [Expr.isPart])
    refine access_does lasting object (C.parts admits _ (by simp [Code.parts])) (Or.inr inside) ?_
    exact atProperty_works lasting hk name inside pos
  | .int .. | .float .. | .string .. | .char .. | .bool .. | .unit _ | .call .. | .method ..
  | .logical .. | .member .. | .block .. | .branch .. | .array .. | .map .. | .closure .. =>
    exact passing

end Charter

end Scripting
