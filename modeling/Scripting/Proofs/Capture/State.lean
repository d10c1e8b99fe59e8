import Scripting.Proofs.Capture.Scoped
import Scripting.Proofs.Contract.Kind
import Scripting.Proofs.Parsing.Within

/-
What a parse keeps. Each closure that has been read left a function of its own in the table, and no
function that is put there later takes its place.
-/
namespace Scripting

/-! The names of closures. -/

theorem Text.ofNat_ne_nil (n : Nat) : Text.ofNat n ≠ [] := by
  unfold Text.ofNat
  split <;> simp

theorem Text.digit_injective {m n : Nat} (hm : m < 10) (hn : n < 10)
    (same : UInt8.ofNat (48 + m) = UInt8.ofNat (48 + n)) : m = n := by
  have codes := congrArg UInt8.toNat same
  simp only [UInt8.toNat_ofNat'] at codes
  omega

theorem Text.ofNat_injective {m n : Nat} (same : Text.ofNat m = Text.ofNat n) : m = n := by
  induction m using Nat.strongRecOn generalizing n with
  | ind m ih =>
    rw [Text.ofNat.eq_1 m, Text.ofNat.eq_1 n] at same
    split at same
    · next hm =>
      split at same
      · next hn => exact Text.digit_injective hm hn (List.singleton_inj.mp same)
      · have front := (List.append_inj' (show ([] : Text) ++ [_] = _ ++ [_] from same) rfl).1
        exact absurd front.symm (Text.ofNat_ne_nil _)
    · next hm =>
      split at same
      · have front := (List.append_inj' (show _ ++ [_] = ([] : Text) ++ [_] from same) rfl).1
        exact absurd front (Text.ofNat_ne_nil _)
      · obtain ⟨front, last⟩ := List.append_inj' same rfl
        have quotients := ih (m / 10) (by omega) front
        have digits := Text.digit_injective (by omega) (by omega) (List.singleton_inj.mp last)
        omega

theorem closureName_injective {m n : Nat} (same : closureName m = closureName n) : m = n :=
  Text.ofNat_injective (List.append_cancel_left same)

theorem Service.text_ne_closureName (s : Service) (id : Nat) : s.text ≠ closureName id := by
  intro same
  have first := congrArg List.head? same
  have mark : (closureName id).head? = some 97 := rfl
  rw [mark] at first
  revert first
  cases s <;> decide

namespace Grammar

def Unmarked (tokens : List PlacedToken) : Prop :=
  ∀ token ∈ tokens, ∀ name, token.1 = .identifier name ∨ token.1 = .custom name →
    ∀ id, name ≠ closureName id

theorem unmarked_of_spelling {tokens : List PlacedToken} (h : tokens.all (fun token =>
    match token.1 with
    | .identifier name | .custom name => !closureMark.isPrefixOf name
    | _ => true) = true) : Unmarked tokens := by
  rintro ⟨token, pos⟩ there name spelled id rfl
  have plain := List.all_eq_true.mp h _ there
  have marked : closureMark.isPrefixOf (closureName id) = true :=
    List.isPrefixOf_iff_prefix.mpr (List.prefix_append _ _)
  rcases spelled with rfl | rfl
  · simp [marked] at plain
  · simp [marked] at plain

/-- The function of a closure: everyone may call it, its parameters are what it captures and then what
it declares, all different, and its body only uses these and its own variables. -/
structure Closes (captured declared : List Text) (f : ScriptFn) : Prop where
  params : f.params = captured ++ declared
  once : f.params.Nodup
  closed : Stmt.ScopedAll f.params f.body
  needed : ∀ x ∈ captured, .name x ∈ Mention.enclose [] (Stmt.mentionsAll f.body)
  exposed : f.access = .exposed

/-- Reading a closure among the tokens gave this literal and put this function into the table. -/
def Generates (settings : Settings) (tokens : List PlacedToken) (literal : Expr)
    (declared : List Text) (f : ScriptFn) : Prop :=
  ∃ n s t, s.rest <:+ tokens ∧ declaredParams s.rest = declared ∧
    closure (rulesAt settings n) s = .ok literal t ∧ t.functions.find? f.key = some f

variable (settings : Settings) (tokens : List PlacedToken)

/-- A closure that is mentioned has its function, which stays in the table for good. -/
def Made (s : State) : Mention → Prop
  | .closure pos name captured => ∃ declared f,
    Generates settings tokens (.closure pos name captured) declared f ∧ f.name = name ∧
      Closes captured declared f ∧ (Unmarked tokens →
        (∃ id < s.nextClosure, name = closureName id) ∧ s.functions.find? f.key = some f)
  | _ => True

def Grows (s t : State) : Prop :=
  Unmarked tokens → s.nextClosure ≤ t.nextClosure ∧ ∀ id < s.nextClosure, ∀ arity f,
    s.functions.find? ⟨closureName id, arity⟩ = some f →
      t.functions.find? ⟨closureName id, arity⟩ = some f

structure State.Sound (s : State) : Prop where
  rest : s.rest <:+ tokens
  functions : ∀ f ∈ s.functions, ∀ m ∈ Stmt.mentionsAll f.2.body, Made settings tokens s m

variable {settings tokens} {s t u : State}

namespace Grows

theorem of_same (functions : t.functions = s.functions) (next : t.nextClosure = s.nextClosure) :
    Grows tokens s t := by
  intro _
  rw [functions, next]
  exact ⟨Nat.le_refl _, fun _ _ _ _ h => h⟩

theorem trans (h : Grows tokens s t) (h' : Grows tokens t u) : Grows tokens s u := by
  intro unmarked
  obtain ⟨le, kept⟩ := h unmarked
  obtain ⟨le', kept'⟩ := h' unmarked
  refine ⟨Nat.le_trans le le', fun id old arity f found => ?_⟩
  exact kept' id (by omega) arity f (kept id old arity f found)

end Grows

theorem Made.grow {m : Mention} (h : Made settings tokens s m) (grows : Grows tokens s t) :
    Made settings tokens t m := by
  cases m with
  | closure pos name captured =>
    obtain ⟨declared, f, generates, named, closes, kept⟩ := h
    refine ⟨declared, f, generates, named, closes, fun unmarked => ?_⟩
    obtain ⟨⟨id, old, numbered⟩, found⟩ := kept unmarked
    obtain ⟨le, stays⟩ := grows unmarked
    refine ⟨⟨id, by omega, numbered⟩, ?_⟩
    have key : f.key = ⟨closureName id, f.params.length⟩ := by rw [ScriptFn.key, named, numbered]
    rw [key] at found ⊢
    exact stays id old _ f found
  | _ => trivial

theorem State.Sound.grow (h : s.Sound settings tokens) (rest : t.rest <:+ s.rest)
    (functions : t.functions = s.functions) (next : t.nextClosure = s.nextClosure) :
    t.Sound settings tokens := by
  refine ⟨rest.trans h.rest, fun f hf m hm => ?_⟩
  rw [functions] at hf
  exact (h.functions f hf m hm).grow (.of_same functions next)

theorem State.Skips.grows (h : s.Skips t) : Grows tokens s t := .of_same h.functions h.nextClosure

theorem State.Skips.sound (h : s.Skips t) (sound : s.Sound settings tokens) : t.Sound settings tokens :=
  sound.grow h.rest h.functions h.nextClosure

/-- A function is called by a name among the tokens or by a word of the language, so it is never
taken for a closure. -/
theorem functionName_unmarked {tokens : List PlacedToken} {name : Text} (within : s.rest <:+ tokens)
    (h : functionName s = .ok name t) (unmarked : Unmarked tokens) (id : Nat) :
    name ≠ closureName id := by
  obtain ⟨token, u, got, answer⟩ := bind_cases h
  have among : (∃ name, token = .identifier name ∨ token = .custom name) →
      ∃ pos, (token, pos) ∈ tokens := by
    rintro ⟨name, spelled⟩
    cases got
    refine ⟨s.current.2, within.mem ?_⟩
    unfold State.current at spelled ⊢
    cases rest : s.rest with
    | nil => simp [rest] at spelled
    | cons first later => simp
  split at answer
  · cases answer
    obtain ⟨pos, there⟩ := among ⟨_, .inl rfl⟩
    exact unmarked _ there _ (.inl rfl) id
  · cases answer
    obtain ⟨pos, there⟩ := among ⟨_, .inr rfl⟩
    exact unmarked _ there _ (.inr rfl) id
  · next word =>
    split at answer
    · next known =>
      cases answer
      intro same
      cases found : Service.ofText? name with
      | none => simp [found] at known
      | some service =>
        have spelled : service.text = name := by simpa using List.find?_some found
        exact service.text_ne_closureName id (spelled.trans same)
    · exact (fail_fails _ _ _ _ _ answer).elim
  · exact (fail_fails _ _ _ _ _ answer).elim

theorem define_sound {f : ScriptFn} (sound : s.Sound settings tokens)
    (made : ∀ m ∈ Stmt.mentionsAll f.body, Made settings tokens s m)
    (grows : Grows tokens s t) (rest : t.rest = s.rest)
    (functions : t.functions = s.functions.insert f.key f) : t.Sound settings tokens := by
  refine ⟨rest ▸ sound.rest, fun g hg m hm => ?_⟩
  rw [functions] at hg
  rcases Dict.mem_insert hg with rfl | old
  · exact (made m hm).grow grows
  · exact (sound.functions g old m hm).grow grows

theorem define_grows {f : ScriptFn} (own : Unmarked tokens → ∀ id < s.nextClosure,
    f.name ≠ closureName id) (next : s.nextClosure ≤ t.nextClosure)
    (functions : t.functions = s.functions.insert f.key f) : Grows tokens s t := by
  intro unmarked
  refine ⟨next, fun id old arity g found => ?_⟩
  have other : (⟨closureName id, arity⟩ : FnKey) ≠ f.key := by
    intro same
    exact own unmarked id old (congrArg FnKey.name same).symm
  rw [functions, Dict.find?_insert_of_ne other]
  exact found

end Grammar

end Scripting
