import Scripting.Grammar
import Scripting.Proofs.Running

/-
Parsing that succeeds: from a list of tokens that starts as the grammar wants it, exactly these
tokens are taken, whatever their places in the script, and the state of the parse is otherwise as it
was.
-/
namespace Scripting.Grammar

def Takes {α : Type} (p : Parse α) (used rest : List Token) (Q : α → Prop) : Prop :=
  ∀ (s : State) (placed later : List PlacedToken), placed.map Prod.fst = used →
    later.map Prod.fst = rest →
    ∃ a, p { s with rest := placed ++ later } = .ok a { s with rest := later } ∧ Q a

variable {α β : Type} {Q : α → Prop} {R : β → Prop} {used used' rest : List Token}

namespace Takes

theorem give {a : α} (h : Q a) : Takes (pure a) [] rest Q := by
  intro s placed later names _
  obtain rfl := List.map_eq_nil_iff.mp names
  exact ⟨a, rfl, h⟩

theorem bind {p : Parse α} {f : α → Parse β} (first : Takes p used (used' ++ rest) Q)
    (next : ∀ a, Q a → Takes (f a) used' rest R) : Takes (p >>= f) (used ++ used') rest R := by
  intro s placed later names names'
  obtain ⟨placed₁, placed₂, rfl, names₁, names₂⟩ := List.map_eq_append_iff.mp names
  obtain ⟨a, ran, ha⟩ := first s placed₁ (placed₂ ++ later) names₁
    (by rw [List.map_append, names₂, names'])
  obtain ⟨b, ran', hb⟩ := next a ha s placed₂ later names₂ names'
  exact ⟨b, by rw [List.append_assoc, bind_of_ok ran, ran'], hb⟩

theorem peek {p : Parse α} {f : α → Parse β} (first : Takes p [] (used ++ rest) Q)
    (next : ∀ a, Q a → Takes (f a) used rest R) : Takes (p >>= f) used rest R :=
  first.bind next

theorem step {p : Parse α} {f : α → Parse β} {token : Token}
    (first : Takes p [token] (used ++ rest) Q) (next : ∀ a, Q a → Takes (f a) used rest R) :
    Takes (p >>= f) (token :: used) rest R :=
  first.bind next

theorem last {p : Parse α} {f : α → Parse β} (first : Takes p used rest Q)
    (next : ∀ a, Q a → Takes (f a) [] rest R) : Takes (p >>= f) used rest R := by
  rw [← List.append_nil used]
  exact bind first next

theorem imp {Q' : α → Prop} {p : Parse α} (h : Takes p used rest Q) (hQ : ∀ a, Q a → Q' a) :
    Takes p used rest Q' := by
  intro s placed later names names'
  obtain ⟨a, ran, ha⟩ := h s placed later names names'
  exact ⟨a, ran, hQ a ha⟩

theorem map {p : Parse α} {f : α → β} (h : Takes p used rest Q) (hf : ∀ a, Q a → R (f a)) :
    Takes (f <$> p) used rest R := by
  rw [map_eq_pure_bind]
  exact h.last fun a ha => give (hf a ha)

end Takes

/-! Single tokens. -/

def starts (symbol : Symbol) : List Token → Bool
  | .symbol s :: _ => s = symbol
  | _ => false

theorem current_takes (rest : List Token) : Takes current [] rest (· = rest.headD .eof) := by
  intro s placed later names names'
  obtain rfl := List.map_eq_nil_iff.mp names
  refine ⟨_, rfl, ?_⟩
  subst names'
  cases later <;> rfl

theorem currentPos_takes (rest : List Token) : Takes currentPos [] rest (fun _ => True) := by
  intro s placed later names _
  obtain rfl := List.map_eq_nil_iff.mp names
  exact ⟨_, rfl, trivial⟩

theorem remaining_takes (rest : List Token) : Takes remaining [] rest (· = rest.length) := by
  intro s placed later names names'
  obtain rfl := List.map_eq_nil_iff.mp names
  exact ⟨_, rfl, by rw [← names', List.length_map]; rfl⟩

theorem advance_takes (token : Token) (rest : List Token) :
    Takes advance [token] rest (fun _ => True) := by
  intro s placed later names _
  obtain ⟨first, rfl⟩ := List.length_eq_one_iff.mp (by simpa using congrArg List.length names)
  exact ⟨_, rfl, trivial⟩

theorem check_takes (symbol : Symbol) (rest : List Token) :
    Takes (check symbol) [] rest (· = starts symbol rest) := by
  refine (current_takes rest).peek fun token ha => ?_
  subst ha
  cases rest with
  | nil => exact .give rfl
  | cons first rest =>
    cases first with
    | symbol s => exact .give rfl
    | _ => exact .give rfl

theorem atEnd_takes (rest : List Token) : Takes atEnd [] rest (· = (rest.headD .eof).isEof) :=
  (current_takes rest).peek fun _ ha => .give (by rw [ha])

theorem accept_takes (symbol : Symbol) (rest : List Token) :
    Takes (accept symbol) [.symbol symbol] rest (· = true) := by
  refine (check_takes symbol _).peek fun found ha => ?_
  have here : found = true := by rw [ha]; exact decide_eq_true rfl
  subst here
  exact (advance_takes _ _).step fun _ _ => .give rfl

theorem accept_other {symbol : Symbol} (other : starts symbol rest = false) :
    Takes (accept symbol) [] rest (· = false) := by
  refine (check_takes symbol _).peek fun found ha => ?_
  have here : found = false := by rw [ha]; exact other
  subst here
  exact .give rfl

theorem expect_takes (symbol : Symbol) (detail : Text) (rest : List Token) :
    Takes (expect symbol detail) [.symbol symbol] rest (fun _ => True) := by
  refine (accept_takes symbol rest).last fun found ha => ?_
  subst ha
  exact .give trivial

/-! What ends an expression and what starts one. -/

def Stops (rest : List Token) : Prop :=
  rest = [] ∨ ∃ symbol ∈ [Symbol.comma, .rightBracket, .rightBrace], ∃ more,
    rest = .symbol symbol :: more

def opens : Token → Bool
  | .integer _ | .float _ | .char _ | .string _ => true
  | .symbol s => [Symbol.kwTrue, .kwFalse, .leftParen, .leftBracket, .mapStart, .minus].contains s
  | _ => false

theorem isEof_of_opens {token : Token} (h : opens token = true) : token.isEof = false := by
  cases token with
  | eof => cases h
  | _ => rfl

theorem starts_of_opens {token : Token} (h : opens token = true) {symbol : Symbol}
    (closer : opens (.symbol symbol) = false) (rest : List Token) :
    starts symbol (token :: rest) = false := by
  cases token with
  | symbol s =>
    refine decide_eq_false ?_
    rintro rfl
    rw [h] at closer
    cases closer
  | _ => rfl

theorem nested_takes {settings : Settings} (unlimited : settings.maxDepth = 0) {p : Parse α}
    (h : Takes p used rest Q) : Takes (nested settings p) used rest Q := by
  intro s placed later names names'
  obtain ⟨a, ran, ha⟩ := h { s with depth := s.depth + 1 } placed later names names'
  refine ⟨a, ?_, ha⟩
  have shallow : ¬ (0 < settings.maxDepth ∧ settings.maxDepth ≤ s.depth) := by omega
  let here : State := { s with rest := placed ++ later }
  let deeper : State := { s with rest := placed ++ later, depth := s.depth + 1 }
  have seen : (get : Parse State) here = .ok here here := rfl
  have entered : (set deeper : Parse PUnit) here = .ok ⟨⟩ deeper := rfl
  unfold nested
  rw [bind_of_ok seen, if_neg shallow, bind_of_ok entered, bind_of_ok ran]
  rfl

end Scripting.Grammar
