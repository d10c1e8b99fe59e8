import Scripting.Proofs.Comments
import Scripting.Proofs.Progress

/-
What a source is made of: blanks, line ends and comments between tokens, and the texts of the tokens.
Nothing here depends on places. A line end is lost where the reader takes it for something else: in a
comment behind a slash or a star, and in a faulty literal.
-/
namespace Scripting

namespace Position

@[simp]
theorem line_advance (p : Position) : p.advance.line = p.line := by
  unfold advance
  split <;> rfl

@[simp]
theorem line_back (p : Position) : p.back.line = p.line := by
  unfold back
  split <;> rfl

@[simp]
theorem line_advanceBy (p : Position) (n : Nat) : (p.advanceBy n).line = p.line := by
  induction n generalizing p with
  | zero => rfl
  | succ n ih => rw [advanceBy, ih, line_advance]

/-- From one place to another over a text: on the same line, and as far as the text is long unless it
has a line end in it. -/
structure Over (p : Position) (text : List CodePoint) (q : Position) : Prop where
  line : q.line = p.line
  place : Literal.newline ∉ text → q = p.advanceBy text.length

theorem over_advanceBy (p : Position) (text : List CodePoint) :
    p.Over text (p.advanceBy text.length) := ⟨line_advanceBy p _, fun _ => rfl⟩

theorem Over.cons {p q : Position} {c : CodePoint} {text : List CodePoint}
    (h : p.advance.Over text q) : p.Over (c :: text) q where
  line := h.line.trans (line_advance p)
  place clean := h.place fun inside => clean (List.mem_cons_of_mem c inside)

end Position

namespace Literal

/-- Reading that takes the front of the input, wherever it stands, and no line end if all is well. -/
structure Steady {α : Type} (input : List CodePoint) (read : Position → Reading α)
    (text : List CodePoint) (result : Except LexError α) (rest : List CodePoint) : Prop where
  split : input = text ++ rest
  gives : ∀ pos, (read pos).result = result
  leaves : ∀ pos, (read pos).rest = rest
  across : ∀ pos : Position, pos.Over text (read pos).pos
  clean : ∀ found, result = .ok found → newline ∉ text

theorem steady_fault (α : Type) (c : CodePoint) (rest : List CodePoint) (e : LexError) :
    Steady (c :: rest) (fun pos => (⟨.error e, pos.advance, rest⟩ : Reading α)) [c] (.error e) rest where
  split := rfl
  gives _ := rfl
  leaves _ := rfl
  across pos := pos.over_advanceBy [c]
  clean _ good := by cases good

theorem Steady.cons {α : Type} {c : CodePoint} (plain : c ≠ newline) {input text rest : List CodePoint}
    {read : Position → Reading α} {result : Except LexError α}
    (h : Steady input read text result rest) :
    Steady (c :: input) (fun pos => read pos.advance) (c :: text) result rest where
  split := congrArg _ h.split
  gives pos := h.gives pos.advance
  leaves pos := h.leaves pos.advance
  across pos := (h.across pos.advance).cons
  clean found good inside := by
    rcases List.mem_cons.mp inside with same | later
    · exact plain same.symm
    · exact h.clean found good later

variable (limit : Nat) {quote : CodePoint} (proper : quote ≠ newline)
include proper

theorem readFrom_steady {σ α : Type} (sink : Sink σ α) (phase : Phase) (found : σ)
    (input : List CodePoint) : ∃ text result rest,
      Steady input (fun pos => readFrom sink limit quote phase found pos input) text result rest := by
  -- a fault stops behind the character; where reading goes on, the character is no line end
  induction input generalizing phase found with
  | nil =>
    have across (pos : Position) : pos.Over [] pos := ⟨rfl, fun _ => rfl⟩
    cases phase <;>
      exact ⟨[], _, [], rfl, fun _ => rfl, fun _ => rfl, across, fun _ good => by cases good⟩
  | cons c rest ih =>
    have fault (e : LexError) := steady_fault α c rest e
    cases phase with
    | numeric left value seen =>
      simp only [readFrom]
      cases digit : hexDigit? c with
      | none => exact ⟨_, _, _, fault _⟩
      | some d =>
        have plain : c ≠ newline := by
          rintro rfl
          cases digit
        dsimp only
        split
        · obtain ⟨text, result, later, steady⟩ := ih _ _
          exact ⟨_, _, _, steady.cons plain⟩
        · split
          · obtain ⟨text, result, later, steady⟩ := ih _ _
            exact ⟨_, _, _, steady.cons plain⟩
          · exact ⟨_, _, _, fault _⟩
    | escape =>
      simp only [readFrom]
      split
      · exact ⟨_, _, _, fault _⟩
      · cases digits : escapeDigits? c with
        | some n =>
          have plain : c ≠ newline := by
            rintro rfl
            cases digits
          obtain ⟨text, result, later, steady⟩ := ih _ _
          exact ⟨_, _, _, steady.cons plain⟩
        | none =>
          cases char : escapeChar? quote c with
          | none => exact ⟨_, _, _, fault _⟩
          | some e =>
            have plain : c ≠ newline := by
              rintro rfl
              rw [escapeChar?, if_neg (by decide), if_neg (by decide), if_neg (by decide),
                if_neg (by decide), if_neg proper.symm] at char
              cases char
            obtain ⟨text, result, later, steady⟩ := ih _ _
            exact ⟨_, _, _, steady.cons plain⟩
    | plain =>
      simp only [readFrom]
      split
      · exact ⟨_, _, _, fault _⟩
      · split
        · next escape =>
          have plain : c ≠ newline := by
            rintro rfl
            cases escape
          obtain ⟨text, result, later, steady⟩ := ih _ _
          exact ⟨_, _, _, steady.cons plain⟩
        · split
          · next closing =>
            refine ⟨[c], _, rest, rfl, fun _ => rfl, fun _ => rfl,
              fun pos => pos.over_advanceBy [c], fun _ _ inside => ?_⟩
            exact proper (closing.symm.trans (List.mem_singleton.mp inside).symm)
          · split
            · next lineEnd =>
              refine ⟨[c], _, rest, rfl, fun _ => rfl, fun _ => rfl,
                fun pos => ⟨by simp, fun clean => ?_⟩, fun _ good => by cases good⟩
              exact absurd (List.mem_singleton.mpr lineEnd.symm) clean
            · next plain =>
              obtain ⟨text, result, later, steady⟩ := ih _ _
              exact ⟨_, _, _, steady.cons plain⟩

end Literal

namespace Scan

open Literal (newline)

/-- The first character belongs to a token: it is no blank and no line end, and begins no comment. -/
def Opens : List CodePoint → Prop
  | [] => False
  | c :: rest => c ≠ newline ∧ isBlank c = false ∧
    (c = slash → rest.head? ≠ some slash ∧ rest.head? ≠ some star)

/-- The token at the start of the input, with the text that is read for it. -/
structure Lexeme (state : ScanState) (input text : List CodePoint) (token : Token)
    (rest : List CodePoint) : Prop where
  opens : Opens input
  split : input = text ++ rest
  reads : ∀ pos, ∃ start after, nextFrom state pos input = ⟨some (token, start), state, after, rest⟩

def signOf : List CodePoint → List CodePoint
  | c :: d :: _ => if c = minus ∧ isDigit d then [minus] else []
  | _ => []

theorem starts_nothing {c : CodePoint} (h : isBlank c = true) :
    isDigit c = false ∧ (isLetter c || c == underscore) = false ∧ c ≠ doubleQuote ∧
      c ≠ singleQuote := by
  simp only [isBlank, List.contains_cons, List.contains_nil, Bool.or_eq_true, beq_iff_eq,
    Bool.or_false, Bool.and_eq_true, decide_eq_true_eq] at h
  rcases h with named | ⟨low, high⟩
  · rcases named with rfl | rfl | rfl | rfl | rfl | rfl | rfl | rfl | rfl | rfl | rfl | rfl | rfl <;>
      decide
  · have wide : 0x2000 ≤ c.toNat := UInt32.le_iff_toNat_le.mp low
    have ne {d : CodePoint} (small : d.toNat < 0x2000) : c ≠ d := by
      rintro rfl
      omega
    refine ⟨?_, ?_, ne (by decide), ne (by decide)⟩
    · simp [isDigit, UInt32.le_iff_toNat_le]
      omega
    · rw [Bool.or_eq_false_iff]
      refine ⟨?_, by simpa using ne (d := underscore) (by decide)⟩
      simp [isLetter, UInt32.le_iff_toNat_le]
      omega

theorem numberText_split (first : CodePoint) (input : List CodePoint) :
    ∃ tail, (numberText first input).chars = first :: tail ∧
      input = tail ++ (numberText first input).rest ∧ newline ∉ tail := by
  have unread (p : CodePoint → Bool) (no : p newline = false) (cs : List CodePoint) :
      newline ∉ cs.takeWhile p := by
    intro inside
    have yes := List.all_eq_true.mp List.all_takeWhile _ inside
    rw [no] at yes
    cases yes
  have front := unread (fun c => isDigit c || c == underscore || c == point) rfl input
  have all := (List.takeWhile_append_dropWhile
    (p := fun c => isDigit c || c == underscore || c == point) (l := input)).symm
  unfold numberText
  dsimp only
  split
  · exact ⟨_, rfl, all, front⟩
  · next letter tail left =>
    split
    · exact ⟨_, rfl, all, front⟩
    · next radix found =>
      have letterPlain : letter ≠ newline := by
        rintro rfl
        rw [show radix? newline = none from rfl, ite_self] at found
        cases found
      have back := unread (fun c => isRadixDigit radix c || c == underscore) rfl tail
      rw [left] at all
      refine ⟨_, List.cons_append, ?_, ?_⟩
      · rw [List.append_assoc, List.cons_append, List.takeWhile_append_dropWhile]
        exact all
      · simp only [List.mem_append, List.mem_cons, not_or]
        exact ⟨front, letterPlain.symm, back⟩

/-- What the reader makes of the start of a token does not depend on the place: it takes a text of the
input and comes to the place behind it, but for line ends in it; these are in faulty literals only. -/
structure Taken (state : ScanState) (input text : List CodePoint) (token : Token)
    (rest : List CodePoint) : Prop where
  split : input = text ++ rest
  reads : ∀ pos, ∃ start after,
    nextFrom state pos input = ⟨some (token, start), state, after, rest⟩ ∧ pos.Over text after ∧
      ((∀ e, token ≠ .fault e) → start = (pos.advanceBy (signOf text).length).advance)
  clean : (∀ e, token ≠ .fault e) → newline ∉ text

variable (state : ScanState)

theorem signOf_of_ne {c : CodePoint} (h : c ≠ minus) (tail : List CodePoint) :
    signOf (c :: tail) = [] := by
  cases tail with
  | nil => rfl
  | cons d rest => simp [signOf, h]

theorem over_tail (pos : Position) (c : CodePoint) (tail : List CodePoint) :
    pos.Over (c :: tail) (pos.advance.advanceBy tail.length) :=
  (pos.advance.over_advanceBy tail).cons

theorem number_taken {c : CodePoint} (digit : isDigit c = true) (rest : List CodePoint) :
    Taken state (c :: rest) (numberText c rest).chars (numberToken false (numberText c rest))
      (numberText c rest).rest := by
  have plain : c ≠ newline := by
    rintro rfl
    cases digit
  have noSign : c ≠ minus := by
    rintro rfl
    cases digit
  obtain ⟨tail, chars, split, clean⟩ := numberText_split c rest
  rw [chars]
  refine ⟨congrArg _ split, fun pos => ?_, fun _ => ?_⟩
  · refine ⟨_, _, ?_, over_tail pos c tail, fun _ => rfl⟩
    rw [nextFrom, if_neg plain, if_pos digit, numberStep, chars, signOf_of_ne noSign]
    rfl
  · simp [plain.symm, clean]

theorem word_taken {c : CodePoint} (digit : ¬ isDigit c = true)
    (word : (isLetter c || c == underscore) = true) (rest : List CodePoint) :
    Taken state (c :: rest) (c :: rest.takeWhile isWordChar)
      (wordToken (ascii (c :: rest.takeWhile isWordChar))) (rest.dropWhile isWordChar) := by
  have plain : c ≠ newline := by
    rintro rfl
    cases word
  have noSign : c ≠ minus := by
    rintro rfl
    cases word
  refine ⟨by simp, fun pos => ?_, fun _ inside => ?_⟩
  · refine ⟨_, _, ?_, over_tail pos c _, fun _ => rfl⟩
    rw [nextFrom, if_neg plain, if_neg digit, if_pos word, wordStep, signOf_of_ne noSign]
    rfl
  · rcases List.mem_cons.mp inside with same | inside
    · exact plain same.symm
    · have word := List.all_eq_true.mp List.all_takeWhile _ inside
      cases word

theorem literal_taken {quote : CodePoint} (proper : quote ≠ newline) (noSign : quote ≠ minus)
    {input : List CodePoint} {step : Position → List CodePoint → Step}
    (starts : ∀ pos, nextFrom state pos (quote :: input) = step pos.advance input)
    (token : Except LexError (List CodePoint) → Token)
    (faulty : ∀ result, (∀ e, token result ≠ .fault e) → ∃ chars, result = .ok chars)
    (makes : ∀ pos, let reading := Literal.read state.maxString quote pos input
      ∃ start,
        step pos input = ⟨some (token reading.result, start), state, reading.pos, reading.rest⟩ ∧
        ((∀ e, token reading.result ≠ .fault e) → start = pos)) :
    ∃ text token later, Taken state (quote :: input) text token later := by
  obtain ⟨text, result, later, steady⟩ :=
    Literal.readFrom_steady state.maxString proper (.chars state.maxString) .plain [] input
  refine ⟨quote :: text, token result, later, congrArg _ steady.split, fun pos => ?_, fun good => ?_⟩
  · obtain ⟨start, made, placed⟩ := makes pos.advance
    dsimp only [Literal.read] at made placed
    rw [steady.gives] at made placed
    rw [steady.leaves] at made
    refine ⟨start, _, (starts pos).trans made, (steady.across pos.advance).cons, fun good => ?_⟩
    rw [signOf_of_ne noSign]
    exact placed good
  · obtain ⟨chars, read⟩ := faulty result good
    have clean := steady.clean chars read
    simpa using ⟨proper.symm, clean⟩

def stringToken : Except LexError (List CodePoint) → Token
  | .ok chars => .string (Utf8.encodeAll chars)
  | .error e => .fault e

theorem string_taken (rest : List CodePoint) :
    ∃ text token later, Taken state (doubleQuote :: rest) text token later := by
  have starts (pos : Position) : nextFrom state pos (doubleQuote :: rest) =
      stringStep state pos.advance rest := by
    rw [nextFrom, if_neg (by decide), if_neg (by decide), if_neg (by decide), if_pos rfl]
  refine literal_taken state (by decide) (by decide) starts stringToken ?_ ?_
  · rintro (e | chars) good
    · exact absurd rfl (good e)
    · exact ⟨chars, rfl⟩
  · intro pos reading
    unfold stringStep
    change ∃ start, Step.mk (some _) state reading.pos reading.rest = _ ∧ _
    cases reading.result with
    | ok chars => exact ⟨pos, rfl, fun _ => rfl⟩
    | error e => exact ⟨reading.pos, rfl, fun good => absurd rfl (good e)⟩

def charToken : Except LexError (List CodePoint) → Token
  | .ok [c] => .char c
  | .ok chars => .fault { fault := .malformedChar, text := Utf8.encodeAll chars }
  | .error e => .fault e

theorem char_taken (rest : List CodePoint) :
    ∃ text token later, Taken state (singleQuote :: rest) text token later := by
  have starts (pos : Position) : nextFrom state pos (singleQuote :: rest) =
      charStep state pos.advance rest := by
    rw [nextFrom, if_neg (by decide), if_neg (by decide), if_neg (by decide), if_neg (by decide),
      if_pos rfl]
  by_cases empty : rest.head? = some singleQuote
  -- the second quote is left where it is, and opens the next literal
  · refine ⟨[singleQuote], .fault { fault := .malformedChar }, rest, rfl, fun pos => ?_,
      fun _ => by decide⟩
    refine ⟨_, _, ?_, over_tail pos singleQuote [], fun _ => rfl⟩
    rw [starts, charStep, if_pos empty]
    rfl
  · refine literal_taken state (by decide) (by decide) starts charToken ?_ ?_
    · rintro (e | chars) good
      · exact absurd rfl (good e)
      · exact ⟨chars, rfl⟩
    · intro pos reading
      unfold charStep
      rw [if_neg empty]
      change ∃ start, Step.mk (some _) state reading.pos reading.rest = _ ∧ _
      rcases reading.result with e | (_ | ⟨c, _ | ⟨d, more⟩⟩)
      · exact ⟨reading.pos, rfl, fun good => absurd rfl (good e)⟩
      · exact ⟨pos, rfl, fun _ => rfl⟩
      · exact ⟨pos, rfl, fun _ => rfl⟩
      · exact ⟨pos, rfl, fun _ => rfl⟩

theorem sign_text {input : List CodePoint} {sign : String} (h : sign? input = some sign) :
    ∃ first tail later, input = first :: tail ++ later ∧ sign.length = tail.length + 1 ∧
      newline ∉ first :: tail ∧ signOf (first :: tail) = [] := by
  have known : ∀ sign ∈ signs, signChars sign ≠ [] ∧ newline ∉ signChars sign ∧
      signOf (signChars sign) = [] := by decide +kernel
  obtain ⟨filled, clean, noSign⟩ := known sign (List.mem_of_find?_eq_some h)
  have size : (signChars sign).length = sign.length := by
    rw [signChars, List.length_map, String.length_toList]
  have front := List.find?_some h
  rw [List.isPrefixOf_iff_prefix] at front
  obtain ⟨later, rfl⟩ := front
  obtain ⟨first, tail, chars⟩ := List.exists_cons_of_ne_nil filled
  rw [chars] at size clean noSign ⊢
  exact ⟨first, tail, later, rfl, size.symm, clean, noSign⟩

theorem sign_taken {c : CodePoint} (rest : List CodePoint)
    (starts : ∀ pos, nextFrom state pos (c :: rest) = signStep state pos.advance c rest)
    (plain : c ≠ newline) : ∃ text token later, Taken state (c :: rest) text token later := by
  cases found : sign? (c :: rest) with
  | none =>
    refine ⟨[c], .fault { fault := .unexpectedInput, text := Utf8.encode c }, rest, rfl,
      fun pos => ?_, fun _ => by simpa using plain.symm⟩
    refine ⟨pos.advance, _, ?_, over_tail pos c [], fun good => absurd rfl (good _)⟩
    rw [starts, signStep, found]
    rfl
  | some sign =>
    obtain ⟨first, tail, later, split, size, clean, noSign⟩ := sign_text found
    obtain ⟨rfl, rfl⟩ := List.cons.inj split
    refine ⟨c :: tail, signToken state.afterOperand sign, later, rfl, fun pos => ?_, fun _ => clean⟩
    refine ⟨pos.advance, _, ?_, over_tail pos c tail, fun _ => by rw [noSign]; rfl⟩
    rw [starts, signStep, found]
    simp only [size, Nat.add_sub_cancel]
    exact congrArg _ (List.drop_left' rfl)

theorem negative_taken {rest : List CodePoint} (fresh : state.afterOperand = false)
    (digits : startsWithDigit rest = true) :
    ∃ text token later, Taken state (minus :: rest) text token later := by
  cases rest with
  | nil => cases digits
  | cons d rest =>
    obtain ⟨tail, chars, split, clean⟩ := numberText_split d rest
    have plain : d ≠ newline := by
      rintro rfl
      cases digits
    have sign : signOf (minus :: d :: tail) = [minus] := by
      rw [signOf, if_pos ⟨rfl, digits⟩]
    refine ⟨minus :: d :: tail, numberToken true (numberText d rest), (numberText d rest).rest, ?_,
      fun pos => ?_, fun _ => ?_⟩
    · exact congrArg (fun l => minus :: d :: l) split
    · refine ⟨_, _, ?_, (over_tail pos.advance d tail).cons, fun _ => rfl⟩
      rw [nextFrom, if_neg (by decide), if_neg (by decide), if_neg (by decide), if_neg (by decide),
        if_neg (by decide), if_neg (by decide), if_pos (by simp [fresh, digits]), numberStep]
      simp only [List.headD_cons, List.tail_cons, chars, sign]
      rfl
    · simpa using ⟨by decide, plain.symm, clean⟩

theorem taken_of_opens {input : List CodePoint} (h : Opens input) :
    ∃ text token rest, Taken state input text token rest := by
  cases input with
  | nil => exact h.elim
  | cons c rest =>
    obtain ⟨plain, visible, comment⟩ := h
    by_cases digit : isDigit c = true
    · exact ⟨_, _, _, number_taken state digit rest⟩
    by_cases word : (isLetter c || c == underscore) = true
    · exact ⟨_, _, _, word_taken state digit word rest⟩
    by_cases double : c = doubleQuote
    · exact double ▸ string_taken state rest
    by_cases single : c = singleQuote
    · exact single ▸ char_taken state rest
    by_cases negative : (c == minus && !state.afterOperand && startsWithDigit rest) = true
    · simp only [Bool.and_eq_true, beq_iff_eq, Bool.not_eq_true'] at negative
      obtain ⟨⟨rfl, fresh⟩, digits⟩ := negative
      exact negative_taken state fresh digits
    · refine sign_taken state rest (fun pos => ?_) plain
      rw [nextFrom, if_neg plain, if_neg digit, if_neg word, if_neg double, if_neg single,
        if_neg (by simp [visible]), if_neg negative, if_neg fun h => (comment h.1).1 h.2,
        if_neg fun h => (comment h.1).2 h.2]

end Scan

end Scripting
