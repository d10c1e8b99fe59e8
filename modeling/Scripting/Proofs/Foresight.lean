import Mathlib.Data.List.Find
import Scripting.Proofs.Places
import Scripting.Proofs.RoundTrip.Tokens

/-
How far a reader looks ahead. It takes a token, and the comments before it, without regard to what comes
later than two characters behind it: where so much is left, more input at the end only adds to what is
left.
-/
namespace Scripting

namespace Literal

theorem readFrom_append {σ α : Type} {sink : Sink σ α} {limit : Nat} {quote : CodePoint} {phase : Phase}
    {found : σ} {pos : Position} {input : List CodePoint}
    (more : (readFrom sink limit quote phase found pos input).rest ≠ []) (later : List CodePoint) :
    readFrom sink limit quote phase found pos (input ++ later) =
      { readFrom sink limit quote phase found pos input with
        rest := (readFrom sink limit quote phase found pos input).rest ++ later } := by
  -- a character is looked at by itself; where reading goes on, so it does in front of more input
  induction input generalizing phase found pos with
  | nil => cases phase <;> exact absurd rfl more
  | cons c rest ih =>
    cases phase with
    | numeric left value seen =>
      simp only [List.cons_append, readFrom] at more ⊢
      cases digit : hexDigit? c with
      | none => rfl
      | some d =>
        simp only [digit] at more ⊢
        split_ifs at more ⊢
        · exact ih more
        · exact ih more
        · rfl
    | escape =>
      simp only [List.cons_append, readFrom] at more ⊢
      split_ifs at more ⊢
      · rfl
      · cases digits : escapeDigits? c with
        | some n =>
          simp only [digits] at more ⊢
          exact ih more
        | none =>
          cases char : escapeChar? quote c with
          | some e =>
            simp only [digits, char] at more ⊢
            exact ih more
          | none => rfl
    | plain =>
      simp only [List.cons_append, readFrom] at more ⊢
      split_ifs at more ⊢
      · rfl
      · exact ih more
      · rfl
      · rfl
      · exact ih more

end Literal

namespace Scan

open Literal (newline)

def Step.before (step : Step) (later : List CodePoint) : Step := { step with rest := step.rest ++ later }

theorem Step.remember_before (step : Step) (later : List CodePoint) :
    (step.before later).remember = step.remember.before later := by
  unfold Step.remember Step.before
  dsimp only
  split <;> rfl

theorem Step.remember_rest (step : Step) : step.remember.rest = step.rest := by
  unfold Step.remember
  split <;> rfl

variable {input : List CodePoint} {state : ScanState} {pos : Position}

/-! ### The tokens -/

theorem dropWhile_append {p : CodePoint → Bool} (more : input.dropWhile p ≠ []) (later : List CodePoint) :
    (input ++ later).takeWhile p = input.takeWhile p ∧
      (input ++ later).dropWhile p = input.dropWhile p ++ later := by
  have all : ∀ c ∈ input.takeWhile p, p c = true := List.all_eq_true.mp List.all_takeWhile
  have stops : ∀ c ∈ (input.dropWhile p ++ later).head?, p c = false := by
    obtain ⟨c, rest, split⟩ := List.exists_cons_of_ne_nil more
    intro d head
    rw [split, List.cons_append, List.head?_cons, Option.mem_some_iff] at head
    have first := List.head_dropWhile_not p more
    simp only [split, List.head_cons] at first
    exact head ▸ first
  have split := List.takeWhile_append_dropWhile (p := p) (l := input)
  have both := takeWhile_stops all stops
  rwa [← List.append_assoc, split] at both

theorem numberText_append {first : CodePoint} (more : (numberText first input).rest ≠ [])
    (later : List CodePoint) : numberText first (input ++ later) =
      { numberText first input with rest := (numberText first input).rest ++ later } := by
  have stop : input.dropWhile (fun c => isDigit c || c == underscore || c == point) ≠ [] := by
    intro none
    refine more ?_
    simp [numberText, none]
  obtain ⟨front, rest⟩ := dropWhile_append stop later
  obtain ⟨letter, tail, split⟩ := List.exists_cons_of_ne_nil stop
  unfold numberText at more ⊢
  simp only [front, rest, split, List.cons_append] at more ⊢
  cases radix : (if first = 48 then radix? letter else none) with
  | none => simp
  | some n =>
    simp only [radix] at more ⊢
    obtain ⟨digits, behind⟩ := dropWhile_append more later
    simp [digits, behind]

theorem charStep_append (more : (charStep state pos input).rest ≠ []) (later : List CodePoint) :
    charStep state pos (input ++ later) = (charStep state pos input).before later := by
  have filled : input ≠ [] := by
    rintro rfl
    exact more (List.suffix_nil.mp (charStep_rest_suffix state pos []))
  have head : (input ++ later).head? = input.head? := List.head?_append_of_ne_nil _ filled
  unfold charStep at more ⊢
  rw [head]
  split
  · rfl
  · next other =>
    rw [if_neg other] at more
    unfold Literal.read at more ⊢
    rw [Literal.readFrom_append more]
    rfl

theorem sign?_before (three : 3 ≤ input.length) (later : List CodePoint) :
    sign? (input ++ later) = sign? input := by
  have short : ∀ s ∈ signs, (signChars s).length ≤ 3 := by decide +kernel
  unfold sign?
  refine List.find?_congr fun s mem => ?_
  rw [Bool.eq_iff_iff, List.isPrefixOf_iff_prefix, List.isPrefixOf_iff_prefix]
  constructor
  · exact fun whole => List.prefix_of_prefix_length_le whole (List.prefix_append _ _)
      (Nat.le_trans (short s mem) three)
  · exact fun part => part.trans (List.prefix_append _ _)

theorem signStep_append {c : CodePoint} (more : 2 ≤ input.length) (later : List CodePoint) :
    signStep state pos c (input ++ later) = (signStep state pos c input).before later := by
  have three : 3 ≤ (c :: input).length := by simpa using more
  have same : sign? (c :: (input ++ later)) = sign? (c :: input) := sign?_before three later
  unfold signStep
  rw [same]
  cases found : sign? (c :: input) with
  | none => rfl
  | some sign =>
    have short : ∀ s ∈ signs, s.length - 1 ≤ 2 := by decide +kernel
    have extra := short sign (List.mem_of_find?_eq_some found)
    simp only [Step.before]
    rw [List.drop_append_of_le_length (by omega)]

/-! ### The comments -/

theorem lineComment_append {text : Text} (more : (lineComment text pos input).rest ≠ [])
    (later : List CodePoint) : lineComment text pos (input ++ later) =
      { lineComment text pos input with rest := (lineComment text pos input).rest ++ later } := by
  fun_induction lineComment text pos input <;> simp_all [lineComment]

/-- Anything left behind a block comment is so because the comment has ended. -/
theorem blockComment_closed {level : Nat} (inside : level ≠ 0) {text : Text}
    (more : (blockComment level text pos input).rest ≠ []) :
    (blockComment level text pos input).level = 0 := by
  obtain ⟨sameLevel, sameRest⟩ := blockComment_extent level text pos input
  rw [sameLevel, extent_level]
  refine (extent_ends level (pairs input) (Nat.pos_of_ne_zero inside)).last.resolve_right fun none => ?_
  rw [sameRest, none] at more
  exact more rfl

theorem blockComment_append {level : Nat} {text : Text} (inside : level ≠ 0)
    (closed : (blockComment level text pos input).level = 0) (later : List CodePoint) :
    blockComment level text pos (input ++ later) =
      { blockComment level text pos input with
        rest := (blockComment level text pos input).rest ++ later } := by
  fun_induction blockComment level text pos input with
  | case1 level text pos => exact absurd closed inside
  | case2 level text pos c pos' text' pair => exact absurd closed inside
  | case3 level text pos c pos' text' pair d rest text'' deeper ended =>
    rw [List.cons_append, List.cons_append, blockComment, if_pos pair]
    exact if_pos ended
  | case4 level text pos c pos' text' pair d rest text'' deeper still ih =>
    rw [List.cons_append, List.cons_append, blockComment, if_pos pair]
    exact (if_neg still).trans (ih still closed)
  | case5 text pos c rest pos' text' single => exact absurd rfl inside
  | case6 level text pos c rest pos' text' single still ih =>
    rw [List.cons_append, blockComment.eq_def]
    exact ((if_neg single).trans (if_neg still)).trans (ih still closed)

/-! ### What an input begins with -/

inductive Begins : List CodePoint → Prop where
  | nothing : Begins []
  | lineEnd {rest : List CodePoint} : Begins (newline :: rest)
  | blank {c : CodePoint} {rest : List CodePoint} (plain : c ≠ newline) (blank : isBlank c = true) :
      Begins (c :: rest)
  | line {rest : List CodePoint} : Begins (slash :: slash :: rest)
  | block {rest : List CodePoint} : Begins (slash :: star :: rest)
  | token {input : List CodePoint} (opens : Opens input) : Begins input

theorem begins (input : List CodePoint) : Begins input := by
  cases input with
  | nil => exact .nothing
  | cons c rest =>
    by_cases lineEnd : c = newline
    · exact lineEnd ▸ .lineEnd
    by_cases blank : isBlank c = true
    · exact .blank lineEnd blank
    by_cases comment : c = slash ∧ (rest.head? = some slash ∨ rest.head? = some star)
    · obtain ⟨rfl, head | head⟩ := comment
      · obtain ⟨later, rfl⟩ := List.head?_eq_some_iff.mp head
        exact .line
      · obtain ⟨later, rfl⟩ := List.head?_eq_some_iff.mp head
        exact .block
    · exact .token ⟨lineEnd, by simpa using blank,
        fun same => ⟨fun h => comment ⟨same, .inl h⟩, fun h => comment ⟨same, .inr h⟩⟩⟩

theorem nextFrom_lineEnd (state : ScanState) (pos : Position) (rest : List CodePoint) :
    nextFrom state pos (newline :: rest) = nextFrom state pos.advance.newLine rest := by
  rw [nextFrom, if_pos rfl]

theorem nextFrom_isBlank {c : CodePoint} (plain : c ≠ newline) (blank : isBlank c = true)
    (state : ScanState) (pos : Position) (rest : List CodePoint) :
    nextFrom state pos (c :: rest) = nextFrom state pos.advance rest := by
  obtain ⟨digit, word, double, single⟩ := starts_nothing blank
  rw [nextFrom, if_neg plain, if_neg (by simp [digit]), if_neg (by simp [word]), if_neg double,
    if_neg single, if_pos blank]

/-! ### The reader -/

theorem opens_append (opens : Opens input) (more : 2 ≤ (nextFrom state pos input).rest.length)
    (later : List CodePoint) :
    nextFrom state pos (input ++ later) = (nextFrom state pos input).before later := by
  have filled {rest : List CodePoint} (many : 2 ≤ rest.length) : rest ≠ [] := by
    rintro rfl
    simp at many
  have whole := (nextFrom_takes state pos input).rest.length_le
  match input with
  | [] => exact opens.elim
  | [c] =>
    simp only [List.length_singleton] at whole
    omega
  | c :: d :: tail =>
    obtain ⟨plain, visible, comment⟩ := opens
    by_cases digit : isDigit c = true
    · have eq (rest : List CodePoint) : nextFrom state pos (c :: rest) =
          numberStep state pos.advance false c rest := by rw [nextFrom, if_neg plain, if_pos digit]
      rw [eq] at more
      rw [List.cons_append, eq, eq]
      unfold numberStep
      rw [numberText_append (filled more)]
      rfl
    by_cases word : (isLetter c || c == underscore) = true
    · have eq (rest : List CodePoint) : nextFrom state pos (c :: rest) =
          wordStep state pos.advance c rest := by
        rw [nextFrom, if_neg plain, if_neg digit, if_pos word]
      rw [eq] at more
      rw [List.cons_append, eq, eq]
      obtain ⟨front, rest⟩ := dropWhile_append (p := isWordChar) (filled more) later
      unfold wordStep
      rw [front, rest]
      rfl
    by_cases double : c = doubleQuote
    · have eq (rest : List CodePoint) : nextFrom state pos (c :: rest) =
          stringStep state pos.advance rest := by
        rw [nextFrom, if_neg plain, if_neg digit, if_neg word, if_pos double]
      rw [eq] at more
      rw [List.cons_append, eq, eq]
      unfold stringStep Literal.read
      rw [Literal.readFrom_append (filled more)]
      rfl
    by_cases single : c = singleQuote
    · have eq (rest : List CodePoint) : nextFrom state pos (c :: rest) =
          charStep state pos.advance rest := by
        rw [nextFrom, if_neg plain, if_neg digit, if_neg word, if_neg double, if_pos single]
      rw [eq] at more
      rw [List.cons_append, eq, eq]
      exact charStep_append (filled more) later
    -- Whether a sign belongs to a number, or a slash to a comment, is seen from one more character.
    by_cases negative : (c == minus && !state.afterOperand && isDigit d) = true
    · have eq (rest : List CodePoint) : nextFrom state pos (c :: d :: rest) =
          numberStep state pos.advance.advance true d rest := by
        rw [nextFrom, if_neg plain, if_neg digit, if_neg word, if_neg double, if_neg single,
          if_neg (by simp [visible])]
        exact if_pos negative
      rw [eq] at more
      rw [List.cons_append, List.cons_append, eq, eq]
      unfold numberStep
      rw [numberText_append (filled more)]
      rfl
    · have eq (rest : List CodePoint) : nextFrom state pos (c :: d :: rest) =
          signStep state pos.advance c (d :: rest) := by
        rw [nextFrom, if_neg plain, if_neg digit, if_neg word, if_neg double, if_neg single,
          if_neg (by simp [visible]), if_neg (by exact negative), if_neg fun h => (comment h.1).1 h.2,
          if_neg fun h => (comment h.1).2 h.2]
      rw [eq] at more
      rw [List.cons_append, List.cons_append, eq, eq, ← List.cons_append]
      exact signStep_append (more.trans (signStep_rest_suffix _ _ _ _).length_le) later

theorem afterComment_rest_suffix (state : ScanState) (start : Position) (found : CommentEnd) :
    (afterComment state start found).rest <:+ found.rest := by
  unfold afterComment
  dsimp only
  split
  · exact List.suffix_rfl
  · exact (nextFrom_takes _ _ _).rest

theorem afterComment_append {start : Position} {found : CommentEnd} (closed : found.level = 0)
    (more : 2 ≤ (afterComment state start found).rest.length) {later : List CodePoint}
    (further : ∀ state : ScanState, state.commentLevel = 0 →
      2 ≤ (nextFrom state found.pos found.rest).rest.length →
      nextFrom state found.pos (found.rest ++ later) = (nextFrom state found.pos found.rest).before later) :
    afterComment state start { found with rest := found.rest ++ later } =
      (afterComment state start found).before later := by
  unfold afterComment at more ⊢
  dsimp only at more ⊢
  split
  · rfl
  · next skipped =>
    rw [if_neg skipped] at more
    exact further _ closed more

/-- A reader that leaves two characters does not look any further. -/
theorem nextFrom_append (outside : state.commentLevel = 0)
    (more : 2 ≤ (nextFrom state pos input).rest.length) (later : List CodePoint) :
    nextFrom state pos (input ++ later) = (nextFrom state pos input).before later := by
  -- by the length of the input, of which blanks, line ends and comments take some
  induction size : input.length using Nat.strongRecOn generalizing state pos input with
  | ind size ih =>
    subst size
    have filled {found : CommentEnd} {start : Position}
        (many : 2 ≤ (afterComment state start found).rest.length) : found.rest ≠ [] := by
      have within := (afterComment_rest_suffix state start found).length_le
      intro none
      simp only [none, List.length_nil] at within
      omega
    cases begins input with
    | nothing =>
      rw [nextFrom] at more
      simp [endStep] at more
    | @lineEnd rest =>
      rw [nextFrom_lineEnd] at more
      rw [List.cons_append, nextFrom_lineEnd, nextFrom_lineEnd]
      exact ih _ (Nat.lt_succ_self _) outside more rfl
    | @blank c rest plain blank =>
      rw [nextFrom_isBlank plain blank] at more
      rw [List.cons_append, nextFrom_isBlank plain blank, nextFrom_isBlank plain blank]
      exact ih _ (Nat.lt_succ_self _) outside more rfl
    | @line rest =>
      rw [nextFrom_lineComment state outside] at more
      rw [List.cons_append, List.cons_append, nextFrom_lineComment state outside,
        nextFrom_lineComment state outside, lineComment_append (filled more)]
      have closed := (lineComment_ends _ _ _ (filled more)).1
      have shorter := lineComment_rest_length_le (Text.lit "//") pos.advance.advance rest
      refine afterComment_append closed more fun state outside more => ih _ ?_ outside more rfl
      simp only [List.length_cons]
      omega
    | @block rest =>
      rw [nextFrom_blockComment] at more
      have closed := blockComment_closed Nat.one_ne_zero (filled more)
      rw [List.cons_append, List.cons_append, nextFrom_blockComment, nextFrom_blockComment,
        blockComment_append Nat.one_ne_zero closed]
      have shorter := blockComment_rest_length_le 1 (Text.lit "/*") pos.advance.advance rest
      refine afterComment_append closed more fun state outside more => ih _ ?_ outside more rfl
      simp only [List.length_cons]
      omega
    | token opens => exact opens_append opens more later

theorem next_inside (inside : state.commentLevel ≠ 0) (pos : Position) (input : List CodePoint) :
    next state pos input =
      (afterComment state pos (blockComment state.commentLevel [] pos input)).remember := by
  rw [next, if_neg inside]
  rfl

theorem next_outside (outside : state.commentLevel = 0) (pos : Position) (input : List CodePoint) :
    next state pos input = (nextFrom state pos input).remember := by
  rw [next, if_pos outside]

theorem next_append (more : 2 ≤ (next state pos input).rest.length) (later : List CodePoint) :
    next state pos (input ++ later) = (next state pos input).before later := by
  by_cases outside : state.commentLevel = 0
  · rw [next_outside outside, Step.remember_rest] at more
    rw [next_outside outside, next_outside outside, ← Step.remember_before, nextFrom_append outside more]
  · rw [next_inside outside, Step.remember_rest] at more
    have within := (afterComment_rest_suffix state pos
      (blockComment state.commentLevel [] pos input)).length_le
    have filled : (blockComment state.commentLevel [] pos input).rest ≠ [] := by
      intro none
      simp only [none, List.length_nil] at within
      omega
    have closed := blockComment_closed outside filled
    rw [next_inside outside, next_inside outside, ← Step.remember_before,
      blockComment_append outside closed]
    exact congrArg _ (afterComment_append closed more fun state outside more =>
      nextFrom_append outside more later)

end Scan

end Scripting
