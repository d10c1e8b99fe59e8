import Scripting.Proofs.Progress
import Scripting.Proofs.RoundTrip.Quoted

/-
How the tokens of printed values are read: signs, words, numbers, strings and characters, each in
front of something that cannot be a part of it.
-/
namespace Scripting

namespace Text

theorem isDigit_ofNat (n : Nat) : (ofNat n).all isDigit = true := by
  induction n using Nat.strongRecOn with
  | ind n ih =>
    have last (m : Nat) (h : m < 10) : isDigit (UInt8.ofNat (48 + m)) = true := by
      simp [isDigit, UInt8.le_iff_toNat_le]
      omega
    rw [ofNat]
    split
    · next small => rw [List.all_cons, last n small, List.all_nil, Bool.true_and]
    · next large =>
      rw [List.all_append, ih (n / 10) (by omega), List.all_cons, last (n % 10) (by omega),
        List.all_nil, Bool.true_and, Bool.true_and]

theorem digitsValue_ofNat (n : Nat) : Decimal.digitsValue (ofNat n) = n := by
  induction n using Nat.strongRecOn with
  | ind n ih =>
    have last (m : Nat) (h : m < 10) : (UInt8.ofNat (48 + m)).toNat - 48 = m := by
      rw [UInt8.toNat_ofNat']
      omega
    rw [ofNat]
    split
    · next small => simp only [Decimal.digitsValue, List.foldl, last n small]; omega
    · next large =>
      have front := ih (n / 10) (by omega)
      unfold Decimal.digitsValue at front ⊢
      rw [List.foldl_append, front, List.foldl, List.foldl, last (n % 10) (by omega)]
      omega

end Text

namespace Scan

def Gives (afterOperand : Bool) (input : List CodePoint) (token : Token)
    (rest : List CodePoint) : Prop :=
  ∀ pos, ∃ start after, nextFrom { afterOperand } pos input =
    ⟨some (token, start), { afterOperand }, after, rest⟩

def Boundary (rest : List CodePoint) : Prop := ∀ c ∈ rest.head?, c ∈ [32, 44, 93, 125]

variable {b : Bool} {rest : List CodePoint}

theorem nextFrom_blank (state : ScanState) (pos : Position) (input : List CodePoint) :
    nextFrom state pos (32 :: input) = nextFrom state pos.advance input := by
  rw [nextFrom]
  simp [Literal.newline, isDigit, isLetter, underscore, doubleQuote, singleQuote, isBlank]

/-! Signs. -/

theorem nextFrom_sign {c : CodePoint} (h : c ∈ [40, 41, 91, 93, 44, 58, 35, 125])
    (state : ScanState) (pos : Position) (rest : List CodePoint) :
    nextFrom state pos (c :: rest) = signStep state pos.advance c rest := by
  simp only [List.mem_cons, List.not_mem_nil, or_false] at h
  rw [nextFrom]
  rcases h with rfl | rfl | rfl | rfl | rfl | rfl | rfl | rfl
  all_goals simp [Literal.newline, isDigit, isLetter, underscore, doubleQuote, singleQuote, isBlank,
    minus, slash]

theorem isPrefixOf_of_head {cs : List CodePoint} {c : CodePoint} (other : cs.head?.any (· != c))
    (rest : List CodePoint) : cs.isPrefixOf (c :: rest) = false := by
  cases cs with
  | nil => simp at other
  | cons d more =>
    have ne : d ≠ c := by simpa using other
    simp [List.isPrefixOf, ne]

theorem sign?_single {c : CodePoint} {sign : String} (avoid : List CodePoint)
    (own : signChars sign = [c]) (mem : sign ∈ signs)
    (table : signs.all (fun s => s == sign || (signChars s).head?.any (· != c) ||
      (signChars s).tail.head?.any avoid.contains) = true)
    (clear : ∀ d ∈ rest.head?, d ∉ avoid) : sign? (c :: rest) = some sign := by
  have only : ∀ s ∈ signs, (signChars s).isPrefixOf (c :: rest) = true → s = sign := by
    intro s hs starts
    have row := List.all_eq_true.mp table s hs
    simp only [Bool.or_eq_true, beq_iff_eq] at row
    rcases row with (same | other) | longer
    · exact same
    · rw [isPrefixOf_of_head other] at starts
      cases starts
    · cases chars : signChars s with
      | nil => simp [chars] at longer
      | cons first more =>
        cases more with
        | nil => simp [chars] at longer
        | cons second more =>
          have avoided : second ∈ avoid := by simpa [chars] using longer
          have next : rest.head? = some second := by
            cases rest with
            | nil => simp [chars] at starts
            | cons d later =>
              have : second = d := by
                simp [chars] at starts
                exact starts.2.1
              simp [this]
          exact absurd avoided (clear second next)
  have here : (signChars sign).isPrefixOf (c :: rest) = true := by simp [own]
  unfold sign?
  cases found : signs.find? fun s => (signChars s).isPrefixOf (c :: rest) with
  | none => exact absurd here (List.find?_eq_none.mp found sign mem)
  | some s =>
    have starts : (signChars s).isPrefixOf (c :: rest) = true := by
      simpa using List.find?_some found
    rw [only s (List.mem_of_find?_eq_some found) starts]

theorem sign?_mapStart (rest : List CodePoint) : sign? (35 :: 123 :: rest) = some "#\x7b" := by
  have split : signs = signs.take 6 ++ "#\x7b" :: signs.drop 7 := rfl
  have others : (signs.take 6).all (fun s => (signChars s).head?.any (· != 35)) = true := by
    with_unfolding_all rfl
  have own : signChars "#\x7b" = [35, 123] := by with_unfolding_all rfl
  have none : (signs.take 6).find? (fun s => (signChars s).isPrefixOf (35 :: 123 :: rest)) =
      none := by
    rw [List.find?_eq_none]
    intro s hs
    rw [isPrefixOf_of_head (List.all_eq_true.mp others s hs)]
    exact Bool.false_ne_true
  unfold sign?
  rw [split, List.find?_append, none, Option.none_or, List.find?_cons_of_pos]
  simp [own]

/-- The symbols that stand between values: the character, and the characters that would make a
longer sign of it. -/
def mark? : Symbol → Option (CodePoint × List CodePoint)
  | .leftParen => some (40, [42])
  | .rightParen => some (41, [])
  | .leftBracket => some (91, [])
  | .rightBracket => some (93, [])
  | .comma => some (44, [])
  | .colon => some (58, [58, 61])
  | .rightBrace => some (125, [])
  | _ => none

theorem sign?_mark {symbol : Symbol} {c : CodePoint} {avoid : List CodePoint}
    (h : mark? symbol = some (c, avoid)) (clear : ∀ d ∈ rest.head?, d ∉ avoid) :
    sign? (c :: rest) = some symbol.spelling := by
  cases symbol <;> cases h
  all_goals exact sign?_single _ (by with_unfolding_all rfl) (by decide) (by with_unfolding_all rfl) clear

theorem ofText?_text {s : Symbol} (h : s ∈ Symbol.spelled) : Symbol.ofText? s.text = some s := by
  have table : Symbol.spelled.all (fun s => Symbol.ofText? s.text == some s) = true := by
    decide +kernel
  simpa using List.all_eq_true.mp table s h

theorem signToken_mark {symbol : Symbol} {row : CodePoint × List CodePoint}
    (h : mark? symbol = some row) (b : Bool) : signToken b symbol.spelling = .symbol symbol := by
  have named : Symbol.ofText? (Text.lit symbol.spelling) = some symbol := by
    refine ofText?_text ?_
    cases symbol <;> cases h
    all_goals decide
  unfold signToken Token.ofText?
  rw [named]
  cases symbol <;> cases h
  all_goals rfl

theorem gives_mark {symbol : Symbol} {c : CodePoint} {avoid : List CodePoint}
    (h : mark? symbol = some (c, avoid)) (clear : ∀ d ∈ rest.head?, d ∉ avoid) :
    Gives b (c :: rest) (.symbol symbol) rest := by
  have sign : c ∈ [40, 41, 91, 93, 44, 58, 35, 125] := by cases symbol <;> cases h <;> decide
  have single : symbol.spelling.length - 1 = 0 := by
    cases symbol <;> cases h
    all_goals rfl
  intro pos
  refine ⟨pos.advance, pos.advance.advanceBy 0, ?_⟩
  rw [nextFrom_sign sign, signStep, sign?_mark h clear]
  simp only [single, signToken_mark h, List.drop_zero]

theorem gives_mapStart (rest : List CodePoint) :
    Gives b (35 :: 123 :: rest) (.symbol .mapStart) rest := by
  have named : Symbol.ofText? (Text.lit "#\x7b") = some .mapStart :=
    ofText?_text (s := .mapStart) (by decide)
  have token : signToken b "#\x7b" = .symbol .mapStart := by
    unfold signToken Token.ofText?
    rw [named]
  have extra : "#\x7b".length - 1 = 1 := rfl
  intro pos
  refine ⟨pos.advance, pos.advance.advanceBy 1, ?_⟩
  rw [nextFrom_sign (by simp), signStep, sign?_mapStart]
  simp only [extra, token, List.drop_succ_cons, List.drop_zero]

/-- After an operand a minus sign is an operator, whatever comes after it. -/
theorem gives_minus (clear : ∀ c ∈ rest.head?, c ≠ 61 ∧ c ≠ 62) :
    Gives true (45 :: rest) (.symbol .minus) rest := by
  have found : sign? (45 :: rest) = some "-" :=
    sign?_single [61, 62] (by with_unfolding_all rfl) (by decide) (by with_unfolding_all rfl)
      (by simpa using clear)
  have named : Symbol.ofText? (Text.lit "-") = some .minus :=
    ofText?_text (s := .minus) (by decide)
  have token : signToken true "-" = .symbol .minus := by
    unfold signToken Token.ofText?
    rw [named]
    rfl
  have extra : "-".length - 1 = 0 := rfl
  intro pos
  refine ⟨pos.advance, pos.advance.advanceBy 0, ?_⟩
  rw [nextFrom]
  simp [Literal.newline, isDigit, isLetter, underscore, doubleQuote, singleQuote, isBlank, slash,
    signStep, found, token, extra]

/-! Words. -/

theorem takeWhile_stops {p : CodePoint → Bool} {front : List CodePoint} (all : ∀ c ∈ front, p c = true)
    (stops : ∀ c ∈ rest.head?, p c = false) :
    (front ++ rest).takeWhile p = front ∧ (front ++ rest).dropWhile p = rest := by
  have none : rest.takeWhile p = [] ∧ rest.dropWhile p = rest := by
    cases rest with
    | nil => simp
    | cons c later => simp [stops c rfl]
  rw [List.takeWhile_append_of_pos all, List.dropWhile_append_of_pos all]
  simp [none]

theorem takeWhile_boundary {p : CodePoint → Bool}
    (stops : ([32, 44, 93, 125] : List CodePoint).all (fun c => !p c) = true)
    {front : List CodePoint} (all : front.all p = true) (boundary : Boundary rest) :
    (front ++ rest).takeWhile p = front ∧ (front ++ rest).dropWhile p = rest :=
  takeWhile_stops (by simpa using all) fun c head => by
    simpa using List.all_eq_true.mp stops c (boundary c head)

theorem gives_word {first : CodePoint} {tail : List CodePoint}
    (starts : (isLetter first || first == underscore) = true) (all : tail.all isWordChar = true)
    (boundary : Boundary rest) :
    Gives b (first :: tail ++ rest) (wordToken (ascii (first :: tail))) rest := by
  have stops : ([32, 44, 93, 125] : List CodePoint).all (fun c => !isWordChar c) = true := by decide
  have line : first ≠ Literal.newline := by
    rintro rfl
    cases starts
  have digit : isDigit first = false := by
    rw [Bool.or_eq_true, beq_iff_eq] at starts
    simp [isLetter, isDigit, underscore, UInt32.le_iff_toNat_le, ← UInt32.toNat_inj] at starts ⊢
    omega
  obtain ⟨taken, left⟩ := takeWhile_boundary stops all boundary
  intro pos
  refine ⟨pos.advance, pos.advance.advanceBy tail.length, ?_⟩
  rw [List.cons_append, nextFrom]
  simp only [line, digit, starts, wordStep, taken, left, if_false, if_true, Bool.false_eq_true]

def boolChars (value : Bool) : List CodePoint :=
  if value then [116, 114, 117, 101] else [102, 97, 108, 115, 101]

def boolSymbol (value : Bool) : Symbol := if value then .kwTrue else .kwFalse

theorem gives_bool (boundary : Boundary rest) (value : Bool) :
    Gives b (boolChars value ++ rest) (.symbol (boolSymbol value)) rest := by
  have word : wordToken (ascii (boolChars value)) = .symbol (boolSymbol value) := by
    have identifier : (ascii (boolChars value)).isIdentifier = true := by cases value <;> decide
    have named : Symbol.ofText? (ascii (boolChars value)) = some (boolSymbol value) := by
      have text : ascii (boolChars value) = (boolSymbol value).text := by
        cases value <;> with_unfolding_all rfl
      rw [text]
      exact ofText?_text (by cases value <;> decide)
    unfold wordToken Token.ofText?
    rw [named, identifier]
    rfl
  rw [← word]
  cases value with
  | true => exact gives_word (by decide) (by decide) boundary
  | false => exact gives_word (by decide) (by decide) boundary

/-! Numbers. -/

def wide (t : Text) : List CodePoint := t.map UInt8.toUInt32

theorem small_wide (t : Text) : ∀ c ∈ wide t, c.toNat < 0x200000 := by
  intro c member
  obtain ⟨b, -, rfl⟩ := List.mem_map.mp member
  have byte := b.toNat_lt
  rw [UInt8.toNat_toUInt32]
  omega

theorem ascii_wide (t : Text) : ascii (wide t) = t := by
  simp [ascii, wide, Function.comp_def]

theorem isDigit_toUInt32 (d : UInt8) : isDigit d.toUInt32 = Text.isDigit d := by
  simp [isDigit, Text.isDigit, UInt32.le_iff_toNat_le, UInt8.le_iff_toNat_le]

theorem isDigit_wide {t : Text} (digits : t.all Text.isDigit = true) :
    ∀ c ∈ wide t, isDigit c = true := by
  intro c hc
  obtain ⟨d, hd, rfl⟩ := List.mem_map.mp hc
  rw [isDigit_toUInt32]
  exact List.all_eq_true.mp digits d hd

theorem wide_ofNat (n : Nat) : ∃ first tail, wide (Text.ofNat n) = first :: tail ∧
    isDigit first = true ∧ ∀ c ∈ tail, isDigit c = true := by
  have digits := isDigit_wide (Text.isDigit_ofNat n)
  cases chars : wide (Text.ofNat n) with
  | nil =>
    have empty : Text.ofNat n = [] := List.map_eq_nil_iff.mp chars
    rw [Text.ofNat] at empty
    split at empty <;> simp at empty
  | cons first tail =>
    rw [chars] at digits
    exact ⟨first, tail, rfl, digits first List.mem_cons_self,
      fun c hc => digits c (List.mem_cons_of_mem first hc)⟩

def continuesDecimal (first c : CodePoint) : Bool :=
  isDigit c || c == underscore || c == point || (first == 48 && (radix? c).isSome)

theorem numberText_decimal {first : CodePoint} {tail : List CodePoint}
    (digits : ∀ c ∈ tail, isDigit c = true ∨ c = underscore)
    (ends : ∀ c ∈ rest.head?, continuesDecimal first c = false) :
    numberText first (tail ++ rest) = ⟨first :: tail, none, rest⟩ := by
  have plain : ∀ c ∈ tail, (isDigit c || c == underscore || c == point) = true := by
    intro c hc
    rcases digits c hc with digit | same <;> simp [*]
  have stops : ∀ c ∈ rest.head?, (isDigit c || c == underscore || c == point) = false := by
    intro c head
    simp only [continuesDecimal, Bool.or_eq_false_iff] at ends ⊢
    exact (ends c head).1
  obtain ⟨taken, left⟩ := takeWhile_stops plain stops
  unfold numberText
  simp only [taken, left]
  cases rest with
  | nil => rfl
  | cons letter later =>
    have other : (if first = 48 then radix? letter else none) = none := by
      split
      · next zero =>
        have own := ends letter rfl
        simp [continuesDecimal, zero] at own
        exact own.2
      · rfl
    simp [other]

theorem numberText_digits {first : CodePoint} {tail : List CodePoint}
    (digits : ∀ c ∈ tail, isDigit c = true) (boundary : Boundary rest) :
    numberText first (tail ++ rest) = ⟨first :: tail, none, rest⟩ := by
  have stops : ([32, 44, 93, 125] : List CodePoint).all (fun c =>
      !(isDigit c || c == underscore || c == point || (radix? c).isSome)) = true := by decide
  refine numberText_decimal (fun c hc => Or.inl (digits c hc)) fun c head => ?_
  have own := List.all_eq_true.mp stops c (boundary c head)
  simp only [Bool.not_eq_true', Bool.or_eq_false_iff] at own
  simp [continuesDecimal, own]

def wholeToken (negative : Bool) (n : Nat) : Token :=
  numberToken negative ⟨wide (Text.ofNat n), none, []⟩

theorem gives_whole (boundary : Boundary rest) (n : Nat) :
    Gives b (wide (Text.ofNat n) ++ rest) (wholeToken false n) rest := by
  obtain ⟨first, tail, chars, digit, digits⟩ := wide_ofNat n
  have line : first ≠ Literal.newline := by
    rintro rfl
    cases digit
  intro pos
  refine ⟨pos.advance, pos.advance.advanceBy tail.length, ?_⟩
  rw [chars, List.cons_append, nextFrom]
  simp only [line, digit, numberStep, numberText_digits digits boundary, if_false, if_true,
    wholeToken, chars]
  rfl

/-- Where no operand stands before it, a sign is a part of the number. -/
theorem gives_negative (boundary : Boundary rest) (n : Nat) :
    Gives false (45 :: (wide (Text.ofNat n) ++ rest)) (wholeToken true n) rest := by
  obtain ⟨first, tail, chars, digit, digits⟩ := wide_ofNat n
  intro pos
  refine ⟨pos.advance.advance, pos.advance.advance.advanceBy tail.length, ?_⟩
  have starts : startsWithDigit (first :: (tail ++ rest)) = true := digit
  have token : numberToken true ⟨first :: tail, none, rest⟩ = wholeToken true n := by
    rw [wholeToken, chars]
    rfl
  rw [chars, List.cons_append, nextFrom]
  simp [Literal.newline, isLetter, isDigit, underscore, doubleQuote, singleQuote, isBlank, minus,
    starts, numberStep, numberText_digits digits boundary, token]

theorem wholeToken_eq (negative : Bool) (n : Nat) : wholeToken negative n =
    match Fixed.ofInt? .i64 (signed negative n) with
    | some m => .integer m
    | none =>
      match Decimal.read? negative (Text.ofNat n) with
      | some f => .float f
      | none => .fault { fault := .malformedNumber
                         text := (if negative then Text.lit "-" else []) ++ Text.ofNat n } := by
  have kept : (wide (Text.ofNat n)).filter (· != underscore) = wide (Text.ofNat n) := by
    rw [List.filter_eq_self]
    intro c hc
    have digit := isDigit_wide (Text.isDigit_ofNat n) c hc
    rw [bne_iff_ne]
    rintro rfl
    cases digit
  unfold wholeToken numberToken
  cases held : Fixed.ofInt? .i64 (signed negative n) with
  | some m => simp only [kept, ascii_wide, Text.isDigit_ofNat, Text.digitsValue_ofNat, if_true, held]
  | none =>
    cases read : Decimal.read? negative (Text.ofNat n) with
    | some f =>
      simp only [kept, ascii_wide, Text.isDigit_ofNat, Text.digitsValue_ofNat, if_true, held, read]
    | none =>
      simp only [kept, ascii_wide, Text.isDigit_ofNat, Text.digitsValue_ofNat, if_true, held, read]

theorem wholeToken_of_val {negative : Bool} {k : Nat} {n : Integer} (h : signed negative k = n.val) :
    wholeToken negative k = .integer n := by
  have held : Fixed.ofInt? .i64 (signed negative k) = some n := by
    rw [h, Fixed.ofInt?, dif_pos n.inside]
  rw [wholeToken_eq, held]

/-! Strings and characters. -/

theorem gives_string (cs : List CodePoint) :
    Gives b (Quoted.chars doubleQuote cs ++ rest) (.string (Utf8.encodeAll cs)) rest := by
  intro pos
  obtain ⟨after, read⟩ := Literal.read_chars (.inl rfl) cs rest pos.advance
  refine ⟨pos.advance, after, ?_⟩
  rw [Quoted.chars, List.cons_append, nextFrom]
  simp only [stringStep, doubleQuote, read]
  rfl

theorem gives_char (c : CodePoint) :
    Gives b (Quoted.chars singleQuote [c] ++ rest) (.char c) rest := by
  -- The quote itself is escaped, so the literal is not taken for an empty one.
  have inside : ([c].flatMap (Quoted.escapeChar singleQuote) ++ [singleQuote] ++ rest).head? ≠
      some singleQuote := by
    rw [List.flatMap_singleton]
    unfold Quoted.escapeChar
    repeat' split
    all_goals simp_all [singleQuote]
  intro pos
  obtain ⟨after, read⟩ := Literal.read_chars (.inr rfl) [c] rest pos.advance
  refine ⟨pos.advance, after, ?_⟩
  rw [Quoted.chars, List.cons_append, nextFrom]
  simp only [charStep, inside, if_false]
  simp only [singleQuote, read]
  rfl

end Scan

namespace Dialect

def Lexes (d : Dialect) (afterOperand : Bool) (input : List CodePoint) (tokens : List Token)
    (then' : Bool) (rest : List CodePoint) : Prop :=
  ∀ pos, ∃ placed after, placed.map Prod.fst = tokens ∧
    ∀ n later, d.Finishes n { afterOperand := then' } after rest later →
      ∃ m, d.Finishes m { afterOperand } pos input (placed ++ later)

namespace Lexes

variable {d : Dialect} {b b' b'' : Bool} {input middle rest : List CodePoint}
variable {tokens more : List Token}

theorem nil (d : Dialect) (b : Bool) (input : List CodePoint) : Lexes d b input [] b input :=
  fun pos => ⟨[], pos, rfl, fun n _ done => ⟨n, done⟩⟩

theorem trans (first : Lexes d b input tokens b' middle)
    (second : Lexes d b' middle more b'' rest) :
    Lexes d b input (tokens ++ more) b'' rest := by
  intro pos
  obtain ⟨placed, after, names, go⟩ := first pos
  obtain ⟨placed', after', names', go'⟩ := second after
  refine ⟨placed ++ placed', after', by rw [List.map_append, names, names'], ?_⟩
  intro n later done
  obtain ⟨m, done'⟩ := go' n later done
  rw [List.append_assoc]
  exact go m _ done'

/-- A token as the dialect sees it; whether a sign is an operator after it goes by what was read. -/
theorem filtered {token : Token} (h : Scan.Gives b input token rest) (more : token.isEof = false) :
    Lexes d b input [d.filter token] (!token.expectsOperand) rest := by
  intro pos
  obtain ⟨start, after, read⟩ := h pos
  have next : d.next { afterOperand := b } pos input =
      ⟨some (d.filter token, start), { afterOperand := !token.expectsOperand }, after, rest⟩ := by
    simp [Dialect.next, Scan.next, read, Scan.Step.remember]
  have goesOn : (d.filter token).isEof = false := (d.isEof_filter token).trans more
  refine ⟨[(d.filter token, start)], after, rfl, fun n later done => ⟨n + 1, .more ?_ goesOn ?_⟩⟩
  · rw [next]
  · rw [next]
    exact done

theorem one {token : Token} (h : Scan.Gives b input token rest)
    (unchanged : d.filter token = token) (more : token.isEof = false) :
    Lexes d b input [token] (!token.expectsOperand) rest := by
  have read : Lexes d b input [d.filter token] (!token.expectsOperand) rest := filtered h more
  rwa [unchanged] at read

theorem blank (h : Lexes d b input tokens b' rest) : Lexes d b (32 :: input) tokens b' rest := by
  intro pos
  obtain ⟨placed, after, names, go⟩ := h pos.advance
  have skip : d.next { afterOperand := b } pos (32 :: input) =
      d.next { afterOperand := b } pos.advance input := by
    simp [Dialect.next, Scan.next, Scan.nextFrom_blank]
  refine ⟨placed, after, names, fun n later done => ?_⟩
  obtain ⟨m, done⟩ := go n later done
  refine ⟨m, ?_⟩
  generalize placed ++ later = all at done ⊢
  cases done with
  | silent read => exact .silent (by rw [skip]; exact read)
  | last read eof => exact .last (by rw [skip]; exact read) eof
  | more read more done => exact .more (by rw [skip]; exact read) more (by rw [skip]; exact done)

end Lexes

theorem filter_symbol {d : Dialect} (plain : d.disabled = []) (symbol : Symbol) :
    d.filter (.symbol symbol) = .symbol symbol := by
  simp [filter, filterSymbol, isDisabled, plain]

theorem tokens_of_finishes {d : Dialect} {pieces : List Text} {n : Nat} {tokens : List PlacedToken}
    (h : d.Finishes n d.initial Position.start (Scan.codePoints pieces) tokens) :
    d.tokens pieces = tokens := by
  have skip : ¬ d.Stalls d.initial Position.start (Scan.codePoints pieces) :=
    d.not_stalls_of_skip rfl _ _
  obtain ⟨m, within, found, done⟩ :=
    (d.finishes_or_stalls d.initial Position.start (Scan.codePoints pieces)).resolve_right skip
  -- Any supply that is enough for both readings gives the tokens of both.
  have same : found = tokens := by
    rw [← d.take_of_finishes done (Nat.le_max_left m n),
      ← d.take_of_finishes h (Nat.le_max_right m n)]
  rw [← same]
  exact d.take_of_finishes done within

theorem tokens_of_lexes {d : Dialect} (unlimited : d.maxString = 0) {input : List CodePoint}
    {tokens : List Token} {b : Bool} (h : Lexes d false input tokens b [])
    (small : ∀ c ∈ input, c.toNat < 0x200000) :
    ∃ placed pos, placed.map Prod.fst = tokens ∧
      d.tokens [Utf8.encodeAll input] = placed ++ [(.eof, pos)] := by
  obtain ⟨placed, after, names, go⟩ := h Position.start
  have last : d.next { afterOperand := b } after [] =
      ⟨some (.eof, after.advance), { afterOperand := true }, after.advance, []⟩ := by
    have ended : Scan.nextFrom { afterOperand := b } after [] =
        ⟨some (.eof, after.advance), { afterOperand := b }, after.advance, []⟩ := by
      rw [Scan.nextFrom]
      rfl
    simp [Dialect.next, Scan.next, ended, Scan.Step.remember, Dialect.filter, Token.expectsOperand]
  obtain ⟨n, done⟩ := go 1 [(.eof, after.advance)] (.last (by rw [last]) rfl)
  have whole : Scan.codePoints [Utf8.encodeAll input] = input := by
    simp [Scan.codePoints, Utf8.decode_encodeAll small]
  have begin : d.initial = {} := by rw [initial, unlimited]
  rw [← whole, ← begin] at done
  exact ⟨placed, after.advance, names, tokens_of_finishes done⟩

end Dialect

end Scripting
