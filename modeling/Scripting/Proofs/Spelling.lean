import Mathlib.Data.List.Find
import Scripting.Proofs.RoundTrip.Tokens

/-
Tokens spelled out with single spaces between them are read back, in any order: no spelling runs over
a space, and the only thing that a token has to know of the one before it is whether a sign is one of
its operand.
-/
namespace Scripting

namespace Token

/-- The tokens that can be spelled: symbols, names that are not words of the language, and numbers
without a sign. -/
def Spelled : Token → Prop
  | symbol s => s ∈ Symbol.spelled
  | identifier name => name.isIdentifier = true ∧ ofText? name = none
  | integer n => 0 ≤ n.val
  | _ => False

/-- What a spelled token is read as, by the token before it: a sign belongs to the operand after it if
it is the first token, or one that expects an operand stands before it. -/
def readAfter (previous : Option Token) : Token → Token
  | symbol .plus => symbol (if previous.all expectsOperand then .unaryPlus else .plus)
  | symbol .minus => symbol (if previous.all expectsOperand then .unaryMinus else .minus)
  | token => token

def readAll (previous : Option Token) : List Token → List Token
  | [] => []
  | token :: more => token.readAfter previous :: readAll (some token) more

theorem expectsOperand_readAfter (previous : Option Token) (token : Token) :
    (token.readAfter previous).expectsOperand = token.expectsOperand := by
  unfold readAfter
  split
  · split <;> rfl
  · split <;> rfl
  · rfl

theorem isEof_readAfter (previous : Option Token) {token : Token} (spelled : token.Spelled) :
    (token.readAfter previous).isEof = false := by
  unfold readAfter
  split
  · rfl
  · rfl
  · cases token with
    | eof => cases spelled
    | _ => rfl

end Token

namespace Text

def Ascii (t : Text) : Prop := ∀ b ∈ t, b < 128

theorem identifierFrom_chars {started : Bool} {t : Text} (h : identifierFrom started t = true) :
    ∀ b ∈ t, (isLower b || isUpper b || isDigit b || b == 95) = true := by
  induction t generalizing started with
  | nil => intro b hb; cases hb
  | cons first rest ih =>
    unfold identifierFrom at h
    intro b hb
    split at h
    · next line =>
      obtain rfl | hb := List.mem_cons.mp hb
      · simp [line]
      · exact ih h b hb
    · split at h
      · next letter =>
        obtain rfl | hb := List.mem_cons.mp hb
        · rw [letter, Bool.true_or, Bool.true_or]
        · exact ih h b hb
      · simp only [Bool.and_eq_true] at h
        obtain rfl | hb := List.mem_cons.mp hb
        · rw [h.1.2, Bool.or_true, Bool.true_or]
        · exact ih h.2 b hb

end Text

namespace Scan

theorem isLetter_toUInt32 (b : UInt8) : isLetter b.toUInt32 = (Text.isLower b || Text.isUpper b) := by
  simp [isLetter, Text.isLower, Text.isUpper, UInt32.le_iff_toNat_le, UInt8.le_iff_toNat_le]

theorem isWordChar_toUInt32 (b : UInt8) : isWordChar b.toUInt32 =
    (Text.isLower b || Text.isUpper b || Text.isDigit b || b == 95) := by
  have line : (b.toUInt32 == 95) = (b == 95) := by
    rw [Bool.eq_iff_iff, beq_iff_eq, beq_iff_eq, ← UInt32.toNat_inj, ← UInt8.toNat_inj]
    rfl
  rw [isWordChar, isLetter_toUInt32, isDigit_toUInt32, line]

def Parted (rest : List CodePoint) : Prop := ∀ c ∈ rest.head?, c = 32

def spaced : List Token → List CodePoint
  | [] => []
  | token :: more => wide token.text ++ more.flatMap fun t => 32 :: wide t.text

theorem parted_spaces (tokens : List Token) : Parted (tokens.flatMap fun t => 32 :: wide t.text) := by
  cases tokens with
  | nil => intro c none; cases none
  | cons t more => intro c head; cases head; rfl

theorem Parted.boundary {rest : List CodePoint} (h : Parted rest) : Boundary rest := by
  intro c hc
  rw [h c hc]
  exact List.mem_cons_self

variable {b : Bool} {rest : List CodePoint} {previous : Option Token}

/-! Words. -/

theorem gives_identifier {t : Text} (identifier : t.isIdentifier = true) (parted : Parted rest) :
    Gives b (wide t ++ rest) (wordToken t) rest := by
  have chars := Text.identifierFrom_chars identifier
  cases t with
  | nil => cases identifier
  | cons first tail =>
    have starts : (isLetter first.toUInt32 || first.toUInt32 == underscore) = true := by
      have letter : (Text.isLower first || Text.isUpper first || first == 95) = true := by
        unfold Text.isIdentifier Text.identifierFrom at identifier
        split at identifier
        · next line => simp [line]
        · split at identifier
          · next letter => rw [letter, Bool.true_or]
          · cases identifier
      rw [Bool.or_eq_true, beq_iff_eq] at letter ⊢
      obtain letter | rfl := letter
      · exact .inl ((isLetter_toUInt32 first).trans letter)
      · exact .inr rfl
    have all : (wide tail).all isWordChar = true := by
      simp only [wide, List.all_map, List.all_eq_true, Function.comp_apply]
      intro c hc
      rw [isWordChar_toUInt32]
      exact chars c (List.mem_cons_of_mem first hc)
    have read := gives_word (b := b) starts all parted.boundary
    have same : ascii (first.toUInt32 :: wide tail) = first :: tail := ascii_wide (first :: tail)
    rwa [same] at read

/-! Signs. -/

def startsSign (c : CodePoint) (rest : List CodePoint) : Bool :=
  !(c == Literal.newline || isDigit c || isLetter c || c == underscore || c == doubleQuote ||
    c == singleQuote || isBlank c || c == minus && startsWithDigit rest ||
    c == slash && (rest.head? == some slash || rest.head? == some star))

theorem nextFrom_startsSign {c : CodePoint} (h : startsSign c rest = true) (state : ScanState)
    (pos : Position) : nextFrom state pos (c :: rest) = signStep state pos.advance c rest := by
  simp only [startsSign, Bool.not_eq_true', Bool.or_eq_false_iff, Bool.and_eq_false_iff,
    beq_eq_false_iff_ne, ne_eq] at h
  obtain ⟨⟨⟨⟨⟨⟨⟨⟨line, digit⟩, letter⟩, underline⟩, double⟩, single⟩, blank⟩, number⟩, comment⟩ := h
  rw [nextFrom]
  have noNumber : (c == minus && !state.afterOperand && startsWithDigit rest) = false := by
    rcases number with other | none
    · simp [other]
    · rw [none, Bool.and_false]
  have noLine : ¬ (c = slash ∧ rest.head? = some slash) := by
    rintro ⟨rfl, next⟩
    rcases comment with other | none
    · exact other rfl
    · exact none.1 next
  have noBlock : ¬ (c = slash ∧ rest.head? = some star) := by
    rintro ⟨rfl, next⟩
    rcases comment with other | none
    · exact other rfl
    · exact none.2 next
  simp [line, digit, letter, underline, double, single, blank, noNumber, noLine, noBlock]

theorem startsSign_append {c : CodePoint} {cs : List CodePoint} (h : startsSign c cs = true)
    (parted : Parted rest) : startsSign c (cs ++ rest) = true := by
  cases cs with
  | nil =>
    cases rest with
    | nil => exact h
    | cons d more =>
      obtain rfl : d = 32 := parted d rfl
      exact h
  | cons d more => exact h

theorem isPrefixOf_append {sign : List CodePoint} (unspaced : 32 ∉ sign) (parted : Parted rest)
    (cs : List CodePoint) : sign.isPrefixOf (cs ++ rest) = sign.isPrefixOf cs := by
  induction sign generalizing cs with
  | nil => rfl
  | cons c sign ih =>
    cases cs with
    | nil =>
      cases rest with
      | nil => rfl
      | cons d more =>
        obtain rfl : d = 32 := parted d rfl
        exact isPrefixOf_of_head (by simpa using Ne.symm (List.ne_of_not_mem_cons unspaced)) _
    | cons d cs =>
      simp only [List.cons_append, List.isPrefixOf]
      rw [ih fun h => unspaced (List.mem_cons_of_mem c h)]

theorem sign?_append (parted : Parted rest) (cs : List CodePoint) :
    sign? (cs ++ rest) = sign? cs := by
  have unspaced : signs.all (fun s => !(signChars s).contains 32) = true := by with_unfolding_all rfl
  unfold sign?
  refine List.find?_congr fun s hs => ?_
  have space := List.all_eq_true.mp unspaced s hs
  exact isPrefixOf_append (by simpa using space) parted cs

def isSign (s : Symbol) : Bool :=
  match signChars s.spelling with
  | [] => false
  | c :: cs => startsSign c cs && sign? (c :: cs) == some s.spelling &&
      cs.length == s.spelling.length - 1

theorem isSign_of_mem {s : Symbol} (h : s ∈ Symbol.spelled) (operator : s.isKeyword = false) :
    isSign s = true := by
  have table : Symbol.spelled.all (fun s => s.isKeyword || isSign s) = true := by decide +kernel
  simpa [operator] using List.all_eq_true.mp table s h

theorem wide_text {s : Symbol} (h : s ∈ Symbol.spelled) : wide s.text = signChars s.spelling := by
  have table : Symbol.spelled.all (fun s => wide s.text == signChars s.spelling) = true := by
    with_unfolding_all rfl
  simpa using List.all_eq_true.mp table s h

theorem signToken_spelling {s : Symbol} (h : s ∈ Symbol.spelled) :
    signToken (!previous.all Token.expectsOperand) s.spelling = (Token.symbol s).readAfter previous := by
  have named := ofText?_text h
  unfold Symbol.text at named
  unfold signToken Token.ofText?
  rw [named]
  cases s with
  | plus =>
    simp only [Token.readAfter]
    cases previous.all Token.expectsOperand <;> rfl
  | minus =>
    simp only [Token.readAfter]
    cases previous.all Token.expectsOperand <;> rfl
  | _ => rfl

theorem gives_sign {s : Symbol} (h : s ∈ Symbol.spelled) (operator : s.isKeyword = false)
    (parted : Parted rest) : Gives (!previous.all Token.expectsOperand) (wide s.text ++ rest)
      ((Token.symbol s).readAfter previous) rest := by
  have sign := isSign_of_mem h operator
  rw [wide_text h]
  unfold isSign at sign
  split at sign
  · cases sign
  · next c cs chars =>
    simp only [Bool.and_eq_true, beq_iff_eq] at sign
    obtain ⟨⟨starts, read⟩, extra⟩ := sign
    intro pos
    refine ⟨pos.advance, pos.advance.advanceBy cs.length, ?_⟩
    have found : sign? (c :: (cs ++ rest)) = some s.spelling := by
      rw [← List.cons_append, sign?_append parted, read]
    rw [chars, List.cons_append, nextFrom_startsSign (startsSign_append starts parted), signStep, found]
    simp only [← extra, signToken_spelling h, List.drop_left]

theorem gives_keyword {s : Symbol} (h : s ∈ Symbol.spelled) (keyword : s.isKeyword = true)
    (parted : Parted rest) : Gives b (wide s.text ++ rest) (.symbol s) rest := by
  have table : Symbol.spelled.all (fun s => !s.isKeyword || s.text.isIdentifier) = true := by
    with_unfolding_all rfl
  have identifier : s.text.isIdentifier = true := by
    simpa [keyword] using List.all_eq_true.mp table s h
  have word : wordToken s.text = .symbol s := by
    unfold wordToken Token.ofText?
    rw [identifier, ofText?_text h]
    rfl
  exact word ▸ gives_identifier identifier parted

/-- A spelled token is read back, where its spelling ends with the text or at a space. -/
theorem gives_spelled (previous : Option Token) {token : Token} (spelled : token.Spelled) (parted : Parted rest) :
    Gives (!previous.all Token.expectsOperand) (wide token.text ++ rest) (token.readAfter previous)
      rest := by
  cases token with
  | symbol s =>
    cases keyword : s.isKeyword with
    | false => exact gives_sign spelled keyword parted
    | true =>
      have same : (Token.symbol s).readAfter previous = .symbol s := by
        cases s <;> first | rfl | cases keyword
      rw [same]
      exact gives_keyword spelled keyword parted
  | identifier name =>
    have word : wordToken name = .identifier name := by
      unfold wordToken
      rw [spelled.1, spelled.2]
      rfl
    have read := gives_identifier (b := !previous.all Token.expectsOperand) spelled.1 parted
    rwa [word] at read
  | integer n =>
    have natural : 0 ≤ n.val := spelled
    have text : (Token.integer n).text = Text.ofNat n.val.natAbs := by
      rw [Token.text, Fixed.text, Text.ofInt, if_neg (by omega)]
    have token : wholeToken false n.val.natAbs = .integer n :=
      wholeToken_of_val (by rw [signed, if_neg Bool.false_ne_true]; omega)
    have read := gives_whole (b := !previous.all Token.expectsOperand) parted.boundary n.val.natAbs
    rw [token] at read
    rwa [text]
  | _ => cases spelled

end Scan

namespace Text

def Plain (t : Text) : Prop := ∀ b ∈ t, b < 128 ∧ b ≠ 34 ∧ b ≠ 39

theorem Plain.ascii {t : Text} (h : t.Plain) : t.Ascii := fun b hb => (h b hb).1

theorem plain_identifier {t : Text} (h : t.isIdentifier = true) : t.Plain := by
  intro b hb
  have char := identifierFrom_chars h b hb
  simp [isLower, isUpper, isDigit, UInt8.le_iff_toNat_le, UInt8.lt_iff_toNat_lt,
    ← UInt8.toNat_inj] at char ⊢
  omega

theorem plain_symbol {s : Symbol} (h : s ∈ Symbol.spelled) : s.text.Plain := by
  have table : Symbol.spelled.all (fun s => s.text.all fun b => b < 128 && b != 34 && b != 39) = true := by
    with_unfolding_all rfl
  intro b hb
  simpa [and_assoc] using List.all_eq_true.mp (List.all_eq_true.mp table s h) b hb

theorem ascii_text {token : Token} (spelled : token.Spelled) : Ascii token.text := by
  cases token with
  | symbol s => exact (plain_symbol spelled).ascii
  | identifier name => exact (plain_identifier spelled.1).ascii
  | integer n =>
    have natural : 0 ≤ n.val := spelled
    have text : (Token.integer n).text = ofNat n.val.natAbs := by
      rw [Token.text, Fixed.text, ofInt, if_neg (by omega)]
    intro b hb
    rw [text] at hb
    have digit := List.all_eq_true.mp (isDigit_ofNat n.val.natAbs) b hb
    simp [isDigit, UInt8.le_iff_toNat_le, UInt8.lt_iff_toNat_lt] at digit ⊢
    omega
  | _ => cases spelled

theorem encodeAll_wide {t : Text} (ascii : Ascii t) : Utf8.encodeAll (Scan.wide t) = t := by
  induction t with
  | nil => rfl
  | cons b t ih =>
    have small : b.toUInt32.toNat < 0x80 := by
      have small := ascii b List.mem_cons_self
      simpa [UInt8.lt_iff_toNat_lt] using small
    have rest := ih fun c hc => ascii c (List.mem_cons_of_mem b hc)
    rw [Scan.wide] at rest
    rw [Scan.wide, List.map_cons, Utf8.encodeAll, List.flatMap_cons, Utf8.encode_ascii small,
      ← Utf8.encodeAll, rest]
    simp

theorem join_space (t : Text) (more : List Text) :
    join (lit " ") (t :: more) = t ++ more.flatMap (32 :: ·) := by
  induction more generalizing t with
  | nil => simp [join]
  | cons u more ih =>
    have space : lit " " = [32] := by with_unfolding_all rfl
    rw [join, ih, space, List.flatMap_cons]
    simp
    exact List.cons_ne_nil _ _

theorem ascii_join (tokens : List Token) (spelled : ∀ t ∈ tokens, t.Spelled) :
    Ascii (join (lit " ") (tokens.map Token.text)) := by
  cases tokens with
  | nil => intro b none; cases none
  | cons token more =>
    rw [List.map_cons, join_space]
    intro b hb
    simp only [List.mem_append, List.mem_flatMap, List.mem_map, List.mem_cons] at hb
    obtain here | ⟨t, ⟨other, mem, rfl⟩, rfl | here⟩ := hb
    · exact ascii_text (spelled token List.mem_cons_self) b here
    · decide
    · exact ascii_text (spelled other (List.mem_cons_of_mem token mem)) b here

end Text

theorem Scan.codePoints_wide {t : Text} (ascii : t.Ascii) : codePoints [t] = wide t := by
  have read := Utf8.decode_encodeAll (small_wide t)
  rw [Text.encodeAll_wide ascii] at read
  rw [codePoints, List.flatMap_singleton, read]

theorem Scan.wide_join (tokens : List Token) :
    wide (Text.join (Text.lit " ") (tokens.map Token.text)) = spaced tokens := by
  cases tokens with
  | nil => rfl
  | cons token more =>
    rw [List.map_cons, Text.join_space]
    simp [wide, spaced, List.map_flatMap, List.flatMap_map]

namespace Dialect

open Scan

theorem lexes_spelled {token : Token} (spelled : token.Spelled) (previous : Option Token)
    {rest : List CodePoint} (parted : Parted rest) :
    ({} : Dialect).Lexes (!previous.all Token.expectsOperand) (wide token.text ++ rest)
      [token.readAfter previous] (!(some token).all Token.expectsOperand) rest := by
  have unchanged : ({} : Dialect).filter (token.readAfter previous) = token.readAfter previous := by
    unfold Token.readAfter
    split
    · exact filter_symbol rfl _
    · exact filter_symbol rfl _
    · cases token with
      | symbol s => exact filter_symbol rfl s
      | identifier name => rfl
      | integer n => rfl
      | _ => cases spelled
  have read := Lexes.one (gives_spelled previous spelled parted) unchanged
    (Token.isEof_readAfter previous spelled)
  rwa [Token.expectsOperand_readAfter] at read

theorem lexes_behind_spaces (tokens : List Token) (spelled : ∀ t ∈ tokens, t.Spelled)
    (previous : Token) : ∃ b, ({} : Dialect).Lexes (!(some previous).all Token.expectsOperand)
      (tokens.flatMap fun t => 32 :: wide t.text) (Token.readAll (some previous) tokens) b [] := by
  induction tokens generalizing previous with
  | nil => exact ⟨_, .nil _ _ _⟩
  | cons token more ih =>
    obtain ⟨b, behind⟩ := ih (fun t ht => spelled t (List.mem_cons_of_mem token ht)) token
    have first := lexes_spelled (spelled token List.mem_cons_self) (some previous) (parted_spaces more)
    exact ⟨b, (first.trans behind).blank⟩

theorem lexes_spaced (tokens : List Token) (spelled : ∀ t ∈ tokens, t.Spelled) :
    ∃ b, ({} : Dialect).Lexes false (spaced tokens) (Token.readAll none tokens) b [] := by
  cases tokens with
  | nil => exact ⟨false, .nil _ _ _⟩
  | cons token more =>
    have later := fun t ht => spelled t (List.mem_cons_of_mem token ht)
    obtain ⟨b, behind⟩ := lexes_behind_spaces more later token
    exact ⟨b, (lexes_spelled (spelled token List.mem_cons_self) none (parted_spaces more)).trans behind⟩

end Dialect

/-- Tokens of the language in any order, spelled out with single spaces between them, are read back and
then the end: a plus or minus as a sign of its operand exactly where it is the first token or the token
before it expects an operand, and every other token as itself. -/
theorem spelled_tokens_read_back (tokens : List Token) (spelled : ∀ t ∈ tokens, t.Spelled) :
    ∃ placed pos, placed.map Prod.fst = Token.readAll none tokens ∧
      ({} : Dialect).tokens [Text.join (Text.lit " ") (tokens.map Token.text)] =
        placed ++ [(.eof, pos)] := by
  obtain ⟨b, lexes⟩ := Dialect.lexes_spaced tokens spelled
  rw [← Scan.wide_join] at lexes
  rw [← Text.encodeAll_wide (Text.ascii_join tokens spelled)]
  refine Dialect.tokens_of_lexes rfl lexes fun c hc => ?_
  obtain ⟨b, -, rfl⟩ := List.mem_map.mp hc
  have small := b.toNat_lt
  rw [UInt8.toNat_toUInt32]
  omega

/-- In `x - - 1 - in` the first minus is an operator, the next one a sign, and the last one an operator
again. -/
theorem spelled_signs_read_back :
    let x : Token := .identifier (Text.lit "x")
    let one : Token := .integer (Integer.ofNat 1)
    (∀ t ∈ [x, .symbol .minus, .symbol .minus, one, .symbol .minus, .symbol .kwIn], Token.Spelled t) ∧
    ∃ placed pos, placed.map Prod.fst =
        [x, .symbol .minus, .symbol .unaryMinus, one, .symbol .minus, .symbol .kwIn] ∧
      ({} : Dialect).tokens [Text.lit "x - - 1 - in"] = placed ++ [(.eof, pos)] := by
  intro x one
  have spelled : ∀ t ∈ [x, .symbol .minus, .symbol .minus, one, .symbol .minus, .symbol .kwIn],
      Token.Spelled t := by
    have name : x.Spelled := ⟨by with_unfolding_all rfl, by rfl⟩
    have number : one.Spelled := show 0 ≤ (Integer.ofNat 1).val by decide
    have sign : Token.Spelled (.symbol .minus) := show Symbol.minus ∈ Symbol.spelled by decide
    have word : Token.Spelled (.symbol .kwIn) := show Symbol.kwIn ∈ Symbol.spelled by decide
    simp only [List.forall_mem_cons, name, number, sign, word, true_and]
    exact fun _ none => by cases none
  have read := spelled_tokens_read_back _ spelled
  have text : Text.join (Text.lit " ") (List.map Token.text
      [x, .symbol .minus, .symbol .minus, one, .symbol .minus, .symbol .kwIn]) =
      Text.lit "x - - 1 - in" := by decide +kernel
  rw [text] at read
  exact ⟨spelled, read⟩

end Scripting
