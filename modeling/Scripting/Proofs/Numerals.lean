import Mathlib.Data.Bool.AllAny
import Scripting.Proofs.Spelling

/-
Integer literals. Digits of a radix are added up in 64 bits and never beyond the limit, which is one
higher for a number with a sign; decimal digits are read as a whole. Both give an integer if and only if
the number that the text stands for is one, and then exactly this number.
-/
namespace Scripting.Scan

def digitValue (c : CodePoint) : Nat := (Literal.hexDigit? c).getD 0

def valueBehind (radix n : Nat) (digits : List CodePoint) : Nat :=
  digits.foldl (fun n c => n * radix + digitValue c) n

def digitsOf (text : List CodePoint) : List CodePoint := text.filter (· != underscore)

def literalValue (radix : Nat) (text : List CodePoint) : Nat := valueBehind radix 0 (digitsOf text)

theorem le_valueBehind {radix : Nat} (positive : 0 < radix) (n : Nat) (digits : List CodePoint) :
    n ≤ valueBehind radix n digits := by
  induction digits generalizing n with
  | nil => exact Nat.le_refl n
  | cons c rest ih =>
    have shifted : n ≤ n * radix := Nat.le_mul_of_pos_right n positive
    have later := ih (n * radix + digitValue c)
    simp only [valueBehind, List.foldl_cons] at later ⊢
    omega

/-! ### Digits of a radix -/

theorem radix_of_letter {letter : CodePoint} {radix : Nat} (h : radix? letter = some radix) :
    2 ≤ radix ∧ radix ≤ 16 := by
  unfold radix? at h
  repeat' split at h
  all_goals simp at h
  all_goals omega

theorem hexDigit?_of_radixDigit {radix : Nat} {c : CodePoint} (h : isRadixDigit radix c = true) :
    Literal.hexDigit? c = some (digitValue c) ∧ digitValue c < radix := by
  unfold isRadixDigit at h
  unfold digitValue
  cases value : Literal.hexDigit? c with
  | none => simp [value] at h
  | some d => simpa [value] using h

/-- The test before a digit is taken says whether the number with the digit is beyond the limit. -/
theorem beyond_iff {radix d : Nat} {limit value : UInt64} (positive : 0 < radix) (few : radix ≤ 16)
    (digit : d < radix) (room : 16 ≤ limit.toNat) :
    (limit - UInt64.ofNat d) / UInt64.ofNat radix < value ↔ limit.toNat < value.toNat * radix + d := by
  have radixBits : (UInt64.ofNat radix).toNat = radix := by
    rw [UInt64.toNat_ofNat']
    omega
  have digitBits : (UInt64.ofNat d).toNat = d := by
    rw [UInt64.toNat_ofNat']
    omega
  have below : UInt64.ofNat d ≤ limit := by
    rw [UInt64.le_iff_toNat_le, digitBits]
    omega
  rw [UInt64.lt_iff_toNat_lt, UInt64.toNat_div, UInt64.toNat_sub_of_le _ _ below, radixBits, digitBits,
    Nat.div_lt_iff_lt_mul positive]
  omega

theorem taken_digit {radix d : Nat} {limit value : UInt64} (few : radix ≤ 16) (digit : d < radix)
    (within : value.toNat * radix + d ≤ limit.toNat) :
    (value * UInt64.ofNat radix + UInt64.ofNat d).toNat = value.toNat * radix + d := by
  have bits := limit.toNat_lt
  rw [UInt64.toNat_add, UInt64.toNat_mul, UInt64.toNat_ofNat', UInt64.toNat_ofNat',
    Nat.mod_eq_of_lt (show radix < 2 ^ 64 by omega), Nat.mod_eq_of_lt (show d < 2 ^ 64 by omega)]
  rw [Nat.mod_eq_of_lt (show value.toNat * radix < 2 ^ 64 by omega)]
  exact Nat.mod_eq_of_lt (by omega)

section
variable {radix : Nat} (positive : 0 < radix) (few : radix ≤ 16)
include positive few

theorem magnitude?_eq {limit : UInt64} (room : 16 ≤ limit.toNat) {digits : List CodePoint}
    (valid : ∀ c ∈ digits, isRadixDigit radix c = true) {value : UInt64}
    (within : value.toNat ≤ limit.toNat) :
    (magnitude? radix limit value digits).map UInt64.toNat =
      if valueBehind radix value.toNat digits ≤ limit.toNat then
        some (valueBehind radix value.toNat digits)
      else none := by
  induction digits generalizing value with
  | nil => simp [magnitude?, valueBehind, within]
  | cons c rest ih =>
    obtain ⟨known, small⟩ := hexDigit?_of_radixDigit (valid c List.mem_cons_self)
    have fits : ¬ radix ≤ digitValue c := by omega
    have later := fun d hd => valid d (List.mem_cons_of_mem c hd)
    have next : valueBehind radix value.toNat (c :: rest) =
        valueBehind radix (value.toNat * radix + digitValue c) rest := rfl
    rw [magnitude?, known]
    simp only [if_neg fits, next]
    split
    · next beyond =>
      have exceeds := (beyond_iff positive few small room).mp beyond
      have grown := le_valueBehind positive (value.toNat * radix + digitValue c) rest
      rw [if_neg (by omega), Option.map_none]
    · next inside =>
      have under : value.toNat * radix + digitValue c ≤ limit.toNat := by
        have own := mt (beyond_iff positive few small room).mpr inside
        omega
      have taken := taken_digit few small under
      have behind := ih later (taken.symm ▸ under)
      rw [behind, taken]

theorem radixValue?_eq (negative : Bool) {digits : List CodePoint}
    (valid : ∀ c ∈ digits, isRadixDigit radix c = true) :
    radixValue? radix negative digits =
      if digits = [] then none
      else Fixed.ofInt? .i64 (signed negative (valueBehind radix 0 digits)) := by
  have limit : (magnitudeLimit negative).toNat = if negative then 2 ^ 63 else 2 ^ 63 - 1 := by
    cases negative <;> rfl
  have room : 16 ≤ (magnitudeLimit negative).toNat := by
    rw [limit]
    split <;> omega
  have start : (0 : UInt64).toNat ≤ (magnitudeLimit negative).toNat := Nat.zero_le _
  have added := magnitude?_eq positive few room valid start
  have holds : IntType.i64.Holds (signed negative (valueBehind radix 0 digits)) ↔
      valueBehind radix 0 digits ≤ (magnitudeLimit negative).toNat := by
    rw [limit]
    cases negative <;>
      simp [IntType.Holds, IntType.least, IntType.greatest, IntType.signed, IntType.count, IntType.bits,
        signed]
  unfold radixValue?
  simp only [List.isEmpty_iff]
  split
  · rfl
  · change Option.map _ (magnitude? radix (magnitudeLimit negative) 0 digits) = _
    rw [UInt64.toNat_zero] at added
    unfold Fixed.ofInt?
    cases read : magnitude? radix (magnitudeLimit negative) 0 digits with
    | none =>
      rw [read, Option.map_none] at added
      have outside := mt holds.mp fun inside => by simp [if_pos inside] at added
      rw [dif_neg outside, Option.map_none]
    | some value =>
      rw [read, Option.map_some] at added
      split at added
      · next inside =>
        have same : value.toNat = valueBehind radix 0 digits := Option.some.inj added
        rw [dif_pos (holds.mpr inside), Option.map_some, same]
        refine congrArg some (Fixed.eq_of_val ?_)
        exact IntType.reduce_of_holds _ _ (holds.mpr inside)
      · cases added

end

/-! ### The text of a literal -/

def signText (negative : Bool) : List CodePoint := if negative then [minus] else []

variable {rest : List CodePoint}

theorem numberText_radix {letter : CodePoint} {radix : Nat} (known : radix? letter = some radix)
    {tail : List CodePoint} (digits : ∀ c ∈ tail, isRadixDigit radix c = true ∨ c = underscore)
    (ends : ∀ c ∈ rest.head?, isRadixDigit radix c = false ∧ c ≠ underscore) :
    numberText 48 (letter :: (tail ++ rest)) = ⟨48 :: letter :: tail, some radix, rest⟩ := by
  have plain : (isDigit letter || letter == underscore || letter == point) = false := by
    unfold radix? at known
    repeat' split at known
    all_goals first | (rename_i own; rcases own with rfl | rfl <;> decide) | cases known
  have all : ∀ c ∈ tail, (isRadixDigit radix c || c == underscore) = true := by
    intro c hc
    rcases digits c hc with digit | same <;> simp [*]
  have stops : ∀ c ∈ rest.head?, (isRadixDigit radix c || c == underscore) = false := by
    intro c head
    simp [ends c head]
  obtain ⟨taken, left⟩ := takeWhile_stops all stops
  unfold numberText
  simp [plain, known, taken, left]

theorem nextFrom_number {state : ScanState} {negative : Bool}
    (unary : negative = true → state.afterOperand = false) {first : CodePoint}
    (digit : isDigit first = true) (pos : Position) (input : List CodePoint) :
    ∃ start after, nextFrom state pos (signText negative ++ first :: input) =
      ⟨some (numberToken negative (numberText first input), start), state, after,
        (numberText first input).rest⟩ := by
  have line : first ≠ Literal.newline := by
    rintro rfl
    cases digit
  cases negative with
  | false =>
    refine ⟨pos.advance, pos.advance.advanceBy ((numberText first input).chars.length - 1), ?_⟩
    rw [signText, if_neg (by decide), List.nil_append, nextFrom]
    simp only [if_neg line, if_pos digit, numberStep]
  | true =>
    have starts : startsWithDigit (first :: input) = true := digit
    refine ⟨pos.advance.advance,
      pos.advance.advance.advanceBy ((numberText first input).chars.length - 1), ?_⟩
    rw [signText, if_pos rfl, List.cons_append, List.nil_append, nextFrom]
    simp [Literal.newline, isLetter, isDigit, underscore, doubleQuote, singleQuote, isBlank, minus,
      starts, unary rfl, numberStep]

theorem digitsValue_ascii {digits : List CodePoint} (all : ∀ c ∈ digits, isDigit c = true) :
    Decimal.digitsValue (ascii digits) = valueBehind 10 0 digits := by
  have same (c : CodePoint) (h : isDigit c = true) : c.toUInt8.toNat - 48 = digitValue c := by
    simp only [isDigit, Bool.and_eq_true, decide_eq_true_eq] at h
    have known : Literal.hexDigit? c = some (c.toNat - 48) := if_pos h
    have bounds := h
    rw [UInt32.le_iff_toNat_le, UInt32.le_iff_toNat_le] at bounds
    rw [digitValue, known, Option.getD_some, UInt32.toNat_toUInt8]
    have upper : c.toNat ≤ 57 := bounds.2
    omega
  unfold Decimal.digitsValue ascii valueBehind
  rw [List.foldl_map]
  generalize 0 = n
  induction digits generalizing n with
  | nil => rfl
  | cons c rest ih =>
    rw [List.foldl_cons, List.foldl_cons, same c (all c List.mem_cons_self)]
    exact ih (fun d hd => all d (List.mem_cons_of_mem c hd)) _

theorem isDigit_toUInt8 {c : CodePoint} (h : isDigit c = true) : Text.isDigit c.toUInt8 = true := by
  simp only [isDigit, Bool.and_eq_true, decide_eq_true_eq, UInt32.le_iff_toNat_le] at h
  have lower : 48 ≤ c.toNat := h.1
  have upper : c.toNat ≤ 57 := h.2
  simp only [Text.isDigit, Bool.and_eq_true, decide_eq_true_eq, UInt8.le_iff_toNat_le,
    UInt32.toNat_toUInt8]
  constructor
  · change 48 ≤ c.toNat % 2 ^ 8
    omega
  · change c.toNat % 2 ^ 8 ≤ 57
    omega

/-- The token of decimal digits and underscores is the integer they stand for, if there is one. -/
theorem numberToken_decimal (negative : Bool) {text : List CodePoint}
    (digits : ∀ c ∈ text, isDigit c = true ∨ c = underscore) (n : Integer) :
    numberToken negative ⟨text, none, rest⟩ = .integer n ↔
      n.val = signed negative (literalValue 10 text) := by
  have kept : ∀ c ∈ digitsOf text, isDigit c = true := by
    intro c hc
    obtain ⟨mem, other⟩ := List.mem_filter.mp hc
    rcases digits c mem with digit | same
    · exact digit
    · simp [same] at other
  have bytes : (ascii (text.filter (· != underscore))).all Text.isDigit = true := by
    simp only [ascii, List.all_map, List.all_eq_true]
    exact fun c hc => isDigit_toUInt8 (kept c hc)
  have value : Decimal.digitsValue (ascii (text.filter (· != underscore))) = literalValue 10 text :=
    digitsValue_ascii kept
  rw [← Fixed.ofInt?_eq_some]
  unfold numberToken
  simp only [bytes, value, if_true]
  cases Fixed.ofInt? .i64 (signed negative (literalValue 10 text)) with
  | some m => simp only [Token.integer.injEq, Option.some.injEq]
  | none =>
    -- What is no integer is a float or at fault.
    cases Decimal.read? negative (ascii (text.filter (· != underscore))) <;>
      simp only [reduceCtorEq]

theorem numberToken_radix (negative : Bool) {letter : CodePoint} {radix : Nat}
    (known : radix? letter = some radix) {tail : List CodePoint}
    (digits : ∀ c ∈ tail, isRadixDigit radix c = true ∨ c = underscore) :
    numberToken negative ⟨48 :: letter :: tail, some radix, rest⟩ =
      match (if digitsOf tail = [] then none
        else Fixed.ofInt? .i64 (signed negative (literalValue radix tail))) with
      | some n => .integer n
      | none => .fault { fault := .malformedNumber
                         text := ascii (signText negative ++ 48 :: letter :: tail) } := by
  obtain ⟨low, few⟩ := radix_of_letter known
  have valid : ∀ c ∈ digitsOf tail, isRadixDigit radix c = true := by
    intro c hc
    obtain ⟨mem, other⟩ := List.mem_filter.mp hc
    rcases digits c mem with digit | same
    · exact digit
    · simp [same] at other
  have value := radixValue?_eq (by omega) few negative valid
  have text : (if negative then Text.lit "-" else []) ++ ascii (48 :: letter :: tail) =
      ascii (signText negative ++ 48 :: letter :: tail) := by
    cases negative <;> rfl
  unfold digitsOf at value ⊢
  unfold numberToken
  simp only [List.drop_succ_cons, List.drop_zero, value, text]
  rfl

/-! ### Literals in a stream -/

theorem next_of_nextFrom {state : ScanState} (outside : state.commentLevel = 0) {pos : Position}
    {input : List CodePoint} {step : Step} (read : nextFrom state pos input = step) :
    (next state pos input).token = step.token ∧ (next state pos input).rest = step.rest := by
  subst read
  unfold next
  rw [if_pos outside]
  unfold Step.remember
  cases token : (nextFrom state pos input).token with
  | none => simp [token]
  | some placed => simp [token]

section
variable {state : ScanState} (outside : state.commentLevel = 0) {negative : Bool}
  (unary : negative = true → state.afterOperand = false) (pos : Position)
include outside unary

theorem decimal_read {first : CodePoint} (digit : isDigit first = true) {tail : List CodePoint}
    (digits : ∀ c ∈ tail, isDigit c = true ∨ c = underscore)
    (ends : ∀ c ∈ rest.head?, continuesDecimal first c = false) :
    ∃ token start, (next state pos (signText negative ++ first :: tail ++ rest)).token =
        some (token, start) ∧
      (next state pos (signText negative ++ first :: tail ++ rest)).rest = rest ∧
      ∀ n : Integer, token = .integer n ↔
        n.val = signed negative (literalValue 10 (first :: tail)) := by
  obtain ⟨start, after, read⟩ := nextFrom_number unary digit pos (tail ++ rest)
  rw [numberText_decimal digits ends] at read
  have given := next_of_nextFrom outside read
  rw [List.append_assoc, List.cons_append]
  have all : ∀ c ∈ first :: tail, isDigit c = true ∨ c = underscore := by
    intro c hc
    rcases List.mem_cons.mp hc with rfl | hc
    · exact Or.inl digit
    · exact digits c hc
  exact ⟨_, start, given.1, given.2, numberToken_decimal negative all⟩

theorem radix_read {letter : CodePoint} {radix : Nat} (known : radix? letter = some radix)
    {tail : List CodePoint} (digits : ∀ c ∈ tail, isRadixDigit radix c = true ∨ c = underscore)
    (ends : ∀ c ∈ rest.head?, isRadixDigit radix c = false ∧ c ≠ underscore) :
    ∃ token start, (next state pos (signText negative ++ 48 :: letter :: tail ++ rest)).token =
        some (token, start) ∧
      (next state pos (signText negative ++ 48 :: letter :: tail ++ rest)).rest = rest ∧
      token = match (if digitsOf tail = [] then none
          else Fixed.ofInt? .i64 (signed negative (literalValue radix tail))) with
        | some n => .integer n
        | none => .fault { fault := .malformedNumber
                           text := ascii (signText negative ++ 48 :: letter :: tail) } := by
  obtain ⟨start, after, read⟩ := nextFrom_number unary (by decide : isDigit 48 = true) pos
    (letter :: (tail ++ rest))
  rw [numberText_radix known digits ends] at read
  have given := next_of_nextFrom outside read
  rw [List.append_assoc, List.cons_append, List.cons_append]
  exact ⟨_, start, given.1, given.2, numberToken_radix negative known digits⟩

end

theorem literalValue_ofNat (n : Nat) : literalValue 10 (wide (Text.ofNat n)) = n := by
  have all := isDigit_wide (Text.isDigit_ofNat n)
  have kept : digitsOf (wide (Text.ofNat n)) = wide (Text.ofNat n) := by
    rw [digitsOf, List.filter_eq_self]
    intro c hc
    rw [bne_iff_ne]
    rintro rfl
    cases all _ hc
  rw [literalValue, kept, ← digitsValue_ascii all, ascii_wide, Text.digitsValue_ofNat]

theorem wide_ofInt (n : Int) :
    wide (Text.ofInt n) = signText (decide (n < 0)) ++ wide (Text.ofNat n.natAbs) := by
  unfold Text.ofInt
  by_cases negative : n < 0
  · simp [negative, signText, wide, minus, show Text.lit "-" = [45] from rfl]
  · simp [negative, signText]

theorem ascii_ofInt (n : Int) : Text.Ascii (Text.ofInt n) := by
  have digits (k : Nat) : Text.Ascii (Text.ofNat k) := by
    intro b hb
    have digit := List.all_eq_true.mp (Text.isDigit_ofNat k) b hb
    simp only [Text.isDigit, Bool.and_eq_true, decide_eq_true_eq, UInt8.le_iff_toNat_le] at digit
    have upper : b.toNat ≤ 57 := digit.2
    rw [UInt8.lt_iff_toNat_lt]
    change b.toNat < 128
    omega
  unfold Text.ofInt
  split
  · intro b hb
    rcases List.mem_append.mp hb with sign | digit
    · rw [List.mem_singleton.mp sign]
      decide
    · exact digits _ b digit
  · exact digits _

theorem integer_reads_back (n : Integer) (pos : Position) :
    ∃ start, (next {} pos (codePoints [n.text])).token = some (.integer n, start) ∧
      (next {} pos (codePoints [n.text])).rest = [] := by
  obtain ⟨first, tail, chars, digit, digits⟩ := wide_ofNat n.val.natAbs
  have text : codePoints [n.text] = signText (decide (n.val < 0)) ++ first :: tail ++ [] := by
    rw [Fixed.text, codePoints_wide (ascii_ofInt n.val), wide_ofInt, chars, List.append_nil]
  have fresh : ({} : ScanState).commentLevel = 0 := rfl
  have ends : ∀ c ∈ ([] : List CodePoint).head?, continuesDecimal first c = false := by simp
  obtain ⟨token, start, given, left, own⟩ := decimal_read fresh (fun _ => rfl) pos digit
    (fun c hc => Or.inl (digits c hc)) ends
  have value : n.val = signed (decide (n.val < 0)) (literalValue 10 (first :: tail)) := by
    rw [← chars, literalValue_ofNat, signed]
    split
    · next negative =>
      have below : n.val < 0 := by simpa using negative
      omega
    · next positive =>
      have above : ¬ n.val < 0 := by simpa using positive
      omega
  rw [text]
  exact ⟨start, (own n).mpr value ▸ given, left⟩

/-- A decimal literal, in front of something that does not go on with it, is an integer if and only if
the number that it stands for is one, and then it is this integer; a literal with a radix letter is
the integer that it stands for, if it has a digit and the number is an integer, and otherwise a fault
with the text of all of it. So the text of every integer reads back as this integer. -/
theorem integer_literals_are_exact (state : ScanState) (outside : state.commentLevel = 0)
    {negative : Bool} (unary : negative = true → state.afterOperand = false) (pos : Position)
    (rest : List CodePoint) :
    (∀ first tail, isDigit first = true → (∀ c ∈ tail, isDigit c = true ∨ c = underscore) →
      (∀ c ∈ rest.head?, continuesDecimal first c = false) →
      ∃ token start, (next state pos (signText negative ++ first :: tail ++ rest)).token =
          some (token, start) ∧
        (next state pos (signText negative ++ first :: tail ++ rest)).rest = rest ∧
        ∀ n : Integer, token = .integer n ↔
          n.val = signed negative (literalValue 10 (first :: tail))) ∧
    (∀ letter radix tail, radix? letter = some radix →
      (∀ c ∈ tail, isRadixDigit radix c = true ∨ c = underscore) →
      (∀ c ∈ rest.head?, isRadixDigit radix c = false ∧ c ≠ underscore) →
      ∃ token start, (next state pos (signText negative ++ 48 :: letter :: tail ++ rest)).token =
          some (token, start) ∧
        (next state pos (signText negative ++ 48 :: letter :: tail ++ rest)).rest = rest ∧
        token = match (if digitsOf tail = [] then none
            else Fixed.ofInt? .i64 (signed negative (literalValue radix tail))) with
          | some n => .integer n
          | none => .fault { fault := .malformedNumber
                             text := ascii (signText negative ++ 48 :: letter :: tail) }) ∧
    ∀ (n : Integer) (pos : Position), ∃ start,
      (next {} pos (codePoints [n.text])).token = some (.integer n, start) ∧
        (next {} pos (codePoints [n.text])).rest = [] := by
  refine ⟨?_, ?_, integer_reads_back⟩
  · intro first tail digit digits ends
    exact decimal_read outside unary pos digit digits ends
  · intro letter radix tail known digits ends
    exact radix_read outside unary pos known digits ends

def leastInteger : Integer := Integer.wrap IntType.i64.least

/-- `0x8000_0000_0000_0000` and `9223372036854775808` behind a minus are the least integer, and without
the minus no integers. -/
theorem integer_literals_are_exact_limits :
    let space : List CodePoint := [32]
    let digits := signChars "8000_0000_0000_0000"
    let decimal := signChars "223372036854775808"
    (∃ start, (next {} .start (signText true ++ 48 :: 120 :: digits ++ space)).token =
      some (.integer leastInteger, start)) ∧
    (∃ start, (next {} .start (signText false ++ 48 :: 120 :: digits ++ space)).token =
      some (.fault { fault := .malformedNumber, text := Text.lit "0x8000_0000_0000_0000" }, start)) ∧
    (∃ start, (next {} .start (signText true ++ 57 :: decimal ++ space)).token =
      some (.integer leastInteger, start)) ∧
    ∃ token start, (next {} .start (signText false ++ 57 :: decimal ++ space)).token =
      some (token, start) ∧ ∀ n : Integer, token ≠ .integer n := by
  intro space digits decimal
  have fresh : ({} : ScanState).commentLevel = 0 := rfl
  have negative := integer_literals_are_exact {} fresh (fun _ : true = true => rfl) .start space
  have positive := integer_literals_are_exact {} fresh (fun h : false = true => by cases h) .start space
  -- To decide a bound quantifier over code points at once would be to go through all of them.
  have hex : ∀ c ∈ digits, isRadixDigit 16 c = true ∨ c = underscore :=
    List.all_iff_forall_prop.mp (by decide +kernel)
  have plain : ∀ c ∈ decimal, isDigit c = true ∨ c = underscore :=
    List.all_iff_forall_prop.mp (by decide +kernel)
  have hexEnds : ∀ c ∈ space.head?, isRadixDigit 16 c = false ∧ c ≠ underscore := by
    rintro c ⟨⟩
    decide
  have ends : ∀ c ∈ space.head?, continuesDecimal 57 c = false := by
    rintro c ⟨⟩
    decide
  obtain ⟨least, start, given, -, own⟩ := negative.2.1 120 16 digits rfl hex hexEnds
  obtain ⟨fault, start', given', -, own'⟩ := positive.2.1 120 16 digits rfl hex hexEnds
  obtain ⟨token, start'', given'', -, exactly⟩ := negative.1 57 decimal (by decide) plain ends
  obtain ⟨other, start''', given''', -, exactly'⟩ := positive.1 57 decimal (by decide) plain ends
  refine ⟨⟨start, ?_⟩, ⟨start', ?_⟩, ⟨start'', ?_⟩, other, start''', given''', ?_⟩
  · rw [given, own]
    rfl
  · rw [given', own']
    rfl
  · rw [given'', (exactly leastInteger).mpr (by decide +kernel)]
  · intro n same
    have value := (exactly' n).mp same
    have large : signed false (literalValue 10 (57 :: decimal)) = 9223372036854775808 := by
      decide +kernel
    have inside : n.val ≤ 9223372036854775807 := n.inside.2
    omega

end Scripting.Scan
