import Scripting.Proofs.Characters

/-
The limit on strings. While a literal is read its characters are counted, and at its end its bytes; the
evaluator counts characters. So the two agree about a literal unless only its bytes exceed the limit.
-/
namespace Scripting

namespace Utf8

theorem length_le_encodeAll (cs : List CodePoint) : cs.length ≤ (encodeAll cs).length := by
  rw [← length_encodeAll]
  exact List.length_filter_le _ _

theorem length_encodeAll_ascii {cs : List CodePoint} (ascii : ∀ c ∈ cs, c.toNat < 0x80) :
    (encodeAll cs).length = cs.length := by
  induction cs with
  | nil => rfl
  | cons c cs ih =>
    rw [encodeAll, List.flatMap_cons, encode_ascii (ascii c List.mem_cons_self), List.length_append,
      ← encodeAll, ih fun d hd => ascii d (List.mem_cons_of_mem c hd), List.length_singleton,
      List.length_cons, Nat.add_comm]

end Utf8

namespace Literal

def hexFrom? (n : Nat) : List CodePoint → Option Nat
  | [] => some n
  | c :: digits => (hexDigit? c).bind fun d => hexFrom? (n * 16 + d) digits

/-- What a character may be spelled as between two quotes. -/
inductive Part (quote : CodePoint) : List CodePoint → CodePoint → Prop
  | plain {c : CodePoint} (free : c ≠ backslash ∧ c ≠ quote ∧ c ≠ newline) : Part quote [c] c
  | escape {letter c : CodePoint} (single : escapeDigits? letter = none)
      (known : escapeChar? quote letter = some c) : Part quote [backslash, letter] c
  | numeric {letter : CodePoint} {digits : List CodePoint} {n : Nat}
      (many : escapeDigits? letter = some digits.length) (value : hexFrom? 0 digits = some n)
      (scalar : isScalar n = true) : Part quote (backslash :: letter :: digits) (UInt32.ofNat n)

/-- A well-formed literal without its quotes, and its characters. -/
inductive Spells (quote : CodePoint) : List CodePoint → List CodePoint → Prop
  | nil : Spells quote [] []
  | cons {part text chars : List CodePoint} {c : CodePoint} (first : Part quote part c)
      (later : Spells quote text chars) : Spells quote (part ++ text) (c :: chars)

section
variable {σ α : Type} {sink : Sink σ α} {limit : Nat} {quote : CodePoint} {found : σ}

theorem readFrom_digits {digits : List CodePoint} {n value : Nat} (some' : digits ≠ [])
    (spelled : hexFrom? n digits = some value) (scalar : isScalar value = true) (seen : Text)
    (pos : Position) (input : List CodePoint) : ∃ after,
      readFrom sink limit quote (.numeric digits.length n seen) found pos (digits ++ input) =
        readFrom sink limit quote .plain (sink.push found (UInt32.ofNat value)) after input := by
  induction digits generalizing n seen pos with
  | nil => exact absurd rfl some'
  | cons c digits ih =>
    obtain ⟨d, digit, rest⟩ := Option.bind_eq_some_iff.mp spelled
    rw [List.cons_append, readFrom]
    simp only [digit, List.length_cons]
    cases digits with
    | nil =>
      cases rest
      exact ⟨pos.advance, by simp [scalar]⟩
    | cons c' digits =>
      rw [if_pos (by simp)]
      exact ih (List.cons_ne_nil _ _) rest _ _

theorem readFrom_part (fits : ¬ (0 < limit ∧ limit < sink.count found)) {part : List CodePoint}
    {c : CodePoint} (h : Part quote part c) (pos : Position) (input : List CodePoint) : ∃ after,
      readFrom sink limit quote .plain found pos (part ++ input) =
        readFrom sink limit quote .plain (sink.push found c) after input := by
  cases h with
  | plain free =>
    refine ⟨pos.advance, ?_⟩
    simp only [List.cons_append, List.nil_append, readFrom, if_neg fits, if_neg free.1,
      if_neg free.2.1, if_neg free.2.2]
  | escape single known =>
    refine ⟨pos.advance.advance, ?_⟩
    simp only [List.cons_append, List.nil_append, readFrom, if_neg fits, single, known]
    rfl
  | @numeric letter digits n many value scalar =>
    have some' : digits ≠ [] := by
      rintro rfl
      simp only [escapeDigits?, List.length_nil] at many
      split at many
      · cases many
      · split at many
        · cases many
        · split at many <;> cases many
    simp only [List.cons_append, readFrom, if_neg fits, many]
    exact readFrom_digits some' value scalar _ _ input

theorem readFrom_exceeded (beyond : 0 < limit ∧ limit < sink.count found) (pos : Position)
    (input : List CodePoint) (some' : input ≠ []) :
    (readFrom sink limit quote .plain found pos input).result = .error (tooLong limit) := by
  cases input with
  | nil => exact absurd rfl some'
  | cons c input => rw [readFrom, if_pos beyond]

end

variable {limit : Nat} {quote : CodePoint}

theorem readFrom_spells (mark : quote ≠ backslash) (limited : 0 < limit)
    {text chars : List CodePoint} (spells : Spells quote text chars) (found rest : List CodePoint)
    (pos : Position) :
    let bytes := (Utf8.encodeAll (found.reverse ++ chars)).length
    let reading := readFrom (.chars limit) limit quote .plain found pos (text ++ quote :: rest)
    (limit < bytes → reading.result = .error (tooLong limit)) ∧
      (bytes ≤ limit → ∃ after, reading = ⟨.ok (found.reverse ++ chars), after, rest⟩) := by
  induction spells generalizing found pos with
  | nil =>
    by_cases beyond : limit < found.length
    · have more := Utf8.length_le_encodeAll (found.reverse ++ [])
      rw [List.append_nil, List.length_reverse] at more
      refine ⟨fun _ => readFrom_exceeded ⟨limited, beyond⟩ pos _ (List.cons_ne_nil _ _), fun fits => ?_⟩
      rw [List.append_nil] at fits
      omega
    · simp only [List.nil_append, List.append_nil, readFrom, Sink.chars, limited, beyond, and_false,
        if_false, mark, if_true, finish, true_and]
      refine ⟨fun exceeds => by rw [if_pos exceeds], fun fits => ⟨pos.advance, ?_⟩⟩
      rw [if_neg (by omega)]
  | @cons part text chars c first later ih =>
    by_cases beyond : limit < found.length
    · have more := Utf8.length_le_encodeAll (found.reverse ++ c :: chars)
      rw [List.length_append, List.length_reverse] at more
      refine ⟨fun _ => readFrom_exceeded ⟨limited, beyond⟩ pos _ (by simp), fun fits => ?_⟩
      omega
    · have fits : ¬ (0 < limit ∧ limit < (Sink.chars limit).count found) := fun both => beyond both.2
      obtain ⟨after, read⟩ := readFrom_part fits first pos (text ++ quote :: rest)
      have done := ih (c :: found) after
      rw [List.reverse_cons, List.append_assoc, List.singleton_append] at done
      rw [List.append_assoc, read]
      exact done

end Literal

theorem Eval.checkSize_encodeAll (engine : Engine) (limited : 0 < engine.limits.string)
    (chars : List CodePoint) (pos : Position) :
    Eval.checkSize engine (.string (Utf8.encodeAll chars)) pos =
      if engine.limits.string < chars.length then
        .error (.cause (.dataTooLarge .string engine.limits.string) pos)
      else .ok () := by
  simp [Eval.checkSize, Utf8.length_encodeAll, limited]

namespace Literal

/-- A literal is refused for its bytes, the string of the same characters for their number. Each is
refused exactly then, so the two agree exactly about the literals that have more characters than the
limit or no more bytes: whatever the evaluator refuses is refused in a literal, and of ASCII characters
nothing else is. -/
theorem literal_limit_counts_bytes {quote : CodePoint} (mark : quote ≠ backslash)
    {text chars : List CodePoint} (spells : Spells quote text chars) (engine : Engine)
    (limited : 0 < engine.limits.string) (start pos : Position) (rest : List CodePoint) :
    let limit := engine.limits.string
    let bytes := (Utf8.encodeAll chars).length
    let reading := read limit quote start (text ++ quote :: rest)
    let check := Eval.checkSize engine (.string (Utf8.encodeAll chars)) pos
    (limit < bytes → reading.result = .error (tooLong limit)) ∧
    (bytes ≤ limit → ∃ after, reading = ⟨.ok chars, after, rest⟩) ∧
    (limit < chars.length → check = .error (.cause (.dataTooLarge .string limit) pos)) ∧
    (chars.length ≤ limit → check = .ok ()) ∧
    ((reading.result = .error (tooLong limit) ↔ check ≠ .ok ()) ↔
      limit < chars.length ∨ bytes ≤ limit) ∧
    (check ≠ .ok () → reading.result = .error (tooLong limit)) ∧
    ((∀ c ∈ chars, c.toNat < 0x80) → (reading.result = .error (tooLong limit) ↔ check ≠ .ok ())) := by
  intro limit bytes reading check
  obtain ⟨exceeds, fits⟩ := readFrom_spells mark limited spells [] rest start
  have fewer : chars.length ≤ bytes := Utf8.length_le_encodeAll chars
  have refused : reading.result = .error (tooLong limit) ↔ limit < bytes := by
    refine ⟨fun failed => ?_, exceeds⟩
    by_contra within
    obtain ⟨after, read⟩ := fits (Nat.le_of_not_lt within)
    have given : reading.result = .ok chars := congrArg Reading.result read
    rw [given] at failed
    cases failed
  have checked : check = if limit < chars.length then
      .error (.cause (.dataTooLarge .string limit) pos) else .ok () :=
    Eval.checkSize_encodeAll engine limited chars pos
  have rejected : check ≠ .ok () ↔ limit < chars.length := by
    rw [checked]
    split <;> simp_all
  refine ⟨exceeds, fits, fun beyond => ?_, fun within => ?_, ?_, ?_, fun ascii => ?_⟩
  · rw [checked, if_pos beyond]
  · rw [checked, if_neg (Nat.not_lt.mpr within)]
  · rw [refused, rejected]
    omega
  · rw [refused, rejected]
    omega
  · have same : bytes = chars.length := Utf8.length_encodeAll_ascii ascii
    rw [refused, rejected, same]

def stringEngine (limit : Nat) : Engine := { Engine.standard with limits := { string := limit } }

/-- Three characters in five bytes, spelled as themselves, as a number and by a letter. -/
theorem literal_limit_counts_bytes_accents :
    let text : List CodePoint := [233, 92, 117, 48, 48, 69, 57, 92, 116]
    Spells 34 text [233, 233, 9] ∧
      (read 4 34 .nowhere (text ++ [34])).result = .error (tooLong 4) ∧
      Eval.checkSize (stringEngine 4) (.string (Utf8.encodeAll [233, 233, 9])) .nowhere = .ok () := by
  intro text
  have spells : Spells 34 text [233, 233, 9] :=
    .cons (.plain (by decide)) (.cons (@Part.numeric _ 117 [48, 48, 69, 57] 233 rfl rfl rfl)
      (.cons (.escape rfl rfl) .nil))
  obtain ⟨exceeds, -, -, fits, -⟩ :=
    literal_limit_counts_bytes (by decide) spells (stringEngine 4) (by decide) .nowhere .nowhere []
  exact ⟨spells, exceeds (by decide), fits (by decide)⟩

/-- A literal of two accented letters is too long for a limit of three, their string is not. -/
theorem fitting_string_is_no_literal :
    Spells 34 [233, 233] [233, 233] ∧
      (read 3 34 .nowhere [233, 233, 34]).result = .error (tooLong 3) ∧
      Eval.checkSize (stringEngine 3) (.string (Utf8.encodeAll [233, 233])) .nowhere = .ok () :=
  ⟨.cons (.plain (by decide)) (.cons (.plain (by decide)) .nil), by decide, by rfl⟩

end Literal

end Scripting
