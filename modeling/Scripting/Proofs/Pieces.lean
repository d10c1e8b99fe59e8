import Scripting.Engine
import Scripting.Proofs.RoundTrip.Quoted

/-
Scripts in pieces. A cursor goes through the pieces one character at a time and passes over those that
are used up or empty. Where no piece ends inside the bytes of a character, it comes by the same
characters as in the pieces joined to one, so that everything that is made of them is the same.
-/
namespace Scripting

namespace Utf8

def following (b : UInt8) : Nat :=
  if 0xC0 ≤ b ∧ b < 0xE0 then 1
  else if 0xE0 ≤ b ∧ b < 0xF0 then 2
  else if 0xF0 ≤ b ∧ b < 0xF8 then 3
  else 0

/-- The text ends inside a character: behind a leading byte there are only bytes that go on with it, and
fewer than have to follow. -/
def endsInside : Text → Bool
  | [] => false
  | b :: rest => (rest.all isContinuation && rest.length < following b) || endsInside rest

theorem endsInside_of_suffix {t u : Text} (suffix : t <:+ u) (h : endsInside t = true) :
    endsInside u = true := by
  obtain ⟨front, rfl⟩ := suffix
  induction front with
  | nil => exact h
  | cons b rest ih => simp [endsInside, ih]

/-- Bytes that go on with a character are taken from the front, whatever stands behind them. -/
theorem gather_append {k : Nat} {t : Text} (whole : ¬ (t.all isContinuation = true ∧ t.length < k))
    (acc : Nat) (u : Text) :
    gather k acc (t ++ u) = ((gather k acc t).1, (gather k acc t).2 ++ u) := by
  induction k generalizing acc t with
  | zero => rfl
  | succ k ih =>
    cases t with
    | nil => simp at whole
    | cons b rest =>
      by_cases more : isContinuation b = true
      · have later : ¬ (rest.all isContinuation = true ∧ rest.length < k) := by
          simpa [more] using whole
        simp only [List.cons_append, gather, if_pos more, ih later]
      · simp only [List.cons_append, gather, if_neg more]

theorem decodeFrom_append {b : UInt8} {rest : Text}
    (whole : ¬ (rest.all isContinuation = true ∧ rest.length < following b)) (u : Text) :
    decodeFrom b (rest ++ u) = ((decodeFrom b rest).1, (decodeFrom b rest).2 ++ u) := by
  unfold decodeFrom
  unfold following at whole
  by_cases one : b < 0x80
  · simp only [if_pos one]
  · by_cases two : 0xC0 ≤ b ∧ b < 0xE0
    · rw [if_pos two] at whole
      simp only [if_neg one, if_pos two, gather_append whole]
    · by_cases three : 0xE0 ≤ b ∧ b < 0xF0
      · rw [if_neg two, if_pos three] at whole
        simp only [if_neg one, if_neg two, if_pos three, gather_append whole]
      · by_cases four : 0xF0 ≤ b ∧ b < 0xF8
        · rw [if_neg two, if_neg three, if_pos four] at whole
          simp only [if_neg one, if_neg two, if_neg three, if_pos four, gather_append whole]
        · simp only [if_neg one, if_neg two, if_neg three, if_neg four]

theorem decode_append {t : Text} (whole : endsInside t = false) (u : Text) :
    decode (t ++ u) = decode t ++ decode u := by
  -- by the length of what is left, since a character takes one byte or more
  induction size : t.length using Nat.strongRecOn generalizing t with
  | ind size ih =>
    subst size
    cases t with
    | nil => simp [decode, decodeSteps]
    | cons b rest =>
      have both : (rest.all isContinuation && decide (rest.length < following b)) = false ∧
          endsInside rest = false := by
        simpa only [endsInside, Bool.or_eq_false_iff] using whole
      have here : ¬ (rest.all isContinuation = true ∧ rest.length < following b) := by
        simpa using both.1
      have later : endsInside (decodeFrom b rest).2 = false := by
        rw [Bool.eq_false_iff]
        intro inside
        have broken := endsInside_of_suffix (decodeFrom_rest_suffix b rest) inside
        rw [both.2] at broken
        cases broken
      have shorter : (decodeFrom b rest).2.length < (b :: rest).length :=
        Nat.lt_succ_of_le (decodeFrom_rest_length_le b rest)
      rw [List.cons_append, decode_cons, decode_cons, decodeFrom_append here, ih _ shorter later rfl,
        List.cons_append]

theorem decode_flatten {pieces : List Text} (whole : ∀ t ∈ pieces, endsInside t = false) :
    decode pieces.flatten = pieces.flatMap decode := by
  induction pieces with
  | nil => simp [decode, decodeSteps]
  | cons t rest ih =>
    rw [List.flatten_cons, List.flatMap_cons, decode_append (whole t List.mem_cons_self),
      ih fun u mem => whole u (List.mem_cons_of_mem t mem)]

end Utf8

/-- What is left of a script in pieces: the rest of the piece that is being read, and the pieces behind
it. -/
structure Cursor where
  piece : Text := []
  later : List Text := []

namespace Cursor

def start (pieces : List Text) : Cursor := { later := pieces }

def settle (piece : Text) (later : List Text) : Cursor :=
  match piece, later with
  | [], next :: later => settle next later
  | piece, later => ⟨piece, later⟩

def next? (c : Cursor) : Option (CodePoint × Cursor) :=
  match settle c.piece c.later with
  | ⟨[], _⟩ => none
  | ⟨b :: rest, later⟩ => some ((Utf8.decodeFrom b rest).1, ⟨(Utf8.decodeFrom b rest).2, later⟩)

def peek? (c : Cursor) : Option CodePoint := c.next?.map (·.1)

def rest (c : Cursor) : List CodePoint := Utf8.decode c.piece ++ Scan.codePoints c.later

theorem rest_start (pieces : List Text) : (start pieces).rest = Scan.codePoints pieces := by
  simp [start, rest, Utf8.decode, Utf8.decodeSteps]

theorem rest_settle (piece : Text) (later : List Text) :
    (settle piece later).rest = Utf8.decode piece ++ Scan.codePoints later := by
  induction later generalizing piece with
  | nil => cases piece <;> rfl
  | cons next later ih =>
    cases piece with
    | nil =>
      rw [settle, ih]
      simp [Utf8.decode, Utf8.decodeSteps, Scan.codePoints]
    | cons b bytes => rfl

theorem settle_used {piece : Text} {later : List Text} (used : (settle piece later).piece = []) :
    (settle piece later).later = [] := by
  induction later generalizing piece with
  | nil => cases piece <;> rfl
  | cons next later ih =>
    cases piece with
    | nil => exact ih used
    | cons b bytes => cases used

/-- The cursor goes through the characters in order, and nothing else moves it. -/
theorem next?_rest (c : Cursor) :
    c.next?.map (fun found => (found.1, found.2.rest)) = c.rest.head?.map (·, c.rest.tail) := by
  have same : (settle c.piece c.later).rest = c.rest := rest_settle c.piece c.later
  have used : (settle c.piece c.later).piece = [] → (settle c.piece c.later).later = [] := settle_used
  unfold next?
  rw [← same]
  cases at' : settle c.piece c.later with
  | mk piece later =>
    rw [at'] at used
    cases piece with
    | nil =>
      have none : later = [] := used rfl
      simp [rest, none, Utf8.decode, Utf8.decodeSteps, Scan.codePoints]
    | cons b bytes => simp [rest, Utf8.decode_cons]

theorem peek?_rest (c : Cursor) : c.peek? = c.rest.head? := by
  have next := congrArg (Option.map Prod.fst) (next?_rest c)
  simpa [peek?, Function.comp_def] using next

end Cursor

namespace Dialect

def takeMapped (d : Dialect) (mapper : Token → Token) :
    Nat → ScanState → Position → List CodePoint → List PlacedToken
  | 0, _, _, _ => []
  | cap + 1, state, pos, input =>
    let step := d.next state pos input
    match step.token with
    | none => []
    | some (token, start) =>
      if (mapper token).isEof then [(mapper token, start)]
      else (mapper token, start) :: takeMapped d mapper cap step.state step.pos step.rest

theorem takeMapped_id (d : Dialect) (cap : Nat) (state : ScanState) (pos : Position)
    (input : List CodePoint) : d.takeMapped id cap state pos input = d.take cap state pos input := by
  induction cap generalizing state pos input with
  | zero => rfl
  | succ cap ih =>
    rw [takeMapped, take]
    cases (d.next state pos input).token with
    | none => rfl
    | some placed => simp only [id_eq, ih]

end Dialect

/-- Where no piece ends inside a character, a cursor has the same characters to come in the pieces as
in all of them joined to one; at every moment it gives the first of them and has the others left. So
the same tokens are read at the same places, in every dialect, from every state and through every
mapper, and compiling the pieces gives the same script or the same error, and leaves the same number
for the next closure. -/
theorem pieces_read_as_one {pieces : List Text} (whole : ∀ t ∈ pieces, Utf8.endsInside t = false) :
    (Cursor.start pieces).rest = (Cursor.start [pieces.flatten]).rest ∧
    (∀ c : Cursor, c.peek? = c.rest.head? ∧
      c.next?.map (fun found => (found.1, found.2.rest)) = c.rest.head?.map (·, c.rest.tail)) ∧
    (∀ (d : Dialect) (mapper : Token → Token) cap state pos,
      d.takeMapped mapper cap state pos (Cursor.start pieces).rest =
        d.takeMapped mapper cap state pos (Cursor.start [pieces.flatten]).rest) ∧
    (∀ d : Dialect, d.tokens pieces = d.tokens [pieces.flatten]) ∧
    ∀ (engine : Engine) asExpression nextClosure,
      engine.compile asExpression pieces nextClosure =
        engine.compile asExpression [pieces.flatten] nextClosure := by
  have chars : Scan.codePoints pieces = Scan.codePoints [pieces.flatten] := by
    rw [Scan.codePoints, ← Utf8.decode_flatten whole, Scan.codePoints, List.flatMap_singleton]
  have rest : (Cursor.start pieces).rest = (Cursor.start [pieces.flatten]).rest := by
    rw [Cursor.rest_start, Cursor.rest_start, chars]
  have tokens (d : Dialect) : d.tokens pieces = d.tokens [pieces.flatten] := by
    simp only [Dialect.tokens, chars]
  refine ⟨rest, fun c => ⟨c.peek?_rest, c.next?_rest⟩, fun d mapper cap state pos => by rw [rest],
    tokens, fun engine asExpression nextClosure => ?_⟩
  rw [Engine.compile, Engine.compile, tokens]

/-- A number cut in two, an empty piece, and a piece with a byte that starts a character and is not
followed by the bytes of one. -/
def brokenPieces : List Text :=
  [Text.lit "let x = 0x1", [], Text.lit "F; /", [0x2A, 0xE2, 0x41, 0x2A], Text.lit "/ x", []]

theorem broken_pieces_read_as_one :
    (∀ t ∈ brokenPieces, Utf8.endsInside t = false) ∧
    Engine.standard.dialect.tokens brokenPieces =
      Engine.standard.dialect.tokens [brokenPieces.flatten] :=
  have whole : ∀ t ∈ brokenPieces, Utf8.endsInside t = false := by decide
  ⟨whole, (pieces_read_as_one whole).2.2.2.1 Engine.standard.dialect⟩

end Scripting
