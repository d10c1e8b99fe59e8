import Scripting.Proofs.Pieces
import Scripting.Token.Delivery

/-
Literals that are read into a variable. What has been written between quotes comes back into the
variable byte for byte, and no byte behind the closing quote is looked at; a literal with a fault in it,
of whatever kind and wherever it is, leaves the variable alone.
-/
namespace Scripting

namespace Cursor

inductive Passes : Cursor → List CodePoint → Cursor → Prop
  | stay (c : Cursor) : Passes c [] c
  | next {c d e : Cursor} {x : CodePoint} {xs : List CodePoint} (first : c.next? = some (x, d))
      (later : Passes d xs e) : Passes c (x :: xs) e

theorem Passes.rest_eq {c d : Cursor} {xs : List CodePoint} (h : Passes c xs d) :
    c.rest = xs ++ d.rest := by
  induction h with
  | stay c => rfl
  | @next c d e x xs first later ih =>
    have moved := next?_rest c
    rw [first] at moved
    cases left : c.rest with
    | nil => simp [left] at moved
    | cons y ys =>
      simp only [left, Option.map_some, List.head?_cons, List.tail_cons, Option.some.injEq,
        Prod.mk.injEq] at moved
      rw [moved.1, ← moved.2, ih, List.cons_append]

theorem passes_encodeAll {cs : List CodePoint} (small : ∀ c ∈ cs, c.toNat < 0x200000) (rest : Text)
    (later : List Text) : Passes ⟨Utf8.encodeAll cs ++ rest, later⟩ cs ⟨rest, later⟩ := by
  induction cs with
  | nil => exact .stay _
  | cons c cs ih =>
    obtain ⟨b, more, bytes, read⟩ :=
      Utf8.decodeFrom_encode (small c List.mem_cons_self) (Utf8.encodeAll cs ++ rest)
    refine .next ?_ (ih fun d hd => small d (List.mem_cons_of_mem c hd))
    rw [Utf8.encodeAll, List.flatMap_cons, List.append_assoc, ← Utf8.encodeAll, bytes]
    simp only [next?, settle, read]

end Cursor

namespace Literal

def Reading.map {α β : Type} (f : α → β) (reading : Reading α) : Reading β :=
  ⟨reading.result.map f, reading.pos, reading.rest⟩

/-- Reading into one sink is reading into another one, if the one holds what is made of what the other
one holds. -/
theorem readFrom_map {σ τ α β : Type} {sink : Sink σ α} {sink' : Sink τ β} {f : σ → τ} {g : α → β}
    (push : ∀ found c, sink'.push (f found) c = f (sink.push found c))
    (count : ∀ found, sink'.count (f found) = sink.count found)
    (close : ∀ found, sink'.close (f found) = (sink.close found).map g) (limit : Nat)
    (quote : CodePoint) (phase : Phase) (found : σ) (pos : Position) (input : List CodePoint) :
    readFrom sink' limit quote phase (f found) pos input =
      (readFrom sink limit quote phase found pos input).map g := by
  induction input generalizing phase found pos with
  | nil => cases phase <;> rfl
  | cons c rest ih =>
    cases phase with
    | numeric left value seen =>
      simp only [readFrom, push]
      cases hexDigit? c with
      | none => rfl
      | some d =>
        dsimp only
        split
        · exact ih _ _ _
        · split
          · exact ih _ _ _
          · rfl
    | escape =>
      simp only [readFrom, push, count]
      split
      · rfl
      · cases escapeDigits? c with
        | some n => exact ih _ _ _
        | none =>
          cases escapeChar? quote c with
          | some e => exact ih _ _ _
          | none => rfl
    | plain =>
      simp only [readFrom, push, count, close]
      split
      · rfl
      · split
        · exact ih _ _ _
        · split
          · rfl
          · split
            · rfl
            · exact ih _ _ _

theorem encodeAll_reverse_cons (c : CodePoint) (chars : List CodePoint) :
    Utf8.encodeAll (c :: chars).reverse = Utf8.encodeAll chars.reverse ++ Utf8.encode c := by
  rw [List.reverse_cons, Utf8.encodeAll_append]
  simp [Utf8.encodeAll]

theorem read_bytes (limit : Nat) (quote : CodePoint) (pos : Position) (input : List CodePoint) :
    readFrom (.bytes limit) limit quote .plain ([], 0) pos input =
      (read limit quote pos input).map Utf8.encodeAll := by
  refine readFrom_map (f := fun chars => (Utf8.encodeAll chars.reverse, chars.length)) ?_ ?_ ?_ limit
    quote .plain [] pos input
  · exact fun chars c => Prod.ext (encodeAll_reverse_cons c chars).symm rfl
  · exact fun chars => rfl
  · intro chars
    simp only [Sink.bytes, Sink.chars, finish]
    split <;> rfl

theorem deliver_of_read {limit : Nat} {quote : CodePoint} {out : Text} {pos after : Position}
    {input chars rest : List CodePoint} (h : read limit quote pos input = ⟨.ok chars, after, rest⟩) :
    deliver limit quote out pos input = ⟨none, Utf8.encodeAll chars, after, rest⟩ := by
  unfold deliver
  rw [read_bytes, h]
  rfl

theorem deliver_fault {limit : Nat} {quote : CodePoint} {out : Text} {pos : Position}
    {input : List CodePoint} {fault : LexError}
    (faulty : (deliver limit quote out pos input).fault = some fault) :
    (deliver limit quote out pos input).out = out := by
  unfold deliver at faulty ⊢
  dsimp only at faulty ⊢
  split at faulty
  · cases faulty
  · rfl

/-- A text between quotes, with any bytes and pieces behind it: past the opening quote, reading without
a limit finds no fault, puts the text into the variable and goes on to exactly what stands behind the
closing quote. And whatever is read, with whatever limit, a fault leaves the variable as it was. -/
theorem quoted_text_is_delivered {quote : CodePoint} (hq : Quoted.IsQuote quote)
    {chars : List CodePoint} (small : ∀ c ∈ chars, c.toNat < 0x200000) (behind : Text)
    (later : List Text) (out : Text) (pos : Position) :
    let text := Utf8.encodeAll chars
    let whole : Cursor := ⟨Quoted.write quote.toUInt8 text ++ behind, later⟩
    let left : Cursor := ⟨behind, later⟩
    (∃ opened used after, whole.next? = some (quote, opened) ∧ opened.Passes used left ∧
      opened.rest = used ++ left.rest ∧
      deliver 0 quote out pos opened.rest = ⟨none, text, after, left.rest⟩) ∧
    ∀ limit quote out pos input fault, (deliver limit quote out pos input).fault = some fault →
      (deliver limit quote out pos input).out = out := by
  intro text whole left
  refine ⟨?_, fun _ _ _ _ _ _ faulty => deliver_fault faulty⟩
  have passed : whole.Passes (Quoted.chars quote chars) left := by
    have all := Cursor.passes_encodeAll (Quoted.small_of_mem_chars hq small) behind later
    rwa [← Quoted.write_encodeAll hq small] at all
  cases passed with
  | @next _ opened _ _ used first later =>
    obtain ⟨after, read⟩ := read_chars hq chars left.rest pos
    refine ⟨opened, _, after, first, later, later.rest_eq, ?_⟩
    rw [later.rest_eq, deliver_of_read read]

/-- A text of everything that is escaped, with a surrogate and the greatest character, in front of a byte
that goes on with a character and of two more quotes; and a literal that is too long. -/
theorem quoted_text_is_delivered_escaped :
    let chars : List CodePoint := [34, 92, 10, 9, 13, 39, 0, 233, 0xD800, 0x1FFFFF]
    (∀ c ∈ chars, c.toNat < 0x200000) ∧
      (∃ opened after, (Cursor.mk (Quoted.write 39 (Utf8.encodeAll chars) ++ [0x80, 39]) [[39]]).next? =
          some (39, opened) ∧
        deliver 0 39 [1, 2] .nowhere opened.rest =
          ⟨none, Utf8.encodeAll chars, after, [Utf8.replacement, 39, 39]⟩) ∧
      (deliver 2 39 [1, 2] .nowhere [97, 98, 99, 39]).fault = some (tooLong 2) ∧
      (deliver 2 39 [1, 2] .nowhere [97, 98, 99, 39]).out = [1, 2] := by
  intro chars
  have small : ∀ c ∈ chars, c.toNat < 0x200000 := by simp [chars]
  obtain ⟨⟨opened, used, after, first, -, -, read⟩, unchanged⟩ :=
    quoted_text_is_delivered (.inr rfl) small [0x80, 39] [[39]] [1, 2] .nowhere
  have left : Cursor.rest ⟨[0x80, 39], [[39]]⟩ = [Utf8.replacement, 39, 39] := by decide +kernel
  rw [left] at read
  have long : (deliver 2 39 [1, 2] .nowhere [97, 98, 99, 39]).fault = some (tooLong 2) := rfl
  exact ⟨small, ⟨opened, after, first, read⟩, long, unchanged 2 39 [1, 2] _ _ _ long⟩

end Literal

end Scripting
