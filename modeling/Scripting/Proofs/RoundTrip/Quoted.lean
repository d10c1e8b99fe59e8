import Mathlib.Data.List.Basic
import Mathlib.Tactic.IntervalCases
import Scripting.Text.Quoted
import Scripting.Token.Literal

/-
Characters survive their encoding, and quoted text reads back: an escape stands for the character it
was written for, and no other character ends the literal.
-/
namespace Scripting

namespace Utf8

theorem decode_cons (b : UInt8) (rest : Text) :
    decode (b :: rest) = (decodeFrom b rest).1 :: decode (decodeFrom b rest).2 := by
  unfold decode
  rw [decodeSteps, List.map_cons]

theorem gather_rest_suffix (k acc : Nat) (t : Text) : (gather k acc t).2 <:+ t := by
  induction k generalizing acc t with
  | zero => exact List.suffix_refl t
  | succ k ih =>
    cases t with
    | nil => exact List.suffix_refl []
    | cons b rest =>
      unfold gather
      split
      · exact (ih _ rest).trans (List.suffix_cons b rest)
      · exact List.suffix_refl _

theorem decodeFrom_rest_suffix (b : UInt8) (rest : Text) : (decodeFrom b rest).2 <:+ rest := by
  unfold decodeFrom
  repeat' split
  all_goals first
    | exact List.suffix_refl rest
    | exact gather_rest_suffix _ _ rest

theorem gather_continuation (k acc n : Nat) (t : Text) :
    gather (k + 1) acc (continuation n :: t) = gather k (acc * 0x40 + n % 0x40) t := by
  have bits : (continuation n).toNat = 0x80 + n % 0x40 := by
    unfold continuation
    rw [UInt8.toNat_ofNat']
    omega
  have continues : isContinuation (continuation n) = true := by
    simp [isContinuation, UInt8.le_iff_toNat_le, UInt8.lt_iff_toNat_lt, bits]
    omega
  have low : (0x80 + n % 0x40) % 0x40 = n % 0x40 := by omega
  rw [gather, if_pos continues, bits, low]

theorem decodeFrom_encode {c : CodePoint} (small : c.toNat < 0x200000) (t : Text) :
    ∃ b rest, encode c ++ t = b :: rest ∧ decodeFrom b rest = (c, t) := by
  have back : UInt32.ofNat c.toNat = c := UInt32.ofNat_toNat
  unfold encode
  dsimp only
  split
  · next one =>
    refine ⟨UInt8.ofNat c.toNat, t, rfl, ?_⟩
    have bits : (UInt8.ofNat c.toNat).toNat = c.toNat := by
      rw [UInt8.toNat_ofNat']
      omega
    have lead : UInt8.ofNat c.toNat < 0x80 := by
      rw [UInt8.lt_iff_toNat_lt, bits]
      exact one
    rw [decodeFrom, if_pos lead]
    congr 1
    rw [← UInt32.toNat_inj, UInt8.toNat_toUInt32, bits]
  · split
    · next wide two =>
      refine ⟨UInt8.ofNat (0xC0 + c.toNat / 0x40), continuation c.toNat :: t, rfl, ?_⟩
      have bits : (UInt8.ofNat (0xC0 + c.toNat / 0x40)).toNat = 0xC0 + c.toNat / 0x40 := by
        rw [UInt8.toNat_ofNat']
        omega
      have value : (0xC0 + c.toNat / 0x40) % 0x20 * 0x40 + c.toNat % 0x40 = c.toNat := by omega
      rw [decodeFrom, if_neg, if_pos, bits]
      · rw [gather_continuation 0, gather, value, back]
      · simp [UInt8.le_iff_toNat_le, UInt8.lt_iff_toNat_lt]
        omega
      · simp [UInt8.lt_iff_toNat_lt]
        omega
    · split
      · next wide wider three =>
        refine ⟨UInt8.ofNat (0xE0 + c.toNat / 0x1000),
          continuation (c.toNat / 0x40) :: continuation c.toNat :: t, rfl, ?_⟩
        have bits : (UInt8.ofNat (0xE0 + c.toNat / 0x1000)).toNat = 0xE0 + c.toNat / 0x1000 := by
          rw [UInt8.toNat_ofNat']
          omega
        have value : ((0xE0 + c.toNat / 0x1000) % 0x10 * 0x40 + c.toNat / 0x40 % 0x40) * 0x40 +
            c.toNat % 0x40 = c.toNat := by omega
        rw [decodeFrom, if_neg, if_neg, if_pos, bits]
        · rw [gather_continuation 1, gather_continuation 0, gather, value, back]
        all_goals
          simp [UInt8.le_iff_toNat_le, UInt8.lt_iff_toNat_lt]
          omega
      · next wide wider widest =>
        have lead : 0xF0 ||| c.toNat / 0x40000 = 0xF0 + c.toNat / 0x40000 := by
          have few : c.toNat / 0x40000 < 8 := by omega
          interval_cases c.toNat / 0x40000 <;> rfl
        rw [lead]
        refine ⟨UInt8.ofNat (0xF0 + c.toNat / 0x40000), continuation (c.toNat / 0x1000) ::
          continuation (c.toNat / 0x40) :: continuation c.toNat :: t, rfl, ?_⟩
        have bits : (UInt8.ofNat (0xF0 + c.toNat / 0x40000)).toNat = 0xF0 + c.toNat / 0x40000 := by
          rw [UInt8.toNat_ofNat']
          omega
        have value : (((0xF0 + c.toNat / 0x40000) % 0x08 * 0x40 + c.toNat / 0x1000 % 0x40) * 0x40 +
            c.toNat / 0x40 % 0x40) * 0x40 + c.toNat % 0x40 = c.toNat := by omega
        rw [decodeFrom, if_neg, if_neg, if_neg, if_pos, bits]
        · rw [gather_continuation 2, gather_continuation 1, gather_continuation 0, gather, value,
            back]
        all_goals
          simp [UInt8.le_iff_toNat_le, UInt8.lt_iff_toNat_lt]
          omega

theorem decode_encodeAll {cs : List CodePoint} (small : ∀ c ∈ cs, c.toNat < 0x200000) :
    decode (encodeAll cs) = cs := by
  induction cs with
  | nil => rw [encodeAll, List.flatMap_nil, decode, decodeSteps, List.map_nil]
  | cons c rest ih =>
    obtain ⟨b, later, bytes, read⟩ :=
      decodeFrom_encode (small c List.mem_cons_self) (encodeAll rest)
    have all : encodeAll (c :: rest) = b :: later := bytes
    rw [all, decode_cons, read, ih fun d hd => small d (List.mem_cons_of_mem c hd)]

theorem encodeAll_append (cs ds : List CodePoint) :
    encodeAll (cs ++ ds) = encodeAll cs ++ encodeAll ds := List.flatMap_append

theorem encode_ascii {c : CodePoint} (h : c.toNat < 0x80) : encode c = [c.toUInt8] := by
  unfold encode
  rw [if_pos h]
  rfl

theorem high_of_mem_encode {c : CodePoint} (wide : ¬ c.toNat < 0x80) (small : c.toNat < 0x200000)
    {b : UInt8} (h : b ∈ encode c) : 0x80 ≤ b.toNat := by
  have later (n : Nat) : 0x80 ≤ (continuation n).toNat := by
    unfold continuation
    rw [UInt8.toNat_ofNat']
    omega
  have lead (m : Nat) (hm : 0x80 ≤ m) (within : m < 256) : 0x80 ≤ (UInt8.ofNat m).toNat := by
    rw [UInt8.toNat_ofNat']
    omega
  unfold encode at h
  dsimp only at h
  rw [if_neg wide] at h
  split at h
  · rcases List.mem_cons.mp h with rfl | h
    · exact lead _ (by omega) (by omega)
    · rw [List.mem_singleton.mp h]
      exact later _
  · split at h
    · rcases List.mem_cons.mp h with rfl | h
      · exact lead _ (by omega) (by omega)
      · simp only [List.mem_cons, List.not_mem_nil, or_false] at h
        rcases h with rfl | rfl <;> exact later _
    · rcases List.mem_cons.mp h with rfl | h
      · have few : c.toNat / 0x40000 < 8 := by omega
        have bits : 0xF0 ≤ 0xF0 ||| c.toNat / 0x40000 ∧ 0xF0 ||| c.toNat / 0x40000 < 256 := by
          interval_cases c.toNat / 0x40000 <;> decide
        exact lead _ (by omega) bits.2
      · simp only [List.mem_cons, List.not_mem_nil, or_false] at h
        rcases h with rfl | rfl | rfl <;> exact later _

end Utf8

namespace Quoted

def IsQuote (quote : CodePoint) : Prop := quote = 34 ∨ quote = 39

def escapeChar (quote c : CodePoint) : List CodePoint :=
  if c = 92 then [92, 92]
  else if c = 10 then [92, 110]
  else if c = 9 then [92, 116]
  else if c = 13 then [92, 114]
  else if c = quote then [92, c]
  else [c]

theorem escape_plain {quote b : UInt8} (h : b ≠ 92 ∧ b ≠ 10 ∧ b ≠ 9 ∧ b ≠ 13 ∧ b ≠ quote) :
    escape quote b = [b] := by
  unfold escape
  rw [if_neg h.1, if_neg h.2.1, if_neg h.2.2.1, if_neg h.2.2.2.1, if_neg h.2.2.2.2]

theorem escape_encode {quote : CodePoint} (hq : IsQuote quote) {c : CodePoint}
    (small : c.toNat < 0x200000) :
    (Utf8.encode c).flatMap (escape quote.toUInt8) = Utf8.encodeAll (escapeChar quote c) := by
  have quoteSmall : quote.toNat < 0x80 := by rcases hq with rfl | rfl <;> decide
  by_cases special : c = 92 ∨ c = 10 ∨ c = 9 ∨ c = 13 ∨ c = quote
  · rcases special with rfl | rfl | rfl | rfl | rfl
    all_goals rcases hq with rfl | rfl
    all_goals decide
  · simp only [not_or] at special
    obtain ⟨h92, h10, h9, h13, hquote⟩ := special
    have alone : escapeChar quote c = [c] := by
      simp [escapeChar, h92, h10, h9, h13, hquote]
    have plain : ∀ b ∈ Utf8.encode c, escape quote.toUInt8 b = [b] := by
      intro b hb
      by_cases ascii : c.toNat < 0x80
      · rw [Utf8.encode_ascii ascii, List.mem_singleton] at hb
        have other (k : CodePoint) (hk : k.toNat < 0x80) (ne : c ≠ k) : b ≠ k.toUInt8 := by
          rintro rfl
          have bytes := congrArg UInt8.toNat hb
          simp only [UInt32.toNat_toUInt8] at bytes
          exact ne (UInt32.toNat_inj.mp (by omega))
        exact escape_plain ⟨other 92 (by decide) h92, other 10 (by decide) h10,
          other 9 (by decide) h9, other 13 (by decide) h13, other quote quoteSmall hquote⟩
      · have high := Utf8.high_of_mem_encode ascii small hb
        have other (k : UInt8) (hk : k.toNat < 0x80) : b ≠ k := by
          rintro rfl
          omega
        refine escape_plain ⟨other 92 (by decide), other 10 (by decide), other 9 (by decide),
          other 13 (by decide), other _ ?_⟩
        rw [UInt32.toNat_toUInt8]
        omega
    rw [alone, List.flatMap_congr plain]
    simp [Utf8.encodeAll, List.flatMap_singleton']

theorem escape_encodeAll {quote : CodePoint} (hq : IsQuote quote) {cs : List CodePoint}
    (small : ∀ c ∈ cs, c.toNat < 0x200000) :
    (Utf8.encodeAll cs).flatMap (escape quote.toUInt8) =
      Utf8.encodeAll (cs.flatMap (escapeChar quote)) := by
  induction cs with
  | nil => rfl
  | cons c rest ih =>
    have first := escape_encode hq (small c List.mem_cons_self)
    have later := ih fun d hd => small d (List.mem_cons_of_mem c hd)
    rw [List.flatMap_cons, Utf8.encodeAll_append, ← first, ← later, ← List.flatMap_append]
    rfl

def chars (quote : CodePoint) (cs : List CodePoint) : List CodePoint :=
  quote :: (cs.flatMap (escapeChar quote) ++ [quote])

theorem write_encodeAll {quote : CodePoint} (hq : IsQuote quote) {cs : List CodePoint}
    (small : ∀ c ∈ cs, c.toNat < 0x200000) :
    write quote.toUInt8 (Utf8.encodeAll cs) = Utf8.encodeAll (chars quote cs) := by
  have single : Utf8.encodeAll [quote] = [quote.toUInt8] := by rcases hq with rfl | rfl <;> decide
  have split : Utf8.encodeAll (chars quote cs) = Utf8.encodeAll [quote] ++
      (Utf8.encodeAll (cs.flatMap (escapeChar quote)) ++ Utf8.encodeAll [quote]) := by
    rw [← Utf8.encodeAll_append, ← Utf8.encodeAll_append]
    rfl
  rw [split, single, ← escape_encodeAll hq small]
  rfl

theorem mem_escapeChar {quote c d : CodePoint} (h : d ∈ escapeChar quote c) :
    d = c ∨ d.toNat < 0x80 := by
  have forms : d = c ∨ d = 92 ∨ d = 110 ∨ d = 116 ∨ d = 114 := by
    unfold escapeChar at h
    grind
  rcases forms with rfl | rfl | rfl | rfl | rfl
  · exact .inl rfl
  all_goals exact .inr (by decide)

theorem small_of_mem_chars {quote : CodePoint} (hq : IsQuote quote) {cs : List CodePoint}
    (small : ∀ c ∈ cs, c.toNat < 0x200000) : ∀ c ∈ chars quote cs, c.toNat < 0x200000 := by
  have quoteSmall : quote.toNat < 0x200000 := by rcases hq with rfl | rfl <;> decide
  intro d hd
  simp only [chars, List.mem_cons, List.mem_append, List.mem_flatMap, List.not_mem_nil,
    or_false] at hd
  rcases hd with rfl | ⟨c, hc, hd⟩ | rfl
  · exact quoteSmall
  · rcases mem_escapeChar hd with rfl | ascii
    · exact small d hc
    · omega
  · exact quoteSmall

end Quoted

namespace Literal

theorem readFrom_escape {quote letter c : CodePoint} (single : escapeDigits? letter = none)
    (known : escapeChar? quote letter = some c) (found : List CodePoint) (pos : Position)
    (input : List CodePoint) :
    readFrom (.chars 0) 0 quote .plain found pos (backslash :: letter :: input) =
      readFrom (.chars 0) 0 quote .plain (c :: found) pos.advance.advance input := by
  simp [readFrom, Sink.chars, single, known]

theorem readFrom_escaped {quote : CodePoint} (hq : Quoted.IsQuote quote) (cs rest : List CodePoint)
    (found : List CodePoint) (pos : Position) : ∃ after,
      readFrom (.chars 0) 0 quote .plain found pos (cs.flatMap (Quoted.escapeChar quote) ++ quote :: rest) =
        ⟨.ok (found.reverse ++ cs), after, rest⟩ := by
  induction cs generalizing found pos with
  | nil =>
    have other : quote ≠ backslash := by rcases hq with rfl | rfl <;> decide
    exact ⟨pos.advance, by simp [readFrom, Sink.chars, other, finish]⟩
  | cons c later ih =>
    rw [List.flatMap_cons, List.append_assoc]
    have escaped (letter : CodePoint) (form : Quoted.escapeChar quote c = [backslash, letter])
        (single : escapeDigits? letter = none) (known : escapeChar? quote letter = some c) :
        ∃ after, readFrom (.chars 0) 0 quote .plain found pos (Quoted.escapeChar quote c ++
          (later.flatMap (Quoted.escapeChar quote) ++ quote :: rest)) =
            ⟨.ok (found.reverse ++ c :: later), after, rest⟩ := by
      rw [form, List.cons_append, List.cons_append, List.nil_append, readFrom_escape single known]
      simpa using ih (c :: found) pos.advance.advance
    by_cases special : c = 92 ∨ c = 10 ∨ c = 9 ∨ c = 13 ∨ c = quote
    · rcases special with rfl | rfl | rfl | rfl | rfl
      · exact escaped 92 rfl rfl rfl
      · exact escaped 110 rfl rfl rfl
      · exact escaped 116 rfl rfl rfl
      · exact escaped 114 rfl rfl rfl
      · rcases hq with rfl | rfl
        · exact escaped 34 rfl rfl rfl
        · exact escaped 39 rfl rfl rfl
    · simp only [not_or] at special
      obtain ⟨h92, h10, h9, h13, hquote⟩ := special
      have alone : Quoted.escapeChar quote c = [c] := by
        simp [Quoted.escapeChar, h92, h10, h9, h13, hquote]
      have here : readFrom (.chars 0) 0 quote .plain found pos
          (c :: (later.flatMap (Quoted.escapeChar quote) ++ quote :: rest)) =
          readFrom (.chars 0) 0 quote .plain (c :: found) pos.advance
            (later.flatMap (Quoted.escapeChar quote) ++ quote :: rest) := by
        simp [readFrom, Sink.chars, backslash, newline, h92, h10, hquote]
      rw [alone, List.singleton_append, here]
      simpa using ih (c :: found) pos.advance

theorem read_chars {quote : CodePoint} (hq : Quoted.IsQuote quote) (cs rest : List CodePoint)
    (pos : Position) : ∃ after,
      read 0 quote pos (cs.flatMap (Quoted.escapeChar quote) ++ [quote] ++ rest) =
        ⟨.ok cs, after, rest⟩ := by
  obtain ⟨after, done⟩ := readFrom_escaped hq cs rest [] pos
  exact ⟨after, by simpa [read] using done⟩

end Literal

end Scripting
