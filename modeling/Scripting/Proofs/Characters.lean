import Mathlib.Data.Bool.AllAny
import Scripting.Eval
import Scripting.Proofs.Assignment.Looking
import Scripting.Proofs.RoundTrip.Quoted

/-
Strings as lists of characters. Evaluation keeps a string as its bytes; wherever it counts, finds, visits
or replaces characters, it does so as if the string were the list of the characters that it is the
encoding of.
-/
namespace Scripting

namespace Utf8

theorem isContinuation_iff (b : UInt8) : isContinuation b = true ↔ 0x80 ≤ b.toNat ∧ b.toNat < 0xC0 := by
  simp [isContinuation, UInt8.le_iff_toNat_le, UInt8.lt_iff_toNat_lt]

theorem isContinuation_continuation (n : Nat) : isContinuation (continuation n) = true := by
  rw [isContinuation_iff, continuation, UInt8.toNat_ofNat']
  omega

/-- Only bytes from 0x80 up to 0xBF continue a character. -/
theorem starts_of_outside {n : Nat} (outside : n % 256 < 0x80 ∨ 0xC0 ≤ n % 256) :
    isContinuation (UInt8.ofNat n) = false := by
  rw [Bool.eq_false_iff, ne_eq, isContinuation_iff, UInt8.toNat_ofNat']
  omega

theorem encode_shape (c : CodePoint) :
    ∃ b more, encode c = b :: more ∧ isContinuation b = false ∧ more.all isContinuation = true := by
  unfold encode
  dsimp only
  split
  · exact ⟨_, [], rfl, starts_of_outside (by omega), rfl⟩
  · split
    · exact ⟨_, _, rfl, starts_of_outside (by omega), by simp [isContinuation_continuation]⟩
    · split
      · exact ⟨_, _, rfl, starts_of_outside (by omega), by simp [isContinuation_continuation]⟩
      · have lead : 0xF0 ≤ (0xF0 ||| c.toNat / 0x40000) % 256 := by
          rw [show 256 = 2 ^ 8 from rfl, Nat.or_mod_two_pow]
          exact Nat.left_le_or
        exact ⟨_, _, rfl, starts_of_outside (by omega), by simp [isContinuation_continuation]⟩

theorem length_append (t u : Text) : length (t ++ u) = length t + length u := by
  simp [length]

theorem length_encode (c : CodePoint) : length (encode c) = 1 := by
  obtain ⟨b, more, bytes, lead, later⟩ := encode_shape c
  have none : more.filter (fun b => !isContinuation b) = [] := by
    simpa [List.filter_eq_nil_iff] using later
  simp [length, bytes, lead, none]

theorem length_encodeAll (cs : List CodePoint) : length (encodeAll cs) = cs.length := by
  induction cs with
  | nil => rfl
  | cons c cs ih =>
    rw [encodeAll, List.flatMap_cons, length_append, length_encode, ← encodeAll, ih, List.length_cons]
    omega

variable {cs : List CodePoint}

theorem locate_encodeAll (small : ∀ c ∈ cs, c.toNat < 0x200000) (i : Nat) :
    locate i (encodeAll cs) =
      cs[i]?.map fun c => (encodeAll (cs.take i), c, encodeAll (cs.drop (i + 1))) := by
  induction cs generalizing i with
  | nil => cases i <;> rfl
  | cons c rest ih =>
    obtain ⟨b, later, bytes, read⟩ :=
      decodeFrom_encode (small c List.mem_cons_self) (encodeAll rest)
    have all : encodeAll (c :: rest) = b :: later := bytes
    rw [all]
    cases i with
    | zero => simp [locate, read, encodeAll]
    | succ i =>
      have front : b :: later.take (later.length - (encodeAll rest).length) = encode c := by
        have suffix : encodeAll rest <:+ later := by
          obtain ⟨d, more, own, -⟩ := encode_shape c
          rw [own, List.cons_append, List.cons.injEq] at bytes
          exact ⟨more, bytes.2⟩
        obtain ⟨more, rfl⟩ := suffix
        have same : encode c = b :: more := by
          rw [← List.cons_append] at bytes
          exact List.append_cancel_right bytes
        simp [same]
      rw [locate, read]
      dsimp only
      rw [ih fun d hd => small d (List.mem_cons_of_mem c hd), front]
      cases there : rest[i]? with
      | none => simp [there]
      | some d => simp [there, encodeAll]

theorem encodeAll_set {i : Nat} (inside : i < cs.length) (c : CodePoint) :
    encodeAll (cs.set i c) = encodeAll (cs.take i) ++ encode c ++ encodeAll (cs.drop (i + 1)) := by
  rw [List.set_eq_take_append_cons_drop, if_pos inside, encodeAll_append]
  simp [encodeAll]

/-! ### Replacing a character -/

theorem take_front {used after t : Text} (split : used ++ after = t) :
    t.take (t.length - after.length) = used := by
  subst split
  simp

/-- A character that has been found takes bytes between those before it and those behind it. -/
theorem locate_split {i : Nat} {t front tail : Text} {c : CodePoint}
    (found : locate i t = some (front, c, tail)) : ∃ b more, t = front ++ b :: more ++ tail := by
  induction i generalizing t front with
  | zero =>
    cases t with
    | nil => cases found
    | cons b rest =>
      obtain ⟨used, split⟩ := decodeFrom_rest_suffix b rest
      simp only [locate, Option.some.injEq, Prod.mk.injEq] at found
      obtain ⟨rfl, -, rfl⟩ := found
      exact ⟨b, used, by simp [split]⟩
  | succ i ih =>
    cases t with
    | nil => cases found
    | cons b rest =>
      obtain ⟨used, split⟩ := decodeFrom_rest_suffix b rest
      obtain ⟨⟨front', c', tail'⟩, there, same⟩ := Option.map_eq_some_iff.mp found
      simp only [Prod.mk.injEq] at same
      obtain ⟨rfl, rfl, rfl⟩ := same
      obtain ⟨d, more, later⟩ := ih there
      have taken := take_front split
      refine ⟨d, more, ?_⟩
      rw [taken]
      simp only [List.cons_append, List.append_assoc, List.cons.injEq, true_and] at later ⊢
      rw [← later, split]

/-- Whether a character goes on is seen at the byte behind it, and nothing else is looked at there. -/
theorem gather_swap {k acc : Nat} {used after new : Text} {x : CodePoint}
    (read : gather k acc (used ++ after) = (x, after))
    (same : ∀ d ∈ new.head?, isContinuation d = true → ∃ e ∈ after.head?, isContinuation e = true) :
    gather k acc (used ++ new) = (x, new) := by
  induction k generalizing acc used with
  | zero =>
    simp only [gather, Prod.mk.injEq, List.append_left_eq_self] at read ⊢
    simpa using read
  | succ k ih =>
    cases used with
    | nil =>
      rw [List.nil_append] at read ⊢
      have stops : x = replacement ∧ ∀ e ∈ after.head?, isContinuation e = false := by
        cases after with
        | nil =>
          cases read
          simp
        | cons e rest =>
          unfold gather at read
          split at read
          · have shorter := gather_rest_length_le k (acc * 0x40 + e.toNat % 0x40) rest
            rw [read, List.length_cons] at shorter
            omega
          · next ends =>
            cases read
            simpa using ends
      cases new with
      | nil => rw [gather, stops.1]
      | cons d rest =>
        have ends : ¬ isContinuation d = true := by
          intro more
          obtain ⟨e, there, goes⟩ := same d rfl more
          rw [stops.2 e there] at goes
          cases goes
        rw [gather, if_neg ends, stops.1]
    | cons u us =>
      rw [List.cons_append] at read ⊢
      unfold gather at read ⊢
      split at read
      · next more =>
        rw [if_pos more]
        exact ih read
      · have longer := congrArg (fun r => r.2.length) read
        simp at longer
        omega

theorem decodeFrom_swap {b : UInt8} {used after new : Text} {x : CodePoint}
    (read : decodeFrom b (used ++ after) = (x, after))
    (same : ∀ d ∈ new.head?, isContinuation d = true → ∃ e ∈ after.head?, isContinuation e = true) :
    decodeFrom b (used ++ new) = (x, new) := by
  have alone (y : CodePoint) (h : (y, used ++ after) = (x, after)) : (y, used ++ new) = (x, new) := by
    simp only [Prod.mk.injEq, List.append_left_eq_self] at h ⊢
    simpa using h
  unfold decodeFrom at read ⊢
  split at read
  · next one =>
    rw [if_pos one]
    exact alone _ read
  · next one =>
    rw [if_neg one]
    split at read
    · next two =>
      rw [if_pos two]
      exact gather_swap read same
    · next two =>
      rw [if_neg two]
      split at read
      · next three =>
        rw [if_pos three]
        exact gather_swap read same
      · next three =>
        rw [if_neg three]
        split at read
        · next four =>
          rw [if_pos four]
          exact gather_swap read same
        · next four =>
          rw [if_neg four]
          exact alone _ read

/-- Where a character is replaced, it is found at its place, and every other character is as before,
whatever bytes the text has. -/
theorem locate_replaced {i : Nat} {t front tail : Text} {d : CodePoint}
    (found : locate i t = some (front, d, tail)) {c : CodePoint} (small : c.toNat < 0x200000) (j : Nat) :
    (locate j (front ++ encode c ++ tail)).map (fun f => f.2.1) =
      if j = i then some c else (locate j t).map (fun f => f.2.1) := by
  induction i generalizing t front j with
  | zero =>
    cases t with
    | nil => cases found
    | cons b rest =>
      obtain ⟨b', rest', bytes, read⟩ := decodeFrom_encode small tail
      simp only [locate, Option.some.injEq, Prod.mk.injEq] at found
      obtain ⟨rfl, -, behind⟩ := found
      rw [List.nil_append, bytes]
      cases j with
      | zero => simp [locate, read]
      | succ j => simp [locate, read, behind, Function.comp_def]
  | succ i ih =>
    cases t with
    | nil => cases found
    | cons b rest =>
      obtain ⟨used, split⟩ := decodeFrom_rest_suffix b rest
      obtain ⟨⟨front', d', tail'⟩, there, same⟩ := Option.map_eq_some_iff.mp found
      simp only [Prod.mk.injEq] at same
      obtain ⟨rfl, rfl, rfl⟩ := same
      have taken := take_front split
      have read : decodeFrom b (used ++ (decodeFrom b rest).2) =
          ((decodeFrom b rest).1, (decodeFrom b rest).2) := by rw [split]
      -- The text behind the first character starts with a byte of the same kind as before.
      have kind : ∀ x ∈ (front' ++ encode c ++ tail').head?, isContinuation x = true →
          ∃ e ∈ (decodeFrom b rest).2.head?, isContinuation e = true := by
        obtain ⟨y, more, own⟩ := locate_split there
        obtain ⟨lead, others, bytes, starts, -⟩ := encode_shape c
        intro x head goes
        cases front' with
        | nil =>
          rw [bytes] at head
          simp only [List.nil_append, List.cons_append, List.head?_cons, Option.mem_some_iff] at head
          rw [← head, starts] at goes
          cases goes
        | cons f fs =>
          refine ⟨x, ?_, goes⟩
          rw [own]
          simpa using head
      have swapped := decodeFrom_swap read kind
      have whole : b :: rest.take (rest.length - (decodeFrom b rest).2.length) ++ front' ++ encode c ++
          tail' = b :: (used ++ (front' ++ encode c ++ tail')) := by
        rw [taken]
        simp
      rw [whole]
      cases j with
      | zero =>
        rw [if_neg (by omega)]
        simp only [locate, swapped, Option.map_some]
      | succ j =>
        have later := ih there j
        simp only [locate, swapped, Option.map_map, Function.comp_def, Nat.add_right_cancel_iff]
          at later ⊢
        exact later

end Utf8

namespace Eval

/-- One turn of a loop, with an item in a variable of its own: whether there is another one. -/
def turn (ev : Evaluator) (name : Text) (body : Expr) (v : Value) : Run Bool :=
  Run.block (loopTurn do
    modify fun m => { m with scope := m.scope.push name v false }
    ev.eval body)

theorem forEach_goes_on {ev : Evaluator} {name : Text} {body : Expr} {visit : Value → Machine → Machine}
    {values : List Value} (goesOn : ∀ v ∈ values, ∀ m, turn ev name body v m = .ok true (visit v m))
    (m : Machine) :
    forEach ev name body values m = .ok () (values.foldl (fun m v => visit v m) m) := by
  induction values generalizing m with
  | nil => rfl
  | cons v rest ih =>
    refine (bind_of_ok (goesOn v List.mem_cons_self m) _).trans ?_
    exact ih (fun w hw => goesOn w (List.mem_cons_of_mem v hw)) (visit v m)

theorem evalExpr_index (engine : Engine) (ev : Evaluator) (pos : Position) {object index : Expr}
    {v i : Value} {m₀ m₁ m₂ m₃ : Machine} (ticked : tick engine pos m₀ = .ok () m₁)
    (evaluated : ev.eval object m₁ = .ok v m₂) (at' : ev.eval index m₂ = .ok i m₃) :
    evalExpr engine ev (.index pos object index) m₀ = readIndex engine ev v i pos m₃ := by
  refine (bind_of_ok ticked _).trans ((bind_of_ok evaluated _).trans ?_)
  exact bind_of_ok at' _

/-- Evaluation treats a text as these characters. -/
structure Spells (t : Text) (cs : List CodePoint) : Prop where
  /-- They are what is read from the bytes, one after the other. -/
  decodes : Utf8.decode t = cs
  /-- Their number is the length of the string. -/
  measures : Utf8.length t = cs.length
  /-- A loop over the string takes its turns with them, in their order. -/
  visits (engine : Engine) (ev : Evaluator) (name : Text) (items body : Expr) {m n : Machine}
    (evaluated : ev.eval items m = .ok (.string t) n) :
    execEach engine ev name items body m = forEach ev name body (cs.map .char) n
  /-- If no turn ends the loop, then there is one for each of them. -/
  visitsAll (engine : Engine) (ev : Evaluator) (name : Text) (items body : Expr) {m n : Machine}
    (evaluated : ev.eval items m = .ok (.string t) n) {visit : CodePoint → Machine → Machine}
    (goesOn : ∀ c ∈ cs, ∀ m, turn ev name body (.char c) m = .ok true (visit c m)) :
    execEach engine ev name items body m = .ok () (cs.foldl (fun m c => visit c m) n)
  /-- An index gives the character at its place. -/
  reads (engine : Engine) (ev : Evaluator) (pos : Position) {object index : Expr} {n : Integer}
    {m₀ m₁ m₂ m₃ : Machine} (ticked : tick engine pos m₀ = .ok () m₁)
    (evaluated : ev.eval object m₁ = .ok (.string t) m₂) (at' : ev.eval index m₂ = .ok (.i64 n) m₃)
    {i : Nat} (place : n.val = i) {c : CodePoint} (there : cs[i]? = some c) :
    evalExpr engine ev (.index pos object index) m₀ = .ok (.char c) m₃
  /-- No other index gives anything. -/
  misses (engine : Engine) (ev : Evaluator) (pos : Position) {object index : Expr} {n : Integer}
    {m₀ m₁ m₂ m₃ : Machine} (ticked : tick engine pos m₀ = .ok () m₁)
    (evaluated : ev.eval object m₁ = .ok (.string t) m₂) (at' : ev.eval index m₂ = .ok (.i64 n) m₃)
    (outside : n.val < 0 ∨ cs.length ≤ n.val) :
    evalExpr engine ev (.index pos object index) m₀ =
      .error (.cause (.indexing (.stringBounds n.val cs.length)) pos) m₃
  /-- Putting a character at an index replaces the one that is there, wherever the string is held. -/
  replaces (engine : Engine) (ev : Evaluator) (pos : Position) {n : Integer} {i : Nat} (place : n.val = i)
    (inside : i < cs.length) (c : CodePoint) (m : Machine) :
    atIndex engine ev (.i64 n) true pos (Held.setHeld (.char c)) (.string t, m) =
      .ok () (.string (Utf8.encodeAll (cs.set i c)), m)
  /-- So an assignment to an index of a variable changes just this character of the variable. -/
  assigns (engine : Engine) (ev : Evaluator) (pos varPos indexPos : Position) {name : Text}
    {index value : Expr} {n : Integer} {c : CodePoint} {m₀ m₁ m₂ m₃ : Machine} {e : Entry}
    (ticked : tick engine pos m₀ = .ok () m₁) (evaluated : ev.eval value m₁ = .ok (.char c) m₂)
    (at' : ev.eval index m₂ = .ok (.i64 n) m₃) (found : m₃.scope.find? name = some e)
    (open' : e.isConst = false) (holds : e.value = .string t) {i : Nat} (place : n.val = i)
    (inside : i < cs.length) :
    execStmt engine ev (.assign pos [] (.index indexPos (.var varPos name []) index) value) m₀ =
      .ok .unit { m₃ with
        scope := m₃.scope.setValue name (.string (Utf8.encodeAll (cs.set i c))) }

section
variable {cs : List CodePoint} (small : ∀ c ∈ cs, c.toNat < 0x200000)
include small

theorem locateChar_there (ev : Evaluator) {n : Integer} {i : Nat} (place : n.val = i) {c : CodePoint}
    (there : cs[i]? = some c) (pos : Position) (m : Machine) :
    locateChar ev (Utf8.encodeAll cs) (.i64 n) pos m =
      .ok (Utf8.encodeAll (cs.take i), c, Utf8.encodeAll (cs.drop (i + 1))) m := by
  have start : ¬ n.val < 0 := by omega
  have index : n.val.toNat = i := by omega
  simp only [locateChar, if_neg start, index, Utf8.locate_encodeAll small, there, Option.map_some]
  rfl

theorem locateChar_outside (ev : Evaluator) {n : Integer} (outside : n.val < 0 ∨ cs.length ≤ n.val)
    (pos : Position) (m : Machine) :
    locateChar ev (Utf8.encodeAll cs) (.i64 n) pos m =
      .error (.cause (.indexing (.stringBounds n.val cs.length)) pos) m := by
  have none : (if n.val < 0 then none else Utf8.locate n.val.toNat (Utf8.encodeAll cs)) = none := by
    split
    · rfl
    · next start =>
      have absent : cs[n.val.toNat]? = Option.none := List.getElem?_eq_none (by omega)
      rw [Utf8.locate_encodeAll small, absent, Option.map_none]
  simp only [locateChar, none, Utf8.decode_encodeAll small]
  rfl

theorem atIndex_replaces (engine : Engine) (ev : Evaluator) (pos : Position) {n : Integer} {i : Nat}
    (place : n.val = i) (inside : i < cs.length) (c : CodePoint) (m : Machine) :
    atIndex engine ev (.i64 n) true pos (Held.setHeld (.char c)) (.string (Utf8.encodeAll cs), m) =
      .ok () (.string (Utf8.encodeAll (cs.set i c)), m) := by
  have there : cs[i]? = some cs[i] := List.getElem?_eq_getElem inside
  have located := Held.lift_of_ok (locateChar_there small ev place there pos m)
    (Value.string (Utf8.encodeAll cs))
  have inner : (do return (← Held.setHeld (.char c), ← Held.held) : Held Value (Unit × Value))
      (.char cs[i], m) = .ok ((), .char c) (.char c, m) := rfl
  have written := Held.lift_of_ok (Held.drop_of_ok inner) (Value.string (Utf8.encodeAll cs))
  change atChar engine ev (Utf8.encodeAll cs) (.i64 n) true pos (Held.setHeld (.char c)) _ = _
  unfold atChar
  rw [Utf8.encodeAll_set inside]
  refine (bind_of_ok located _).trans ?_
  exact bind_of_ok written _

theorem execEach_encodeAll (engine : Engine) (ev : Evaluator) (name : Text) (items body : Expr)
    {m n : Machine} (evaluated : ev.eval items m = .ok (.string (Utf8.encodeAll cs)) n) :
    execEach engine ev name items body m = forEach ev name body (cs.map .char) n := by
  unfold execEach
  rw [bind_of_ok evaluated]
  dsimp only
  rw [Utf8.decode_encodeAll small]

def visitChar (visit : CodePoint → Machine → Machine) : Value → Machine → Machine
  | .char c => visit c
  | _ => id

/-- The encoding of characters is treated as these characters. -/
theorem encoded_text_spells : Spells (Utf8.encodeAll cs) cs where
  decodes := Utf8.decode_encodeAll small
  measures := Utf8.length_encodeAll cs
  visits engine ev name items body m n := execEach_encodeAll small engine ev name items body
  visitsAll engine ev name items body m n evaluated visit goesOn := by
    have turns : forEach ev name body (cs.map .char) n =
        .ok () ((cs.map .char).foldl (fun m v => visitChar visit v m) n) :=
      forEach_goes_on (by simpa [visitChar] using goesOn) n
    rw [execEach_encodeAll small engine ev name items body evaluated, turns, List.foldl_map]
    rfl
  reads engine ev pos object index n m₀ m₁ m₂ m₃ ticked evaluated at' i place c there := by
    have read : readIndex engine ev (.string (Utf8.encodeAll cs)) (.i64 n) pos m₃ =
        .ok (.char c) m₃ := by
      simp only [readIndex]
      rw [bind_of_ok (locateChar_there small ev place there pos m₃)]
      rfl
    rw [evalExpr_index engine ev pos ticked evaluated at', read]
  misses engine ev pos object index n m₀ m₁ m₂ m₃ ticked evaluated at' outside := by
    have read : readIndex engine ev (.string (Utf8.encodeAll cs)) (.i64 n) pos m₃ =
        .error (.cause (.indexing (.stringBounds n.val cs.length)) pos) m₃ := by
      simp only [readIndex]
      exact bind_of_error (locateChar_outside small ev outside pos m₃) _
    rw [evalExpr_index engine ev pos ticked evaluated at', read]
  replaces engine ev pos n i place inside c m := atIndex_replaces small engine ev pos place inside c m
  assigns engine ev pos varPos indexPos name index value n c m₀ m₁ m₂ m₃ e ticked evaluated at' found
      open' holds i place inside := by
    have written : Held.behind name varPos
        (atIndex engine ev (.i64 n) true indexPos (Held.setHeld (.char c))) (e.value, m₃) =
          .ok () (.string (Utf8.encodeAll (cs.set i c)), m₃) := by
      rw [holds]
      exact atIndex_replaces small engine ev indexPos place inside c m₃
    have variable' : atVariable ev name true varPos
        (atIndex engine ev (.i64 n) true indexPos (Held.setHeld (.char c))) m₃ =
          .ok () { m₃ with
            scope := m₃.scope.setValue name (.string (Utf8.encodeAll (cs.set i c))) } := by
      unfold atVariable
      rw [bind_of_ok (p := get) (a := m₃) rfl, found]
      simp only [open', Bool.false_eq_true, if_false]
      exact Held.ofMachine_of_ok written _
    have assigned : execAssign engine ev pos [] (.index indexPos (.var varPos name []) index) value m₁ =
        .ok () { m₃ with
          scope := m₃.scope.setValue name (.string (Utf8.encodeAll (cs.set i c))) } := by
      unfold execAssign
      refine (bind_of_ok evaluated _).trans ?_
      refine (bind_of_ok at' _).trans variable'
    refine (bind_of_ok ticked _).trans ?_
    exact bind_of_ok assigned _

end

def mixed : List CodePoint := [0x61, 0xE9, 0x20AC, 0x1F600]

def mixedMachine : Machine where
  world := {}
  scope := [{ name := Text.lit "x", value := .string (Utf8.encodeAll mixed) }]
  library := {}
  root := {}

/-- The place `x[2]`. -/
def thirdOfX : Expr := .index .nowhere (.var .nowhere (Text.lit "x") []) (.int .nowhere (Integer.ofNat 2))

/-- Reading the third of the characters, and putting one of four bytes in its place. -/
theorem encoded_text_spells_mixed :
    (∀ c ∈ mixed, c.toNat < 0x200000) ∧
    (∃ n, evalAt .standard 3 thirdOfX mixedMachine = .ok (.char 0x20AC) n) ∧
    ∃ n, execAt .standard 3 (.assign .nowhere [] thirdOfX (.char .nowhere 0x1F601)) mixedMachine =
      .ok .unit n ∧
      n.scope = [{ name := Text.lit "x",
                   value := .string (Utf8.encodeAll [0x61, 0xE9, 0x1F601, 0x1F600]) }] := by
  have small : ∀ c ∈ mixed, c.toNat < 0x200000 := List.all_iff_forall_prop.mp (by decide)
  have spells := encoded_text_spells small
  let counted (operations : Nat) : Machine := { mixedMachine with operations }
  let ev := evaluator .standard 2
  have ticked : tick .standard .nowhere (counted 0) = .ok () (counted 1) := rfl
  have whole : ev.eval (.var .nowhere (Text.lit "x") []) (counted 1) =
      .ok (.string (Utf8.encodeAll mixed)) (counted 2) := rfl
  have given : ev.eval (.char .nowhere 0x1F601) (counted 1) = .ok (.char 0x1F601) (counted 2) := rfl
  have third : ev.eval (.int .nowhere (Integer.ofNat 2)) (counted 2) =
      .ok (.i64 (Integer.ofNat 2)) (counted 3) := rfl
  have read := spells.reads .standard ev .nowhere ticked whole third (i := 2) rfl rfl
  have found : (counted 3).scope.find? (Text.lit "x") =
      some { name := Text.lit "x", value := .string (Utf8.encodeAll mixed) } := rfl
  have written := spells.assigns .standard ev .nowhere .nowhere .nowhere ticked given third found rfl rfl
    (i := 2) rfl (by decide)
  exact ⟨small, ⟨_, read⟩, _, written, rfl⟩

end Eval

end Scripting
