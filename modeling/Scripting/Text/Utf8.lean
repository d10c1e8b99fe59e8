import Scripting.Text

/-
Code points and their UTF-8 bytes. Writing accepts every 32-bit code point; reading is lenient:
overlong forms, surrogates and everything below 0x200000 are taken as they stand, and a byte that
starts no sequence, or a sequence cut short, reads as U+FFFD.
-/
namespace Scripting

abbrev CodePoint := UInt32

namespace Utf8

def replacement : CodePoint := 0xFFFD

def continuation (n : Nat) : UInt8 := UInt8.ofNat (0x80 + n % 0x40)

/-- The bytes of one code point. From 0x200000 on the leading byte keeps the low eight bits only. -/
def encode (c : CodePoint) : Text :=
  let n := c.toNat
  if n < 0x80 then [UInt8.ofNat n]
  else if n < 0x800 then [UInt8.ofNat (0xC0 + n / 0x40), continuation n]
  else if n < 0x10000 then
    [UInt8.ofNat (0xE0 + n / 0x1000), continuation (n / 0x40), continuation n]
  else
    [UInt8.ofNat (0xF0 ||| n / 0x40000), continuation (n / 0x1000), continuation (n / 0x40),
      continuation n]

def encodeAll (cs : List CodePoint) : Text := cs.flatMap encode

def isContinuation (b : UInt8) : Bool := 0x80 ≤ b && b < 0xC0

/-- Read `k` continuation bytes onto the bits gathered so far. A byte that does not continue the
sequence is left unread. -/
def gather : Nat → Nat → Text → CodePoint × Text
  | 0, acc, rest => (UInt32.ofNat acc, rest)
  | _ + 1, _, [] => (replacement, [])
  | k + 1, acc, b :: rest =>
    if isContinuation b then gather k (acc * 0x40 + b.toNat % 0x40) rest
    else (replacement, b :: rest)

/-- Read the sequence that starts with byte `b`: its code point and the bytes after it. -/
def decodeFrom (b : UInt8) (rest : Text) : CodePoint × Text :=
  if b < 0x80 then (b.toUInt32, rest)
  else if 0xC0 ≤ b ∧ b < 0xE0 then gather 1 (b.toNat % 0x20) rest
  else if 0xE0 ≤ b ∧ b < 0xF0 then gather 2 (b.toNat % 0x10) rest
  else if 0xF0 ≤ b ∧ b < 0xF8 then gather 3 (b.toNat % 0x08) rest
  else (replacement, rest)

theorem gather_rest_length_le (k acc : Nat) (t : Text) : (gather k acc t).2.length ≤ t.length := by
  induction k generalizing acc t with
  | zero => simp [gather]
  | succ k ih =>
    cases t with
    | nil => simp [gather]
    | cons b rest =>
      simp only [gather]
      split
      · exact Nat.le_succ_of_le (ih _ rest)
      · simp

theorem decodeFrom_rest_length_le (b : UInt8) (rest : Text) :
    (decodeFrom b rest).2.length ≤ rest.length := by
  unfold decodeFrom
  split
  · simp
  · split
    · exact gather_rest_length_le ..
    · split
      · exact gather_rest_length_le ..
      · split
        · exact gather_rest_length_le ..
        · simp

/-- Every code point of a text together with the bytes that follow it. -/
def decodeSteps : Text → List (CodePoint × Text)
  | [] => []
  | b :: rest =>
    let step := decodeFrom b rest
    step :: decodeSteps step.2
termination_by t => t.length
decreasing_by
  have := decodeFrom_rest_length_le b rest
  simp only [List.length_cons]
  omega

def decode (t : Text) : List CodePoint := (decodeSteps t).map (·.1)

/-- The number of bytes that start a code point. For well formed text this is the number of code
points. -/
def length (t : Text) : Nat := (t.filter fun b => !isContinuation b).length

/-- The bytes before the `i`-th code point, that code point, and the bytes after it. -/
def locate : Nat → Text → Option (Text × CodePoint × Text)
  | _, [] => none
  | 0, b :: rest =>
    let (c, after) := decodeFrom b rest
    some ([], c, after)
  | i + 1, b :: rest =>
    let after := (decodeFrom b rest).2
    let skipped := b :: rest.take (rest.length - after.length)
    (locate i after).map fun (front, c, tail) => (skipped ++ front, c, tail)

end Utf8

end Scripting
