import Scripting.Proofs.Capture.State
import Scripting.Token.Dialect

/-
No script can write the name of a closure. Such a name has a dollar sign in it, and no token that
names something does.
-/
namespace Scripting

def dollar : UInt8 := 36

theorem dollar_mem_closureName (id : Nat) : dollar ∈ closureName id :=
  List.mem_append_left _ (by decide)

theorem Text.undollared_of_identifierFrom {t : Text} {started : Bool}
    (h : Text.identifierFrom started t = true) : dollar ∉ t := by
  induction t generalizing started with
  | nil => simp
  | cons b rest ih =>
    have first : b ≠ dollar := by
      rintro rfl
      simp [Text.identifierFrom, dollar, Text.isLower, Text.isUpper, Text.isDigit] at h
    have later : dollar ∉ rest := by
      unfold Text.identifierFrom at h
      split at h
      · exact ih h
      · split at h
        · exact ih h
        · exact ih (Bool.and_eq_true_iff.mp h).2
    simp [Ne.symm first, later]

namespace Token

def Undollared : Token → Prop
  | identifier t | reserved t | custom t => dollar ∉ t
  | _ => True

theorem undollared_of_ofText? {t : Text} {token : Token} (h : ofText? t = some token) :
    token.Undollared := by
  unfold ofText? at h
  split at h
  · cases h
    trivial
  · split at h
    · next kept =>
      cases h
      have signs : Reserved.signs.all (fun s => !(Text.lit s).contains dollar) = true := by decide
      have words : Reserved.words.all (fun s => !(Text.lit s).contains dollar) = true := by decide
      have services : Service.all.all (fun s => !s.text.contains dollar) = true := by decide
      have this : dollar ∉ Reserved.this := by decide
      change dollar ∉ t
      simp only [Reserved.isReserved, Bool.or_eq_true, List.any_eq_true, beq_iff_eq] at kept
      rcases kept with ((⟨s, there, rfl⟩ | ⟨s, there, rfl⟩) | service) | rfl
      · simpa using List.all_eq_true.mp signs s there
      · simpa using List.all_eq_true.mp words s there
      · obtain ⟨s, found⟩ := Option.isSome_iff_exists.mp service
        have text : s.text = t := by simpa using List.find?_some found
        have plain := List.all_eq_true.mp services s (List.mem_of_find?_eq_some found)
        rw [text] at plain
        simpa using plain
      · exact this
    · cases h

end Token

namespace Scan

def Step.Undollared (step : Step) : Prop :=
  ∀ token start, step.token = some (token, start) → token.Undollared

theorem undollared_step {token : Token} (h : token.Undollared) (start pos : Position)
    (state : ScanState) (rest : List CodePoint) :
    Step.Undollared ⟨some (token, start), state, pos, rest⟩ := by
  rintro token start ⟨⟩
  exact h

theorem numberToken_undollared (negative : Bool) (number : NumberText) :
    (numberToken negative number).Undollared := by
  unfold numberToken
  dsimp only
  repeat' split
  all_goals trivial

theorem wordToken_undollared (word : Text) : (wordToken word).Undollared := by
  unfold wordToken
  split
  · trivial
  · next identifier =>
    cases found : Token.ofText? word with
    | none =>
      have named : word.isIdentifier = true := by simpa using identifier
      exact Text.undollared_of_identifierFrom named
    | some token => exact Token.undollared_of_ofText? found

theorem signToken_undollared (afterOperand : Bool) {sign : String} (h : sign ∈ signs) :
    (signToken afterOperand sign).Undollared := by
  have plain : signs.all (fun s => !(Text.lit s).contains dollar) = true := by decide
  unfold signToken
  split
  · trivial
  · trivial
  · next found => exact Token.undollared_of_ofText? found
  · have free := List.all_eq_true.mp plain sign h
    change dollar ∉ Text.lit sign
    simpa using free

theorem stringStep_undollared (state : ScanState) (start : Position) (input : List CodePoint) :
    (stringStep state start input).Undollared := by
  unfold stringStep
  dsimp only
  split <;> exact undollared_step (by trivial) _ _ _ _

theorem charStep_undollared (state : ScanState) (start : Position) (input : List CodePoint) :
    (charStep state start input).Undollared := by
  unfold charStep
  split
  · exact undollared_step (by trivial) _ _ _ _
  · dsimp only
    split <;> exact undollared_step (by trivial) _ _ _ _

theorem signStep_undollared (state : ScanState) (start : Position) (first : CodePoint)
    (input : List CodePoint) : (signStep state start first input).Undollared := by
  unfold signStep
  split
  · next sign found =>
    exact undollared_step (signToken_undollared _ (List.mem_of_find?_eq_some found)) _ _ _ _
  · exact undollared_step (by trivial) _ _ _ _

theorem endStep_undollared (state : ScanState) (pos : Position) :
    (endStep state pos).Undollared := by
  intro token start eq
  unfold endStep at eq
  dsimp only at eq
  split at eq
  · cases eq
  · cases eq
    trivial

theorem nextFrom_undollared (state : ScanState) (pos : Position) (input : List CodePoint) :
    (nextFrom state pos input).Undollared := by
  fun_induction nextFrom state pos input with
  | case1 => exact endStep_undollared _ _
  | case2 state pos rest start ih => exact ih
  | case3 => exact undollared_step (numberToken_undollared _ _) _ _ _ _
  | case4 => exact undollared_step (wordToken_undollared _) _ _ _ _
  | case5 => exact stringStep_undollared _ _ _
  | case6 => exact charStep_undollared _ _ _
  | case7 state pos c rest start newline digit word double single blank ih => exact ih
  | case8 => exact undollared_step (numberToken_undollared _ _) _ _ _ _
  | case9 => exact undollared_step (by trivial) _ _ _ _
  | case10 state pos c rest start newline digit word double single blank negative line comment skip ih =>
    exact ih
  | case11 => exact undollared_step (by trivial) _ _ _ _
  | case12 state pos c rest start newline digit word double single blank negative line block comment
      state' skip ih =>
    exact ih
  | case13 => exact signStep_undollared _ _ _ _

theorem next_undollared (state : ScanState) (pos : Position) (input : List CodePoint) :
    (next state pos input).Undollared := by
  have remembered : ∀ {step : Step}, step.Undollared → step.remember.Undollared := by
    intro step h
    unfold Step.remember
    split <;> exact h
  refine remembered ?_
  split
  · exact nextFrom_undollared state pos input
  · dsimp only
    split
    · exact undollared_step (by trivial) _ _ _ _
    · exact nextFrom_undollared _ _ _

end Scan

namespace Dialect

variable (d : Dialect)

theorem filter_undollared {token : Token} (h : token.Undollared) : (d.filter token).Undollared := by
  cases token with
  | reserved t =>
    change (d.filterReserved t).Undollared
    unfold filterReserved improperToken
    repeat' split
    all_goals first | exact h | trivial
  | identifier t =>
    change (if d.isCustom t then Token.custom t else .identifier t).Undollared
    split <;> exact h
  | symbol s =>
    have texts : ∀ s : Symbol, dollar ∉ s.text := by
      intro s
      cases s <;> decide
    change (d.filterSymbol s).Undollared
    unfold filterSymbol
    repeat' split
    all_goals first | exact texts s | trivial
  | _ => exact h

theorem take_undollared (cap : Nat) (state : ScanState) (pos : Position) (input : List CodePoint) :
    ∀ p ∈ d.take cap state pos input, p.1.Undollared := by
  induction cap generalizing state pos input with
  | zero => exact fun _ never => by cases never
  | succ cap ih =>
    unfold take next
    dsimp only
    cases read : (Scan.next state pos input).token with
    | none => exact fun _ never => by cases never
    | some found =>
      obtain ⟨token, start⟩ := found
      have first : (d.filter token).Undollared :=
        d.filter_undollared (Scan.next_undollared state pos input token start read)
      dsimp only [Option.map_some]
      split
      · exact List.forall_mem_cons.mpr ⟨first, fun _ never => by cases never⟩
      · exact List.forall_mem_cons.mpr ⟨first, ih _ _ _⟩

theorem unmarked_tokens (pieces : List Text) : Grammar.Unmarked (d.tokens pieces) := by
  rintro ⟨token, pos⟩ there name spelled id rfl
  have plain : token.Undollared := d.take_undollared _ _ _ _ _ there
  rcases spelled with rfl | rfl <;> exact plain (dollar_mem_closureName id)

end Dialect

end Scripting
