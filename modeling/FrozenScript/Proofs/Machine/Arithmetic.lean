import FrozenScript.Machine.Operators
import Mathlib.Data.Rat.Floor
import Mathlib.Tactic.Linarith

/-!
# Arithmetic is exact or fails

`Number` ranges over the values that count as numbers, and `Exact` says that an operation gives an
integer if that fits into a word and overflows otherwise. `arithmetic_exact_or_fails` is the main
statement: what each arithmetic operator gives on numbers, on texts, on a text and a number, and on
all other operands.

The work is in division. The words are divided towards zero, and the quotient and the remainder are
corrected where the signs of the operands differ. `floor_div_eq_tdiv` says that the corrected
quotient is the one rounded down, and `toInt_sub_one`, `toInt_remainder_add` that the corrections
stay within a word.
-/

namespace FrozenScript

/-! ## Numbers -/

/-- A value that counts as a number. -/
inductive Number where
  | int (word : Int64)
  | bool (truth : Bool)
  deriving DecidableEq, Repr

namespace Number

/-- The value that a number is. -/
def value : Number → Value
  | int word => .int word
  | bool truth => .bool truth

/-- The integer that a number stands for. -/
def toInt : Number → ℤ
  | int word => word.toInt
  | bool truth => truth.toInt

/-- The word that a number is computed with. -/
def word : Number → Int64
  | int word => word
  | bool truth => if truth then 1 else 0

@[simp] theorem toInt?_value (n : Number) : n.value.toInt? = some n.word := by
  cases n <;> rfl

@[simp] theorem toInt_word (n : Number) : n.word.toInt = n.toInt := by
  cases n with
  | int word => rfl
  | bool truth => cases truth <;> rfl

/-- The values that count as numbers are those that have an integer. -/
theorem exists_of_toInt? {value : Value} {word : Int64} (h : value.toInt? = some word) :
    ∃ n : Number, n.value = value := by
  cases value with
  | int word => exact ⟨.int word, rfl⟩
  | bool truth => exact ⟨.bool truth, rfl⟩
  | _ => exact nomatch h

end Number

/-! ## Results -/

/-- An operation gives an integer if it fits into a signed word of 64 bits, and overflows
otherwise. -/
inductive Exact (n : ℤ) : Except Fault Value → Prop where
  | fits {word : Int64} (h : word.toInt = n) : Exact n (.ok (.int word))
  | overflow (h : n < -2 ^ 63 ∨ 2 ^ 63 ≤ n) : Exact n (.error .overflow)

theorem Exact.ne_type {n : ℤ} {result : Except Fault Value} (h : Exact n result)
    (kind : TypeFault) : result ≠ .error (.type kind) := by
  rintro rfl
  exact nomatch h

theorem bounded_exact (n : ℤ) : Exact n (bounded n) := by
  have hmin : Int64.minValue.toInt = -2 ^ 63 := rfl
  have hmax : Int64.maxValue.toInt = 2 ^ 63 - 1 := rfl
  unfold bounded Text.Decimal.toInt64?
  by_cases hfits : Int64.minValue.toInt ≤ n ∧ n ≤ Int64.maxValue.toInt
  · rw [if_pos hfits]
    rw [hmin, hmax] at hfits
    exact .fits (Int64.toInt_ofInt_of_le hfits.1 (by omega))
  · rw [if_neg hfits]
    rw [hmin, hmax] at hfits
    exact .overflow (by omega)

/-- An operation gives a text if it has at most `2 ^ 24` bytes, and overflows otherwise. -/
inductive ExactText (text : String) : Except Fault Value → Prop where
  | fits (h : text.utf8ByteSize ≤ 2 ^ 24) : ExactText text (.ok (.text text))
  | overflow (h : 2 ^ 24 < text.utf8ByteSize) : ExactText text (.error .overflow)

theorem ExactText.ne_type {text : String} {result : Except Fault Value}
    (h : ExactText text result) (kind : TypeFault) : result ≠ .error (.type kind) := by
  rintro rfl
  exact nomatch h

/-! ## Division of integers -/

section

variable {a b q r : ℤ}

/-- A quotient whose remainder lies between zero and the divisor is the one rounded down. -/
theorem floor_div_eq (hsum : a = b * q + r) (hr : 0 ≤ r ∧ r < b ∨ b < r ∧ r ≤ 0) :
    ⌊(a : ℚ) / b⌋ = q := by
  rw [Int.floor_eq_iff]
  have hcast : (a : ℚ) = b * q + r := by exact_mod_cast hsum
  rcases hr with ⟨hlow, hhigh⟩ | ⟨hlow, hhigh⟩
  · have hpos : (0 : ℚ) < b := by exact_mod_cast hlow.trans_lt hhigh
    have hlow' : (0 : ℚ) ≤ r := by exact_mod_cast hlow
    have hhigh' : (r : ℚ) < b := by exact_mod_cast hhigh
    rw [le_div_iff₀ hpos, div_lt_iff₀ hpos]
    constructor <;> linarith
  · have hneg : (b : ℚ) < 0 := by exact_mod_cast hlow.trans_le hhigh
    have hlow' : (b : ℚ) < r := by exact_mod_cast hlow
    have hhigh' : (r : ℚ) ≤ 0 := by exact_mod_cast hhigh
    rw [le_div_iff_of_neg hneg, div_lt_iff_of_neg hneg]
    constructor <;> linarith

/-- A remainder is smaller than the divisor. -/
theorem natAbs_tmod_lt (a : ℤ) (hb : b ≠ 0) : (a.tmod b).natAbs < b.natAbs := by
  rw [Int.natAbs_tmod]
  exact Nat.mod_lt _ (Int.natAbs_pos.mpr hb)

/-- A remainder that is not zero has the sign of the dividend. -/
theorem tmod_neg_iff (hr : a.tmod b ≠ 0) : a.tmod b < 0 ↔ a < 0 := by
  constructor
  · intro hneg
    by_contra hpos
    have := Int.tmod_nonneg b (not_lt.mp hpos)
    omega
  · intro hneg
    have := Int.tmod_nonneg b (show 0 ≤ -a by omega)
    rw [Int.neg_tmod] at this
    omega

/-- The quotient rounded towards zero is one above the one rounded down if the division leaves a
remainder and the operands differ in sign. -/
theorem floor_div_eq_tdiv (hb : b ≠ 0) : ⌊(a : ℚ) / b⌋ =
    if a.tmod b ≠ 0 ∧ (a < 0 ↔ ¬ b < 0) then a.tdiv b - 1 else a.tdiv b := by
  have hsum : a = b * a.tdiv b + a.tmod b := (Int.mul_tdiv_add_tmod a b).symm
  have hsmall := natAbs_tmod_lt a hb
  split
  next hdiffer =>
    have hsign := tmod_neg_iff hdiffer.1
    refine floor_div_eq (r := a.tmod b + b) ?_ (by omega)
    rw [mul_sub]
    omega
  next hsame =>
    refine floor_div_eq hsum ?_
    by_cases hr : a.tmod b = 0
    · omega
    · have hsign := tmod_neg_iff hr
      omega

end

/-! ## Division of words -/

section

variable {a b q : Int64}

theorem differInSign_iff : differInSign a b = true ↔ (a.toInt < 0 ↔ ¬ b.toInt < 0) := by
  simp only [differInSign, bne_iff_ne, ne_eq, decide_eq_decide, Int64.lt_iff_toInt_lt,
    Int64.toInt_zero]
  tauto

theorem toInt_ne_zero (hb : b ≠ 0) : b.toInt ≠ 0 :=
  fun h => hb (Int64.toInt_inj.mp h)

/-- A quotient of words is that of the integers. -/
theorem toInt_of_quotient? (h : quotient? a b = some q) : q.toInt = a.toInt.tdiv b.toInt := by
  unfold quotient? at h
  split at h
  next => exact nomatch h
  next hfits =>
    cases h
    by_cases ha : a = Int64.minValue
    · refine Int64.toInt_div_of_ne_right a b ?_
      rintro rfl
      exact hfits (by simp [ha])
    · exact Int64.toInt_div_of_ne_left a b ha

/-- The quotient that does not fit into a word is that of the least word and minus one. -/
theorem of_quotient?_eq_none (h : quotient? a b = none) : a.toInt = -2 ^ 63 ∧ b.toInt = -1 := by
  unfold quotient? at h
  split at h
  next hleast =>
    rw [Bool.and_eq_true, beq_iff_eq, beq_iff_eq] at hleast
    obtain ⟨rfl, rfl⟩ := hleast
    exact ⟨rfl, rfl⟩
  next => exact nomatch h

/-- The corrections of the quotient and of the remainder are made in the same cases. -/
theorem corrected_iff : (a % b != 0 && differInSign a b) = true ↔
    a.toInt.tmod b.toInt ≠ 0 ∧ (a.toInt < 0 ↔ ¬ b.toInt < 0) := by
  simp only [Bool.and_eq_true, bne_iff_ne, ne_eq, differInSign_iff, ← Int64.toInt_inj,
    Int64.toInt_zero, Int64.toInt_mod]

theorem corrected_remainder (a b : Int64) :
    (a % b != 0 && differInSign (a % b) b) = (a % b != 0 && differInSign a b) := by
  rw [Bool.eq_iff_iff, corrected_iff, Bool.and_eq_true, bne_iff_ne, ne_eq, differInSign_iff,
    ← Int64.toInt_inj, Int64.toInt_zero, Int64.toInt_mod]
  exact and_congr_right fun hr => by rw [tmod_neg_iff hr]

/-- A quotient with a remainder can be corrected within a word. -/
theorem toInt_sub_one (hq : q.toInt = a.toInt.tdiv b.toInt) (hr : a % b ≠ 0) :
    (q - 1).toInt = q.toInt - 1 := by
  have hleast : q.toInt ≠ -2 ^ 63 := by
    intro hleast
    have hquotient : q.toInt.natAbs = a.toInt.natAbs / b.toInt.natAbs := hq ▸ Int.natAbs_tdiv _ _
    have hsum := Nat.div_add_mod a.toInt.natAbs b.toInt.natAbs
    rw [← hquotient, ← Int.natAbs_tmod, ← Int64.toInt_mod, hleast,
      show (-2 ^ 63 : ℤ).natAbs = 2 ^ 63 from rfl] at hsum
    -- A dividend of at most `2 ^ 63` leaves no room for a remainder.
    have hdividend : a.toInt.natAbs ≤ 2 ^ 63 := by
      have := a.le_toInt
      have := a.toInt_lt
      omega
    have hremainder : (a % b).toInt ≠ 0 := toInt_ne_zero hr
    have hdivisor : b.toInt = 0 := by omega
    rw [hdivisor, Int.tdiv_zero] at hq
    omega
  have hlow := q.le_toInt
  have hhigh := q.toInt_lt
  rw [Int64.toInt_sub, Int64.toInt_one, Int.bmod_eq_of_le (by omega) (by omega)]

/-- A remainder can be corrected within a word. -/
theorem toInt_remainder_add (hdiffer : differInSign (a % b) b = true) :
    (a % b + b).toInt = (a % b).toInt + b.toInt := by
  have hlow := (a % b).le_toInt
  have hhigh := (a % b).toInt_lt
  have hlow' := b.le_toInt
  have hhigh' := b.toInt_lt
  rw [differInSign_iff] at hdiffer
  rw [Int64.toInt_add, Int.bmod_eq_of_le (by omega) (by omega)]

end

/-! ## Texts -/

theorem joinTexts_exact (s t : String) : ExactText (s ++ t) (joinTexts s t) := by
  have hsize := String.utf8ByteSize_append (s := s) (t := t)
  unfold joinTexts
  split
  next hfits => exact .fits (by rw [hsize]; exact hfits)
  next hlong => exact .overflow (by rw [hsize]; exact Nat.lt_of_not_le hlong)

/-- Copies of a text are added at the end. -/
theorem join_replicate_succ (s : String) (n : ℕ) :
    String.join (List.replicate (n + 1) s) = String.join (List.replicate n s) ++ s := by
  rw [List.replicate_succ', String.join, List.foldl_append]
  rfl

theorem utf8ByteSize_join_replicate (s : String) (n : ℕ) :
    (String.join (List.replicate n s)).utf8ByteSize = s.utf8ByteSize * n := by
  induction n with
  | zero => rfl
  | succ n ih => rw [join_replicate_succ, String.utf8ByteSize_append, ih, Nat.mul_succ]

theorem copies_eq_join (s : String) (n : ℕ) : copies s n = String.join (List.replicate n s) := by
  have hrepeat : Nat.repeat (· ++ s) n "" = String.join (List.replicate n s) := by
    induction n with
    | zero => rfl
    | succ n ih => rw [join_replicate_succ, ← ih]; rfl
  unfold copies
  split
  next hempty =>
    have hsize := utf8ByteSize_join_replicate s n
    rw [String.isEmpty_iff.mp hempty, String.utf8ByteSize_empty, Nat.zero_mul,
      String.utf8ByteSize_eq_zero_iff] at hsize
    rw [String.isEmpty_iff.mp hempty, hsize]
  next => exact hrepeat

theorem repeatText_exact (s : String) (n : ℤ) :
    ExactText (String.join (List.replicate (max n 0).toNat s)) (repeatText s n) := by
  have hcount : (max n 0).toNat = n.toNat := by omega
  have hsize := utf8ByteSize_join_replicate s n.toNat
  unfold repeatText
  rw [hcount, copies_eq_join]
  split
  next hfits => exact .fits (by rw [hsize]; exact hfits)
  next hlong => exact .overflow (by rw [hsize]; exact Nat.lt_of_not_le hlong)

/-! ## The operators -/

namespace BinaryOp

/-- Floor division rounds down. -/
theorem floorDiv_exact {a b : Int64} (hb : b ≠ 0) :
    Exact ⌊(a.toInt : ℚ) / b.toInt⌋ (floorDiv.onInts a b) := by
  have hzero := toInt_ne_zero hb
  rw [floor_div_eq_tdiv hzero]
  simp only [onInts, beq_iff_eq, hb, if_false]
  cases hquotient : quotient? a b with
  | none =>
      obtain ⟨ha, hb⟩ := of_quotient?_eq_none hquotient
      refine .overflow (.inr ?_)
      rw [ha, hb]
      decide
  | some q =>
      have hq := toInt_of_quotient? hquotient
      refine .fits ?_
      simp only [corrected_iff]
      split
      next hcorrected =>
        have hr : a % b ≠ 0 := by
          rintro hr
          exact hcorrected.1 (by rw [← Int64.toInt_mod, hr, Int64.toInt_zero])
        rw [toInt_sub_one hq hr, hq]
      next => exact hq

/-- The remainder is what the quotient rounded down leaves. -/
theorem mod_exact {a b : Int64} (hb : b ≠ 0) : ∃ word : Int64,
    word.toInt = a.toInt - b.toInt * ⌊(a.toInt : ℚ) / b.toInt⌋ ∧
      mod.onInts a b = .ok (.int word) := by
  have hzero := toInt_ne_zero hb
  have hsum := Int.mul_tdiv_add_tmod a.toInt b.toInt
  rw [floor_div_eq_tdiv hzero]
  simp only [onInts, beq_iff_eq, hb, if_false, corrected_remainder]
  refine ⟨_, ?_, rfl⟩
  simp only [corrected_iff]
  split
  next hcorrected =>
    have hdiffer : differInSign (a % b) b = true := by
      rw [differInSign_iff, Int64.toInt_mod, tmod_neg_iff hcorrected.1]
      exact hcorrected.2
    rw [toInt_remainder_add hdiffer, Int64.toInt_mod, mul_sub]
    omega
  next =>
    rw [Int64.toInt_mod]
    omega

/-- Two numbers are computed with as words. -/
theorem apply_numbers (op : BinaryOp) (a b : Number) :
    op.apply a.value b.value = op.onInts a.word b.word := by
  unfold apply
  rw [Number.toInt?_value, Number.toInt?_value]

theorem apply_text_number (s : String) (n : Number) :
    mul.apply (.text s) n.value = repeatText s n.toInt := by
  rw [← Number.toInt_word]
  cases n <;> rfl

theorem apply_number_text (s : String) (n : Number) :
    mul.apply n.value (.text s) = repeatText s n.toInt := by
  rw [← Number.toInt_word]
  cases n <;> rfl

/-- An operator does not refuse two numbers. -/
theorem onInts_ne_type (op : BinaryOp) (a b : Int64) (kind : TypeFault) :
    op.onInts a b ≠ .error (.type kind) := by
  cases op with
  | add | sub | mul => exact (bounded_exact _).ne_type kind
  | floorDiv =>
      by_cases hb : b = 0
      · subst hb
        exact nofun
      · exact (floorDiv_exact hb).ne_type kind
  | mod =>
      by_cases hb : b = 0
      · subst hb
        exact nofun
      · obtain ⟨word, -, hword⟩ := mod_exact hb
        rw [hword]
        exact nofun

/-- The operands that an arithmetic operator takes. -/
inductive Takes : BinaryOp → Value → Value → Prop where
  | numbers (op : BinaryOp) (a b : Number) : Takes op a.value b.value
  | texts (s t : String) : Takes add (.text s) (.text t)
  | copies (s : String) (n : Number) : Takes mul (.text s) n.value
  | copiesRight (n : Number) (s : String) : Takes mul n.value (.text s)

/-- Operands that an operator does not take are a type error. -/
theorem apply_of_not_takes {op : BinaryOp} {left right : Value} (h : ¬ op.Takes left right) :
    op.apply left right = wrongOperands op left right := by
  unfold apply
  split
  next hleft hright =>
    obtain ⟨a, rfl⟩ := Number.exists_of_toInt? hleft
    obtain ⟨b, rfl⟩ := Number.exists_of_toInt? hright
    exact absurd (.numbers op a b) h
  next =>
    split
    · exact absurd (.texts _ _) h
    · split
      next hcount =>
        obtain ⟨n, rfl⟩ := Number.exists_of_toInt? hcount
        exact absurd (.copies _ n) h
      next => rfl
    · split
      next hcount =>
        obtain ⟨n, rfl⟩ := Number.exists_of_toInt? hcount
        exact absurd (.copiesRight n _) h
      next => rfl
    · rfl

end BinaryOp

/-- An operator does not refuse the operands that it takes. -/
theorem BinaryOp.Takes.apply_ne_type {op : BinaryOp} {left right : Value}
    (h : op.Takes left right) (kind : TypeFault) : op.apply left right ≠ .error (.type kind) := by
  cases h with
  | numbers op a b =>
      rw [BinaryOp.apply_numbers]
      exact BinaryOp.onInts_ne_type op a.word b.word kind
  | texts s t => exact (joinTexts_exact s t).ne_type kind
  | copies s n =>
      rw [BinaryOp.apply_text_number]
      exact (repeatText_exact s n.toInt).ne_type kind
  | copiesRight n s =>
      rw [BinaryOp.apply_number_text]
      exact (repeatText_exact s n.toInt).ne_type kind

/-- Arithmetic on numbers gives the mathematical result if it fits into a word, and overflows
otherwise; only a division by zero fails in another way, and a remainder never overflows, neither at
the end nor on the way. Joining texts and repeating them gives the whole text if it is short enough,
and overflows otherwise. All other operands are type errors. -/
theorem arithmetic_exact_or_fails :
    (∀ a b : Number,
      Exact (a.toInt + b.toInt) (BinaryOp.add.apply a.value b.value) ∧
        Exact (a.toInt - b.toInt) (BinaryOp.sub.apply a.value b.value) ∧
        Exact (a.toInt * b.toInt) (BinaryOp.mul.apply a.value b.value) ∧
        if b.toInt = 0 then
          BinaryOp.floorDiv.apply a.value b.value = .error .zeroDivision ∧
            BinaryOp.mod.apply a.value b.value = .error .zeroDivision
        else
          Exact ⌊(a.toInt : ℚ) / b.toInt⌋ (BinaryOp.floorDiv.apply a.value b.value) ∧
            ∃ word : Int64, word.toInt = a.toInt - b.toInt * ⌊(a.toInt : ℚ) / b.toInt⌋ ∧
              BinaryOp.mod.apply a.value b.value = .ok (.int word)) ∧
    (∀ a b : Int64, (a % b).toInt = a.toInt.tmod b.toInt ∧
      (differInSign (a % b) b = true → (a % b + b).toInt = (a % b).toInt + b.toInt)) ∧
    (∀ s t : String, ExactText (s ++ t) (BinaryOp.add.apply (.text s) (.text t))) ∧
    (∀ (s : String) (n : Number),
      ExactText (String.join (List.replicate (max n.toInt 0).toNat s))
          (BinaryOp.mul.apply (.text s) n.value) ∧
        BinaryOp.mul.apply n.value (.text s) = BinaryOp.mul.apply (.text s) n.value) ∧
    ∀ (op : BinaryOp) (left right : Value),
      op.apply left right = .error (.type (.arithmetic op left.typeName right.typeName)) ↔
        ¬ op.Takes left right := by
  refine ⟨fun a b => ?numbers, fun a b => ⟨Int64.toInt_mod a b, toInt_remainder_add⟩,
    joinTexts_exact, fun s n => ⟨?copies, ?copiesRight⟩, fun op left right => ⟨?refused, ?taken⟩⟩
  case numbers =>
    simp only [BinaryOp.apply_numbers, ← Number.toInt_word]
    refine ⟨bounded_exact _, bounded_exact _, bounded_exact _, ?_⟩
    split
    next hzero =>
      have hword : b.word = 0 := Int64.toInt_inj.mp hzero
      rw [hword]
      exact ⟨rfl, rfl⟩
    next hzero =>
      have hword : b.word ≠ 0 := fun hword => hzero (by rw [hword, Int64.toInt_zero])
      exact ⟨BinaryOp.floorDiv_exact hword, BinaryOp.mod_exact hword⟩
  case copies =>
    rw [BinaryOp.apply_text_number]
    exact repeatText_exact s n.toInt
  case copiesRight => rw [BinaryOp.apply_text_number, BinaryOp.apply_number_text]
  case refused => exact fun h htakes => htakes.apply_ne_type _ h
  case taken => exact BinaryOp.apply_of_not_takes

/-- The least word divided by minus one does not fit, and leaves no remainder. -/
example : BinaryOp.floorDiv.apply (.int Int64.minValue) (.int (-1)) = .error .overflow ∧
    BinaryOp.mod.apply (.int Int64.minValue) (.int (-1)) = .ok (.int 0) := by
  decide

end FrozenScript
