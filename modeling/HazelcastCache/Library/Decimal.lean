import Mathlib.Algebra.Order.Ring.Nat
import Mathlib.Tactic.Positivity
import Mathlib.Tactic.Ring

/-! Decimal numerals written next to each other without a separator. -/

namespace Library.Decimal

def digitCount (n : Nat) : Nat := (Nat.toDigits 10 n).length

theorem digitCount_pos (n : Nat) : 0 < digitCount n := Nat.length_toDigits_pos

theorem lt_pow_digitCount (n : Nat) : n < 10 ^ digitCount n :=
  (Nat.length_toDigits_le_iff (by decide) (digitCount_pos n)).mp (Nat.le_refl _)

theorem digitCount_eq_of_bounds (n k : Nat) (hlow : 10 ^ k ≤ n) (hhigh : n < 10 ^ (k + 1)) :
    digitCount n = k + 1 := by
  have upper : digitCount n ≤ k + 1 :=
    (Nat.length_toDigits_le_iff (by decide) (by omega)).mpr hhigh
  have lower : ¬ digitCount n ≤ k := by
    intro small
    have := Nat.lt_of_lt_of_le (lt_pow_digitCount n)
      (Nat.pow_le_pow_right (by decide : 0 < 10) small)
    omega
  omega

theorem toDigits_injective : Function.Injective (Nat.toDigits 10) := by
  intro first second same
  rw [← Nat.ofDigitChars_ten_toDigits (n := first), same, Nat.ofDigitChars_ten_toDigits]

theorem toString_injective : Function.Injective (fun n : Nat => toString n) := by
  intro first second same
  apply toDigits_injective
  simpa using congrArg String.toList same

theorem toDigits_append (front back : Nat) (positive : 0 < front) :
    Nat.toDigits 10 front ++ Nat.toDigits 10 back =
      Nat.toDigits 10 (front * 10 ^ digitCount back + back) := by
  induction back using Nat.strong_induction_on with
  | _ back ih =>
      by_cases single : back < 10
      · have width : digitCount back = 1 := by
          simp [digitCount, Nat.toDigits_of_lt_base single]
        rw [Nat.toDigits_append_toDigits (by decide) positive single, width]
        congr 1
        ring
      · have last : back % 10 < 10 := Nat.mod_lt _ (by decide)
        have width : digitCount back = digitCount (back / 10) + 1 := by
          simp [digitCount, Nat.toDigits_of_base_le (by decide) (Nat.not_lt.mp single)]
        have shifted : 0 < front * 10 ^ digitCount (back / 10) + back / 10 := by positivity
        rw [Nat.toDigits_of_base_le (n := back) (by decide) (Nat.not_lt.mp single),
          ← List.append_assoc, ih (back / 10) (by omega), ← Nat.toDigits_of_lt_base last,
          Nat.toDigits_append_toDigits (by decide) shifted last, width, pow_succ]
        congr 1
        have split := Nat.div_add_mod back 10
        calc
          10 * (front * 10 ^ digitCount (back / 10) + back / 10) + back % 10 =
              front * (10 ^ digitCount (back / 10) * 10) + (10 * (back / 10) + back % 10) := by
            ring
          _ = front * (10 ^ digitCount (back / 10) * 10) + back := by rw [split]

/-- `longer` is `shorter` followed by further digits, and `shorterTail` is those digits
followed by `longerTail`. -/
def Overlap (shorter shorterTail longer longerTail : Nat) : Prop :=
  0 < shorter ∧ ∃ middle, 0 < middle ∧ longer = shorter * 10 ^ digitCount middle + middle ∧
    shorterTail = middle * 10 ^ digitCount longerTail + longerTail

theorem Overlap.toDigits_eq {shorter shorterTail longer longerTail : Nat}
    (overlap : Overlap shorter shorterTail longer longerTail) :
    Nat.toDigits 10 shorter ++ Nat.toDigits 10 shorterTail =
      Nat.toDigits 10 longer ++ Nat.toDigits 10 longerTail := by
  rcases overlap with ⟨positive, middle, middlePositive, rfl, rfl⟩
  rw [← toDigits_append middle longerTail middlePositive,
    ← toDigits_append shorter middle positive, List.append_assoc]

theorem Overlap.digitCount_lt {shorter shorterTail longer longerTail : Nat}
    (overlap : Overlap shorter shorterTail longer longerTail) :
    digitCount shorter < digitCount longer := by
  rcases overlap with ⟨positive, middle, _, rfl, _⟩
  have joined := congrArg List.length (toDigits_append shorter middle positive)
  rw [List.length_append] at joined
  have more := digitCount_pos middle
  unfold digitCount at *
  omega

private theorem ofDigitChars_append_toDigits (front : List Char) (back : Nat) :
    Nat.ofDigitChars 10 (front ++ Nat.toDigits 10 back) 0 =
      Nat.ofDigitChars 10 front 0 * 10 ^ digitCount back + back := by
  rw [Nat.ofDigitChars_append, Nat.ofDigitChars_eq_ofDigitChars_zero,
    Nat.ofDigitChars_ten_toDigits, Nat.mul_comm, digitCount]

/-- The digits between the end of `shorter` and the end of `longer` are a numeral of their
own: they start `shorterTail`, which has no leading zero. -/
theorem overlap_of_split (shorter shorterTail longer longerTail : Nat) (middle : List Char)
    (nonempty : middle ≠ []) (left : Nat.toDigits 10 longer = Nat.toDigits 10 shorter ++ middle)
    (right : Nat.toDigits 10 shorterTail = middle ++ Nat.toDigits 10 longerTail) :
    Overlap shorter shorterTail longer longerTail := by
  let value := Nat.ofDigitChars 10 middle 0
  obtain ⟨width, hwidth⟩ : ∃ width, middle.length = width + 1 :=
    Nat.exists_eq_succ_of_ne_zero (by simpa using nonempty)
  have tail : shorterTail = value * 10 ^ digitCount longerTail + longerTail := by
    rw [← ofDigitChars_append_toDigits, ← right, Nat.ofDigitChars_ten_toDigits]
  have head : longer = shorter * 10 ^ (width + 1) + value := by
    rw [← Nat.ofDigitChars_ten_toDigits (n := longer), left, Nat.ofDigitChars_append,
      Nat.ofDigitChars_ten_toDigits, Nat.ofDigitChars_eq_ofDigitChars_zero, hwidth, Nat.mul_comm]
  have tailWidth : digitCount shorterTail = width + 1 + digitCount longerTail := by
    simp [digitCount, right, hwidth]
  have headWidth : digitCount longer = digitCount shorter + (width + 1) := by
    simp [digitCount, left, hwidth]
  -- A numeral of that width is at least the matching power of ten.
  have large : 10 ^ width * 10 ^ digitCount longerTail ≤ shorterTail := by
    by_contra small
    rw [← pow_add, Nat.not_le] at small
    have short : digitCount shorterTail ≤ width + digitCount longerTail :=
      (Nat.length_toDigits_le_iff (by decide)
        (Nat.add_pos_right _ (digitCount_pos longerTail))).mpr small
    omega
  have valueLow : 10 ^ width ≤ value := by
    have tailSmall := lt_pow_digitCount longerTail
    have : 10 ^ width * 10 ^ digitCount longerTail <
        (value + 1) * 10 ^ digitCount longerTail := by
      rw [Nat.succ_mul]
      omega
    exact Nat.lt_succ_iff.mp (Nat.lt_of_mul_lt_mul_right this)
  have valueHigh : value < 10 ^ (width + 1) := by
    have total := lt_pow_digitCount shorterTail
    rw [tailWidth, pow_add, tail] at total
    exact Nat.lt_of_mul_lt_mul_right (Nat.lt_of_le_of_lt (Nat.le_add_right _ _) total)
  have valueWidth := digitCount_eq_of_bounds value width valueLow valueHigh
  refine ⟨?_, value, ?_, ?_, tail⟩
  · rcases Nat.eq_zero_or_pos shorter with zero | positive
    · rw [zero, Nat.zero_mul, Nat.zero_add] at head
      have := digitCount_pos shorter
      rw [head, valueWidth] at headWidth
      omega
    · exact positive
  · exact Nat.lt_of_lt_of_le (Nat.pow_pos (by decide)) valueLow
  · rw [valueWidth]
    exact head

/-- Two different numbers with a tail each read alike exactly when one overlaps the other. -/
theorem toString_append_eq_iff (first firstTail second secondTail : Nat)
    (different : first ≠ second) :
    toString first ++ toString firstTail = toString second ++ toString secondTail ↔
      Overlap first firstTail second secondTail ∨ Overlap second secondTail first firstTail := by
  have digits : toString first ++ toString firstTail = toString second ++ toString secondTail ↔
      Nat.toDigits 10 first ++ Nat.toDigits 10 firstTail =
        Nat.toDigits 10 second ++ Nat.toDigits 10 secondTail := by
    rw [← String.toList_inj]
    simp
  have proper (middle : List Char) (a b : Nat) (distinct : a ≠ b)
      (same : Nat.toDigits 10 a = Nat.toDigits 10 b ++ middle) : middle ≠ [] := by
    intro empty
    subst empty
    exact distinct (toDigits_injective (by simpa using same))
  rw [digits]
  constructor
  · intro same
    rcases List.append_eq_append_iff.mp same with ⟨middle, hhead, htail⟩ | ⟨middle, hhead, htail⟩
    · left
      exact overlap_of_split _ _ _ _ middle (proper middle _ _ different.symm hhead) hhead htail
    · right
      exact overlap_of_split _ _ _ _ middle (proper middle _ _ different hhead) hhead htail
  · intro either
    rcases either with overlap | overlap
    · exact overlap.toDigits_eq
    · exact overlap.toDigits_eq.symm

theorem toString_append_ne_of_digitCount_eq (first firstTail second secondTail : Nat)
    (different : first ≠ second) (width : digitCount first = digitCount second) :
    toString first ++ toString firstTail ≠ toString second ++ toString secondTail := by
  intro same
  rcases (toString_append_eq_iff first firstTail second secondTail different).mp same with
    overlap | overlap
  · exact absurd overlap.digitCount_lt (by omega)
  · exact absurd overlap.digitCount_lt (by omega)

/-- A negative tail shows its sign, so it is never mistaken for digits. -/
theorem toString_append_negSucc_ne (first second secondTail magnitude : Nat) :
    toString first ++ toString (Int.negSucc magnitude) ≠ toString second ++ toString secondTail := by
  intro same
  have signed : '-' ∈ (toString first ++ toString (Int.negSucc magnitude)).toList := by
    change '-' ∈ (toString first ++ ("-" ++ toString (magnitude + 1))).toList
    simp
  rw [same, String.toList_append, List.mem_append] at signed
  have plain (n : Nat) : '-' ∉ (toString n).toList := by
    intro member
    have digit := Nat.isDigit_of_mem_toDigits (b := 10) (n := n) (by decide) (by decide)
      (by simpa using member)
    exact absurd digit (by decide)
  rcases signed with member | member
  · exact plain second member
  · exact plain secondTail member

end Library.Decimal
