import Mathlib.Data.List.Basic
import Mathlib.Tactic.IntervalCases

/-! Numerals as keys. A numeral denotes one number, in decimal or in hexadecimal, padded to a width
or not, and what stands before a separator that it does not contain can be told from the rest. -/
namespace Numerals

def padded (base width n : ℕ) : String :=
  let digits := Nat.toDigits base n
  .ofList (List.replicate (width - digits.length) '0' ++ digits)

def digitValue (c : Char) : ℕ := if c.isDigit then c.toNat - 48 else c.toNat - 87

def valueOf (digits : List Char) : ℕ := digits.foldl (fun n c => 16 * n + digitValue c) 0

theorem digitValue_digitChar {n : ℕ} (h : n < 16) : digitValue n.digitChar = n := by
  interval_cases n <;> decide

theorem valueOf_toDigits (n : ℕ) : valueOf (Nat.toDigits 16 n) = n := by
  induction n using Nat.base_induction 16 (by decide) with
  | single m hm =>
    rw [Nat.toDigits_of_lt_base hm]
    simp [valueOf, digitValue_digitChar hm]
  | digit m k hk hm ih =>
    rw [← Nat.toDigits_append_toDigits (by decide) hm hk, Nat.toDigits_of_lt_base hk]
    rw [valueOf, List.foldl_append]
    rw [valueOf] at ih
    rw [ih]
    simp [digitValue_digitChar hk]

theorem valueOf_zeros (k : ℕ) (l : List Char) :
    valueOf (List.replicate k '0' ++ l) = valueOf l := by
  have hzero : ∀ k, (List.replicate k '0').foldl (fun n c => 16 * n + digitValue c) 0 = 0 := by
    intro k
    induction k with
    | zero => rfl
    | succ k ih => exact ih
  rw [valueOf, List.foldl_append, hzero, valueOf]

theorem padded_injective (width : ℕ) : Function.Injective (padded 16 width) := by
  intro m n h
  have hlist := congrArg String.toList h
  simp only [padded, String.toList_ofList] at hlist
  have hvalue := congrArg valueOf hlist
  rwa [valueOf_zeros, valueOf_zeros, valueOf_toDigits, valueOf_toDigits] at hvalue

theorem natRepr_injective : Function.Injective Nat.repr := by
  intro m n h
  have hlist := congrArg String.toList h
  rw [Nat.toList_repr, Nat.toList_repr] at hlist
  have hvalue := congrArg (fun l => Nat.ofDigitChars 10 l 0) hlist
  simpa using hvalue

theorem isDigit_of_mem_natRepr {n : ℕ} {c : Char} (h : c ∈ n.repr.toList) : c.isDigit := by
  rw [Nat.toList_repr] at h
  exact Nat.isDigit_of_mem_toDigits (by decide) (by decide) h

theorem mem_intRepr {i : ℤ} {c : Char} (h : c ∈ i.repr.toList) : c.isDigit ∨ c = '-' := by
  rw [Int.repr_eq_if] at h
  split at h
  · exact Or.inl (isDigit_of_mem_natRepr h)
  · rw [String.toList_append, List.mem_append] at h
    rcases h with h | h
    · exact Or.inr (by simpa using h)
    · exact Or.inl (isDigit_of_mem_natRepr h)

theorem intRepr_injective : Function.Injective Int.repr := by
  -- the sign of a negative number is not a digit
  have signed : ∀ {m n : ℕ}, "-" ++ m.repr ≠ n.repr := by
    intro m n h
    have hmem : '-' ∈ n.repr.toList := by
      rw [← h, String.toList_append]
      exact List.mem_append_left _ (by decide)
    exact absurd (isDigit_of_mem_natRepr hmem) (by decide)
  intro i j h
  rw [Int.repr_eq_if, Int.repr_eq_if] at h
  split at h <;> split at h
  · have := natRepr_injective h
    omega
  · exact absurd h.symm signed
  · exact absurd h signed
  · have hlist := congrArg String.toList h
    rw [String.toList_append, String.toList_append] at hlist
    have := natRepr_injective (String.toList_inj.mp (List.append_cancel_left hlist))
    omega

end Numerals
