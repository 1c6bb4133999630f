import Coinage.Proofs.SessionArithmetic
import Mathlib.Algebra.BigOperators.Group.List.Basic
import Mathlib.Algebra.Order.BigOperators.Group.List
import Mathlib.Algebra.Ring.Int.Defs
import Mathlib.Data.List.Infix

/-!
# Sums of amounts

A sum adds from the left and ends in an overflow at the first partial sum out of range. So it goes
through exactly if the sums of all prefixes are in range, and then it is the exact total, which is
the same in every arrangement. Whether it goes through does depend on the arrangement, unless no two
amounts lie on different sides of zero: then no partial sum is further from zero than the total.

Results.

* `add_cases`, `foldlM_add_cases`: one addition, and those of a whole list to an amount.
* `prefixesInRange_iff_of_oneSided`: on one side of zero only the total counts.
* `sum_exact_while_in_range`: when a sum goes through, and how it depends on the arrangement.
-/
namespace Coinage.Amount

open Form (InRange)

variable {a : Amount} {xs ys : List Amount} {n : ℤ}

/-! ## Exact sums -/

/-- The exact number of Hao in all amounts together. -/
def total (xs : List Amount) : ℤ := (xs.map hao).sum

@[simp] theorem total_nil : total [] = 0 := rfl

@[simp] theorem total_cons (a : Amount) (xs : List Amount) :
    total (a :: xs) = a.hao + total xs := by simp [total]

@[simp] theorem total_append (xs ys : List Amount) :
    total (xs ++ ys) = total xs + total ys := by simp [total]

theorem total_perm (h : xs.Perm ys) : total xs = total ys := (h.map hao).sum_eq

theorem total_nonneg (h : ∀ a ∈ xs, 0 ≤ a.hao) : 0 ≤ total xs :=
  List.sum_nonneg (by simpa using h)

theorem total_nonpos (h : ∀ a ∈ xs, a.hao ≤ 0) : total xs ≤ 0 := by
  induction xs with
  | nil => simp
  | cons a rest ih =>
    rw [List.forall_mem_cons] at h
    rw [total_cons]
    exact add_nonpos h.1 (ih h.2)

/-! ## Ranges -/

theorem inRange_hao (a : Amount) : InRange a.hao := ⟨a.lower, a.upper⟩

theorem exists_hao_eq (h : InRange n) : ∃ a : Amount, a.hao = n := ⟨⟨n, h.1, h.2⟩, rfl⟩

/-- With `n` in front of them, the amounts of every prefix sum up to a number in range. -/
def PrefixesInRange (n : ℤ) (xs : List Amount) : Prop :=
  ∀ taken, taken <+: xs → InRange (n + total taken)

instance (n : ℤ) (xs : List Amount) : Decidable (PrefixesInRange n xs) :=
  decidable_of_iff (∀ taken ∈ xs.inits, InRange (n + total taken)) (by simp [PrefixesInRange])

@[simp] theorem prefixesInRange_nil : PrefixesInRange n [] ↔ InRange n := by
  simp [PrefixesInRange]

@[simp] theorem prefixesInRange_cons :
    PrefixesInRange n (a :: xs) ↔ InRange n ∧ PrefixesInRange (n + a.hao) xs := by
  constructor
  · intro h
    refine ⟨by simpa using h [] (List.nil_prefix), ?_⟩
    intro taken ht
    have := h (a :: taken) (List.cons_prefix_cons.mpr ⟨rfl, ht⟩)
    rwa [total_cons, ← add_assoc] at this
  · rintro ⟨hn, h⟩ taken ht
    rcases List.prefix_cons_iff.mp ht with rfl | ⟨rest, rfl, hr⟩
    · simpa using hn
    · rw [total_cons, ← add_assoc]
      exact h rest hr

/-! ## Adding -/

/-- An exact sum in range is taken, any other overflows. -/
theorem add_cases (a b : Amount) :
    (InRange (a.hao + b.hao) ∧ ∃ s, a.add b = .ok s ∧ s.hao = a.hao + b.hao) ∨
      (¬InRange (a.hao + b.hao) ∧ a.add b = .error .add) := by
  by_cases h : InRange (a.hao + b.hao)
  · left
    obtain ⟨s, e⟩ := exists_hao_eq h
    refine ⟨h, s, ?_, e⟩
    rw [add, fitting, ofHao?_eq_some_iff.mpr e]
  · right
    have hn : ofHao? (a.hao + b.hao) = none := dif_neg h
    refine ⟨h, ?_⟩
    rw [add, fitting, hn]

theorem foldlM_add_cases (start : Amount) (xs : List Amount) :
    (PrefixesInRange start.hao xs ∧
        ∃ s, xs.foldlM add start = .ok s ∧ s.hao = start.hao + total xs) ∨
      (¬PrefixesInRange start.hao xs ∧ xs.foldlM add start = .error .add) := by
  induction xs generalizing start with
  | nil =>
    left
    exact ⟨by simp [inRange_hao], start, rfl, by simp⟩
  | cons a rest ih =>
    rw [List.foldlM_cons]
    simp only [prefixesInRange_cons, inRange_hao, true_and, total_cons, ← add_assoc]
    rcases add_cases start a with ⟨hin, next, hnext, e⟩ | ⟨hout, hnext⟩
    · -- the partial sum is the amount that the rest is added to
      rw [hnext, ← e]
      exact ih next
    · right
      rw [hnext]
      refine ⟨fun h => hout ?_, rfl⟩
      simpa using h [] List.nil_prefix

theorem sum_cases (xs : List Amount) :
    (PrefixesInRange 0 xs ∧ ∃ s, sum xs = .ok s ∧ s.hao = total xs) ∨
      (¬PrefixesInRange 0 xs ∧ sum xs = .error .add) := by
  have h := foldlM_add_cases zero xs
  rwa [show zero.hao = 0 from rfl, zero_add] at h

theorem sum_eq_ok_iff {s : Amount} :
    sum xs = .ok s ↔ PrefixesInRange 0 xs ∧ s.hao = total xs := by
  rcases sum_cases xs with ⟨hin, t, ht, e⟩ | ⟨hout, ht⟩
  · simp only [ht, Except.ok.injEq, hin, true_and, ← e, hao_inj, eq_comm]
  · simp [ht, hout]

theorem sumArray_eq (held : Array Amount) : sumArray held = sum held.toList := by
  rw [sumArray, sum, Array.foldlM_toList]

theorem sum_append {s : Amount} (h : sum xs = .ok s) : sum (xs ++ ys) = ys.foldlM add s := by
  unfold sum at *
  rw [List.foldlM_append, h]
  rfl

/-! ## Arrangements -/

/-- No two of the amounts lie on different sides of zero. -/
def OneSided (xs : List Amount) : Prop := (∀ a ∈ xs, 0 ≤ a.hao) ∨ ∀ a ∈ xs, a.hao ≤ 0

instance (xs : List Amount) : Decidable (OneSided xs) := inferInstanceAs (Decidable (_ ∨ _))

theorem OneSided.perm (h : OneSided xs) (hp : xs.Perm ys) : OneSided ys := by
  simpa [OneSided, hp.mem_iff] using h

/-- On one side of zero no partial sum is further away than the total. -/
theorem prefixesInRange_iff_of_oneSided (h : OneSided xs) :
    PrefixesInRange 0 xs ↔ InRange (total xs) := by
  constructor
  · intro hin
    simpa using hin xs List.prefix_rfl
  · rintro hin taken ⟨rest, rfl⟩
    simp only [OneSided, List.forall_mem_append] at h
    rw [total_append] at hin
    rw [zero_add]
    unfold InRange at *
    rcases h with ⟨ht, hr⟩ | ⟨ht, hr⟩
    · have := total_nonneg ht
      have := total_nonneg hr
      omega
    · have := total_nonpos ht
      have := total_nonpos hr
      omega

theorem exists_sum_iff_of_oneSided (h : OneSided xs) :
    (∃ s, sum xs = .ok s) ↔ InRange (total xs) := by
  rw [← prefixesInRange_iff_of_oneSided h]
  constructor
  · rintro ⟨s, hs⟩
    exact (sum_eq_ok_iff.mp hs).1
  · intro hin
    obtain ⟨-, s, hs, -⟩ := (sum_cases xs).resolve_right fun h => h.1 hin
    exact ⟨s, hs⟩

/-- A sum is the same over a list and over an array. It is the exact total if no partial sum leaves
the range, and overflows in an addition otherwise. So the total does not depend on the arrangement,
and on one side of zero neither does the overflow. What is summed up already can be added to. -/
theorem sum_exact_while_in_range :
    (∀ xs : List Amount, sumArray xs.toArray = sum xs) ∧
    (∀ xs : List Amount, ((∃ s, sum xs = .ok s ∧ s.hao = total xs) ↔ PrefixesInRange 0 xs) ∧
      (¬PrefixesInRange 0 xs → sum xs = .error .add)) ∧
    (∀ (xs ys : List Amount) (s t : Amount), xs.Perm ys → sum xs = .ok s → sum ys = .ok t →
      s = t) ∧
    (∀ xs ys : List Amount, xs.Perm ys → OneSided xs →
      ((∃ s, sum xs = .ok s) ↔ ∃ t, sum ys = .ok t)) ∧
    ∀ (xs ys : List Amount) (s : Amount), sum xs = .ok s → sum (xs ++ ys) = ys.foldlM add s := by
  refine ⟨fun xs => sumArray_eq _, ?_, ?_, ?_, fun _ _ _ => sum_append⟩
  · intro xs
    rcases sum_cases xs with ⟨hin, s, hs, e⟩ | ⟨hout, hs⟩
    · exact ⟨iff_of_true ⟨s, hs, e⟩ hin, fun hout => absurd hin hout⟩
    · exact ⟨by simp [hs, hout], fun _ => hs⟩
  · intro xs ys s t hp hs ht
    rw [sum_eq_ok_iff] at hs ht
    rw [← hao_inj, hs.2, ht.2, total_perm hp]
  · intro xs ys hp h
    rw [exists_sum_iff_of_oneSided h, exists_sum_iff_of_oneSided (h.perm hp), total_perm hp]

/-- The greatest and the least amount leave room for a coin together, but the greatest one alone
does not, in whichever order the two are added. -/
theorem sum_exact_while_in_range_ends :
    (∃ s, sum [greatest, least, oneCoin] = .ok s ∧ s.hao = 99999999) ∧
    (¬PrefixesInRange 0 [greatest, oneCoin, least] ∧
      sum [greatest, oneCoin, least] = .error .add) ∧
    ([greatest, least, oneCoin].Perm [least, oneCoin, greatest] ∧
      sum [greatest, least, oneCoin] = .ok ⟨99999999, by decide, by decide⟩ ∧
      sum [least, oneCoin, greatest] = .ok ⟨10 ^ 8 - 1, by decide, by decide⟩ ∧
      (⟨99999999, by decide, by decide⟩ : Amount) = ⟨10 ^ 8 - 1, by decide, by decide⟩) ∧
    ([greatest, oneCoin].Perm [oneCoin, greatest] ∧ OneSided [greatest, oneCoin] ∧
      ((∃ s, sum [greatest, oneCoin] = .ok s) ↔ ∃ t, sum [oneCoin, greatest] = .ok t)) ∧
    (sum [greatest, least] = .ok ⟨-1, by decide, by decide⟩ ∧
      sum ([greatest, least] ++ [oneCoin]) = [oneCoin].foldlM add ⟨-1, by decide, by decide⟩) := by
  obtain ⟨-, prefixes, arranged, oneSided, appended⟩ := sum_exact_while_in_range
  have overflows : ¬PrefixesInRange 0 [greatest, oneCoin, least] := by decide
  have reordered : [greatest, least, oneCoin].Perm [least, oneCoin, greatest] := by decide
  have swapped : [greatest, oneCoin].Perm [oneCoin, greatest] := by decide
  have positive : OneSided [greatest, oneCoin] := by decide
  have nearly : sum [greatest, least] = .ok ⟨-1, by decide, by decide⟩ := by decide
  refine ⟨(prefixes _).1.mpr (by decide), ⟨overflows, (prefixes _).2 overflows⟩, ⟨reordered, ?_⟩,
    ⟨swapped, positive, oneSided _ _ swapped positive⟩, nearly, appended _ _ _ nearly⟩
  have first : sum [greatest, least, oneCoin] = .ok ⟨99999999, by decide, by decide⟩ := by decide
  have second : sum [least, oneCoin, greatest] = .ok ⟨10 ^ 8 - 1, by decide, by decide⟩ := by
    decide
  exact ⟨first, second, arranged _ _ _ _ reordered first second⟩

end Coinage.Amount
