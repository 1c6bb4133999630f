import Coinage.Proofs.Sums
import Mathlib.Data.Finset.Card

/-!
# Rankings follow the numbers

Amounts are ordered by their Hao and denominations by their exponents, and neither has anything
besides that number. So a ranking is one of whole numbers: there is only one ascending arrangement,
its ends are the least and the greatest element, and elements are different where their numbers are.
None of the answers depends on how the list was arranged, and neither does a sum, as long as no
partial sum overflows.

Results.

* `OrderedBy.ranks_ofList`: the answers in terms of the numbers.
* `OrderedBy.ofList_perm`: they are those of every other arrangement.
* `Session.step_sum_cases`, `Session.step_sort`: a stack that is summed up or sorted in a session.
* `rankings_by_number`: amounts, denominations, and the stack of a session.
-/
namespace Coinage

variable {α : Type} {key : α → ℤ} {xs ys : List α}

/-- The order of `α` is that of the numbers `key`, which tell all elements apart. -/
structure OrderedBy [LE α] [Min α] [Max α] (key : α → ℤ) : Prop where
  injective : Function.Injective key
  le_iff : ∀ x y, x ≤ y ↔ key x ≤ key y
  key_min : ∀ x y, key (min x y) = min (key x) (key y)
  key_max : ∀ x y, key (max x y) = max (key x) (key y)

/-- The answers of a ranking, in terms of the numbers of the elements. -/
structure Ranks (key : α → ℤ) (xs : List α) (r : Ranking α) : Prop where
  perm : r.ascending.Perm xs
  ascending : r.ascending.Pairwise (key · ≤ key ·)
  least : r.least = r.ascending.head?
  greatest : r.greatest = r.ascending.getLast?
  least_eq_none : r.least = none ↔ xs = []
  greatest_eq_none : r.greatest = none ↔ xs = []
  distinct : r.distinct = (xs.map key).toFinset.card

/-! ## Arrangements -/

/-- Elements with one number are equal, so there is only one way to have them ascend. -/
theorem ascending_unique (hk : Function.Injective key) (hp : xs.Perm ys)
    (hx : xs.Pairwise (key · ≤ key ·)) (hy : ys.Pairwise (key · ≤ key ·)) : xs = ys :=
  hp.eq_of_pairwise (fun _ _ _ _ hle hge => hk (le_antisymm hle hge)) hx hy

/-- Another arrangement of the list has the same ranking. -/
theorem Ranks.unique {r r' : Ranking α} (hk : Function.Injective key) (h : Ranks key xs r)
    (h' : Ranks key ys r') (hp : xs.Perm ys) : r = r' := by
  have ascending : r.ascending = r'.ascending :=
    ascending_unique hk ((h.perm.trans hp).trans h'.perm.symm) h.ascending h'.ascending
  have least : r.least = r'.least := by rw [h.least, h'.least, ascending]
  have greatest : r.greatest = r'.greatest := by rw [h.greatest, h'.greatest, ascending]
  have distinct : r.distinct = r'.distinct := by
    rw [h.distinct, h'.distinct, List.toFinset_eq_of_perm _ _ (hp.map key)]
  cases r
  cases r'
  simp_all only

/-! ## Different elements -/

theorem nodup_eraseDups [DecidableEq α] (xs : List α) : xs.eraseDups.Nodup := by
  -- what is left after the first element is shorter, but it is not the tail
  induction h : xs.length using Nat.strongRecOn generalizing xs with
  | _ n ih =>
    cases xs with
    | nil => simp
    | cons x rest =>
      rw [List.eraseDups_cons, List.nodup_cons]
      refine ⟨?_, ih _ ?_ _ rfl⟩
      · simp [List.mem_eraseDups]
      · have := List.length_filter_le (fun y => !y == x) rest
        simp only [List.length_cons] at h
        omega

/-- As many elements are different as numbers are. -/
theorem length_eraseDups [DecidableEq α] (hk : Function.Injective key) (xs : List α) :
    xs.eraseDups.length = (xs.map key).toFinset.card := by
  have same : (xs.eraseDups.map key).toFinset = (xs.map key).toFinset := by
    ext n
    simp [List.mem_eraseDups]
  rw [← same, List.toFinset_card_of_nodup ((nodup_eraseDups xs).map hk), List.length_map]

/-! ## Orders by number -/

namespace OrderedBy

/-- Where the lesser and the greater of two are picked by the order, they have the lesser and the
greater number. -/
theorem of_le_iff [LE α] [DecidableLE α] [Min α] [Max α] (hk : Function.Injective key)
    (hle : ∀ x y : α, x ≤ y ↔ key x ≤ key y) (hmin : ∀ x y : α, min x y = if x ≤ y then x else y)
    (hmax : ∀ x y : α, max x y = if x ≤ y then y else x) : OrderedBy key where
  injective := hk
  le_iff := hle
  key_min x y := by rw [hmin, min_def, apply_ite key, if_congr (hle x y) rfl rfl]
  key_max x y := by rw [hmax, max_def, apply_ite key, if_congr (hle x y) rfl rfl]

section ends

variable [LE α] [Min α] [Max α] (h : OrderedBy key)

include h

theorem isLinearOrder : Std.IsLinearOrder α where
  le_refl x := by rw [h.le_iff]
  le_trans x y z := by
    simp only [h.le_iff]
    exact le_trans
  le_antisymm x y := by
    simp only [h.le_iff]
    exact fun hxy hyx => h.injective (le_antisymm hxy hyx)
  le_total x y := by
    simp only [h.le_iff]
    exact le_total _ _

theorem lawfulOrderMin : Std.LawfulOrderMin α where
  min_eq_or x y := by
    simp only [← h.injective.eq_iff, h.key_min]
    exact min_choice _ _
  le_min_iff x y z := by
    simp only [h.le_iff, h.key_min]
    exact le_min_iff

theorem lawfulOrderMax : Std.LawfulOrderMax α where
  max_eq_or x y := by
    simp only [← h.injective.eq_iff, h.key_max]
    exact max_choice _ _
  max_le_iff x y z := by
    simp only [h.le_iff, h.key_max]
    exact max_le_iff

/-- An ascending arrangement starts with the least element. -/
theorem head?_eq_min? (hp : xs.Perm ys) (ha : xs.Pairwise (key · ≤ key ·)) :
    xs.head? = ys.min? := by
  have := h.isLinearOrder
  have := h.lawfulOrderMin
  cases xs with
  | nil => simp [hp.symm.eq_nil]
  | cons x rest =>
    symm
    rw [List.head?_cons, List.min?_eq_some_iff, ← hp.mem_iff]
    refine ⟨List.mem_cons_self, fun y hy => ?_⟩
    rw [← hp.mem_iff, List.mem_cons] at hy
    rw [h.le_iff]
    rcases hy with rfl | hy
    · exact le_refl _
    · exact List.rel_of_pairwise_cons ha hy

/-- An ascending arrangement ends with the greatest element. -/
theorem getLast?_eq_max? (hp : xs.Perm ys) (ha : xs.Pairwise (key · ≤ key ·)) :
    xs.getLast? = ys.max? := by
  have := h.isLinearOrder
  have := h.lawfulOrderMax
  rcases List.eq_nil_or_concat' xs with rfl | ⟨before, x, rfl⟩
  · simp [hp.symm.eq_nil]
  · symm
    rw [List.getLast?_concat, List.max?_eq_some_iff, ← hp.mem_iff]
    refine ⟨by simp, fun y hy => ?_⟩
    rw [← hp.mem_iff, List.mem_append, List.mem_singleton] at hy
    rw [h.le_iff]
    rcases hy with hy | rfl
    · exact (List.pairwise_append.mp ha).2.2 y hy x (List.mem_singleton_self x)
    · exact le_refl _

end ends

section rankings

variable [LE α] [DecidableLE α] [Min α] [Max α] (h : OrderedBy key)

include h

theorem pairwise_sorted (xs : List α) : (sorted xs).Pairwise (key · ≤ key ·) := by
  have trans : ∀ x y z : α, decide (x ≤ y) = true → decide (y ≤ z) = true →
      decide (x ≤ z) = true := by
    simpa [h.le_iff] using fun _ _ _ => le_trans
  have total : ∀ x y : α, (decide (x ≤ y) || decide (y ≤ x)) = true := by
    simpa [h.le_iff] using fun _ _ => le_total _ _
  have ascending := List.pairwise_mergeSort trans total xs
  simpa [h.le_iff, sorted] using ascending

/-- The answers of a ranking are what the numbers say. -/
theorem ranks_ofList [DecidableEq α] (xs : List α) : Ranks key xs (.ofList xs) where
  perm := List.mergeSort_perm xs _
  ascending := h.pairwise_sorted xs
  least := (h.head?_eq_min? (List.mergeSort_perm xs _) (h.pairwise_sorted xs)).symm
  greatest := (h.getLast?_eq_max? (List.mergeSort_perm xs _) (h.pairwise_sorted xs)).symm
  least_eq_none := List.min?_eq_none_iff
  greatest_eq_none := List.max?_eq_none_iff
  distinct := length_eraseDups h.injective xs

theorem ofList_perm [DecidableEq α] (hp : xs.Perm ys) : Ranking.ofList xs = .ofList ys :=
  (h.ranks_ofList xs).unique h.injective (h.ranks_ofList ys) hp

end rankings

end OrderedBy

theorem Amount.orderedBy_hao : OrderedBy hao :=
  .of_le_iff (fun _ _ => hao_inj.mp) (fun _ _ => Iff.rfl) (fun _ _ => rfl) fun _ _ => rfl

theorem Denomination.orderedBy_exponent :
    OrderedBy fun u : Denomination => u.exponent.value :=
  .of_le_iff (fun _ _ => exponent_value_inj.mp) (fun _ _ => Iff.rfl) (fun _ _ => rfl)
    fun _ _ => rfl

/-! ## Stacks -/

open Amount (total PrefixesInRange)

namespace Session

/-- The sum of a stack becomes the current amount, unless a partial sum leaves the range. -/
theorem step_sum_cases (s : Session) :
    (PrefixesInRange 0 s.stack.toList ∧ ∃ a : Amount, a.hao = total s.stack.toList ∧
        s.step .sum = ({ s with current := a }, .done)) ∨
      (¬PrefixesInRange 0 s.stack.toList ∧ s.step .sum = (s, .failed (.overflow .add))) := by
  have h : s.step .sum =
      (take ((Amount.sum s.stack.toList).mapError .overflow)).apply s := by
    rw [← Amount.sumArray_eq]
    exact Action.apply_get_bind _ s
  rw [h, apply_take]
  rcases Amount.sum_cases s.stack.toList with ⟨hin, a, hsum, e⟩ | ⟨hout, hsum⟩
  · left
    exact ⟨hin, a, e, by rw [hsum]; rfl⟩
  · right
    exact ⟨hout, by rw [hsum]; rfl⟩

/-- A sum that goes through has the total of the stack. -/
theorem hao_of_step_sum {s : Session} (h : (s.step .sum).2 = .done) :
    (s.step .sum).1.current.hao = total s.stack.toList := by
  rcases s.step_sum_cases with ⟨-, a, e, hs⟩ | ⟨-, hs⟩
  · rw [hs]
    exact e
  · rw [hs] at h
    cases h

theorem step_sort (s : Session) :
    s.step .sort = ({ s with stack := (sorted s.stack.toList).toArray },
      .amounts (sorted s.stack.toList)) :=
  rfl

end Session

/-- Amounts are ranked by their Hao and denominations by their exponents: the ascending list has the
same elements, its ends are the least and the greatest, and different elements are counted by their
numbers. Another arrangement of a list has the same ranking. In a session the sum of the stack
becomes the current amount, exactly if no partial sum leaves the range, and a sort leaves the stack
in ascending order. If the sum goes through before and after a sort, it is the same sum. -/
theorem rankings_by_number :
    (∀ xs : List Amount, Ranks Amount.hao xs (.ofList xs)) ∧
    (∀ us : List Denomination, Ranks (·.exponent.value) us (.ofList us)) ∧
    (∀ xs ys : List Amount, xs.Perm ys → Ranking.ofList xs = .ofList ys) ∧
    (∀ us vs : List Denomination, us.Perm vs → Ranking.ofList us = .ofList vs) ∧
    (∀ s : Session,
      (PrefixesInRange 0 s.stack.toList →
        ∃ a : Amount, a.hao = total s.stack.toList ∧
          s.step .sum = ({ s with current := a }, .done)) ∧
      (¬PrefixesInRange 0 s.stack.toList → s.step .sum = (s, .failed (.overflow .add)))) ∧
    (∀ s : Session, ∃ ascending : List Amount,
      s.step .sort = ({ s with stack := ascending.toArray }, .amounts ascending) ∧
      ascending.Perm s.stack.toList ∧ ascending.Pairwise (·.hao ≤ ·.hao)) ∧
    ∀ s : Session, (s.step .sum).2 = .done → ((s.step .sort).1.step .sum).2 = .done →
      ((s.step .sort).1.step .sum).1.current = (s.step .sum).1.current := by
  refine ⟨Amount.orderedBy_hao.ranks_ofList, Denomination.orderedBy_exponent.ranks_ofList,
    fun _ _ => Amount.orderedBy_hao.ofList_perm,
    fun _ _ => Denomination.orderedBy_exponent.ofList_perm, ?_, ?_, ?_⟩
  · intro s
    rcases s.step_sum_cases with ⟨hin, summed⟩ | ⟨hout, failed⟩
    · exact ⟨fun _ => summed, fun hout => absurd hin hout⟩
    · exact ⟨fun hin => absurd hin hout, fun _ => failed⟩
  · intro s
    exact ⟨_, s.step_sort, List.mergeSort_perm _ _, Amount.orderedBy_hao.pairwise_sorted _⟩
  · intro s before after
    rw [← Amount.hao_inj, Session.hao_of_step_sum before, Session.hao_of_step_sum after,
      Session.step_sort]
    exact Amount.total_perm (List.mergeSort_perm _ _)

/-- The greatest amount, the least and a coin can be summed up as they stand and in ascending order,
and the sum is the same. The greatest amount and a coin cannot. Two equal denominations and a third
are ranked alike wherever that one stands. -/
theorem rankings_by_number_ends :
    ([Amount.greatest, .least, .oneCoin].Perm [.least, .oneCoin, .greatest] ∧
      Ranking.ofList [Amount.greatest, .least, .oneCoin] = .ofList [.least, .oneCoin, .greatest]) ∧
    ([Denomination.kilo, .hao, .kilo].Perm [.kilo, .kilo, .hao] ∧
      Ranking.ofList [Denomination.kilo, .hao, .kilo] = .ofList [.kilo, .kilo, .hao]) ∧
    (PrefixesInRange 0 [.greatest, .least, .oneCoin] ∧
      ∃ a : Amount, a.hao = total [.greatest, .least, .oneCoin] ∧
        Session.step ⟨.zero, .coin, #[.greatest, .least, .oneCoin]⟩ .sum =
          (⟨a, .coin, #[.greatest, .least, .oneCoin]⟩, .done)) ∧
    (¬PrefixesInRange 0 [.greatest, .oneCoin] ∧
      Session.step ⟨.zero, .coin, #[.greatest, .oneCoin]⟩ .sum =
        (⟨.zero, .coin, #[.greatest, .oneCoin]⟩, .failed (.overflow .add))) ∧
    (Session.step ⟨.zero, .coin, #[.greatest, .least, .oneCoin]⟩ .sum).2 = .done ∧
    ((Session.step ⟨.zero, .coin, #[.greatest, .least, .oneCoin]⟩ .sort).1.step .sum).2 = .done ∧
    ((Session.step ⟨.zero, .coin, #[.greatest, .least, .oneCoin]⟩ .sort).1.step .sum).1.current =
      (Session.step ⟨.zero, .coin, #[.greatest, .least, .oneCoin]⟩ .sum).1.current := by
  obtain ⟨-, -, arranged, rearranged, sums, sorts, summed⟩ := rankings_by_number
  have amounts : [Amount.greatest, .least, .oneCoin].Perm [.least, .oneCoin, .greatest] := by decide
  have denominations : [Denomination.kilo, .hao, .kilo].Perm [.kilo, .kilo, .hao] := by decide
  have inside : PrefixesInRange 0 [.greatest, .least, .oneCoin] := by decide
  have outside : ¬PrefixesInRange 0 [.greatest, .oneCoin] := by decide
  have before : (Session.step ⟨.zero, .coin, #[.greatest, .least, .oneCoin]⟩ .sum).2 = .done := by
    decide
  have after :
      ((Session.step ⟨.zero, .coin, #[.greatest, .least, .oneCoin]⟩ .sort).1.step .sum).2 =
        .done := by
    -- the sort leaves an ascending stack, and there is only this one
    obtain ⟨stack, hsort, hperm, ascending⟩ := sorts ⟨.zero, .coin, #[.greatest, .least, .oneCoin]⟩
    have known : stack = [.least, .oneCoin, .greatest] :=
      ascending_unique Amount.orderedBy_hao.injective (hperm.trans amounts) ascending (by decide)
    rw [hsort, known]
    decide
  exact ⟨⟨amounts, arranged _ _ amounts⟩, ⟨denominations, rearranged _ _ denominations⟩,
    ⟨inside, (sums ⟨.zero, .coin, #[.greatest, .least, .oneCoin]⟩).1 inside⟩,
    ⟨outside, (sums ⟨.zero, .coin, #[.greatest, .oneCoin]⟩).2 outside⟩, before, after,
    summed _ before after⟩

end Coinage
