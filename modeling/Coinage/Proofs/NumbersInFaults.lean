import Coinage.Fault
import Coinage.Proofs.ScientificNumerals
import Coinage.Proofs.ShortestFormat
import Coinage.Proofs.Signs

/-!
# The number in a fault

The message of a fault writes a number that is no amount in full; the rendering with the name of the
fault writes it with a point or with a power of ten. Both are layouts of the same decimal, the
shortest that reads back. So the two texts denote one rational number, and each is read as the
number itself, with its sign where it is zero.

Results.

* `usesPower_iff`: which numbers are written with a power of ten.
* `exists_inspect`: a number written with a point or with a power of ten.
* `invalidAmount_texts`: the two texts of the fault.
-/
namespace Coinage

namespace Binary64

open Decimal Magnitude

variable {body : List Char} {s : Bool} {m : Magnitude}

theorem usesPower_iff :
    usesPower m = true ↔ 0 < m.value ∧ m.value < 1 / 10 ^ 4 ∨ 10 ^ 16 ≤ m.value := by
  have low : mkRat 1 (10 ^ 4) = (1 / 10 ^ 4 : ℚ) := by norm_num [Rat.mkRat_eq_div]
  have high : mkRat (10 ^ 16) 1 = (10 ^ 16 : ℚ) := by norm_num [Rat.mkRat_eq_div]
  have zero : m.rank = 0 → m.value = 0 := fun h => by rw [Magnitude.value_eq, h, valueAt_zero]
  have positive : m.rank ≠ 0 → 0 < m.value := value_pos
  have above : 10 ^ 16 ≤ m.value → m.rank ≠ 0 := by
    intro h h0
    rw [zero h0] at h
    norm_num at h
  unfold usesPower
  simp only [Bool.and_eq_true, Bool.or_eq_true, decide_eq_true_eq]
  rw [low, high, and_or_left]
  refine or_congr (and_congr_left' ⟨positive, ?_⟩) (and_iff_right_of_imp above)
  exact fun h h0 => h.ne' (zero h0)

theorem text_finite (s : Bool) (m : Magnitude) :
    (finite s m).text = String.ofList (sign s ++ m.shortest.plain) := render_finite _ s m

/-- A finite number with a point or a power of ten in it. -/
theorem exists_inspect (s : Bool) (m : Magnitude) :
    ∃ body, (finite s m).inspect = String.ofList (sign s ++ body) ∧
      Decimal.Denotes body m.shortest.value ∧ ('e' ∈ body ↔ usesPower m = true) := by
  refine ⟨_, render_finite _ s m, ?_⟩
  simp only
  split
  · next power => exact ⟨denotes_scientific _, iff_of_true (mem_scientific _) power⟩
  · next noPower =>
    split
    · next places => exact ⟨denotes_plain _, iff_of_false (not_mem_plain _) noPower⟩
    · next whole =>
      refine ⟨denotes_plain_zero (not_lt.mp whole), iff_of_false ?_ noPower⟩
      simp [not_mem_plain]

/-- What denotes the shortest decimal is read as the number, with the sign in front of it. -/
theorem read?_of_denotes (s : Bool) (h : Decimal.Denotes body m.shortest.value) :
    rational? (sign s ++ body) =
        some (if s then -m.shortest.value else m.shortest.value) ∧
      read? (sign s ++ body) = some (finite s m) := by
  obtain ⟨x, read, value⟩ := h
  have nearest : ofDecimal s x = finite s m :=
    ofDecimal_eq_finite_iff.mpr ⟨rfl, ofDecimal?_of_value_eq value⟩
  rw [rational?_sign s read, read?_sign s read, value, nearest]
  exact ⟨rfl, rfl⟩

end Binary64

open Binary64 Decimal

/-- The texts of a finite number that is no amount. Both denote the same rational number and are
read as the number itself. The message has no power of ten, and the other text has one exactly for
numbers nearer to zero than `10^-4`, zero apart, and from `10^16` on. -/
theorem invalidAmount_texts (x : Binary64) (hx : x.isFinite = true) :
    ∃ shown inspected : List Char,
      (Fault.invalidAmount x).message = "Invalid OMC amount: " ++ String.ofList shown ∧
      (Fault.invalidAmount x).inspect = "InvalidAmount(" ++ String.ofList inspected ++ ")" ∧
      (∃ q, rational? shown = some q ∧ rational? inspected = some q) ∧
      Binary64.read? shown = some x ∧ Binary64.read? inspected = some x ∧
      'e' ∉ shown ∧
      ('e' ∈ inspected ↔ 0 < |x.value| ∧ |x.value| < 1 / 10 ^ 4 ∨ 10 ^ 16 ≤ |x.value|) := by
  obtain ⟨s, m, rfl, -⟩ := (denotes_value hx).exists_finite
  obtain ⟨body, inspected, denotes, power⟩ := exists_inspect s m
  obtain ⟨shownRational, shownRead⟩ := read?_of_denotes s (denotes_plain m.shortest)
  obtain ⟨rational, read⟩ := read?_of_denotes s denotes
  have abs : |(finite s m).value| = m.value := by
    have := Magnitude.value_eq m ▸ Magnitude.valueAt_nonneg m.rank
    cases s <;> simp [value_finite, abs_of_nonneg this]
  have noMark : 'e' ∉ sign s := by cases s <;> decide
  refine ⟨sign s ++ m.shortest.plain, sign s ++ body, ?_, ?_, ⟨_, shownRational, rational⟩,
    shownRead, read, ?_, ?_⟩
  · exact congrArg ("Invalid OMC amount: " ++ ·) (text_finite s m)
  · exact congrArg ("InvalidAmount(" ++ · ++ ")") inspected
  · simp [noMark, not_mem_plain]
  · rw [abs, ← usesPower_iff, ← power]
    simp [noMark]

/-- A whole number at the greater threshold, below zero. -/
theorem invalidAmount_texts_threshold :
    (ofInt (-10 ^ 16)).isFinite = true ∧
      (Fault.invalidAmount (ofInt (-10 ^ 16))).message =
        "Invalid OMC amount: -10000000000000000" ∧
      (Fault.invalidAmount (ofInt (-10 ^ 16))).inspect = "InvalidAmount(-1e16)" ∧
      (∃ q, rational? "-10000000000000000".toList = some q ∧ rational? "-1e16".toList = some q) ∧
      Binary64.read? "-10000000000000000".toList = some (ofInt (-10 ^ 16)) ∧
      Binary64.read? "-1e16".toList = some (ofInt (-10 ^ 16)) := by
  have finite : (ofInt (-10 ^ 16)).isFinite = true := by decide +kernel
  have message : (Fault.invalidAmount (ofInt (-10 ^ 16))).message =
      "Invalid OMC amount: -10000000000000000" := by decide +kernel
  have inspect : (Fault.invalidAmount (ofInt (-10 ^ 16))).inspect = "InvalidAmount(-1e16)" := by
    decide +kernel
  obtain ⟨shown, inspected, hm, hi, rational, readShown, readInspected, -⟩ :=
    invalidAmount_texts (ofInt (-10 ^ 16)) finite
  have shown_eq : "-10000000000000000".toList = shown := by
    rw [message, show "Invalid OMC amount: -10000000000000000" =
      "Invalid OMC amount: " ++ "-10000000000000000" by decide, String.append_right_inj] at hm
    rw [hm, String.toList_ofList]
  have inspected_eq : "-1e16".toList = inspected := by
    rw [inspect, show "InvalidAmount(-1e16)" = "InvalidAmount(" ++ "-1e16" ++ ")" by decide,
      String.append_left_inj, String.append_right_inj] at hi
    rw [hi, String.toList_ofList]
  rw [← shown_eq] at rational readShown
  rw [← inspected_eq] at rational readInspected
  exact ⟨finite, message, inspect, rational, readShown, readInspected⟩

end Coinage
