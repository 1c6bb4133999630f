import Coinage.Proofs.FixedPlaces

/-!
# Places are never capped

The exponent of a denomination is used twice when an amount is formatted, with different bounds. The
Hao in the unit are a power of ten whose exponent is kept within 32 bits, once where the Hao in a
coin are counted in and once more where a negative exponent is turned round; `clamp` cuts it off.
The places are counted from the same exponent without any bound, and only then capped.

The two never disagree. What `clamp` cuts off are exponents of powers that are infinite anyway, and
so are all powers beyond `10^308`. So with more than 308 places no amount is a finite number, the
amount of nothing included, and what is not finite is not written with fixed places.

`layout` is the decision that `numeral` takes, apart from the writing.

Results.

* `powerOfTen_clamp`, `toUnit_eq_clamped`: the bounds on the exponent do not show.
* `numeral_eq_write`: what is written is what the layout says.
* `layout_toUnit_eq_fixed_iff`: fixed places are rounded to, all of them, and none is made up.
* `exists_layout_eq_fixed_iff`: the counts of places that occur are those up to 308.
* `precision_never_capped`: the exponent within its bounds, the places without a cap.
-/
namespace Coinage

/-! ## Exponents within 32 bits -/

namespace Integer32

/-- The integer of 32 bits nearest to `n`: out of range, the end of the range on that side. -/
def clamp (n : ℤ) : Integer32 :=
  ⟨max (-2 ^ 31) (min n (2 ^ 31 - 1)), by omega, by omega⟩

theorem value_clamp (n : ℤ) : (clamp n).value = max (-2 ^ 31) (min n (2 ^ 31 - 1)) := rfl

end Integer32

namespace Binary64

open Integer32 (clamp value_clamp)

theorem powerOfTen_of_nonneg {e : ℤ} (h : 0 ≤ e) : powerOfTen e = pow (ofInt 10) e.toNat := by
  obtain ⟨n, rfl⟩ := Int.eq_ofNat_of_zero_le h
  rfl

/-- What is cut off are exponents of infinities and zeros. -/
theorem powerOfTen_clamp (e : ℤ) : powerOfTen (clamp e).value = powerOfTen e := by
  have ends : (clamp e).value = e ∨ 309 ≤ (clamp e).value ∧ 309 ≤ e ∨
      (clamp e).value ≤ -309 ∧ e ≤ -309 := by
    rw [value_clamp]
    omega
  rcases ends with h | ⟨h, h'⟩ | ⟨h, h'⟩
  · rw [h]
  · rw [powerOfTen_eq_infinite h, powerOfTen_eq_infinite h']
  · rw [powerOfTen_eq_zero h, powerOfTen_eq_zero h']

/-- A power of ten with an exponent of 32 bits. The opposite of a negative one is clamped, since the
least integer of 32 bits has none. -/
def powerOfTen32 (n : Integer32) : Binary64 :=
  if 0 ≤ n.value then pow (ofInt 10) n.value.toNat
  else ofInt 1 / pow (ofInt 10) (clamp (-n.value)).value.toNat

theorem powerOfTen32_eq (n : Integer32) : powerOfTen32 n = powerOfTen n.value := by
  unfold powerOfTen32
  split
  case isTrue h => exact (powerOfTen_of_nonneg h).symm
  case isFalse h =>
    obtain ⟨k, hk⟩ := Int.eq_ofNat_of_zero_le (show 0 ≤ -n.value by omega)
    have opposite : 0 ≤ (clamp k).value := by
      rw [value_clamp]
      omega
    rw [hk, ← powerOfTen_of_nonneg opposite, powerOfTen_clamp, show n.value = -k by omega,
      powerOfTen_neg]
    rfl

end Binary64

namespace Amount

open Binary64

variable {a : Amount} {u : Denomination} {x : Binary64}

/-- The Hao in a unit, with the exponent cut off at the ends of its range. -/
theorem haoPer_eq_clamped (u : Denomination) :
    haoPer u = powerOfTen32 (.clamp (u.exponent.value + baseExponent)) := by
  rw [powerOfTen32_eq, powerOfTen_clamp, haoPer]

theorem toUnit_eq_clamped (a : Amount) (u : Denomination) :
    a.toUnit u = ofInt a.hao / powerOfTen32 (.clamp (u.exponent.value + baseExponent)) := by
  rw [toUnit, haoPer_eq_clamped]

/-! ## Layouts -/

/-- How a number is written: as short as possible, or with some places that are rounded to and some
zeros made up behind them. -/
inductive Layout where
  | shortest
  | fixed (rounded madeUp : ℕ)
deriving DecidableEq

/-- The number in a layout. -/
def Layout.write (x : Binary64) : Layout → String
  | shortest => x.text
  | fixed rounded madeUp => x.fixed rounded ++ String.ofList (List.replicate madeUp '0')

/-- The layout of a number in a denomination. -/
def layout (x : Binary64) (u : Denomination) : Layout :=
  match places? u with
  | some places =>
    if x.isFinite then .fixed (min places maxPlaces) (places - min places maxPlaces) else .shortest
  | none => .shortest

theorem numeral_eq_write (x : Binary64) (u : Denomination) :
    numeral x u = (layout x u).write x := by
  unfold numeral layout
  cases places? u with
  | none => rfl
  | some places => cases x.isFinite <;> rfl

/-- Only finite numbers are written with fixed places, and only from the Hao down. -/
theorem layout_eq_fixed_iff {rounded madeUp : ℕ} : layout x u = .fixed rounded madeUp ↔
    x.isFinite = true ∧ ∃ places : ℕ, u.exponent.value + 8 = -(places : ℤ) ∧
      rounded = min places maxPlaces ∧ madeUp = places - min places maxPlaces := by
  unfold layout
  rcases lt_or_ge (-8) u.exponent.value with hu | hu
  · rw [places?_of_lt hu]
    simp only [reduceCtorEq, false_iff]
    rintro ⟨-, places, hp, -⟩
    omega
  · rw [places?_of_le hu]
    obtain ⟨places, hp⟩ := Int.eq_ofNat_of_zero_le (show 0 ≤ -(u.exponent.value + 8) by omega)
    have unique (k : ℕ) : u.exponent.value + 8 = -(k : ℤ) ↔ k = places := by omega
    simp only [hp, Int.toNat_natCast, unique, exists_eq_left]
    cases x.isFinite <;> simp [eq_comm]

theorem places_le_maxPlaces {places : ℕ} (h : (a.toUnit u).isFinite = true)
    (hp : u.exponent.value + 8 = -(places : ℤ)) : places ≤ maxPlaces :=
  (places_le_of_isFinite h hp).trans (by decide)

/-- An amount that is written with fixed places is rounded to all of them, and no zero is made up
behind. -/
theorem layout_toUnit_eq_fixed_iff {rounded madeUp : ℕ} :
    layout (a.toUnit u) u = .fixed rounded madeUp ↔
      (a.toUnit u).isFinite = true ∧ u.exponent.value + 8 = -(rounded : ℤ) ∧ madeUp = 0 := by
  rw [layout_eq_fixed_iff]
  refine and_congr_right fun h => ?_
  constructor
  · rintro ⟨places, hp, rfl, rfl⟩
    rw [Nat.min_eq_left (places_le_maxPlaces h hp), Nat.sub_self]
    exact ⟨hp, rfl⟩
  · rintro ⟨hp, rfl⟩
    have few := places_le_maxPlaces h hp
    exact ⟨rounded, hp, (Nat.min_eq_left few).symm, by omega⟩

/-- Each count of places up to 308 occurs, and no other. -/
theorem exists_layout_eq_fixed_iff {rounded madeUp : ℕ} :
    (∃ a u, layout (toUnit a u) u = .fixed rounded madeUp) ↔ rounded ≤ 308 ∧ madeUp = 0 := by
  simp only [layout_toUnit_eq_fixed_iff]
  constructor
  · rintro ⟨a, u, h, hp, rfl⟩
    exact ⟨places_le_of_isFinite h hp, rfl⟩
  · rintro ⟨hk, rfl⟩
    -- nothing at all is a finite number in each of these units
    have hu : -316 ≤ -(rounded : ℤ) - 8 := by omega
    exact ⟨zero, ⟨⟨-(rounded : ℤ) - 8, by omega, by omega⟩⟩,
      (denotes_toUnit_of_hao_eq_zero rfl hu).1, Int.sub_add_cancel _ _, rfl⟩

/-- The Hao in a unit are computed with its exponent kept within 32 bits, while its places are
counted without a bound. Yet wherever an amount is written with fixed places there are at most 308
of them, so they are rounded to without the cap, and no zeros are made up. -/
theorem precision_never_capped (a : Amount) (u : Denomination) :
    a.toUnit u = ofInt a.hao / powerOfTen32 (.clamp (u.exponent.value + baseExponent)) ∧
    (0 ≤ -(u.exponent.value + baseExponent) → (a.toUnit u).isFinite = true →
      ∃ places : ℕ, (places : ℤ) = -(u.exponent.value + baseExponent) ∧ places ≤ 308 ∧
        places ≤ maxPlaces ∧ layout (a.toUnit u) u = .fixed places 0 ∧
        a.format u = (a.toUnit u).fixed places ++ " " ++ u.label) := by
  refine ⟨toUnit_eq_clamped a u, fun hu h => ?_⟩
  obtain ⟨places, hp⟩ := Int.eq_ofNat_of_zero_le hu
  have hp' : u.exponent.value + 8 = -(places : ℤ) := by
    unfold baseExponent at hp
    omega
  have uncapped := layout_toUnit_eq_fixed_iff.mpr ⟨h, hp', rfl⟩
  refine ⟨places, hp.symm, places_le_of_isFinite h hp', places_le_maxPlaces h hp', uncapped, ?_⟩
  rw [format, numeral_eq_write, uncapped, Layout.write, List.replicate_zero, String.ofList_nil,
    String.append_empty]

/-- A Hao in the denomination with the most places. -/
theorem precision_never_capped_most :
    (0 ≤ -((-316 : ℤ) + baseExponent) ∧
      (toUnit ⟨1, by decide, by decide⟩ ⟨-316, by decide, by decide⟩).isFinite = true) ∧
    layout (toUnit ⟨1, by decide, by decide⟩ ⟨-316, by decide, by decide⟩)
      ⟨-316, by decide, by decide⟩ = .fixed 308 0 := by
  have places : 0 ≤ -((-316 : ℤ) + baseExponent) := by decide
  have number : (toUnit ⟨1, by decide, by decide⟩
      ⟨-316, by decide, by decide⟩).isFinite = true := by decide +kernel
  obtain ⟨k, hk, -, -, uncapped, -⟩ := (precision_never_capped ⟨1, by decide, by decide⟩
    ⟨-316, by decide, by decide⟩).2 places number
  obtain rfl : k = 308 := by
    simp only [baseExponent] at hk
    omega
  exact ⟨⟨places, number⟩, uncapped⟩

end Amount

end Coinage
