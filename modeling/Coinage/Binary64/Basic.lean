import Coinage.Binary64.Magnitude

/-!
# Binary64 numbers

A binary64 number is a sign with a magnitude, an infinity, or the one value that is no number;
the payloads that an encoding can give the last one are not told apart. The sign of zero is kept.

`value` is the exact rational number a finite one stands for, and `ofRat` is the way back: one
rounding to nearest, ties to even, to an infinity beyond the greatest magnitude. Order is that of
the places in ascending order (`ordinal?`), where both zeros share one place and `nan` has none.
-/
namespace Coinage

attribute [local instance (high)] instPowNat

/-- A binary64 number. -/
inductive Binary64 where
  | nan
  | infinite (negative : Bool)
  | finite (negative : Bool) (magnitude : Magnitude)
deriving DecidableEq

namespace Binary64

/-! ## Encodings -/

/-- The number that 64 bits encode: the sign in the top bit, the rank in the others. -/
def ofBits (bits : UInt64) : Binary64 :=
  let negative := bits.toNat ≥ 2 ^ (63 : Nat)
  let rank := bits.toNat % 2 ^ (63 : Nat)
  if h : rank < 2047 * 2 ^ (52 : Nat) then finite negative ⟨rank, h⟩
  else if rank = 2047 * 2 ^ (52 : Nat) then infinite negative
  else nan

/-- The encoding of a number; `nan` has a positive sign and the leading payload bit. -/
def toBits (x : Binary64) : UInt64 :=
  let signed (negative : Bool) (rank : Nat) : UInt64 :=
    .ofNat (if negative then 2 ^ (63 : Nat) + rank else rank)
  match x with
  | nan => signed false (2047 * 2 ^ (52 : Nat) + 2 ^ (51 : Nat))
  | infinite negative => signed negative (2047 * 2 ^ (52 : Nat))
  | finite negative m => signed negative m.rank

/-- An encoding is read back. -/
theorem ofBits_toBits (x : Binary64) : ofBits x.toBits = x := by
  cases x with
  | nan => decide
  | infinite negative => cases negative <;> decide
  | finite negative m =>
    have hr : m.rank < 2047 * 2 ^ (52 : Nat) := m.rank_lt
    have hm : m.rank % 2 ^ (63 : Nat) = m.rank := Nat.mod_eq_of_lt (by omega)
    unfold toBits ofBits
    cases negative
    · have h : (UInt64.ofNat m.rank).toNat = m.rank :=
        UInt64.toNat_ofNat_of_lt (show _ < 2 ^ (64 : Nat) by omega)
      simp only [Bool.false_eq_true, if_false, h, hm]
      rw [dif_pos hr, decide_eq_false (by omega)]
    · have h : (UInt64.ofNat (2 ^ (63 : Nat) + m.rank)).toNat = 2 ^ (63 : Nat) + m.rank :=
        UInt64.toNat_ofNat_of_lt (show _ < 2 ^ (64 : Nat) by omega)
      simp only [if_true, h, Nat.add_mod_left, hm]
      rw [dif_pos hr, decide_eq_true (by omega)]

/-! ## Values -/

/-- The exact value of a finite number; zero for the others. -/
def value : Binary64 → Rat
  | finite true m => -m.value
  | finite false m => m.value
  | _ => 0

/-- Neither infinite nor `nan`. -/
def isFinite : Binary64 → Bool
  | finite .. => true
  | _ => false

/-- The number with a magnitude and a sign; an infinity where there is no magnitude. -/
def orInfinite (negative : Bool) : Option Magnitude → Binary64
  | some m => finite negative m
  | none => infinite negative

/-- The number nearest to `q`, ties to even. The sign is that of `q`, also where the result is
zero; `zeroSign` is the sign of the result when `q` itself is zero. -/
def ofRat (zeroSign : Bool) (q : Rat) : Binary64 :=
  orInfinite (if q = 0 then zeroSign else q < 0)
    (Magnitude.nearest? (q.num.natAbs * Magnitude.unitsInOne) q.den)

/-- The number nearest to the integer `n`, ties to even. -/
def ofInt (n : Int) : Binary64 := ofRat false n

/-- Zero without a sign. -/
def zero : Binary64 := ofInt 0

/-- One half. -/
def half : Binary64 := ofRat false (mkRat 1 2)

/-! ## Order -/

/-- The place among all numbers in ascending order, counted from zero. -/
def ordinal? : Binary64 → Option Int
  | nan => none
  | infinite negative => some (if negative then -(2047 * 2 ^ (52 : Nat)) else 2047 * 2 ^ (52 : Nat))
  | finite negative m => some (if negative then -m.rank else m.rank)

/-- Both numbers have a place, and `r` holds of the two places. -/
def ordered (r : Int → Int → Bool) (x y : Binary64) : Bool :=
  match x.ordinal?, y.ordinal? with
  | some i, some j => r i j
  | _, _ => false

instance : LE Binary64 := ⟨fun x y => ordered (· ≤ ·) x y⟩
instance : LT Binary64 := ⟨fun x y => ordered (· < ·) x y⟩
instance : DecidableLE Binary64 := fun x y => inferInstanceAs (Decidable (ordered _ x y = true))
instance : DecidableLT Binary64 := fun x y => inferInstanceAs (Decidable (ordered _ x y = true))

theorem le_iff {x y : Binary64} :
    x ≤ y ↔ ∃ i j, x.ordinal? = some i ∧ y.ordinal? = some j ∧ i ≤ j := by
  show ordered _ x y = true ↔ _
  unfold ordered
  split <;> simp_all

theorem lt_iff {x y : Binary64} :
    x < y ↔ ∃ i j, x.ordinal? = some i ∧ y.ordinal? = some j ∧ i < j := by
  show ordered _ x y = true ↔ _
  unfold ordered
  split <;> simp_all

end Binary64

end Coinage
