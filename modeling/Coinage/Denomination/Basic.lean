import Coinage.Decimal.Basic
import Coinage.Integer32

/-!
# Denominations

A denomination is a power of ten of one coin. Every exponent of 32 bits is a usable one; six of
them have names, from the mega coin down to the Hao, the smallest unit, of which `10^8` make a
coin. `label` gives the name, or `1e<exponent> OMC` where there is none. Denominations are ordered
by their exponents.
-/
namespace Coinage

/-- The symbol of the coin. Mirrors `COIN_SYMBOL`. -/
def coinSymbol : String := "OMC"

/-- A Hao is ten to the minus eighth of a coin. Mirrors `BASE_EXPONENT`. -/
def baseExponent : Int := 8

/-- The denomination worth `10^exponent` coins. Mirrors `AmountUnit`. -/
structure Denomination where
  exponent : Integer32
deriving DecidableEq

namespace Denomination

/-! ## Names -/

/-- A million coins. Mirrors `MEGA_OMC`. -/
def mega : Denomination := ⟨⟨6, by decide, by decide⟩⟩
/-- A thousand coins. Mirrors `KILO_OMC`. -/
def kilo : Denomination := ⟨⟨3, by decide, by decide⟩⟩
/-- One coin. Mirrors `OMC`. -/
def coin : Denomination := ⟨.zero⟩
/-- A thousandth of a coin. Mirrors `MILLI_OMC`. -/
def milli : Denomination := ⟨⟨-3, by decide, by decide⟩⟩
/-- A millionth of a coin. Mirrors `MICRO_OMC`. -/
def micro : Denomination := ⟨⟨-6, by decide, by decide⟩⟩
/-- A hundred millionth of a coin, the smallest unit. Mirrors `HAO`. -/
def hao : Denomination := ⟨⟨-8, by decide, by decide⟩⟩

instance : Inhabited Denomination := ⟨coin⟩

/-- The denominations with a name. -/
def named : List (Denomination × String) :=
  [(mega, "M" ++ coinSymbol), (kilo, "k" ++ coinSymbol), (coin, coinSymbol),
   (milli, "m" ++ coinSymbol), (micro, "μ" ++ coinSymbol), (hao, "Hao")]

/-- The name, or the power of ten before the symbol of the coin. Mirrors `label`. -/
def label (u : Denomination) : String :=
  match named.lookup u with
  | some name => name
  | none => "1e" ++ String.ofList (Decimal.integer u.exponent.value) ++ " " ++ coinSymbol

/-- The denomination as text is its label. Mirrors `Display` of denominations. -/
def display (u : Denomination) : String := u.label

/-- The denomination shown as its bare exponent. Mirrors `Debug` of denominations. -/
def inspect (u : Denomination) : String :=
  "AmountUnit(" ++ String.ofList (Decimal.integer u.exponent.value) ++ ")"

/-! ## Order -/

instance : LE Denomination := ⟨fun u v => u.exponent.value ≤ v.exponent.value⟩
instance : DecidableLE Denomination := fun u v =>
  inferInstanceAs (Decidable (u.exponent.value ≤ v.exponent.value))
instance : Min Denomination := minOfLe
instance : Max Denomination := maxOfLe

theorem exponent_value_inj {u v : Denomination} :
    u.exponent.value = v.exponent.value ↔ u = v := by
  cases u; cases v; simp [Integer32.value_inj]

end Denomination

end Coinage
