import Coinage.Binary64.Basic

/-!
# Binary64 arithmetic

A sum, product or quotient of finite numbers is the exact rational result, rounded once by
`ofRat`. What is left are the infinities, `nan` and the sign of a zero result: a sum that is
exactly zero is negative only where both terms are, a product or quotient takes its sign from
both operands.

`pow` multiplies along the binary digits of the exponent, each product rounded, so a high power
need not be the number nearest to the exact one.
-/
namespace Coinage.Binary64

/-- The number with its sign turned; `nan` has none. -/
protected def neg : Binary64 → Binary64
  | nan => nan
  | infinite s => infinite (!s)
  | finite s m => finite (!s) m

/-- The sum; `nan` for infinities of opposite signs. -/
protected def add : Binary64 → Binary64 → Binary64
  | nan, _ => nan
  | _, nan => nan
  | infinite s, infinite t => if s = t then infinite s else nan
  | infinite s, finite .. => infinite s
  | finite .., infinite t => infinite t
  | finite s m, finite t n => ofRat (s && t) ((finite s m).value + (finite t n).value)

/-- The product; `nan` for zero times an infinity. -/
protected def mul : Binary64 → Binary64 → Binary64
  | nan, _ => nan
  | _, nan => nan
  | infinite s, infinite t => infinite (s ^^ t)
  | infinite s, finite t n => if n.rank = 0 then nan else infinite (s ^^ t)
  | finite s m, infinite t => if m.rank = 0 then nan else infinite (s ^^ t)
  | finite s m, finite t n => ofRat (s ^^ t) ((finite s m).value * (finite t n).value)

/-- The quotient; `nan` for zero by zero and infinity by infinity. -/
protected def div : Binary64 → Binary64 → Binary64
  | nan, _ => nan
  | _, nan => nan
  | infinite _, infinite _ => nan
  | infinite s, finite t _ => infinite (s ^^ t)
  | finite s _, infinite t => finite (s ^^ t) .zero
  | finite s m, finite t n =>
    if n.rank = 0 then
      if m.rank = 0 then nan else infinite (s ^^ t)
    else ofRat (s ^^ t) ((finite s m).value / (finite t n).value)

instance : Neg Binary64 := ⟨Binary64.neg⟩
instance : Add Binary64 := ⟨Binary64.add⟩
instance : Sub Binary64 := ⟨fun x y => x + -y⟩
instance : Mul Binary64 := ⟨Binary64.mul⟩
instance : Div Binary64 := ⟨Binary64.div⟩

/-- The product of `acc` and the `n`-th power of `base`, the powers `base^(2^i)` taken from low
to high. -/
def powFrom (acc base : Binary64) (n : Nat) : Binary64 :=
  if n = 0 then acc
  else powFrom (if n % 2 = 1 then acc * base else acc) (base * base) (n / 2)
termination_by n

/-- The `n`-th power by repeated squaring. Mirrors `powi`. -/
def pow (base : Binary64) (n : Nat) : Binary64 := powFrom (ofInt 1) base n

/-- A power of ten with any exponent: for a negative one the reciprocal of the power. Mirrors
`pow10`. -/
def powerOfTen : Int → Binary64
  | .ofNat n => pow (ofInt 10) n
  | .negSucc n => ofInt 1 / pow (ofInt 10) (n + 1)

end Coinage.Binary64
