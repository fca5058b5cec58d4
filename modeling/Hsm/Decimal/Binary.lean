/-! Binary64 values as exact integers: a finite value is `(-1)^neg · m · 2^e`. `Binary.ofFloat`
reads the parts off the bit pattern, and `nearestOfNat` builds the binary64 value nearest to a
natural number, a tie going to the even significand. -/
namespace Hsm
namespace Decimal

/-- A finite binary64 value `(-1)^neg · m · 2^e`, with the significand and exponent of its bit
pattern (subnormals have exponent `-1074`). -/
structure Binary where
  neg : Bool
  m : Nat
  e : Int

/-- The parts of a finite binary64 value. -/
def Binary.ofFloat (f : Float) : Binary :=
  let b := f.toBits.toNat
  let biased := (b >>> 52) % 2048
  let frac := b % Nat.pow 2 52
  if biased = 0 then ⟨b >>> 63 = 1, frac, -1074⟩
  else ⟨b >>> 63 = 1, frac + Nat.pow 2 52, (biased : Int) - 1075⟩

/-- The binary64 value nearest to `n`, a tie going to the even significand; `n` must stay below
`2^1024`. -/
def nearestOfNat (n : Nat) : Float :=
  if n < Nat.pow 2 53 then n.toUInt64.toFloat
  else
    let shift := n.log2 - 52
    let q := n >>> shift
    let r := n % Nat.pow 2 shift
    let half := Nat.pow 2 (shift - 1)
    let q := if r > half ∨ (r = half ∧ q % 2 = 1) then q + 1 else q
    let (q, shift) := if q = Nat.pow 2 53 then (Nat.pow 2 52, shift + 1) else (q, shift)
    Float.ofBits (UInt64.ofNat (((shift + 52 + 1023) <<< 52) ||| (q - Nat.pow 2 52)))

def powersOfTen : Array Float :=
  (List.range 309).toArray.map fun k => nearestOfNat (Nat.pow 10 k)

end Decimal
end Hsm
