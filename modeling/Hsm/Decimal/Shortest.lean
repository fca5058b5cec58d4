import Hsm.Decimal.Binary
/-! The shortest decimal that reads back as a given binary64 value, and its text. For `n = 1, 2, …`
digits the two neighbours of the value on the grid `10^k` of `n`-digit decimals are tested
against the interval of reals that round to the value (its ends belong to it when the
significand is even); the first grid with a hit wins, of two hits the nearer, and an exact tie
goes to the even digits. All arithmetic is on natural numbers. -/
namespace Hsm
namespace Decimal

/-- The decimal `digits · 10^exp`. -/
structure Scientific where
  digits : Nat
  exp : Int

def digitCount (n : Nat) : Nat := (Nat.toDigits 10 n).length

def cmpPow (a : Nat) (k : Int) (x d : Nat) : Ordering :=
  if 0 ≤ k then compare (a * Nat.pow 10 k.toNat * d) x else compare (a * d) (x * Nat.pow 10 (-k).toNat)

/-- A value `x / d` with the interval `[lo / d, hi / d]` of reals that round to it. -/
structure Interval where
  x : Nat
  lo : Nat
  hi : Nat
  d : Nat
  closed : Bool

/-- Whether `a · 10^k` lies in the interval. -/
def Interval.contains (I : Interval) (a : Nat) (k : Int) : Bool :=
  let above := match cmpPow a k I.lo I.d with
    | .gt => true
    | .eq => I.closed
    | .lt => false
  let below := match cmpPow a k I.hi I.d with
    | .lt => true
    | .eq => I.closed
    | .gt => false
  above && below

/-- The interval of a positive significand `m` with exponent `e`: the value is `4m · 2^(e-2)`,
and the gap below is half as wide when `m` is the smallest significand of a binade. -/
def Interval.ofParts (m : Nat) (e : Int) : Interval :=
  let t := e - 2
  let s := Nat.pow 2 (max t 0).toNat
  let d := Nat.pow 2 (max (-t) 0).toNat
  let g := if m = Nat.pow 2 52 ∧ e > -1074 then 1 else 2
  ⟨4 * m * s, (4 * m - g) * s, (4 * m + 2) * s, d, m % 2 = 0⟩

def decimalExponent (x d : Nat) : Int :=
  if d ≤ x then (digitCount (x / d) : Int) - 1
  else -(digitCount ((d + x - 1) / x - 1) : Int)

def Scientific.normalize (s : Scientific) : Scientific :=
  go 20 s.digits s.exp
where
  go : Nat → Nat → Int → Scientific
    | 0, a, k => ⟨a, k⟩
    | fuel + 1, a, k => if a ≠ 0 ∧ a % 10 = 0 then go fuel (a / 10) (k + 1) else ⟨a, k⟩

/-- The decimal of fewest digits in the interval, nearest to its value. -/
def Interval.shortest (I : Interval) : Scientific :=
  let p := decimalExponent I.x I.d
  let pick (n : Nat) : Option Scientific :=
    let k := p - n + 1
    let c := if 0 ≤ k then I.x / (I.d * Nat.pow 10 k.toNat) else I.x * Nat.pow 10 (-k).toNat / I.d
    match I.contains c k, I.contains (c + 1) k with
    | true, true =>
      match cmpPow (2 * c + 1) k (2 * I.x) I.d with
      | .gt => some ⟨c, k⟩
      | .lt => some ⟨c + 1, k⟩
      | .eq => some (if c % 2 = 0 then ⟨c, k⟩ else ⟨c + 1, k⟩)
    | true, false => some ⟨c, k⟩
    | false, true => some ⟨c + 1, k⟩
    | false, false => none
  let found := (List.range 17).findSome? fun i => pick (i + 1)
  (found.getD ⟨I.x * Nat.pow 10 17 / I.d, -17⟩).normalize

def shortestOf (b : Binary) : Scientific :=
  if b.m = 0 then ⟨0, 0⟩ else (Interval.ofParts b.m b.e).shortest

/-- Where positional notation gives way to an exponent, and how the exponent is signed. With
`n` digits and exponent `k` the point sits after `n + k` digits; positional text is used when
`minPoint < n + k ≤ maxPoint`. -/
structure Layout where
  maxPoint : Int
  minPoint : Int
  plusExponent : Bool

/-- Number text of data values: positional for points from `-4` to `16`, otherwise one digit
before the point and an exponent with its sign always written; an integral value keeps `.0`. -/
def Layout.data : Layout := ⟨16, -5, true⟩

/-- The text of a finite binary64 value. -/
def Layout.render (L : Layout) (f : Float) : String :=
  let b := Binary.ofFloat f
  let sign := if b.neg then "-" else ""
  let s := shortestOf b
  if s.digits = 0 then sign ++ "0.0"
  else
    let ds := String.ofList (Nat.toDigits 10 s.digits)
    let n : Int := ds.length
    let point := n + s.exp
    let zeros (j : Int) := String.ofList (List.replicate j.toNat '0')
    let expText (x : Int) :=
      "e" ++ (if x < 0 then "-" else if L.plusExponent then "+" else "") ++ toString x.natAbs
    let body :=
      if 0 ≤ s.exp ∧ point ≤ L.maxPoint then ds ++ zeros s.exp ++ ".0"
      else if 0 < point ∧ point ≤ L.maxPoint then
        String.ofList (ds.toList.take point.toNat) ++ "." ++ String.ofList (ds.toList.drop point.toNat)
      else if L.minPoint < point ∧ point ≤ 0 then "0." ++ zeros (-point) ++ ds
      else if n = 1 then ds ++ expText (point - 1)
      else String.ofList (ds.toList.take 1) ++ "." ++ String.ofList (ds.toList.drop 1) ++
        expText (point - 1)
    sign ++ body

end Decimal
end Hsm
