/-! The fewest decimal digits that read back to a binary value.
A finite binary value is `m * 2^q`. The reals that round to it form an interval,
its ends included when `m` is even; the first decimal grid with a point in the
interval is taken, and on it the point nearest to the value. -/
namespace MediaGraph.Decimal

/-- A finite binary value without its sign. `narrow` says that the gap to the
value below is half the gap to the value above. -/
structure Binary where
  m : Nat
  q : Int
  narrow : Bool
  deriving Repr

structure Format where
  width : Nat
  lowest : Int

def double : Format := ⟨52, -1074⟩

def single : Format := ⟨23, -149⟩

/-- The value with biased exponent `e` and fraction `f`; exponent 0 has no
leading bit of its own. -/
def Format.value (format : Format) (e f : Nat) : Binary :=
  if e = 0 then ⟨f, format.lowest, false⟩
  else ⟨Nat.pow 2 format.width + f, format.lowest + (e - 1), f = 0 && e > 1⟩

structure Digits where
  digits : Nat
  exponent : Int
  deriving Repr, DecidableEq

def compareScaled (a : Nat) (i : Int) (n : Nat) (j : Int) : Ordering :=
  compare (a * Nat.pow 10 i.toNat * Nat.pow 2 (-j).toNat)
    (n * Nat.pow 2 j.toNat * Nat.pow 10 (-i).toNat)

def Binary.readsBack (x : Binary) (d : Digits) : Bool :=
  let low := if x.narrow then 4 * x.m - 1 else 4 * x.m - 2
  let high := 4 * x.m + 2
  let ends := x.m % 2 == 0
  let below := compareScaled d.digits d.exponent low (x.q - 2)
  let above := compareScaled d.digits d.exponent high (x.q - 2)
  (below == .gt || ends && below == .eq) && (above == .lt || ends && above == .eq)

inductive Tie where
  | even
  | up
  deriving DecidableEq, Repr

/-- The point of the grid `10^e` that reads back to `x` and is nearest to it. -/
def Binary.onGrid? (tie : Tie) (x : Binary) (e : Int) : Option Digits :=
  let num := x.m * Nat.pow 2 x.q.toNat * Nat.pow 10 (-e).toNat
  let den := Nat.pow 2 (-x.q).toNat * Nat.pow 10 e.toNat
  let lower : Digits := ⟨num / den, e⟩
  let upper : Digits := ⟨num / den + 1, e⟩
  match x.readsBack lower, x.readsBack upper with
  | true, true =>
    match compare (2 * (num % den)) den, tie with
    | .lt, _ => some lower
    | .gt, _ => some upper
    | .eq, .up => some upper
    | .eq, .even => if lower.digits % 2 = 0 then some lower else some upper
  | true, false => some lower
  | false, true => some upper
  | false, false => none

/-- The least `k` with `x < 10^k`, from an estimate that is never too high and
at most three too low. -/
def Binary.scale (x : Binary) : Int :=
  let bits : Int := x.q + x.m.log2 + 1
  let guess := (bits - 1) * 30103 / 100000
  (List.range 4).foldl
    (fun k _ => if compareScaled 1 k x.m x.q == .gt then k else k + 1) guess

def strip : Nat → Digits → Digits
  | 0, d => d
  | fuel + 1, d =>
    if d.digits != 0 && d.digits % 10 == 0 then strip fuel ⟨d.digits / 10, d.exponent + 1⟩ else d

/-- The shortest decimal that reads back to a positive value: grids of 1 to 17
digits are tried in turn. -/
def Binary.shortest (tie : Tie) (x : Binary) : Digits :=
  let k := x.scale
  let exact : Digits :=
    if x.q < 0 then ⟨x.m * Nat.pow 5 (-x.q).toNat, x.q⟩
    else ⟨x.m * Nat.pow 2 x.q.toNat, 0⟩
  let found := (List.range 17).findSome? fun (n : Nat) => x.onGrid? tie (k - ((n : Int) + 1))
  let d := found.getD exact
  strip (toString d.digits).length d

end MediaGraph.Decimal
