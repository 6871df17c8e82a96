import MediaGraph.Decimal.Shortest

/-! How selected digits are laid out.
Positional writing shows every place; exponent writing sets the point after the
first digit and signs the exponent. -/
namespace MediaGraph.Decimal

def digitChars (n : Nat) : List Char := (toString n).toList

def zeros (n : Nat) : List Char := List.replicate n '0'

def Digits.order (d : Digits) : Int := (digitChars d.digits).length - 1 + d.exponent

def Digits.positional (d : Digits) (whole : List Char) : List Char :=
  let ds := digitChars d.digits
  let point : Int := ds.length + d.exponent
  if d.exponent ≥ 0 then ds ++ zeros d.exponent.toNat ++ whole
  else if point > 0 then ds.take point.toNat ++ '.' :: ds.drop point.toNat
  else '0' :: '.' :: (zeros (-point).toNat ++ ds)

def Digits.withExponent (d : Digits) : List Char :=
  let power :=
    if d.order < 0 then '-' :: digitChars d.order.natAbs else '+' :: digitChars d.order.natAbs
  match digitChars d.digits with
  | [] => []
  | [c] => c :: 'e' :: power
  | c :: more => c :: '.' :: (more ++ 'e' :: power)

/-- A value as its sign and what is behind the sign; `none` stands for zero. -/
structure Signed where
  negative : Bool
  value : Option Binary

def signed (format : Format) (negative : Bool) (exponent fraction : Nat) : Signed :=
  let value := format.value exponent fraction
  ⟨negative, if value.m = 0 then none else some value⟩

def ofDouble (x : Float) : Signed :=
  let b := x.toBits
  signed double (b >>> 63 != 0) ((b >>> 52) &&& 0x7ff).toNat (b &&& 0xfffffffffffff).toNat

def ofSingle (x : Float32) : Signed :=
  let b := x.toBits
  signed single (b >>> 31 != 0) ((b >>> 23) &&& 0xff).toNat (b &&& 0x7fffff).toNat

def signChars (negative : Bool) : List Char := if negative then ['-'] else []

/-- Plain texts show every place, no point in a whole number, and take the upper
neighbour of a tie. -/
def Signed.plain (x : Signed) : String :=
  String.ofList <| signChars x.negative ++
    match x.value with
    | none => ['0']
    | some b => (b.shortest .up).positional []

def plainDouble (x : Float) : String :=
  if x.isNaN then "NaN"
  else if x.isInf then if x < 0 then "-inf" else "inf"
  else (ofDouble x).plain

def plainSingle (x : Float32) : String :=
  if x.isNaN then "NaN"
  else if x.isInf then if x < 0 then "-inf" else "inf"
  else (ofSingle x).plain

/-- Documents write a point or an exponent in every real: all places from 10^-5
up to 10^16, an exponent elsewhere, and the even neighbour of a tie. -/
def Signed.document (x : Signed) : String :=
  String.ofList <| signChars x.negative ++
    match x.value with
    | none => ['0', '.', '0']
    | some b =>
      let d := b.shortest .even
      if -5 ≤ d.order && d.order < 16 then d.positional ['.', '0'] else d.withExponent

end MediaGraph.Decimal
