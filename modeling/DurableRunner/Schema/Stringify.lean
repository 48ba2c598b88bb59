import DurableRunner.Schema.JsonNumber
import Mathlib.Data.List.Sort

/-! # Stored values in the texts of errors

What `JSON.stringify` makes of a `jsonb` value that the driver has parsed:
numbers are doubles, and an object lists its array indices first.
-/
namespace DurableRunner.Schema
open Text

namespace JsNumber

/-- The `n` with `10 ^ (n - 1) ≤ q < 10 ^ n`. -/
def decimalExponent (q : ℚ) : ℤ :=
  let e : ℤ := (Nat.toDigits 10 q.num.natAbs).length - (Nat.toDigits 10 q.den).length
  if (10 : ℚ) ^ e ≤ q then e + 1 else e

/-- The integer next to `x`, of the two whose multiple of the scale is the number, that is
nearest to it. -/
def significand? (q scale : ℚ) : Option ℕ :=
  let x := q / scale
  let below := x.floor.toNat
  let denotes := fun s : ℕ => ofRat (s * scale) = .finite q
  if denotes below ∧ denotes (below + 1) then some (roundHalfEven x).toNat
  else if denotes below then some below
  else if denotes (below + 1) then some (below + 1)
  else none

/-- The shortest decimal digits that denote a positive double, and the place of their point. -/
def shortest? (q : ℚ) : Option (List Char × ℤ) :=
  let n := decimalExponent q
  (List.range 17).findSome? fun k : ℕ =>
    (significand? q ((10 : ℚ) ^ (n - (k + 1)))).map fun s =>
      if s = 10 ^ (k + 1) then (['1'], n + 1) else (Nat.toDigits 10 s, n)

/-- `Number::toString` of digits with their point at `n`. -/
def layout (digits : List Char) (n : ℤ) : List Char :=
  let k : ℤ := digits.length
  if k ≤ n ∧ n ≤ 21 then digits ++ List.replicate (n - k).toNat '0'
  else if 0 < n ∧ n ≤ 21 then digits.take n.toNat ++ '.' :: digits.drop n.toNat
  else if -6 < n ∧ n ≤ 0 then '0' :: '.' :: List.replicate (-n).toNat '0' ++ digits
  else
    let exponent := (if 0 ≤ n - 1 then '+' else '-') :: Nat.toDigits 10 (n - 1).natAbs
    match digits with
    | [digit] => digit :: 'e' :: exponent
    | digit :: rest => digit :: '.' :: rest ++ 'e' :: exponent
    | [] => []

/-- `JSON.stringify` of a number. -/
def jsonText : JsNumber → List Char
  | .finite q =>
    if q = 0 then ['0']
    else
      let text := (shortest? |q|).elim [] fun d => layout d.1 d.2
      if q < 0 then '-' :: text else text
  | _ => "null".toList

end JsNumber

namespace Json

/-- The index that a key is, in its canonical form. -/
def arrayIndex? (key : String) : Option ℕ :=
  (JsNumber.natural? key.toList).bind fun n =>
    if toString n = key ∧ n < 2 ^ 32 - 1 then some n else none

def propertyOrder {α : Type} (members : List (String × α)) : List (String × α) :=
  (members.filter fun m => (arrayIndex? m.1).isSome).insertionSort (fun a b =>
    (arrayIndex? a.1).getD 0 ≤ (arrayIndex? b.1).getD 0) ++
  members.filter fun m => (arrayIndex? m.1).isNone

mutual
/-- `JSON.parse` of a stored value. -/
def parsed : Json → JsonText.Value JsNumber
  | .null => .null
  | .bool b => .bool b
  | .num q => .num (.ofRat q)
  | .str s => .str (.ofString s)
  | .arr items => .arr (parsedItems items)
  | .obj members => .obj ((propertyOrder (parsedMembers members)).map fun m => (.ofString m.1, m.2))

def parsedItems : List Json → List (JsonText.Value JsNumber)
  | [] => []
  | x :: xs => parsed x :: parsedItems xs

def parsedMembers : List (String × Json) → List (String × JsonText.Value JsNumber)
  | [] => []
  | (k, x) :: xs => (k, parsed x) :: parsedMembers xs
end

/-- `JSON.stringify` of a stored value. -/
def stringify (value : Json) : JsString :=
  JsonText.stringify (fun n => JsString.ofAscii n.jsonText) value.parsed

/-- `${JSON.stringify(value)}`, also for `undefined`. -/
def template : Option Json → JsString
  | none => .ofString "undefined"
  | some value => value.stringify

end Json
end DurableRunner.Schema
