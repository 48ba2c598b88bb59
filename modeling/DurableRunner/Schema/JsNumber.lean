import Mathlib.Data.List.TakeWhile
import Mathlib.Data.Rat.Floor
import Mathlib.Tactic.FieldSimp
import Mathlib.Tactic.Ring

/-! # JavaScript numbers

Double-precision values as rationals, and `Number(text)` as the language
defines it: exact decimal value first, then one rounding.
-/
namespace DurableRunner.Schema

/-- Whitespace and line terminators that `String.prototype.trim` strips. -/
def isTrimmed (c : Char) : Bool :=
  c.toNat ∈ [0x09, 0x0A, 0x0B, 0x0C, 0x0D, 0x20, 0xA0, 0x1680, 0x2028, 0x2029, 0x202F, 0x205F,
    0x3000, 0xFEFF] || (0x2000 ≤ c.toNat && c.toNat ≤ 0x200A)

/-- A number. The two zeros are one value here. -/
inductive JsNumber where
  | nan
  | infinity (negative : Bool)
  | finite (value : ℚ)
deriving DecidableEq

namespace JsNumber

def isSafeInteger : JsNumber → Bool
  | .finite q => q.isInt && decide (|q| ≤ 2 ^ 53 - 1)
  | _ => false

def toInt? : JsNumber → Option ℤ
  | .finite q => if q.isInt then some q.num else none
  | _ => none

def neg : JsNumber → JsNumber
  | .nan => .nan
  | .infinity negative => .infinity !negative
  | .finite q => .finite (-q)

/-- The nearest integer, the even one on a tie. -/
def roundHalfEven (x : ℚ) : ℤ :=
  let rest := x - x.floor
  if rest < 1 / 2 then x.floor
  else if 1 / 2 < rest then x.floor + 1
  else if x.floor % 2 = 0 then x.floor
  else x.floor + 1

def binaryExponent (q : ℚ) : ℤ :=
  let e : ℤ := q.num.natAbs.log2 - q.den.log2
  if (2 : ℚ) ^ e ≤ |q| then e else e - 1

def ofRat (q : ℚ) : JsNumber :=
  if q = 0 then .finite 0
  else
    let ulp : ℚ := 2 ^ (max (binaryExponent q) (-1022) - 52)
    let rounded := roundHalfEven (q / ulp) * ulp
    if |rounded| < 2 ^ 1024 then .finite rounded else .infinity (q < 0)

theorem roundHalfEven_intCast (z : ℤ) : roundHalfEven z = z := by
  simp [roundHalfEven]

theorem le_roundHalfEven {z : ℤ} {x : ℚ} (h : (z : ℚ) ≤ x) : z ≤ roundHalfEven x := by
  have hfloor : z ≤ x.floor := Rat.le_floor_iff.mpr h
  unfold roundHalfEven
  dsimp only
  split_ifs <;> omega

theorem binaryExponent_natCast {n : ℕ} (h : n ≠ 0) : binaryExponent n = n.log2 := by
  have hone : Nat.log2 1 = 0 := rfl
  have hle : (2 : ℚ) ^ n.log2 ≤ n := by exact_mod_cast Nat.log2_self_le h
  simp [binaryExponent, hone, hle]

/-- Integers below 2^53 are doubles. -/
theorem ofRat_natCast {n : ℕ} (h : n < 2 ^ 53) : ofRat n = .finite n := by
  rcases Nat.eq_zero_or_pos n with rfl | hpos
  · rfl
  · have hlog : n.log2 ≤ 52 := Nat.le_of_lt_succ ((Nat.log2_lt hpos.ne').mpr h)
    obtain ⟨k, hk⟩ := Nat.exists_eq_add_of_le hlog
    have hulp : (max (binaryExponent n) (-1022) - 52 : ℤ) = -k := by
      rw [binaryExponent_natCast hpos.ne']
      omega
    have hscaled : (n : ℚ) / 2 ^ (-k : ℤ) = ((n * 2 ^ k : ℤ) : ℚ) := by
      rw [zpow_neg, zpow_natCast, div_inv_eq_mul]
      push_cast
      rfl
    have hbound : |(n : ℚ)| < 2 ^ 1024 := by
      have hlt : (n : ℚ) < 2 ^ 53 := by exact_mod_cast h
      rw [abs_of_nonneg (Nat.cast_nonneg n)]
      exact hlt.trans (pow_lt_pow_right₀ (by norm_num) (by norm_num))
    have hrounded : (roundHalfEven ((n : ℚ) / 2 ^ (-k : ℤ)) : ℚ) * 2 ^ (-k : ℤ) = n := by
      rw [hscaled, roundHalfEven_intCast, ← hscaled]
      exact div_mul_cancel₀ _ (zpow_ne_zero _ two_ne_zero)
    rw [ofRat, if_neg (Nat.cast_ne_zero.mpr hpos.ne'), hulp]
    dsimp only
    rw [hrounded, if_pos hbound]

/-- Integers from 2^53 on stay there. -/
theorem not_isSafeInteger_ofRat {n : ℕ} (h : 2 ^ 53 ≤ n) : (ofRat n).isSafeInteger = false := by
  have hne : n ≠ 0 := by omega
  have hlog : 53 ≤ n.log2 := (Nat.le_log2 hne).mpr h
  obtain ⟨k, hk⟩ := Nat.exists_eq_add_of_le hlog
  have hulp : (max (binaryExponent n) (-1022) - 52 : ℤ) = (k + 1 : ℕ) := by
    rw [binaryExponent_natCast hne]
    omega
  have hpos : (0 : ℚ) < 2 ^ (k + 1) := by positivity
  have hscaled : ((2 ^ 52 : ℤ) : ℚ) ≤ n / 2 ^ (k + 1) := by
    have hle : (2 : ℚ) ^ n.log2 ≤ n := by exact_mod_cast Nat.log2_self_le hne
    have hsplit : (2 : ℚ) ^ n.log2 = 2 ^ 52 * 2 ^ (k + 1) := by
      rw [hk, ← pow_add]
      congr 1
      omega
    rw [le_div_iff₀ hpos]
    push_cast
    linarith
  have hrounded : (2 : ℚ) ^ 53 ≤ roundHalfEven ((n : ℚ) / 2 ^ (k + 1)) * 2 ^ (k + 1) := by
    have hround : (2 : ℚ) ^ 52 ≤ roundHalfEven ((n : ℚ) / 2 ^ (k + 1)) := by
      exact_mod_cast le_roundHalfEven hscaled
    have htwo : (2 : ℚ) ≤ 2 ^ (k + 1) := by
      rw [pow_succ]
      linarith [one_le_pow₀ (one_le_two : (1 : ℚ) ≤ 2) (n := k)]
    calc (2 : ℚ) ^ 53 = 2 ^ 52 * 2 := by norm_num
      _ ≤ _ := mul_le_mul hround htwo zero_le_two (le_trans (by positivity) hround)
  rw [ofRat, if_neg (Nat.cast_ne_zero.mpr hne), hulp]
  dsimp only
  rw [zpow_natCast]
  generalize (roundHalfEven ((n : ℚ) / 2 ^ (k + 1)) : ℚ) * 2 ^ (k + 1) = rounded at hrounded ⊢
  split
  · have hlarge : 2 ^ 53 - 1 < |rounded| := lt_of_lt_of_le (by linarith) (le_abs_self rounded)
    simp [isSafeInteger, hlarge]
  · rfl

def natural? (cs : List Char) : Option ℕ :=
  if !cs.isEmpty && cs.all Char.isDigit then some (Nat.ofDigitChars 10 cs 0) else none

def digit? (base : ℕ) (c : Char) : Option ℕ :=
  let value :=
    if c.isDigit then c.toNat - '0'.toNat
    else if 'a' ≤ c ∧ c ≤ 'f' then c.toNat - 'a'.toNat + 10
    else if 'A' ≤ c ∧ c ≤ 'F' then c.toNat - 'A'.toNat + 10
    else base
  if value < base then some value else none

def radix? (base : ℕ) (cs : List Char) : Option ℕ :=
  if cs.isEmpty then none
  else cs.foldlM (fun value c => (digit? base c).map (base * value + ·)) 0

def exponent? : List Char → Option ℤ
  | '+' :: cs => (natural? cs).map Int.ofNat
  | '-' :: cs => (natural? cs).map fun n : ℕ => -(n : ℤ)
  | cs => (natural? cs).map Int.ofNat

def mantissa? (cs : List Char) : Option ℚ :=
  let whole := cs.takeWhile Char.isDigit
  match cs.dropWhile Char.isDigit with
  | [] => (natural? whole).map fun n : ℕ => (n : ℚ)
  | '.' :: fraction =>
    if fraction.all Char.isDigit then
      (natural? (whole ++ fraction)).map fun n : ℕ => (n : ℚ) / 10 ^ fraction.length
    else none
  | _ => none

/-- `StrUnsignedDecimalLiteral`. -/
def unsigned? (cs : List Char) : Option JsNumber :=
  if cs = "Infinity".toList then some (.infinity false)
  else
    let isExponentMark := fun c => c = 'e' || c = 'E'
    match cs.dropWhile fun c => !isExponentMark c with
    | [] => (mantissa? cs).map ofRat
    | _ :: exponent =>
      (mantissa? (cs.takeWhile fun c => !isExponentMark c)).bind fun m =>
        (exponent? exponent).map fun e => ofRat (m * 10 ^ e)

/-- `StrNumericLiteral`. -/
def literal? : List Char → Option JsNumber
  | '+' :: cs => unsigned? cs
  | '-' :: cs => (unsigned? cs).map neg
  | '0' :: 'x' :: cs | '0' :: 'X' :: cs => (radix? 16 cs).map fun n : ℕ => ofRat n
  | '0' :: 'o' :: cs | '0' :: 'O' :: cs => (radix? 8 cs).map fun n : ℕ => ofRat n
  | '0' :: 'b' :: cs | '0' :: 'B' :: cs => (radix? 2 cs).map fun n : ℕ => ofRat n
  | cs => unsigned? cs

def trim (cs : List Char) : List Char :=
  ((cs.dropWhile isTrimmed).reverse.dropWhile isTrimmed).reverse

/-- `Number(text)`. -/
def ofText (text : String) : JsNumber :=
  match trim text.toList with
  | [] => .finite 0
  | cs => (literal? cs).getD .nan

section Decimal
variable {cs : List Char} (hdigits : ∀ c ∈ cs, c.isDigit = true)
include hdigits

theorem trim_digits : trim cs = cs := by
  have hkeep : ∀ c ∈ cs, isTrimmed c = false := by
    intro c hc
    have hrange : 48 ≤ c.toNat ∧ c.toNat ≤ 57 := by
      have hdigit := hdigits c hc
      simp only [Char.isDigit, Bool.and_eq_true, decide_eq_true_eq] at hdigit
      exact hdigit
    by_contra htrimmed
    simp only [Bool.not_eq_false, isTrimmed, Bool.or_eq_true, Bool.and_eq_true, decide_eq_true_eq,
      List.mem_cons, List.not_mem_nil, or_false] at htrimmed
    omega
  have hdrop : ∀ ds : List Char, (∀ c ∈ ds, isTrimmed c = false) → ds.dropWhile isTrimmed = ds := by
    intro ds hds
    cases ds with
    | nil => rfl
    | cons c ds => simp [hds c List.mem_cons_self]
  rw [trim, hdrop cs hkeep, hdrop _ (by simpa using hkeep), List.reverse_reverse]

theorem natural?_digits (hne : cs ≠ []) : natural? cs = some (Nat.ofDigitChars 10 cs 0) := by
  have hall : cs.all Char.isDigit = true := List.all_eq_true.mpr hdigits
  simp [natural?, hall, hne]

theorem mantissa?_digits (hne : cs ≠ []) :
    mantissa? cs = some (Nat.ofDigitChars 10 cs 0 : ℚ) := by
  have hwhole : cs.takeWhile Char.isDigit = cs := List.takeWhile_eq_self_iff.mpr hdigits
  have hrest : cs.dropWhile Char.isDigit = [] := List.dropWhile_eq_nil_iff.mpr hdigits
  rw [mantissa?, hwhole, hrest, natural?_digits hdigits hne]
  rfl

theorem unsigned?_digits (hne : cs ≠ []) :
    unsigned? cs = some (ofRat (Nat.ofDigitChars 10 cs 0 : ℕ)) := by
  have hinfinity : cs ≠ "Infinity".toList := by
    rintro rfl
    exact absurd (hdigits 'I' (by simp)) (by decide)
  have hplain : cs.dropWhile (fun c => !(decide (c = 'e') || decide (c = 'E'))) = [] := by
    refine List.dropWhile_eq_nil_iff.mpr fun c hc => ?_
    have hdigit := hdigits c hc
    have he : c ≠ 'e' := fun h => absurd (h ▸ hdigit) (by decide)
    have hE : c ≠ 'E' := fun h => absurd (h ▸ hdigit) (by decide)
    simp [he, hE]
  rw [unsigned?, if_neg hinfinity]
  dsimp only
  rw [hplain]
  dsimp only
  rw [mantissa?_digits hdigits hne, Option.map_some]

theorem literal?_digits : literal? cs = unsigned? cs := by
  unfold literal?
  split
  all_goals first
    | rfl
    | exact absurd (hdigits _ List.mem_cons_self) (by decide)
    | exact absurd (hdigits _ (List.mem_cons_of_mem _ List.mem_cons_self)) (by decide)

end Decimal

theorem natural?_eq_some {cs : List Char} {n : ℕ} : natural? cs = some n ↔
    cs ≠ [] ∧ (∀ c ∈ cs, c.isDigit = true) ∧ Nat.ofDigitChars 10 cs 0 = n := by
  unfold natural?
  by_cases hne : cs = []
  · simp [hne]
  · simp [hne]

theorem ofText_natural {text : String} {n : ℕ} (h : natural? text.toList = some n) :
    ofText text = ofRat n := by
  obtain ⟨hne, hdigits, hvalue⟩ := natural?_eq_some.mp h
  rw [ofText, trim_digits hdigits]
  cases hcs : text.toList with
  | nil => exact absurd hcs hne
  | cons c cs =>
    dsimp only
    rw [← hcs, literal?_digits hdigits, unsigned?_digits hdigits hne, hvalue]
    rfl

theorem ofText_toString {n : ℕ} (h : n < 2 ^ 53) : ofText (toString n) = .finite n := by
  have htext : (toString n).toList = Nat.toDigits 10 n := Nat.toList_repr
  have hnatural : natural? (toString n).toList = some n := by
    rw [htext]
    refine natural?_eq_some.mpr ⟨Nat.toDigits_ne_nil, fun c => ?_, Nat.ofDigitChars_ten_toDigits⟩
    exact Nat.isDigit_of_mem_toDigits (by decide) (by decide)
  rw [ofText_natural hnatural, ofRat_natCast h]

end JsNumber
end DurableRunner.Schema
