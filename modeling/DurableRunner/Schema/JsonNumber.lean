import DurableRunner.Schema.JsNumber
import DurableRunner.Schema.Utf16

/-! # Numbers in JSON texts

The number grammar of `JSON.parse`, whose values are doubles, and the integers
as `JSON.stringify` prints them.
-/
namespace DurableRunner.Schema
open Text

namespace JsNumber

/-- A JSON number without its sign: no leading zero, and digits on both sides of a point. -/
def jsonUnsigned? (cs : List Char) : Option JsNumber :=
  let whole := cs.takeWhile Char.isDigit
  if whole = [] ∨ (whole.head? = some '0' ∧ whole.length ≠ 1) then none
  else
    match cs.dropWhile Char.isDigit with
    | '.' :: fraction => if fraction.head?.any Char.isDigit then unsigned? cs else none
    | _ => unsigned? cs

def jsonNumber? : List Char → Option JsNumber
  | '-' :: cs => (jsonUnsigned? cs).map neg
  | cs => jsonUnsigned? cs

def ofInt : ℤ → JsNumber
  | .ofNat n => ofRat n
  | .negSucc n => (ofRat ((n + 1 : ℕ) : ℚ)).neg

def integerText : ℤ → List Char
  | .ofNat n => Nat.toDigits 10 n
  | .negSucc n => '-' :: Nat.toDigits 10 (n + 1)

theorem head?_toDigits {n : ℕ} (h : 0 < n) : (Nat.toDigits 10 n).head? ≠ some '0' := by
  induction n using Nat.strong_induction_on with
  | _ n ih =>
    rcases lt_or_ge n 10 with hsmall | hlarge
    · have hall : ∀ d : Fin 10, 0 < d.val → Nat.digitChar d.val ≠ '0' := by decide
      rw [Nat.toDigits_of_lt_base hsmall]
      exact fun he => hall ⟨n, hsmall⟩ h (Option.some.inj he)
    · have hpos : 0 < n / 10 := Nat.div_pos hlarge (by decide)
      rw [Nat.toDigits_of_base_le (by decide) hlarge, List.head?_append_of_ne_nil _ Nat.toDigits_ne_nil]
      exact ih (n / 10) (Nat.div_lt_self h (by decide)) hpos

theorem isDigit_toDigits {n : ℕ} : ∀ c ∈ Nat.toDigits 10 n, c.isDigit = true := fun _ =>
  Nat.isDigit_of_mem_toDigits (by decide) (by decide)

theorem jsonUnsigned?_toDigits (n : ℕ) : jsonUnsigned? (Nat.toDigits 10 n) = some (ofRat n) := by
  have hne : Nat.toDigits 10 n ≠ [] := Nat.toDigits_ne_nil
  have hwhole : (Nat.toDigits 10 n).takeWhile Char.isDigit = Nat.toDigits 10 n :=
    List.takeWhile_eq_self_iff.mpr isDigit_toDigits
  have hrest : (Nat.toDigits 10 n).dropWhile Char.isDigit = [] :=
    List.dropWhile_eq_nil_iff.mpr isDigit_toDigits
  have hzero : ¬((Nat.toDigits 10 n).head? = some '0' ∧ (Nat.toDigits 10 n).length ≠ 1) := by
    rintro ⟨hhead, hlength⟩
    rcases Nat.eq_zero_or_pos n with rfl | hpos
    · simp [Nat.toDigits_zero] at hlength
    · exact head?_toDigits hpos hhead
  have hvalue := unsigned?_digits (@isDigit_toDigits n) hne
  simp only [jsonUnsigned?, hwhole, hrest, hne, hzero, or_self, if_false, hvalue,
    Nat.ofDigitChars_ten_toDigits]

theorem jsonNumber?_integerText (z : ℤ) : jsonNumber? (integerText z) = some (ofInt z) := by
  cases z with
  | ofNat n =>
    have hplain : jsonNumber? (Nat.toDigits 10 n) = jsonUnsigned? (Nat.toDigits 10 n) := by
      unfold jsonNumber?
      split
      · rename_i cs hcs
        have hdigit := isDigit_toDigits (n := n) '-' (hcs ▸ List.mem_cons_self)
        exact absurd hdigit (by decide)
      · rfl
    rw [integerText, hplain, jsonUnsigned?_toDigits]
    rfl
  | negSucc n =>
    rw [integerText, jsonNumber?, jsonUnsigned?_toDigits]
    rfl

theorem ofInt_of_lt {z : ℤ} (h : z.natAbs < 2 ^ 53) : ofInt z = .finite z := by
  cases z with
  | ofNat n => exact ofRat_natCast h
  | negSucc n =>
    have hn : n + 1 < 2 ^ 53 := h
    rw [ofInt, ofRat_natCast hn, neg]
    push_cast
    ring_nf

end JsNumber

namespace JsString

def ofAscii (cs : List Char) : JsString := cs.map fun c => UInt16.ofNat c.toNat

def chars (units : JsString) : List Char := units.map fun u => Char.ofNat u.toNat

theorem toNat_ofAscii {c : Char} (h : c.toNat < 0x80) : (UInt16.ofNat c.toNat).toNat = c.toNat := by
  rw [UInt16.toNat_ofNat']
  omega

theorem chars_ofAscii {cs : List Char} (h : ∀ c ∈ cs, c.toNat < 0x80) : chars (ofAscii cs) = cs := by
  have hback : ∀ c ∈ cs, Char.ofNat (UInt16.ofNat c.toNat).toNat = id c := by
    intro c hc
    rw [toNat_ofAscii (h c hc), Char.ofNat_toNat]
    rfl
  rw [chars, ofAscii, List.map_map]
  exact (List.map_congr_left hback).trans (List.map_id cs)

theorem ofAscii_eq_ofString {cs : List Char} (h : ∀ c ∈ cs, c.toNat < 0x80) :
    ofAscii cs = ofString (String.ofList cs) := by
  rw [ofAscii, ofString, String.toList_ofList]
  induction cs with
  | nil => rfl
  | cons c cs ih =>
    obtain ⟨hc, hcs⟩ := List.forall_mem_cons.mp h
    have hone : ofChar c = [UInt16.ofNat c.toNat] := if_pos (hc.trans (by decide))
    rw [List.map_cons, List.flatMap_cons, hone, ih hcs]
    rfl

end JsString

theorem toNat_of_isDigit {c : Char} (h : c.isDigit = true) : 0x30 ≤ c.toNat ∧ c.toNat ≤ 0x39 := by
  simp only [Char.isDigit, Bool.and_eq_true, decide_eq_true_eq] at h
  exact h

theorem isDigit_ofAscii {c : Char} (h : c.isDigit = true) :
    JsonText.isDigit (UInt16.ofNat c.toNat) = true := by
  obtain ⟨hlower, hupper⟩ := toNat_of_isDigit h
  simp only [JsonText.isDigit, Bool.and_eq_true, decide_eq_true_eq, UInt16.le_iff_toNat_le,
    JsString.toNat_ofAscii (show c.toNat < 0x80 by omega), UInt16.reduceToNat]
  exact ⟨hlower, hupper⟩

theorem mem_integerText {z : ℤ} {c : Char} (h : c ∈ JsNumber.integerText z) :
    c = '-' ∨ c.isDigit = true := by
  cases z with
  | ofNat n => exact .inr (JsNumber.isDigit_toDigits c h)
  | negSucc n => exact (List.mem_cons.mp h).imp_right (JsNumber.isDigit_toDigits c)

theorem ascii_integerText {z : ℤ} : ∀ c ∈ JsNumber.integerText z, c.toNat < 0x80 := by
  intro c hc
  rcases mem_integerText hc with rfl | hdigit
  · decide
  · exact lt_of_le_of_lt (toNat_of_isDigit hdigit).2 (by decide)

def integerUnits (z : ℤ) : JsString := JsString.ofAscii (JsNumber.integerText z)

theorem characters_integerUnits (n : ℕ) :
    String.ofList (integerUnits n).characters = toString n := by
  rw [integerUnits, JsString.ofAscii_eq_ofString ascii_integerText, JsString.characters_ofString,
    String.toList_ofList]
  exact Nat.toString_eq_ofList_toDigits.symm

theorem integerUnits_ne_nil (n : ℕ) : integerUnits n ≠ [] :=
  fun h => Nat.toDigits_ne_nil (List.map_eq_nil_iff.mp h)

/-- Integers are printed in decimal digits; a JSON text may hold any number. -/
def integerNumerals : JsonText.Numerals ℤ JsNumber where
  print := integerUnits
  read units := JsNumber.jsonNumber? (JsString.chars units)
  value := JsNumber.ofInt
  read_print z := by
    rw [integerUnits, JsString.chars_ofAscii ascii_integerText, JsNumber.jsonNumber?_integerText]
  print_head z := by
    cases z with
    | ofNat n =>
      obtain ⟨c, cs, hcs⟩ := List.exists_cons_of_ne_nil (Nat.toDigits_ne_nil (b := 10) (n := n))
      have hdigit := isDigit_ofAscii (JsNumber.isDigit_toDigits c (hcs ▸ List.mem_cons_self))
      refine ⟨_, _, congrArg JsString.ofAscii hcs, ?_⟩
      simp [JsonText.isNumberHead, hdigit]
    | negSucc n => exact ⟨_, _, rfl, by decide⟩
  print_units z u hu := by
    obtain ⟨c, hc, rfl⟩ := List.mem_map.mp hu
    rcases mem_integerText hc with rfl | hdigit
    · decide
    · simp [JsonText.isNumberUnit, isDigit_ofAscii hdigit]

end DurableRunner.Schema
