import DurableRunner.Schema.Surrogates
import DurableRunner.Text.JsonText

/-! # Texts made of characters

UTF-16 is read back character by character, and what `JSON.stringify` writes is
well formed whatever its strings hold.
-/
namespace DurableRunner.Schema.JsString
open Text JsonText

def pairChar (u v : UInt16) : Char :=
  Char.ofNat (0x10000 + (u.toNat - 0xD800) * 0x400 + (v.toNat - 0xDC00))

/-- The characters of a well-formed text. -/
def characters : JsString → List Char
  | [] => []
  | [u] => [Char.ofNat u.toNat]
  | u :: v :: rest =>
    if isHighSurrogate u && isLowSurrogate v then pairChar u v :: characters rest
    else Char.ofNat u.toNat :: characters (v :: rest)

theorem characters_cons {u : UInt16} (h : isHighSurrogate u = false) (rest : JsString) :
    characters (u :: rest) = Char.ofNat u.toNat :: characters rest := by
  cases rest with
  | nil => rfl
  | cons v rest => simp [characters, h]

theorem characters_ofChar (c : Char) (rest : JsString) :
    characters (ofChar c ++ rest) = c :: characters rest := by
  have hvalid := c.valid
  simp only [UInt32.isValidChar, Nat.isValidChar] at hvalid
  have hval : c.toNat = c.val.toNat := rfl
  unfold ofChar
  split_ifs with hbasic
  · have hnat : (UInt16.ofNat c.toNat).toNat = c.toNat := by
      rw [UInt16.toNat_ofNat']
      omega
    have hhigh : isHighSurrogate (UInt16.ofNat c.toNat) = false := by
      simp only [isHighSurrogate, Bool.and_eq_false_iff, decide_eq_false_iff_not,
        UInt16.le_iff_toNat_le, hnat, UInt16.reduceToNat]
      omega
    rw [List.singleton_append, characters_cons hhigh, hnat, Char.ofNat_toNat]
  · have hhigh : (UInt16.ofNat (0xD800 + (c.toNat - 0x10000) / 0x400)).toNat =
        0xD800 + (c.toNat - 0x10000) / 0x400 := by
      rw [UInt16.toNat_ofNat']
      omega
    have hlow : (UInt16.ofNat (0xDC00 + (c.toNat - 0x10000) % 0x400)).toNat =
        0xDC00 + (c.toNat - 0x10000) % 0x400 := by
      rw [UInt16.toNat_ofNat']
      omega
    have hpair : (isHighSurrogate (UInt16.ofNat (0xD800 + (c.toNat - 0x10000) / 0x400)) &&
        isLowSurrogate (UInt16.ofNat (0xDC00 + (c.toNat - 0x10000) % 0x400))) = true := by
      simp only [isHighSurrogate, isLowSurrogate, Bool.and_eq_true, decide_eq_true_eq,
        UInt16.le_iff_toNat_le, hhigh, hlow, UInt16.reduceToNat]
      omega
    have hchar : 0x10000 + (0xD800 + (c.toNat - 0x10000) / 0x400 - 0xD800) * 0x400 +
        (0xDC00 + (c.toNat - 0x10000) % 0x400 - 0xDC00) = c.toNat := by omega
    rw [List.cons_append, List.singleton_append, characters, if_pos hpair, pairChar, hhigh, hlow, hchar,
      Char.ofNat_toNat]

theorem characters_ofString (text : String) : characters (ofString text) = text.toList := by
  unfold ofString
  induction text.toList with
  | nil => rfl
  | cons c cs ih => rw [List.flatMap_cons, characters_ofChar, ih]

theorem ofString_injective : Function.Injective ofString := fun s t h => by
  have hchars := congrArg characters h
  rw [characters_ofString, characters_ofString] at hchars
  exact String.toList_injective hchars

theorem isWellFormed_append {front back : JsString} (hfront : front.isWellFormed = true)
    (hback : back.isWellFormed = true) : isWellFormed (front ++ back) = true := by
  induction front using isWellFormed.induct with
  | case1 => exact hback
  | case2 u =>
    simp only [isWellFormed, Bool.and_eq_true, Bool.not_eq_true'] at hfront
    rw [List.singleton_append, isWellFormed_cons (by simp [isScalar, hfront])]
    exact hback
  | case3 u v rest hu ih =>
    simp only [isWellFormed, hu, ↓reduceIte, Bool.and_eq_true] at hfront
    rw [List.cons_append, List.cons_append, isWellFormed_pair hu hfront.1]
    exact ih hfront.2
  | case4 u v rest hu ih =>
    simp only [isWellFormed, hu, Bool.false_eq_true, ↓reduceIte, Bool.and_eq_true,
      Bool.not_eq_true'] at hfront
    rw [List.cons_append, isWellFormed_cons (by simp [isScalar, hu, hfront.1])]
    exact ih hfront.2

theorem isWellFormed_of_lt {text : JsString} (h : ∀ u ∈ text, u < 0xD800) :
    text.isWellFormed = true := by
  induction text with
  | nil => rfl
  | cons u text ih =>
    obtain ⟨hu, htext⟩ := List.forall_mem_cons.mp h
    have hscalar : isScalar u = true := by
      simp only [UInt16.lt_iff_toNat_lt, UInt16.reduceToNat] at hu
      simp only [isScalar, isHighSurrogate, isLowSurrogate, Bool.and_eq_true, Bool.not_eq_true',
        Bool.and_eq_false_iff, decide_eq_false_iff_not, UInt16.le_iff_toNat_le, UInt16.reduceToNat]
      omega
    rw [isWellFormed_cons hscalar]
    exact ih htext

theorem isWellFormed_of_printable {text : JsString} (h : ∀ u ∈ text, isPrintable u = true) :
    text.isWellFormed = true := by
  refine isWellFormed_of_lt fun u hu => ?_
  have hprintable := h u hu
  simp only [isPrintable, Bool.and_eq_true, decide_eq_true_eq, UInt16.lt_iff_toNat_lt,
    UInt16.reduceToNat] at hprintable
  simp only [UInt16.lt_iff_toNat_lt, UInt16.reduceToNat]
  omega

theorem isWellFormed_quoteUnits (text : JsString) : isWellFormed (quoteUnits text) = true := by
  have hunit : ∀ u, isWellFormed (quoteUnit u) = true := by
    intro u
    rcases quoteUnit_cases u with hprintable | ⟨hself, -, hhigh, hlow⟩
    · exact isWellFormed_of_printable hprintable
    · simp [hself, isWellFormed, hhigh, hlow]
  induction text using quoteUnits.induct with
  | case1 => rfl
  | case2 u => exact hunit u
  | case3 u v rest hpair ih =>
    have hboth := Bool.and_eq_true_iff.mp hpair
    rw [quoteUnits, if_pos hpair, isWellFormed_pair hboth.1 hboth.2]
    exact ih
  | case4 u v rest hpair ih =>
    rw [quoteUnits, if_neg hpair]
    exact isWellFormed_append (hunit u) ih

/-- What `JSON.stringify` writes is well formed, also where a string is not. -/
theorem isWellFormed_stringify {σ ν : Type*} (numerals : Numerals σ ν) (v : Value σ) :
    isWellFormed (stringify numerals.print v) = true :=
  @stringify_pieces _ _ numerals (fun units => isWellFormed units = true)
    (fun _ _ => isWellFormed_append)
    (fun _ h => isWellFormed_of_printable (List.all_eq_true.mp h)) isWellFormed_quoteUnits v

end DurableRunner.Schema.JsString
