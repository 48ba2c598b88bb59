import DurableRunner.Schema.StepEvents

/-! # Where a UTF-16 text may be cut

Truncation cuts at a fixed code unit. The cut leaves a well-formed text exactly
when it does not fall between the two halves of a surrogate pair.
-/
namespace DurableRunner.Schema
namespace JsString

/-- Neither half of a surrogate pair. -/
def isScalar (u : UInt16) : Bool := !isHighSurrogate u && !isLowSurrogate u

theorem not_high_of_low {u : UInt16} (h : isLowSurrogate u = true) : isHighSurrogate u = false := by
  simp only [isLowSurrogate, Bool.and_eq_true, decide_eq_true_eq, UInt16.le_iff_toNat_le] at h
  simp only [isHighSurrogate, Bool.and_eq_false_iff, decide_eq_false_iff_not,
    UInt16.le_iff_toNat_le]
  have hbounds : (0xDBFF : UInt16).toNat < (0xDC00 : UInt16).toNat := by decide
  omega

theorem isWellFormed_cons {u : UInt16} (hu : isScalar u = true) (s : JsString) :
    isWellFormed (u :: s) = isWellFormed s := by
  simp only [isScalar, Bool.and_eq_true, Bool.not_eq_true'] at hu
  cases s <;> simp [isWellFormed, hu.1, hu.2]

theorem isWellFormed_pair {u v : UInt16} (hu : isHighSurrogate u = true)
    (hv : isLowSurrogate v = true) (s : JsString) :
    isWellFormed (u :: v :: s) = isWellFormed s := by
  simp [isWellFormed, hu, hv]

/-- UTF-8 carries a well-formed text as it is. -/
theorem toWellFormed_of_isWellFormed {s : JsString} (h : s.isWellFormed = true) :
    s.toWellFormed = s := by
  induction s using isWellFormed.induct with
  | case1 => rfl
  | case2 u =>
    simp only [isWellFormed, Bool.and_eq_true, Bool.not_eq_true'] at h
    simp [toWellFormed, h.1, h.2]
  | case3 u v rest hu ih =>
    simp only [isWellFormed, hu, ↓reduceIte, Bool.and_eq_true] at h
    simp [toWellFormed, hu, h.1, ih h.2]
  | case4 u v rest hu ih =>
    simp only [isWellFormed, hu, Bool.false_eq_true, ↓reduceIte, Bool.and_eq_true,
      Bool.not_eq_true'] at h
    simp [toWellFormed, hu, h.1, ih h.2]

/-- The code units of a text come in whole characters. -/
theorem isWellFormed_ofString (text : String) : (ofString text).isWellFormed = true := by
  unfold ofString
  induction text.toList with
  | nil => rfl
  | cons c rest ih =>
    have hvalid := c.valid
    simp only [UInt32.isValidChar, Nat.isValidChar] at hvalid
    have hval : c.toNat = c.val.toNat := rfl
    rw [List.flatMap_cons, ofChar]
    split
    · rename_i hbasic
      have hscalar : isScalar (UInt16.ofNat c.toNat) = true := by
        simp only [isScalar, isHighSurrogate, isLowSurrogate, Bool.and_eq_true, Bool.not_eq_true',
          Bool.and_eq_false_iff, decide_eq_false_iff_not, UInt16.le_iff_toNat_le,
          UInt16.toNat_ofNat']
        simp only [UInt16.reduceToNat]
        omega
      rw [List.singleton_append, isWellFormed_cons hscalar]
      exact ih
    · rename_i hastral
      have hhigh : isHighSurrogate (UInt16.ofNat (0xD800 + (c.toNat - 0x10000) / 0x400)) = true := by
        simp only [isHighSurrogate, Bool.and_eq_true, decide_eq_true_eq, UInt16.le_iff_toNat_le,
          UInt16.toNat_ofNat']
        simp only [UInt16.reduceToNat]
        omega
      have hlow : isLowSurrogate (UInt16.ofNat (0xDC00 + (c.toNat - 0x10000) % 0x400)) = true := by
        simp only [isLowSurrogate, Bool.and_eq_true, decide_eq_true_eq, UInt16.le_iff_toNat_le,
          UInt16.toNat_ofNat']
        simp only [UInt16.reduceToNat]
        omega
      rw [List.cons_append, List.singleton_append, isWellFormed_pair hhigh hlow]
      exact ih

/-- A prefix followed by one more ordinary code unit is well formed exactly when it
does not end in the first half of a pair. -/
theorem isWellFormed_take_concat {s : JsString} (h : s.isWellFormed = true) {e : UInt16}
    (he : isScalar e = true) (n : ℕ) :
    isWellFormed (s.take n ++ [e]) = true ↔
      ∀ u, (s.take n).getLast? = some u → isHighSurrogate u = false := by
  have hend : isWellFormed [e] = true := by rw [isWellFormed_cons he]; rfl
  induction s using isWellFormed.induct generalizing n with
  | case1 => simpa using hend
  | case2 u =>
    simp only [isWellFormed, Bool.and_eq_true, Bool.not_eq_true'] at h
    cases n with
    | zero => simpa using hend
    | succ n => simpa [isWellFormed_cons (u := u) (by simp [isScalar, h]), hend] using h.1
  | case3 u v rest hu ih =>
    simp only [isWellFormed, hu, ↓reduceIte, Bool.and_eq_true] at h
    match n with
    | 0 => simpa using hend
    | 1 =>
      -- the cut splits the pair
      simp only [isScalar, Bool.and_eq_true, Bool.not_eq_true'] at he
      simp [isWellFormed, hu, he.2]
    | n + 2 =>
      rw [List.take_succ_cons, List.take_succ_cons, List.cons_append, List.cons_append,
        isWellFormed_pair hu h.1]
      refine (ih h.2 n).trans ?_
      cases hrest : rest.take n with
      | nil => simp [not_high_of_low h.1]
      | cons x xs => simp [List.getLast?_cons_cons]
  | case4 u v rest hu ih =>
    simp only [isWellFormed, hu, Bool.false_eq_true, ↓reduceIte, Bool.and_eq_true,
      Bool.not_eq_true'] at h
    have hscalar : isScalar u = true := by simp [isScalar, hu, h.1]
    cases n with
    | zero => simpa using hend
    | succ n =>
      rw [List.take_succ_cons, List.cons_append, isWellFormed_cons hscalar]
      refine (ih h.2 n).trans ?_
      cases hrest : (v :: rest).take n with
      | nil => simp [hu]
      | cons x xs => simp [List.getLast?_cons_cons]

end JsString

/-- The cut of the event excerpt, if there is one, does not split a surrogate pair. -/
def CutKeepsPairs (error : JsString) : Prop :=
  error.length ≤ maxEventErrorLength ∨
    ∀ u, error[maxEventErrorLength - 2]? = some u → JsString.isHighSurrogate u = false

/-- The excerpt is the text itself if that fits. -/
theorem truncateEventError_of_fits {error : JsString} (h : error.length ≤ maxEventErrorLength) :
    truncateEventError error = error := if_pos h

theorem truncateEventError_of_long {error : JsString} (h : maxEventErrorLength < error.length) :
    truncateEventError error = error.take (maxEventErrorLength - 1) ++ [0x2026] :=
  if_neg (not_le.mpr h)

theorem truncateEventError_isWellFormed {error : JsString} (h : error.isWellFormed = true) :
    (truncateEventError error).isWellFormed = true ↔ CutKeepsPairs error := by
  unfold CutKeepsPairs
  rcases le_or_gt error.length maxEventErrorLength with hfits | hlong
  · rw [truncateEventError_of_fits hfits]
    simp [h, hfits]
  · rw [truncateEventError_of_long hlong, JsString.isWellFormed_take_concat h (by decide)]
    have hlast : (error.take (maxEventErrorLength - 1)).getLast? =
        error[maxEventErrorLength - 2]? := by
      have hin : maxEventErrorLength - 2 < error.length := by omega
      rw [List.getLast?_take, if_neg (by decide), show maxEventErrorLength - 1 - 1 =
        maxEventErrorLength - 2 from rfl, List.getElem?_eq_getElem hin]
      rfl
    rw [hlast]
    simp [not_le.mpr hlong]

end DurableRunner.Schema
