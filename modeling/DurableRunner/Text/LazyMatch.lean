import Mathlib.Data.List.Infix
import Mathlib.Order.Basic

/-! # Delimited blocks of a text

A block runs from an opening marker to the first closing marker that leaves at
least one symbol between the two: the matches of `opening [\s\S]+? closing` in
a global search.
-/
namespace DurableRunner.Text

variable {α : Type*}

/-- The marker stands at position `p` of the text. -/
def OccursAt (marker text : List α) (p : ℕ) : Prop := marker <+: text.drop p

/-- A block opened at `s` runs to the closing marker at `q`. -/
structure Closes (opening closing text : List α) (s q : ℕ) : Prop where
  opens : OccursAt opening text s
  closes : OccursAt closing text q
  apart : s + opening.length < q
  first : ∀ q', s + opening.length < q' → q' < q → ¬OccursAt closing text q'

/-- What a search finds from a position on: blocks that do not overlap, and one over every
opening of a block. -/
structure Finds (opening closing text : List α) (start : ℕ) (spans : List (ℕ × ℕ)) : Prop where
  closes : ∀ span ∈ spans, start ≤ span.1 ∧ ∃ q, Closes opening closing text span.1 q ∧
    span.1 + span.2 = q + closing.length
  disjoint : spans.Pairwise fun span later => span.1 + span.2 ≤ later.1
  complete : ∀ o q, start ≤ o → Closes opening closing text o q →
    ∃ span ∈ spans, span.1 ≤ o ∧ o < span.1 + span.2

section Positions
variable {marker opening closing text : List α} {p i n s q q' : ℕ}

theorem occursAt_drop : OccursAt marker (text.drop p) i ↔ OccursAt marker text (p + i) := by
  rw [OccursAt, OccursAt, List.drop_drop]

theorem OccursAt.fits (h : OccursAt marker text p) (hne : marker ≠ []) :
    p + marker.length ≤ text.length := by
  have hle := h.length_le
  have hpos := List.length_pos_iff.mpr hne
  rw [List.length_drop] at hle
  omega

theorem occursAt_take (hne : marker ≠ []) :
    OccursAt marker (text.take n) i ↔ OccursAt marker text i ∧ i + marker.length ≤ n := by
  have hpos := List.length_pos_iff.mpr hne
  rw [OccursAt, OccursAt, List.drop_take, List.prefix_take_iff]
  refine and_congr_right fun _ => ?_
  omega

theorem Closes.unique (h : Closes opening closing text s q) (h' : Closes opening closing text s q') :
    q = q' := by
  rcases lt_trichotomy q q' with hlt | heq | hlt
  · exact absurd h.closes (h'.first q h.apart hlt)
  · exact heq
  · exact absurd h'.closes (h.first q' h'.apart hlt)

theorem exists_closes (hopens : OccursAt opening text s) (hcloses : OccursAt closing text q)
    (hapart : s + opening.length < q) : ∃ q', Closes opening closing text s q' ∧ q' ≤ q := by
  induction q using Nat.strong_induction_on with
  | _ q ih =>
    by_cases hfirst : ∃ q', s + opening.length < q' ∧ q' < q ∧ OccursAt closing text q'
    · obtain ⟨q', hbehind, hlt, hq'⟩ := hfirst
      obtain ⟨e, he, hle⟩ := ih q' hlt hq' hbehind
      exact ⟨e, he, hle.trans hlt.le⟩
    · refine ⟨q, ⟨hopens, hcloses, hapart, fun q' hbehind hlt hq' => ?_⟩, le_rfl⟩
      exact hfirst ⟨q', hbehind, hlt, hq'⟩

theorem drop_succ_of_cons {c : α} {cs : List α} (h : text.drop p = c :: cs) :
    text.drop (p + 1) = cs := by
  rw [← List.drop_drop, h]
  rfl

theorem Finds.weaken {spans : List (ℕ × ℕ)} {start later : ℕ}
    (h : Finds opening closing text later spans) (hle : start ≤ later)
    (hquiet : ∀ o q, start ≤ o → o < later → ¬Closes opening closing text o q) :
    Finds opening closing text start spans where
  closes span hspan := ⟨hle.trans (h.closes span hspan).1, (h.closes span hspan).2⟩
  disjoint := h.disjoint
  complete o q ho hq := by
    rcases lt_or_ge o later with hlt | hge
    · exact absurd hq (hquiet o q ho hlt)
    · exact h.complete o q hge hq

end Positions

variable [DecidableEq α]

instance (marker text : List α) : DecidablePred (OccursAt marker text) :=
  fun _ => inferInstanceAs (Decidable (_ <+: _))

def firstOccurrence (marker : List α) : List α → Option ℕ
  | [] => if marker = [] then some 0 else none
  | c :: cs => if marker <+: c :: cs then some 0 else (firstOccurrence marker cs).map (· + 1)

/-- The length of the block that the text starts with. -/
def lazyMatch (opening closing text : List α) : Option ℕ :=
  if opening <+: text then
    (firstOccurrence closing (text.drop (opening.length + 1))).map fun i =>
      opening.length + 1 + i + closing.length
  else none

/-- The global search from position `p` on, when the last match still covers the next
`covered` symbols: the position and the length of every match. -/
def lazySpans (opening closing : List α) : ℕ → ℕ → List α → List (ℕ × ℕ)
  | _, _, [] => []
  | p, covered + 1, _ :: cs => lazySpans opening closing (p + 1) covered cs
  | p, 0, c :: cs =>
    match lazyMatch opening closing (c :: cs) with
    | some n => (p, n) :: lazySpans opening closing (p + 1) (n - 1) cs
    | none => lazySpans opening closing (p + 1) 0 cs

def matchAll (opening closing text : List α) : List (List α) :=
  (lazySpans opening closing 0 0 text).map fun span => (text.drop span.1).take span.2

section Search
variable {marker opening closing text : List α} {p s q n covered : ℕ} {span : ℕ × ℕ}

theorem firstOccurrence_eq_some : firstOccurrence marker text = some q ↔
    OccursAt marker text q ∧ ∀ q' < q, ¬OccursAt marker text q' := by
  induction text generalizing q with
  | nil =>
    by_cases hempty : marker = []
    · subst hempty
      cases q with
      | zero => simp [firstOccurrence, OccursAt]
      | succ q => simpa [firstOccurrence, OccursAt] using ⟨0, by omega⟩
    · simp [firstOccurrence, OccursAt, hempty]
  | cons c cs ih =>
    by_cases hhere : marker <+: c :: cs
    · rw [firstOccurrence, if_pos hhere]
      cases q with
      | zero => simpa [OccursAt] using hhere
      | succ q => simpa using fun _ => ⟨0, by omega, hhere⟩
    · rw [firstOccurrence, if_neg hhere]
      cases q with
      | zero => simpa [OccursAt] using hhere
      | succ q =>
        simp only [Option.map_eq_some_iff, Nat.add_right_cancel_iff, exists_eq_right, ih]
        refine and_congr Iff.rfl ⟨fun hfirst q' hlt => ?_, fun hfirst q' hlt => ?_⟩
        · cases q' with
          | zero => exact hhere
          | succ q' => exact hfirst q' (Nat.lt_of_succ_lt_succ hlt)
        · exact hfirst (q' + 1) (Nat.succ_lt_succ hlt)

theorem firstOccurrence_eq_none (h : firstOccurrence marker text = none) (q : ℕ) :
    ¬OccursAt marker text q := by
  intro hq
  induction q using Nat.strong_induction_on with
  | _ q ih =>
    have hfirst := firstOccurrence_eq_some.mpr ⟨hq, fun q' hlt hq' => ih q' hlt hq'⟩
    rw [h] at hfirst
    cases hfirst

theorem lazyMatch_eq_some : lazyMatch opening closing (text.drop s) = some n ↔
    ∃ q, Closes opening closing text s q ∧ s + n = q + closing.length := by
  have hshift : ∀ i, s + (opening.length + 1) + i = s + opening.length + (i + 1) := by omega
  unfold lazyMatch
  split
  · rename_i hopens
    simp only [Option.map_eq_some_iff, firstOccurrence_eq_some, List.drop_drop, occursAt_drop, hshift]
    constructor
    · rintro ⟨i, ⟨hcloses, hfirst⟩, rfl⟩
      refine ⟨s + opening.length + (i + 1), ⟨hopens, hcloses, by omega, fun q' hbehind hlt => ?_⟩,
        by omega⟩
      have hq' : s + opening.length + (q' - (s + opening.length + 1) + 1) = q' := by omega
      have hnot := hfirst (q' - (s + opening.length + 1)) (by omega)
      rwa [hq'] at hnot
    · rintro ⟨q, hq, hn⟩
      have hapart := hq.apart
      have hpos : s + opening.length + (q - (s + opening.length + 1) + 1) = q := by omega
      refine ⟨q - (s + opening.length + 1), ⟨hpos.symm ▸ hq.closes, fun i hlt => ?_⟩, by omega⟩
      exact hq.first _ (by omega) (by omega)
  · rename_i hopens
    simp only [reduceCtorEq, false_iff, not_exists, not_and]
    exact fun q hq => absurd hq.opens hopens

theorem lazyMatch_eq_none (h : lazyMatch opening closing (text.drop s) = none) (q : ℕ) :
    ¬Closes opening closing text s q := by
  intro hq
  have hsome : lazyMatch opening closing (text.drop s) = some (q + closing.length - s) :=
    lazyMatch_eq_some.mpr ⟨q, hq, by have := hq.apart; omega⟩
  rw [h] at hsome
  cases hsome

theorem Finds.cons {spans : List (ℕ × ℕ)} (h : Finds opening closing text (s + n) spans)
    (hmatch : lazyMatch opening closing (text.drop s) = some n) :
    Finds opening closing text s ((s, n) :: spans) where
  closes span hspan := by
    rcases List.mem_cons.mp hspan with rfl | hspan
    · exact ⟨le_rfl, lazyMatch_eq_some.mp hmatch⟩
    · exact ⟨(Nat.le_add_right s n).trans (h.closes span hspan).1, (h.closes span hspan).2⟩
  disjoint := List.pairwise_cons.mpr ⟨fun later hlater => (h.closes later hlater).1, h.disjoint⟩
  complete o q ho hq := by
    rcases lt_or_ge o (s + n) with hlt | hge
    · exact ⟨(s, n), List.mem_cons_self, ho, hlt⟩
    · obtain ⟨span, hspan, hcovers⟩ := h.complete o q hge hq
      exact ⟨span, List.mem_cons_of_mem _ hspan, hcovers⟩

/-- Every match is a block, matches do not overlap, and a block that is no match begins inside
one. -/
theorem finds_lazySpans (hopening : opening ≠ []) (p covered : ℕ) {rest : List α}
    (hrest : text.drop p = rest) :
    Finds opening closing text (p + covered) (lazySpans opening closing p covered rest) := by
  induction rest generalizing p covered with
  | nil =>
    refine ⟨by simp [lazySpans], List.Pairwise.nil, fun o q ho hq => ?_⟩
    have hend := hq.opens.fits hopening
    have hpos := List.length_pos_iff.mpr hopening
    have hlong := List.drop_eq_nil_iff.mp hrest
    omega
  | cons c cs ih =>
    have hnext := drop_succ_of_cons hrest
    cases covered with
    | succ covered =>
      rw [lazySpans, Nat.add_comm covered 1, ← Nat.add_assoc]
      exact ih (p + 1) covered hnext
    | zero =>
      rw [lazySpans]
      split
      · rename_i n hmatch
        rw [← hrest] at hmatch
        obtain ⟨q, hq, hn⟩ := lazyMatch_eq_some.mp hmatch
        have hlength : p + 1 + (n - 1) = p + n := by
          have hapart := hq.apart
          omega
        exact Finds.cons (hlength ▸ ih (p + 1) (n - 1) hnext) hmatch
      · rename_i hmatch
        rw [← hrest] at hmatch
        refine (ih (p + 1) 0 hnext).weaken (by omega) fun o q ho hlt => ?_
        obtain rfl : o = p := by omega
        exact lazyMatch_eq_none hmatch q

theorem finds_matches (hopening : opening ≠ []) (text : List α) :
    Finds opening closing text 0 (lazySpans opening closing 0 0 text) :=
  finds_lazySpans hopening 0 0 rfl

end Search
end DurableRunner.Text
