import DurableRunner.Relational.Table
import Mathlib.Data.List.Sort

/-! # Ordered selections

The rows of a table that satisfy a predicate, in the order of a relation that
decides between any two keys, and what an update leaves of such a selection.
-/
namespace DurableRunner.Relational

/-- What remains after the first `n` rows are removed by key. -/
theorem filter_not_mem_take {ρ κ : Type*} [DecidableEq κ] {key : ρ → κ} {rows : List ρ}
    (hnodup : (rows.map key).Nodup) (n : ℕ) :
    (rows.filter fun r => key r ∉ (rows.take n).map key) = rows.drop n := by
  induction rows generalizing n with
  | nil => simp
  | cons r rows ih =>
    cases n with
    | zero => simp
    | succ n =>
      obtain ⟨hr, hrest⟩ := List.nodup_cons.mp hnodup
      have hfirst : ∀ x ∈ rows, (key x ∉ ((r :: rows).take (n + 1)).map key) =
          (key x ∉ (rows.take n).map key) := by
        intro x hx
        have hne : key x ≠ key r := fun e => hr (e ▸ List.mem_map_of_mem hx)
        simp [hne]
      rw [List.filter_cons_of_neg (by simp), List.drop_succ_cons, ← ih hrest n]
      refine List.filter_congr fun x hx => ?_
      rw [decide_eq_decide]
      exact iff_of_eq (hfirst x hx)

namespace Table
variable {ρ κ : Type*} {key : ρ → κ}

/-- `select … where p order by le`. -/
def selection (t : Table key) (p : ρ → Bool) (le : ρ → ρ → Prop) [DecidableRel le] : List ρ :=
  (t.rows.filter p).insertionSort le

section
variable {t : Table key} {p : ρ → Bool} {le : ρ → ρ → Prop} [DecidableRel le]

theorem mem_selection {r : ρ} : r ∈ t.selection p le ↔ r ∈ t.rows ∧ p r = true := by
  rw [selection, List.mem_insertionSort, List.mem_filter]

theorem selection_nodup : ((t.selection p le).map key).Nodup := by
  have hperm := (List.perm_insertionSort le (t.rows.filter p)).map key
  exact hperm.nodup_iff.mpr ((List.filter_sublist.map _).nodup t.nodup_keys)

theorem selection_pairwise [Std.Total le] [IsTrans ρ le] : (t.selection p le).Pairwise le :=
  List.pairwise_insertionSort le _

end

variable [DecidableEq κ]

theorem eq_of_key {t : Table key} {r r' : ρ} (hr : r ∈ t.rows) (hr' : r' ∈ t.rows)
    (h : key r = key r') : r = r' :=
  Option.some.inj (((mem_iff_find?.mp hr).symm.trans (by rw [h])).trans (mem_iff_find?.mp hr'))

theorem mem_setAll_of_not_mem {t : Table key} {rs : List ρ} {r : ρ} (h : key r ∉ rs.map key) :
    r ∈ (t.setAll rs).rows ↔ r ∈ t.rows := by
  rw [mem_iff_find?, mem_iff_find?, find?_setAll_of_not_mem t h]

theorem mem_of_mem_setAll {t : Table key} {rs : List ρ} (hnodup : (rs.map key).Nodup) {r : ρ}
    (h : r ∈ (t.setAll rs).rows) (hkey : key r ∈ rs.map key) : r ∈ rs := by
  obtain ⟨x, hx, hkeyx⟩ := List.mem_map.mp hkey
  have hfind := mem_iff_find?.mp h
  have hpresent := find?_setAll_isSome t rs (key r)
  rw [hfind, Option.isSome_some] at hpresent
  obtain ⟨old, hold⟩ := Option.isSome_iff_exists.mp hpresent.symm
  rw [← hkeyx] at hfind hold
  have hlatest := find?_setAll_of_mem t hnodup hx hold
  obtain rfl := Option.some.inj (hlatest.symm.trans hfind)
  exact hx

/-- Updates that take their rows out of a selection leave the rest of it in the same order. -/
theorem selection_setAll (t : Table key) (p : ρ → Bool) (le : ρ → ρ → Prop) [DecidableRel le]
    [Std.Total le] [IsTrans ρ le] (hanti : ∀ a b, le a b → le b a → key a = key b) {rs : List ρ}
    (hnodup : (rs.map key).Nodup) (hgone : ∀ r ∈ rs, p r = false) :
    (t.setAll rs).selection p le =
      (t.selection p le).filter fun r => key r ∉ rs.map key := by
  have hmem : ∀ r, r ∈ (t.setAll rs).selection p le ↔
      r ∈ (t.selection p le).filter fun r => key r ∉ rs.map key := by
    intro r
    rw [mem_selection, List.mem_filter, mem_selection, decide_eq_true_eq]
    by_cases hkey : key r ∈ rs.map key
    · have habsent : ¬ (r ∈ (t.setAll rs).rows ∧ p r = true) := fun h => by
        have hpicked := hgone r (mem_of_mem_setAll hnodup h.1 hkey)
        rw [h.2] at hpicked
        cases hpicked
      simp [habsent, hkey]
    · rw [mem_setAll_of_not_mem hkey, and_iff_left hkey]
  refine List.Perm.eq_of_pairwise (fun a b ha hb hab hba => ?_) selection_pairwise
    (selection_pairwise.filter _)
    ((List.perm_ext_iff_of_nodup selection_nodup.of_map (selection_nodup.of_map.filter _)).mpr hmem)
  have hb' := (mem_selection.mp ((hmem b).mpr hb)).1
  exact eq_of_key (mem_selection.mp ha).1 hb' (hanti a b hab hba)

end Table
end DurableRunner.Relational
