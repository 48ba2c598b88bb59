import Mathlib.Algebra.Order.BigOperators.Group.List
import Mathlib.Algebra.Order.Group.Nat
import Mathlib.Algebra.Ring.Nat
import Mathlib.Data.List.Nodup
import Mathlib.Data.Option.Basic

/-! # Tables with a primary key

A table is a list of rows whose keys are distinct. Updates replace rows in
place, so the set of keys never changes.
-/
namespace DurableRunner.Relational

/-- Rows listed in storage order, no two of them with the same primary key. -/
@[ext] structure Table {ρ κ : Type*} (key : ρ → κ) where
  rows : List ρ
  nodup_keys : (rows.map key).Nodup

namespace Table
variable {ρ κ : Type*} [DecidableEq κ] {key : ρ → κ}

def find? (t : Table key) (k : κ) : Option ρ := t.rows.find? fun r => key r = k

/-- Overwrite the row that has the key of `r`; a table without one is unchanged. -/
def set (t : Table key) (r : ρ) : Table key where
  rows := t.rows.map fun x => if key x = key r then r else x
  nodup_keys := by
    have hkeys : (t.rows.map fun x => if key x = key r then r else x).map key =
        t.rows.map key := by
      rw [List.map_map]
      refine List.map_congr_left fun x _ => ?_
      by_cases h : key x = key r <;> simp [h]
    exact hkeys ▸ t.nodup_keys

def setAll (t : Table key) (rs : List ρ) : Table key := rs.foldl set t

theorem key_of_find? {t : Table key} {k : κ} {r : ρ} (h : t.find? k = some r) : key r = k := by
  simpa using List.find?_some h

theorem mem_of_find? {t : Table key} {k : κ} {r : ρ} (h : t.find? k = some r) : r ∈ t.rows :=
  List.mem_of_find?_eq_some h

private theorem find?_key_of_nodup {rows : List ρ} (hnd : (rows.map key).Nodup) {r : ρ}
    (hr : r ∈ rows) : rows.find? (fun x => key x = key r) = some r := by
  induction rows with
  | nil => cases hr
  | cons x rows ih =>
    obtain ⟨hx, hnd'⟩ := List.nodup_cons.mp hnd
    rcases List.mem_cons.mp hr with rfl | hr'
    · simp
    · have hne : key x ≠ key r := fun h => hx (h ▸ List.mem_map_of_mem hr')
      rw [List.find?_cons_of_neg (by simpa using hne)]
      exact ih hnd' hr'

theorem mem_iff_find? {t : Table key} {r : ρ} : r ∈ t.rows ↔ t.find? (key r) = some r :=
  ⟨find?_key_of_nodup t.nodup_keys, mem_of_find?⟩

private theorem find?_map_set (rows : List ρ) (r : ρ) (k : κ) :
    (rows.map fun x => if key x = key r then r else x).find? (fun x => key x = k) =
      if k = key r then (rows.find? fun x => key x = k).map fun _ => r
      else rows.find? fun x => key x = k := by
  induction rows with
  | nil => simp
  | cons x rows ih =>
    by_cases hx : key x = key r <;> by_cases hk : k = key r
    · subst hk; simp [hx]
    · have hxk : ¬ key x = k := fun h => hk (h ▸ hx)
      have hrk : ¬ key r = k := fun h => hk h.symm
      simpa [hx, hk, hrk] using ih
    · subst hk
      simpa [hx] using ih
    · by_cases hxk : key x = k
      · subst hxk; simp [hx]
      · simpa [hx, hk, hxk] using ih

theorem find?_set (t : Table key) (r : ρ) (k : κ) :
    (t.set r).find? k = if k = key r then (t.find? k).map fun _ => r else t.find? k :=
  find?_map_set t.rows r k

theorem find?_set_of_ne (t : Table key) {r : ρ} {k : κ} (h : k ≠ key r) :
    (t.set r).find? k = t.find? k := by
  rw [find?_set, if_neg h]

theorem find?_set_self (t : Table key) {r old : ρ} (h : t.find? (key r) = some old) :
    (t.set r).find? (key r) = some r := by
  rw [find?_set, if_pos rfl, h, Option.map_some]

@[simp] theorem setAll_nil (t : Table key) : t.setAll [] = t := rfl

@[simp] theorem setAll_cons (t : Table key) (r : ρ) (rs : List ρ) :
    t.setAll (r :: rs) = (t.set r).setAll rs := rfl

theorem find?_setAll_of_not_mem (t : Table key) {rs : List ρ} {k : κ}
    (h : k ∉ rs.map key) : (t.setAll rs).find? k = t.find? k := by
  induction rs generalizing t with
  | nil => rfl
  | cons r rs ih =>
    simp only [List.map_cons, List.mem_cons, not_or] at h
    rw [setAll_cons, ih _ h.2, find?_set_of_ne _ h.1]

theorem find?_setAll_of_mem (t : Table key) {rs : List ρ} (hnd : (rs.map key).Nodup) {r old : ρ}
    (hr : r ∈ rs) (hold : t.find? (key r) = some old) :
    (t.setAll rs).find? (key r) = some r := by
  induction rs generalizing t old with
  | nil => cases hr
  | cons x rs ih =>
    obtain ⟨hx, hnd'⟩ := List.nodup_cons.mp hnd
    rw [setAll_cons]
    rcases List.mem_cons.mp hr with rfl | hr'
    · rw [find?_setAll_of_not_mem _ hx]
      exact find?_set_self t hold
    · have hne : key r ≠ key x := fun h => hx (h ▸ List.mem_map_of_mem hr')
      exact ih _ hnd' hr' ((find?_set_of_ne t hne).trans hold)

/-- Rows never appear or disappear under an update. -/
theorem find?_setAll_isSome (t : Table key) (rs : List ρ) (k : κ) :
    ((t.setAll rs).find? k).isSome = (t.find? k).isSome := by
  induction rs generalizing t with
  | nil => rfl
  | cons r rs ih =>
    rw [setAll_cons, ih, find?_set]
    split <;> simp

theorem set_comm (t : Table key) {r r' : ρ} (h : key r ≠ key r') :
    (t.set r).set r' = (t.set r').set r := by
  refine Table.ext ?_
  simp only [set, List.map_map]
  refine List.map_congr_left fun x _ => ?_
  by_cases hx : key x = key r
  · have hx' : key x ≠ key r' := fun e => h (hx.symm.trans e)
    simp [hx, h]
  · by_cases hx' : key x = key r' <;> simp [hx, hx', Ne.symm h]

private theorem setAll_set_comm (t : Table key) {r : ρ} {rs : List ρ}
    (h : key r ∉ rs.map key) : (t.set r).setAll rs = (t.setAll rs).set r := by
  induction rs generalizing t with
  | nil => rfl
  | cons x rs ih =>
    simp only [List.map_cons, List.mem_cons, not_or] at h
    rw [setAll_cons, setAll_cons, set_comm t h.1, ih _ h.2]

/-- Updates of disjoint sets of rows commute. -/
theorem setAll_comm (t : Table key) {rs rs' : List ρ}
    (h : ∀ r ∈ rs, key r ∉ rs'.map key) :
    (t.setAll rs).setAll rs' = (t.setAll rs').setAll rs := by
  induction rs generalizing t with
  | nil => rfl
  | cons r rs ih =>
    rw [setAll_cons, ih _ (fun x hx => h x (List.mem_cons_of_mem r hx)),
      setAll_set_comm t (h r List.mem_cons_self), setAll_cons]

theorem exists_map_setAll (t : Table key) (rs : List ρ) :
    ∃ g : ρ → ρ, (t.setAll rs).rows = t.rows.map g ∧
      ∀ x ∈ t.rows, (t.setAll rs).find? (key x) = some (g x) := by
  have hmap : ∃ g : ρ → ρ, (∀ x, key (g x) = key x) ∧ (t.setAll rs).rows = t.rows.map g := by
    induction rs generalizing t with
    | nil => exact ⟨id, fun _ => rfl, by simp⟩
    | cons r rs ih =>
      obtain ⟨g, hkey, hrows⟩ := ih (t.set r)
      refine ⟨fun x => g (if key x = key r then r else x), fun x => ?_, ?_⟩
      · rw [hkey]
        split
        · rename_i hx
          exact hx.symm
        · rfl
      · rw [setAll_cons, hrows, set, List.map_map]
        rfl
  obtain ⟨g, hkey, hrows⟩ := hmap
  refine ⟨g, hrows, fun x hx => ?_⟩
  rw [← hkey x]
  exact mem_iff_find?.mp (hrows ▸ List.mem_map_of_mem hx)

section Sum
variable {t : Table key} {rs : List ρ} {μ : ρ → ℕ}
  (h : ∀ x ∈ t.rows, ∀ y, (t.setAll rs).find? (key x) = some y → μ y ≤ μ x)
include h

/-- What no row of an update gains, the table does not gain. -/
theorem sum_setAll_le : ((t.setAll rs).rows.map μ).sum ≤ (t.rows.map μ).sum := by
  obtain ⟨g, hrows, hfind⟩ := t.exists_map_setAll rs
  rw [hrows, List.map_map]
  exact List.sum_le_sum fun x hx => h x hx (g x) (hfind x hx)

/-- What one of its rows loses, the table loses. -/
theorem sum_setAll_lt {x y : ρ} (hx : x ∈ t.rows) (hy : (t.setAll rs).find? (key x) = some y)
    (hless : μ y < μ x) : ((t.setAll rs).rows.map μ).sum < (t.rows.map μ).sum := by
  obtain ⟨g, hrows, hfind⟩ := t.exists_map_setAll rs
  obtain rfl := Option.some.inj ((hfind x hx).symm.trans hy)
  rw [hrows, List.map_map]
  exact List.sum_lt_sum (μ ∘ g) μ (fun x hx => h x hx (g x) (hfind x hx)) ⟨x, hx, hless⟩

end Sum

end Table
end DurableRunner.Relational
