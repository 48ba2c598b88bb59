import DurableRunner.Relational.Table
import Mathlib.Data.List.Induction

/-! # Values collected under their keys

A map from keys to the values pushed under them, which lists its keys in the
order in which they first appeared.
-/
namespace DurableRunner.Relational

abbrev Grouping (κ α : Type*) := Table (Prod.fst : κ × List α → κ)

namespace Grouping
variable {κ α : Type*} [DecidableEq κ]

def empty : Grouping κ α := ⟨[], List.nodup_nil⟩

def values (g : Grouping κ α) (k : κ) : Option (List α) := (g.find? k).map Prod.snd

def add (g : Grouping κ α) (k : κ) (as : List α) (h : g.find? k = none) : Grouping κ α where
  rows := g.rows ++ [(k, as)]
  nodup_keys := by
    rw [List.map_append, List.nodup_append]
    refine ⟨g.nodup_keys, List.nodup_singleton k, ?_⟩
    rintro _ hk' _ hk rfl
    obtain ⟨r, hr, rfl⟩ := List.mem_map.mp hk'
    have hkey : r.1 = k := List.mem_singleton.mp hk
    subst hkey
    exact absurd h (by simp [Table.mem_iff_find?.mp hr])

/-- Append a value to those of its key. -/
def push (g : Grouping κ α) (k : κ) (a : α) : Grouping κ α :=
  match h : g.find? k with
  | some r => g.set (k, r.2 ++ [a])
  | none => g.add k [a] h

/-- Every entry pushed under its key, in order. -/
def collect (entries : List (κ × α)) : Grouping κ α :=
  entries.foldl (fun g e => g.push e.1 e.2) empty

def valuesOf (entries : List (κ × α)) (k : κ) : List α :=
  (entries.filter fun e => e.1 = k).map Prod.snd

variable {g : Grouping κ α} {entries : List (κ × α)} {k : κ} {a : α}

theorem mem_valuesOf : a ∈ valuesOf entries k ↔ (k, a) ∈ entries := by
  constructor
  · intro h
    obtain ⟨⟨k', a'⟩, hmem, rfl⟩ := List.mem_map.mp h
    obtain ⟨hmem, hkey⟩ := List.mem_filter.mp hmem
    exact of_decide_eq_true hkey ▸ hmem
  · intro h
    exact List.mem_map.mpr ⟨(k, a), List.mem_filter.mpr ⟨h, decide_eq_true rfl⟩, rfl⟩

theorem valuesOf_concat (e : κ × α) :
    valuesOf (entries ++ [e]) k = valuesOf entries k ++ if e.1 = k then [e.2] else [] := by
  rw [valuesOf, List.filter_append, List.map_append]
  by_cases h : e.1 = k <;> simp [valuesOf, h]

theorem values_add {as : List α} (h : g.find? k = none) (k' : κ) :
    (g.add k as h).values k' = if k' = k then some as else g.values k' := by
  unfold values add Table.find?
  rw [List.find?_append]
  by_cases hk : k' = k
  · subst hk
    have hnone : g.rows.find? (fun r => r.1 = k') = none := h
    simp [hnone]
  · simp [hk, Ne.symm hk]

theorem values_push (k' : κ) : (g.push k a).values k' =
    if k' = k then some ((g.values k).getD [] ++ [a]) else g.values k' := by
  unfold push
  split
  · rename_i r hfind
    unfold values
    rw [Table.find?_set]
    by_cases hk : k' = k
    · subst hk
      simp [hfind]
    · simp [hk]
  · rename_i hfind
    rw [values_add]
    by_cases hk : k' = k
    · subst hk
      simp [values, hfind]
    · simp [hk]

theorem collect_concat (e : κ × α) :
    collect (entries ++ [e]) = (collect entries).push e.1 e.2 := by
  simp [collect, List.foldl_append]

theorem values_collect : (collect entries).values k =
    if valuesOf entries k = [] then none else some (valuesOf entries k) := by
  induction entries using List.reverseRecOn generalizing k with
  | nil => rfl
  | append_singleton entries e ih =>
    rw [collect_concat, values_push, valuesOf_concat, ih, ih]
    by_cases hk : e.1 = k
    · subst hk
      by_cases hnil : valuesOf entries e.1 = [] <;> simp [hnil]
    · simp [hk, Ne.symm hk]

theorem getD_values_collect : ((collect entries).values k).getD [] = valuesOf entries k := by
  rw [values_collect]
  split
  · rename_i hnil
    exact hnil.symm
  · rfl

theorem values_collect_eq_some {as : List α} :
    (collect entries).values k = some as ↔ as = valuesOf entries k ∧ as ≠ [] := by
  rw [values_collect]
  split
  · rename_i hnil
    simp only [reduceCtorEq, false_iff, not_and, not_not]
    rintro rfl
    exact hnil
  · rename_i hne
    rw [Option.some.injEq, eq_comm]
    exact ⟨fun h => ⟨h, h ▸ hne⟩, fun h => h.1⟩

theorem values_collect_eq_none : (collect entries).values k = none ↔ ∀ a, (k, a) ∉ entries := by
  rw [values_collect]
  split
  · rename_i hnil
    simp only [true_iff]
    intro a hmem
    simpa [hnil] using mem_valuesOf.mpr hmem
  · rename_i hne
    obtain ⟨a, ha⟩ := List.exists_mem_of_ne_nil _ hne
    simp only [reduceCtorEq, false_iff, not_forall, not_not]
    exact ⟨a, mem_valuesOf.mp ha⟩

theorem mem_rows_collect {as : List α} :
    (k, as) ∈ (collect entries).rows ↔ as = valuesOf entries k ∧ as ≠ [] := by
  rw [← values_collect_eq_some, Table.mem_iff_find?, values, Option.map_eq_some_iff]
  constructor
  · exact fun h => ⟨(k, as), h, rfl⟩
  · rintro ⟨⟨k', as'⟩, hfind, rfl⟩
    obtain rfl : k' = k := Table.key_of_find? hfind
    exact hfind

section Nodup
variable (h : (entries.map Prod.fst).Nodup)
include h

theorem valuesOf_of_nodup (hmem : (k, a) ∈ entries) : valuesOf entries k = [a] := by
  let t : Table (Prod.fst : κ × α → κ) := ⟨entries, h⟩
  have honly : ∀ e ∈ entries.filter (fun e => e.1 = k), e = (k, a) := by
    intro e he
    obtain ⟨he, hkey⟩ := List.mem_filter.mp he
    have hfind : t.find? k = some e := of_decide_eq_true hkey ▸ Table.mem_iff_find?.mp he
    have hfind' : t.find? k = some (k, a) := Table.mem_iff_find? (t := t) (r := (k, a)) |>.mp hmem
    exact Option.some.inj (hfind.symm.trans hfind')
  have hfiltered : entries.filter (fun e => e.1 = k) = [(k, a)] := by
    have hnodup : (entries.filter fun e => e.1 = k).Nodup := (List.Nodup.of_map _ h).filter _
    have hmem' : (k, a) ∈ entries.filter fun e => e.1 = k := List.mem_filter.mpr ⟨hmem, decide_eq_true rfl⟩
    exact List.perm_singleton.mp ((List.perm_ext_iff_of_nodup hnodup (List.nodup_singleton _)).mpr
      fun e => ⟨fun he => List.mem_singleton.mpr (honly e he), fun he => List.mem_singleton.mp he ▸ hmem'⟩)
  rw [valuesOf, hfiltered, List.map_singleton]

theorem rows_collect_of_nodup : (collect entries).rows = entries.map fun e => (e.1, [e.2]) := by
  induction entries using List.reverseRecOn with
  | nil => rfl
  | append_singleton entries e ih =>
    rw [List.map_append, List.nodup_append] at h
    obtain ⟨hentries, -, hfresh⟩ := h
    have hnone : (collect entries).find? e.1 = none := by
      have hvalues : (collect entries).values e.1 = none :=
        values_collect_eq_none.mpr fun a hmem =>
          hfresh e.1 (List.mem_map.mpr ⟨_, hmem, rfl⟩) e.1 (by simp) rfl
      simpa [values] using hvalues
    have hpush : ((collect entries).push e.1 e.2).rows = (collect entries).rows ++ [(e.1, [e.2])] := by
      unfold push
      split
      · rename_i r hsome
        rw [hnone] at hsome
        cases hsome
      · rfl
    rw [collect_concat, hpush, ih hentries, List.map_append, List.map_singleton]

end Nodup

/-- No key has two values exactly when no key was pushed under twice. -/
theorem nodup_iff : (entries.map Prod.fst).Nodup ↔
    ∀ r ∈ (collect entries).rows, r.2.length ≤ 1 := by
  constructor
  · intro h r hr
    rw [rows_collect_of_nodup h] at hr
    obtain ⟨e, -, rfl⟩ := List.mem_map.mp hr
    exact le_rfl
  · intro h
    rw [List.nodup_iff_count_le_one]
    intro k
    have hcount : (entries.map Prod.fst).count k = (valuesOf entries k).length := by
      rw [valuesOf, List.length_map, ← List.countP_eq_length_filter, List.count, List.countP_map]
      exact List.countP_congr fun e _ => by simp
    rw [hcount]
    by_cases hnil : valuesOf entries k = []
    · simp [hnil]
    · exact h (k, valuesOf entries k) (mem_rows_collect.mpr ⟨rfl, hnil⟩)

end Grouping
end DurableRunner.Relational
