import Mathlib.Data.List.Sort
import Mathlib.Data.Prod.Lex

/-! # Append-only tables under concurrent writers

A row carries the id of the transaction that inserted it and a number drawn
from a sequence at that moment. It becomes visible when its transaction
commits, in an order that is neither of the two.
-/
namespace DurableRunner.Relational

/-- The committed and uncommitted rows, and the transactions that hold an xid. -/
@[ext] structure CommitLog (ρ : Type*) where
  nextXid : ℕ
  nextId : ℕ
  running : List ℕ
  pending : List ρ
  /-- In commit order. -/
  committed : List ρ

inductive Write (ρ : Type*) where
  | begin
  | insert (row : ρ)
  | commit (xid : ℕ)
  | abort (xid : ℕ)

namespace CommitLog
variable {ρ : Type*} (xid id : ρ → ℕ) (maxId : ℕ)

/-- One action of one writer. The sequence ends at `maxId`. -/
def write (l : CommitLog ρ) : Write ρ → Option (CommitLog ρ)
  | .begin => some { l with nextXid := l.nextXid + 1, running := l.running ++ [l.nextXid] }
  | .insert row =>
    if xid row ∈ l.running ∧ id row = l.nextId ∧ l.nextId ≤ maxId then
      some { l with nextId := l.nextId + 1, pending := l.pending ++ [row] }
    else none
  | .commit x =>
    if x ∈ l.running then
      some { l with
        running := l.running.filter (· ≠ x)
        pending := l.pending.filter (xid · ≠ x)
        committed := l.committed ++ l.pending.filter (xid · = x) }
    else none
  | .abort x =>
    if x ∈ l.running then
      some { l with
        running := l.running.filter (· ≠ x)
        pending := l.pending.filter (xid · ≠ x) }
    else none

def empty (nextXid nextId : ℕ) : CommitLog ρ := ⟨nextXid, nextId, [], [], []⟩

/-- The oldest running transaction, or the next one if none is running. -/
def xmin (l : CommitLog ρ) : ℕ := l.running.foldr min l.nextXid

/-- The total order in which the table is read. -/
def key (row : ρ) : ℕ ×ₗ ℕ := toLex (xid row, id row)

def Precedes (r r' : ρ) : Prop := key xid id r ≤ key xid id r'

instance : DecidableRel (Precedes xid id) := fun r r' =>
  inferInstanceAs (Decidable (key xid id r ≤ key xid id r'))

instance : Std.Total (Precedes xid id) := ⟨fun r r' => le_total (key xid id r) (key xid id r')⟩

instance : IsTrans ρ (Precedes xid id) := ⟨fun _ _ _ => le_trans⟩

/-- What one snapshot shows of the rows behind a position and below the watermark. -/
def visible (l : CommitLog ρ) (keep : ρ → Bool) (after : ℕ ×ₗ ℕ) : List ρ :=
  (l.committed.filter fun r =>
    xid r < l.xmin ∧ after < key xid id r ∧ keep r).insertionSort (Precedes xid id)

def lastKey (after : ℕ ×ₗ ℕ) (page : List ρ) : ℕ ×ₗ ℕ :=
  (page.getLast?.map (key xid id)).getD after

theorem lt_xmin_iff {l : CommitLog ρ} {x : ℕ} :
    x < l.xmin ↔ x < l.nextXid ∧ ∀ y ∈ l.running, x < y := by
  unfold xmin
  induction l.running with
  | nil => simp
  | cons y ys ih =>
    rw [List.foldr_cons, Nat.lt_min, ih, List.forall_mem_cons]
    exact and_left_comm

/-- The bookkeeping of xids and ids. -/
structure Sound (l : CommitLog ρ) : Prop where
  started : 0 < l.nextXid
  running : ∀ x ∈ l.running, 0 < x ∧ x < l.nextXid
  pending : ∀ r ∈ l.pending, xid r ∈ l.running ∧ id r < l.nextId
  committed : ∀ r ∈ l.committed,
    0 < xid r ∧ xid r < l.nextXid ∧ xid r ∉ l.running ∧ id r < l.nextId
  distinct : ((l.committed ++ l.pending).map id).Nodup

theorem Sound.empty {nextXid nextId : ℕ} (h : 0 < nextXid) :
    Sound xid id (empty nextXid nextId) where
  started := h
  running := nofun
  pending := nofun
  committed := nofun
  distinct := List.nodup_nil

variable {xid id maxId}

theorem Sound.write {l l' : CommitLog ρ} {a : Write ρ} (h : Sound xid id l)
    (hwrite : l.write xid id maxId a = some l') : Sound xid id l' := by
  cases a with
  | begin =>
    obtain rfl := Option.some.inj hwrite
    refine ⟨Nat.succ_pos _, fun x hx => ?_, fun r hr => ?_, fun r hr => ?_, h.distinct⟩
    · rcases List.mem_append.mp hx with hx | hx
      · exact ⟨(h.running x hx).1, Nat.lt_succ_of_lt (h.running x hx).2⟩
      · obtain rfl := List.mem_singleton.mp hx
        exact ⟨h.started, Nat.lt_succ_self _⟩
    · exact ⟨List.mem_append_left _ (h.pending r hr).1, (h.pending r hr).2⟩
    · obtain ⟨hpos, hlt, hdone, hid⟩ := h.committed r hr
      refine ⟨hpos, Nat.lt_succ_of_lt hlt, fun hmem => ?_, hid⟩
      rcases List.mem_append.mp hmem with hmem | hmem
      · exact hdone hmem
      · exact hlt.ne (List.mem_singleton.mp hmem)
  | insert row =>
    simp only [CommitLog.write, Option.ite_none_right_eq_some, Option.some.injEq] at hwrite
    obtain ⟨⟨hrunning, hid, -⟩, rfl⟩ := hwrite
    refine ⟨h.started, h.running, fun r hr => ?_, fun r hr => ?_, ?_⟩
    · rcases List.mem_append.mp hr with hr | hr
      · exact ⟨(h.pending r hr).1, Nat.lt_succ_of_lt (h.pending r hr).2⟩
      · obtain rfl := List.mem_singleton.mp hr
        exact ⟨hrunning, hid ▸ Nat.lt_succ_self _⟩
    · obtain ⟨hpos, hlt, hdone, hid⟩ := h.committed r hr
      exact ⟨hpos, hlt, hdone, Nat.lt_succ_of_lt hid⟩
    · rw [← List.append_assoc, List.map_append, List.map_singleton]
      refine List.Nodup.append h.distinct (List.nodup_singleton _) ?_
      rw [List.disjoint_singleton]
      intro hmem
      obtain ⟨r, hr, hsame⟩ := List.mem_map.mp hmem
      have hlt : id r < l.nextId := by
        rcases List.mem_append.mp hr with hr | hr
        · exact (h.committed r hr).2.2.2
        · exact (h.pending r hr).2
      exact hlt.ne (hsame.trans hid)
  | commit x =>
    simp only [CommitLog.write, Option.ite_none_right_eq_some, Option.some.injEq] at hwrite
    obtain ⟨hrunning, rfl⟩ := hwrite
    refine ⟨h.started, fun y hy => h.running y (List.mem_of_mem_filter hy), fun r hr => ?_,
      fun r hr => ?_, ?_⟩
    · obtain ⟨hr, hne⟩ := List.mem_filter.mp hr
      exact ⟨List.mem_filter.mpr ⟨(h.pending r hr).1, hne⟩, (h.pending r hr).2⟩
    · rcases List.mem_append.mp hr with hr | hr
      · obtain ⟨hpos, hlt, hdone, hid⟩ := h.committed r hr
        exact ⟨hpos, hlt, fun hmem => hdone (List.mem_of_mem_filter hmem), hid⟩
      · obtain ⟨hpending, heq⟩ := List.mem_filter.mp hr
        obtain rfl := of_decide_eq_true heq
        obtain ⟨hpos, hlt⟩ := h.running _ hrunning
        exact ⟨hpos, hlt, by simp, (h.pending r hpending).2⟩
    · refine (List.Perm.map id ?_).nodup_iff.mpr h.distinct
      rw [List.append_assoc]
      refine (List.Perm.append_left _ ?_)
      simpa using List.filter_append_perm (fun r => decide (xid r = x)) l.pending
  | abort x =>
    simp only [CommitLog.write, Option.ite_none_right_eq_some, Option.some.injEq] at hwrite
    obtain ⟨hrunning, rfl⟩ := hwrite
    refine ⟨h.started, fun y hy => h.running y (List.mem_of_mem_filter hy), fun r hr => ?_,
      fun r hr => ?_, ?_⟩
    · obtain ⟨hr, hne⟩ := List.mem_filter.mp hr
      exact ⟨List.mem_filter.mpr ⟨(h.pending r hr).1, hne⟩, (h.pending r hr).2⟩
    · obtain ⟨hpos, hlt, hdone, hid⟩ := h.committed r hr
      exact ⟨hpos, hlt, fun hmem => hdone (List.mem_of_mem_filter hmem), hid⟩
    · exact h.distinct.sublist ((List.filter_sublist.append_left _).map id)

/-- Ids lie between the start and the end of the sequence. -/
structure InRange (id : ρ → ℕ) (minId maxId : ℕ) (l : CommitLog ρ) : Prop where
  next : minId ≤ l.nextId
  rows : ∀ r ∈ l.committed ++ l.pending, minId ≤ id r ∧ id r ≤ maxId

theorem InRange.write {minId : ℕ} {l l' : CommitLog ρ} {a : Write ρ} (h : InRange id minId maxId l)
    (hwrite : l.write xid id maxId a = some l') : InRange id minId maxId l' := by
  cases a with
  | begin =>
    obtain rfl := Option.some.inj hwrite
    exact ⟨h.next, h.rows⟩
  | insert row =>
    simp only [CommitLog.write, Option.ite_none_right_eq_some, Option.some.injEq] at hwrite
    obtain ⟨⟨-, hid, hmax⟩, rfl⟩ := hwrite
    refine ⟨Nat.le_succ_of_le h.next, fun r hr => ?_⟩
    rw [← List.append_assoc] at hr
    rcases List.mem_append.mp hr with hr | hr
    · exact h.rows r hr
    · obtain rfl := List.mem_singleton.mp hr
      exact ⟨hid ▸ h.next, hid ▸ hmax⟩
  | commit x =>
    simp only [CommitLog.write, Option.ite_none_right_eq_some, Option.some.injEq] at hwrite
    obtain ⟨-, rfl⟩ := hwrite
    refine ⟨h.next, fun r hr => h.rows r ?_⟩
    rw [List.append_assoc] at hr
    rcases List.mem_append.mp hr with hr | hr
    · exact List.mem_append_left _ hr
    · refine List.mem_append_right _ ?_
      rcases List.mem_append.mp hr with hr | hr <;> exact List.mem_of_mem_filter hr
  | abort x =>
    simp only [CommitLog.write, Option.ite_none_right_eq_some, Option.some.injEq] at hwrite
    obtain ⟨-, rfl⟩ := hwrite
    refine ⟨h.next, fun r hr => h.rows r ?_⟩
    rcases List.mem_append.mp hr with hr | hr
    · exact List.mem_append_left _ hr
    · exact List.mem_append_right _ (List.mem_of_mem_filter hr)

/-- What is below the watermark is final: later states add nothing there. -/
structure Settles (xid : ρ → ℕ) (l l' : CommitLog ρ) : Prop where
  grows : l.committed <+: l'.committed
  advances : l.xmin ≤ l'.xmin
  final : ∀ r ∈ l'.committed, xid r < l.xmin → r ∈ l.committed

theorem Settles.refl (l : CommitLog ρ) : Settles xid l l :=
  ⟨List.prefix_rfl, le_refl _, fun _ hr _ => hr⟩

theorem Settles.trans {l l' l'' : CommitLog ρ} (h : Settles xid l l') (h' : Settles xid l' l'') :
    Settles xid l l'' where
  grows := h.grows.trans h'.grows
  advances := h.advances.trans h'.advances
  final r hr hlt := h.final r (h'.final r hr (hlt.trans_le h.advances)) hlt

theorem xmin_le_of_running {l : CommitLog ρ} {x : ℕ} (hx : x ∈ l.running) : l.xmin ≤ x := by
  by_contra hlt
  exact (lt_self_iff_false x).mp ((lt_xmin_iff.mp (not_le.mp hlt)).2 x hx)

theorem xmin_le_of_subset {l l' : CommitLog ρ} (hnext : l.nextXid ≤ l'.nextXid)
    (hrunning : ∀ x ∈ l'.running, x ∈ l.running ∨ l.nextXid ≤ x) : l.xmin ≤ l'.xmin := by
  by_contra hlt
  have hmin := lt_xmin_iff.mp (not_le.mp hlt)
  refine absurd (lt_xmin_iff.mpr ⟨hmin.1.trans_le hnext, fun y hy => ?_⟩) (lt_irrefl _)
  rcases hrunning y hy with hold | hnew
  · exact hmin.2 y hold
  · exact hmin.1.trans_le hnew

theorem Settles.write {l l' : CommitLog ρ} {a : Write ρ}
    (hwrite : l.write xid id maxId a = some l') : Settles xid l l' := by
  cases a with
  | begin =>
    obtain rfl := Option.some.inj hwrite
    refine ⟨List.prefix_rfl, xmin_le_of_subset (Nat.le_succ _) fun x hx => ?_, fun r hr _ => hr⟩
    exact (List.mem_append.mp hx).imp_right fun hx => (List.mem_singleton.mp hx).ge
  | insert row =>
    simp only [CommitLog.write, Option.ite_none_right_eq_some, Option.some.injEq] at hwrite
    obtain ⟨-, rfl⟩ := hwrite
    exact ⟨List.prefix_rfl, le_refl _, fun r hr _ => hr⟩
  | commit x =>
    simp only [CommitLog.write, Option.ite_none_right_eq_some, Option.some.injEq] at hwrite
    obtain ⟨hrunning, rfl⟩ := hwrite
    refine ⟨List.prefix_append _ _,
      xmin_le_of_subset (le_refl _) fun y hy => .inl (List.mem_of_mem_filter hy),
      fun r hr hlt => ?_⟩
    rcases List.mem_append.mp hr with hr | hr
    · exact hr
    · have hx : xid r = x := of_decide_eq_true (List.mem_filter.mp hr).2
      exact absurd (xmin_le_of_running (hx ▸ hrunning)) (not_le.mpr hlt)
  | abort x =>
    simp only [CommitLog.write, Option.ite_none_right_eq_some, Option.some.injEq] at hwrite
    obtain ⟨-, rfl⟩ := hwrite
    exact ⟨List.prefix_rfl,
      xmin_le_of_subset (le_refl _) fun y hy => .inl (List.mem_of_mem_filter hy),
      fun r hr _ => hr⟩

section Pages
variable {l l' : CommitLog ρ} {keep : ρ → Bool} {cursor : ℕ ×ₗ ℕ} {received page : List ρ}

theorem mem_visible {r : ρ} : r ∈ l.visible xid id keep cursor ↔
    r ∈ l.committed ∧ xid r < l.xmin ∧ cursor < key xid id r ∧ keep r = true := by
  simp [visible]

theorem Sound.key_injOn (h : Sound xid id l) {r r' : ρ} (hr : r ∈ l.committed)
    (hr' : r' ∈ l.committed) (he : key xid id r = key xid id r') : r = r' := by
  have hnodup : (l.committed.map id).Nodup := h.distinct.sublist (by simp)
  exact List.inj_on_of_nodup_map hnodup hr hr' (congrArg (fun k => (ofLex k).2) he)

theorem Sound.sorted_filter (h : Sound xid id l) (p : ρ → Bool) :
    ((l.committed.filter p).insertionSort (Precedes xid id)).Pairwise fun r r' =>
      key xid id r < key xid id r' := by
  have hordered := List.pairwise_insertionSort (Precedes xid id) (l.committed.filter p)
  have hperm := List.perm_insertionSort (Precedes xid id) (l.committed.filter p)
  have hnodup : ((l.committed.filter p).insertionSort (Precedes xid id)).Nodup := by
    refine hperm.nodup_iff.mpr (List.Nodup.filter _ ?_)
    exact List.Nodup.of_map id (h.distinct.sublist (by simp))
  refine (hordered.and hnodup).imp_of_mem fun {r r'} hr hr' hlt => ?_
  have hsame := h.key_injOn (List.mem_of_mem_filter (hperm.mem_iff.mp hr))
    (List.mem_of_mem_filter (hperm.mem_iff.mp hr'))
  exact lt_of_le_of_ne hlt.1 fun he => hlt.2 (hsame he)

theorem Sound.visible_sorted (h : Sound xid id l) :
    (l.visible xid id keep cursor).Pairwise fun r r' => key xid id r < key xid id r' :=
  h.sorted_filter _

/-- The reader has received exactly the rows up to its position, and everything
there is final. -/
structure Abreast (xid id : ρ → ℕ) (l : CommitLog ρ) (keep : ρ → Bool) (cursor : ℕ ×ₗ ℕ)
    (received : List ρ) : Prop where
  settled : (ofLex cursor).1 < l.xmin
  sorted : received.Pairwise fun r r' => key xid id r < key xid id r'
  complete : ∀ r, r ∈ received ↔ r ∈ l.committed ∧ keep r = true ∧ key xid id r ≤ cursor

theorem Abreast.first (h : Sound xid id l) : Abreast xid id l keep (toLex (0, 0)) [] where
  settled := lt_xmin_iff.mpr ⟨h.started, fun x hx => (h.running x hx).1⟩
  sorted := List.Pairwise.nil
  complete r := by
    refine ⟨nofun, fun ⟨hr, _, hle⟩ => absurd hle (not_le.mpr ?_)⟩
    exact Prod.Lex.toLex_lt_toLex.mpr (.inl (h.committed r hr).1)

theorem xid_le_of_key_le {r : ρ} (h : key xid id r ≤ cursor) : xid r ≤ (ofLex cursor).1 := by
  rcases Prod.Lex.le_iff.mp h with hlt | ⟨heq, -⟩
  · exact hlt.le
  · exact heq.le

/-- Writers never add anything at or below the reader's position. -/
theorem Abreast.settles (h : Abreast xid id l keep cursor received) (hs : Settles xid l l') :
    Abreast xid id l' keep cursor received where
  settled := h.settled.trans_le hs.advances
  sorted := h.sorted
  complete r := by
    rw [h.complete]
    refine ⟨fun ⟨hr, hkeep, hle⟩ => ⟨hs.grows.subset hr, hkeep, hle⟩, fun ⟨hr, hkeep, hle⟩ => ?_⟩
    exact ⟨hs.final r hr ((xid_le_of_key_le hle).trans_lt h.settled), hkeep, hle⟩

theorem Abreast.received_of_later (h : Abreast xid id l keep cursor received)
    (hs : Settles xid l l') {r : ρ} (hr : r ∈ l'.committed) (hkeep : keep r = true)
    (hle : key xid id r ≤ cursor) : r ∈ received :=
  ((h.settles hs).complete r).mpr ⟨hr, hkeep, hle⟩

/-- Receiving any first part of what a snapshot shows moves the reader to its end. -/
theorem Abreast.append (h : Abreast xid id l keep cursor received) (hsound : Sound xid id l)
    (hpage : page <+: l.visible xid id keep cursor) :
    Abreast xid id l keep (lastKey xid id cursor page) (received ++ page) := by
  have hvisible : ∀ r ∈ page, r ∈ l.visible xid id keep cursor := hpage.subset
  have hsorted := hsound.visible_sorted.sublist hpage.sublist
  obtain ⟨rest, hrest⟩ := hpage
  rcases List.eq_nil_or_concat' page with rfl | ⟨front, last, rfl⟩
  · simpa [lastKey] using h
  · have hkey : lastKey xid id cursor (front ++ [last]) = key xid id last := by simp [lastKey]
    have hlast : last ∈ front ++ [last] := by simp
    obtain ⟨-, hsettled, hbehind, -⟩ := mem_visible.mp (hvisible last hlast)
    rw [hkey]
    refine ⟨hsettled, ?_, fun r => ⟨fun hr => ?_, fun ⟨hr, hkeep, hle⟩ => ?_⟩⟩
    · refine List.pairwise_append.mpr ⟨h.sorted, hsorted, fun r hr r' hr' => ?_⟩
      exact ((h.complete r).mp hr).2.2.trans_lt (mem_visible.mp (hvisible r' hr')).2.2.1
    · rcases List.mem_append.mp hr with hr | hr
      · obtain ⟨hcommitted, hkeep, hle⟩ := (h.complete r).mp hr
        exact ⟨hcommitted, hkeep, hle.trans hbehind.le⟩
      · obtain ⟨hcommitted, -, -, hkeep⟩ := mem_visible.mp (hvisible r hr)
        refine ⟨hcommitted, hkeep, ?_⟩
        rcases List.mem_append.mp hr with hfront | hend
        · exact ((List.pairwise_append.mp hsorted).2.2 r hfront last (by simp)).le
        · rw [List.mem_singleton.mp hend]
    · by_cases hold : key xid id r ≤ cursor
      · exact List.mem_append_left _ ((h.complete r).mpr ⟨hr, hkeep, hold⟩)
      · have hshown : r ∈ l.visible xid id keep cursor :=
          mem_visible.mpr ⟨hr, (xid_le_of_key_le hle).trans_lt hsettled, not_le.mp hold, hkeep⟩
        rw [← hrest] at hshown
        rcases List.mem_append.mp hshown with hpage | hlater
        · exact List.mem_append_right _ hpage
        · have hwhole : (l.visible xid id keep cursor).Pairwise fun r r' =>
              key xid id r < key xid id r' := hsound.visible_sorted
          rw [← hrest] at hwhole
          have hbeyond := (List.pairwise_append.mp hwhole).2.2 last hlast r hlater
          exact absurd hle (not_le.mpr hbeyond)

/-- A reader that has received everything a snapshot shows is up to the watermark. -/
theorem Abreast.caught_up (h : Abreast xid id l keep cursor received) {r : ρ}
    (hr : r ∈ l.committed) (hkeep : keep r = true) (hlt : xid r < l.xmin) :
    r ∈ received ++ l.visible xid id keep cursor := by
  by_cases hold : key xid id r ≤ cursor
  · exact List.mem_append_left _ ((h.complete r).mpr ⟨hr, hkeep, hold⟩)
  · exact List.mem_append_right _ (mem_visible.mpr ⟨hr, hlt, not_le.mp hold, hkeep⟩)

theorem Abreast.back (h : Abreast xid id l keep cursor (received ++ page)) (hsound : Sound xid id l) :
    Abreast xid id l keep (lastKey xid id (toLex (0, 0)) received) received := by
  obtain ⟨hreceived, -, hbefore⟩ := List.pairwise_append.mp h.sorted
  rcases List.eq_nil_or_concat' received with rfl | ⟨front, last, rfl⟩
  · exact .first hsound
  · have hkey : lastKey xid id (toLex (0, 0)) (front ++ [last]) = key xid id last := by
      simp [lastKey]
    obtain ⟨hlast, -, hle⟩ := (h.complete last).mp (by simp)
    rw [hkey]
    refine ⟨(xid_le_of_key_le hle).trans_lt h.settled, hreceived, fun r => ⟨fun hr => ?_,
      fun ⟨hr, hkeep, hler⟩ => ?_⟩⟩
    · obtain ⟨hcommitted, hkeep, -⟩ := (h.complete r).mp (List.mem_append_left _ hr)
      refine ⟨hcommitted, hkeep, ?_⟩
      rcases List.mem_append.mp hr with hfront | hend
      · exact ((List.pairwise_append.mp hreceived).2.2 r hfront last (by simp)).le
      · rw [List.mem_singleton.mp hend]
    · rcases List.mem_append.mp ((h.complete r).mpr ⟨hr, hkeep, hler.trans hle⟩) with hmem | hmem
      · exact hmem
      · exact absurd hler (not_le.mpr (hbefore last (by simp) r hmem))

/-- Up to a position, a sorted list is a first part of itself. -/
theorem mem_takeWhile_key {rows : List ρ}
    (hsorted : rows.Pairwise fun r r' => key xid id r < key xid id r') (r : ρ) :
    r ∈ rows.takeWhile (fun r => key xid id r ≤ cursor) ↔ r ∈ rows ∧ key xid id r ≤ cursor := by
  induction rows with
  | nil => simp
  | cons a rows ih =>
    obtain ⟨ha, hrest⟩ := List.pairwise_cons.mp hsorted
    by_cases hle : key xid id a ≤ cursor
    · rw [List.takeWhile_cons_of_pos (by simpa using hle), List.mem_cons, List.mem_cons, ih hrest]
      constructor
      · rintro (rfl | ⟨hr, hler⟩)
        · exact ⟨.inl rfl, hle⟩
        · exact ⟨.inr hr, hler⟩
      · rintro ⟨rfl | hr, hler⟩
        · exact .inl rfl
        · exact .inr ⟨hr, hler⟩
    · rw [List.takeWhile_cons_of_neg (by simpa using hle)]
      refine ⟨nofun, fun ⟨hr, hler⟩ => absurd hler (not_le.mpr ?_)⟩
      rcases List.mem_cons.mp hr with rfl | hr
      · exact not_le.mp hle
      · exact (not_le.mp hle).trans (ha r hr)

def ordered (xid id : ρ → ℕ) (l : CommitLog ρ) (keep : ρ → Bool) : List ρ :=
  (l.committed.filter keep).insertionSort (Precedes xid id)

/-- What the reader has received is a first part of the whole ordered history. -/
theorem Abreast.isPrefix (h : Abreast xid id l keep cursor received) (hsound : Sound xid id l) :
    received <+: l.ordered xid id keep := by
  have hsorted : (l.ordered xid id keep).Pairwise fun r r' => key xid id r < key xid id r' :=
    hsound.sorted_filter keep
  have hnodup : ∀ rows : List ρ, (rows.Pairwise fun r r' => key xid id r < key xid id r') →
      rows.Nodup := fun rows hrows => hrows.imp fun {r r'} hlt (he : r = r') => (he ▸ hlt).ne rfl
  have hfront : received = (l.ordered xid id keep).takeWhile fun r => key xid id r ≤ cursor := by
    have htake := hsorted.sublist (List.takeWhile_sublist fun r => key xid id r ≤ cursor)
    refine List.Perm.eq_of_pairwise (fun r r' _ _ hlt hgt => absurd hgt hlt.not_gt) h.sorted htake
      ((List.perm_ext_iff_of_nodup (hnodup _ h.sorted) (hnodup _ htake)).mpr fun r => ?_)
    rw [mem_takeWhile_key hsorted, h.complete, ordered, List.mem_insertionSort, List.mem_filter,
      and_assoc]
  rw [hfront]
  exact List.takeWhile_prefix _

end Pages
end CommitLog
end DurableRunner.Relational
