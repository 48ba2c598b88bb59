import DurableRunner.Schema.Json
import Mathlib.Data.String.Basic

/-! # The normal form of `jsonb` columns

A stored object lists its members by key and keeps one of each. Storing a
stored value again changes nothing.
-/
namespace DurableRunner.Schema.Json

/-- The member order of a stored object: shorter keys first, then by their text. -/
def keyBefore (a b : String) : Bool :=
  a.utf8ByteSize < b.utf8ByteSize || (a.utf8ByteSize = b.utf8ByteSize && a < b)

/-- Add a member in front of later ones; a later member with the same key wins. -/
def insertMember (key : String) (value : Json) : List (String × Json) → List (String × Json)
  | [] => [(key, value)]
  | (k, v) :: members =>
    if k = key then (k, v) :: members
    else if keyBefore key k then (key, value) :: (k, v) :: members
    else (k, v) :: insertMember key value members

mutual
/-- The value as a `jsonb` column keeps it. -/
def jsonb : Json → Json
  | .arr items => .arr (jsonbItems items)
  | .obj members => .obj (jsonbMembers members)
  | .null => .null
  | .bool b => .bool b
  | .num n => .num n
  | .str s => .str s

def jsonbItems : List Json → List Json
  | [] => []
  | x :: xs => jsonb x :: jsonbItems xs

def jsonbMembers : List (String × Json) → List (String × Json)
  | [] => []
  | (k, x) :: xs => insertMember k (jsonb x) (jsonbMembers xs)
end

theorem keyBefore_iff {a b : String} :
    keyBefore a b = true ↔
      a.utf8ByteSize < b.utf8ByteSize ∨ (a.utf8ByteSize = b.utf8ByteSize ∧ a < b) := by
  simp [keyBefore]

theorem keyBefore_trans {a b c : String} (h : keyBefore a b = true) (h' : keyBefore b c = true) :
    keyBefore a c = true := by
  rw [keyBefore_iff] at h h' ⊢
  rcases h with h | ⟨hsize, h⟩
  · rcases h' with h' | ⟨hsize', -⟩
    · exact .inl (h.trans h')
    · exact .inl (hsize' ▸ h)
  · rcases h' with h' | ⟨hsize', h'⟩
    · exact .inl (hsize ▸ h')
    · exact .inr ⟨hsize.trans hsize', h.trans h'⟩

theorem ne_of_keyBefore {a b : String} (h : keyBefore a b = true) : a ≠ b := by
  rintro rfl
  rcases keyBefore_iff.mp h with h | ⟨-, h⟩ <;> exact absurd h (lt_irrefl _)

theorem keyBefore_total {a b : String} (hne : a ≠ b) (h : keyBefore a b ≠ true) :
    keyBefore b a = true := by
  rw [ne_eq, keyBefore_iff, not_or, not_and_or, not_lt] at h
  obtain ⟨hsize, h⟩ := h
  rw [keyBefore_iff]
  rcases hsize.lt_or_eq with hlt | heq
  · exact .inl hlt
  · refine .inr ⟨heq, lt_of_le_of_ne (not_lt.mp ?_) hne.symm⟩
    exact h.resolve_left (not_not_intro heq.symm)

def Ordered (members : List (String × Json)) : Prop :=
  members.Pairwise fun m m' => keyBefore m.1 m'.1 = true

theorem mem_insertMember {key : String} {value : Json} {members : List (String × Json)}
    {m : String × Json} (h : m ∈ insertMember key value members) :
    m = (key, value) ∨ m ∈ members := by
  induction members with
  | nil => exact .inl (List.mem_singleton.mp h)
  | cons first members ih =>
    obtain ⟨k, v⟩ := first
    unfold insertMember at h
    split_ifs at h
    · exact .inr h
    · exact (List.mem_cons.mp h).imp_right id
    · rcases List.mem_cons.mp h with rfl | h
      · exact .inr List.mem_cons_self
      · exact (ih h).imp_right (List.mem_cons_of_mem _)

theorem ordered_insertMember {key : String} {value : Json} {members : List (String × Json)}
    (h : Ordered members) : Ordered (insertMember key value members) := by
  induction members with
  | nil => exact List.pairwise_singleton _ _
  | cons first members ih =>
    obtain ⟨k, v⟩ := first
    obtain ⟨hfirst, hrest⟩ := List.pairwise_cons.mp h
    unfold insertMember
    split_ifs with hsame hbefore
    · exact h
    · refine List.pairwise_cons.mpr ⟨fun m hm => ?_, h⟩
      rcases List.mem_cons.mp hm with rfl | hm
      · exact hbefore
      · exact keyBefore_trans hbefore (hfirst m hm)
    · refine List.pairwise_cons.mpr ⟨fun m hm => ?_, ih hrest⟩
      rcases mem_insertMember hm with rfl | hm
      · exact keyBefore_total (Ne.symm hsame) hbefore
      · exact hfirst m hm

theorem insertMember_of_first {key : String} {value : Json} {members : List (String × Json)}
    (h : ∀ m ∈ members, keyBefore key m.1 = true) :
    insertMember key value members = (key, value) :: members := by
  cases members with
  | nil => rfl
  | cons first members =>
    have hbefore := h first List.mem_cons_self
    simp [insertMember, hbefore, (ne_of_keyBefore hbefore).symm]

theorem ordered_jsonbMembers (members : List (String × Json)) : Ordered (jsonbMembers members) := by
  induction members with
  | nil => exact List.Pairwise.nil
  | cons m members ih => exact ordered_insertMember ih

theorem jsonbMembers_of_ordered {members : List (String × Json)} (h : Ordered members)
    (hvalues : ∀ m ∈ members, jsonb m.2 = m.2) : jsonbMembers members = members := by
  induction members with
  | nil => rfl
  | cons m members ih =>
    obtain ⟨hfirst, hrest⟩ := List.pairwise_cons.mp h
    obtain ⟨key, value⟩ := m
    rw [jsonbMembers, hvalues _ List.mem_cons_self,
      ih hrest fun m hm => hvalues m (List.mem_cons_of_mem _ hm), insertMember_of_first hfirst]

mutual
/-- A stored value is in normal form. -/
theorem jsonb_jsonb : (j : Json) → jsonb (jsonb j) = jsonb j
  | .null | .bool _ | .num _ | .str _ => rfl
  | .arr items => congrArg Json.arr (jsonbItems_jsonbItems items)
  | .obj members => congrArg Json.obj
      (jsonbMembers_of_ordered (ordered_jsonbMembers members) (jsonb_of_mem members))

theorem jsonbItems_jsonbItems : (items : List Json) →
    jsonbItems (jsonbItems items) = jsonbItems items
  | [] => rfl
  | x :: xs => congrArg₂ List.cons (jsonb_jsonb x) (jsonbItems_jsonbItems xs)

theorem jsonb_of_mem : (members : List (String × Json)) →
    ∀ m ∈ jsonbMembers members, jsonb m.2 = m.2
  | [] => nofun
  | (_, x) :: xs => fun m hm => by
    rcases mem_insertMember hm with rfl | hm
    · exact jsonb_jsonb x
    · exact jsonb_of_mem xs m hm
end

end DurableRunner.Schema.Json
