import DurableRunner.Schema.Jsonb
import Mathlib.Data.List.Sort

/-! # When two JSON values are the same

Two values are the same when every path through them reads the same. The order
of an object's members does not count, and of two members with one key the
later one does. This is the equality of `jsonb` columns.
-/
namespace DurableRunner.Schema.Json

/-- The value of an object's member; a later member with the same key wins. -/
def lastMember (key : String) : List (String × Json) → Option Json
  | [] => none
  | (k, v) :: members => (lastMember key members).or (if k = key then some v else none)

inductive Access where
  | member (key : String)
  | item (index : ℕ)

def access : Access → Json → Option Json
  | .member key, .obj members => lastMember key members
  | .item index, .arr items => items[index]?
  | _, _ => none

/-- A value without what is inside it. -/
inductive Shape where
  | null
  | bool (value : Bool)
  | num (value : ℚ)
  | str (value : String)
  | arr
  | obj
deriving DecidableEq

def shape : Json → Shape
  | .null => .null
  | .bool b => .bool b
  | .num n => .num n
  | .str s => .str s
  | .arr _ => .arr
  | .obj _ => .obj

def read : List Access → Json → Option Shape
  | [], j => some j.shape
  | a :: path, j => (access a j).bind (read path)

/-- Equality as JSON values. -/
def Same (a b : Json) : Prop := ∀ path, read path a = read path b

/-- Induction on a value through what is inside it. -/
theorem induction {motive : Json → Prop} (null : motive .null) (bool : ∀ b, motive (.bool b))
    (num : ∀ n, motive (.num n)) (str : ∀ s, motive (.str s))
    (arr : ∀ items, (∀ x ∈ items, motive x) → motive (.arr items))
    (obj : ∀ members, (∀ m ∈ members, motive m.2) → motive (.obj members)) (j : Json) :
    motive j :=
  @Json.rec motive (fun items => ∀ x ∈ items, motive x) (fun members => ∀ m ∈ members, motive m.2)
    (fun m => motive m.2) null bool num str arr obj nofun (fun _ _ hx hxs => List.forall_mem_cons.mpr ⟨hx, hxs⟩) nofun
    (fun _ _ hm hms => List.forall_mem_cons.mpr ⟨hm, hms⟩) (fun _ _ hv => hv) j

theorem mem_of_lastMember {key : String} {members : List (String × Json)} {v : Json}
    (h : lastMember key members = some v) : (key, v) ∈ members := by
  induction members with
  | nil => cases h
  | cons m members ih =>
    obtain ⟨k, x⟩ := m
    rw [lastMember, Option.or_eq_some_iff] at h
    rcases h with h | ⟨-, h⟩
    · exact List.mem_cons_of_mem _ (ih h)
    · split_ifs at h with hkey
      obtain rfl := Option.some.inj h
      exact hkey ▸ List.mem_cons_self

theorem lastMember_insertMember (key k : String) (v : Json) (members : List (String × Json)) :
    lastMember key (insertMember k v members) =
      (lastMember key members).or (if k = key then some v else none) := by
  induction members with
  | nil => rfl
  | cons m members ih =>
    obtain ⟨k', v'⟩ := m
    by_cases hsame : k' = k
    · subst hsame
      by_cases hkey : k' = key <;> simp [insertMember, lastMember, hkey]
    by_cases hbefore : keyBefore k k' = true
    · simp [insertMember, lastMember, hsame, hbefore]
    rw [insertMember, if_neg hsame, if_neg hbefore, lastMember, ih, lastMember]
    by_cases hkey : k = key
    · have hne : k' ≠ key := fun e => hsame (e.trans hkey.symm)
      simp [hkey, hne]
    · simp [hkey]

/-- Storing an object stores the value of each member. -/
theorem lastMember_jsonbMembers (key : String) (members : List (String × Json)) :
    lastMember key (jsonbMembers members) = (lastMember key members).map jsonb := by
  induction members with
  | nil => rfl
  | cons m members ih =>
    obtain ⟨k, v⟩ := m
    rw [jsonbMembers, lastMember_insertMember, ih, lastMember, Option.map_or]
    split_ifs <;> rfl

theorem jsonbItems_eq_map (items : List Json) : jsonbItems items = items.map jsonb := by
  induction items with
  | nil => rfl
  | cons x xs ih => rw [jsonbItems, List.map_cons, ih]

theorem access_jsonb (a : Access) (j : Json) : access a (jsonb j) = (access a j).map jsonb := by
  cases a with
  | member key =>
    cases j with
    | obj members => exact lastMember_jsonbMembers key members
    | _ => rfl
  | item index =>
    cases j with
    | arr items =>
      simp only [jsonb, access, jsonbItems_eq_map]
      exact List.getElem?_map
    | _ => rfl

@[simp] theorem shape_jsonb (j : Json) : (jsonb j).shape = j.shape := by
  cases j <;> rfl

theorem read_jsonb (path : List Access) (j : Json) : read path (jsonb j) = read path j := by
  induction path generalizing j with
  | nil => simp [read]
  | cons a path ih =>
    rw [read, read, access_jsonb, Option.bind_map]
    congr 1
    funext x
    exact ih x

theorem lastMember_eq_some_iff {members : List (String × Json)}
    (hkeys : (members.map Prod.fst).Nodup) {key : String} {v : Json} :
    lastMember key members = some v ↔ (key, v) ∈ members := by
  refine ⟨mem_of_lastMember, fun hv => ?_⟩
  induction members with
  | nil => cases hv
  | cons m members ih =>
    obtain ⟨hm, hrest⟩ := List.nodup_cons.mp hkeys
    rw [lastMember, Option.or_eq_some_iff]
    rcases List.mem_cons.mp hv with rfl | hv
    · refine .inr ⟨Option.eq_none_iff_forall_ne_some.mpr fun v' hv' => ?_, if_pos rfl⟩
      exact hm (List.mem_map.mpr ⟨(key, v'), mem_of_lastMember hv', rfl⟩)
    · exact .inl (ih hrest hv)

theorem Ordered.nodup_keys {members : List (String × Json)} (h : Ordered members) :
    (members.map Prod.fst).Nodup := by
  rw [List.Nodup, List.pairwise_map]
  exact h.imp ne_of_keyBefore

/-- A stored object is given by the value of each member. -/
theorem ordered_ext {members members' : List (String × Json)} (h : Ordered members)
    (h' : Ordered members') (hvalues : ∀ key, lastMember key members = lastMember key members') :
    members = members' := by
  have hirrefl : Std.Irrefl fun m m' : String × Json => keyBefore m.1 m'.1 = true :=
    ⟨fun m hm => ne_of_keyBefore hm rfl⟩
  have hantisymm : Std.Antisymm fun m m' : String × Json => keyBefore m.1 m'.1 = true :=
    ⟨fun m m' hm hm' => absurd rfl (ne_of_keyBefore (keyBefore_trans hm hm'))⟩
  refine List.Pairwise.eq_of_mem_iff h h' fun m => ?_
  rw [← lastMember_eq_some_iff h.nodup_keys, ← lastMember_eq_some_iff h'.nodup_keys, hvalues]

section
variable {a b : Json}

theorem Same.shape (h : Same a b) : a.shape = b.shape := Option.some.inj (h [])

/-- What is inside a value is stored alike when it is the same. -/
theorem Same.access (h : Same a b) {s : Access}
    (ih : ∀ x, access s a = some x → ∀ y, Same x y → jsonb x = jsonb y) :
    (access s a).map jsonb = (access s b).map jsonb := by
  have hread : ∀ path, (Json.access s a).bind (read path) = (Json.access s b).bind (read path) :=
    fun path => h (s :: path)
  cases hx : Json.access s a with
  | none =>
    cases hy : Json.access s b with
    | none => rfl
    | some y => simpa [hx, hy, read] using hread []
  | some x =>
    cases hy : Json.access s b with
    | none => simpa [hx, hy, read] using hread []
    | some y =>
      have hsame : Same x y := fun path => by simpa [hx, hy] using hread path
      exact congrArg some (ih x hx y hsame)

theorem jsonb_eq_of_same (h : Same a b) : jsonb a = jsonb b := by
  induction a using induction generalizing b with
  | arr items ih =>
    cases b with
    | arr items' =>
      simp only [jsonb, jsonbItems_eq_map]
      refine congrArg Json.arr (List.ext_getElem? fun i => ?_)
      rw [List.getElem?_map, List.getElem?_map]
      exact h.access (s := .item i) fun x hx y => ih x (List.mem_of_getElem? hx)
    | _ => cases h.shape
  | obj members ih =>
    cases b with
    | obj members' =>
      refine congrArg Json.obj (ordered_ext (ordered_jsonbMembers _) (ordered_jsonbMembers _) ?_)
      intro key
      rw [lastMember_jsonbMembers, lastMember_jsonbMembers]
      exact h.access (s := .member key) fun x hx y => ih (key, x) (mem_of_lastMember hx)
    | _ => cases h.shape
  | _ =>
    cases b <;> cases h.shape
    rfl

/-- `jsonb` equality is equality as JSON values. -/
theorem jsonb_eq_iff : jsonb a = jsonb b ↔ Same a b := by
  refine ⟨fun h path => ?_, jsonb_eq_of_same⟩
  rw [← read_jsonb path a, h, read_jsonb]

end

end DurableRunner.Schema.Json
