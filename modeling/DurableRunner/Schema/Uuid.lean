import DurableRunner.Schema.JsNumber
import DurableRunner.Schema.Steps

/-! # UUID text

The canonical text PostgreSQL prints for a `uuid`, and the pattern by which the
server recognises one in either letter case.
-/
namespace DurableRunner.Schema

def isHexDigit (c : Char) : Bool := (JsNumber.digit? 16 c).isSome

/-- The lengths of the hyphen-separated groups. -/
def uuidGroups : List ℕ := [8, 4, 4, 4, 12]

/-- Groups of hexadecimal digits of the given lengths, with hyphens between. -/
def matchesGroups : List ℕ → List Char → Bool
  | [], _ => false
  | [n], cs => cs.length = n && cs.all isHexDigit
  | n :: ns, cs =>
    (cs.take n).length = n && (cs.take n).all isHexDigit &&
      match cs.drop n with
      | '-' :: rest => matchesGroups ns rest
      | _ => false

/-- `/^[0-9a-f]{8}-[0-9a-f]{4}-[0-9a-f]{4}-[0-9a-f]{4}-[0-9a-f]{12}$/i`. -/
def isUuidText (text : String) : Bool := matchesGroups uuidGroups text.toList

def joinGroups : List ℕ → List Char → List Char
  | [], cs => cs
  | [_], cs => cs
  | n :: ns, cs => cs.take n ++ '-' :: joinGroups ns (cs.drop n)

/-- The last `k` hexadecimal digits, most significant first. -/
def nibbles : ℕ → ℕ → List Char
  | 0, _ => []
  | k + 1, n => nibbles k (n / 16) ++ [Nat.digitChar (n % 16)]

/-- `id::text` of a `uuid`. -/
def uuidText (id : StepId) : String := String.ofList (joinGroups uuidGroups (nibbles 32 id.val))

/-- `text::uuid` of a text with the pattern. -/
def uuidValue (text : String) : Option StepId :=
  if isUuidText text then
    (JsNumber.radix? 16 (text.toList.filter (· ≠ '-'))).bind fun n =>
      if h : n < 2 ^ 128 then some ⟨n, h⟩ else none
  else none

theorem digit?_digitChar {d : ℕ} (h : d < 16) : JsNumber.digit? 16 (Nat.digitChar d) = some d := by
  have hall : ∀ d : Fin 16, JsNumber.digit? 16 (Nat.digitChar d.val) = some d.val := by decide
  exact hall ⟨d, h⟩

theorem length_nibbles (k n : ℕ) : (nibbles k n).length = k := by
  induction k generalizing n with
  | zero => rfl
  | succ k ih => simp [nibbles, ih]

theorem isHexDigit_of_mem_nibbles {k n : ℕ} {c : Char} (h : c ∈ nibbles k n) :
    isHexDigit c = true := by
  induction k generalizing n with
  | zero => cases h
  | succ k ih =>
    rcases List.mem_append.mp h with h | h
    · exact ih h
    · rw [List.mem_singleton.mp h, isHexDigit, digit?_digitChar (Nat.mod_lt n (by decide))]
      rfl

theorem matchesGroups_joinGroups {ns : List ℕ} {cs : List Char} (hne : ns ≠ [])
    (hlength : cs.length = ns.sum) (hhex : ∀ c ∈ cs, isHexDigit c = true) :
    matchesGroups ns (joinGroups ns cs) = true := by
  induction ns generalizing cs with
  | nil => exact absurd rfl hne
  | cons n ns ih =>
    cases ns with
    | nil =>
      have hlast : cs.length = n := by simpa using hlength
      simpa [matchesGroups, joinGroups, hlast] using hhex
    | cons m ns =>
      have htake : (cs.take n).length = n := by
        simp only [List.sum_cons] at hlength
        rw [List.length_take]
        omega
      have hdrop : (cs.drop n).length = (m :: ns).sum := by
        simp only [List.sum_cons] at hlength ⊢
        rw [List.length_drop]
        omega
      have hrest := ih (List.cons_ne_nil _ _) hdrop fun c hc => hhex c (List.mem_of_mem_drop hc)
      have hgroup : (cs.take n).all isHexDigit = true :=
        List.all_eq_true.mpr fun c hc => hhex c (List.mem_of_mem_take hc)
      simp only [matchesGroups, joinGroups, List.take_left' htake, List.drop_left' htake, htake,
        hgroup, hrest, decide_true, Bool.and_self]

theorem filter_joinGroups {ns : List ℕ} {cs : List Char} (h : ∀ c ∈ cs, c ≠ '-') :
    (joinGroups ns cs).filter (· ≠ '-') = cs := by
  have hkeep : ∀ ds : List Char, (∀ c ∈ ds, c ≠ '-') → ds.filter (· ≠ '-') = ds := fun ds hds =>
    List.filter_eq_self.mpr fun c hc => decide_eq_true (hds c hc)
  induction ns generalizing cs with
  | nil => exact hkeep cs h
  | cons n ns ih =>
    cases ns with
    | nil => exact hkeep cs h
    | cons m ns =>
      rw [joinGroups, List.filter_append, hkeep _ fun c hc => h c (List.mem_of_mem_take hc)]
      · rw [List.filter_cons_of_neg (by simp), ih fun c hc => h c (List.mem_of_mem_drop hc),
          List.take_append_drop]
      · simp

theorem radix?_nibbles (k n : ℕ) : (nibbles k n).foldlM
    (fun value c => (JsNumber.digit? 16 c).map (16 * value + ·)) 0 = some (n % 16 ^ k) := by
  induction k generalizing n with
  | zero => simp [nibbles, Nat.mod_one]
  | succ k ih =>
    rw [nibbles, List.foldlM_append, ih]
    have hdigit := digit?_digitChar (Nat.mod_lt n (show 0 < 16 by decide))
    have hvalue : 16 * (n / 16 % 16 ^ k) + n % 16 = n % 16 ^ (k + 1) := by
      rw [pow_succ, mul_comm (16 ^ k), Nat.mod_mul, add_comm]
    simp [hdigit, hvalue]

theorem isUuidText_uuidText (id : StepId) : isUuidText (uuidText id) = true := by
  rw [isUuidText, uuidText, String.toList_ofList]
  exact matchesGroups_joinGroups (by decide) (length_nibbles 32 _) fun c => isHexDigit_of_mem_nibbles

theorem uuidValue_uuidText (id : StepId) : uuidValue (uuidText id) = some id := by
  have hhyphen : ∀ c ∈ nibbles 32 id.val, c ≠ '-' := fun c hc he => by
    have hhex := isHexDigit_of_mem_nibbles hc
    rw [he] at hhex
    exact absurd hhex (by decide)
  have hdigits : (uuidText id).toList.filter (· ≠ '-') = nibbles 32 id.val := by
    rw [uuidText, String.toList_ofList, filter_joinGroups hhyphen]
  have hne : (nibbles 32 id.val).isEmpty = false := by
    rw [List.isEmpty_eq_false_iff, ← List.length_pos_iff, length_nibbles]
    decide
  have hmod : id.val % 16 ^ 32 = id.val := Nat.mod_eq_of_lt id.isLt
  rw [uuidValue, if_pos (isUuidText_uuidText id), hdigits, JsNumber.radix?, hne]
  simp only [Bool.false_eq_true, if_false, radix?_nibbles, hmod, Option.bind_some]
  exact dif_pos id.isLt

theorem uuidText_injective : Function.Injective uuidText := fun id id' h => by
  have hvalue := congrArg uuidValue h
  rw [uuidValue_uuidText, uuidValue_uuidText] at hvalue
  exact Option.some.inj hvalue

end DurableRunner.Schema
