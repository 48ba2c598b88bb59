import DurableRunner.Schema.JsNumber
import Mathlib.Data.Nat.Digits.Defs

/-! # The spellings of numbers

What `Number` reads, as a grammar on characters with the value of each spelling.
-/
namespace DurableRunner.Schema.JsNumber

/-- A sign is optional. -/
inductive SpellsExponent : List Char → ℤ → Prop
  | plain {cs : List Char} {n : ℕ} (h : natural? cs = some n) : SpellsExponent cs n
  | plus {cs : List Char} {n : ℕ} (h : natural? cs = some n) : SpellsExponent ('+' :: cs) n
  | minus {cs : List Char} {n : ℕ} (h : natural? cs = some n) : SpellsExponent ('-' :: cs) (-n)

/-- Digits with at most one point among them or beside them. -/
inductive SpellsMantissa : List Char → ℚ → Prop
  | whole {cs : List Char} {n : ℕ} (h : natural? cs = some n) : SpellsMantissa cs n
  | point {whole fraction : List Char} {n : ℕ} (h : natural? (whole ++ fraction) = some n) :
    SpellsMantissa (whole ++ '.' :: fraction) (n / 10 ^ fraction.length)

inductive SpellsUnsigned : List Char → ℚ → Prop
  | mantissa {cs : List Char} {q : ℚ} (h : SpellsMantissa cs q) : SpellsUnsigned cs q
  | scientific {cs es : List Char} {mark : Char} {q : ℚ} {k : ℤ} (hmantissa : SpellsMantissa cs q)
    (hmark : mark = 'e' ∨ mark = 'E') (hexponent : SpellsExponent es k) :
    SpellsUnsigned (cs ++ mark :: es) (q * 10 ^ k)

/-- Digits of the base, the most significant one first. -/
def SpellsRadix (base : ℕ) (cs : List Char) (n : ℕ) : Prop :=
  cs ≠ [] ∧ ∃ digits : List ℕ, cs.map (digit? base) = digits.map some ∧
    Nat.ofDigits base digits.reverse = n

inductive SpellsLiteral : List Char → ℚ → Prop
  | plain {cs : List Char} {q : ℚ} (h : SpellsUnsigned cs q) : SpellsLiteral cs q
  | plus {cs : List Char} {q : ℚ} (h : SpellsUnsigned cs q) : SpellsLiteral ('+' :: cs) q
  | minus {cs : List Char} {q : ℚ} (h : SpellsUnsigned cs q) : SpellsLiteral ('-' :: cs) (-q)
  | radix {mark : Char} {base n : ℕ} {cs : List Char}
    (hmark : (mark, base) ∈ [('x', 16), ('X', 16), ('o', 8), ('O', 8), ('b', 2), ('B', 2)])
    (h : SpellsRadix base cs n) : SpellsLiteral ('0' :: mark :: cs) n

/-- White space, or a literal with white space around it that is rounded to the double. -/
inductive Spells (text : String) : ℚ → Prop
  | blank (h : ∀ c ∈ text.toList, isTrimmed c = true) : Spells text 0
  | literal {before cs after : List Char} {q double : ℚ} (htext : text.toList = before ++ (cs ++ after))
    (hbefore : ∀ c ∈ before, isTrimmed c = true) (hafter : ∀ c ∈ after, isTrimmed c = true)
    (hliteral : SpellsLiteral cs q) (hrounded : ofRat q = .finite double) : Spells text double

section Rounding

theorem floor_neg_of_fract_pos {x : ℚ} (h : (x.floor : ℚ) < x) : (-x).floor = -x.floor - 1 := by
  have hlt : x < x.floor + 1 := by exact_mod_cast Rat.lt_floor_add_one x
  refine le_antisymm ?_ (Rat.le_floor_iff.mpr ?_)
  · have hfloor : ((-x).floor : ℚ) ≤ -x := Rat.floor_le (-x)
    have hbelow : ((-x).floor : ℚ) < (-x.floor : ℤ) := by
      push_cast
      linarith
    have hbelow' : (-x).floor < -x.floor := by exact_mod_cast hbelow
    omega
  · push_cast
    linarith

theorem roundHalfEven_neg (x : ℚ) : roundHalfEven (-x) = -roundHalfEven x := by
  rcases (Rat.floor_le x).eq_or_lt with hint | hfract
  · rw [← hint, ← Int.cast_neg, roundHalfEven_intCast, roundHalfEven_intCast]
  · have hfloor := floor_neg_of_fract_pos hfract
    have hrest : -x - ((-x).floor : ℚ) = 1 - (x - x.floor) := by
      rw [hfloor]
      push_cast
      ring
    unfold roundHalfEven
    dsimp only
    rw [hrest, hfloor]
    generalize x - (x.floor : ℚ) = rest
    split_ifs <;> first
      | omega
      | (exfalso; linarith)

theorem binaryExponent_neg (q : ℚ) : binaryExponent (-q) = binaryExponent q := by
  simp [binaryExponent]

theorem ofRat_neg (q : ℚ) (hne : ∀ negative, ofRat q ≠ .infinity negative) :
    ofRat (-q) = neg (ofRat q) := by
  by_cases hq : q = 0
  · subst hq
    simp [ofRat, neg]
  · have hbound := hne (q < 0)
    unfold ofRat at hbound ⊢
    rw [if_neg hq, if_neg (neg_ne_zero.mpr hq), binaryExponent_neg]
    dsimp only at hbound ⊢
    rw [if_neg hq] at hbound
    rw [neg_div, roundHalfEven_neg, Int.cast_neg, neg_mul, abs_neg]
    split
    · rfl
    · rename_i hlarge
      rw [if_neg hlarge] at hbound
      exact absurd rfl hbound

end Rounding

section Exact
variable {cs : List Char} {c : Char}

theorem isDigit_of_natural? {n : ℕ} (h : natural? cs = some n) : ∀ c ∈ cs, c.isDigit = true :=
  (natural?_eq_some.mp h).2.1

theorem takeWhile_of_boundary {p : Char → Bool} (hinside : ∀ c ∈ cs, p c = true) {rest : List Char}
    (hboundary : p c = false) : (cs ++ c :: rest).takeWhile p = cs := by
  rw [List.takeWhile_append_of_pos hinside]
  simp [hboundary]

theorem dropWhile_of_boundary {p : Char → Bool} (hinside : ∀ c ∈ cs, p c = true) {rest : List Char}
    (hboundary : p c = false) : (cs ++ c :: rest).dropWhile p = c :: rest := by
  rw [List.dropWhile_append_of_pos hinside]
  simp [hboundary]

theorem mantissa?_eq_some {q : ℚ} : mantissa? cs = some q ↔ SpellsMantissa cs q := by
  constructor
  · intro h
    have hsplit := List.takeWhile_append_dropWhile (p := Char.isDigit) (l := cs)
    simp only [mantissa?] at h
    generalize cs.takeWhile Char.isDigit = whole at h hsplit
    split at h
    · rename_i hrest
      obtain ⟨n, hn, rfl⟩ := Option.map_eq_some_iff.mp h
      rw [hrest, List.append_nil] at hsplit
      exact hsplit ▸ .whole hn
    · rename_i fraction hrest
      obtain ⟨-, h⟩ := Option.ite_none_right_eq_some.mp h
      obtain ⟨n, hn, rfl⟩ := Option.map_eq_some_iff.mp h
      rw [hrest] at hsplit
      exact hsplit ▸ .point hn
    · cases h
  · intro h
    cases h with
    | @whole _ n hn =>
      obtain ⟨hne, hdigits, rfl⟩ := natural?_eq_some.mp hn
      exact mantissa?_digits hdigits hne
    | @point whole fraction n hn =>
      have hdigits := isDigit_of_natural? hn
      have hwhole : ∀ c ∈ whole, c.isDigit = true := fun c hc => hdigits c (List.mem_append_left _ hc)
      have hfraction : fraction.all Char.isDigit = true :=
        List.all_eq_true.mpr fun c hc => hdigits c (List.mem_append_right _ hc)
      simp only [mantissa?, takeWhile_of_boundary hwhole (c := '.') (by decide),
        dropWhile_of_boundary hwhole (c := '.') (by decide), hfraction, if_true, hn, Option.map_some]

theorem exponent?_eq_some {k : ℤ} : exponent? cs = some k ↔ SpellsExponent cs k := by
  constructor
  · intro h
    unfold exponent? at h
    split at h
    all_goals
      obtain ⟨n, hn, rfl⟩ := Option.map_eq_some_iff.mp h
    · exact .plus hn
    · exact .minus hn
    · exact .plain hn
  · intro h
    cases h with
    | plus hn | minus hn => simp [exponent?, hn]
    | plain hn =>
      have hdigits := isDigit_of_natural? hn
      unfold exponent?
      split
      · exact absurd (hdigits '+' List.mem_cons_self) (by decide)
      · exact absurd (hdigits '-' List.mem_cons_self) (by decide)
      · rw [hn]
        rfl

end Exact

section Characters

def isDecimalPart (c : Char) : Bool := c.isDigit || c ∈ ['.', 'e', 'E', '+', '-']

variable {cs : List Char} {q : ℚ}

theorem isDecimalPart_of_natural? {n : ℕ} (h : natural? cs = some n) :
    ∀ c ∈ cs, isDecimalPart c = true := fun c hc => by
  simp [isDecimalPart, isDigit_of_natural? h c hc]

theorem SpellsExponent.parts {k : ℤ} (h : SpellsExponent cs k) : ∀ c ∈ cs, isDecimalPart c = true := by
  cases h with
  | plain h => exact isDecimalPart_of_natural? h
  | plus h | minus h => exact List.forall_mem_cons.mpr ⟨by decide, isDecimalPart_of_natural? h⟩

theorem SpellsMantissa.digits (h : SpellsMantissa cs q) : ∀ c ∈ cs, c.isDigit = true ∨ c = '.' := by
  cases h with
  | whole h => exact fun c hc => .inl (isDigit_of_natural? h c hc)
  | point h =>
    intro c hc
    rcases List.mem_append.mp hc with hc | hc
    · exact .inl (isDigit_of_natural? h c (List.mem_append_left _ hc))
    · rcases List.mem_cons.mp hc with rfl | hc
      · exact .inr rfl
      · exact .inl (isDigit_of_natural? h c (List.mem_append_right _ hc))

theorem SpellsMantissa.ne_nil (h : SpellsMantissa cs q) : cs ≠ [] := by
  cases h with
  | whole h => exact (natural?_eq_some.mp h).1
  | point h => simp

theorem SpellsUnsigned.head (h : SpellsUnsigned cs q) :
    ∃ c rest, cs = c :: rest ∧ (c.isDigit = true ∨ c = '.') := by
  have hfirst : ∀ {ms : List Char} {m : ℚ}, SpellsMantissa ms m → ∀ rest,
      ∃ c rest', ms ++ rest = c :: rest' ∧ (c.isDigit = true ∨ c = '.') := by
    intro ms m hm rest
    obtain ⟨c, ms', rfl⟩ := List.exists_cons_of_ne_nil hm.ne_nil
    exact ⟨c, ms' ++ rest, rfl, hm.digits c List.mem_cons_self⟩
  cases h with
  | mantissa h => simpa using hfirst h []
  | scientific h => exact hfirst h _

theorem SpellsUnsigned.parts (h : SpellsUnsigned cs q) : ∀ c ∈ cs, isDecimalPart c = true := by
  have hmantissa : ∀ {ms : List Char} {m : ℚ}, SpellsMantissa ms m → ∀ c ∈ ms, isDecimalPart c = true := by
    intro ms m hm c hc
    rcases hm.digits c hc with hdigit | rfl
    · simp [isDecimalPart, hdigit]
    · decide
  cases h with
  | mantissa h => exact hmantissa h
  | scientific h hmark hexponent =>
    refine List.forall_mem_append.mpr ⟨hmantissa h, List.forall_mem_cons.mpr ⟨?_, hexponent.parts⟩⟩
    rcases hmark with rfl | rfl <;> decide

theorem not_isTrimmed {c : Char} (h : 0x21 ≤ c.toNat ∧ c.toNat ≤ 0x7E) : isTrimmed c = false := by
  by_contra htrimmed
  simp only [Bool.not_eq_false, isTrimmed, Bool.or_eq_true, Bool.and_eq_true, decide_eq_true_eq,
    List.mem_cons, List.not_mem_nil, or_false] at htrimmed
  omega

theorem not_isTrimmed_of_isDigit {c : Char} (h : c.isDigit = true) : isTrimmed c = false := by
  refine not_isTrimmed ?_
  have hrange : 48 ≤ c.toNat ∧ c.toNat ≤ 57 := by
    simp only [Char.isDigit, Bool.and_eq_true, decide_eq_true_eq] at h
    exact h
  omega

theorem not_isTrimmed_of_isDecimalPart {c : Char} (h : isDecimalPart c = true) : isTrimmed c = false := by
  rcases Bool.or_eq_true_iff.mp h with hdigit | hmark
  · exact not_isTrimmed_of_isDigit hdigit
  · have hmark' := of_decide_eq_true hmark
    simp only [List.mem_cons, List.not_mem_nil, or_false] at hmark'
    rcases hmark' with rfl | rfl | rfl | rfl | rfl <;> decide

theorem not_isTrimmed_of_digit? {base value : ℕ} {c : Char} (h : digit? base c = some value) :
    isTrimmed c = false := by
  unfold digit? at h
  dsimp only at h
  split_ifs at h with hdigit hsmall hlower hsmall hupper hsmall hother
  · exact not_isTrimmed_of_isDigit hdigit
  · have hrange : 97 ≤ c.toNat ∧ c.toNat ≤ 102 := hlower
    exact not_isTrimmed (by omega)
  · have hrange : 65 ≤ c.toNat ∧ c.toNat ≤ 70 := hupper
    exact not_isTrimmed (by omega)
  · exact absurd hother (lt_irrefl base)

theorem SpellsRadix.not_isTrimmed {base n : ℕ} (h : SpellsRadix base cs n) :
    ∀ c ∈ cs, isTrimmed c = false := by
  obtain ⟨-, digits, hdigits, -⟩ := h
  intro c hc
  have hmem := List.mem_map_of_mem (f := digit? base) hc
  rw [hdigits] at hmem
  obtain ⟨value, -, hvalue⟩ := List.mem_map.mp hmem
  exact not_isTrimmed_of_digit? hvalue.symm

theorem SpellsLiteral.not_isTrimmed (h : SpellsLiteral cs q) :
    cs ≠ [] ∧ ∀ c ∈ cs, isTrimmed c = false := by
  have hunsigned : ∀ {ds : List Char} {r : ℚ}, SpellsUnsigned ds r → ∀ c ∈ ds, isTrimmed c = false :=
    fun h c hc => not_isTrimmed_of_isDecimalPart (h.parts c hc)
  cases h with
  | plain h =>
    obtain ⟨c, rest, rfl, -⟩ := h.head
    exact ⟨List.cons_ne_nil _ _, hunsigned h⟩
  | plus h | minus h =>
    exact ⟨List.cons_ne_nil _ _, List.forall_mem_cons.mpr ⟨by decide, hunsigned h⟩⟩
  | @radix mark base _ _ hmark h =>
    refine ⟨List.cons_ne_nil _ _, List.forall_mem_cons.mpr ⟨by decide, List.forall_mem_cons.mpr ⟨?_,
      h.not_isTrimmed⟩⟩⟩
    simp only [List.mem_cons, Prod.mk.injEq, List.not_mem_nil, or_false] at hmark
    rcases hmark with ⟨rfl, -⟩ | ⟨rfl, -⟩ | ⟨rfl, -⟩ | ⟨rfl, -⟩ | ⟨rfl, -⟩ | ⟨rfl, -⟩ <;> decide

end Characters

section Literals
variable {cs : List Char} {double : ℚ}

theorem radix?_eq_some {base n : ℕ} : radix? base cs = some n ↔ SpellsRadix base cs n := by
  have hfold : ∀ (cs : List Char) (start n : ℕ),
      cs.foldlM (fun value c => (digit? base c).map (base * value + ·)) start = some n ↔
        ∃ digits : List ℕ, cs.map (digit? base) = digits.map some ∧
          digits.foldl (fun value d => d + base * value) start = n := by
    intro cs
    induction cs with
    | nil => simp
    | cons c cs ih =>
      intro start n
      rw [List.foldlM_cons, Option.bind_eq_bind, Option.bind_eq_some_iff]
      constructor
      · rintro ⟨value, hvalue, hrest⟩
        obtain ⟨d, hd, rfl⟩ := Option.map_eq_some_iff.mp hvalue
        obtain ⟨digits, hdigits, hn⟩ := (ih _ _).mp hrest
        exact ⟨d :: digits, by simp [hd, hdigits], by simpa [Nat.add_comm] using hn⟩
      · rintro ⟨digits, hdigits, hn⟩
        cases digits with
        | nil => simp at hdigits
        | cons d digits =>
          obtain ⟨hd, hdigits⟩ := List.cons.inj hdigits
          exact ⟨_, by rw [hd, Option.map_some], (ih _ _).mpr ⟨digits, hdigits, by
            simpa [Nat.add_comm] using hn⟩⟩
  unfold radix? SpellsRadix
  by_cases hne : cs = []
  · simp [hne]
  · rw [if_neg (by simpa using hne), hfold]
    simp [hne, Nat.ofDigits_eq_foldr]

theorem isExponentMark_of_digits {ms : List Char} {m : ℚ} (h : SpellsMantissa ms m) :
    ∀ c ∈ ms, (!(decide (c = 'e') || decide (c = 'E'))) = true := by
  intro c hc
  rcases h.digits c hc with hdigit | rfl
  · have he : c ≠ 'e' := by
      rintro rfl
      exact absurd hdigit (by decide)
    have hE : c ≠ 'E' := by
      rintro rfl
      exact absurd hdigit (by decide)
    simp [he, hE]
  · decide

theorem unsigned?_eq_finite :
    unsigned? cs = some (.finite double) ↔ ∃ q, SpellsUnsigned cs q ∧ ofRat q = .finite double := by
  constructor
  · intro h
    unfold unsigned? at h
    split at h
    · cases h
    · have hsplit := List.takeWhile_append_dropWhile
        (p := fun c => !(decide (c = 'e') || decide (c = 'E'))) (l := cs)
      dsimp only at h
      split at h
      · obtain ⟨q, hq, hdouble⟩ := Option.map_eq_some_iff.mp h
        exact ⟨q, .mantissa (mantissa?_eq_some.mp hq), hdouble⟩
      · rename_i mark exponent hrest
        obtain ⟨m, hm, h⟩ := Option.bind_eq_some_iff.mp h
        obtain ⟨k, hk, hdouble⟩ := Option.map_eq_some_iff.mp h
        have hmark := List.head_dropWhile_not (l := cs)
          (fun c => !(decide (c = 'e') || decide (c = 'E'))) (hrest ▸ List.cons_ne_nil _ _)
        simp only [hrest, List.head_cons, Bool.not_eq_false', Bool.or_eq_true, decide_eq_true_eq] at hmark
        rw [hrest] at hsplit
        exact ⟨m * 10 ^ k, hsplit ▸ .scientific (mantissa?_eq_some.mp hm) hmark
          (exponent?_eq_some.mp hk), hdouble⟩
  · rintro ⟨q, hq, hdouble⟩
    have hinfinity : cs ≠ "Infinity".toList := by
      rintro rfl
      exact absurd (hq.parts 'I' (by simp)) (by decide)
    rw [unsigned?, if_neg hinfinity]
    dsimp only
    cases hq with
    | mantissa hm =>
      rw [List.dropWhile_eq_nil_iff.mpr (isExponentMark_of_digits hm)]
      simp [mantissa?_eq_some.mpr hm, hdouble]
    | @scientific ms es mark m k hm hmark hk =>
      have hboundary : (!(decide (mark = 'e') || decide (mark = 'E'))) = false := by
        rcases hmark with rfl | rfl <;> decide
      rw [dropWhile_of_boundary (isExponentMark_of_digits hm) hboundary,
        takeWhile_of_boundary (isExponentMark_of_digits hm) hboundary]
      simp [mantissa?_eq_some.mpr hm, exponent?_eq_some.mpr hk, hdouble]

/-- No sign and no base stands at the head of an unsigned literal. -/
theorem literal?_unsigned {q : ℚ} (h : SpellsUnsigned cs q) : literal? cs = unsigned? cs := by
  obtain ⟨first, rest, hcs, hfirst⟩ := h.head
  have hparts := h.parts
  unfold literal?
  split
  case h_9 => rfl
  case h_1 | h_2 =>
    obtain ⟨rfl, -⟩ := List.cons.inj hcs
    exact absurd hfirst (by decide)
  all_goals
    exact absurd (hparts _ (List.mem_cons_of_mem _ List.mem_cons_self)) (by decide)

theorem neg_eq_finite {x : JsNumber} : neg x = .finite double ↔ x = .finite (-double) := by
  cases x with
  | finite value => simp [neg, neg_eq_iff_eq_neg]
  | nan | infinity => simp [neg]

theorem ofRat_neg_eq_finite {q : ℚ} : ofRat (-q) = .finite double ↔ ofRat q = .finite (-double) := by
  have hflip : ∀ {q double : ℚ}, ofRat q = .finite (-double) → ofRat (-q) = .finite double := by
    intro q double h
    rw [ofRat_neg q (by simp [h]), h, neg, neg_neg]
  refine ⟨fun h => ?_, hflip⟩
  have hback := @hflip (-q) (-double) (by rwa [neg_neg])
  rwa [neg_neg] at hback

theorem literal?_eq_finite :
    literal? cs = some (.finite double) ↔ ∃ q, SpellsLiteral cs q ∧ ofRat q = .finite double := by
  constructor
  · intro h
    unfold literal? at h
    split at h
    case h_1 =>
      obtain ⟨q, hq, hdouble⟩ := unsigned?_eq_finite.mp h
      exact ⟨q, .plus hq, hdouble⟩
    case h_2 =>
      obtain ⟨x, hx, hneg⟩ := Option.map_eq_some_iff.mp h
      rw [neg_eq_finite.mp hneg] at hx
      obtain ⟨q, hq, hdouble⟩ := unsigned?_eq_finite.mp hx
      exact ⟨-q, .minus hq, ofRat_neg_eq_finite.mpr hdouble⟩
    case h_9 =>
      obtain ⟨q, hq, hdouble⟩ := unsigned?_eq_finite.mp h
      exact ⟨q, .plain hq, hdouble⟩
    all_goals
      obtain ⟨n, hn, hdouble⟩ := Option.map_eq_some_iff.mp h
      exact ⟨n, .radix (by decide) (radix?_eq_some.mp hn), hdouble⟩
  · rintro ⟨q, hq, hdouble⟩
    cases hq with
    | plain h => rw [literal?_unsigned h, unsigned?_eq_finite.mpr ⟨_, h, hdouble⟩]
    | plus h => exact unsigned?_eq_finite.mpr ⟨_, h, hdouble⟩
    | minus h =>
      have hflipped := unsigned?_eq_finite.mpr ⟨_, h, ofRat_neg_eq_finite.mp hdouble⟩
      show (unsigned? _).map neg = _
      rw [hflipped, Option.map_some, neg, neg_neg]
    | radix hmark h =>
      have hvalue := radix?_eq_some.mpr h
      simp only [List.mem_cons, Prod.mk.injEq, List.not_mem_nil, or_false] at hmark
      rcases hmark with ⟨rfl, rfl⟩ | ⟨rfl, rfl⟩ | ⟨rfl, rfl⟩ | ⟨rfl, rfl⟩ | ⟨rfl, rfl⟩ | ⟨rfl, rfl⟩ <;>
        simp [literal?, hvalue, hdouble]

end Literals

section Trimming
variable {cs : List Char}

theorem trim_split (cs : List Char) : ∃ before after, cs = before ++ (trim cs ++ after) ∧
    (∀ c ∈ before, isTrimmed c = true) ∧ ∀ c ∈ after, isTrimmed c = true := by
  refine ⟨cs.takeWhile isTrimmed, ((cs.dropWhile isTrimmed).reverse.takeWhile isTrimmed).reverse, ?_,
    fun c hc => List.mem_takeWhile_imp hc, fun c hc => List.mem_takeWhile_imp (List.mem_reverse.mp hc)⟩
  rw [trim, ← List.reverse_append, List.takeWhile_append_dropWhile, List.reverse_reverse,
    List.takeWhile_append_dropWhile]

theorem trim_of_split {before after : List Char} (hbefore : ∀ c ∈ before, isTrimmed c = true)
    (hafter : ∀ c ∈ after, isTrimmed c = true) (hinner : ∀ c ∈ cs, isTrimmed c = false) (hne : cs ≠ []) :
    trim (before ++ (cs ++ after)) = cs := by
  have hkeep : ∀ {ds : List Char} (rest : List Char), (∀ c ∈ ds, isTrimmed c = false) → ds ≠ [] →
      (ds ++ rest).dropWhile isTrimmed = ds ++ rest := by
    intro ds rest hds hne
    obtain ⟨c, ds, rfl⟩ := List.exists_cons_of_ne_nil hne
    simp [hds c List.mem_cons_self]
  have hafter' : ∀ c ∈ after.reverse, isTrimmed c = true := fun c hc => hafter c (List.mem_reverse.mp hc)
  have hinner' : ∀ c ∈ cs.reverse, isTrimmed c = false := fun c hc => hinner c (List.mem_reverse.mp hc)
  rw [trim, List.dropWhile_append_of_pos hbefore, hkeep _ hinner hne, List.reverse_append,
    List.dropWhile_append_of_pos hafter']
  have hback := hkeep [] hinner' (by simpa using hne)
  rw [List.append_nil] at hback
  rw [hback, List.reverse_reverse]

/-- `Number` reads the spellings of the grammar and no others. -/
theorem ofText_eq_finite {text : String} {double : ℚ} :
    ofText text = .finite double ↔ Spells text double := by
  obtain ⟨before, after, htext, hbefore, hafter⟩ := trim_split text.toList
  constructor
  · intro h
    unfold ofText at h
    split at h
    · rename_i hnil
      obtain rfl := JsNumber.finite.inj h
      rw [hnil, List.nil_append] at htext
      exact .blank (htext ▸ List.forall_mem_append.mpr ⟨hbefore, hafter⟩)
    · cases hliteral : literal? (trim text.toList) with
      | none =>
        rw [hliteral] at h
        cases h
      | some x =>
        rw [hliteral, Option.getD_some] at h
        obtain ⟨q, hq, hrounded⟩ := literal?_eq_finite.mp (h ▸ hliteral)
        exact .literal htext hbefore hafter hq hrounded
  · intro h
    cases h with
    | blank h =>
      have hnil : trim text.toList = [] := by
        rw [trim, List.dropWhile_eq_nil_iff.mpr h]
        rfl
      rw [ofText, hnil]
    | literal htext hbefore hafter hliteral hrounded =>
      obtain ⟨hne, hinner⟩ := hliteral.not_isTrimmed
      have htrim := trim_of_split hbefore hafter hinner hne
      rw [← htext] at htrim
      unfold ofText
      split
      · rename_i hnil
        exact absurd (htrim.symm.trans hnil) hne
      · rw [htrim, literal?_eq_finite.mpr ⟨_, hliteral, hrounded⟩, Option.getD_some]

end Trimming

end DurableRunner.Schema.JsNumber
