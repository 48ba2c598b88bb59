import DurableRunner.Schema.Json
import DurableRunner.TransitionSystem.Runs

/-! # JSON text

`JSON.stringify` and `JSON.parse` over UTF-16 code units, for any way to print
and to read numbers. The parser takes one unit at a time and keeps the open
arrays and objects on a stack.
-/
namespace DurableRunner.Text.JsonText
open Schema TransitionSystem

/-- A JSON value with numbers of type `ν`. -/
inductive Value (ν : Type*) where
  | null
  | bool (value : Bool)
  | num (value : ν)
  | str (text : JsString)
  | arr (items : List (Value ν))
  | obj (members : List (JsString × Value ν))

namespace Value
variable {σ ν : Type*}

mutual
def map (f : σ → ν) : Value σ → Value ν
  | .null => .null
  | .bool b => .bool b
  | .num n => .num (f n)
  | .str s => .str s
  | .arr items => .arr (mapItems f items)
  | .obj members => .obj (mapMembers f members)

def mapItems (f : σ → ν) : List (Value σ) → List (Value ν)
  | [] => []
  | x :: xs => map f x :: mapItems f xs

def mapMembers (f : σ → ν) : List (JsString × Value σ) → List (JsString × Value ν)
  | [] => []
  | (k, x) :: xs => (k, map f x) :: mapMembers f xs
end

/-- The value of a member; a later member with the same key wins. -/
def lastMember (key : JsString) : List (JsString × Value ν) → Option (Value ν)
  | [] => none
  | (k, v) :: members => (lastMember key members).or (if k = key then some v else none)

def member (key : JsString) : Value ν → Option (Value ν)
  | .obj members => lastMember key members
  | _ => none

theorem lastMember_append (key : JsString) (front back : List (JsString × Value ν)) :
    lastMember key (front ++ back) = (lastMember key back).or (lastMember key front) := by
  induction front with
  | nil => simp [lastMember]
  | cons m front ih =>
    obtain ⟨k, v⟩ := m
    rw [List.cons_append, lastMember, lastMember, ih, Option.or_assoc]

theorem member_map (f : σ → ν) (key : JsString) (v : Value σ) :
    member key (map f v) = (member key v).map (map f) := by
  cases v with
  | obj members =>
    simp only [map, member]
    induction members with
    | nil => rfl
    | cons m members ih =>
      obtain ⟨k, x⟩ := m
      rw [mapMembers, lastMember, lastMember, ih, Option.map_or]
      split_ifs <;> rfl
  | _ => rfl

/-- Induction on a value through what is inside it. -/
theorem induction {motive : Value ν → Prop} (null : motive .null) (bool : ∀ b, motive (.bool b))
    (num : ∀ n, motive (.num n)) (str : ∀ s, motive (.str s))
    (arr : ∀ items, (∀ x ∈ items, motive x) → motive (.arr items))
    (obj : ∀ members, (∀ m ∈ members, motive m.2) → motive (.obj members)) (v : Value ν) :
    motive v :=
  @Value.rec ν motive (fun items => ∀ x ∈ items, motive x)
    (fun members => ∀ m ∈ members, motive m.2) (fun m => motive m.2) null bool num str arr obj
    (by simp) (fun _ _ hx hxs => List.forall_mem_cons.mpr ⟨hx, hxs⟩) (by simp)
    (fun _ _ hm hms => List.forall_mem_cons.mpr ⟨hm, hms⟩) (fun _ _ hv => hv) v

end Value

abbrev quotationMark : UInt16 := 0x22
abbrev comma : UInt16 := 0x2C
abbrev colon : UInt16 := 0x3A
abbrev openBracket : UInt16 := 0x5B
abbrev backslash : UInt16 := 0x5C
abbrev closeBracket : UInt16 := 0x5D
abbrev openBrace : UInt16 := 0x7B
abbrev closeBrace : UInt16 := 0x7D

def isSpace (u : UInt16) : Bool := u = 0x20 || u = 0x09 || u = 0x0A || u = 0x0D

def isDigit (u : UInt16) : Bool := 0x30 ≤ u && u ≤ 0x39

def isNumberHead (u : UInt16) : Bool := isDigit u || u = 0x2D

/-- What a number may consist of: digits, signs, the decimal point and the exponent mark. -/
def isNumberUnit (u : UInt16) : Bool :=
  isDigit u || u = 0x2D || u = 0x2B || u = 0x2E || u = 0x65 || u = 0x45

/-- How numbers of type `σ` are printed, and read back as numbers of type `ν`. -/
structure Numerals (σ ν : Type*) where
  print : σ → List UInt16
  read : List UInt16 → Option ν
  value : σ → ν
  read_print : ∀ n, read (print n) = some (value n)
  print_head : ∀ n, ∃ u rest, print n = u :: rest ∧ isNumberHead u = true
  print_units : ∀ n, ∀ u ∈ print n, isNumberUnit u = true

def shortEscape? (u : UInt16) : Option UInt16 :=
  if u = 0x08 then some 0x62
  else if u = 0x09 then some 0x74
  else if u = 0x0A then some 0x6E
  else if u = 0x0C then some 0x66
  else if u = 0x0D then some 0x72
  else if u = quotationMark ∨ u = backslash then some u
  else none

def unescape? (u : UInt16) : Option UInt16 :=
  if u = 0x62 then some 0x08
  else if u = 0x74 then some 0x09
  else if u = 0x6E then some 0x0A
  else if u = 0x66 then some 0x0C
  else if u = 0x72 then some 0x0D
  else if u = quotationMark ∨ u = backslash ∨ u = 0x2F then some u
  else none

def hexDigit (d : ℕ) : UInt16 := UInt16.ofNat (if d < 10 then 0x30 + d else 0x57 + d)

def hexValue? (u : UInt16) : Option ℕ :=
  if 0x30 ≤ u ∧ u ≤ 0x39 then some (u.toNat - 0x30)
  else if 0x61 ≤ u ∧ u ≤ 0x66 then some (u.toNat - 0x57)
  else if 0x41 ≤ u ∧ u ≤ 0x46 then some (u.toNat - 0x37)
  else none

/-- `\uXXXX`. -/
def unicodeEscape (u : UInt16) : List UInt16 :=
  [backslash, 0x75, hexDigit (u.toNat / 4096), hexDigit (u.toNat / 256 % 16),
    hexDigit (u.toNat / 16 % 16), hexDigit (u.toNat % 16)]

def quoteUnit (u : UInt16) : List UInt16 :=
  match shortEscape? u with
  | some e => [backslash, e]
  | none =>
    if u < 0x20 ∨ JsString.isHighSurrogate u ∨ JsString.isLowSurrogate u then unicodeEscape u else [u]

/-- The inside of a string literal. A surrogate pair is written as it is. -/
def quoteUnits : JsString → List UInt16
  | [] => []
  | [u] => quoteUnit u
  | u :: v :: rest =>
    if JsString.isHighSurrogate u && JsString.isLowSurrogate v then u :: v :: quoteUnits rest
    else quoteUnit u ++ quoteUnits (v :: rest)

/-- `QuoteJSONString`. -/
def quote (text : JsString) : List UInt16 := quotationMark :: quoteUnits text ++ [quotationMark]

def nullText : List UInt16 := [0x6E, 0x75, 0x6C, 0x6C]
def trueText : List UInt16 := [0x74, 0x72, 0x75, 0x65]
def falseText : List UInt16 := [0x66, 0x61, 0x6C, 0x73, 0x65]

section Stringify
variable {σ : Type*} (print : σ → List UInt16)

mutual
def stringify : Value σ → List UInt16
  | .null => nullText
  | .bool true => trueText
  | .bool false => falseText
  | .num n => print n
  | .str text => quote text
  | .arr [] => [openBracket, closeBracket]
  | .arr (x :: xs) => openBracket :: stringify x ++ stringifyItems xs ++ [closeBracket]
  | .obj [] => [openBrace, closeBrace]
  | .obj ((k, x) :: xs) =>
    openBrace :: quote k ++ colon :: stringify x ++ stringifyMembers xs ++ [closeBrace]

def stringifyItems : List (Value σ) → List UInt16
  | [] => []
  | x :: xs => comma :: stringify x ++ stringifyItems xs

def stringifyMembers : List (JsString × Value σ) → List UInt16
  | [] => []
  | (k, x) :: xs => comma :: quote k ++ colon :: stringify x ++ stringifyMembers xs
end

end Stringify

/-- An open array or object, before the value that is being read. -/
inductive Frame (ν : Type*) where
  | arr (items : List (Value ν))
  | obj (members : List (JsString × Value ν)) (key : JsString)

inductive Escape where
  | none
  | backslash
  | hex (value left : ℕ)

inductive Mode (ν : Type*) where
  /-- A value, or the end of an array that has just been opened. -/
  | value (mayClose : Bool)
  | literal (rest : List UInt16) (v : Value ν)
  | number (units : List UInt16)
  /-- A string, or a key of an object with the given members. -/
  | text (members : Option (List (JsString × Value ν))) (units : JsString) (escape : Escape)
  | key (members : List (JsString × Value ν)) (mayClose : Bool)
  | colon (members : List (JsString × Value ν)) (key : JsString)
  | after (v : Value ν)

structure Parser (ν : Type*) where
  mode : Mode ν
  stack : List (Frame ν)

namespace Parser
variable {ν : Type*} (read : List UInt16 → Option ν)

def valueStep (mayClose : Bool) (stack : List (Frame ν)) (u : UInt16) : Option (Parser ν) :=
  if isSpace u then some ⟨.value mayClose, stack⟩
  else if u = quotationMark then some ⟨.text none [] .none, stack⟩
  else if u = openBracket then some ⟨.value true, .arr [] :: stack⟩
  else if u = openBrace then some ⟨.key [] true, stack⟩
  else if u = 0x6E then some ⟨.literal nullText.tail .null, stack⟩
  else if u = 0x74 then some ⟨.literal trueText.tail (.bool true), stack⟩
  else if u = 0x66 then some ⟨.literal falseText.tail (.bool false), stack⟩
  else if isNumberHead u then some ⟨.number [u], stack⟩
  else if u = closeBracket ∧ mayClose = true then
    match stack with
    | .arr items :: stack => some ⟨.after (.arr items), stack⟩
    | _ => none
  else none

def afterStep (v : Value ν) (stack : List (Frame ν)) (u : UInt16) : Option (Parser ν) :=
  if isSpace u then some ⟨.after v, stack⟩
  else
    match stack with
    | [] => none
    | .arr items :: stack =>
      if u = comma then some ⟨.value false, .arr (items ++ [v]) :: stack⟩
      else if u = closeBracket then some ⟨.after (.arr (items ++ [v])), stack⟩
      else none
    | .obj members key :: stack =>
      if u = comma then some ⟨.key (members ++ [(key, v)]) false, stack⟩
      else if u = closeBrace then some ⟨.after (.obj (members ++ [(key, v)])), stack⟩
      else none

def keyStep (members : List (JsString × Value ν)) (mayClose : Bool) (stack : List (Frame ν))
    (u : UInt16) : Option (Parser ν) :=
  if isSpace u then some ⟨.key members mayClose, stack⟩
  else if u = quotationMark then some ⟨.text (some members) [] .none, stack⟩
  else if u = closeBrace ∧ mayClose = true then some ⟨.after (.obj members), stack⟩
  else none

def endText (members : Option (List (JsString × Value ν))) (units : JsString) : Mode ν :=
  match members with
  | none => .after (.str units)
  | some members => .colon members units

def textStep (members : Option (List (JsString × Value ν))) (units : JsString)
    (stack : List (Frame ν)) (u : UInt16) : Escape → Option (Parser ν)
  | .none =>
    if u = quotationMark then some ⟨endText members units, stack⟩
    else if u = backslash then some ⟨.text members units .backslash, stack⟩
    else if u < 0x20 then none
    else some ⟨.text members (units ++ [u]) .none, stack⟩
  | .backslash =>
    if u = 0x75 then some ⟨.text members units (.hex 0 3), stack⟩
    else (unescape? u).map fun c => ⟨.text members (units ++ [c]) .none, stack⟩
  | .hex value left =>
    (hexValue? u).map fun d =>
      match left with
      | 0 => ⟨.text members (units ++ [UInt16.ofNat (16 * value + d)]) .none, stack⟩
      | left + 1 => ⟨.text members units (.hex (16 * value + d) left), stack⟩

def step (p : Parser ν) (u : UInt16) : Option (Parser ν) :=
  match p.mode with
  | .value mayClose => valueStep mayClose p.stack u
  | .literal rest v =>
    match rest with
    | [] => none
    | [c] => if u = c then some ⟨.after v, p.stack⟩ else none
    | c :: rest => if u = c then some ⟨.literal rest v, p.stack⟩ else none
  | .number units =>
    if isNumberUnit u then some ⟨.number (units ++ [u]), p.stack⟩
    else (read units).bind fun n => afterStep (.num n) p.stack u
  | .text members units escape => textStep members units p.stack u escape
  | .key members mayClose => keyStep members mayClose p.stack u
  | .colon members key =>
    if isSpace u then some p
    else if u = colon then some ⟨.value false, .obj members key :: p.stack⟩
    else none
  | .after v => afterStep v p.stack u

def finish (p : Parser ν) : Option (Value ν) :=
  match p.stack, p.mode with
  | [], .after v => some v
  | [], .number units => (read units).map .num
  | _, _ => none

/-- The value of the rest of a text. -/
def resume (p : Parser ν) (units : List UInt16) : Option (Value ν) :=
  (run (step read) p units).bind (finish read)

end Parser

def parse {ν : Type*} (read : List UInt16 → Option ν) (units : List UInt16) : Option (Value ν) :=
  Parser.resume read ⟨.value false, []⟩ units

theorem above_of_pair {u v : UInt16}
    (h : (JsString.isHighSurrogate u && JsString.isLowSurrogate v) = true) :
    (0x5C : UInt16) < u ∧ (0x5C : UInt16) < v := by
  simp only [JsString.isHighSurrogate, JsString.isLowSurrogate, Bool.and_eq_true,
    decide_eq_true_eq, UInt16.le_iff_toNat_le] at h
  simp only [UInt16.lt_iff_toNat_lt]
  simp only [UInt16.reduceToNat] at h ⊢
  omega

theorem not_control {u : UInt16} (h : 0x5C < u) : ¬ u < 0x20 := by
  simp only [UInt16.lt_iff_toNat_lt, UInt16.reduceToNat] at h ⊢
  omega

theorem unescape?_of_shortEscape? {u e : UInt16} (h : shortEscape? u = some e) :
    e ≠ 0x75 ∧ unescape? e = some u := by
  unfold shortEscape? at h
  split_ifs at h
  all_goals obtain rfl := Option.some.inj h
  any_goals
    subst_vars
    decide
  rename_i hself
  rcases hself with rfl | rfl <;> decide

theorem hexValue?_hexDigit {d : ℕ} (h : d < 16) : hexValue? (hexDigit d) = some d := by
  have hall : ∀ d : Fin 16, hexValue? (hexDigit d.val) = some d.val := by decide
  exact hall ⟨d, h⟩

namespace Parser
variable {ν : Type*} {read : List UInt16 → Option ν}

theorem resume_cons (p : Parser ν) (u : UInt16) (units : List UInt16) :
    resume read p (u :: units) = (step read p u).bind fun q => resume read q units := by
  rw [resume, run_cons, Option.bind_assoc]
  rfl

theorem resume_append (p : Parser ν) (front back : List UInt16) :
    resume read p (front ++ back) = (run (step read) p front).bind fun q => resume read q back := by
  rw [resume, run_append, Option.bind_assoc]
  rfl

section Texts
variable (members : Option (List (JsString × Value ν))) (stack : List (Frame ν)) (acc : JsString)

theorem textStep_high {u : UInt16} (h : 0x5C < u) :
    textStep members acc stack u .none = some ⟨.text members (acc ++ [u]) .none, stack⟩ := by
  have hquote : u ≠ quotationMark := by
    rintro rfl
    exact absurd h (by decide)
  have hbackslash : u ≠ backslash := by
    rintro rfl
    exact absurd h (by decide)
  simp [textStep, hquote, hbackslash, not_control h]

theorem step_text (units : JsString) (escape : Escape) (u : UInt16) :
    step read ⟨.text members units escape, stack⟩ u = textStep members units stack u escape := rfl

theorem textStep_backslash : textStep members acc stack backslash .none =
    some ⟨.text members acc .backslash, stack⟩ := by
  simp [textStep, show backslash ≠ quotationMark by decide]

theorem textStep_hex {u : UInt16} {d value : ℕ} (h : hexValue? u = some d) (left : ℕ) :
    textStep members acc stack u (.hex value (left + 1)) =
      some ⟨.text members acc (.hex (16 * value + d) left), stack⟩ := by
  rw [textStep, h, Option.map_some]

theorem textStep_lastHex {u : UInt16} {d value : ℕ} (h : hexValue? u = some d) :
    textStep members acc stack u (.hex value 0) =
      some ⟨.text members (acc ++ [UInt16.ofNat (16 * value + d)]) .none, stack⟩ := by
  rw [textStep, h, Option.map_some]

theorem run_unicodeEscape (u : UInt16) :
    run (step read) ⟨.text members acc .none, stack⟩ (unicodeEscape u) =
      some ⟨.text members (acc ++ [u]) .none, stack⟩ := by
  have hlt : u.toNat < 65536 := u.toNat_lt
  have hvalue : UInt16.ofNat (16 * (16 * (16 * (16 * 0 + u.toNat / 4096) + u.toNat / 256 % 16) +
      u.toNat / 16 % 16) + u.toNat % 16) = u := by
    rw [show 16 * (16 * (16 * (16 * 0 + u.toNat / 4096) + u.toNat / 256 % 16) +
      u.toNat / 16 % 16) + u.toNat % 16 = u.toNat by omega, UInt16.ofNat_toNat]
  have hu : textStep members acc stack 0x75 .backslash =
      some ⟨.text members acc (.hex 0 3), stack⟩ := by simp [textStep]
  rw [unicodeEscape, run_cons, step_text, textStep_backslash, Option.bind_some, run_cons, step_text, hu,
    Option.bind_some, run_cons, step_text, textStep_hex _ _ _ (hexValue?_hexDigit (by omega)),
    Option.bind_some, run_cons, step_text, textStep_hex _ _ _ (hexValue?_hexDigit (by omega)),
    Option.bind_some, run_cons, step_text, textStep_hex _ _ _ (hexValue?_hexDigit (by omega)),
    Option.bind_some, run_cons, step_text, textStep_lastHex _ _ _ (hexValue?_hexDigit (by omega)), hvalue]
  rfl

theorem run_quoteUnit (u : UInt16) :
    run (step read) ⟨.text members acc .none, stack⟩ (quoteUnit u) =
      some ⟨.text members (acc ++ [u]) .none, stack⟩ := by
  unfold quoteUnit
  cases hshort : shortEscape? u with
  | some e =>
    obtain ⟨hne, hunescape⟩ := unescape?_of_shortEscape? hshort
    have he : textStep members acc stack e .backslash =
        some ⟨.text members (acc ++ [u]) .none, stack⟩ := by simp [textStep, hne, hunescape]
    rw [run_cons, step_text, textStep_backslash, Option.bind_some, run_cons, step_text, he]
    rfl
  | none =>
    dsimp only
    split_ifs with hescaped
    · exact run_unicodeEscape members stack acc u
    · have hplain : ¬(u = quotationMark ∨ u = backslash) := by
        unfold shortEscape? at hshort
        split_ifs at hshort
        assumption
      have hcontrol : ¬ u < 0x20 := fun h => hescaped (.inl h)
      have hu : textStep members acc stack u .none =
          some ⟨.text members (acc ++ [u]) .none, stack⟩ := by
        simp [textStep, not_or.mp hplain, hcontrol]
      rw [run_cons, step_text, hu]
      rfl

theorem run_quoteUnits (text : JsString) :
    run (step read) ⟨.text members acc .none, stack⟩ (quoteUnits text) =
      some ⟨.text members (acc ++ text) .none, stack⟩ := by
  induction text using quoteUnits.induct generalizing acc with
  | case1 => simp [quoteUnits]
  | case2 u => exact run_quoteUnit members stack acc u
  | case3 u v rest hpair ih =>
    have hboth := above_of_pair hpair
    have hu : step read ⟨.text members acc .none, stack⟩ u =
        some ⟨.text members (acc ++ [u]) .none, stack⟩ := textStep_high members stack acc hboth.1
    have hv : step read ⟨.text members (acc ++ [u]) .none, stack⟩ v =
        some ⟨.text members (acc ++ [u] ++ [v]) .none, stack⟩ :=
      textStep_high members stack (acc ++ [u]) hboth.2
    rw [quoteUnits, if_pos hpair, run_cons, hu, Option.bind_some, run_cons, hv, Option.bind_some, ih]
    simp
  | case4 u v rest hpair ih =>
    rw [quoteUnits, if_neg hpair, run_append, run_quoteUnit, Option.bind_some, ih]
    simp

/-- Behind the opening quotation mark of a string or of a key. -/
theorem resume_quoted (text : JsString) (rest : List UInt16) :
    resume read ⟨.text members [] .none, stack⟩ (quoteUnits text ++ quotationMark :: rest) =
      resume read ⟨endText members text, stack⟩ rest := by
  rw [resume_append, run_quoteUnits, Option.bind_some, resume_cons]
  simp [step, textStep]

end Texts
def Delimited (rest : List UInt16) : Prop := ∀ u ∈ rest.head?, isNumberUnit u = false

section Numbers
variable (stack : List (Frame ν))

theorem valueStep_number {u : UInt16} (h : isNumberHead u = true) (mayClose : Bool) :
    valueStep mayClose stack u = some ⟨.number [u], stack⟩ := by
  have hne : ∀ c, isNumberHead c = false → u ≠ c := by
    rintro c hc rfl
    exact absurd h (by simp [hc])
  have hspace : isSpace u = false := by
    simp [isSpace, hne 0x20 rfl, hne 0x09 rfl, hne 0x0A rfl, hne 0x0D rfl]
  simp [valueStep, hspace, hne quotationMark rfl, hne openBracket rfl, hne openBrace rfl,
    hne 0x6E rfl, hne 0x74 rfl, hne 0x66 rfl, h]

theorem run_number {units : List UInt16} (h : ∀ u ∈ units, isNumberUnit u = true)
    (acc : List UInt16) :
    run (step read) ⟨.number acc, stack⟩ units = some ⟨.number (acc ++ units), stack⟩ := by
  induction units generalizing acc with
  | nil => simp
  | cons u units ih =>
    obtain ⟨hu, hunits⟩ := List.forall_mem_cons.mp h
    have hstep : step read ⟨.number acc, stack⟩ u = some ⟨.number (acc ++ [u]), stack⟩ := if_pos hu
    rw [run_cons, hstep, Option.bind_some, ih hunits, List.append_assoc]
    rfl

theorem resume_number {units rest : List UInt16} {n : ν} (hread : read units = some n)
    (hrest : Delimited rest) : resume read ⟨.number units, stack⟩ rest =
      resume read ⟨.after (.num n), stack⟩ rest := by
  cases rest with
  | nil => cases stack <;> simp [resume, finish, hread]
  | cons u rest =>
    have hu : isNumberUnit u = false := hrest u rfl
    rw [resume_cons, resume_cons]
    simp [step, hu, hread]

end Numbers

section Values
variable {σ : Type*} (numerals : Numerals σ ν)

/-- A value that is read back wherever one is expected. -/
def ReadsBack (v : Value σ) : Prop :=
  ∀ mayClose stack rest, Delimited rest →
    resume numerals.read ⟨.value mayClose, stack⟩ (stringify numerals.print v ++ rest) =
      resume numerals.read ⟨.after (v.map numerals.value), stack⟩ rest

theorem readsBack_num (n : σ) : ReadsBack numerals (.num n) := by
  intro mayClose stack rest hrest
  obtain ⟨u, units, hprint, hhead⟩ := numerals.print_head n
  have hunits : ∀ u ∈ units, isNumberUnit u = true := fun c hc =>
    numerals.print_units n c (hprint ▸ List.mem_cons_of_mem _ hc)
  have hstep : step numerals.read ⟨.value mayClose, stack⟩ u = some ⟨.number [u], stack⟩ :=
    valueStep_number stack hhead mayClose
  rw [stringify, hprint, List.cons_append, resume_cons, hstep, Option.bind_some, resume_append,
    run_number stack hunits, Option.bind_some, List.singleton_append, ← hprint]
  exact resume_number stack (numerals.read_print n) hrest

theorem readsBack_str (text : JsString) : ReadsBack numerals (.str text) := by
  intro mayClose stack rest _
  rw [stringify, quote, List.cons_append, List.cons_append, List.append_assoc, resume_cons]
  exact resume_quoted none stack text rest

theorem delimited_items (xs : List (Value σ)) (rest : List UInt16) :
    Delimited (stringifyItems numerals.print xs ++ closeBracket :: rest) := by
  cases xs <;> simp [Delimited, stringifyItems] <;> decide

theorem resume_items {xs : List (Value σ)} (h : ∀ x ∈ xs, ReadsBack numerals x)
    (stack : List (Frame ν)) (items : List (Value ν)) (v : Value ν) (rest : List UInt16) :
    resume numerals.read ⟨.after v, .arr items :: stack⟩
        (stringifyItems numerals.print xs ++ closeBracket :: rest) =
      resume numerals.read ⟨.after (.arr (items ++ v :: Value.mapItems numerals.value xs)), stack⟩
        rest := by
  induction xs generalizing items v with
  | nil => exact resume_cons _ _ _
  | cons x xs ih =>
    obtain ⟨hx, hxs⟩ := List.forall_mem_cons.mp h
    have hcomma : step numerals.read ⟨.after v, .arr items :: stack⟩ comma =
        some ⟨.value false, .arr (items ++ [v]) :: stack⟩ := rfl
    rw [stringifyItems, List.cons_append, List.cons_append, resume_cons, hcomma, Option.bind_some,
      List.append_assoc, hx _ _ _ (delimited_items numerals xs rest), ih hxs]
    simp [Value.mapItems]

theorem readsBack_arr {items : List (Value σ)} (h : ∀ x ∈ items, ReadsBack numerals x) :
    ReadsBack numerals (.arr items) := by
  intro mayClose stack rest _
  have hopen : step numerals.read ⟨.value mayClose, stack⟩ openBracket =
      some ⟨.value true, .arr [] :: stack⟩ := rfl
  cases items with
  | nil =>
    rw [stringify, List.cons_append, resume_cons, hopen]
    exact resume_cons _ _ _
  | cons x xs =>
    obtain ⟨hx, hxs⟩ := List.forall_mem_cons.mp h
    simp only [stringify, List.cons_append, List.append_assoc, List.nil_append]
    rw [resume_cons, hopen, Option.bind_some, hx _ _ _ (delimited_items numerals xs rest),
      resume_items numerals hxs]
    rfl

theorem delimited_members (xs : List (JsString × Value σ)) (rest : List UInt16) :
    Delimited (stringifyMembers numerals.print xs ++ closeBrace :: rest) := by
  cases xs <;> simp [Delimited, stringifyMembers] <;> decide

theorem resume_member {x : Value σ} (h : ReadsBack numerals x) (stack : List (Frame ν))
    (members : List (JsString × Value ν)) (mayClose : Bool) (k : JsString) {rest : List UInt16}
    (hrest : Delimited rest) :
    resume numerals.read ⟨.key members mayClose, stack⟩
        (quote k ++ colon :: (stringify numerals.print x ++ rest)) =
      resume numerals.read ⟨.after (x.map numerals.value), .obj members k :: stack⟩ rest := by
  have hquote : step numerals.read ⟨.key members mayClose, stack⟩ quotationMark =
      some ⟨.text (some members) [] .none, stack⟩ := rfl
  have hcolon : step numerals.read ⟨endText (some members) k, stack⟩ colon =
      some ⟨.value false, .obj members k :: stack⟩ := rfl
  rw [quote, List.cons_append, List.cons_append, List.append_assoc, resume_cons, hquote,
    Option.bind_some, List.singleton_append, resume_quoted, resume_cons, hcolon, Option.bind_some, h _ _ _ hrest]

theorem resume_members {xs : List (JsString × Value σ)} (h : ∀ m ∈ xs, ReadsBack numerals m.2)
    (stack : List (Frame ν)) (members : List (JsString × Value ν)) (k : JsString) (v : Value ν)
    (rest : List UInt16) :
    resume numerals.read ⟨.after v, .obj members k :: stack⟩
        (stringifyMembers numerals.print xs ++ closeBrace :: rest) =
      resume numerals.read
        ⟨.after (.obj (members ++ (k, v) :: Value.mapMembers numerals.value xs)), stack⟩ rest := by
  induction xs generalizing members k v with
  | nil => exact resume_cons _ _ _
  | cons m xs ih =>
    obtain ⟨l, x⟩ := m
    obtain ⟨hx, hxs⟩ := List.forall_mem_cons.mp h
    have hcomma : step numerals.read ⟨.after v, .obj members k :: stack⟩ comma =
        some ⟨.key (members ++ [(k, v)]) false, stack⟩ := rfl
    simp only [stringifyMembers, List.cons_append, List.append_assoc]
    rw [resume_cons, hcomma, Option.bind_some,
      resume_member numerals hx _ _ _ _ (delimited_members numerals xs rest), ih hxs]
    simp [Value.mapMembers]

theorem readsBack_obj {members : List (JsString × Value σ)}
    (h : ∀ m ∈ members, ReadsBack numerals m.2) : ReadsBack numerals (.obj members) := by
  intro mayClose stack rest _
  have hopen : step numerals.read ⟨.value mayClose, stack⟩ openBrace =
      some ⟨.key [] true, stack⟩ := rfl
  cases members with
  | nil =>
    rw [stringify, List.cons_append, resume_cons, hopen]
    exact resume_cons _ _ _
  | cons m xs =>
    obtain ⟨k, x⟩ := m
    obtain ⟨hx, hxs⟩ := List.forall_mem_cons.mp h
    simp only [stringify, List.cons_append, List.append_assoc, List.nil_append]
    rw [resume_cons, hopen, Option.bind_some,
      resume_member numerals hx _ _ _ _ (delimited_members numerals xs rest),
      resume_members numerals hxs]
    rfl

theorem readsBack (v : Value σ) : ReadsBack numerals v := by
  induction v using Value.induction with
  | null => exact fun _ _ _ _ => rfl
  | bool b => cases b <;> exact fun _ _ _ _ => rfl
  | num n => exact readsBack_num numerals n
  | str text => exact readsBack_str numerals text
  | arr items ih => exact readsBack_arr numerals ih
  | obj members ih => exact readsBack_obj numerals ih

end Values
end Parser

/-- What `JSON.stringify` writes, `JSON.parse` reads back. -/
theorem parse_stringify {σ ν : Type*} (numerals : Numerals σ ν) (v : Value σ) :
    parse numerals.read (stringify numerals.print v) = some (v.map numerals.value) := by
  have hread := Parser.readsBack numerals v false [] [] (by simp [Parser.Delimited])
  rw [List.append_nil] at hread
  rw [parse, hread]
  rfl

def isPrintable (u : UInt16) : Bool := 0x20 ≤ u && u < 0x80

theorem isPrintable_hexDigit {d : ℕ} (h : d < 16) : isPrintable (hexDigit d) = true := by
  have hall : ∀ d : Fin 16, isPrintable (hexDigit d.val) = true := by decide
  exact hall ⟨d, h⟩

theorem isPrintable_unicodeEscape (u : UInt16) : ∀ c ∈ unicodeEscape u, isPrintable c = true := by
  have hlt : u.toNat < 65536 := u.toNat_lt
  simp only [unicodeEscape, List.forall_mem_cons, List.not_mem_nil, false_implies, implies_true,
    and_true]
  exact ⟨by decide, by decide, isPrintable_hexDigit (by omega), isPrintable_hexDigit (by omega),
    isPrintable_hexDigit (by omega), isPrintable_hexDigit (by omega)⟩

theorem isPrintable_shortEscape {u e : UInt16} (h : shortEscape? u = some e) :
    isPrintable e = true := by
  unfold shortEscape? at h
  split_ifs at h
  all_goals obtain rfl := Option.some.inj h
  any_goals decide
  rename_i hself
  rcases hself with rfl | rfl <;> decide

/-- A unit is escaped in printable ASCII, or is no control character and stands for itself. -/
theorem quoteUnit_cases (u : UInt16) : (∀ c ∈ quoteUnit u, isPrintable c = true) ∨
    (quoteUnit u = [u] ∧ ¬ u < 0x20 ∧ JsString.isHighSurrogate u = false ∧
      JsString.isLowSurrogate u = false) := by
  unfold quoteUnit
  cases hshort : shortEscape? u with
  | some e =>
    refine .inl (List.forall_mem_cons.mpr ⟨by decide, ?_⟩)
    simpa using isPrintable_shortEscape hshort
  | none =>
    dsimp only
    split_ifs with hescaped
    · exact .inl (isPrintable_unicodeEscape u)
    · simp only [not_or, Bool.not_eq_true] at hescaped
      exact .inr ⟨rfl, hescaped⟩

section Pieces
variable {σ ν : Type*} (numerals : Numerals σ ν) {Good : List UInt16 → Prop}

/-- What printable ASCII and the insides of string literals have, and what appending keeps, every
JSON text has. -/
theorem stringify_pieces (append : ∀ front back, Good front → Good back → Good (front ++ back))
    (printable : ∀ units, units.all isPrintable = true → Good units)
    (quoted : ∀ text, Good (quoteUnits text)) (v : Value σ) : Good (stringify numerals.print v) := by
  have hunit : ∀ u rest, isPrintable u = true → Good rest → Good (u :: rest) := fun u rest hu =>
    append [u] rest (printable [u] (by simpa using hu))
  have hnil : Good [] := printable [] (by simp)
  have hquote : ∀ text, Good (quote text) := fun text =>
    append _ _ (hunit _ _ (by decide) (quoted text)) (hunit _ _ (by decide) hnil)
  induction v using Value.induction with
  | null => exact printable nullText (by decide)
  | bool b =>
    cases b with
    | false => exact printable falseText (by decide)
    | true => exact printable trueText (by decide)
  | num n =>
    refine printable _ (List.all_eq_true.mpr fun u hu => ?_)
    have hunits := numerals.print_units n u hu
    simp only [isNumberUnit, isDigit, Bool.or_eq_true, Bool.and_eq_true, decide_eq_true_eq,
      UInt16.le_iff_toNat_le] at hunits
    simp only [isPrintable, Bool.and_eq_true, decide_eq_true_eq, UInt16.le_iff_toNat_le,
      UInt16.lt_iff_toNat_lt]
    rcases hunits with ((((hunits | rfl) | rfl) | rfl) | rfl) | rfl
    · simp only [UInt16.reduceToNat] at hunits ⊢
      omega
    all_goals decide
  | str text => exact hquote text
  | arr items ih =>
    have hitems : ∀ xs : List (Value σ), (∀ x ∈ xs, Good (stringify numerals.print x)) →
        Good (stringifyItems numerals.print xs) := by
      intro xs hxs
      induction xs with
      | nil => exact hnil
      | cons x xs ihxs =>
        obtain ⟨hx, hxs⟩ := List.forall_mem_cons.mp hxs
        exact append _ _ (hunit _ _ (by decide) hx) (ihxs hxs)
    cases items with
    | nil => exact printable [openBracket, closeBracket] (by decide)
    | cons x xs =>
      obtain ⟨hx, hxs⟩ := List.forall_mem_cons.mp ih
      exact append _ _ (append _ _ (hunit _ _ (by decide) hx) (hitems xs hxs))
        (hunit _ _ (by decide) hnil)
  | obj members ih =>
    have hmembers : ∀ xs : List (JsString × Value σ), (∀ m ∈ xs, Good (stringify numerals.print m.2)) →
        Good (stringifyMembers numerals.print xs) := by
      intro xs hxs
      induction xs with
      | nil => exact hnil
      | cons m xs ihxs =>
        obtain ⟨hm, hxs⟩ := List.forall_mem_cons.mp hxs
        exact append _ _ (append _ _ (hunit _ _ (by decide) (hquote m.1)) (hunit _ _ (by decide) hm))
          (ihxs hxs)
    cases members with
    | nil => exact printable [openBrace, closeBrace] (by decide)
    | cons m xs =>
      obtain ⟨hm, hxs⟩ := List.forall_mem_cons.mp ih
      exact append _ _ (append _ _ (append _ _ (hunit _ _ (by decide) (hquote m.1))
        (hunit _ _ (by decide) hm)) (hmembers xs hxs)) (hunit _ _ (by decide) hnil)

end Pieces

theorem not_control_stringify {σ ν : Type*} (numerals : Numerals σ ν) (v : Value σ) :
    ∀ u ∈ stringify numerals.print v, ¬ u < 0x20 := by
  refine @stringify_pieces _ _ numerals (fun units => ∀ u ∈ units, ¬ u < 0x20) ?_ ?_ ?_ v
  · intro front back hfront hback u hu
    exact (List.mem_append.mp hu).elim (hfront u) (hback u)
  · intro units h u hu hcontrol
    have hprintable := List.all_eq_true.mp h u hu
    simp only [isPrintable, Bool.and_eq_true, decide_eq_true_eq] at hprintable
    exact absurd hcontrol (UInt16.not_lt.mpr hprintable.1)
  · intro text
    have hunit : ∀ u, ∀ c ∈ quoteUnit u, ¬ c < 0x20 := by
      intro u c hc hcontrol
      rcases quoteUnit_cases u with hprintable | ⟨hself, hplain, -⟩
      · have hprintable := hprintable c hc
        simp only [isPrintable, Bool.and_eq_true, decide_eq_true_eq] at hprintable
        exact UInt16.not_lt.mpr hprintable.1 hcontrol
      · rw [hself, List.mem_singleton] at hc
        exact hplain (hc ▸ hcontrol)
    induction text using quoteUnits.induct with
    | case1 => simp [quoteUnits]
    | case2 u => exact hunit u
    | case3 u v rest hpair ih =>
      have hboth := above_of_pair hpair
      rw [quoteUnits, if_pos hpair]
      exact List.forall_mem_cons.mpr ⟨not_control hboth.1,
        List.forall_mem_cons.mpr ⟨not_control hboth.2, ih⟩⟩
    | case4 u v rest hpair ih =>
      rw [quoteUnits, if_neg hpair]
      intro c hc
      exact (List.mem_append.mp hc).elim (hunit u c) (ih c)

end DurableRunner.Text.JsonText
