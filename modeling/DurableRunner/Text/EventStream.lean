import Mathlib.Data.List.Infix
import Mathlib.Data.List.TakeWhile

/-! # Event streams

The `text/event-stream` format, as its reader takes a decoded stream one UTF-16
code unit at a time. A message is dispatched at a blank line, and the last id a
source has seen is carried from one of its streams to the next.
-/
namespace DurableRunner.Text.EventStream

abbrev lineFeed : UInt16 := 0x0A
abbrev carriageReturn : UInt16 := 0x0D
abbrev space : UInt16 := 0x20
abbrev colon : UInt16 := 0x3A

/-- What a source dispatches. -/
@[ext] structure Message where
  eventType : List UInt16
  data : List UInt16
  lastEventId : List UInt16
deriving DecidableEq

/-- The fields of the unfinished block, and those that outlive it. -/
@[ext] structure Fields where
  data : List UInt16
  eventType : List UInt16
  /-- The last event ID buffer of the stream. -/
  idBuffer : List UInt16
  reconnectionTime : Option ℕ
deriving DecidableEq

namespace Fields

def eventField : List UInt16 := [0x65, 0x76, 0x65, 0x6E, 0x74]
def dataField : List UInt16 := [0x64, 0x61, 0x74, 0x61]
def idField : List UInt16 := [0x69, 0x64]
def retryField : List UInt16 := [0x72, 0x65, 0x74, 0x72, 0x79]

def decimal? (units : List UInt16) : Option ℕ :=
  if units ≠ [] ∧ units.all fun u => 0x30 ≤ u ∧ u ≤ 0x39 then
    some (units.foldl (fun n u => 10 * n + (u.toNat - 0x30)) 0)
  else none

def processField (f : Fields) (name value : List UInt16) : Fields :=
  if name = eventField then { f with eventType := value }
  else if name = dataField then { f with data := f.data ++ value ++ [lineFeed] }
  else if name = idField then
    if 0 ∈ value then f else { f with idBuffer := value }
  else if name = retryField then
    match decimal? value with
    | none => f
    | some time => { f with reconnectionTime := some time }
  else f

/-- One space after the colon is not part of the value. -/
def fieldValue : List UInt16 → List UInt16
  | [] => []
  | u :: rest => if u = space then rest else u :: rest

/-- A line that is not blank: a comment, or a field with or without a value. -/
def processLine (f : Fields) (line : List UInt16) : Fields :=
  match line.dropWhile (· ≠ colon) with
  | [] => f.processField line []
  | _ :: value =>
    if line.head? = some colon then f
    else f.processField (line.takeWhile (· ≠ colon)) (fieldValue value)

end Fields

@[ext] structure Reader where
  /-- The last unit was a carriage return, so that a line feed belongs to it. -/
  afterReturn : Bool
  /-- The units of the unfinished line. -/
  line : List UInt16
  fields : Fields
  /-- The last event ID string of the source. -/
  lastEventId : List UInt16
deriving DecidableEq

namespace Reader

def defaultType : List UInt16 := [0x6D, 0x65, 0x73, 0x73, 0x61, 0x67, 0x65]

/-- Between two blocks of a stream, and at its start. -/
def resting (id : List UInt16) (time : Option ℕ) : Reader := ⟨false, [], ⟨[], [], id, time⟩, id⟩

/-- A blank line. -/
def dispatch (r : Reader) : Reader × Option Message :=
  if r.fields.data = [] then
    ({ r with lastEventId := r.fields.idBuffer, fields := { r.fields with eventType := [] } }, none)
  else
    ({ r with
        lastEventId := r.fields.idBuffer
        fields := { r.fields with eventType := [], data := [] } },
      some {
        eventType := if r.fields.eventType = [] then defaultType else r.fields.eventType
        data :=
          if r.fields.data.getLast? = some lineFeed then r.fields.data.dropLast else r.fields.data
        lastEventId := r.fields.idBuffer })

def endLine (r : Reader) : Reader × Option Message :=
  if r.line = [] then r.dispatch
  else ({ r with line := [], fields := r.fields.processLine r.line }, none)

def step (r : Reader) (u : UInt16) : Reader × Option Message :=
  if u = lineFeed ∧ r.afterReturn = true then ({ r with afterReturn := false }, none)
  else if u = lineFeed ∨ u = carriageReturn then
    { r with afterReturn := u = carriageReturn }.endLine
  else ({ r with afterReturn := false, line := r.line ++ [u] }, none)

/-- Read a chunk, and collect what is dispatched on the way. -/
def feed : Reader → List UInt16 → Reader × List Message
  | r, [] => (r, [])
  | r, u :: units =>
    let after := r.step u
    let rest := feed after.1 units
    (rest.1, after.2.toList ++ rest.2)

@[simp] theorem feed_nil (r : Reader) : r.feed [] = (r, []) := rfl

theorem feed_cons (r : Reader) (u : UInt16) (units : List UInt16) :
    r.feed (u :: units) =
      (((r.step u).1.feed units).1, (r.step u).2.toList ++ ((r.step u).1.feed units).2) := rfl

/-- How a stream is cut into chunks does not matter. -/
theorem feed_append (r : Reader) (front back : List UInt16) :
    r.feed (front ++ back) =
      (((r.feed front).1.feed back).1, (r.feed front).2 ++ ((r.feed front).1.feed back).2) := by
  induction front generalizing r with
  | nil => rfl
  | cons u front ih => rw [List.cons_append, feed_cons, feed_cons, ih, List.append_assoc]

end Reader

def IsText (units : List UInt16) : Prop := ∀ u ∈ units, u ≠ lineFeed ∧ u ≠ carriageReturn

instance (units : List UInt16) : Decidable (IsText units) := List.decidableBAll _ units

theorem IsText.append {front back : List UInt16} (hfront : IsText front) (hback : IsText back) :
    IsText (front ++ back) := by
  intro u hu
  rcases List.mem_append.mp hu with hu | hu
  · exact hfront u hu
  · exact hback u hu

@[ext] structure Line where
  text : List UInt16
  nonempty : text ≠ []
  isText : IsText text

namespace Line

def units (line : Line) : List UInt16 := line.text ++ [lineFeed]

/-- `name: value`. -/
def field (name value : List UInt16) (hname : name ≠ [] ∧ IsText name) (hvalue : IsText value) :
    Line where
  text := name ++ colon :: space :: value
  nonempty := by simp
  isText := hname.2.append ((by decide : IsText [colon, space]).append hvalue)

def comment (text : List UInt16) (htext : IsText text) : Line where
  text := colon :: space :: text
  nonempty := by simp
  isText := (by decide : IsText [colon, space]).append htext

end Line

def blockUnits (lines : List Line) : List UInt16 := lines.flatMap Line.units ++ [lineFeed]

def Fields.processLines (f : Fields) (lines : List Line) : Fields :=
  lines.foldl (fun f line => f.processLine line.text) f

namespace Reader

/-- The state between two lines. -/
structure AtLine (r : Reader) : Prop where
  afterReturn : r.afterReturn = false
  line : r.line = []

theorem atLine_resting (id : List UInt16) (time : Option ℕ) : AtLine (resting id time) := ⟨rfl, rfl⟩

theorem feed_text {r : Reader} {units : List UInt16} (hreturn : r.afterReturn = false)
    (h : IsText units) : r.feed units = ({ r with line := r.line ++ units }, []) := by
  induction units generalizing r with
  | nil => simp
  | cons u units ih =>
    obtain ⟨hu, hunits⟩ := List.forall_mem_cons.mp h
    have hstep : r.step u = ({ r with line := r.line ++ [u] }, none) := by
      simp [step, hu.1, hu.2, hreturn]
    have hrest := ih (r := { r with line := r.line ++ [u] }) hreturn hunits
    rw [feed_cons, hstep, hrest]
    simp

theorem AtLine.feed_line {r : Reader} (h : AtLine r) (line : Line) :
    r.feed line.units = ({ r with fields := r.fields.processLine line.text }, []) := by
  have hne : lineFeed ≠ carriageReturn := by decide
  have hend : ({ r with line := line.text } : Reader).step lineFeed =
      ({ r with fields := r.fields.processLine line.text }, none) := by
    obtain ⟨afterReturn, current, fields, lastEventId⟩ := r
    obtain ⟨rfl, rfl⟩ := h
    simp [step, endLine, line.nonempty, hne]
  rw [Line.units, feed_append, feed_text h.afterReturn line.isText, h.line, List.nil_append, feed_cons,
    hend, h.line]
  rfl

theorem AtLine.feed_lines {r : Reader} (h : AtLine r) (lines : List Line) :
    r.feed (lines.flatMap Line.units) = ({ r with fields := r.fields.processLines lines }, []) := by
  induction lines generalizing r with
  | nil => rfl
  | cons line lines ih =>
    have hrest := ih (r := { r with fields := r.fields.processLine line.text }) ⟨h.afterReturn, h.line⟩
    rw [List.flatMap_cons, feed_append, h.feed_line, hrest]
    rfl

theorem AtLine.feed_block {r : Reader} (h : AtLine r) (lines : List Line) :
    r.feed (blockUnits lines) =
      let after := { r with fields := r.fields.processLines lines }.dispatch
      (after.1, after.2.toList) := by
  have hne : lineFeed ≠ carriageReturn := by decide
  have hend : ({ r with fields := r.fields.processLines lines } : Reader).step lineFeed =
      { r with fields := r.fields.processLines lines }.dispatch := by
    obtain ⟨afterReturn, current, fields, lastEventId⟩ := r
    obtain ⟨rfl, rfl⟩ := h
    simp [step, endLine, hne]
  rw [blockUnits, feed_append, h.feed_lines, feed_cons, hend]
  simp

/-- Nothing is dispatched on the way, and the source keeps its last id. -/
def Silent (r : Reader) (units : List UInt16) : Prop :=
  ∀ front, front <+: units → (r.feed front).2 = [] ∧ (r.feed front).1.lastEventId = r.lastEventId

theorem silent_append {r : Reader} {units back : List UInt16} (h : Silent r units)
    (hback : Silent (r.feed units).1 back) : Silent r (units ++ back) := by
  intro front hfront
  rcases List.prefix_or_prefix_of_prefix hfront (List.prefix_append units back) with hshort | hlong
  · exact h front hshort
  · obtain ⟨rest, rfl⟩ := hlong
    obtain ⟨hnone, hid⟩ := h units List.prefix_rfl
    obtain ⟨hnone', hid'⟩ := hback rest ((List.prefix_append_right_inj units).mp hfront)
    rw [feed_append]
    exact ⟨by rw [hnone, hnone']; rfl, hid'.trans hid⟩

theorem silent_text {r : Reader} {units : List UInt16} (hreturn : r.afterReturn = false)
    (h : IsText units) : Silent r units := by
  intro front hfront
  rw [feed_text hreturn fun u hu => h u (hfront.subset hu)]
  exact ⟨rfl, rfl⟩

theorem AtLine.silent_line {r : Reader} (h : AtLine r) (line : Line) : Silent r line.units := by
  intro front hfront
  rcases List.prefix_concat_iff.mp hfront with rfl | hfront
  · rw [← Line.units, h.feed_line]
    exact ⟨rfl, rfl⟩
  · exact silent_text h.afterReturn line.isText front hfront

theorem AtLine.silent_lines {r : Reader} (h : AtLine r) (lines : List Line) :
    Silent r (lines.flatMap Line.units) := by
  induction lines generalizing r with
  | nil => exact silent_text h.afterReturn (by simp [IsText])
  | cons line lines ih =>
    refine silent_append (h.silent_line line) ?_
    rw [h.feed_line]
    exact ih ⟨h.afterReturn, h.line⟩

/-- Cut anywhere before its end, a block dispatches nothing. -/
theorem AtLine.silent_block {r : Reader} (h : AtLine r) {lines : List Line} {front : List UInt16}
    (hfront : front <+: blockUnits lines) (hcut : front ≠ blockUnits lines) :
    (r.feed front).2 = [] ∧ (r.feed front).1.lastEventId = r.lastEventId :=
  h.silent_lines lines front ((List.prefix_concat_iff.mp hfront).resolve_left hcut)

end Reader

namespace Fields
variable {f : Fields} {name value : List UInt16}

theorem processLine_field {hname : name ≠ [] ∧ IsText name} {hvalue : IsText value}
    (hcolon : colon ∉ name) :
    f.processLine (Line.field name value hname hvalue).text = f.processField name value := by
  have hkeep : ∀ u ∈ name, decide (u ≠ colon) = true := fun u hu =>
    decide_eq_true fun he => hcolon (he ▸ hu)
  have hdrop : (name ++ colon :: space :: value).dropWhile (· ≠ colon) = colon :: space :: value := by
    rw [List.dropWhile_append_of_pos hkeep]
    simp
  have htake : (name ++ colon :: space :: value).takeWhile (· ≠ colon) = name := by
    rw [List.takeWhile_append_of_pos hkeep]
    simp
  have hhead : (name ++ colon :: space :: value).head? ≠ some colon := by
    obtain ⟨u, rest, rfl⟩ := List.exists_cons_of_ne_nil hname.1
    intro h
    exact hcolon (Option.some.inj h ▸ List.mem_cons_self)
  rw [Line.field, processLine, hdrop]
  dsimp only
  rw [if_neg hhead, htake, fieldValue, if_pos rfl]

theorem processLine_comment {text : List UInt16} {htext : IsText text} :
    f.processLine (Line.comment text htext).text = f := by
  simp [Line.comment, processLine]

end Fields

/-- A block that names all of its message, or dispatches none and keeps the id. -/
structure Block where
  lines : List Line
  message : Option Message
  feed_resting : ∀ id time, (Reader.resting id time).feed (blockUnits lines) =
    (.resting ((message.map Message.lastEventId).getD id) time, message.toList)

namespace Block

def units (b : Block) : List UInt16 := blockUnits b.lines

def comment (text : List UInt16) (htext : IsText text) : Block where
  lines := [.comment text htext]
  message := none
  feed_resting id time := by
    rw [(Reader.atLine_resting id time).feed_block]
    simp only [Fields.processLines, List.foldl_cons, List.foldl_nil, Fields.processLine_comment]
    rfl

/-- `id`, `event` and `data` fields of one line each. -/
def event (m : Message) (hid : IsText m.lastEventId ∧ 0 ∉ m.lastEventId)
    (htype : IsText m.eventType ∧ m.eventType ≠ []) (hdata : IsText m.data) : Block where
  lines := [.field Fields.idField m.lastEventId (by decide) hid.1,
    .field Fields.eventField m.eventType (by decide) htype.1,
    .field Fields.dataField m.data (by decide) hdata]
  message := some m
  feed_resting id time := by
    rw [(Reader.atLine_resting id time).feed_block]
    simp only [Fields.processLines, List.foldl_cons, List.foldl_nil]
    rw [Fields.processLine_field (by decide), Fields.processLine_field (by decide),
      Fields.processLine_field (by decide)]
    simp only [Fields.processField, Reader.resting, Reader.dispatch, hid.2, if_false, if_true,
      List.nil_append, show Fields.idField ≠ Fields.eventField by decide,
      show Fields.idField ≠ Fields.dataField by decide,
      show Fields.dataField ≠ Fields.eventField by decide]
    simp [htype.2]

def messages (blocks : List Block) : List Message := blocks.filterMap Block.message

theorem messages_cons (b : Block) (blocks : List Block) :
    messages (b :: blocks) = b.message.toList ++ messages blocks := by
  cases hb : b.message <;> simp [messages, hb]

def lastId (id : List UInt16) (messages : List Message) : List UInt16 :=
  (messages.getLast?.map Message.lastEventId).getD id

/-- Some units of the first block, but not all of it. -/
def Unfinished (blocks : List Block) (units : List UInt16) : Prop :=
  units = [] ∨ ∃ b rest, blocks = b :: rest ∧ units <+: b.units ∧ units ≠ b.units

theorem lastId_cons (id : List UInt16) (m : Message) (ms : List Message) :
    lastId id (m :: ms) = lastId m.lastEventId ms := by
  rw [lastId, lastId, List.getLast?_cons]
  cases ms.getLast? <;> rfl

theorem feed_blocks (blocks : List Block) (id : List UInt16) (time : Option ℕ) :
    (Reader.resting id time).feed (blocks.flatMap units) =
      (.resting (lastId id (messages blocks)) time, messages blocks) := by
  induction blocks generalizing id with
  | nil => rfl
  | cons b blocks ih =>
    have hid : lastId ((b.message.map Message.lastEventId).getD id) (messages blocks) =
        lastId id (messages (b :: blocks)) := by
      cases hb : b.message with
      | none => simp [messages, hb]
      | some m => rw [messages, messages, List.filterMap_cons_some hb, lastId_cons]; rfl
    rw [List.flatMap_cons, Reader.feed_append, units, b.feed_resting, ih, hid, messages_cons]

/-- A first part of a stream is some whole blocks and an unfinished one. -/
theorem exists_whole_blocks {blocks : List Block} {front : List UInt16}
    (h : front <+: blocks.flatMap units) : ∃ done rest units', blocks = done ++ rest ∧
      front = done.flatMap units ++ units' ∧ Unfinished rest units' := by
  induction blocks generalizing front with
  | nil => exact ⟨[], [], [], rfl, List.prefix_nil.mp h, .inl rfl⟩
  | cons b blocks ih =>
    rw [List.flatMap_cons] at h
    rcases List.prefix_or_prefix_of_prefix h (List.prefix_append b.units _) with hshort | hlong
    · by_cases hwhole : front = b.units
      · exact ⟨[b], blocks, [], rfl, by simp [hwhole], .inl rfl⟩
      · exact ⟨[], b :: blocks, front, rfl, rfl, .inr ⟨b, blocks, rfl, hshort, hwhole⟩⟩
    · obtain ⟨rest, rfl⟩ := hlong
      obtain ⟨done, rest', units', rfl, rfl, hunfinished⟩ :=
        ih ((List.prefix_append_right_inj b.units).mp h)
      exact ⟨b :: done, rest', units', rfl, by simp, hunfinished⟩

theorem Unfinished.append {blocks : List Block} {units : List UInt16} (h : Unfinished blocks units)
    (more : List Block) : Unfinished (blocks ++ more) units := by
  rcases h with rfl | ⟨b, rest, rfl, hunits, hcut⟩
  · exact .inl rfl
  · exact .inr ⟨b, rest ++ more, rfl, hunits, hcut⟩

theorem Unfinished.feed {blocks : List Block} {front : List UInt16} (h : Unfinished blocks front)
    (id : List UInt16) (time : Option ℕ) : ((Reader.resting id time).feed front).2 = [] ∧
      ((Reader.resting id time).feed front).1.lastEventId = id := by
  rcases h with rfl | ⟨b, rest, rfl, hfront, hcut⟩
  · exact ⟨rfl, rfl⟩
  · exact (Reader.atLine_resting id time).silent_block hfront hcut

/-- Cut anywhere, a stream has dispatched the messages of its whole blocks, and the source
remembers the last of them. -/
theorem feed_cut {blocks : List Block} {front : List UInt16} (h : front <+: blocks.flatMap units)
    (id : List UInt16) (time : Option ℕ) : ∃ done rest units', blocks = done ++ rest ∧
      front = done.flatMap units ++ units' ∧ Unfinished rest units' ∧
      (Reader.resting id time).feed front =
        (((Reader.resting (lastId id (messages done)) time).feed units').1, messages done) ∧
      ((Reader.resting id time).feed front).1.lastEventId = lastId id (messages done) := by
  obtain ⟨done, rest, units', hblocks, hfront, hunfinished⟩ := exists_whole_blocks h
  obtain ⟨hnone, hid⟩ := hunfinished.feed (lastId id (messages done)) time
  have hfeed : (Reader.resting id time).feed front =
      (((Reader.resting (lastId id (messages done)) time).feed units').1, messages done) := by
    rw [hfront, Reader.feed_append, feed_blocks, hnone, List.append_nil]
  exact ⟨done, rest, units', hblocks, hfront, hunfinished, hfeed, by rw [hfeed]; exact hid⟩

end Block
end DurableRunner.Text.EventStream
