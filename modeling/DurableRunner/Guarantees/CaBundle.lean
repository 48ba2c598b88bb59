import DurableRunner.Startup.CaBundle
import Mathlib.Data.List.Pairwise

/-! # Which CA bundles are accepted whole -/
namespace DurableRunner.Guarantees
open Text Startup

/-- The certificate is the block of the file that the marker at `start` opens. -/
def BlockAt (pem : String) (start : ℕ) (certificate : String) : Prop :=
  ∃ q, Closes beginMarker endMarker pem.toList start q ∧
    start + certificate.length = q + endMarker.length ∧
    certificate.toList = (pem.toList.drop start).take certificate.length

/-- The certificates are blocks of the file, in file order, each one a CA certificate, and
no marker of the file begins anything else. -/
structure WholeBundle (parse : X509Certificate) (pem : String) (certificates : List String) :
    Prop where
  nonempty : certificates ≠ []
  parsed : ∀ certificate ∈ certificates, parse certificate = .ok true
  placed : ∃ blocks : List (ℕ × String), blocks.map Prod.snd = certificates ∧
    (∀ block ∈ blocks, BlockAt pem block.1 block.2) ∧
    (blocks.Pairwise fun block later => block.1 + block.2.length ≤ later.1) ∧
    ∀ p, OccursAt beginMarker pem.toList p → p ∈ blocks.map Prod.fst

/-- The block ends before the other begins, or the other way round. -/
def Apart (block other : ℕ × String) : Prop :=
  block.1 + block.2.length ≤ other.1 ∨ other.1 + other.2.length ≤ block.1

instance : Std.Symm Apart := ⟨fun _ _ => Or.symm⟩

/-- A text in which a second BEGIN marker precedes an END marker does not parse. -/
def RefusesSpliced (parse : X509Certificate) : Prop :=
  ∀ text : String, (∃ i j k, i < j ∧ j + beginMarker.length ≤ k ∧
    OccursAt beginMarker text.toList i ∧ OccursAt beginMarker text.toList j ∧
    OccursAt endMarker text.toList k) → ∃ message, parse text = .error message

/-- Every BEGIN marker is followed by an END marker, and shares no dashes with the END marker
that closes another. -/
def Delimited (pem : String) : Prop :=
  ∀ p, OccursAt beginMarker pem.toList p →
    (∃ q, p + beginMarker.length < q ∧ OccursAt endMarker pem.toList q) ∧
    ∀ s q, Closes beginMarker endMarker pem.toList s q →
      q + endMarker.length ≤ p ∨ p + beginMarker.length ≤ q

def placedBlocks (pem : String) : List (ℕ × String) :=
  (lazySpans beginMarker endMarker 0 0 pem.toList).map fun span =>
    (span.1, String.ofList ((pem.toList.drop span.1).take span.2))

section
variable {pem : String} {p : ℕ} {certificate : String}

theorem placedBlocks_snd (pem : String) : (placedBlocks pem).map Prod.snd = pemBlocks pem := by
  simp [placedBlocks, pemBlocks, matchAll]

theorem finds_pem (pem : String) : Finds beginMarker endMarker pem.toList 0
    (lazySpans beginMarker endMarker 0 0 pem.toList) :=
  finds_matches beginMarker_ne _

theorem length_of_span {span : ℕ × ℕ}
    (hspan : span ∈ lazySpans beginMarker endMarker 0 0 pem.toList) :
    (String.ofList ((pem.toList.drop span.1).take span.2)).length = span.2 := by
  obtain ⟨-, q, hq, hn⟩ := (finds_pem pem).closes span hspan
  have hfits := hq.closes.fits endMarker_ne
  simp only [String.length_ofList, List.length_take, List.length_drop]
  omega

theorem blockAt_of_placed {block : ℕ × String} (hblock : block ∈ placedBlocks pem) :
    BlockAt pem block.1 block.2 := by
  obtain ⟨span, hspan, rfl⟩ := List.mem_map.mp hblock
  obtain ⟨-, q, hq, hn⟩ := (finds_pem pem).closes span hspan
  refine ⟨q, hq, ?_, ?_⟩
  · rw [length_of_span hspan, hn]
  · rw [length_of_span hspan, String.toList_ofList]

theorem placedBlocks_disjoint (pem : String) :
    (placedBlocks pem).Pairwise fun block later => block.1 + block.2.length ≤ later.1 := by
  rw [placedBlocks, List.pairwise_map]
  refine (finds_pem pem).disjoint.imp_of_mem fun hspan _ hle => ?_
  rwa [length_of_span hspan]

/-- An opened block lies inside one that was found. -/
theorem covered_of_closes {q : ℕ} (h : Closes beginMarker endMarker pem.toList p q) :
    ∃ block ∈ placedBlocks pem, block.1 ≤ p ∧ p < block.1 + block.2.length := by
  obtain ⟨span, hspan, hcovers⟩ := (finds_pem pem).complete p q (Nat.zero_le p) h
  refine ⟨_, List.mem_map_of_mem hspan, ?_⟩
  rwa [length_of_span hspan]

/-- A marker inside a block that parses reaches into its END marker. -/
theorem not_inside_of_parsed {parse : X509Certificate} (hrefuses : RefusesSpliced parse)
    {start q : ℕ} (hblock : BlockAt pem start certificate) (hparsed : parse certificate = .ok true)
    (hcloses : Closes beginMarker endMarker pem.toList start q) (hp : OccursAt beginMarker pem.toList p)
    (hstart : start < p) : q < p + beginMarker.length := by
  obtain ⟨q', hq', hlength, htext⟩ := hblock
  obtain rfl := hcloses.unique hq'
  by_contra hinside
  have hbegins : ∀ i, start ≤ i → i + beginMarker.length ≤ q →
      OccursAt beginMarker pem.toList i → OccursAt beginMarker certificate.toList (i - start) := by
    intro i hi hle hoccurs
    rw [htext, occursAt_take beginMarker_ne, occursAt_drop, Nat.add_sub_cancel' hi]
    exact ⟨hoccurs, by omega⟩
  have hends : OccursAt endMarker certificate.toList (q - start) := by
    have hle := hq'.apart
    rw [htext, occursAt_take endMarker_ne, occursAt_drop, Nat.add_sub_cancel' (by omega)]
    exact ⟨hq'.closes, by omega⟩
  obtain ⟨message, herror⟩ := hrefuses certificate ⟨start - start, p - start, q - start, by omega,
    by omega, hbegins start le_rfl hq'.apart.le hq'.opens, hbegins p hstart.le (by omega) hp, hends⟩
  rw [hparsed] at herror
  cases herror

end

/-- The marker of a block that was found is closed, and no END marker closes two of them. -/
theorem delimited_of_whole {parse : X509Certificate} {pem : String} {certificates : List String}
    (h : WholeBundle parse pem certificates) : Delimited pem := by
  obtain ⟨blocks, -, hplaced, hdisjoint, hall⟩ := h.placed
  intro p hp
  have hopens : ∀ {s}, OccursAt beginMarker pem.toList s → ∃ block ∈ blocks, block.1 = s :=
    fun hs => List.mem_map.mp (hall _ hs)
  obtain ⟨block, hblock, rfl⟩ := hopens hp
  obtain ⟨e, he, hlength, -⟩ := hplaced block hblock
  refine ⟨⟨e, he.apart, he.closes⟩, fun s q hq => ?_⟩
  obtain ⟨other, hother, rfl⟩ := hopens hq.opens
  obtain ⟨q', hq', hlength', -⟩ := hplaced other hother
  obtain rfl := hq.unique hq'
  have hapart := he.apart
  have hapart' := hq.apart
  by_cases hsame : block = other
  · subst hsame
    exact .inr hapart'.le
  · have hpairs : blocks.Pairwise Apart := hdisjoint.imp .inl
    rcases hpairs.forall hblock hother hsame with hbefore | hafter <;> omega

/-- Nothing but found blocks begins in a delimited file whose blocks all parse. -/
theorem placed_of_delimited {parse : X509Certificate} {pem : String}
    (hrefuses : RefusesSpliced parse) (hparsed : ∀ block ∈ pemBlocks pem, parse block = .ok true)
    (hdelimited : Delimited pem) {p : ℕ} (hp : OccursAt beginMarker pem.toList p) :
    p ∈ (placedBlocks pem).map Prod.fst := by
  obtain ⟨⟨q, hbehind, hq⟩, hshares⟩ := hdelimited p hp
  obtain ⟨e, he, -⟩ := exists_closes hp hq hbehind
  obtain ⟨block, hblock, hle, hlt⟩ := covered_of_closes he
  rcases hle.eq_or_lt with rfl | hstart
  · exact List.mem_map_of_mem hblock
  · have hplaced := blockAt_of_placed hblock
    have hmem : block.2 ∈ pemBlocks pem := by
      rw [← placedBlocks_snd]
      exact List.mem_map_of_mem hblock
    have hfound := hplaced
    obtain ⟨close, hclose, hlength, -⟩ := hfound
    have hinside := not_inside_of_parsed hrefuses hplaced (hparsed _ hmem) hclose hp hstart
    rcases hshares block.1 close hclose with hshare | hshare <;> omega

/-- A file that is accepted is accepted whole exactly when it is delimited. -/
theorem ca_bundle_whole_iff {readFile : String → Except String String} {parse : X509Certificate}
    {path pem : String} {certificates : List String} (hrefuses : RefusesSpliced parse)
    (hread : readFile path = .ok pem) (hload : loadCaBundle readFile parse path = .ok certificates) :
    WholeBundle parse pem certificates ↔ Delimited pem := by
  obtain ⟨pem', hread', rfl, hne, hparsed⟩ := loadCaBundle_eq_ok.mp hload
  obtain rfl := Except.ok.inj (hread.symm.trans hread')
  refine ⟨delimited_of_whole, fun hdelimited => ⟨hne, hparsed, placedBlocks pem, placedBlocks_snd pem,
    fun block => blockAt_of_placed, placedBlocks_disjoint pem, fun p => ?_⟩⟩
  exact placed_of_delimited hrefuses hparsed hdelimited

/-- The base64 text of a small self-signed CA certificate. -/
def rootBody : List Char :=
  "\nMIG9MHGgAwIBAgIBATAFBgMrZXAwADAe".toList ++ "Fw0yNjExMjAwMjA1MDdaFw0zNjExMTcw".toList ++
    "\nMjA1MDdaMAAwKjAFBgMrZXADIQCe3BjU".toList ++ "F7oG2VYkAsyC5aCZ7NH+9irH2p7sJwhP".toList ++
    "\ngleaRaMQMA4wDAYDVR0TBAUwAwEB/zAF".toList ++ "BgMrZXADQQD/1gXxJqsrAXC3r6WfzfOa".toList ++
    "\ntn8OIGtv3jqpmc0vqq85kACSU8LXBby3".toList ++ "F8Vipf9eCrmbaqIvAYKklM9itprJQbMC".toList ++
    ['\n']

def rootText : List Char := beginMarker ++ rootBody ++ endMarker
def rootCertificate : String := String.ofList rootText

/-- The parser of a platform on which that is the only certificate. -/
def parseRoot : X509Certificate := fun certificate =>
  if certificate = rootCertificate then .ok true else .error "bad end line"

def truncatedBundle : String := String.ofList (rootText ++ '\n' :: beginMarker ++ rootBody.take 9)

theorem begin_of_root {p : ℕ} (hp : OccursAt beginMarker rootText p) : p = 0 := by
  have hnone : firstOccurrence beginMarker (rootText.drop 1) = none := by decide +kernel
  cases p with
  | zero => rfl
  | succ p =>
    rw [Nat.add_comm, ← occursAt_drop] at hp
    exact absurd hp (firstOccurrence_eq_none hnone p)

theorem refusesSpliced_parseRoot : RefusesSpliced parseRoot := by
  rintro text ⟨i, j, k, hlt, -, hi, hj, -⟩
  refine ⟨_, if_neg ?_⟩
  rintro rfl
  rw [rootCertificate, String.toList_ofList] at hi hj
  rw [begin_of_root hi, begin_of_root hj] at hlt
  exact absurd hlt (lt_irrefl 0)

theorem load_of_blocks (pem : String)
    (hblocks : matchAll beginMarker endMarker pem.toList = [rootText]) :
    loadCaBundle (fun _ => .ok pem) parseRoot "ca.pem" = .ok [rootCertificate] := by
  refine loadCaBundle_eq_ok.mpr ⟨pem, rfl, ?_, by simp, by simp [parseRoot]⟩
  rw [pemBlocks, hblocks]
  rfl

theorem ca_bundle_whole_iff_root : WholeBundle parseRoot rootCertificate [rootCertificate] := by
  have hblocks : matchAll beginMarker endMarker rootText = [rootText] := by decide +kernel
  have hload := load_of_blocks rootCertificate (by
    rw [rootCertificate, String.toList_ofList]
    exact hblocks)
  suffices hdelimited : Delimited rootCertificate by
    refine (ca_bundle_whole_iff refusesSpliced_parseRoot ?_ hload).mpr hdelimited
    rfl
  intro p hp
  have hends : OccursAt endMarker rootText 288 := by decide +kernel
  rw [rootCertificate, String.toList_ofList] at hp ⊢
  obtain rfl := begin_of_root hp
  refine ⟨⟨288, by decide +kernel, hends⟩, fun s q hq => .inr ?_⟩
  have hapart := hq.apart
  omega

/-- A second block that breaks off is dropped without an error. -/
theorem truncated_block_is_dropped : RefusesSpliced parseRoot ∧
    loadCaBundle (fun _ => .ok truncatedBundle) parseRoot "ca.pem" = .ok [rootCertificate] ∧
    ¬WholeBundle parseRoot truncatedBundle [rootCertificate] := by
  have htext : truncatedBundle.toList = rootText ++ '\n' :: beginMarker ++ rootBody.take 9 :=
    String.toList_ofList
  refine ⟨refusesSpliced_parseRoot, load_of_blocks _ ?_, fun h => ?_⟩
  · rw [htext]
    decide +kernel
  · have hbegins : OccursAt beginMarker truncatedBundle.toList 0 ∧
        OccursAt beginMarker truncatedBundle.toList 314 := by
      rw [htext]
      decide +kernel
    obtain ⟨blocks, hone, -, -, hall⟩ := h.placed
    obtain ⟨block, rfl⟩ := List.length_eq_one_iff.mp (by simpa using congrArg List.length hone)
    have hfirst := List.mem_singleton.mp (hall 0 hbegins.1)
    have hsecond := List.mem_singleton.mp (hall 314 hbegins.2)
    rw [← hfirst] at hsecond
    cases hsecond

end DurableRunner.Guarantees
