import DurableRunner.Text.LazyMatch

/-! # The CA bundle

`loadCaBundle` reads the certificates that a cloud connection trusts. Reading a
file and parsing one certificate are the platform's.
-/
namespace DurableRunner.Startup
open Text

def escape (c : Char) : String :=
  match c.toNat with
  | 0x08 => "\\b"
  | 0x09 => "\\t"
  | 0x0A => "\\n"
  | 0x0C => "\\f"
  | 0x0D => "\\r"
  | 0x22 => "\\\""
  | 0x5C => "\\\\"
  | code =>
    if code < 0x20 then
      "\\u00" ++ String.ofList [Nat.digitChar (code / 16), Nat.digitChar (code % 16)]
    else String.singleton c

/-- `JSON.stringify(text)`. -/
def stringify (text : String) : String :=
  "\"" ++ String.join (text.toList.map escape) ++ "\""

inductive CaBundleError where
  | couldNotBeRead (message : String)
  | noPemCertificates
  | notValid (certificate : ℕ) (message : String)
  | notACaCertificate (certificate : ℕ)
deriving DecidableEq

def CaBundleError.message (path : String) : CaBundleError → String
  | .couldNotBeRead message =>
    "DB_SSL_CA_FILE " ++ stringify path ++ " could not be read: " ++ message
  | .noPemCertificates => "DB_SSL_CA_FILE " ++ stringify path ++ " contains no PEM certificates"
  | .notValid certificate message =>
    "DB_SSL_CA_FILE " ++ stringify path ++ ": certificate " ++ toString certificate ++
      " is not valid: " ++ message
  | .notACaCertificate certificate =>
    "DB_SSL_CA_FILE " ++ stringify path ++ ": certificate " ++ toString certificate ++
      " is not a CA certificate"

def beginMarker : List Char := "-----BEGIN CERTIFICATE-----".toList
def endMarker : List Char := "-----END CERTIFICATE-----".toList

theorem beginMarker_ne : beginMarker ≠ [] := by decide
theorem endMarker_ne : endMarker ≠ [] := by decide

/-- `pem.match(/-----BEGIN CERTIFICATE-----[\s\S]+?-----END CERTIFICATE-----/g)`. -/
def pemBlocks (pem : String) : List String :=
  (matchAll beginMarker endMarker pem.toList).map String.ofList

/-- `new X509Certificate(certificate)`: the `ca` flag, or the message of the parser. -/
abbrev X509Certificate := String → Except String Bool

/-- The check of the certificates, the first of which has the given number. -/
def checkCertificates (parse : X509Certificate) : ℕ → List String → Except CaBundleError Unit
  | _, [] => .ok ()
  | number, certificate :: rest =>
    match parse certificate with
    | .error message => .error (.notValid number message)
    | .ok false => .error (.notACaCertificate number)
    | .ok true => checkCertificates parse (number + 1) rest

def loadCaBundle (readFile : String → Except String String) (parse : X509Certificate)
    (path : String) : Except CaBundleError (List String) :=
  match readFile path with
  | .error message => .error (.couldNotBeRead message)
  | .ok pem =>
    let certificates := pemBlocks pem
    if certificates = [] then .error .noPemCertificates
    else (checkCertificates parse 1 certificates).map fun _ => certificates

theorem checkCertificates_eq_ok {parse : X509Certificate} {number : ℕ} {certificates : List String} :
    checkCertificates parse number certificates = .ok () ↔
      ∀ certificate ∈ certificates, parse certificate = .ok true := by
  induction certificates generalizing number with
  | nil => simp [checkCertificates]
  | cons certificate rest ih =>
    rw [checkCertificates, List.forall_mem_cons]
    split
    · rename_i hparse
      simp [hparse]
    · rename_i hparse
      simp [hparse]
    · rename_i hparse
      simp [hparse, ih]

theorem loadCaBundle_eq_ok {readFile : String → Except String String} {parse : X509Certificate}
    {path : String} {certificates : List String} :
    loadCaBundle readFile parse path = .ok certificates ↔
      ∃ pem, readFile path = .ok pem ∧ certificates = pemBlocks pem ∧ certificates ≠ [] ∧
        ∀ certificate ∈ certificates, parse certificate = .ok true := by
  unfold loadCaBundle
  split
  · rename_i hread
    simp [hread]
  · rename_i pem hread
    simp only [hread, Except.ok.injEq, exists_eq_left']
    split
    · rename_i hempty
      simp only [reduceCtorEq, false_iff, not_and]
      rintro rfl hne
      exact absurd hempty hne
    · rename_i hne
      cases hcheck : checkCertificates parse 1 (pemBlocks pem) with
      | error e =>
        simp only [Except.map, reduceCtorEq, false_iff, not_and]
        rintro rfl - hparsed
        rw [checkCertificates_eq_ok.mpr hparsed] at hcheck
        cases hcheck
      | ok u =>
        simp only [Except.map, Except.ok.injEq]
        constructor
        · rintro rfl
          exact ⟨rfl, hne, checkCertificates_eq_ok.mp hcheck⟩
        · rintro ⟨rfl, -⟩
          rfl

end DurableRunner.Startup
