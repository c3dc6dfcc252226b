import PureSsh.Config.Glob

/-! Checks on an OpenSSH certificate (`cert/mod.rs`). The verifiers of signatures, by the
name of their algorithm, are a parameter. -/

namespace PureSsh.Cert
open Lib

/-- The call `host_key_verify_by_name(name, key)?.verify(message, signature)`. -/
abbrev VerifyByName := Str → Bytes → Bytes → Bytes → Result Unit

def isCertName (name : Text) : Bool :=
  "-cert-v01@openssh.com".toList.isSuffixOf name || name == "ssh-mldsa44-ed25519-cert".toList

inductive CertType where
  | user | host
  deriving DecidableEq, Repr

structure Certificate where
  embeddedPubkeyBlob : Bytes
  certType : CertType
  validPrincipals : List Text
  validAfter : Nat
  validBefore : Nat
  criticalOptions : List (Text × Bytes)
  signatureKeyBlob : Bytes
  signature : Bytes
  signedLen : Nat
  raw : Bytes
  deriving DecidableEq, Repr

def decodeOptionString (data : Bytes) : Option Text :=
  match Reader.readString data with
  | .ok (s,[]) => Text.ofUtf8 s
  | _ => none

namespace Certificate

def checkType (want : CertType) (c : Certificate) : Result Unit :=
  if c.certType=want then .ok () else .error .certTypeMismatch

def checkValidity (now : Nat) (c : Certificate) : Result Unit :=
  if now<c.validAfter then .error .certNotYetValid
  else if now≥c.validBefore then .error .certExpired
  else .ok ()

def unknownCriticalOptions (c : Certificate) : List Text :=
  (c.criticalOptions.map (·.1)).filter fun name =>
    !(name == "force-command".toList || name == "source-address".toList ||
      name == "verify-required".toList)

def requireKnownCriticalOptions (c : Certificate) : Result Unit :=
  if c.unknownCriticalOptions≠[] then .error .certUnknownCriticalOption
  else if c.criticalOptions.any fun o =>
      (o.1 == "force-command".toList || o.1 == "source-address".toList) &&
        (decodeOptionString o.2).isNone then
    .error (.format "cert: malformed critical option payload")
  else .ok ()

/- Whatever goes wrong is reported as a bad signature. -/
def verifyCaSignature (verify : VerifyByName) (allowedCaAlgos : List Str) (c : Certificate) :
    Result Unit :=
  match Reader.readString c.signature with
  | .ok (caAlgo,_) =>
    if !validUtf8 caAlgo || !allowedCaAlgos.contains caAlgo then .error .certBadCaSignature
    else match verify caAlgo c.signatureKeyBlob (c.raw.take c.signedLen) c.signature with
      | .ok () => .ok ()
      | .error _ => .error .certBadCaSignature
  | .error _ => .error .certBadCaSignature

def checkPrincipal (name : Text) (c : Certificate) : Result Unit :=
  let matched : Bool := match c.certType with
    | .host => c.validPrincipals.any fun p =>
      Config.globMatch (Text.bytes (p.map Char.toLower)) (Text.bytes (name.map Char.toLower))
    | .user => c.validPrincipals.any (· == name)
  if c.validPrincipals≠[] ∧ matched then .ok () else .error .certPrincipalMismatch

end Certificate
end PureSsh.Cert
