import PureSsh.Cert
import PureSsh.Key.PublicKey
import PureSsh.Key.Rsa

/-! The wire form of an OpenSSH certificate and its line in a file (`cert/mod.rs`). -/

namespace PureSsh.Cert
open Lib Reader Writer PublicKeys

def maxCertBlob : Nat := 64*1024
def maxListEntries : Nat := 256
def maxListElem : Nat := 8*1024

def CertType.fromU32 (v : UInt32) : Result CertType :=
  if v=1 then .ok .user
  else if v=2 then .ok .host
  else .error (.format "cert: unknown certificate type")

/-- A certificate as it is parsed, with the fields that no check of `Certificate` reads. -/
structure CertBlob extends Certificate where
  keyType : Text
  nonce : Bytes
  serial : UInt64
  keyId : Text
  extensions : List (Text × Bytes)
  deriving DecidableEq, Repr

def mldsaCert : Text := "ssh-mldsa44-ed25519-cert".toList
def skEd25519Cert : Text := "sk-ssh-ed25519-cert-v01@openssh.com".toList
def skEcdsaCert : Text := "sk-ecdsa-sha2-nistp256-cert-v01@openssh.com".toList
def rsaCert : Text := "ssh-rsa-cert-v01@openssh.com".toList
def ed25519Cert : Text := "ssh-ed25519-cert-v01@openssh.com".toList

def ecdsaCert : CurveId → Text
  | .p256 => "ecdsa-sha2-nistp256-cert-v01@openssh.com".toList
  | .p384 => "ecdsa-sha2-nistp384-cert-v01@openssh.com".toList
  | .p521 => "ecdsa-sha2-nistp521-cert-v01@openssh.com".toList

/- The name of a certificate type and the type of key it wraps. -/
def blobTypes : List (Text × Str) :=
  [(ed25519Cert,ed25519),(ecdsaCert .p256,CurveId.p256.algorithm),
    (ecdsaCert .p384,CurveId.p384.algorithm),(ecdsaCert .p521,CurveId.p521.algorithm),
    (rsaCert,rsa),(mldsaCert,mldsa44Ed25519),(skEd25519Cert,skEd25519),(skEcdsaCert,skEcdsa)]

def blobTypeToPlain (name : Text) : Option Str := blobTypes.lookup name

def readCapped (cap : Nat) (what : String) (r : Bytes) : Result (Bytes × Bytes) := do
  let (s,r) ← readString r
  if s.length>cap then .error (.format what) else return (s,r)

/- One round of the loop of `parse_string_list`. -/
def readListElem (out : List Text) (r : Bytes) : Result (List Text × Bytes) :=
  if out.length≥maxListEntries then .error (.format "cert: too many list entries")
  else do
    let (elem,r) ← readCapped maxListElem "cert: list element too long" r
    match Text.ofUtf8 elem with
    | some s => return (out++[s],r)
    | none => .error (.format "cert: non-utf8 principal")

def parseStringList (blob : Bytes) : Result (List Text) := readWhile .hang readListElem [] blob

/- One round of the loop of `parse_pair_list`: names go up. -/
def readPair (out : List (Text × Bytes)) (r : Bytes) : Result (List (Text × Bytes) × Bytes) :=
  if out.length≥maxListEntries then .error (.format "cert: too many option entries")
  else do
    let (name,r) ← readCapped maxListElem "cert: option name too long" r
    let (data,r) ← readCapped maxListElem "cert: option data too long" r
    match Text.ofUtf8 name with
    | none => .error (.format "cert: non-utf8 option name")
    | some name =>
      if out.getLast?.any fun last => name.bytes≤last.1.bytes then
        .error (.format "cert: option names must be strictly ascending (duplicate or unsorted)")
      else return (out++[(name,data)],r)

def parsePairList (blob : Bytes) : Result (List (Text × Bytes)) := readWhile .hang readPair [] blob

def checkRsaModulusMpint (nRaw : Bytes) : Result Unit := do
  let n ← Rsa.mpintToUint nRaw
  if n=0 then .error (.format "rsa: zero modulus")
  else if Rsa.bitLen n<Rsa.minRsaModulusBits then
    .error (.format "rsa: modulus shorter than 2048 bits")
  else return ()

def readEd25519 (r : Bytes) : Result (Bytes × Bytes) := do
  let (pk,r) ← readString r
  if pk.length≠32 then .error (.format "cert: ed25519 key length") else return (pk,r)

/- The fields of an ECDSA key, as they are written. The point is not checked here. -/
def readEcdsa (curve : CurveId) (r : Bytes) : Result (Bytes × Bytes) := do
  let (c,r) ← readString r
  let (point,r) ← readString r
  if c≠curve.name then .error (.format "cert: ecdsa curve mismatch")
  else return (writeString curve.algorithm++writeString c++writeString point,r)

/- Here the curve is looked at before the point is read. -/
def readSkEcdsa (r : Bytes) : Result (Bytes × Bytes) := do
  let (c,r) ← readString r
  if c≠CurveId.p256.name then .error (.format "cert: ecdsa curve mismatch")
  else
    let (point,r) ← readString r
    let (application,r) ← readString r
    return (writeString skEcdsa++writeString c++writeString point++writeString application,r)

def readEmbeddedPubkey (keyType : Text) (r : Bytes) : Result (Bytes × Bytes) :=
  if keyType=ed25519Cert then do
    let (pk,r) ← readEd25519 r
    return (writeString ed25519++writeString pk,r)
  else if keyType=ecdsaCert .p256 then readEcdsa .p256 r
  else if keyType=ecdsaCert .p384 then readEcdsa .p384 r
  else if keyType=ecdsaCert .p521 then readEcdsa .p521 r
  else if keyType=mldsaCert then do
    let (pk,r) ← readMldsa r
    return (writeString mldsa44Ed25519++writeString pk,r)
  else if keyType=skEd25519Cert then do
    let (pk,r) ← readEd25519 r
    let (application,r) ← readString r
    return (writeString skEd25519++writeString pk++writeString application,r)
  else if keyType=skEcdsaCert then readSkEcdsa r
  else if keyType=rsaCert then do
    let (e,r) ← readString r
    let (n,r) ← readString r
    checkRsaModulusMpint n
    Rsa.checkRsaExponentMpint e
    return (writeString rsa++writeString e++writeString n,r)
  else .error (.format "cert: unsupported certificate key type")

namespace CertBlob

/- What stands between the key and the signature, and what is left. -/
structure Body where
  serial : UInt64
  certType : CertType
  keyId : Text
  validPrincipals : List Text
  validAfter : UInt64
  validBefore : UInt64
  criticalOptions : List (Text × Bytes)
  extensions : List (Text × Bytes)
  signatureKeyBlob : Bytes

def parseBody (r : Bytes) : Result (Body × Bytes) := do
  let (serial,r) ← readU64 r
  let (certType,r) ← readU32 r
  let certType ← CertType.fromU32 certType
  let (keyId,r) ← readCapped maxListElem "cert: key id too long" r
  match Text.ofUtf8 keyId with
  | none => .error (.format "cert: non-utf8 key id")
  | some keyId => do
    let (principals,r) ←
      readCapped (maxListEntries*maxListElem) "cert: principals list too long" r
    let validPrincipals ← parseStringList principals
    let (validAfter,r) ← readU64 r
    let (validBefore,r) ← readU64 r
    if validAfter>validBefore then .error (.format "cert: valid_after after valid_before")
    else
      let (crit,r) ←
        readCapped (maxListEntries*(2*maxListElem)) "cert: critical options too long" r
      let criticalOptions ← parsePairList crit
      let (ext,r) ← readCapped (maxListEntries*(2*maxListElem)) "cert: extensions too long" r
      let extensions ← parsePairList ext
      let (_reserved,r) ← readCapped maxListElem "cert: reserved too long" r
      let (signatureKeyBlob,r) ← readCapped maxListElem "cert: signature key too long" r
      return ({ serial, certType, keyId, validPrincipals, validAfter, validBefore,
                criticalOptions, extensions, signatureKeyBlob },r)

/- The type of a certificate, by its first field. -/
def readKeyType (blob : Bytes) : Result (Text × Bytes) := do
  let (keyType,r) ← readString blob
  match Text.ofUtf8 keyType with
  | none => .error (.format "cert: non-utf8 key type")
  | some keyType =>
    if (blobTypeToPlain keyType).isNone then
      .error (.format "cert: unsupported certificate key type")
    else return (keyType,r)

def parse (blob : Bytes) : Result CertBlob :=
  if blob.length>maxCertBlob then .error (.format "cert: blob exceeds maximum size")
  else do
    let (keyType,r) ← readKeyType blob
    let (nonce,r) ← readCapped maxListElem "cert: nonce too long" r
    let (embeddedPubkeyBlob,r) ← readEmbeddedPubkey keyType r
    let (body,r) ← parseBody r
    let signedLen := blob.length-r.length
    let (signature,r) ← readCapped maxListElem "cert: signature too long" r
    if r≠[] then .error (.format "cert: trailing data after certificate")
    else return { embeddedPubkeyBlob, certType := body.certType
                  validPrincipals := body.validPrincipals, validAfter := body.validAfter.toNat
                  validBefore := body.validBefore.toNat, criticalOptions := body.criticalOptions
                  signatureKeyBlob := body.signatureKeyBlob, signature, signedLen, raw := blob
                  keyType, nonce, serial := body.serial, keyId := body.keyId
                  extensions := body.extensions }

/- The negotiated RSA names stand for the type of the blob. -/
def lineType (name : Text) : Text :=
  if name = "rsa-sha2-512-cert-v01@openssh.com".toList ∨
      name = "rsa-sha2-256-cert-v01@openssh.com".toList then rsaCert
  else name

def parseOpensshLine (line : Text) : Result CertBlob :=
  match line.trim.words with
  | [] => .error (.format "cert: empty line")
  | name::rest =>
    if (blobTypeToPlain (lineType name)).isNone then
      .error (.format "cert: line is not an OpenSSH certificate")
    else match rest with
      | [] => .error (.format "cert: missing base64 blob")
      | b64::_ => do
        let blob ← Base64.decode b64.bytes
        let cert ← parse blob
        if lineType name≠cert.keyType then
          .error (.format "cert: line key-type disagrees with blob")
        else return cert

end CertBlob
end PureSsh.Cert
