import PureSsh.Key.AuthorizedKeys

/-! Public keys, their wire form and their lines (`key/mod.rs`). -/

namespace PureSsh.PublicKeys
open Lib Reader Writer

inductive CurveId where
  | p256 | p384 | p521
  deriving DecidableEq, Repr

namespace CurveId

def name : CurveId → Str
  | p256 => ascii "nistp256"
  | p384 => ascii "nistp384"
  | p521 => ascii "nistp521"

def algorithm : CurveId → Str
  | p256 => ascii "ecdsa-sha2-nistp256"
  | p384 => ascii "ecdsa-sha2-nistp384"
  | p521 => ascii "ecdsa-sha2-nistp521"

end CurveId

/-- Whether `BoxedEcdsaPublicKey::from_sec1` takes a point. -/
abbrev FromSec1 := CurveId → Bytes → Bool

/-- `[u8; 32]` -/
abbrev Raw32 := { raw : Bytes // raw.length=32 }

/- The variants of `PublicKey`, without the comment that each has. -/
inductive KeyData where
  | ed25519 (raw : Raw32)
  | ecdsa (curve : CurveId) (point : Bytes)
  | rsa (e n : Bytes)
  | mlDsa44Ed25519 (raw : Bytes)
  | skEcdsaP256 (point : Bytes) (application : Text)
  | skEd25519 (raw : Raw32) (application : Text)
  deriving DecidableEq, Repr

structure PublicKey where
  key : KeyData
  comment : Text
  deriving DecidableEq, Repr

def ed25519 : Str := ascii "ssh-ed25519"
def rsa : Str := ascii "ssh-rsa"
def mldsa44Ed25519 : Str := ascii "ssh-mldsa44-ed25519"
def mldsa44Ed25519Old : Str := ascii "ssh-mldsa44-ed25519@openssh.com"
def skEcdsa : Str := ascii "sk-ecdsa-sha2-nistp256@openssh.com"
def skEd25519 : Str := ascii "sk-ssh-ed25519@openssh.com"

/- `PUBLIC_KEY_BYTES` of the composite. -/
def mldsaPublicKeyBytes : Nat := 1312+32

namespace KeyData

def algorithm : KeyData → Str
  | ed25519 _ => PublicKeys.ed25519
  | ecdsa curve _ => curve.algorithm
  | rsa _ _ => PublicKeys.rsa
  | mlDsa44Ed25519 _ => mldsa44Ed25519
  | skEcdsaP256 _ _ => skEcdsa
  | skEd25519 _ _ => PublicKeys.skEd25519

def wireBlob : KeyData → Bytes
  | ed25519 raw => writeString PublicKeys.ed25519++writeString raw.1
  | mlDsa44Ed25519 raw => writeString mldsa44Ed25519++writeString raw
  | ecdsa curve point => writeString curve.algorithm++writeString curve.name++writeString point
  | rsa e n => writeString PublicKeys.rsa++writeMpint e++writeMpint n
  | skEcdsaP256 point application =>
    writeString skEcdsa++writeString CurveId.p256.name++writeString point ++
      writeString application.bytes
  | skEd25519 raw application =>
    writeString PublicKeys.skEd25519++writeString raw.1++writeString application.bytes

end KeyData

def readRaw32 (r : Bytes) : Result (Raw32 × Bytes) := do
  let (raw,r) ← readString r
  if h : raw.length=32 then return (⟨raw,h⟩,r)
  else .error (.format "ed25519: public key length")

def parseEcdsaPublic (fromSec1 : FromSec1) (curve : CurveId) (r : Bytes) :
    Result (Bytes × Bytes) := do
  let (c,r) ← readString r
  if c≠curve.name then .error (.format "ecdsa: curve name mismatch")
  else
    let (point,r) ← readString r
    if fromSec1 curve point then return (point,r)
    else .error (.format "ecdsa: invalid SEC1 point")

def readMldsa (r : Bytes) : Result (Bytes × Bytes) := do
  let (raw,r) ← readString r
  if raw.length≠mldsaPublicKeyBytes then .error (.format "mldsa44-ed25519: public key length")
  else return (raw,r)

def readApplication (r : Bytes) : Result (Text × Bytes) := do
  let (s,r) ← readString r
  match Text.ofUtf8 s with
  | some application => return (application,r)
  | none => .error (.format "sk: application is not utf-8")

/- The match of `parse_wire_blob` on the algorithm. -/
def readKey (fromSec1 : FromSec1) (algo r : Bytes) : Result (KeyData × Bytes) :=
  let ecdsa (curve : CurveId) : Result (KeyData × Bytes) := do
    let (point,r) ← parseEcdsaPublic fromSec1 curve r
    return (.ecdsa curve point,r)
  if algo=ed25519 then do
    let (raw,r) ← readRaw32 r
    return (.ed25519 raw,r)
  else if algo=mldsa44Ed25519 ∨ algo=mldsa44Ed25519Old then do
    let (raw,r) ← readMldsa r
    return (.mlDsa44Ed25519 raw,r)
  else if algo=CurveId.p256.algorithm then ecdsa .p256
  else if algo=CurveId.p384.algorithm then ecdsa .p384
  else if algo=CurveId.p521.algorithm then ecdsa .p521
  else if algo=rsa then do
    let (e,r) ← readString r
    let (n,r) ← readString r
    return (.rsa e n,r)
  else if algo=skEcdsa then do
    let (point,r) ← parseEcdsaPublic fromSec1 .p256 r
    let (application,r) ← readApplication r
    return (.skEcdsaP256 point application,r)
  else if algo=skEd25519 then do
    let (raw,r) ← readRaw32 r
    let (application,r) ← readApplication r
    return (.skEd25519 raw application,r)
  else .error (.unsupported "openssh public key algorithm")

namespace PublicKey

def algorithm (pk : PublicKey) : Str := pk.key.algorithm

def wireBlob (pk : PublicKey) : Bytes := pk.key.wireBlob

def parseWireBlob (fromSec1 : FromSec1) (blob : Bytes) : Result PublicKey := do
  let (algo,r) ← readString blob
  let (key,r) ← readKey fromSec1 algo r
  if r≠[] then .error (.format "public key: trailing data")
  else return { key, comment := [] }

/- The old ML-DSA name reads as the new one. -/
def lineAlgorithm (first : Text) : Str :=
  if first.bytes=mldsa44Ed25519Old then mldsa44Ed25519 else first.bytes

def parseAuthorizedKeysLine (fromSec1 : FromSec1) (s : Text) : Result PublicKey :=
  let line := AuthorizedKeys.trimLine s
  if line=[] ∨ line.head?=some '#' then
    .error (.format "authorized_keys: empty or comment line")
  else match line.words with
    | [] => .error (.format "authorized_keys: empty line")
    | first::rest =>
      if !AuthorizedKeys.isKnownAlgorithmName first then
        .error (.format "authorized_keys: line begins with options or unknown tag — refusing rather than silently dropping")
      else match rest with
        | [] => .error (.format "authorized_keys: missing key blob")
        | b64::comment => do
          let blob ← Base64.decode b64.bytes
          let pk ← parseWireBlob fromSec1 blob
          if pk.algorithm≠lineAlgorithm first then
            .error (.format "authorized_keys: algorithm tag mismatch")
          else return { pk with comment := Text.join [' '] comment }

end PublicKey
end PureSsh.PublicKeys
