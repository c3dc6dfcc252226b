import PureSsh.Key.PublicKey
import PureSsh.Key.Rsa

/-! Private keys: their parts, the check that the parts belong together, and the private fields of a
key file (`key/mod.rs`, `key/writer.rs`). -/

namespace PureSsh.PrivateKeys
open Lib Reader Writer PublicKeys List

/-- `[u8; 64]` -/
abbrev Raw64 := { raw : Bytes // raw.length=64 }

/- What a key of an authenticator has instead of a secret. -/
structure SkCredential where
  application : Text
  flags : UInt8
  keyHandle : Bytes
  reserved : Bytes
  deriving DecidableEq, Repr

namespace SkCredential

def read (r : Bytes) : Result (SkCredential × Bytes) := do
  let (application,r) ← readApplication r
  let (flags,r) ← readU8 r
  let (keyHandle,r) ← readString r
  let (reserved,r) ← readString r
  return ({ application, flags, keyHandle, reserved },r)

def write (sk : SkCredential) : Bytes :=
  writeString sk.application.bytes++[sk.flags]++writeString sk.keyHandle ++
    writeString sk.reserved

end SkCredential

/- The variants of `PrivateKey`, without the comment that each has. -/
inductive Secret where
  | ed25519 (seed pub : Raw32)
  | mlDsa44Ed25519 (seeds : Raw64) (pub : Bytes)
  | ecdsa (curve : CurveId) (d point : Bytes)
  | rsa (n e d p q iqmp : Bytes)
  | skEcdsaP256 (point : Bytes) (sk : SkCredential)
  | skEd25519 (pub : Raw32) (sk : SkCredential)
  deriving DecidableEq, Repr

structure PrivateKey where
  secret : Secret
  comment : Text
  deriving DecidableEq, Repr

/- What purecrypto computes: the public halves, and whether it takes a point. -/
structure KeyLib where
  ed25519Public : Raw32 → Raw32
  mldsaPublic : Raw64 → Bytes
  /- `from_bytes`, then the point of its public key. -/
  ecdsaPublic : CurveId → Bytes → Option Bytes
  fromSec1 : FromSec1
  mldsaPublic_length : ∀ seeds, (mldsaPublic seeds).length=mldsaPublicKeyBytes
  fromSec1_ecdsaPublic : ∀ curve d point, ecdsaPublic curve d=some point →
    fromSec1 curve point=true

def trimLeadingZeros (b : Bytes) : Bytes := b.dropWhile (· == 0)

def checkEcdsa (L : KeyLib) (curve : CurveId) (d point : Bytes) : Result Unit :=
  match L.ecdsaPublic curve (trimLeadingZeros d) with
  | none => .error (.crypto "ecdsa: private scalar out of range")
  | some derived =>
    if derived≠point then .error (.format "ecdsa: public point does not match private scalar")
    else .ok ()

def rsaHasPrimes (p q : Bytes) : Bool := trimLeadingZeros p≠[] ∧ trimLeadingZeros q≠[]

def checkRsaPrimes (n p q : Nat) : Result Unit :=
  if Rsa.bitLen p<3 ∨ Rsa.bitLen q<3 ∨ p%2=0 ∨ q%2=0 ∨ p=q then
    .error (.format "rsa: invalid prime factors")
  else if p*q≠n then .error (.format "rsa: prime factors do not match modulus")
  else .ok ()

def checkRsaExponents (e d p q : Nat) : Result Unit :=
  if e*d%(p-1)≠1 ∨ e*d%(q-1)≠1 then
    .error (.format "rsa: private exponent does not match public exponent and primes")
  else .ok ()

/- `BoxedUint::from_be_bytes` behind `trim_leading_zeros` -/
def uint (b : Bytes) : Nat := Rsa.ofBeBytes (trimLeadingZeros b)

def checkRsaPrivate (n e d p q : Bytes) : Result Unit :=
  if !rsaHasPrimes p q then .ok ()
  else do
    checkRsaPrimes (uint n) (uint p) (uint q)
    checkRsaExponents (uint e) (uint d) (uint p) (uint q)

namespace Secret

/- Nothing is derived for a key whose secret is on an authenticator. -/
def checkConsistency (L : KeyLib) : Secret → Result Unit
  | ed25519 seed pub =>
    if L.ed25519Public seed≠pub then
      .error (.format "ed25519: public key does not match private seed")
    else .ok ()
  | ecdsa curve d point => checkEcdsa L curve d point
  | rsa n e d p q _ => checkRsaPrivate n e d p q
  | mlDsa44Ed25519 seeds pub =>
    if L.mldsaPublic seeds≠pub then
      .error (.format "mldsa44-ed25519: public key does not match private seeds")
    else .ok ()
  | skEcdsaP256 point _ =>
    if L.fromSec1 .p256 point then .ok () else .error (.format "ecdsa: invalid SEC1 point")
  | skEd25519 _ _ => .ok ()

def publicKey : Secret → KeyData
  | ed25519 _ pub => .ed25519 pub
  | ecdsa curve _ point => .ecdsa curve point
  | rsa n e _ _ _ _ => .rsa e n
  | mlDsa44Ed25519 _ pub => .mlDsa44Ed25519 pub
  | skEcdsaP256 point sk => .skEcdsaP256 point sk.application
  | skEd25519 pub sk => .skEd25519 pub sk.application

/- The private fields as `encode_inner_block` writes them, up to the comment. -/
def fields : Secret → Bytes
  | ed25519 seed pub =>
    writeString PublicKeys.ed25519++writeString pub.1++writeString (seed.1++pub.1)
  | mlDsa44Ed25519 seeds pub =>
    writeString mldsa44Ed25519++writeString pub++writeString seeds.1
  | ecdsa curve d point =>
    writeString curve.algorithm++writeString curve.name++writeString point++writeMpint d
  | rsa n e d p q iqmp =>
    writeString PublicKeys.rsa++writeMpint n++writeMpint e++writeMpint d ++
      writeMpint iqmp++writeMpint p++writeMpint q
  | skEcdsaP256 point sk =>
    writeString skEcdsa++writeString CurveId.p256.name++writeString point++sk.write
  | skEd25519 pub sk => writeString PublicKeys.skEd25519++writeString pub.1++sk.write

end Secret

def readEd25519Private (r : Bytes) : Result (Secret × Bytes) := do
  let (pubRaw,r) ← readString r
  if pubRaw.length≠32 then .error (.format "ed25519: public length")
  else
    let (sk,r) ← readString r
    if h : sk.length=64 then
      if sk.drop 32≠pubRaw then .error (.format "ed25519: public key in secret does not match")
      else return (.ed25519 ⟨sk.take 32,by simp [h]⟩ ⟨sk.drop 32,by simp [h]⟩,r)
    else .error (.format "ed25519: secret length")

def readMldsaPrivate (r : Bytes) : Result (Secret × Bytes) := do
  let (pub,r) ← readMldsa r
  let (sk,r) ← readString r
  if h : sk.length=64 then return (.mlDsa44Ed25519 ⟨sk,h⟩ pub,r)
  else .error (.format "mldsa44-ed25519: secret length")

/- The curve, and the point, which is not looked at. -/
def readCurvePoint (curve : CurveId) (r : Bytes) : Result (Bytes × Bytes) := do
  let (c,r) ← readString r
  if c≠curve.name then .error (.format "ecdsa: curve mismatch") else readString r

def parseEcdsaPrivate (curve : CurveId) (r : Bytes) : Result (Secret × Bytes) := do
  let (point,r) ← readCurvePoint curve r
  let (d,r) ← readString r
  return (.ecdsa curve d point,r)

def readRsaPrivate (r : Bytes) : Result (Secret × Bytes) := do
  let (n,r) ← readString r
  let (e,r) ← readString r
  let (d,r) ← readString r
  let (iqmp,r) ← readString r
  let (p,r) ← readString r
  let (q,r) ← readString r
  return (.rsa n e d p q iqmp,r)

def readSkEcdsaPrivate (r : Bytes) : Result (Secret × Bytes) := do
  let (point,r) ← readCurvePoint .p256 r
  let (sk,r) ← SkCredential.read r
  return (.skEcdsaP256 point sk,r)

def readSkEd25519Private (r : Bytes) : Result (Secret × Bytes) := do
  let (pub,r) ← readString r
  if h : pub.length=32 then do
    let (sk,r) ← SkCredential.read r
    return (.skEd25519 ⟨pub,h⟩ sk,r)
  else .error (.format "ed25519: public length")

/- The match of `parse_private_fields` on the algorithm. -/
def readPrivate (algo r : Bytes) : Result (Secret × Bytes) :=
  if algo=ed25519 then readEd25519Private r
  else if algo=mldsa44Ed25519 ∨ algo=mldsa44Ed25519Old then readMldsaPrivate r
  else if algo=CurveId.p256.algorithm then parseEcdsaPrivate .p256 r
  else if algo=CurveId.p384.algorithm then parseEcdsaPrivate .p384 r
  else if algo=CurveId.p521.algorithm then parseEcdsaPrivate .p521 r
  else if algo=rsa then readRsaPrivate r
  else if algo=skEcdsa then readSkEcdsaPrivate r
  else if algo=skEd25519 then readSkEd25519Private r
  else .error (.unsupported "openssh private key algorithm")

def parsePrivateFields (r : Bytes) : Result (Secret × Bytes) := do
  let (algo,r) ← readString r
  readPrivate algo r

/- The comments are not compared, and RSA integers without their sign byte. -/
def publicPartsMatch : KeyData → KeyData → Bool
  | .ed25519 x, .ed25519 y => x=y
  | .mlDsa44Ed25519 x, .mlDsa44Ed25519 y => x=y
  | .ecdsa c x, .ecdsa c' y => c=c' ∧ x=y
  | .rsa e₁ n₁, .rsa e₂ n₂ =>
    trimLeadingZeros e₁=trimLeadingZeros e₂ ∧ trimLeadingZeros n₁=trimLeadingZeros n₂
  | .skEcdsaP256 x a, .skEcdsaP256 y b => x=y ∧ a=b
  | .skEd25519 x a, .skEd25519 y b => x=y ∧ a=b
  | _, _ => false

section Reread

/- A key as it is read back: an integer has the body of its `mpint`. -/
def Secret.reread : Secret → Secret
  | .ecdsa curve d point => .ecdsa curve (mpintBody d) point
  | .rsa n e d p q iqmp =>
    .rsa (mpintBody n) (mpintBody e) (mpintBody d) (mpintBody p) (mpintBody q) (mpintBody iqmp)
  | s => s

def rereadPublic : KeyData → KeyData
  | .rsa e n => .rsa (mpintBody e) (mpintBody n)
  | k => k

/-- The same key material: integers are compared as numbers. -/
inductive Secret.Same : Secret → Secret → Prop
  | ed25519 (seed pub : Raw32) : Same (.ed25519 seed pub) (.ed25519 seed pub)
  | mlDsa44Ed25519 (seeds : Raw64) (pub : Bytes) :
    Same (.mlDsa44Ed25519 seeds pub) (.mlDsa44Ed25519 seeds pub)
  | ecdsa (curve : CurveId) (point : Bytes) {d d' : Bytes} (hd : Rsa.ofBeBytes d=Rsa.ofBeBytes d') :
    Same (.ecdsa curve d point) (.ecdsa curve d' point)
  | rsa {n e d p q iqmp n' e' d' p' q' iqmp' : Bytes} (hn : Rsa.ofBeBytes n=Rsa.ofBeBytes n')
    (he : Rsa.ofBeBytes e=Rsa.ofBeBytes e') (hd : Rsa.ofBeBytes d=Rsa.ofBeBytes d')
    (hp : Rsa.ofBeBytes p=Rsa.ofBeBytes p') (hq : Rsa.ofBeBytes q=Rsa.ofBeBytes q')
    (hiqmp : Rsa.ofBeBytes iqmp=Rsa.ofBeBytes iqmp') :
    Same (.rsa n e d p q iqmp) (.rsa n' e' d' p' q' iqmp')
  | skEcdsaP256 (point : Bytes) (sk : SkCredential) :
    Same (.skEcdsaP256 point sk) (.skEcdsaP256 point sk)
  | skEd25519 (pub : Raw32) (sk : SkCredential) : Same (.skEd25519 pub sk) (.skEd25519 pub sk)

theorem trimLeadingZeros_mpintBody (b : Bytes) :
    trimLeadingZeros (mpintBody b)=trimLeadingZeros b := Rsa.dropWhile_mpintBody b

theorem ofBeBytes_mpintBody (b : Bytes) : Rsa.ofBeBytes (mpintBody b)=Rsa.ofBeBytes b := by
  rw [← Rsa.ofBeBytes_dropWhile,Rsa.dropWhile_mpintBody,Rsa.ofBeBytes_dropWhile]

variable {L : KeyLib} {s : Secret}

theorem Secret.same_reread (s : Secret) : s.reread.Same s := by
  cases s with
  | ed25519 seed pub => exact .ed25519 seed pub
  | mlDsa44Ed25519 seeds pub => exact .mlDsa44Ed25519 seeds pub
  | ecdsa curve d point => exact .ecdsa curve point (ofBeBytes_mpintBody d)
  | rsa n e d p q iqmp =>
    exact .rsa (ofBeBytes_mpintBody n) (ofBeBytes_mpintBody e) (ofBeBytes_mpintBody d)
      (ofBeBytes_mpintBody p) (ofBeBytes_mpintBody q) (ofBeBytes_mpintBody iqmp)
  | skEcdsaP256 point sk => exact .skEcdsaP256 point sk
  | skEd25519 pub sk => exact .skEd25519 pub sk

/-- The check sees the integers only without their leading zeros. -/
theorem Secret.checkConsistency_reread (s : Secret) :
    s.reread.checkConsistency L=s.checkConsistency L := by
  cases s with
  | ecdsa curve d point =>
    simp only [reread,checkConsistency,checkEcdsa,trimLeadingZeros_mpintBody]
  | rsa n e d p q iqmp =>
    have hprimes : rsaHasPrimes (mpintBody p) (mpintBody q)=rsaHasPrimes p q := by
      simp only [rsaHasPrimes,trimLeadingZeros_mpintBody]
    simp only [reread,checkConsistency,checkRsaPrivate,hprimes,uint,trimLeadingZeros_mpintBody]
  | _ => rfl

theorem Secret.publicKey_reread (s : Secret) : s.reread.publicKey=rereadPublic s.publicKey := by
  cases s <;> rfl

theorem publicPartsMatch_self (k : KeyData) : publicPartsMatch k k=true := by
  cases k <;> simp [publicPartsMatch]

end Reread

/- What `parse_wire_blob` asks of the parts of a key. -/
def Acceptable (L : KeyLib) : KeyData → Prop
  | .ecdsa curve point => L.fromSec1 curve point=true
  | .mlDsa44Ed25519 raw => raw.length=mldsaPublicKeyBytes
  | .skEcdsaP256 point _ => L.fromSec1 .p256 point=true
  | _ => True

theorem Secret.acceptable_publicKey {L : KeyLib} {s : Secret}
    (h : s.checkConsistency L = .ok ()) : Acceptable L s.publicKey := by
  cases s with
  | ed25519 | rsa | skEd25519 => trivial
  | mlDsa44Ed25519 seeds pub =>
    by_cases heq : L.mldsaPublic seeds=pub
    · rw [← heq]
      exact L.mldsaPublic_length seeds
    · rw [checkConsistency,if_pos heq] at h
      cases h
  | ecdsa curve d point =>
    rw [checkConsistency,checkEcdsa] at h
    cases hd : L.ecdsaPublic curve (trimLeadingZeros d) with
    | none =>
      rw [hd] at h
      cases h
    | some derived =>
      rw [hd] at h
      by_cases heq : derived=point
      · exact L.fromSec1_ecdsaPublic curve _ point (heq ▸ hd)
      · dsimp only at h
        rw [if_pos heq] at h
        cases h
  | skEcdsaP256 point sk =>
    rw [publicKey,Acceptable]
    by_contra hno
    rw [checkConsistency,if_neg hno] at h
    cases h

section RoundTrip

variable {L : KeyLib} {α : Type} {y : Result α}

variable {r : Bytes} {f : Bytes × Bytes → Result α}

theorem readApplication_then {application : Text} (h : application.bytes.length<2^32)
    {f : Text × Bytes → Result α} (hf : f (application,r)=y) :
    (readApplication (writeString application.bytes++r) >>= f)=y := by
  have hread : readApplication (writeString application.bytes++r) = .ok (application,r) := by
    apply string_then h
    dsimp only
    rw [Text.ofUtf8_bytes]
    rfl
  rw [hread,except_ok_bind,hf]

theorem SkCredential.read_write {sk : SkCredential} (h : sk.write.length<2^32) (r : Bytes) :
    read (sk.write++r) = .ok (sk,r) := by
  simp only [write,length_append,writeString_length] at h
  simp only [write,append_assoc]
  apply readApplication_then (by omega)
  dsimp only
  rw [cons_append,readU8_cons,except_ok_bind]
  apply string_then (by omega)
  apply string_then (by omega)
  rfl

theorem curve_name_short (curve : CurveId) : curve.name.length<2^32 := by
  cases curve <;> decide

theorem curve_algorithm_short (curve : CurveId) : curve.algorithm.length<2^32 := by
  cases curve <;> decide

theorem readPrivate_ecdsa (curve : CurveId) (r : Bytes) :
    readPrivate curve.algorithm r=parseEcdsaPrivate curve r := by
  cases curve <;>
    (rw [readPrivate]
     repeat rw [if_neg (by decide)]
     exact if_pos rfl)

theorem readPrivate_rsa (r : Bytes) : readPrivate rsa r=readRsaPrivate r := by
  rw [readPrivate]
  repeat rw [if_neg (by decide)]
  exact if_pos rfl

theorem readPrivate_skEcdsa (r : Bytes) : readPrivate skEcdsa r=readSkEcdsaPrivate r := by
  rw [readPrivate]
  repeat rw [if_neg (by decide)]
  exact if_pos rfl

theorem readPrivate_skEd25519 (r : Bytes) : readPrivate skEd25519 r=readSkEd25519Private r := by
  rw [readPrivate]
  repeat rw [if_neg (by decide)]
  exact if_pos rfl

theorem readMldsa_then {pub : Bytes} (h : pub.length=mldsaPublicKeyBytes) (hf : f (pub,r)=y) :
    (readMldsa (writeString pub++r) >>= f)=y := by
  have hshort : pub.length<2^32 := by
    rw [h]
    decide
  have hread : readMldsa (writeString pub++r) = .ok (pub,r) := by
    apply string_then hshort
    exact if_neg (not_not_intro h)
  rw [hread,except_ok_bind,hf]

theorem readCurvePoint_then (curve : CurveId) {point : Bytes} (h : point.length<2^32)
    (hf : f (point,r)=y) :
    (readCurvePoint curve (writeString curve.name++(writeString point++r)) >>= f)=y := by
  have hread : readCurvePoint curve (writeString curve.name++(writeString point++r)) =
      .ok (point,r) := by
    apply string_then (curve_name_short curve)
    dsimp only
    rw [if_neg (not_not_intro rfl),readString_writeString h]
  rw [hread,except_ok_bind,hf]

/-- The private fields of a key are read back. -/
theorem parsePrivateFields_fields {s : Secret} (hlen : s.fields.length<2^32)
    (hcheck : s.checkConsistency L = .ok ()) (r : Bytes) :
    parsePrivateFields (s.fields++r) = .ok (s.reread,r) := by
  cases s with
  | ed25519 seed pub =>
    have hseed := seed.2
    simp only [Secret.fields,append_assoc]
    apply string_then (by decide)
    dsimp only
    rw [readPrivate]
    apply string_then (by omega)
    dsimp only
    rw [if_neg (by omega)]
    apply string_then (by rw [length_append]; omega)
    dsimp only
    rw [dif_pos (by rw [length_append]; omega),if_neg (not_not_intro (drop_left' hseed))]
    simp only [take_left' hseed,drop_left' hseed]
    rfl
  | mlDsa44Ed25519 seeds pub =>
    have hpub : pub.length=mldsaPublicKeyBytes := Secret.acceptable_publicKey hcheck
    have hseeds := seeds.2
    simp only [Secret.fields,append_assoc]
    apply string_then (by decide)
    dsimp only
    apply readMldsa_then hpub
    apply string_then (by omega)
    exact dif_pos hseeds
  | ecdsa curve d point =>
    simp only [Secret.fields,length_append,writeString_length,writeMpint] at hlen
    simp only [Secret.fields,append_assoc]
    apply string_then (curve_algorithm_short curve)
    dsimp only
    rw [readPrivate_ecdsa]
    apply readCurvePoint_then curve (by omega)
    apply string_then (by omega)
    rfl
  | rsa n e d p q iqmp =>
    simp only [Secret.fields,length_append,writeString_length,writeMpint] at hlen
    simp only [Secret.fields,append_assoc]
    apply string_then (by decide)
    dsimp only
    rw [readPrivate_rsa]
    apply string_then (by omega)
    apply string_then (by omega)
    apply string_then (by omega)
    apply string_then (by omega)
    apply string_then (by omega)
    apply string_then (by omega)
    rfl
  | skEcdsaP256 point sk =>
    simp only [Secret.fields,length_append,writeString_length] at hlen
    simp only [Secret.fields,append_assoc]
    apply string_then (by decide)
    dsimp only
    rw [readPrivate_skEcdsa]
    apply readCurvePoint_then .p256 (by omega)
    dsimp only
    rw [SkCredential.read_write (by omega)]
    rfl
  | skEd25519 pub sk =>
    have hpub := pub.2
    simp only [Secret.fields,length_append] at hlen
    simp only [Secret.fields,append_assoc]
    apply string_then (by decide)
    dsimp only
    rw [readPrivate_skEd25519]
    apply string_then (by omega)
    dsimp only
    rw [dif_pos hpub,SkCredential.read_write (by omega)]
    rfl

section Public

variable {curve : CurveId} {point r : Bytes}

theorem parseEcdsaPublic_then (h : point.length<2^32) (hpoint : L.fromSec1 curve point=true)
    {f : Bytes × Bytes → Result α} (hf : f (point,r)=y) :
    (parseEcdsaPublic L.fromSec1 curve (writeString curve.name++(writeString point++r)) >>= f) =
      y := by
  have hread : parseEcdsaPublic L.fromSec1 curve
      (writeString curve.name++(writeString point++r)) = .ok (point,r) := by
    apply string_then (curve_name_short curve)
    dsimp only
    rw [if_neg (not_not_intro rfl)]
    apply string_then h
    exact if_pos hpoint
  rw [hread,except_ok_bind,hf]

theorem readRaw32_then (raw : Raw32) {f : Raw32 × Bytes → Result α} (hf : f (raw,r)=y) :
    (readRaw32 (writeString raw.1++r) >>= f)=y := by
  have hlen := raw.2
  have hread : readRaw32 (writeString raw.1++r) = .ok (raw,r) := by
    apply string_then (by omega)
    exact dif_pos hlen
  rw [hread,except_ok_bind,hf]

theorem readKey_ecdsa (h : point.length<2^32) (hpoint : L.fromSec1 curve point=true) (r : Bytes) :
    readKey L.fromSec1 curve.algorithm (writeString curve.name++(writeString point++r)) =
      .ok (.ecdsa curve point,r) := by
  cases curve <;>
    (rw [readKey]
     repeat rw [if_neg (by decide)]
     exact parseEcdsaPublic_then h hpoint rfl)

theorem parseWireBlob_wireBlob {k : KeyData} (hlen : k.wireBlob.length<2^32) (hk : Acceptable L k) :
    PublicKey.parseWireBlob L.fromSec1 k.wireBlob = .ok { key := rereadPublic k, comment := [] } := by
  -- the last string of each blob has nothing behind it
  rw [← append_nil k.wireBlob]
  cases k with
  | ed25519 raw =>
    simp only [KeyData.wireBlob,append_assoc]
    apply string_then (by decide)
    dsimp only
    rw [readKey,readRaw32_then raw rfl]
    rfl
  | ecdsa curve point =>
    simp only [KeyData.wireBlob,length_append,writeString_length] at hlen
    simp only [KeyData.wireBlob,append_assoc]
    apply string_then (curve_algorithm_short curve)
    dsimp only
    rw [readKey_ecdsa (by omega) hk]
    rfl
  | rsa e n =>
    simp only [KeyData.wireBlob,length_append,writeString_length,writeMpint] at hlen
    simp only [KeyData.wireBlob,append_assoc]
    apply string_then (by decide)
    dsimp only
    rw [readKey]
    rw [writeMpint,string_then (by omega) (string_then (by omega) rfl)]
    rfl
  | mlDsa44Ed25519 raw =>
    simp only [KeyData.wireBlob,append_assoc]
    apply string_then (by decide)
    dsimp only
    rw [readKey,readMldsa_then hk rfl]
    rfl
  | skEcdsaP256 point application =>
    simp only [KeyData.wireBlob,length_append,writeString_length] at hlen
    simp only [KeyData.wireBlob,append_assoc]
    apply string_then (by decide)
    dsimp only
    rw [readKey]
    repeat rw [if_neg (by decide)]
    rw [if_pos rfl,parseEcdsaPublic_then (by omega) hk (readApplication_then (by omega) rfl)]
    rfl
  | skEd25519 raw application =>
    simp only [KeyData.wireBlob,length_append,writeString_length] at hlen
    simp only [KeyData.wireBlob,append_assoc]
    apply string_then (by decide)
    dsimp only
    rw [readKey]
    repeat rw [if_neg (by decide)]
    rw [if_pos rfl,readRaw32_then raw (readApplication_then (by omega) rfl)]
    rfl

theorem Secret.wireBlob_length_le (s : Secret) : s.publicKey.wireBlob.length≤ s.fields.length := by
  cases s with
  | rsa =>
    simp only [publicKey,KeyData.wireBlob,fields,length_append]
    omega
  | _ =>
    simp only [publicKey,KeyData.wireBlob,fields,SkCredential.write,length_append]
    omega

end Public
end RoundTrip
end PureSsh.PrivateKeys
