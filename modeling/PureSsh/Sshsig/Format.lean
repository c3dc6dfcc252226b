import PureSsh.CertBlob
import PureSsh.Krl.Format

/-! OpenSSH signatures: their blob, their armour and the check under the key they carry
(`sshsig.rs`). -/

namespace PureSsh.Sshsig
open Lib Reader Writer Cert PublicKeys Text

inductive HashAlg where
  | sha256 | sha512
  deriving DecidableEq, Repr

namespace HashAlg

def name : HashAlg → Str
  | sha256 => ascii "sha256"
  | sha512 => ascii "sha512"

def fromName (name : Str) : Option HashAlg :=
  if name=ascii "sha256" then some sha256
  else if name=ascii "sha512" then some sha512
  else none

end HashAlg

/-- What the cryptographic library computes: digests, points on a curve and the check of a
signature by the name of its algorithm. -/
structure Crypto where
  digests : Revocation.Digests
  digest : HashAlg → Bytes → Bytes
  fromSec1 : FromSec1
  verify : VerifyByName

def magic : Bytes := ascii "SSHSIG"
def version : UInt32 := 1

/- `begin` and `end` are words of Lean. -/
def beginLine : Text := "-----BEGIN SSH SIGNATURE-----".toList
def endLine : Text := "-----END SSH SIGNATURE-----".toList

/- The bytes a signature covers. -/
def signedData (ns : Text) (hash : HashAlg) (messageDigest : Bytes) : Bytes :=
  magic++writeString ns.bytes++writeString []++writeString hash.name ++
    writeString messageDigest

structure Signature where
  publicKey : Bytes
  ns : Text
  hash : HashAlg
  signature : Bytes
  deriving DecidableEq, Repr

namespace Signature

def toBlob (s : Signature) : Bytes :=
  magic++be32 version++writeString s.publicKey++writeString s.ns.bytes++writeString [] ++
    writeString s.hash.name++writeString s.signature

def fromBlob (blob : Bytes) : Result Signature := do
  let (head,r) ← take 6 blob
  if head≠magic then .error (.format "sshsig: bad magic")
  else
    let (v,r) ← readU32 r
    if v≠version then .error (.unsupported "sshsig: version")
    else
      let (publicKey,r) ← readString r
      let (ns,r) ← readString r
      match ofUtf8 ns with
      | none => .error (.format "sshsig: namespace not UTF-8")
      | some ns => do
        let (_reserved,r) ← readString r
        let (hash,r) ← readString r
        match HashAlg.fromName hash with
        | none => .error (.unsupported "sshsig: hash algorithm")
        | some hash => do
          let (signature,r) ← readString r
          if r≠[] then .error (.format "sshsig: trailing data")
          else return { publicKey, ns, hash, signature }

/- Lines of 70 characters. -/
def toArmored (s : Signature) : Text :=
  beginLine++('\n' :: (Base64.encode s.toBlob).wrap 70++(endLine++['\n']))

def fromArmored (text : Text) : Result Signature :=
  match cutAt beginLine text with
  | none => .error (.format "sshsig: missing BEGIN SSH SIGNATURE")
  | some (_,rest) => match cutAt endLine rest with
    | none => .error (.format "sshsig: missing END SSH SIGNATURE")
    | some (armour,_) => do
      let blob ← Base64.decode (bytes (armour.filter (!isWhitespace ·)))
      fromBlob blob

/- The name that a blob begins with is that of a certificate type. -/
def isCertificate (s : Signature) : Bool :=
  match readString s.publicKey with
  | .ok (t,_) => (ofUtf8 t).any isCertName
  | .error _ => false

/- The key that signs: a certificate signs with the key it certifies. -/
def signingKey (s : Signature) : Result Bytes :=
  if s.isCertificate then (·.embeddedPubkeyBlob) <$> CertBlob.parse s.publicKey
  else .ok s.publicKey

/- SHA-1 signatures of RSA keys are refused. -/
def familyOk (keyAlg sigAlg : Bytes) : Bool :=
  if keyAlg=rsa then sigAlg=ascii "rsa-sha2-256" || sigAlg=ascii "rsa-sha2-512"
  else sigAlg=keyAlg

def verify (C : Crypto) (s : Signature) (ns : Text) (messageDigest : Bytes) : Result Unit :=
  if ns≠s.ns then .error .badSignature
  else do
    let keyBlob ← s.signingKey
    let (keyAlg,_) ← readString keyBlob
    let (sigAlg,_) ← readString s.signature
    if !validUtf8 sigAlg then .error .badSignature
    else if !familyOk keyAlg sigAlg then .error .badSignature
    else C.verify sigAlg keyBlob (signedData ns s.hash messageDigest) s.signature

end Signature

section RoundTrip

/- What is written fits its length fields. -/
structure Signature.Fits (s : Signature) : Prop where
  publicKey : s.publicKey.length<2^32
  ns : s.ns.bytes.length<2^32
  signature : s.signature.length<2^32

theorem HashAlg.fromName_name (h : HashAlg) : fromName h.name=some h := by
  cases h <;> decide

theorem HashAlg.name_length (h : HashAlg) : h.name.length<2^32 := by
  cases h <;> decide

namespace Signature
variable {s : Signature}

theorem fromBlob_toBlob (h : s.Fits) : fromBlob s.toBlob = .ok s := by
  have hlen : magic.length=6 := by decide
  simp only [fromBlob,toBlob,List.append_assoc]
  rw [take_append hlen,except_ok_bind,if_neg (not_not_intro rfl),readU32_be32,except_ok_bind,
    if_neg (not_not_intro rfl),readString_writeString h.publicKey,except_ok_bind,
    readString_writeString h.ns,except_ok_bind]
  dsimp only
  rw [ofUtf8_bytes]
  dsimp only
  rw [readString_writeString (by decide),except_ok_bind,
    readString_writeString s.hash.name_length,except_ok_bind]
  dsimp only
  rw [HashAlg.fromName_name]
  dsimp only
  rw [readString_writeString_end h.signature,except_ok_bind,if_neg (not_not_intro rfl)]
  rfl

theorem endLine_eq : endLine = '-' :: endLine.tail := by decide

/-- What is armoured is read back, whatever stands around it. -/
theorem fromArmored_toArmored (h : s.Fits) {t : Text}
    (ht : cutAt beginLine (t++beginLine)=some (t,[])) (suffix : Text) :
    fromArmored (t++s.toArmored++suffix) = .ok s := by
  have hdash : '-' ∉ '\n' :: (Base64.encode s.toBlob).wrap 70 := by
    intro hmem
    obtain heq | hmem := List.mem_cons.1 hmem
    · exact absurd heq (by decide)
    · obtain hmem | heq := mem_wrapFrom hmem
      · exact Base64.dash_not_mem_encode _ hmem
      · exact absurd heq (by decide)
  have harmour : ('\n' :: (Base64.encode s.toBlob).wrap 70).filter (!isWhitespace ·) =
      Base64.encode s.toBlob := by
    rw [List.filter_cons_of_neg (by decide)]
    exact filter_wrapFrom (fun c hc => Base64.solid_encode hc) 70 70
  have hend : cutAt endLine (('\n' :: (Base64.encode s.toBlob).wrap 70) ++
      (endLine ++ '\n' :: suffix)) =
      some ('\n' :: (Base64.encode s.toBlob).wrap 70,'\n' :: suffix) := by
    rw [endLine_eq]
    exact cutAt_append hdash endLine.tail ('\n' :: suffix)
  have htext : t++s.toArmored++suffix=t++(beginLine ++
      ('\n' :: (Base64.encode s.toBlob).wrap 70++(endLine ++ '\n' :: suffix))) := by
    simp [toArmored]
  rw [fromArmored,htext,cutAt_append_right ht]
  dsimp only
  rw [hend]
  dsimp only
  rw [harmour,Base64.decode_encode,except_ok_bind,fromBlob_toBlob h]

end Signature
end RoundTrip

section Binding
variable {C : Crypto} {s : Signature} {ns ns' : Text} {hash hash' : HashAlg} {digest digest' : Bytes}

theorem signedData_inj (hns : ns.bytes.length<2^32) (hns' : ns'.bytes.length<2^32)
    (hd : digest.length<2^32) (hd' : digest'.length<2^32)
    (h : signedData ns hash digest=signedData ns' hash' digest') :
    ns=ns' ∧ hash=hash' ∧ digest=digest' := by
  simp only [signedData,List.append_assoc] at h
  obtain ⟨hname,h⟩ := writeString_append_inj hns hns' (List.append_cancel_left h)
  obtain ⟨hhash,h⟩ := writeString_append_inj hash.name_length hash'.name_length
    (List.append_cancel_left h)
  have hfrom := congrArg HashAlg.fromName hhash
  rw [HashAlg.fromName_name,HashAlg.fromName_name] at hfrom
  refine ⟨bytes_injective hname,Option.some.inj hfrom,?_⟩
  rw [← List.append_nil (writeString digest),← List.append_nil (writeString digest')] at h
  exact (writeString_append_inj hd hd' h).1

/-- What a check under the key of the signature itself has accepted. -/
structure Signature.Accepted (C : Crypto) (s : Signature) (ns : Text) (digest key : Bytes) :
    Prop where
  forNs : ns=s.ns
  byKey : s.signingKey = .ok key
  algorithms : ∃ keyAlg sigAlg r r', readString key = .ok (keyAlg,r) ∧
    readString s.signature = .ok (sigAlg,r') ∧
    (keyAlg≠rsa ∧ sigAlg=keyAlg ∨
      keyAlg=rsa ∧ (sigAlg=ascii "rsa-sha2-256" ∨ sigAlg=ascii "rsa-sha2-512")) ∧
    C.verify sigAlg key (signedData ns s.hash digest) s.signature = .ok ()

theorem Signature.verify_ok (h : s.verify C ns digest = .ok ()) :
    ∃ key, s.Accepted C ns digest key := by
  rw [Signature.verify] at h
  split at h
  · cases h
  next hns =>
    obtain ⟨key,hkey,h⟩ := except_bind_eq_ok.1 h
    obtain ⟨⟨keyAlg,r⟩,hkeyAlg,h⟩ := except_bind_eq_ok.1 h
    obtain ⟨⟨sigAlg,r'⟩,hsigAlg,h⟩ := except_bind_eq_ok.1 h
    dsimp only at h
    split at h
    · cases h
    split at h
    · cases h
    next hfamily =>
      refine ⟨key,not_not.1 hns,hkey,keyAlg,sigAlg,r,r',hkeyAlg,hsigAlg,?_,h⟩
      by_cases hrsa : keyAlg=rsa
      · refine .inr ⟨hrsa,?_⟩
        simpa [Signature.familyOk,hrsa,or_iff_not_imp_left] using hfamily
      · exact .inl ⟨hrsa,by simpa [Signature.familyOk,hrsa] using hfamily⟩

/-- A signature is bound to its namespace, its hash and the message. The armour is found behind
every text in which, with the line itself behind it, the first line stands only at the end. -/
theorem signature_binds (C : Crypto) :
    (∀ (ns ns' : Text) (hash hash' : HashAlg) (digest digest' : Bytes),
      ns.bytes.length<2^32 → ns'.bytes.length<2^32 → digest.length<2^32 →
      digest'.length<2^32 → signedData ns hash digest=signedData ns' hash' digest' →
      ns=ns' ∧ hash=hash' ∧ digest=digest') ∧ (∀ (s : Signature) (t suffix : Text), s.Fits →
      cutAt beginLine (t++beginLine)=some (t,[]) →
      Signature.fromArmored (t++s.toArmored++suffix) = .ok s) ∧
    ∀ (s : Signature) (ns : Text) (digest : Bytes), s.verify C ns digest = .ok () →
      ∃ key, s.Accepted C ns digest key :=
  ⟨fun _ _ _ _ _ _ hns hns' hd hd' h => signedData_inj hns hns' hd hd' h,
    fun _ _ suffix hs ht => Signature.fromArmored_toArmored hs ht suffix,
    fun _ _ _ h => Signature.verify_ok h⟩

/-- Digests and signatures that a signature with the signer's key makes good. -/
def openCrypto : Crypto where
  digests := Revocation.Krl.zeroDigests
  digest := fun _ message => message
  fromSec1 := fun _ _ => true
  verify := fun _ _ _ _ => .ok ()

def signed (blob algorithm : Bytes) : Signature where
  publicKey := blob
  ns := "file".toList
  hash := .sha512
  signature := writeString algorithm++writeString (List.replicate 64 7)

def signerBlob : Bytes := writeString ed25519++writeString (List.replicate 32 1)

theorem signature_binds_signer :
    signedData "file".toList .sha512 [1]≠signedData "git".toList .sha512 [1] ∧
      Signature.fromArmored ("Signed\n".toList++(signed signerBlob ed25519).toArmored++"--".toList) =
        .ok (signed signerBlob ed25519) ∧
      ∃ key, (signed signerBlob ed25519).Accepted openCrypto "file".toList [1] key := by
  obtain ⟨hinj,harmour,haccepted⟩ := signature_binds openCrypto
  refine ⟨fun h => ?_,?_,haccepted _ _ _ (by decide +kernel)⟩
  · exact absurd (hinj _ _ _ _ _ _ (by decide) (by decide) (by decide) (by decide) h).1 (by decide)
  · exact harmour _ _ _ ⟨by decide,by decide,by decide⟩ (by decide)

/-- A text without the first line can have it once the armour stands behind it. -/
theorem armour_hidden_by_overlap : ∃ (s : Signature) (t : Text), s.Fits ∧
    cutAt beginLine t=none ∧ Signature.fromArmored (t++s.toArmored) ≠ .ok s := by
  refine ⟨⟨[],[],.sha256,[]⟩,"-----BEGIN SSH SIGNATURE".toList,⟨by decide,by decide,by decide⟩,
    by decide,by decide⟩

end Binding
end PureSsh.Sshsig
