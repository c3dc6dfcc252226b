import PureSsh.Krl.RoundTrip
import PureSsh.Lib.Assoc
import PureSsh.Sshsig.Verify

/-! What a verified signature vouches for: the key, the line of the allowed signers and the
revocation file. -/

namespace PureSsh.Sshsig
open Lib Reader Writer Cert PublicKeys

section Spec
variable (C : Crypto)

/-- The signature is one by the key it carries, over this namespace and message. -/
def Genuine (ns : Text) (message : Bytes) (sig : Signature) : Prop :=
  sig.ns=ns ∧ ∃ algorithm rest, readString sig.signature = .ok (algorithm,rest) ∧
    C.verify algorithm (plainOf sig.publicKey) (signedData ns sig.hash (C.digest sig.hash message))
      sig.signature = .ok ()

/-- A user certificate of an authority, in force at a time and for an identity. -/
structure Certified (authority : Bytes) (identity : Text) (now : Int) (cert : CertBlob) : Prop where
  authority : cert.signatureKeyBlob=authority
  user : cert.certType = .user
  started : cert.validAfter≤now
  running : now<cert.validBefore
  signed : cert.verifyCaSignature C.verify AllowedSigner.caSignatureDefaults = .ok ()
  named : identity∈cert.validPrincipals

/-- A line that lets an identity sign for a namespace at a time. -/
structure Allows (now : Int) (ns identity : Text) (publicKey : Bytes) (s : AllowedSigner) :
    Prop where
  principals : patternListMatches s.principals identity=true
  namespaces : ∀ list∈s.namespaces, patternListMatches list ns=true
  started : ∀ t∈s.validAfter, t≤now
  running : ∀ t∈s.validBefore, now≤t
  key : (s.certAuthority=false ∧ s.publicKey=publicKey) ∨
    (s.certAuthority=true ∧
      ∃ cert, CertBlob.parse publicKey = .ok cert ∧ Certified C s.publicKey identity now cert)

/-- The same key, however its blob is written. -/
def canonical (blob : Bytes) : Bytes :=
  match PublicKey.parseWireBlob C.fromSec1 blob with
  | .ok pk => pk.wireBlob
  | .error _ => blob

/-- A revocation file of which no part was passed over. -/
def Understood (data : Bytes) : Prop :=
  (∃ krl, Revocation.Krl.parse data = .ok krl) ∨
    ∀ line∈listLines data, isRemark line=false → (listedKey C line).isSome

/-- The keys of a list. -/
def Lists (data listed : Bytes) : Prop :=
  ∃ line∈listLines data, isRemark line=false ∧ listedKey C line=some listed

/-- The keys that a signature rests on: the one that signs and that of the authority. -/
def RestsOn (publicKey key : Bytes) : Prop :=
  key=plainOf publicKey ∨ ∃ c∈certOf publicKey, key=c.signatureKeyBlob

/-- The file revokes the key, the certificate or its authority. -/
def Revokes (data publicKey : Bytes) : Prop :=
  match Revocation.Krl.parse data with
  | .ok krl =>
    (∃ key, RestsOn publicKey key ∧ krl.isRevokedKey C.digests key=true) ∨
      ∃ c∈certOf publicKey, krl.isRevokedCert c.signatureKeyBlob c.serial c.keyId=true
  | .error _ =>
    ∃ listed key, Lists C data listed ∧ RestsOn publicKey key ∧ canonical C listed=canonical C key

/-- A list has the key in another form than the signature. -/
def Respelled (data publicKey : Bytes) : Prop :=
  (∀ krl, Revocation.Krl.parse data ≠ .ok krl) ∧
    ∃ listed key, Lists C data listed ∧ RestsOn publicKey key ∧ listed≠key ∧
      canonical C listed=canonical C key

/-- The parts of a request. -/
structure Reads (r : Request) (ns : Text) (sig : Signature) (message : Bytes) : Prop where
  ns : r.ns=some ns
  signature : ∃ file, r.sigFile=some file ∧ readSignature file = .ok sig
  message : r.stdin=some message

/-- Some well-formed line of the allowed signers takes the identity. -/
def SignerAllowed (localOffset now : Int) (r : Request) (ns : Text) (sig : Signature) : Prop :=
  ∃ identity file text, r.identity=some identity ∧ r.allowedSigners=some (some file) ∧
    Text.ofUtf8 file=some text ∧ ∃ line∈text.lines, ∃ s,
      AllowedSigner.parseLine line localOffset = .ok (some s) ∧
        Allows C now ns identity sig.publicKey s

/-- What an exit status of zero vouches for. -/
def Vouched (localOffset now : Int) (r : Request) : Prop :=
  ∃ ns sig message, Reads r ns sig message ∧ Genuine C ns message sig ∧
    SignerAllowed C localOffset now r ns sig ∧
    ∀ file, r.revocation=some file →
      ∃ data, file=some data ∧ Understood C data ∧ ¬Revokes C data sig.publicKey

end Spec

section Pieces
variable {C : Crypto}

variable {what : String} {data key publicKey : Bytes} {file : File} {text ns identity : Text}
  {c : CertBlob} {sig : Signature} {now : Int} {s : AllowedSigner}

theorem require_ok {α : Type} {v : Option α} {a : α} : require v what = .ok a ↔ v=some a := by
  cases v <;> simp [require]

theorem readFile_ok : readFile file what = .ok data ↔ file=some data := by
  cases file <;> simp [readFile]

theorem readToString_ok :
    readToString file what = .ok text ↔ ∃ data, file=some data ∧ Text.ofUtf8 data=some text := by
  cases file with
  | none => simp [readToString]
  | some data => cases h : Text.ofUtf8 data <;> simp [readToString,h]

/- Every type that the parser takes has the name of a certificate. -/
theorem isCertName_of_blobType {name : Text} (h : (blobTypeToPlain name).isSome) :
    isCertName name=true := by
  obtain ⟨plain,hplain⟩ := Option.isSome_iff_exists.1 h
  have hall : ∀ p∈blobTypes, isCertName p.1=true := by
    decide +kernel
  exact hall _ (mem_of_lookup hplain)

theorem readKeyType_ok {blob r : Bytes} {keyType : Text}
    (h : CertBlob.readKeyType blob = .ok (keyType,r)) :
    ∃ name, readString blob = .ok (name,r) ∧ Text.ofUtf8 name=some keyType ∧
      isCertName keyType=true := by
  obtain ⟨⟨name,r'⟩,hname,h⟩ := except_bind_eq_ok.1 h
  cases htext : Text.ofUtf8 name with
  | none => simp [htext] at h
  | some t =>
    simp only [htext] at h
    split at h
    · cases h
    next hsome =>
      cases h
      exact ⟨name,hname,htext,isCertName_of_blobType (by
        simpa [Option.isSome_iff_ne_none] using hsome)⟩

theorem isCertificate_of_parse (h : CertBlob.parse sig.publicKey = .ok c) :
    sig.isCertificate=true := by
  rw [CertBlob.parse] at h
  split at h
  · cases h
  · obtain ⟨⟨keyType,r⟩,htype,-⟩ := except_bind_eq_ok.1 h
    obtain ⟨name,hread,htext,hcert⟩ := readKeyType_ok htype
    rw [Signature.isCertificate,hread]
    simp [htext,hcert]

theorem certOf_eq_some : certOf key=some c ↔ CertBlob.parse key = .ok c := by
  rw [certOf]
  cases CertBlob.parse key <;> simp [Except.toOption]

theorem plainOf_parse (h : CertBlob.parse key = .ok c) : plainOf key=c.embeddedPubkeyBlob := by
  rw [plainOf,certOf_eq_some.2 h]
  rfl

theorem plainOf_plain (h : ∀ c, CertBlob.parse key ≠ .ok c) : plainOf key=key := by
  have hnone : certOf key=none := by
    rw [Option.eq_none_iff_forall_ne_some]
    exact fun c hc => h c (certOf_eq_some.1 hc)
  rw [plainOf,hnone]
  rfl

theorem signingKey_ok (h : sig.signingKey = .ok key) : key=plainOf sig.publicKey := by
  rw [Signature.signingKey] at h
  split at h
  · cases hparse : CertBlob.parse sig.publicKey with
    | error e =>
      rw [hparse] at h
      cases h
    | ok c =>
      rw [hparse] at h
      rw [plainOf_parse hparse]
      exact (Except.ok.inj h).symm
  next hplain =>
    rw [plainOf_plain fun c hc => hplain (isCertificate_of_parse hc)]
    exact (Except.ok.inj h).symm

theorem genuine_of_verify {message : Bytes}
    (h : sig.verify C ns (C.digest sig.hash message) = .ok ()) : Genuine C ns message sig := by
  obtain ⟨key,h⟩ := Signature.verify_ok h
  obtain ⟨_,sigAlg,_,r',-,halg,-,hverify⟩ := h.algorithms
  rw [signingKey_ok h.byKey] at hverify
  exact ⟨h.forNs.symm,sigAlg,r',halg,hverify⟩

theorem isOk_iff {ε : Type} {x : Except ε Unit} : x.isOk=true ↔ x = .ok () := by
  cases x <;> simp [Except.toBool]

theorem certified_of_certifies {cert : CertBlob} (h : s.certifies C cert now=true)
    (hid : identity∈cert.validPrincipals) : Certified C s.publicKey identity now cert := by
  simp only [AllowedSigner.certifies,Bool.and_eq_true,beq_iff_eq,decide_eq_true_eq,isOk_iff] at h
  obtain ⟨⟨⟨⟨hca,htype⟩,hpos⟩,hvalid⟩,hsigned⟩ := h
  have huser : cert.certType = .user := by
    by_contra hne
    rw [Certificate.checkType,if_neg hne] at htype
    cases htype
  have htime : ¬now.toNat<cert.validAfter ∧ ¬cert.validBefore≤now.toNat := by
    rw [Certificate.checkValidity] at hvalid
    split at hvalid
    · cases hvalid
    next hstart =>
      split at hvalid
      · cases hvalid
      next hend => exact ⟨hstart,hend⟩
  exact ⟨hca,huser,by omega,by omega,hsigned,hid⟩

theorem certified_of_mem {names : List Text}
    (h : s.certifiedPrincipals C publicKey now=some names) (hid : identity∈names) :
    s.validAt now=true ∧ s.certAuthority=true ∧
      ∃ cert, CertBlob.parse publicKey = .ok cert ∧ Certified C s.publicKey identity now cert := by
  rw [AllowedSigner.certifiedPrincipals] at h
  split at h
  · cases h
  next hca =>
    simp only [Bool.or_eq_true,Bool.not_eq_true',not_or,Bool.not_eq_false] at hca
    cases hparse : CertBlob.parse publicKey with
    | error e =>
      rw [hparse] at h
      cases h
    | ok cert =>
      rw [hparse] at h
      dsimp only at h
      split at h
      · cases h
      next hcert =>
        split at h
        · cases h
        · cases h
          exact ⟨hca.2,hca.1,cert,rfl,
            certified_of_certifies (by simpa using hcert) (List.mem_filter.1 hid).1⟩

theorem allows_of_accepts (h : s.accepts C publicKey identity now=true)
    (hns : s.allowsNamespace ns=true) : Allows C now ns identity publicKey s := by
  rw [AllowedSigner.accepts,Bool.and_eq_true,Bool.or_eq_true] at h
  obtain ⟨hprincipal,hkey⟩ := h
  -- both ways to be accepted look at the interval of the line
  have hboth : s.validAt now=true ∧ ((s.certAuthority=false ∧ s.publicKey=publicKey) ∨
      (s.certAuthority=true ∧
        ∃ cert, CertBlob.parse publicKey = .ok cert ∧ Certified C s.publicKey identity now cert)) := by
    obtain hkey | hkey := hkey
    · simp only [AllowedSigner.isKey,Bool.and_eq_true,Bool.not_eq_true',beq_iff_eq] at hkey
      exact ⟨hkey.2,.inl hkey.1⟩
    · obtain ⟨names,hnames,hmem⟩ := (Option.any_eq_true ..).1 hkey
      have hid : identity∈names := List.contains_iff_mem.1 (by simpa using hmem)
      obtain ⟨hvalid,hca,hcert⟩ := certified_of_mem hnames hid
      exact ⟨hvalid,.inr ⟨hca,hcert⟩⟩
  obtain ⟨hvalid,hkey⟩ := hboth
  rw [AllowedSigner.validAt,Bool.and_eq_true] at hvalid
  refine ⟨hprincipal,?_,?_,?_,hkey⟩
  · exact (Option.all_eq_true ..).1 hns
  · exact fun t ht => of_decide_eq_true ((Option.all_eq_true ..).1 hvalid.1 t ht)
  · exact fun t ht => of_decide_eq_true ((Option.all_eq_true ..).1 hvalid.2 t ht)

theorem mem_parseFile {localOffset : Int} (h : s∈(AllowedSigner.parseFile text localOffset).1) :
    ∃ line∈text.lines, AllowedSigner.parseLine line localOffset = .ok (some s) := by
  obtain ⟨parsed,hparsed,hs⟩ := List.mem_filterMap.1 h
  obtain ⟨line,hline,rfl⟩ := List.mem_map.1 hparsed
  refine ⟨line,hline,?_⟩
  cases hp : AllowedSigner.parseLine line localOffset with
  | error e =>
    rw [hp] at hs
    cases hs
  | ok o =>
    rw [hp] at hs
    exact congrArg Except.ok hs

theorem restsOn_key_eq {listed : Bytes} :
    ((listed==plainOf publicKey) || (certOf publicKey).any fun c => listed==c.signatureKeyBlob)
      = true ↔ RestsOn publicKey listed := by
  rw [RestsOn,Bool.or_eq_true]
  simp only [Option.any_eq_true,beq_iff_eq,Option.mem_def]

theorem listRevokes_iff : listRevokes C data publicKey=true ↔
    ∃ listed, Lists C data listed ∧ RestsOn publicKey listed := by
  simp only [listRevokes,List.any_eq_true,Bool.and_eq_true,Bool.not_eq_true',Option.any_eq_true,
    restsOn_key_eq]
  constructor
  · rintro ⟨line,hline,hremark,listed,hlisted,hrests⟩
    exact ⟨listed,⟨line,hline,hremark,hlisted⟩,hrests⟩
  · rintro ⟨listed,⟨line,hline,hremark,hlisted⟩,hrests⟩
    exact ⟨line,hline,hremark,listed,hlisted,hrests⟩

theorem krlRevokes_iff {krl : Revocation.Krl} : krlRevokes C krl publicKey=true ↔
      (∃ key, RestsOn publicKey key ∧ krl.isRevokedKey C.digests key=true) ∨
        ∃ c∈certOf publicKey, krl.isRevokedCert c.signatureKeyBlob c.serial c.keyId=true := by
  simp only [krlRevokes,Bool.or_eq_true,Option.any_eq_true]
  constructor
  · rintro (h | ⟨c,hc,h | h⟩)
    · exact .inl ⟨_,.inl rfl,h⟩
    · exact .inr ⟨c,hc,h⟩
    · exact .inl ⟨_,.inr ⟨c,hc,rfl⟩,h⟩
  · rintro (⟨key,rfl | ⟨c,hc,rfl⟩,h⟩ | ⟨c,hc,h⟩)
    · exact .inl h
    · exact .inr ⟨c,hc,.inr h⟩
    · exact .inr ⟨c,hc,.inl h⟩

theorem revokes_iff (h : revoked C (some data) publicKey = .ok false) :
    Revokes C data publicKey ↔ Respelled C data publicKey := by
  rw [Revokes,Respelled]
  cases hkrl : Revocation.Krl.parse data with
  | ok krl =>
    have hno : krlRevokes C krl publicKey=false := by
      rw [revoked,readFile,except_ok_bind,hkrl] at h
      exact Except.ok.inj h
    have hnot := mt krlRevokes_iff.2 (by simp [hno] : ¬krlRevokes C krl publicKey=true)
    exact ⟨fun hrev => absurd hrev hnot,fun hresp => absurd rfl (hresp.1 krl)⟩
  | error e =>
    have hno : listRevokes C data publicKey=false := by
      rw [revoked,readFile,except_ok_bind,hkrl] at h
      exact Except.ok.inj h
    constructor
    · rintro ⟨listed,key,hlists,hrests,hsame⟩
      refine ⟨nofun,listed,key,hlists,hrests,?_,hsame⟩
      rintro rfl
      have := listRevokes_iff.2 ⟨listed,hlists,hrests⟩
      rw [hno] at this
      cases this
    · rintro ⟨-,listed,key,hlists,hrests,-,hsame⟩
      exact ⟨listed,key,hlists,hrests,hsame⟩

end Pieces

section Main
variable {C : Crypto} {localOffset now : Int} {r : Request}

theorem exitStatus_eq_zero {x : Except Stop Verdict} : exitStatus x=0 ↔
    ∃ ns identity key, x = .ok (.good ns identity key) := by
  match x with
  | .error e => simp [exitStatus]
  | .ok (.bad why) => simp [exitStatus,Verdict.exitCode]
  | .ok (.good ns identity key) => simp [exitStatus,Verdict.exitCode]

variable {ns : Text} {sig : Signature}

theorem checkKey_ok {digest : Bytes} (h : checkKey C r sig ns digest = .ok (.ok ())) :
    sig.verify C ns digest = .ok () ∧
      ∀ file, r.revocation=some file → revoked C file sig.publicKey = .ok false := by
  rw [checkKey] at h
  cases hsig : sig.verify C ns digest with
  | error e =>
    rw [hsig] at h
    cases h
  | ok u =>
    rw [hsig] at h
    refine ⟨rfl,fun file hfile => ?_⟩
    rw [hfile] at h
    obtain ⟨isRevoked,hrevoked,h⟩ := except_bind_eq_ok.1 h
    cases isRevoked with
    | true => cases h
    | false => exact hrevoked

theorem signerAllowed_of_checkSigner {identity : Text}
    (h : checkSigner C localOffset now r sig ns = .ok (.ok identity)) :
    SignerAllowed C localOffset now r ns sig := by
  obtain ⟨file,hfile,hrest⟩ := except_bind_eq_ok.1 h
  obtain ⟨allowed,hallowed,hrest⟩ := except_bind_eq_ok.1 hrest
  obtain ⟨id,hid,hrest⟩ := except_bind_eq_ok.1 hrest
  have hfound := Except.ok.inj hrest
  obtain ⟨text,htext,hlist⟩ := except_bind_eq_ok.1 hallowed
  obtain ⟨data,rfl,hutf8⟩ := readToString_ok.1 htext
  split at hfound
  next hany =>
    obtain ⟨s,hs,haccepts⟩ := List.any_eq_true.1 hany
    rw [Bool.and_eq_true] at haccepts
    rw [← Except.ok.inj hlist] at hs
    obtain ⟨line,hline,hparse⟩ := mem_parseFile hs
    exact ⟨id,data,text,require_ok.1 hid,require_ok.1 hfile,hutf8,line,hline,s,hparse,
      allows_of_accepts haccepts.1 haccepts.2⟩
  · cases hfound

theorem verify_good {identity : Option Text} {key : PublicKey}
    (h : verify C localOffset now true r = .ok (.good ns identity key)) :
    ∃ sig message, Reads r ns sig message ∧ Genuine C ns message sig ∧
      SignerAllowed C localOffset now r ns sig ∧
      ∀ file, r.revocation=some file → revoked C file sig.publicKey = .ok false := by
  obtain ⟨ns',hns,h⟩ := except_bind_eq_ok.1 h
  obtain ⟨sigFile,hsigFile,h⟩ := except_bind_eq_ok.1 h
  obtain ⟨sig,hsig,h⟩ := except_bind_eq_ok.1 h
  obtain ⟨message,hmessage,h⟩ := except_bind_eq_ok.1 h
  obtain ⟨checked,hchecked,h⟩ := except_bind_eq_ok.1 h
  obtain ⟨result,hresult,h⟩ := except_bind_eq_ok.1 h
  have hgood := Except.ok.inj h
  cases result with
  | error e => cases hgood
  | ok found =>
    have hsame : ns'=ns := by
      cases hpk : PublicKey.parseWireBlob C.fromSec1 (plainOf sig.publicKey) with
      | error e =>
        rw [hpk] at hgood
        cases hgood
      | ok pk =>
        rw [hpk] at hgood
        cases hgood
        rfl
    subst hsame
    cases checked with
    | error e => cases hresult
    | ok u =>
      obtain ⟨found',hfound,hmap⟩ := except_bind_eq_ok.1 hresult
      cases found' with
      | error e => cases hmap
      | ok id =>
        obtain ⟨hverify,hrevoked⟩ := checkKey_ok hchecked
        exact ⟨sig,message,⟨require_ok.1 hns,⟨sigFile,require_ok.1 hsigFile,hsig⟩,
          readFile_ok.1 hmessage⟩,genuine_of_verify hverify,signerAllowed_of_checkSigner hfound,
          hrevoked⟩

theorem Reads.unique {ns' : Text} {sig' : Signature} {message message' : Bytes}
    (h : Reads r ns sig message) (h' : Reads r ns' sig' message') : sig=sig' := by
  obtain ⟨file,hfile,hsig⟩ := h.signature
  obtain ⟨file',hfile',hsig'⟩ := h'.signature
  rw [hfile] at hfile'
  cases hfile'
  exact Except.ok.inj (hsig.symm.trans hsig')

/-- An exit status of zero vouches for the signature, the signer and the revocation file exactly
if the whole file was understood and has no key of the signature in another form. -/
theorem verify_vouched_iff (C : Crypto) (localOffset now : Int) (r : Request)
    (hzero : exitStatus (verify C localOffset now true r)=0) : Vouched C localOffset now r ↔
      ∀ data ns sig message, r.revocation=some (some data) → Reads r ns sig message →
        Understood C data ∧ ¬Respelled C data sig.publicKey := by
  constructor
  · intro hclaim data ns sig message hdata hreads
    obtain ⟨ns₀,sig₀,message₀,hreads₀,-,-,hrev⟩ := hclaim
    obtain ⟨data',hsome,hunderstood,hnot⟩ := hrev _ hdata
    cases hsome
    rw [hreads.unique hreads₀]
    refine ⟨hunderstood,fun hresp => hnot ?_⟩
    rw [Revokes]
    cases hkrl : Revocation.Krl.parse data with
    | ok krl => exact absurd hkrl (hresp.1 krl)
    | error e =>
      obtain ⟨-,listed,key,hlists,hrests,-,hsame⟩ := hresp
      exact ⟨listed,key,hlists,hrests,hsame⟩
  · intro hfile
    obtain ⟨ns,identity,key,hgood⟩ := exitStatus_eq_zero.1 hzero
    obtain ⟨sig,message,hreads,hgenuine,hallowed,hrevoked⟩ := verify_good hgood
    refine ⟨ns,sig,message,hreads,hgenuine,hallowed,fun file hsome => ?_⟩
    have hno := hrevoked file hsome
    cases file with
    | none => cases hno
    | some data =>
      obtain ⟨hunderstood,hresp⟩ := hfile data ns sig message hsome hreads
      exact ⟨data,rfl,hunderstood,fun hrev => hresp ((revokes_iff hno).1 hrev)⟩

end Main

section Damaged
open Revocation

def keyLine (name : String) (blob : Bytes) : Text := name.toList++[' ']++Base64.encode blob

/- The signer may be anybody. -/
def signedRequest (sig : Signature) (line : Text) (revocation : Bytes) : Request where
  ns := some "file".toList
  sigFile := some (some sig.toArmored.bytes)
  stdin := some [104,105]
  revocation := some (some revocation)
  allowedSigners := some (some (Text.bytes ("* ".toList++line)))
  identity := some "alice".toList

def signerRequest (revocation : Bytes) : Request :=
  signedRequest (signed signerBlob ed25519) (keyLine "ssh-ed25519" signerBlob) revocation

/- A file that revokes a key, and the one that revokes the signer without its last byte. -/
def intactKrl (blob : Bytes) : Bytes := (Krl.new.revokeKey blob).toBytes 0
def damagedKrl : Bytes := (intactKrl signerBlob).dropLast

/-- A file that parses and revokes another key. -/
theorem verify_vouched_other :
    exitStatus (verify openCrypto 0 0 true (signerRequest (intactKrl ed25519)))=0 ∧
      Vouched openCrypto 0 0 (signerRequest (intactKrl ed25519)) := by
  obtain ⟨hzero,hsome⟩ :
      exitStatus (verify openCrypto 0 0 true (signerRequest (intactKrl ed25519)))=0 ∧
        (Krl.parse (intactKrl ed25519)).toOption.isSome=true := by
    decide +kernel
  obtain ⟨krl,hkrl⟩ : ∃ krl, Krl.parse (intactKrl ed25519) = .ok krl := by
    cases h : Krl.parse (intactKrl ed25519) with
    | ok krl => exact ⟨krl,rfl⟩
    | error e =>
      rw [h] at hsome
      cases hsome
  refine ⟨hzero,(verify_vouched_iff openCrypto 0 0 _ hzero).2 fun data ns sig message hdata _ => ?_⟩
  cases hdata
  exact ⟨.inl ⟨krl,hkrl⟩,fun hrespelled => hrespelled.1 krl hkrl⟩

/-- A revocation list that lost its last byte revokes nothing, and nobody is told. -/
theorem damaged_krl_passes :
    exitStatus (verify openCrypto 0 0 true (signerRequest (intactKrl signerBlob)))=255 ∧
      exitStatus (verify openCrypto 0 0 true (signerRequest damagedKrl))=0 ∧
      ¬Vouched openCrypto 0 0 (signerRequest damagedKrl) := by
  obtain ⟨hintact,hdamaged,hparse,hlist⟩ :
      exitStatus (verify openCrypto 0 0 true (signerRequest (intactKrl signerBlob)))=255 ∧
        exitStatus (verify openCrypto 0 0 true (signerRequest damagedKrl))=0 ∧
        (Krl.parse damagedKrl).toOption.isSome=false ∧ ((listLines damagedKrl).all fun line =>
          isRemark line || (listedKey openCrypto line).isSome)=false := by
    decide +kernel
  have hbad : ¬Understood openCrypto damagedKrl := by
    rintro (⟨krl,hkrl⟩ | hlines)
    · rw [hkrl] at hparse
      cases hparse
    · rw [Bool.eq_false_iff] at hlist
      refine hlist (List.all_eq_true.2 fun line hline => ?_)
      cases hremark : isRemark line with
      | true => rfl
      | false => exact hlines line hline hremark
  refine ⟨hintact,hdamaged,?_⟩
  rintro ⟨ns,sig,message,-,-,-,hrev⟩
  obtain ⟨data,hdata,hunderstood,-⟩ := hrev _ rfl
  cases hdata
  exact hbad hunderstood

end Damaged
end PureSsh.Sshsig
