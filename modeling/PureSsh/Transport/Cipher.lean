import PureSsh.Format

/-! Ciphers, MACs and compression as the packet codec drives them
(`hazmat/cipher`, `hazmat/mac`, `hazmat/compress`). -/

namespace PureSsh.Transport
open Lib Proc

inductive Digest where
  | md5 | sha1 | sha256 | sha512
  deriving DecidableEq, Repr

def Digest.outputLen : Digest → Nat
  | .md5 => 16
  | .sha1 => 20
  | .sha256 => 32
  | .sha512 => 64

/- What the transport layer calls in purecrypto and compcol. A stateless keyed object is its
   key; the states of stream and block modes and of the compressors are opaque. -/
structure Primitives where
  Ctr : Type
  Cbc : Type
  Deflate : Type
  Inflate : Type
  /-- key, initial counter block -/
  ctrNew : Bytes → Bytes → Ctr
  ctrApplyKeystream : Ctr → Bytes → Bytes × Ctr
  /-- key, initialisation vector -/
  aesCbcNew : Bytes → Bytes → Cbc
  tdesCbcNew : Bytes → Bytes → Cbc
  cbcBlockSize : Cbc → Nat
  /-- fails on input that is not block-aligned -/
  cbcEncrypt : Cbc → Bytes → Option (Bytes × Cbc)
  cbcDecrypt : Cbc → Bytes → Option (Bytes × Cbc)
  /-- key, nonce, associated data, plaintext: ciphertext and tag -/
  gcmEncrypt : Bytes → Bytes → Bytes → Bytes → Bytes × Bytes
  /-- key, nonce, associated data, ciphertext, tag; fails on a tag mismatch -/
  gcmDecrypt : Bytes → Bytes → Bytes → Bytes → Bytes → Option Bytes
  /-- key, nonce, block counter, data -/
  chachaApplyKeystream : Bytes → Bytes → UInt32 → Bytes → Bytes
  chachaBlock : Bytes → Bytes → UInt32 → Bytes
  /-- one-time key, message -/
  poly1305 : Bytes → Bytes → Bytes
  /-- key, message -/
  hmac : Digest → Bytes → Bytes → Bytes
  /-- key, message, nonce -/
  umac64 : Bytes → Bytes → Bytes → Bytes
  umac128 : Bytes → Bytes → Bytes → Bytes
  deflateNew : Deflate
  /-- one packet up to and including the sync flush -/
  deflateStep : Bytes → Proc Error Deflate Bytes
  inflateNew : Inflate
  inflateStep : Bytes → Proc Error Inflate Bytes

/- The documented behaviour that the packet format relies on. -/
structure Primitives.Lawful (P : Primitives) : Prop where
  ctr_length : ∀ s b, (P.ctrApplyKeystream s b).1.length=b.length
  ctr_twice : ∀ s b, P.ctrApplyKeystream s (P.ctrApplyKeystream s b).1 =
    (b,(P.ctrApplyKeystream s b).2)
  ctr_append : ∀ s a b, P.ctrApplyKeystream s (a++b) =
    ((P.ctrApplyKeystream s a).1++(P.ctrApplyKeystream (P.ctrApplyKeystream s a).2 b).1,
      (P.ctrApplyKeystream (P.ctrApplyKeystream s a).2 b).2)
  cbc_blockSize : ∀ s, P.cbcBlockSize s=8 ∨ P.cbcBlockSize s=16
  cbc_decrypt_encrypt : ∀ s b, P.cbcBlockSize s ∣ b.length → ∃ c s',
    P.cbcEncrypt s b=some (c,s') ∧ P.cbcDecrypt s c=some (b,s')
  cbc_decrypt_length : ∀ s c b s', P.cbcDecrypt s c=some (b,s') →
    b.length=c.length ∧ P.cbcBlockSize s'=P.cbcBlockSize s
  cbc_decrypt_append : ∀ s a b, P.cbcBlockSize s ∣ a.length → P.cbcBlockSize s ∣ b.length →
    P.cbcDecrypt s (a++b)=(P.cbcDecrypt s a).bind fun x =>
      (P.cbcDecrypt x.2 b).map fun y => (x.1++y.1,y.2)
  gcm_length : ∀ k n aad b, (P.gcmEncrypt k n aad b).1.length=b.length ∧
    (P.gcmEncrypt k n aad b).2.length=16
  gcm_decrypt_encrypt : ∀ k n aad b,
    P.gcmDecrypt k n aad (P.gcmEncrypt k n aad b).1 (P.gcmEncrypt k n aad b).2=some b
  chacha_length : ∀ k n i b, (P.chachaApplyKeystream k n i b).length=b.length
  chacha_twice : ∀ k n i b,
    P.chachaApplyKeystream k n i (P.chachaApplyKeystream k n i b)=b
  poly1305_length : ∀ k m, (P.poly1305 k m).length=16
  hmac_length : ∀ d k m, (P.hmac d k m).length=d.outputLen
  umac64_length : ∀ k m n, (P.umac64 k m n).length=8
  umac128_length : ∀ k m n, (P.umac128 k m n).length=16

/- The laws can be met: block ciphers that mask with a counter, other ciphers that change nothing, tags of
   zeros and a compressor that prepends a marker. -/
def nullMask (n : UInt8) : Bytes → Bytes
  | [] => []
  | b::bs => (b ^^^ n)::nullMask (n+1) bs

def nullBlockSize (s : Bool × UInt8) : Nat := if s.1 then 8 else 16

def nullBlocks (s : Bool × UInt8) (b : Bytes) : Option (Bytes × Bool × UInt8) :=
  if b.length%nullBlockSize s=0 then some (nullMask s.2 b,s.1,s.2+UInt8.ofNat b.length) else none

def Primitives.null : Primitives where
  Ctr := Unit
  Cbc := Bool × UInt8
  Deflate := Unit
  Inflate := Unit
  ctrNew := fun _ _ => ()
  ctrApplyKeystream := fun s b => (b,s)
  aesCbcNew := fun _ iv => (false,iv.foldl (·+·) 0)
  tdesCbcNew := fun _ iv => (true,iv.foldl (·+·) 0)
  cbcBlockSize := nullBlockSize
  cbcEncrypt := nullBlocks
  cbcDecrypt := nullBlocks
  gcmEncrypt := fun _ _ _ b => (b,List.replicate 16 0)
  gcmDecrypt := fun _ _ _ b _ => some b
  chachaApplyKeystream := fun _ _ _ b => b
  chachaBlock := fun _ _ _ => List.replicate 64 0
  poly1305 := fun _ _ => List.replicate 16 0
  hmac := fun d _ _ => List.replicate d.outputLen 0
  umac64 := fun _ _ _ => List.replicate 8 0
  umac128 := fun _ _ _ => List.replicate 16 0
  deflateNew := ()
  deflateStep := fun b s => (.ok (255::b),s)
  inflateNew := ()
  inflateStep := fun b s => match b with
    | 255::b => (.ok b,s)
    | _ => (.error (.format "zlib decompress failed"),s)

section Null
variable {n : UInt8} {a b : Bytes} {s : Bool × UInt8}

theorem length_nullMask : (nullMask n b).length=b.length := by
  induction b generalizing n with
  | nil => rfl
  | cons x b ih => rw [nullMask,List.length_cons,ih,List.length_cons]

theorem nullMask_nullMask : nullMask n (nullMask n b)=b := by
  induction b generalizing n with
  | nil => rfl
  | cons x b ih => rw [nullMask,nullMask,ih,UInt8.xor_assoc,UInt8.xor_self,UInt8.xor_zero]

theorem nullMask_append : nullMask n (a++b)=nullMask n a++nullMask (n+UInt8.ofNat a.length) b := by
  induction a generalizing n with
  | nil => exact congrArg (nullMask · b) (UInt8.add_zero n).symm
  | cons x a ih =>
    rw [List.cons_append,nullMask,nullMask,ih,List.length_cons,UInt8.ofNat_add,UInt8.add_assoc,
      UInt8.add_comm 1]
    rfl

theorem nullBlocks_of_dvd (h : nullBlockSize s ∣ b.length) :
    nullBlocks s b=some (nullMask s.2 b,s.1,s.2+UInt8.ofNat b.length) :=
  if_pos (Nat.mod_eq_zero_of_dvd h)

theorem nullBlocks_nullMask (h : nullBlockSize s ∣ b.length) :
    nullBlocks s (nullMask s.2 b)=some (b,s.1,s.2+UInt8.ofNat b.length) := by
  rw [nullBlocks_of_dvd (by rwa [length_nullMask]),nullMask_nullMask,length_nullMask]

theorem nullBlocks_append (ha : nullBlockSize s ∣ a.length) (hb : nullBlockSize s ∣ b.length) :
    nullBlocks s (a++b)=(nullBlocks s a).bind fun x =>
      (nullBlocks x.2 b).map fun y => (x.1++y.1,y.2) := by
  have hab : nullBlockSize s ∣ (a++b).length := by
    rw [List.length_append]
    exact Nat.dvd_add ha hb
  have hnext : nullBlocks (s.1,s.2+UInt8.ofNat a.length) b=_ := nullBlocks_of_dvd hb
  rw [nullBlocks_of_dvd ha,nullBlocks_of_dvd hab,Option.bind_some,hnext,Option.map_some,
    nullMask_append,List.length_append,UInt8.ofNat_add,UInt8.add_assoc]

end Null

theorem Primitives.null_lawful : null.Lawful where
  ctr_length := fun _ _ => rfl
  ctr_twice := fun _ _ => rfl
  ctr_append := fun _ _ _ => rfl
  cbc_blockSize := fun s => by
    change nullBlockSize s=8 ∨ nullBlockSize s=16
    obtain ⟨_ | _,_⟩ := s <;> simp [nullBlockSize]
  cbc_decrypt_encrypt := fun _ _ h => ⟨_,_,nullBlocks_of_dvd h,nullBlocks_nullMask h⟩
  cbc_decrypt_length := fun s c b s' h => by
    change nullBlocks s c=some (b,s') at h
    unfold nullBlocks at h
    split at h
    · cases h
      exact ⟨length_nullMask,rfl⟩
    · cases h
  cbc_decrypt_append := fun _ _ _ ha hb => nullBlocks_append ha hb
  gcm_length := fun _ _ _ _ => ⟨rfl,List.length_replicate⟩
  gcm_decrypt_encrypt := fun _ _ _ _ => rfl
  chacha_length := fun _ _ _ _ => rfl
  chacha_twice := fun _ _ _ _ => rfl
  poly1305_length := fun _ _ => List.length_replicate
  hmac_length := fun _ _ _ => List.length_replicate
  umac64_length := fun _ _ _ => List.length_replicate
  umac128_length := fun _ _ _ => List.length_replicate

/- `CipherSpec`, with what the key derivation reads. -/
structure CipherSpec where
  name : Str
  keyLen : Nat
  ivLen : Nat
  blockSize : Nat
  aead : Bool
  deriving DecidableEq, Repr

def CipherSpec.all : List CipherSpec :=
  [⟨ascii "chacha20-poly1305@openssh.com",64,0,8,true⟩,
   ⟨ascii "aes256-gcm@openssh.com",32,12,16,true⟩,⟨ascii "aes128-gcm@openssh.com",16,12,16,true⟩,
   ⟨ascii "aes256-ctr",32,16,16,false⟩,⟨ascii "aes192-ctr",24,16,16,false⟩,
   ⟨ascii "aes128-ctr",16,16,16,false⟩,⟨ascii "aes128-cbc",16,16,16,false⟩,
   ⟨ascii "aes192-cbc",24,16,16,false⟩,⟨ascii "aes256-cbc",32,16,16,false⟩,
   ⟨ascii "3des-cbc",24,8,8,false⟩]

def CipherSpec.byName (name : Str) : Option CipherSpec := all.find? (·.name=name)

variable {P : Primitives}

/- The nonce of AES-GCM is four fixed bytes and a counter. -/
structure GcmState where
  key : Bytes
  fixed : Bytes
  invocation : UInt64
  deriving DecidableEq, Repr

namespace GcmState

def new (keyLen : Nat) (keyErr : String) (key iv : Bytes) : Result GcmState :=
  if key.length≠keyLen then .error (.format keyErr)
  else match iv with
    | [a,b,c,d,i,j,k,l,m,n,o,p] =>
      .ok { key, fixed := [a,b,c,d], invocation := ofBe64 i j k l m n o p }
    | _ => .error (.format "aes-gcm iv len")

def nonce (g : GcmState) : Bytes := g.fixed++be64 g.invocation

/- The counter never wraps. -/
def step : Proc Error GcmState Unit := do
  let g ← get
  if g.invocation.toNat+1<2^64 then set { g with invocation := g.invocation+1 }
  else fail (.crypto "aes-gcm invocation counter exhausted")

def «seal» (P : Primitives) (aad payload : Bytes) : Proc Error GcmState (Bytes × Bytes) := do
  let g ← get
  step
  return P.gcmEncrypt g.key g.nonce aad payload

def «open» (P : Primitives) (aad payload tag : Bytes) : Proc Error GcmState Bytes := do
  let g ← get
  if tag.length≠16 then fail (.format "aes-gcm tag len")
  else
    let plain ← okOr .badTag (P.gcmDecrypt g.key g.nonce aad payload tag)
    step
    return plain

end GcmState

/- `chacha20-poly1305@openssh.com`: one key for the payload, one for the length. -/
structure ChaChaPoly where
  payloadKey : Bytes
  lengthKey : Bytes
  deriving DecidableEq, Repr

namespace ChaChaPoly

def new (key : Bytes) : Result ChaChaPoly :=
  if key.length≠64 then .error (.format "chacha20-poly1305 key len")
  else .ok { payloadKey := key.take 32, lengthKey := key.drop 32 }

def nonce (seq : UInt64) : Bytes := [0,0,0,0]++be64 seq

def xorLength (P : Primitives) (c : ChaChaPoly) (seq : UInt64) (buf : Bytes) : Bytes :=
  P.chachaApplyKeystream c.lengthKey (nonce seq) 0 buf

/- Block 0 of the payload key is the one-time key of the tag. -/
def xorPayload (P : Primitives) (c : ChaChaPoly) (seq : UInt64) (buf : Bytes) : Bytes :=
  P.chachaApplyKeystream c.payloadKey (nonce seq) 1 buf

def tag (P : Primitives) (c : ChaChaPoly) (seq : UInt64) (encLen encPayload : Bytes) : Bytes :=
  P.poly1305 ((P.chachaBlock c.payloadKey (nonce seq) 0).take 32) (encLen++encPayload)

def verifyTag (P : Primitives) (c : ChaChaPoly) (seq : UInt64) (encLen encPayload tag : Bytes) :
    Result Unit :=
  if tag.length≠16 then .error (.format "chacha20-poly1305 tag len")
  else if c.tag P seq encLen encPayload=tag then .ok ()
  else .error .badTag

end ChaChaPoly

inductive SshCipher (P : Primitives) where
  | ctr (c : P.Ctr)
  | gcm (g : GcmState)
  | cbc (c : P.Cbc)
  | chachaPoly (c : ChaChaPoly)

namespace SshCipher

/- `AesCtr::new_128`, `new_192` and `new_256`. -/
def newCtr (keyLen : Nat) (keyErr : String) (key iv : Bytes) : Result (SshCipher P) :=
  if key.length≠keyLen then .error (.format keyErr)
  else if iv.length≠16 then .error (.format "aes-ctr iv len")
  else .ok (.ctr (P.ctrNew key iv))

/- The four arms of `CbcState::new`. -/
def newCbc (build : Bytes → Bytes → P.Cbc) (keyLen ivLen : Nat) (keyErr ivErr : String)
    (key iv : Bytes) : Result (SshCipher P) :=
  if key.length≠keyLen then .error (.format keyErr)
  else if iv.length≠ivLen then .error (.format ivErr)
  else .ok (.cbc (build key iv))

def new (name : Str) (key iv : Bytes) : Result (SshCipher P) :=
  if name=ascii "aes128-ctr" then newCtr 16 "aes128-ctr key len" key iv
  else if name=ascii "aes192-ctr" then newCtr 24 "aes192-ctr key len" key iv
  else if name=ascii "aes256-ctr" then newCtr 32 "aes256-ctr key len" key iv
  else if name=ascii "aes128-gcm@openssh.com" then do
    return .gcm (← GcmState.new 16 "aes128-gcm key len" key iv)
  else if name=ascii "aes256-gcm@openssh.com" then do
    return .gcm (← GcmState.new 32 "aes256-gcm key len" key iv)
  else if name=ascii "chacha20-poly1305@openssh.com" then do
    return .chachaPoly (← ChaChaPoly.new key)
  else if name=ascii "aes128-cbc" then
    newCbc P.aesCbcNew 16 16 "aes128-cbc key len" "aes-cbc iv len" key iv
  else if name=ascii "aes192-cbc" then
    newCbc P.aesCbcNew 24 16 "aes192-cbc key len" "aes-cbc iv len" key iv
  else if name=ascii "aes256-cbc" then
    newCbc P.aesCbcNew 32 16 "aes256-cbc key len" "aes-cbc iv len" key iv
  else if name=ascii "3des-cbc" then
    newCbc P.tdesCbcNew 24 8 "3des-cbc key len" "3des-cbc iv len" key iv
  else .error (.unsupported "cipher")

def isAead : SshCipher P → Bool
  | .ctr _ | .cbc _ => false
  | _ => true

def blockSize : SshCipher P → Nat
  | .cbc c => P.cbcBlockSize c
  | _ => 16

def stream (buf : Bytes) : Proc Error (SshCipher P) Bytes
  | .ctr c => (.ok (P.ctrApplyKeystream c buf).1,.ctr (P.ctrApplyKeystream c buf).2)
  | s => (.error (.unsupported "stream op on AEAD cipher"),s)

/- `CbcState::encrypt` and `CbcState::decrypt`. -/
def runCbc (f : P.Cbc → Bytes → Option (Bytes × P.Cbc)) (c : P.Cbc) (buf : Bytes) :
    Except Error Bytes × SshCipher P :=
  match f c buf with
  | some (out,c') => (.ok out,.cbc c')
  | none => (.error (.protocol "CBC input not block-aligned"),.cbc c)

def encryptBlocks (buf : Bytes) : Proc Error (SshCipher P) Bytes
  | .cbc c => runCbc P.cbcEncrypt c buf
  | s => stream buf s

def decryptBlocks (buf : Bytes) : Proc Error (SshCipher P) Bytes
  | .cbc c => runCbc P.cbcDecrypt c buf
  | s => stream buf s

def aeadSealLenAad (length payload : Bytes) : Proc Error (SshCipher P) (Bytes × Bytes)
  | .gcm g => ((GcmState.seal P length payload g).1,.gcm (GcmState.seal P length payload g).2)
  | s => (.error (.unsupported "GCM seal on non-GCM cipher"),s)

def aeadOpenLenAad (length payload tag : Bytes) : Proc Error (SshCipher P) Bytes
  | .gcm g =>
    ((GcmState.open P length payload tag g).1,.gcm (GcmState.open P length payload tag g).2)
  | s => (.error (.unsupported "GCM open on non-GCM cipher"),s)

/- The four operations that only `chacha20-poly1305@openssh.com` has. -/
def withChaCha {α : Type} (f : ChaChaPoly → Result α) : SshCipher P → Result α
  | .chachaPoly c => f c
  | _ => .error (.unsupported "chacha20-poly1305 op on other cipher")

def cpXorLength (c : SshCipher P) (seq : UInt64) (buf : Bytes) : Result Bytes :=
  c.withChaCha fun c => .ok (c.xorLength P seq buf)

def cpXorPayload (c : SshCipher P) (seq : UInt64) (buf : Bytes) : Result Bytes :=
  c.withChaCha fun c => .ok (c.xorPayload P seq buf)

def cpTag (c : SshCipher P) (seq : UInt64) (encLen encPayload : Bytes) : Result Bytes :=
  c.withChaCha fun c => .ok (c.tag P seq encLen encPayload)

def cpVerifyTag (c : SshCipher P) (seq : UInt64) (encLen encPayload tag : Bytes) : Result Unit :=
  c.withChaCha fun c => c.verifyTag P seq encLen encPayload tag

end SshCipher

def cipherByName (name : Str) (key iv : Bytes) : Option (Result (SshCipher P)) :=
  (CipherSpec.byName name).map fun _ => SshCipher.new name key iv

structure MacSpec where
  name : Str
  keyLen : Nat
  tagLen : Nat
  etm : Bool
  deriving DecidableEq, Repr

def MacSpec.all : List MacSpec :=
  [⟨ascii "umac-64-etm@openssh.com",16,8,true⟩,⟨ascii "umac-128-etm@openssh.com",16,16,true⟩,
   ⟨ascii "hmac-sha2-256-etm@openssh.com",32,32,true⟩,
   ⟨ascii "hmac-sha2-512-etm@openssh.com",64,64,true⟩,
   ⟨ascii "hmac-sha1-etm@openssh.com",20,20,true⟩,⟨ascii "umac-64@openssh.com",16,8,false⟩,
   ⟨ascii "umac-128@openssh.com",16,16,false⟩,⟨ascii "hmac-sha2-256",32,32,false⟩,
   ⟨ascii "hmac-sha2-512",64,64,false⟩,⟨ascii "hmac-sha1",20,20,false⟩,
   ⟨ascii "hmac-sha1-96-etm@openssh.com",20,12,true⟩,⟨ascii "hmac-md5-etm@openssh.com",16,16,true⟩,
   ⟨ascii "hmac-md5-96-etm@openssh.com",16,12,true⟩,⟨ascii "hmac-sha1-96",20,12,false⟩,
   ⟨ascii "hmac-md5",16,16,false⟩,⟨ascii "hmac-md5-96",16,12,false⟩]

def MacSpec.byName (name : Str) : Option MacSpec := all.find? (·.name=name)

/- A keyed MAC. A truncated tag is never longer than the digest. -/
inductive SshMac where
  | hmac (digest : Digest) (key : Bytes) (tagLen : Nat) (etm : Bool)
      (h : tagLen≤digest.outputLen)
  | umac64 (key : Bytes) (etm : Bool)
  | umac128 (key : Bytes) (etm : Bool)
  deriving DecidableEq

namespace SshMac

def tagLen : SshMac → Nat
  | .hmac _ _ tagLen _ _ => tagLen
  | .umac64 .. => 8
  | .umac128 .. => 16

def etm : SshMac → Bool
  | .hmac _ _ _ etm _ | .umac64 _ etm | .umac128 _ etm => etm

/- HMAC covers the sequence number; UMAC takes it as the nonce. -/
def compute (P : Primitives) (seq : UInt32) (msg : Bytes) : SshMac → Bytes
  | .hmac digest key tagLen _ _ => (P.hmac digest key (be32 seq++msg)).take tagLen
  | .umac64 key _ => P.umac64 key msg (be64 seq.toUInt64)
  | .umac128 key _ => P.umac128 key msg (be64 seq.toUInt64)

def verify (P : Primitives) (seq : UInt32) (msg tag : Bytes) (m : SshMac) : Result Unit :=
  if m.compute P seq msg=tag then .ok () else .error .badMac

end SshMac

/- `strip_suffix("-etm@openssh.com").unwrap_or(name)` -/
def macBase (name : Str) : Str :=
  let suffix := ascii "-etm@openssh.com"
  if suffix <:+ name then name.take (name.length-suffix.length) else name

def hmacByName (digest : Digest) (key : Bytes) (spec : MacSpec) : Option SshMac :=
  if h : spec.tagLen≤digest.outputLen then some (.hmac digest key spec.tagLen spec.etm h)
  else none

def macByName (name : Str) (key : Bytes) : Option SshMac := do
  let spec ← MacSpec.byName name
  if key.length≠spec.keyLen then none
  else
    let base := macBase name
    if base=ascii "hmac-sha2-256" then hmacByName .sha256 key spec
    else if base=ascii "hmac-sha2-512" then hmacByName .sha512 key spec
    else if base=ascii "hmac-sha1" ∨ base=ascii "hmac-sha1-96" then hmacByName .sha1 key spec
    else if base=ascii "hmac-md5" ∨ base=ascii "hmac-md5-96" then hmacByName .md5 key spec
    else if base=ascii "umac-64" ∨ base=ascii "umac-64@openssh.com" then
      some (.umac64 key spec.etm)
    else if base=ascii "umac-128" ∨ base=ascii "umac-128@openssh.com" then
      some (.umac128 key spec.etm)
    else none

/- The tag lengths of the catalogue all fit. -/
example : ∀ spec∈MacSpec.all,
    (macByName spec.name (List.replicate spec.keyLen 0)).isSome=true := by decide +kernel

/- A compression channel of one direction. The delayed variant passes data through until it is
   activated. -/
inductive Compress (P : Primitives) where
  | none
  | zlib (inner : P.Deflate)
  | zlibOpenSsh (inner : Option P.Deflate)

inductive Decompress (P : Primitives) where
  | none
  | zlib (inner : P.Inflate)
  | zlibOpenSsh (inner : Option P.Inflate)

namespace Compress

def name : Compress P → Str
  | .none => ascii "none"
  | .zlib _ => ascii "zlib"
  | .zlibOpenSsh _ => ascii "zlib@openssh.com"

def compress (input : Bytes) : Proc Error (Compress P) Bytes
  | .zlib d => ((P.deflateStep input d).1,.zlib (P.deflateStep input d).2)
  | .zlibOpenSsh (some d) =>
    ((P.deflateStep input d).1,.zlibOpenSsh (some (P.deflateStep input d).2))
  | c => (.ok input,c)

def active : Compress P → Bool
  | .zlibOpenSsh inner => inner.isSome
  | _ => true

def activate : Compress P → Compress P
  | .zlibOpenSsh Option.none => .zlibOpenSsh (some P.deflateNew)
  | c => c

/- `active() && name() != "none"`: what `encode` compresses. -/
def compressing (c : Compress P) : Bool := c.active && c.name != ascii "none"

def byName (name : Str) : Option (Compress P) :=
  if name=ascii "none" then some .none
  else if name=ascii "zlib" then some (.zlib P.deflateNew)
  else if name=ascii "zlib@openssh.com" then some (.zlibOpenSsh Option.none)
  else Option.none

end Compress

namespace Decompress

def name : Decompress P → Str
  | .none => ascii "none"
  | .zlib _ => ascii "zlib"
  | .zlibOpenSsh _ => ascii "zlib@openssh.com"

def decompress (input : Bytes) : Proc Error (Decompress P) Bytes
  | .zlib d => ((P.inflateStep input d).1,.zlib (P.inflateStep input d).2)
  | .zlibOpenSsh (some d) =>
    ((P.inflateStep input d).1,.zlibOpenSsh (some (P.inflateStep input d).2))
  | c => (.ok input,c)

def active : Decompress P → Bool
  | .zlibOpenSsh inner => inner.isSome
  | _ => true

def activate : Decompress P → Decompress P
  | .zlibOpenSsh Option.none => .zlibOpenSsh (some P.inflateNew)
  | c => c

def decompressing (c : Decompress P) : Bool := c.active && c.name != ascii "none"

def byName (name : Str) : Option (Decompress P) :=
  if name=ascii "none" then some .none
  else if name=ascii "zlib" then some (.zlib P.inflateNew)
  else if name=ascii "zlib@openssh.com" then some (.zlibOpenSsh Option.none)
  else Option.none

end Decompress
end PureSsh.Transport
