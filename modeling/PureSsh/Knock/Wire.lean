import PureSsh.Format

/-! The datagrams of the knock protocol (`knock/wire.rs`). -/

namespace PureSsh.Knocking
open Lib Reader Writer

def version : UInt8 := 1
def typeKnock : UInt8 := 1
def typeAccept : UInt8 := 2
def maxDatagram : Nat := 1232
def flagNeedHostkey : UInt8 := 1
def flagHostkeyFull : UInt8 := 1
def maxUserLen : Nat := 64

def nsKnockId : Str := ascii "knock-id@puressh"
def nsKnock : Str := ascii "knock@puressh"
def nsAccept : Str := ascii "knock-accept@puressh"
def tokenInfo : Str := ascii "puressh knock open v1"
def acceptHeadLen : Nat := 3+32+32+2+2

/- What the knock protocol calls elsewhere: hashes, host keys and X25519. `Coins` is the random
   input of a signature or of an ephemeral key. -/
structure Crypto where
  HostKey : Type
  Ephemeral : Type
  Coins : Type
  sha256 : Bytes → Bytes
  sha512 : Bytes → Bytes
  publicBlob : HostKey → Bytes
  sign : HostKey → Coins → Bytes → Result Bytes
  /-- `host_key_verify_by_name(name, blob)?.verify(message, signature)` -/
  verifyByName : Str → Bytes → Bytes → Bytes → Result Unit
  ephGenerate : Coins → Ephemeral
  ephPublic : Ephemeral → Bytes
  /-- fails on a point of small order -/
  diffieHellman : Ephemeral → Bytes → Option Bytes
  /-- salt, input key -/
  hkdfExtract : Bytes → Bytes → Bytes
  /-- pseudorandom key, info, length -/
  hkdfExpand : Bytes → Bytes → Nat → Bytes

variable (C : Crypto)

def keyFp (blob : Bytes) : Bytes := C.sha256 blob
def knockHash (datagram : Bytes) : Bytes := keyFp C datagram

def signedData (namespace_ : Str) (message : Bytes) : Bytes :=
  ascii "SSHSIG" ++ writeString namespace_++writeString []++writeString (ascii "sha512") ++
    writeString (C.sha512 message)

def knockIdMessage (user : Str) (fp : Bytes) : Bytes := UInt8.ofNat user.length::(user++fp)

def sign (signer : C.HostKey) (coins : C.Coins) (namespace_ : Str) (message : Bytes) :
    Result Bytes := C.sign signer coins (signedData C namespace_ message)

/- Which signature algorithms a key of this type may sign with. -/
def familyOk (keyAlg sigAlg : Str) : Bool :=
  if keyAlg=ascii "ssh-rsa" then
    sigAlg=ascii "rsa-sha2-256" || sigAlg=ascii "rsa-sha2-512"
  else if keyAlg=ascii "ssh-ed25519" ∨ keyAlg=ascii "ecdsa-sha2-nistp256" ∨
      keyAlg=ascii "ecdsa-sha2-nistp384" ∨ keyAlg=ascii "ecdsa-sha2-nistp521" then
    sigAlg=keyAlg
  else false

def verify (keyBlob : Bytes) (namespace_ : Str) (message sigBlob : Bytes) : Result Unit := do
  let (keyAlg,_) ← readString keyBlob
  let (sigAlg,_) ← readString sigBlob
  if !validUtf8 sigAlg then .error .badSignature
  else if !familyOk keyAlg sigAlg then .error .badSignature
  else C.verifyByName sigAlg keyBlob (signedData C namespace_ message) sigBlob

/-- Whether `verify` gets as far as the verifier of the key. -/
def reachesVerifier (keyBlob sigBlob : Bytes) : Bool :=
  match readString keyBlob,readString sigBlob with
  | .ok (keyAlg,_),.ok (sigAlg,_) => validUtf8 sigAlg && familyOk keyAlg sigAlg
  | _,_ => false

/- The significant bytes of an RSA modulus: `string alg ‖ mpint e ‖ mpint n`. -/
def rsaModulusLen (r : Bytes) : Option Nat := do
  let (_,r) ← (readString r).toOption
  let (n,_) ← (readString r).toOption
  return (n.dropWhile (· == 0)).length

def maxSigBlobLen (keyBlob : Bytes) : Option Nat := do
  let (alg,r) ← (readString keyBlob).toOption
  if alg=ascii "ssh-ed25519" then some (4+11+4+64)
  else if alg=ascii "ecdsa-sha2-nistp256" then some (4+19+4+2*(4+1+32))
  else if alg=ascii "ecdsa-sha2-nistp384" then some (4+19+4+2*(4+1+48))
  else if alg=ascii "ecdsa-sha2-nistp521" then some (4+19+4+2*(4+1+66))
  else if alg=ascii "ssh-rsa" then (rsaModulusLen r).map (4+12+4 + ·)
  else none

def acceptLenBound (hostKeyBlob : Bytes) (full : Bool) : Option Nat :=
  (maxSigBlobLen hostKeyBlob).map fun sig =>
    acceptHeadLen+(if full then 2+hostKeyBlob.length else 0)+2+sig

def be16 (v : UInt16) : Bytes := [UInt8.ofNat (v.toNat/2^8),UInt8.ofNat v.toNat]

def openToken (shared hash ephS : Bytes) (port : UInt16) : Bytes :=
  C.hkdfExpand (C.hkdfExtract hash shared) (tokenInfo++ephS++be16 port) 32

/- The length is cut to 16 bits. -/
def writeStr16 (s : Bytes) : Bytes := be16 (UInt16.ofNat s.length)++s

def readU16 (r : Bytes) : Result (Nat × Bytes) :=
  match r with
  | a::b::r => .ok (a.toNat*2^8+b.toNat,r)
  | _ => .error (.format "short read")

def readStr16 (r : Bytes) : Result (Bytes × Bytes) := do
  let (n,r) ← readU16 r
  take n r

def readU64 : Bytes → Result (UInt64 × Bytes)
  | a::b::c::d::e::f::g::h::r => .ok (ofBe64 a b c d e f g h,r)
  | _ => .error (.format "short read")

structure Knock where
  flags : UInt8
  user : Str
  keyFp : Bytes
  sig1 : Bytes
  nonce : UInt64
  ephC : Bytes
  hostFp : Bytes
  signed : Bytes
  sig2 : Bytes
  deriving DecidableEq, Repr

def zeros : Bytes := List.replicate 32 0

namespace Knock

def needHostkey (flags : UInt8) : Bool := flags &&& flagNeedHostkey != 0

/- Everything after the user name; `buf` is the whole datagram. -/
def parseTail (buf : Bytes) (flags : UInt8) (user : Str) (r : Bytes) : Result Knock := do
  let (keyFp,r) ← take 32 r
  let (sig1,r) ← readStr16 r
  let (nonce,r) ← readU64 r
  let (ephC,r) ← take 32 r
  let (hostFp,r) ← take 32 r
  if needHostkey flags ∧ hostFp≠zeros then
    .error (.format "knock: host_fp with NEED_HOSTKEY")
  else
    let (padding,r) ← readStr16 r
    if padding.any (· != 0) then .error (.format "knock: non-zero padding")
    else
      let signed := buf.take (buf.length-r.length)
      let (sig2,r) ← readStr16 r
      if !r.isEmpty then .error (.format "knock: trailing bytes")
      else return { flags, user, keyFp, sig1, nonce, ephC, hostFp, signed, sig2 }

def parse (buf : Bytes) : Result Knock :=
  if buf.length>maxDatagram then .error (.format "knock: datagram too large")
  else do
    let (v,r) ← readU8 buf
    if v≠version then .error (.format "knock: version/type")
    else
      let (t,r) ← readU8 r
      if t≠typeKnock then .error (.format "knock: version/type")
      else
        let (flags,r) ← readU8 r
        if flags &&& ~~~flagNeedHostkey≠0 then .error (.format "knock: unknown flags")
        else
          let (userLen,r) ← readU8 r
          if userLen.toNat=0 ∨ userLen.toNat>maxUserLen then
            .error (.format "knock: user length")
          else
            let (user,r) ← take userLen.toNat r
            if !validUtf8 user then .error (.format "knock: user not UTF-8")
            else if user.contains 0 then .error (.format "knock: NUL in user")
            else parseTail buf flags user r

end Knock

def buildAccept (hostKey : C.HostKey) (coins : C.Coins) (hash ephS : Bytes) (port window : UInt16)
    (fullHostkey : Bool) : Result Bytes := do
  let out := [version,typeAccept,if fullHostkey then flagHostkeyFull else 0]++hash++ephS ++
    be16 port++be16 window++(if fullHostkey then writeStr16 (C.publicBlob hostKey) else [])
  let sig ← sign C hostKey coins nsAccept out
  return out++writeStr16 sig

end PureSsh.Knocking
