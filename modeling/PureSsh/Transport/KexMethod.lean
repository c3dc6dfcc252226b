import PureSsh.Transport.ExtInfo
import PureSsh.Transport.KexInit

/-! Key exchange methods as the runner sees them: the catalogue of back ends, group exchange
requests and the derivation of keys (`hazmat/transport/runner.rs`, `hazmat/kex`). -/

namespace PureSsh.Transport
open Lib Reader

inductive KexBackend where
  | curve25519 | ecdhP256 | ecdhP384 | ecdhP521 | dh14 | dh16 | dh18 | gex | dh1Sha1 | dh14Sha1
  | gexSha1 | mlKem768X25519 | mlKem768Nistp256 | sntrup761X25519
  deriving DecidableEq, Repr

inductive KexHash where
  | sha1 | sha256 | sha384 | sha512
  deriving DecidableEq, Repr

namespace KexBackend

def names : List (Str × KexBackend) :=
  [(ascii "curve25519-sha256",.curve25519),(ascii "curve25519-sha256@libssh.org",.curve25519),
   (ascii "ecdh-sha2-nistp256",.ecdhP256),(ascii "ecdh-sha2-nistp384",.ecdhP384),
   (ascii "ecdh-sha2-nistp521",.ecdhP521),(ascii "diffie-hellman-group14-sha256",.dh14),
   (ascii "diffie-hellman-group16-sha512",.dh16),(ascii "diffie-hellman-group18-sha512",.dh18),
   (ascii "diffie-hellman-group-exchange-sha256",.gex),
   (ascii "diffie-hellman-group1-sha1",.dh1Sha1),(ascii "diffie-hellman-group14-sha1",.dh14Sha1),
   (ascii "diffie-hellman-group-exchange-sha1",.gexSha1),
   (ascii "mlkem768x25519-sha256",.mlKem768X25519),
   (ascii "mlkem768nistp256-sha256",.mlKem768Nistp256),
   (ascii "sntrup761x25519-sha512",.sntrup761X25519),
   (ascii "sntrup761x25519-sha512@openssh.com",.sntrup761X25519)]

def fromName (name : Str) : Result KexBackend :=
  match names.lookup name with
  | some backend => .ok backend
  | none => .error (.unsupported "KEX algorithm")

def isGex : KexBackend → Bool
  | gex | gexSha1 => true
  | _ => false

/- The hash of the key derivation. -/
def hash : KexBackend → KexHash
  | curve25519 | ecdhP256 | dh14 | gex | mlKem768X25519 | mlKem768Nistp256 => .sha256
  | ecdhP384 => .sha384
  | dh1Sha1 | dh14Sha1 | gexSha1 => .sha1
  | ecdhP521 | dh16 | dh18 | sntrup761X25519 => .sha512

end KexBackend

/- The version strings and both KEXINIT payloads. -/
structure KexContext where
  vC : Bytes
  vS : Bytes
  iC : Bytes
  iS : Bytes
  deriving DecidableEq, Repr

structure KexOutput where
  k : Bytes
  h : Bytes
  deriving DecidableEq, Repr

structure GexRequest where
  min : UInt32
  n : UInt32
  max : UInt32
  deriving DecidableEq, Repr

/- The mathematics of the key exchange methods, the host keys and the hashes. A message built
   by a method is given without its type byte; a message handed to a method is whole. -/
structure KexSuite where
  HostKey : Type
  HostKeyVerify : Type
  ClientState : Type
  GexClientState : Type
  DhGroup : Type
  hash : KexHash → Bytes → Bytes
  clientInit : KexBackend → Rng → (ClientState × Bytes) × Rng
  serverReply : KexBackend → Bytes → HostKey → KexContext → Proc Error Rng (Bytes × KexOutput)
  clientFinish : KexBackend → ClientState → Bytes → HostKeyVerify → KexContext → Result KexOutput
  group14 : DhGroup
  group16 : DhGroup
  group18 : DhGroup
  gexGroup : DhGroup → Bytes
  gexStart : GexRequest → GexClientState
  gexClientInit : GexClientState → Bytes → Proc Error Rng (GexClientState × Bytes)
  gexServerReply : KexBackend → GexRequest → DhGroup → Bytes → HostKey → KexContext →
    Proc Error Rng (Bytes × KexOutput)
  gexClientFinish : KexBackend → GexClientState → Bytes → HostKeyVerify → KexContext →
    Result KexOutput

def msgKexEcdhInit : UInt8 := 30
def msgKexEcdhReply : UInt8 := 31
def msgKexDhGexRequestOld : UInt8 := 30
def msgKexDhGexGroup : UInt8 := 31
def msgKexDhGexInit : UInt8 := 32
def msgKexDhGexReply : UInt8 := 33
def msgKexDhGexRequest : UInt8 := 34

/- The two ends of one method, fed with each other's messages in one context, arrive at the
   same secret and the same exchange hash. -/
structure KexSuite.Agrees (S : KexSuite) : Prop where
  method : ∀ (backend : KexBackend) (rng rng₁ rng₂ : Rng) (hk : S.HostKey) (v : S.HostKeyVerify)
    (ctx : KexContext) (reply : Bytes) (out out' : KexOutput),
    S.serverReply backend (msgKexEcdhInit::(S.clientInit backend rng).1.2) hk ctx rng₁ =
      (.ok (reply,out),rng₂) →
    S.clientFinish backend (S.clientInit backend rng).1.1 (msgKexEcdhReply::reply) v ctx =
      .ok out' → out'=out
  gex : ∀ (backend : KexBackend) (request : GexRequest) (group : S.DhGroup)
    (rng rng' rng₁ rng₂ : Rng) (state : S.GexClientState) (hk : S.HostKey)
    (v : S.HostKeyVerify) (ctx : KexContext) (init reply : Bytes) (out out' : KexOutput),
    S.gexClientInit (S.gexStart request) (msgKexDhGexGroup::S.gexGroup group) rng =
      (.ok (state,init),rng') →
    S.gexServerReply backend request group (msgKexDhGexInit::init) hk ctx rng₁ =
      (.ok (reply,out),rng₂) →
    S.gexClientFinish backend state (msgKexDhGexReply::reply) v ctx = .ok out' → out'=out

/- Methods that send nothing and hash the two KEXINITs by joining them. A group is the number of bytes
   of its prime. -/
def KexSuite.null : KexSuite where
  HostKey := Unit
  HostKeyVerify := Unit
  ClientState := Unit
  GexClientState := Unit
  DhGroup := Nat
  hash _ _ := List.replicate 64 0
  clientInit _ rng := (((),[]),rng)
  serverReply _ _ _ ctx := pure ([],{ k := [], h := ctx.iC++ctx.iS })
  clientFinish _ _ _ _ ctx := .ok { k := [], h := ctx.iC++ctx.iS }
  group14 := 256
  group16 := 512
  group18 := 1024
  gexGroup _ := []
  gexStart _ := ()
  gexClientInit _ _ := pure ((),[])
  gexServerReply _ _ _ _ _ ctx := pure ([],{ k := [], h := ctx.iC++ctx.iS })
  gexClientFinish _ _ _ _ ctx := .ok { k := [], h := ctx.iC++ctx.iS }

theorem KexSuite.null_agrees : KexSuite.null.Agrees where
  method := by
    rintro backend rng rng₁ rng₂ hk v ctx reply out out' h h'
    cases h
    cases h'
    rfl
  gex := by
    rintro backend request group rng rng' rng₁ rng₂ state hk v ctx init reply out out'-h h'
    cases h
    cases h'
    rfl

namespace GexRequest

def forStrength (needBytes : Nat) : GexRequest :=
  let bits := needBytes*8
  let n := if bits≤112 then 2048 else if bits≤128 then 3072
    else if bits≤192 then 7680 else 8192
  { min := 2048, n, max := 8192 }

def body (r : GexRequest) : Bytes := be32 r.min++be32 r.n++be32 r.max

/- The old form carries the preferred size only. Trailing bytes are not looked at. -/
def parse (payload : Bytes) : Result GexRequest := do
  let (msg,r) ← readU8 payload
  if msg=msgKexDhGexRequest then
    let (min,r) ← readU32 r
    let (n,r) ← readU32 r
    let (max,_) ← readU32 r
    return { min, n, max }
  else if msg=msgKexDhGexRequestOld then
    let (n,_) ← readU32 r
    return { min := n, n, max := n }
  else .error (.protocol "expected SSH_MSG_KEX_DH_GEX_REQUEST")

/-- The server reads the request that the client wrote. -/
theorem parse_body (r : GexRequest) : parse (msgKexDhGexRequest::r.body) = .ok r := by
  rw [parse,readU8_cons,except_ok_bind]
  dsimp only
  rw [if_pos rfl,body,List.append_assoc,readU32_be32,except_ok_bind]
  dsimp only
  rw [readU32_be32,except_ok_bind]
  dsimp only
  rw [readU32_be32_end]
  rfl

end GexRequest

variable {S : KexSuite}

def defaultGexGroup (req : GexRequest) : S.DhGroup :=
  if req.min>4096 then S.group18
  else if req.min>2048 then (if req.n>4096 then S.group18 else S.group16)
  else if req.n≤2048 && req.max≥2048 then S.group14
  else if req.n≤4096 && req.max≥4096 then S.group16
  else if req.max≥8192 then S.group18
  else if req.max≥4096 then S.group16
  else S.group14

/- The largest cipher, block, IV and MAC key length of the two directions; 3DES counts 14 of
   its 24 key bytes. -/
def cipherNeed (cipher : Str) : Nat :=
  match CipherSpec.byName cipher with
  | some c => max (max (if c.name=ascii "3des-cbc" then 14 else c.keyLen) c.blockSize) c.ivLen
  | none => 0

def macNeed (mac : Str) : Nat := ((MacSpec.byName mac).map (·.keyLen)).getD 0

def dhNeed (n : NegotiatedOwned) : Nat :=
  max (max (cipherNeed n.cipherC2s) (macNeed n.macC2s))
    (max (cipherNeed n.cipherS2c) (macNeed n.macS2c))

/- `while out.len() < out_len`; every turn adds a digest. -/
def deriveMore (hash : Bytes → Bytes) (k h : Bytes) (outLen : Nat) : Nat → Bytes → Bytes
  | 0, out => out
  | fuel+1, out =>
    if out.length<outLen then deriveMore hash k h outLen fuel (out++hash (k++h++out))
    else out

def derive (hash : Bytes → Bytes) (k h sessionId : Bytes) (letter : UInt8) (outLen : Nat) :
    Bytes :=
  if outLen=0 then []
  else
    (deriveMore hash k h outLen outLen (hash (k++h++[letter]++sessionId))).take outLen

end PureSsh.Transport
