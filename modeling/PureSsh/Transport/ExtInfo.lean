import PureSsh.Transport.Packet

/-! Messages of the transport layer outside a key exchange (`hazmat/transport/ext_info.rs`,
`ping.rs`, `rekey.rs`). -/

namespace PureSsh.Transport
open Lib Reader Writer
variable {P : Primitives}

def msgExtInfo : UInt8 := 7

structure ExtInfo where
  serverSigAlgs : Option Str
  publickeyAlgorithmsInUse : Option Str
  raw : List (Str × Str)
  deriving DecidableEq, Repr

namespace ExtInfo

def new : ExtInfo := { serverSigAlgs := none, publickeyAlgorithmsInUse := none, raw := [] }

def setRaw (name value : Str) : List (Str × Str) → List (Str × Str)
  | [] => [(name,value)]
  | (n,v)::rest => if n=name then (n,value)::rest else (n,v)::setRaw name value rest

def withExtension (name value : Str) (e : ExtInfo) : ExtInfo :=
  { e with raw := setRaw name value e.raw }

def encode (e : ExtInfo) : Bytes :=
  msgExtInfo::(be32 (UInt32.ofNat e.raw.length) ++
    e.raw.flatMap fun p => writeString p.1++writeString p.2)

def record (name value : Str) (e : ExtInfo) : ExtInfo :=
  let e := if name=ascii "server-sig-algs" then { e with serverSigAlgs := some value }
    else if name=ascii "publickey-algorithms-in-use" then
      { e with publickeyAlgorithmsInUse := some value }
    else e
  { e with raw := e.raw++[(name,value)] }

/- Both strings are read before either is checked. -/
def readPairs : Nat → Bytes → ExtInfo → Result (ExtInfo × Bytes)
  | 0, r, e => .ok (e,r)
  | n+1, r, e => do
    let (name,r) ← readString r
    let (value,r) ← readString r
    if !validUtf8 name then .error (.format "EXT_INFO non-UTF8 name")
    else if !validUtf8 value then .error (.format "EXT_INFO non-UTF8 value")
    else readPairs n r (e.record name value)

def decode (payload : Bytes) : Result ExtInfo := do
  let (msg,r) ← readU8 payload
  if msg≠msgExtInfo then .error (.protocol "expected SSH_MSG_EXT_INFO")
  else
    let (n,r) ← readU32 r
    if n>1024 then .error (.format "EXT_INFO nr-extensions too large")
    else
      let (e,r) ← readPairs n.toNat r .new
      if !r.isEmpty then .error (.format "EXT_INFO trailing bytes") else return e

end ExtInfo

/- The messages of a key exchange. -/
def isKexMsg (b : UInt8) : Bool := b==20 || b==21 || (30≤b && b≤49)

/- Durations and instants are counted in one unit. -/
structure RekeyPolicy where
  maxBytes : Nat
  maxDuration : Nat
  maxSeq : UInt32
  deriving DecidableEq, Repr

namespace RekeyPolicy

def default : RekeyPolicy :=
  { maxBytes := 2^30, maxDuration := 60*60, maxSeq := 0x80000000 }

def bytesExceeded (p : RekeyPolicy) (codec : PacketCodec P) : Bool :=
  p.maxBytes≤codec.bytesIn || p.maxBytes≤codec.bytesOut

/- Counted from the base of the epoch, modulo 2³². -/
def seqExceeded (p : RekeyPolicy) (codec : PacketCodec P) : Bool :=
  p.maxSeq≤codec.seqIn-codec.seqInBase || p.maxSeq≤codec.seqOut-codec.seqOutBase

end RekeyPolicy
end PureSsh.Transport
