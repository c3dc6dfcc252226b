import PureSsh.Lib.Framing
import PureSsh.Transport.Cipher

/-! The binary packet protocol (`hazmat/transport/packet.rs`). -/

namespace PureSsh.Transport
open Lib Proc
variable {P : Primitives}

/- The random source, as the bytes it will still produce. -/
abbrev Rng := Nat → UInt8

def Rng.fillBytes (n : Nat) : Proc Error Rng Bytes :=
  fun rng => (.ok ((List.range n).map rng),fun i => rng (n+i))

def blockSizeDefault : Nat := 8
def maxPacketLen : UInt32 := 256*1024
def minTotalLen : Nat := 16
def maxEncodablePayload : Nat := maxPacketLen.toNat-256

def payloadWithinLimit (payloadLen : Nat) : Bool := payloadLen< maxEncodablePayload

/- `while unit + pad < MIN_TOTAL_LEN { pad += bs }`; every turn adds at least one byte. -/
def growPadding (unit bs : Nat) : Nat → Nat → Nat
  | 0, pad => pad
  | fuel+1, pad => if unit+pad< minTotalLen then growPadding unit bs fuel (pad+bs) else pad

def paddingFor (payloadLen blockSize : Nat) (encryptsLength : Bool) : Nat :=
  let bs := max blockSize 8
  let unit := if encryptsLength then 4+1+payloadLen else 1+payloadLen
  let pad := bs-unit%bs
  let pad := if pad<4 then pad+bs else pad
  if encryptsLength then growPadding (4+1+payloadLen) bs minTotalLen pad else pad

/- Length field, padding length, payload and random padding. -/
def plainFrame (payload : Bytes) (pad : Nat) : Proc Error Rng Bytes := do
  let padding ← Rng.fillBytes pad
  return be32 (UInt32.ofNat (1+payload.length+pad)) ++
    UInt8.ofNat pad::(payload++padding)

namespace Checked

def byteAt (b : Bytes) (i : Nat) : Result UInt8 :=
  match b[i]? with
  | some x => .ok x
  | none => .error (.panic "index out of bounds")

/- `&b[lo..hi]` -/
def slice (b : Bytes) (lo hi : Nat) : Result Bytes :=
  if lo≤hi ∧ hi≤b.length then .ok ((b.take hi).drop lo)
  else .error (.panic "range out of bounds")

def sub (a b : Nat) : Result Nat :=
  if b≤a then .ok (a-b) else .error (.panic "attempt to subtract with overflow")

/- `packet_length + 4` is a `u32`. -/
def add32 (a b : UInt32) : Result UInt32 :=
  if a.toNat+b.toNat<2^32 then .ok (a+b)
  else .error (.panic "attempt to add with overflow")

end Checked
open Checked

/- `u32::from_be_bytes([b[0], b[1], b[2], b[3]])` -/
def lengthField (b : Bytes) : Result UInt32 := do
  let b0 ← byteAt b 0
  let b1 ← byteAt b 1
  let b2 ← byteAt b 2
  let b3 ← byteAt b 3
  return ofBe32 b0 b1 b2 b3

/- The payload of `plain`, whose padding length stands at `pos`. -/
def payloadAt (plain : Bytes) (pos : Nat) : Result Bytes := do
  let pad ← byteAt plain pos
  let padLen := pad.toNat
  if ¬(4≤padLen ∧ padLen≤255) then .error .badPadding
  else if pos+1+padLen>plain.length then .error .badPadding
  else
    let stop ← sub plain.length padLen
    slice plain (pos+1) stop

def encodeCleartext (payload : Bytes) : Proc Error Rng Bytes :=
  if !payloadWithinLimit payload.length then
    fail (.protocol "payload exceeds encoder limit")
  else
    let pad := paddingFor payload.length blockSizeDefault true
    if 1+payload.length+pad+4< minTotalLen then fail (.protocol "packet too short")
    else plainFrame payload pad

/- The payload of a complete frame of `packetLength` bytes behind its length field. -/
def cleartextPayload (buf : Bytes) (packetLength : Nat) : Result Bytes := do
  let pad ← byteAt buf 4
  let padLen := pad.toNat
  if ¬(4≤padLen ∧ padLen≤255) then .error .badPadding
  else if padLen+1>packetLength then .error .badPadding
  else
    let payloadEnd ← sub (4+packetLength) padLen
    if payloadEnd<5 then .error .badPadding else slice buf 5 payloadEnd

def decodeCleartext (buf : Bytes) : Result (Option (Bytes × Nat)) :=
  if buf.length<5 then .ok none
  else do
    let packetLength ← lengthField buf
    if packetLength>maxPacketLen then .error (.protocol "packet length exceeds limit")
    else
      let total := 4+packetLength.toNat
      if total< minTotalLen then .error (.protocol "packet too short")
      else
        let withField ← add32 packetLength 4
        if withField.toNat%blockSizeDefault≠0 then
          .error (.protocol "packet length not block-aligned")
        else if buf.length<total then .ok none
        else
          let payload ← cleartextPayload buf packetLength.toNat
          return some (payload,total)

/- Encrypt-then-MAC leaves the length in the clear; otherwise the tag covers the plaintext. -/
def encodeStream (seq : UInt32) (payload : Bytes) (mac : SshMac) :
    Proc Error (SshCipher P × Rng) Bytes := do
  if !payloadWithinLimit payload.length then
    fail (.protocol "payload exceeds encoder limit")
  else
    let (cipher,_) ← get
    let pad := paddingFor payload.length cipher.blockSize (!mac.etm)
    if !mac.etm && 1+payload.length+pad+4< minTotalLen then
      fail (.protocol "packet too short")
    else
      let frame ← onSnd (plainFrame payload pad)
      if mac.etm then
        let body ← onFst (SshCipher.encryptBlocks (frame.drop 4))
        let frame := frame.take 4++body
        return frame++mac.compute P seq frame
      else
        let tag := mac.compute P seq frame
        let frame ← onFst (SshCipher.encryptBlocks frame)
        return frame++tag

def decodeStreamEtm (seq : UInt32) (buf : Bytes) (mac : SshMac) :
    Proc Error (SshCipher P) (Option (Bytes × Nat)) := do
  let cipher ← get
  if buf.length<4 then return none
  else
    let packetLength ← lift (lengthField buf)
    if packetLength>maxPacketLen then fail (.protocol "packet length exceeds limit")
    else
      let bodyLen := packetLength.toNat
      let total := 4+bodyLen+mac.tagLen
      if bodyLen%cipher.blockSize≠0 then fail (.protocol "packet body not block-aligned")
      else if bodyLen<cipher.blockSize then fail (.protocol "packet too short")
      else if buf.length<total then return none
      else
        let macInput ← lift (slice buf 0 (4+bodyLen))
        let tag ← lift (slice buf (4+bodyLen) total)
        lift (mac.verify P seq macInput tag)
        let body ← lift (slice buf 4 (4+bodyLen))
        let body ← SshCipher.decryptBlocks body
        let payload ← lift (payloadAt body 0)
        return some (payload,total)

/- The decrypted length of an encrypt-and-MAC packet. -/
def lengthErr (packetLength : UInt32) (blockSize : Nat) : Option String :=
  if packetLength>maxPacketLen then some "packet length exceeds limit"
  else if (4+packetLength.toNat)%blockSize≠0 then some "packet not block-aligned"
  else if 4+packetLength.toNat< minTotalLen then some "packet too short"
  else none

def SshCipher.isCbc : SshCipher P → Bool
  | .cbc _ => true
  | _ => false

/- The blocks after the first one, if there are any. -/
def decryptRest (buf : Bytes) (blockSize stop : Nat) :
    Proc Error (SshCipher P × Option Bytes) Bytes :=
  if stop>blockSize then do
    let rest ← lift (slice buf blockSize stop)
    onFst (SshCipher.decryptBlocks rest)
  else pure []

/- The first block is decrypted once and kept while the packet is incomplete. A CBC cipher
   also keeps reading on a bad length, up to a full packet. -/
def decodeAfterFirst (seq : UInt32) (buf : Bytes) (mac : SshMac) (blockSize : Nat) (isCbc : Bool)
    (firstBlock : Bytes) : Proc Error (SshCipher P × Option Bytes) (Option (Bytes × Nat)) := do
  let packetLength ← lift (lengthField firstBlock)
  let bodyLen := packetLength.toNat
  match lengthErr packetLength blockSize with
  | some msg =>
    if isCbc then
      if buf.length< maxPacketLen.toNat then
        onSnd (set (some firstBlock))
        return none
      else fail .badMac
    else fail (.protocol msg)
  | none =>
    let total := 4+bodyLen+mac.tagLen
    if buf.length<total then
      onSnd (set (some firstBlock))
      return none
    else
      let rest ← decryptRest buf blockSize (4+bodyLen)
      let plain := firstBlock++rest
      let tag ← lift (slice buf (4+bodyLen) total)
      lift (mac.verify P seq plain tag)
      let payload ← lift (payloadAt plain 4)
      return some (payload,total)

def decodeStreamEam (seq : UInt32) (buf : Bytes) (mac : SshMac) :
    Proc Error (SshCipher P × Option Bytes) (Option (Bytes × Nat)) := do
  let (cipher,pending) ← get
  let blockSize := cipher.blockSize
  if buf.length<blockSize then return none
  else
    onSnd (set none)
    let firstBlock ← match pending with
      | some b => pure b
      | none => do
        let b ← lift (slice buf 0 blockSize)
        onFst (SshCipher.decryptBlocks b)
    decodeAfterFirst seq buf mac blockSize cipher.isCbc firstBlock

def decodeStream (seq : UInt32) (buf : Bytes) (mac : SshMac) :
    Proc Error (SshCipher P × Option Bytes) (Option (Bytes × Nat)) :=
  if mac.etm then onFst (decodeStreamEtm seq buf mac) else decodeStreamEam seq buf mac

def encodeGcm (payload : Bytes) : Proc Error (SshCipher P × Rng) Bytes := do
  if !payloadWithinLimit payload.length then
    fail (.protocol "payload exceeds encoder limit")
  else
    let frame ← onSnd (plainFrame payload (paddingFor payload.length 16 false))
    let (body,tag) ← onFst (SshCipher.aeadSealLenAad (frame.take 4) (frame.drop 4))
    return frame.take 4++body++tag

def decodeGcm (buf : Bytes) : Proc Error (SshCipher P) (Option (Bytes × Nat)) := do
  if buf.length<4 then return none
  else
    let packetLength ← lift (lengthField buf)
    if packetLength>maxPacketLen then fail (.protocol "packet length exceeds limit")
    else
      let bodyLen := packetLength.toNat
      let total := 4+bodyLen+16
      if bodyLen%16≠0 then fail (.protocol "packet body not block-aligned")
      else if bodyLen<16 then fail (.protocol "packet too short")
      else if buf.length<total then return none
      else
        let lengthField ← lift (slice buf 0 4)
        let body ← lift (slice buf 4 (4+bodyLen))
        let tag ← lift (slice buf (4+bodyLen) total)
        let body ← SshCipher.aeadOpenLenAad lengthField body tag
        let payload ← lift (payloadAt body 0)
        return some (payload,total)

def encodeChachapoly (seq : UInt32) (payload : Bytes) (cipher : SshCipher P) :
    Proc Error Rng Bytes := do
  if !payloadWithinLimit payload.length then
    fail (.protocol "payload exceeds encoder limit")
  else
    let frame ← plainFrame payload (paddingFor payload.length 8 false)
    let encLen ← lift (cipher.cpXorLength seq.toUInt64 (frame.take 4))
    let encPayload ← lift (cipher.cpXorPayload seq.toUInt64 (frame.drop 4))
    let tag ← lift (cipher.cpTag seq.toUInt64 encLen encPayload)
    return encLen++encPayload++tag

def decodeChachapoly (seq : UInt32) (buf : Bytes) (cipher : SshCipher P) :
    Result (Option (Bytes × Nat)) := do
  if buf.length<4 then return none
  else
    let encLen ← slice buf 0 4
    let encLen ← cipher.cpXorLength seq.toUInt64 encLen
    let packetLength ← lengthField encLen
    if packetLength>maxPacketLen then .error (.protocol "packet length exceeds limit")
    else
      let bodyLen := packetLength.toNat
      let total := 4+bodyLen+16
      if bodyLen%8≠0 then .error (.protocol "packet body not block-aligned")
      else if bodyLen<8 then .error (.protocol "packet too short")
      else if buf.length<total then return none
      else
        let encLenWire ← slice buf 0 4
        let encPayload ← slice buf 4 (4+bodyLen)
        let tag ← slice buf (4+bodyLen) total
        cipher.cpVerifyTag seq.toUInt64 encLenWire encPayload tag
        let body ← cipher.cpXorPayload seq.toUInt64 encPayload
        let payload ← payloadAt body 0
        return some (payload,total)

inductive CipherSlot (P : Primitives) where
  | none
  | stream (cipher : SshCipher P) (mac : SshMac)
  | gcm (cipher : SshCipher P)
  | chachaPoly (cipher : SshCipher P)

def classify (cipher : SshCipher P) (mac : Option SshMac) : Result (CipherSlot P) :=
  match cipher with
  | .ctr _ | .cbc _ => match mac with
    | some mac => .ok (.stream cipher mac)
    | none => .error (.protocol "MAC required for non-AEAD cipher")
  | .gcm _ => .ok (.gcm cipher)
  | .chachaPoly _ => .ok (.chachaPoly cipher)

/- The byte counters are saturating 64-bit numbers. -/
structure PacketCodec (P : Primitives) where
  seqIn : UInt32
  seqOut : UInt32
  bytesOut : Nat
  bytesIn : Nat
  seqInBase : UInt32
  seqOutBase : UInt32
  outbound : CipherSlot P
  inbound : CipherSlot P
  pendingFirstBlock : Option Bytes
  outboundCompress : Compress P
  inboundDecompress : Decompress P

/- `u64::saturating_add` -/
def addBytes (total n : Nat) : Nat := min (total+n) (2^64-1)

namespace PacketCodec

def new : PacketCodec P where
  seqIn := 0
  seqOut := 0
  bytesOut := 0
  bytesIn := 0
  seqInBase := 0
  seqOutBase := 0
  outbound := .none
  inbound := .none
  pendingFirstBlock := none
  outboundCompress := .none
  inboundDecompress := .none

def installOutbound (cipher : SshCipher P) (mac : Option SshMac) :
    Proc Error (PacketCodec P) Unit := do
  let slot ← lift (classify cipher mac)
  modify fun c => { c with outbound := slot }

def installInbound (cipher : SshCipher P) (mac : Option SshMac) :
    Proc Error (PacketCodec P) Unit := do
  let slot ← lift (classify cipher mac)
  modify fun c => { c with inbound := slot, pendingFirstBlock := none }

def resetRekeyEpoch (c : PacketCodec P) : PacketCodec P :=
  { c with bytesIn := 0, bytesOut := 0, seqInBase := c.seqIn, seqOutBase := c.seqOut }

def resetSequenceNumbers (c : PacketCodec P) : PacketCodec P := { c with seqIn := 0, seqOut := 0 }

/- The new stream starts afresh; only the delayed start carries over. -/
def installOutboundCompress (new : Compress P) (c : PacketCodec P) : PacketCodec P :=
  { c with outboundCompress := if c.outboundCompress.compressing then new.activate else new }

def installInboundDecompress (new : Decompress P) (c : PacketCodec P) : PacketCodec P :=
  { c with inboundDecompress := if c.inboundDecompress.decompressing then new.activate else new }

def activateCompress (c : PacketCodec P) : PacketCodec P :=
  { c with outboundCompress := c.outboundCompress.activate
           inboundDecompress := c.inboundDecompress.activate }

/- The payload as it goes into the frame. -/
def toFrame (payload : Bytes) : Proc Error (PacketCodec P) Bytes := do
  let c ← get
  if c.outboundCompress.compressing then
    zoom (·.outboundCompress) (fun x c => { c with outboundCompress := x })
      (Compress.compress payload)
  else return payload

def encodeFrame (payload : Bytes) : Proc Error (PacketCodec P × Rng) Bytes := do
  let (c,_) ← get
  match c.outbound with
  | .none => onSnd (encodeCleartext payload)
  | .stream cipher mac =>
    zoom (fun s => (cipher,s.2)) (fun x s => ({ s.1 with outbound := .stream x.1 mac },x.2))
      (encodeStream c.seqOut payload mac)
  | .gcm cipher =>
    zoom (fun s => (cipher,s.2)) (fun x s => ({ s.1 with outbound := .gcm x.1 },x.2))
      (encodeGcm payload)
  | .chachaPoly cipher => onSnd (encodeChachapoly c.seqOut payload cipher)

def encode (payload : Bytes) : Proc Error (PacketCodec P × Rng) Bytes := do
  let payload ← onFst (toFrame payload)
  let frame ← encodeFrame payload
  modify fun s =>
    ({ s.1 with seqOut := s.1.seqOut+1, bytesOut := addBytes s.1.bytesOut frame.length },s.2)
  return frame

def decodeFrame (buf : Bytes) : Proc Error (PacketCodec P) (Option (Bytes × Nat)) := do
  let c ← get
  match c.inbound with
  | .none => lift (decodeCleartext buf)
  | .stream cipher mac =>
    zoom (fun c => (cipher,c.pendingFirstBlock))
      (fun x c => { c with inbound := .stream x.1 mac, pendingFirstBlock := x.2 })
      (decodeStream c.seqIn buf mac)
  | .gcm cipher =>
    zoom (fun _ => cipher) (fun x c => { c with inbound := .gcm x }) (decodeGcm buf)
  | .chachaPoly cipher => lift (decodeChachapoly c.seqIn buf cipher)

def fromFrame (payload : Bytes) : Proc Error (PacketCodec P) Bytes := do
  let c ← get
  if c.inboundDecompress.decompressing then
    zoom (·.inboundDecompress) (fun x c => { c with inboundDecompress := x })
      (Decompress.decompress payload)
  else return payload

def decode (buf : Bytes) : Proc Error (PacketCodec P) (Option (Bytes × Nat)) := do
  match ← decodeFrame buf with
  | none => return none
  | some (payload,consumed) =>
    modify fun c =>
      { c with seqIn := c.seqIn+1, bytesIn := addBytes c.bytesIn consumed }
    let payload ← fromFrame payload
    return some (payload,consumed)

end PacketCodec
end PureSsh.Transport
