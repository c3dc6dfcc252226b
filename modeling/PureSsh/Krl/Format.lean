import Mathlib.Data.List.Sort
import PureSsh.Format
import PureSsh.Lib.Text

/-! Key revocation lists and their binary format (`krl/mod.rs`). -/

namespace PureSsh.Revocation
open Lib Reader Writer

def krlMagic : UInt64 := 0x5353484b524c0a00
def krlFormatVersion : UInt32 := 1

def sectionCertificates : UInt8 := 1
def sectionExplicitKey : UInt8 := 2
def sectionFingerprintSha1 : UInt8 := 3
def sectionSignature : UInt8 := 4
def sectionFingerprintSha256 : UInt8 := 5
def sectionExtension : UInt8 := 255

def certSerialList : UInt8 := 0x20
def certSerialRange : UInt8 := 0x21
def certSerialBitmap : UInt8 := 0x22
def certKeyId : UInt8 := 0x23
def certExtension : UInt8 := 0x39

def maxBitmapBytes : Nat := 2^20

/-- Only the parser makes a bitmap, and it checks the length. -/
abbrev Bitmap := { bits : Bytes // bits.length≤ maxBitmapBytes }

/-- `[u8; n]` -/
abbrev Hash (n : Nat) := { h : Bytes // h.length=n }

/-- The two digests of a key blob. -/
structure Digests where
  sha1 : Bytes → Hash 20
  sha256 : Bytes → Hash 32

structure CaRevocation where
  caKeyBlob : Bytes
  serials : List UInt64
  serialRanges : List (UInt64 × UInt64)
  serialBitmaps : List (UInt64 × Bitmap)
  keyIds : List Text
  deriving DecidableEq, Repr

/- Bit `idx` counts from the last byte. -/
def bitIsSet (magnitude : Bytes) (idx : UInt64) : Bool :=
  let byteFromEnd := (idx/8).toNat
  if magnitude.length≤byteFromEnd then false
  else
    let byte := magnitude.getD (magnitude.length-1-byteFromEnd) 0
    (byte >>> (idx%8).toUInt8) &&& 1==1

namespace CaRevocation

def forCa (caKeyBlob : Bytes) : CaRevocation :=
  { caKeyBlob, serials := [], serialRanges := [], serialBitmaps := [], keyIds := [] }

def covers (rev : CaRevocation) (serial : UInt64) (keyId : Text) : Bool :=
  rev.serials.contains serial ||
  (rev.serialRanges.any fun (lo,hi) => lo≤ serial && serial≤hi) ||
  (rev.serialBitmaps.any fun (offset,bits) =>
    offset≤ serial && bitIsSet bits.1 (serial-offset)) ||
  (!keyId.isEmpty && rev.keyIds.contains keyId)

end CaRevocation

structure Krl where
  version : UInt64
  comment : Text
  certRevocations : List CaRevocation
  explicitKeys : List Bytes
  fpSha1 : List (Hash 20)
  fpSha256 : List (Hash 32)
  deriving DecidableEq, Repr

def checkExtension (body : Bytes) : Result Unit := do
  let (_,r) ← readString body
  let (critical,r) ← readBool r
  let _ ← readString r
  if critical then .error (.format "krl: unsupported critical extension") else return ()

def readKeyId (r : Bytes) : Result (Text × Bytes) := do
  let (id,r) ← readString r
  match Text.ofUtf8 id with
  | some s => return (s,r)
  | none => .error (.format "krl: non-utf8 key-id")

def readHash (n : Nat) (r : Bytes) : Result (Hash n × Bytes) := do
  let (h,r) ← readString r
  if hlen : h.length=n then return (⟨h,hlen⟩,r)
  else .error (.format "krl: bad fingerprint length")

def parseBlobList (body : Bytes) (out : List Bytes) : Result (List Bytes) :=
  readRun .hang readString out body

def parseHashList (n : Nat) (body : Bytes) (out : List (Hash n)) : Result (List (Hash n)) :=
  readRun .hang (readHash n) out body

/- One round of the loop of `parse_certificates`. -/
def parseSubsection (rev : CaRevocation) (subType : UInt8) (sub : Bytes) : Result CaRevocation :=
  if subType=certSerialList then do
    let serials ← readRun .hang readU64 rev.serials sub
    return { rev with serials }
  else if subType=certSerialRange then do
    let (lo,sr) ← readU64 sub
    let (hi,sr) ← readU64 sr
    if !sr.isEmpty then .error (.format "krl: trailing serial-range data")
    else return { rev with serialRanges := rev.serialRanges++[(lo,hi)] }
  else if subType=certSerialBitmap then do
    let (offset,sr) ← readU64 sub
    let (bits,sr) ← readString sr
    if hlen : bits.length≤ maxBitmapBytes then
      if !sr.isEmpty then .error (.format "krl: trailing serial-bitmap data")
      else return { rev with serialBitmaps := rev.serialBitmaps++[(offset,⟨bits,hlen⟩)] }
    else .error (.format "krl: serial bitmap too large")
  else if subType=certKeyId then do
    let keyIds ← readRun .hang readKeyId rev.keyIds sub
    return { rev with keyIds }
  else if subType=certExtension then do
    checkExtension sub
    return rev
  else .error (.format "krl: unsupported certificate section type")

/- A type byte and a body, for sections and their subsections. -/
def readSection {α : Type} (put : α → UInt8 → Bytes → Result α) (a : α) (r : Bytes) :
    Result (α × Bytes) :=
  readU8 r >>= fun sectionType => readString sectionType.2 >>= fun body =>
    (put a sectionType.1 body.1).map (·,body.2)

namespace Krl

def new : Krl :=
  { version := 0, comment := [], certRevocations := [], explicitKeys := [], fpSha1 := [],
    fpSha256 := [] }

def parseCertificates (krl : Krl) (body : Bytes) : Result Krl := do
  let (caKeyBlob,r) ← readString body
  let (_,r) ← readString r
  let rev ← readWhile .hang (readSection parseSubsection) (.forCa caKeyBlob) r
  return { krl with certRevocations := krl.certRevocations++[rev] }

/- One round of the loop of `parse`. -/
def parseSection (krl : Krl) (sectionType : UInt8) (body : Bytes) : Result Krl :=
  if sectionType=sectionCertificates then krl.parseCertificates body
  else if sectionType=sectionExplicitKey then do
    let explicitKeys ← parseBlobList body krl.explicitKeys
    return { krl with explicitKeys }
  else if sectionType=sectionFingerprintSha1 then do
    let fpSha1 ← parseHashList 20 body krl.fpSha1
    return { krl with fpSha1 }
  else if sectionType=sectionFingerprintSha256 then do
    let fpSha256 ← parseHashList 32 body krl.fpSha256
    return { krl with fpSha256 }
  else if sectionType=sectionSignature then return krl
  else if sectionType=sectionExtension then do
    checkExtension body
    return krl
  else .error (.format "krl: unsupported section type")

def parse (blob : Bytes) : Result Krl := do
  let (magic,r) ← readU64 blob
  if magic≠krlMagic then .error (.format "krl: bad magic")
  else
    let (formatVersion,r) ← readU32 r
    if formatVersion≠krlFormatVersion then .error (.format "krl: unsupported format version")
    else
      let (version,r) ← readU64 r
      let (_generatedDate,r) ← readU64 r
      let (_flags,r) ← readU64 r
      let (_reserved,r) ← readString r
      let (comment,r) ← readString r
      readWhile .hang (readSection parseSection)
        { new with version, comment := Text.ofUtf8Lossy comment } r

def isRevokedCert (krl : Krl) (caKeyBlob : Bytes) (serial : UInt64) (keyId : Text) : Bool :=
  krl.certRevocations.any fun rev =>
    (rev.caKeyBlob.isEmpty || rev.caKeyBlob==caKeyBlob) && rev.covers serial keyId

def isRevokedKey (D : Digests) (krl : Krl) (pubkeyBlob : Bytes) : Bool :=
  krl.explicitKeys.any (· == pubkeyBlob) ||
  (!krl.fpSha1.isEmpty && krl.fpSha1.any (· == D.sha1 pubkeyBlob)) ||
  (!krl.fpSha256.isEmpty && krl.fpSha256.any (· == D.sha256 pubkeyBlob))

/- Appends what is not in the list. -/
def pushNew {α : Type} [BEq α] (list : List α) (a : α) : List α :=
  if list.contains a then list else list++[a]

def revokeKey (krl : Krl) (blob : Bytes) : Krl :=
  { krl with explicitKeys := pushNew krl.explicitKeys blob }

def revokeSha1 (krl : Krl) (hash : Hash 20) : Krl :=
  { krl with fpSha1 := pushNew krl.fpSha1 hash }

def revokeSha256 (krl : Krl) (hash : Hash 32) : Krl :=
  { krl with fpSha256 := pushNew krl.fpSha256 hash }

def merge (krl other : Krl) : Krl :=
  let krl := { krl with certRevocations := krl.certRevocations++other.certRevocations }
  let krl := other.explicitKeys.foldl revokeKey krl
  let krl := other.fpSha1.foldl revokeSha1 krl
  other.fpSha256.foldl revokeSha256 krl

/- `ca_entry`: the first block of a certificate authority, made at the end if there is none. -/
def onCaEntry (caKeyBlob : Bytes) (f : CaRevocation → CaRevocation) :
    List CaRevocation → List CaRevocation
  | [] => [f (.forCa caKeyBlob)]
  | ca::rest => if ca.caKeyBlob=caKeyBlob then f ca::rest else ca::onCaEntry caKeyBlob f rest

/- The range that is looked for is the one before it is put in order. -/
def addSerials (lo hi : UInt64) (ca : CaRevocation) : CaRevocation :=
  if lo=hi then { ca with serials := pushNew ca.serials lo }
  else if ca.serialRanges.contains (lo,hi) then ca
  else { ca with serialRanges := ca.serialRanges++[(min lo hi,max lo hi)] }

def revokeCertSerials (krl : Krl) (caKeyBlob : Bytes) (lo hi : UInt64) : Krl :=
  { krl with certRevocations := onCaEntry caKeyBlob (addSerials lo hi) krl.certRevocations }

def addKeyId (keyId : Text) (ca : CaRevocation) : CaRevocation :=
  { ca with keyIds := pushNew ca.keyIds keyId }

def revokeCertKeyId (krl : Krl) (caKeyBlob : Bytes) (keyId : Text) : Krl :=
  { krl with certRevocations := onCaEntry caKeyBlob (addKeyId keyId) krl.certRevocations }

theorem length_zeros20 : (List.replicate 20 (0 : UInt8)).length=20 := rfl
theorem length_zeros32 : (List.replicate 32 (0 : UInt8)).length=32 := rfl

def zeroDigests : Digests where
  sha1 _ := ⟨List.replicate 20 0,length_zeros20⟩
  sha256 _ := ⟨List.replicate 32 0,length_zeros32⟩

end Krl

def writeSection (s : UInt8 × Bytes) : Bytes := s.1::writeString s.2

/- `sort` and `sort_unstable` -/
def sortSerials (l : List UInt64) : List UInt64 := l.insertionSort (· ≤ ·)
def sortRanges (l : List (UInt64 × UInt64)) : List (UInt64 × UInt64) :=
  l.insertionSort fun a b => a.1<b.1 ∨ a.1=b.1 ∧ a.2≤b.2
def sortBlobs {α : Type} (blob : α → Bytes) (l : List α) : List α :=
  l.insertionSort fun a b => blob a≤blob b

namespace CaRevocation

def subsections (ca : CaRevocation) : List (UInt8 × Bytes) :=
  (if ca.serials.isEmpty then [] else [(certSerialList,(sortSerials ca.serials).flatMap be64)]) ++
  (sortRanges ca.serialRanges).map (fun (lo,hi) => (certSerialRange,be64 lo++be64 hi)) ++
  ca.serialBitmaps.map (fun (offset,bits) =>
    (certSerialBitmap,be64 offset++writeMpint bits.1)) ++
  (if ca.keyIds.isEmpty then []
    else [(certKeyId,(sortBlobs Text.bytes ca.keyIds).flatMap fun id => writeString id.bytes)])

def body (ca : CaRevocation) : Bytes :=
  writeString ca.caKeyBlob++writeString []++ca.subsections.flatMap writeSection

end CaRevocation

/- `write_blobs` -/
def blobSection {α : Type} (blob : α → Bytes) (sectionType : UInt8) (blobs : List α) :
    List (UInt8 × Bytes) :=
  if blobs.isEmpty then [] else [(sectionType,blobs.flatMap fun b => writeString (blob b))]

namespace Krl

def header (version generatedDate : UInt64) (comment : Text) : Bytes :=
  be64 krlMagic++be32 krlFormatVersion++be64 version++be64 generatedDate++be64 0 ++
    writeString []++writeString comment.bytes

def sections (krl : Krl) : List (UInt8 × Bytes) :=
  krl.certRevocations.map (fun ca => (sectionCertificates,ca.body)) ++
  blobSection id sectionExplicitKey (sortBlobs id krl.explicitKeys) ++
  blobSection (·.1) sectionFingerprintSha1 (sortBlobs (·.1) krl.fpSha1) ++
  blobSection (·.1) sectionFingerprintSha256 (sortBlobs (·.1) krl.fpSha256)

def toBytes (krl : Krl) (generatedDate : UInt64) : Bytes :=
  header krl.version generatedDate krl.comment++krl.sections.flatMap writeSection

end Krl
end PureSsh.Revocation
