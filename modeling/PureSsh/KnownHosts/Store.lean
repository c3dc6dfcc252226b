import PureSsh.KnownHosts.Format

/-! The store of known hosts (`known_hosts/store.rs`) and its hashed entries
(`known_hosts/hash.rs`). -/

namespace PureSsh.KnownHosts
open Lib

/-- HMAC-SHA1: a tag of 20 bytes for a salt and a message. -/
structure Mac where
  mac : Bytes → Bytes → Bytes
  length_mac : ∀ salt msg, (mac salt msg).length=20

def formatHost (host : Text) (port : UInt16) : Text :=
  if port=22 then host else '[' :: host ++ ']' :: ':' :: Text.decimal port

def hmac (M : Mac) (salt : Bytes) (host : Text) : Bytes := M.mac salt host.bytes

def encodeHashed (M : Mac) (salt : Bytes) (host : Text) : Text :=
  "|1|".toList++Base64.encode salt++['|']++Base64.encode (hmac M salt host)

/- The salt is the random part. -/
def hashNew (M : Mac) (salt : Bytes) (host : Text) (port : UInt16) : Text :=
  encodeHashed M salt (formatHost host port)

def parseHashed (token : Text) : Option (Bytes × Bytes) :=
  match token with
  | '|' :: '1' :: '|' :: rest => do
    let (saltB64,hashB64) ← Text.splitFirst '|' rest
    let salt ← (Base64.decode saltB64.bytes).toOption
    let hash ← (Base64.decode hashB64.bytes).toOption
    return (salt,hash)
  | _ => none

def checkHashed (M : Mac) (salt tag : Bytes) (host : Text) (port : UInt16) : Bool :=
  tag.length==20 && hmac M salt (formatHost host port)==tag

def hostFieldMatches (M : Mac) (spec : HostSpec) (host : Text) (port : UInt16) : Bool :=
  match spec with
  | .patterns pats => patternsMatch pats host port
  | .hashed token => match parseHashed token with
    | some (salt,hash) => checkHashed M salt hash host port
    | none => false

def splitHostPort (pat : Text) : Option (Text × UInt16) := parseHostPortPattern pat 22

inductive Slot where
  | verbatim (s : Text)
  /-- not UTF-8; an `@revoked` entry on the line still counts -/
  | raw (line : Bytes) (revoked : Option Entry)
  | entry (e : Entry)
  | removed
  deriving DecidableEq, Repr

structure Store where
  lines : List Slot

abbrev Key := Text × Bytes

def Entry.key (e : Entry) : Key := (e.keyType,e.keyBlob)

inductive LookupResult where
  | matched
  | mismatch (expected : List Key)
  | unknown
  | revoked
  deriving DecidableEq, Repr

namespace Store

def new : Store := { lines := [] }

/- The lines of a file, without the empty piece after a final newline. -/
def fileLines (data : Bytes) : List Bytes :=
  let parts := data.splitOn 10
  if parts.getLast?=some [] then parts.dropLast else parts

def stripCr (line : Bytes) : Bytes :=
  if line.getLast?=some 13 then line.dropLast else line

def readLine (line : Bytes) : Slot :=
  match Text.ofUtf8 line with
  | some s => match parseLine s with
    | .entry e => .entry e
    | .verbatim s => .verbatim s
  | none => match parseLine (Text.ofUtf8Lossy line) with
    | .entry e => .raw line (if e.marker=some .revoked then some e else none)
    | .verbatim _ => .raw line none

def fromBytes (data : Bytes) : Store :=
  { lines := (fileLines data).map fun line => readLine (stripCr line) }

def slotBytes : Slot → Bytes
  | .verbatim s => s.bytes++[10]
  | .entry e => (formatEntry e).bytes++[10]
  | .raw line _ => line++[10]
  | .removed => []

def toBytes (s : Store) : Bytes := s.lines.flatMap slotBytes

/- Every `@revoked` entry. -/
def revokedEntries (s : Store) : List Entry :=
  s.lines.filterMap fun
    | .entry e => if e.marker=some .revoked then some e else none
    | .raw _ (some e) => if e.marker=some .revoked then some e else none
    | _ => none

/- The second pass of `lookup`: `none` is a match, otherwise whether a host matched and the keys on
   file for it. -/
def scan (M : Mac) (host : Text) (port : UInt16) (key : Key) (hostMatched : Bool)
    (expected : List Key) : List Slot → Option (Bool × List Key)
  | [] => some (hostMatched,expected)
  | .entry e::rest =>
    if e.marker.isSome then scan M host port key hostMatched expected rest
    else if !hostFieldMatches M e.hostSpec host port then
      scan M host port key hostMatched expected rest
    else if e.key=key then none
    else scan M host port key true (expected++[e.key]) rest
  | _::rest => scan M host port key hostMatched expected rest

def plainHostHasKey (M : Mac) (host : Text) (key : Key) (s : Store) : Bool :=
  s.lines.any fun
    | .entry e => e.marker.isNone && e.key==key && hostFieldMatches M e.hostSpec host 22
    | _ => false

def lookup (M : Mac) (host : Text) (port : UInt16) (key : Key) (s : Store) : LookupResult :=
  if s.revokedEntries.any fun e => hostFieldMatches M e.hostSpec host port && e.key==key then
    .revoked
  else match scan M host port key false [] s.lines with
    | none => .matched
    | some (true,expected) => .mismatch expected
    | some (false,_) =>
      if port≠22 ∧ plainHostHasKey M host key s then .matched else .unknown

/- A field of a line that `try_add` writes. -/
def safeField (s : Text) : Bool :=
  !s.isEmpty && !(s.head?.any fun c => c == '@' || c == '|' || c == '#') &&
    !s.any fun c => Text.isWhitespace c || Text.isControl c || c == ','

def push (e : Entry) (s : Store) : Store := { lines := s.lines++[.entry e] }

/- The salt of a hashed entry is random. -/
def tryAdd (M : Mac) (salt : Bytes) (host : Text) (port : UInt16) (key : Key) (hashed : Bool)
    (s : Store) : Result Store :=
  if !safeField key.1 then .error (.format "known_hosts: invalid key type")
  else if !safeField host then .error (.format "known_hosts: invalid host name")
  else
    let hostSpec := if hashed then .hashed (hashNew M salt host port)
      else .patterns [formatHostPattern host port]
    .ok (s.push { marker := none, hostSpec, keyType := key.1, keyBlob := key.2, comment := [] })

/- `try_add` without its error. -/
def add (M : Mac) (salt : Bytes) (host : Text) (port : UInt16) (key : Key) (hashed : Bool)
    (s : Store) : Store :=
  match s.tryAdd M salt host port key hashed with
  | .ok s => s
  | .error _ => s

def hashedEntry (M : Mac) (e : Entry) (salt : Bytes) (name : Text × UInt16) : Slot :=
  .entry { e with hostSpec := .hashed (encodeHashed M salt (formatHost name.1 name.2)) }

/- One hashed entry for each pattern; a line with a malformed pattern stays as it is. The salt of
   each pattern is random. -/
def hashSlot (M : Mac) (salts : Nat → Bytes) : Slot → List Slot
  | .entry e => match e.hostSpec with
    | .hashed _ => [.entry e]
    | .patterns pats => match pats.mapM splitHostPort with
      | some names => names.zipIdx.map fun (name,i) => hashedEntry M e (salts i) name
      | none => [.entry e]
  | slot => [slot]

def hashInPlace (M : Mac) (salts : Nat → Nat → Bytes) (s : Store) : Store :=
  { lines := s.lines.zipIdx.flatMap fun (slot,i) => hashSlot M (salts i) slot }

end Store
end PureSsh.KnownHosts
