import Mathlib.Data.List.AList
import Mathlib.Data.List.Sort
import PureSsh.Knock.Wire

/-! The server half of the knock protocol (`knock/state.rs`): one datagram, the time and its source
in, a verdict out. Times are milliseconds. -/

namespace PureSsh.Knocking
open Lib Proc

structure KnockServerConfig where
  clockSkewMs : Nat
  windowSecs : UInt16
  maxPending : Nat
  knockBurst : Nat
  knockRefillMs : Nat
  newsig1Burst : Nat
  newsig1RefillMs : Nat
  verifyPerSec : Nat
  maxPrefixesPerKey : Nat
  newPrefixBurst : Nat
  newPrefixRefillMs : Nat
  sig1CacheSize : Nat
  keyCacheTtlMs : Nat
  keyCacheUsers : Nat
  keyLookupsPerSec : Nat
  keyLookupsPrefixBurst : Nat
  keyLookupsPrefixRefillMs : Nat
  keyLookupPrefixes : Nat
  deriving DecidableEq, Repr

def KnockServerConfig.default : KnockServerConfig where
  clockSkewMs := 30000
  windowSecs := 60
  maxPending := 2
  knockBurst := 5
  knockRefillMs := 10000
  newsig1Burst := 3
  newsig1RefillMs := 60000
  verifyPerSec := 1000
  maxPrefixesPerKey := 64
  newPrefixBurst := 10
  newPrefixRefillMs := 1000
  sig1CacheSize := 4
  keyCacheTtlMs := 60000
  keyCacheUsers := 4096
  keyLookupsPerSec := 50
  keyLookupsPrefixBurst := 10
  keyLookupsPrefixRefillMs := 200
  keyLookupPrefixes := 1024

/- What the key source says when it is asked about the user of one datagram. The source keeps its
   own state and may say something else each time. -/
structure Answers where
  mayKnock : Bool
  keysFor : List Bytes

structure Bucket where
  tokens : Nat
  burst : Nat
  refillMs : Nat
  lastMs : Nat
  deriving DecidableEq, Repr

namespace Bucket

def new (burst refillMs now : Nat) : Bucket where
  tokens := burst
  burst := burst
  refillMs := max refillMs 1
  lastMs := now

def withTokens (burst refillMs now tokens : Nat) : Bucket :=
  { new burst refillMs now with tokens := min tokens burst }

/- The tokens gained since `lastMs`; a full bucket forgets the remainder. -/
def refill (now : Nat) (b : Bucket) : Bucket :=
  if b.lastMs<now then
    let gained := (now-b.lastMs)/b.refillMs
    let b := if gained>0 then
        { b with tokens := min (b.tokens+gained) b.burst
                 lastMs := b.lastMs+gained*b.refillMs }
      else b
    if b.tokens=b.burst then { b with lastMs := now } else b
  else b

def take (now : Nat) (b : Bucket) : Bool × Bucket :=
  let b := b.refill now
  if b.tokens>0 then (true,{ b with tokens := b.tokens-1 }) else (false,b)

end Bucket

inductive IpAddr where
  | v4 (a b c d : UInt8)
  | v6 (octets : Bytes)
  deriving DecidableEq, Repr

def IpAddr.toCanonical : IpAddr → IpAddr
  | .v6 [0,0,0,0,0,0,0,0,0,0,0xff,0xff,a,b,c,d] => .v4 a b c d
  | ip => ip

def sourcePrefix (ip : IpAddr) : Bytes :=
  match ip.toCanonical with
  | .v4 a b c d => [4,0,0,0,a,b,c,d]
  | .v6 octets => octets.take 8

structure PrefixSlot where
  prefixBytes : Bytes
  bucket : Bucket
  lastUsed : Nat
  good : Bool
  deriving DecidableEq, Repr

structure Entry where
  sig1Cache : List Bytes
  newsig1 : Bucket
  newPrefix : Bucket
  lastNonce : Nat
  lastKnockHash : Bytes
  lastAccept : Option (Bytes × Nat)
  knockBuckets : List PrefixSlot
  pending : Nat
  deriving DecidableEq, Repr

inductive DropReason where
  | malformed | unknownKey | clock | badSig1 | badSig2 | replay | rateLimited | tooManyPending
  | noHostKey
  deriving DecidableEq, Repr

structure PendingAccept where
  user : Str
  keyFp : Bytes
  knockHash : Bytes
  hostKey : Nat
  fullHostkey : Bool
  ephC : Bytes
  knockLen : Nat
  deriving DecidableEq, Repr

inductive Verdict where
  | drop (reason : DropReason)
  | resend (bytes : Bytes)
  | accept (pending : PendingAccept)
  deriving DecidableEq, Repr

def Verdict.isAccept : Verdict → Bool
  | .accept _ => true
  | _ => false

structure CompletedAccept where
  datagram : Bytes
  token : Bytes
  hostKeyBlob : Bytes

structure CachedKeys where
  loadedMs : Nat
  keys : AList fun _ : Bytes => Bytes

/- The entry table is only ever read and written at one key, or thinned out as a whole. -/
structure KnockState (C : Crypto) where
  cfg : KnockServerConfig
  keyCache : AList fun _ : Str => CachedKeys
  entries : Str × Bytes → Option Entry
  hostKeys : List (C.HostKey × Bytes × Bytes)
  verify : Bucket
  lookups : Bucket
  prefixLookups : AList fun _ : Bytes => Bucket × Nat
  nonceFloor : Nat

def hostKeyRank (blob : Bytes) : Nat :=
  match Reader.readString blob with
  | .ok (name,_) =>
    if name=ascii "ssh-ed25519" then 0 else if ascii "ecdsa-" <+: name then 1 else 2
  | .error _ => 2

/- The first element with the least key, as `min_by_key` finds it. -/
def minBy {α : Type} (lt : α → α → Bool) : List α → Option α
  | [] => none
  | a::l => match minBy lt l with
    | none => some a
    | some b => if lt b a then some b else some a

/- `Vec::swap_remove` -/
def swapRemove {α : Type} (i : Nat) (l : List α) : List α :=
  match l.getLast? with
  | none => []
  | some last => (l.set i last).dropLast

namespace KnockState
variable {C : Crypto}

def perSecond (n now : Nat) : Bucket := .new (max n 1) (max (1000/max n 1) 1) now

/- Host keys of a supported type, the preferred ones first. -/
def usableKeys (hostKeys : List C.HostKey) : List (C.HostKey × Bytes × Bytes) :=
  (hostKeys.filterMap fun k =>
    let blob := C.publicBlob k
    (maxSigBlobLen blob).map fun _ => (k,blob,keyFp C blob)).insertionSort
      fun a b => hostKeyRank a.2.1≤hostKeyRank b.2.1

def new (cfg : KnockServerConfig) (hostKeys : List C.HostKey) (now : Nat) : KnockState C where
  cfg := cfg
  keyCache := ∅
  entries := fun _ => none
  hostKeys := usableKeys hostKeys
  verify := perSecond cfg.verifyPerSec now
  lookups := perSecond cfg.keyLookupsPerSec now
  prefixLookups := ∅
  nonceFloor := now

/- The new source shows in the answers that later calls get. -/
def setKeySource (s : KnockState C) : KnockState C := { s with keyCache := ∅ }

def invalidateKeys (user : Option Str) (s : KnockState C) : KnockState C :=
  match user with
  | some u => { s with keyCache := s.keyCache.erase u }
  | none => { s with keyCache := ∅ }

/- `entries.retain` -/
def retain (keep : Str × Bytes → Bool) (s : KnockState C) : KnockState C :=
  { s with entries := fun key => if keep key then s.entries key else none }

def putEntry (key : Str × Bytes) (e : Entry) (s : KnockState C) : KnockState C :=
  { s with entries := fun key' => if key'=key then some e else s.entries key' }

/- A new source in a full table pushes out the one that was used least recently, and starts with
   a single token. -/
def lookupSlot (src : Bytes) (now : Nat) (s : KnockState C) :
    Bucket × AList fun _ : Bytes => Bucket × Nat :=
  match s.prefixLookups.lookup src with
  | some (bucket,_) => (bucket,s.prefixLookups)
  | none =>
    let fresh (tokens : Nat) : Bucket := .withTokens s.cfg.keyLookupsPrefixBurst
      s.cfg.keyLookupsPrefixRefillMs now tokens
    if s.prefixLookups.keys.length≥max s.cfg.keyLookupPrefixes 1 then
      match minBy (fun a b => a.2.2<b.2.2) s.prefixLookups.entries with
      | some lru => (fresh 1,s.prefixLookups.erase lru.1)
      | none => (fresh 1,s.prefixLookups)
    else (fresh s.cfg.keyLookupsPrefixBurst,s.prefixLookups)

def takePrefixLookup (src : IpAddr) (now : Nat) (s : KnockState C) : Bool × KnockState C :=
  let (bucket,table) := s.lookupSlot (sourcePrefix src) now
  let (ok,bucket) := bucket.take now
  (ok,{ s with prefixLookups := table.insert (sourcePrefix src) (bucket,now) })

def takeLookup (src : IpAddr) (now : Nat) (s : KnockState C) : Bool × KnockState C :=
  match s.takePrefixLookup src now with
  | (false,s) => (false,s)
  | (true,s) =>
    let (ok,bucket) := s.lookups.take now
    (ok,{ s with lookups := bucket })

/- A full cache loses a user without keys first, the one loaded longest ago among them. -/
def evictUser (s : KnockState C) : KnockState C :=
  let before (a b : Sigma fun _ : Str => CachedKeys) : Bool :=
    let empty (c : Sigma fun _ : Str => CachedKeys) := c.2.keys.entries.isEmpty
    if empty a=empty b then a.2.loadedMs<b.2.loadedMs else empty a
  match minBy before s.keyCache.entries with
  | some victim => { s with keyCache := s.keyCache.erase victim.1 }
  | none => s

def keyTable (C : Crypto) (blobs : List Bytes) : AList fun _ : Bytes => Bytes :=
  (blobs.filter fun b => (maxSigBlobLen b).isSome).foldl (fun t b => t.insert (keyFp C b) b) ∅

def isFresh (user : Str) (now : Nat) (s : KnockState C) : Bool :=
  match s.keyCache.lookup user with
  | some c => c.loadedMs≤now && now-c.loadedMs<s.cfg.keyCacheTtlMs
  | none => false

/- A user that may not knock (any more). -/
def forget (user : Str) (s : KnockState C) : KnockState C :=
  if (s.keyCache.lookup user).isSome then
    { s with keyCache := s.keyCache.erase user }.retain fun key => key.1≠user
  else s

/- New keys of a user; the entries of the keys that are gone go too. -/
def reload (user : Str) (keys : AList fun _ : Bytes => Bytes) (now : Nat) (s : KnockState C) :
    KnockState C :=
  let s := s.retain fun key => key.1≠user || (keys.lookup key.2).isSome
  { s with keyCache := s.keyCache.insert user { loadedMs := now, keys } }

/- `false` is a lookup that a rate limit refused. -/
def loadUserKeys (ask : Answers) (user : Str) (src : IpAddr) (now : Nat) (s : KnockState C) :
    Bool × KnockState C :=
  if s.isFresh user now then (true,s)
  else if !ask.mayKnock then (true,s.forget user)
  else
    let cached := (s.keyCache.lookup user).isSome
    match s.takeLookup src now with
    | (false,s) => (cached,s)
    | (true,s) =>
      let s := if !cached && s.keyCache.keys.length≥max s.cfg.keyCacheUsers 1 then s.evictUser
        else s
      (true,s.reload user (keyTable C ask.keysFor) now)

def releasePending (user : Str) (fp : Bytes) (s : KnockState C) : KnockState C :=
  match s.entries (user,fp) with
  | some e => s.putEntry (user,fp) { e with pending := e.pending-1 }
  | none => s

end KnockState

namespace Entry

def new (cfg : KnockServerConfig) (now : Nat) : Entry where
  sig1Cache := []
  newsig1 := .new cfg.newsig1Burst cfg.newsig1RefillMs now
  newPrefix := .new cfg.newPrefixBurst cfg.newPrefixRefillMs now
  lastNonce := 0
  lastKnockHash := zeros
  lastAccept := none
  knockBuckets := []
  pending := 0

/- The slot of a source, made if it is new. In a full table it takes the place of the source used
   least recently, one that never sent a valid knock first. -/
def knockSlot (cfg : KnockServerConfig) (src : Bytes) (now : Nat) (e : Entry) :
    Nat × List PrefixSlot :=
  match e.knockBuckets.findIdx? (·.prefixBytes==src) with
  | some i => (i,e.knockBuckets)
  | none =>
    let slot (tokens : Nat) : PrefixSlot :=
      { prefixBytes := src, bucket := .withTokens cfg.knockBurst cfg.knockRefillMs now tokens
        lastUsed := now, good := false }
    if e.knockBuckets.length≥max cfg.maxPrefixesPerKey 1 then
      let before (a b : PrefixSlot × Nat) : Bool :=
        if a.1.good=b.1.good then a.1.lastUsed<b.1.lastUsed else !a.1.good
      let lru := ((minBy before e.knockBuckets.zipIdx).map (·.2)).getD 0
      let rest := swapRemove lru e.knockBuckets
      (rest.length,rest++[slot 2])
    else (e.knockBuckets.length,e.knockBuckets++[slot cfg.knockBurst])

/- `take_knock_bucket` -/
def takeKnockBucket (cfg : KnockServerConfig) (src : IpAddr) (now : Nat) (e : Entry) :
    (Bool × Nat) × Entry :=
  let (i,slots) := e.knockSlot cfg (sourcePrefix src) now
  match slots[i]? with
  | some slot =>
    let (ok,bucket) := slot.bucket.take now
    ((ok,i),{ e with knockBuckets := slots.set i { slot with bucket, lastUsed := now } })
  | none => ((false,i),{ e with knockBuckets := slots })

def isGood (i : Nat) (e : Entry) : Bool := (e.knockBuckets[i]?.map (·.good)).getD false

def markGood (i : Nat) (e : Entry) : Entry :=
  { e with knockBuckets := e.knockBuckets.modify i fun slot => { slot with good := true } }

/- The nonce is consumed, whatever comes of the knock. -/
def consume (nonce : Nat) (hash : Bytes) (e : Entry) : Entry :=
  { e with lastNonce := nonce, lastKnockHash := hash, lastAccept := none }

end Entry

/- The verdicts of the early returns. -/
inductive Refusal where
  | drop (reason : DropReason)
  | resend (bytes : Bytes)

def Refusal.verdict : Refusal → Verdict
  | .drop reason => .drop reason
  | .resend bytes => .resend bytes

/- Steps 4 to 11 of `handle` work on the entry of the knock's key and on the bucket of public key
   verifications. An early return is a failure. -/
abbrev Admission (α : Type) := Proc Refusal (Entry × Bucket) α

namespace Admission

def dropped {α : Type} (reason : DropReason) : Admission α := fail (.drop reason)

def takeVerify (now : Nat) : Admission Bool := fun s =>
  (.ok (s.2.take now).1,(s.1,(s.2.take now).2))

def takeNewsig1 (now : Nat) : Admission Bool := fun s =>
  (.ok (s.1.newsig1.take now).1,({ s.1 with newsig1 := (s.1.newsig1.take now).2 },s.2))

def takeNewprefix (now : Nat) : Admission Bool := fun s =>
  (.ok (s.1.newPrefix.take now).1,({ s.1 with newPrefix := (s.1.newPrefix.take now).2 },s.2))

def takeKnock (cfg : KnockServerConfig) (src : IpAddr) (now : Nat) : Admission (Bool × Nat) :=
  fun s => (.ok (s.1.takeKnockBucket cfg src now).1,((s.1.takeKnockBucket cfg src now).2,s.2))

def modifyEntry (f : Entry → Entry) : Admission Unit := modify fun s => (f s.1,s.2)

/- `x && y`, which does not run `y` when `x` is false. -/
def both (x y : Admission Bool) : Admission Bool := do if ← x then y else return false

/- Step 4: a sig1 that was accepted before is recognised by its bytes. -/
def checkSig1 (C : Crypto) (cfg : KnockServerConfig) (keyBlob : Bytes) (k : Knock) (now : Nat) :
    Admission Unit := do
  let (entry,_) ← get
  if k.sig1∈entry.sig1Cache then
    modifyEntry fun e => { e with sig1Cache := k.sig1::e.sig1Cache.erase k.sig1 }
  else
    let ok ← both (takeNewsig1 now) (takeVerify now)
    if !ok then dropped .rateLimited
    else match verify C keyBlob nsKnockId (knockIdMessage k.user k.keyFp) k.sig1 with
      | .error _ => dropped .badSig1
      | .ok () => modifyEntry fun e =>
        { e with sig1Cache := (k.sig1::e.sig1Cache).take (max cfg.sig1CacheSize 1) }

/-- Whether step 4 verifies sig1. -/
def checksSig1 (k : Knock) (now : Nat) (s : Entry × Bucket) : Bool :=
  k.sig1∉s.1.sig1Cache && ((s.1.newsig1.take now).1 && (s.2.take now).1)

/- Step 5: the last knock once more gets the cached ACCEPT, as long as that is valid. -/
def retransmit (cfg : KnockServerConfig) (src : IpAddr) (now : Nat) : Admission PendingAccept := do
  let (entry,_) ← get
  match entry.lastAccept with
  | some (accept,expiry) =>
    if now<expiry then
      let (ok,_) ← takeKnock cfg src now
      if !ok then dropped .rateLimited else fail (.resend accept)
    else dropped .replay
  | none => dropped .replay

/- Step 7: the bucket of the source, that of new sources, and the global one. -/
def takeAll (cfg : KnockServerConfig) (src : IpAddr) (now : Nat) : Admission (Bool × Nat) := do
  let (ok,slot) ← takeKnock cfg src now
  let (entry,_) ← get
  let ok ← both (pure ok) (both (if entry.isGood slot then pure true else takeNewprefix now)
    (takeVerify now))
  return (ok,slot)

/- Step 11: the host key that will sign, under the size rule. -/
def chooseHostKey {C : Crypto} (hostKeys : List (C.HostKey × Bytes × Bytes)) (k : Knock)
    (size : Nat) : Option Nat :=
  let full := Knock.needHostkey k.flags
  let fits (blob : Bytes) : Bool := (acceptLenBound blob full).any (· ≤ size)
  if full then hostKeys.findIdx? fun h => fits h.2.1
  else hostKeys.findIdx? fun h => h.2.2==k.hostFp && fits h.2.1

/- Steps 8 to 11. -/
def settle (C : Crypto) (cfg : KnockServerConfig) (hostKeys : List (C.HostKey × Bytes × Bytes))
    (keyBlob : Bytes) (k : Knock) (slot : Nat) (datagram : Bytes) : Admission PendingAccept := do
  match verify C keyBlob nsKnock k.signed k.sig2 with
  | .error _ => dropped .badSig2
  | .ok () =>
    modifyEntry fun e => (e.markGood slot).consume k.nonce.toNat (knockHash C datagram)
    let (entry,_) ← get
    if entry.pending≥cfg.maxPending then dropped .tooManyPending
    else match chooseHostKey hostKeys k datagram.length with
      | none => dropped .noHostKey
      | some hostKey =>
        modifyEntry fun e => { e with pending := e.pending+1 }
        return { user := k.user, keyFp := k.keyFp, knockHash := knockHash C datagram, hostKey
                 fullHostkey := Knock.needHostkey k.flags, ephC := k.ephC
                 knockLen := datagram.length }

def grant {C : Crypto} (cfg : KnockServerConfig) (hostKeys : List (C.HostKey × Bytes × Bytes))
    (floor : Nat) (keyBlob : Bytes) (k : Knock) (now : Nat) (src : IpAddr) (datagram : Bytes) :
    Admission PendingAccept := do
  checkSig1 C cfg keyBlob k now
  let (entry,_) ← get
  if k.nonce.toNat=entry.lastNonce ∧ knockHash C datagram=entry.lastKnockHash then
    retransmit cfg src now
  else if k.nonce.toNat≤entry.lastNonce ∨ k.nonce.toNat<floor then dropped .replay
  else
    let (ok,slot) ← takeAll cfg src now
    if !ok then dropped .rateLimited
    else settle C cfg hostKeys keyBlob k slot datagram

end Admission

namespace KnockState
variable {C : Crypto}

def absDiff (a b : Nat) : Nat := max a b-min a b

def entryFor (key : Str × Bytes) (now : Nat) (s : KnockState C) : Entry :=
  (s.entries key).getD (.new s.cfg now)

def handle (ask : Answers) (now : Nat) (src : IpAddr) (datagram : Bytes) (s : KnockState C) :
    Verdict × KnockState C :=
  match Knock.parse datagram with
  | .error _ => (.drop .malformed,s)
  | .ok k =>
    if absDiff k.nonce.toNat now>s.cfg.clockSkewMs then (.drop .clock,s)
    else match s.loadUserKeys ask k.user src now with
      | (false,s) => (.drop .rateLimited,s)
      | (true,s) =>
        match (s.keyCache.lookup k.user).bind fun c => c.keys.lookup k.keyFp with
        | none => (.drop .unknownKey,s)
        | some keyBlob =>
          let key := (k.user,k.keyFp)
          match Admission.grant s.cfg s.hostKeys s.nonceFloor keyBlob k now src datagram
              (s.entryFor key now,s.verify) with
          | (.ok pending,(e,verify)) => (.accept pending,{ s.putEntry key e with verify })
          | (.error refusal,(e,verify)) => (refusal.verdict,{ s.putEntry key e with verify })

/- Signs the ACCEPT and keeps it for retransmits, unless a newer knock came in between. -/
def completeInner (pending : PendingAccept) (coins : C.Coins) (port : UInt16) (now : Nat) :
    Proc Error (KnockState C) CompletedAccept := do
  let s ← get
  let (hostKey,blob,_) ← okOr (.config "knock: host key index") s.hostKeys[pending.hostKey]?
  let eph := C.ephGenerate coins
  let shared ← okOr (.crypto "knock: small-order client ephemeral")
    (C.diffieHellman eph pending.ephC)
  let window := max s.cfg.windowSecs 1
  let datagram ← lift (buildAccept C hostKey coins pending.knockHash (C.ephPublic eph) port
    window pending.fullHostkey)
  if datagram.length>pending.knockLen then
    fail (.protocol "knock: ACCEPT larger than KNOCK")
  else
    let key := (pending.user,pending.keyFp)
    modify fun s => match s.entries key with
      | some e => if e.lastKnockHash=pending.knockHash then
          s.putEntry key { e with
            lastAccept := some (datagram,(now+window.toNat*1000)%2^64) }
        else s
      | none => s
    return { datagram, hostKeyBlob := blob
             token := openToken C shared pending.knockHash (C.ephPublic eph) port }

/- An error releases the pending slot. -/
def complete (pending : PendingAccept) (coins : C.Coins) (port : UInt16) (now : Nat) :
    Proc Error (KnockState C) CompletedAccept := fun s =>
  match completeInner pending coins port now s with
  | (.ok done,s) => (.ok done,s)
  | (.error e,s) => (.error e,s.releasePending pending.user pending.keyFp)

end KnockState
end PureSsh.Knocking
