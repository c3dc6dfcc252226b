import PureSsh.KnownHosts.Adding

/-! `UpdateHostKeys`: the host keys that a server lists and proves replace those on file
(`HostKeysUpdater` of `bin/ssh.rs`, `host_keys_update` and `update_host_keys` of
`known_hosts/store.rs`). -/

namespace PureSsh.KnownHosts
open Lib Reader Writer

/-- An unmarked line for one name, as the client writes it. -/
def Entry.simple (e : Entry) : Bool :=
  e.marker.isNone && match e.hostSpec with
    | .hashed _ => true
    | .patterns [p] => !p.any fun c => c == '*' || c == '?' || c == '!'
    | .patterns _ => false

structure HostKeysUpdate where
  new : List Nat
  old : List Bytes
  blocked : Option String
  deriving DecidableEq, Repr

namespace Store

def entries (s : Store) : List Entry :=
  s.lines.filterMap fun
    | .entry e => some e
    | _ => none

/- One round of the loop of `host_keys_update`, with the flags of the offered keys. -/
def planEntry (M : Mac) (host : Text) (port : UInt16) (offered : List Bytes)
    (st : List Bool × HostKeysUpdate) (e : Entry) : List Bool × HostKeysUpdate :=
  if !hostFieldMatches M e.hostSpec host port then
    if offered.contains e.keyBlob && e.marker.isNone then
      (st.1,{ st.2 with blocked := some "host key found under another name" })
    else st
  else if !e.simple then
    (st.1,{ st.2 with blocked := some "marker, host list or wildcard entry for the host" })
  else match offered.idxOf? e.keyBlob with
    | some i => (st.1.set i true,st.2)
    | none => (st.1,{ st.2 with old := st.2.old++[e.keyBlob] })

def hostKeysUpdate (M : Mac) (host : Text) (port : UInt16) (offered : List Bytes) (s : Store) :
    HostKeysUpdate :=
  let st := s.entries.foldl (planEntry M host port offered)
    (List.replicate offered.length false,{ new := [], old := [], blocked := none })
  { st.2 with new := (List.range offered.length).filter fun i => !st.1.getD i false }

/- What `retain` drops. -/
def dropped (M : Mac) (host : Text) (port : UInt16) (remove : List Bytes) : Slot → Bool
  | .entry e => e.marker.isNone && remove.contains e.keyBlob && hostFieldMatches M e.hostSpec host port
  | _ => false

/- Each new entry has its own salt. -/
def updateHostKeys (M : Mac) (salts : Nat → Bytes) (host : Text) (port : UInt16)
    (remove : List Bytes) (add : List Key) (hashed : Bool) (s : Store) : Store :=
  add.zipIdx.foldl (fun s p => s.add M (salts p.2) host port p.1 hashed)
    { lines := s.lines.filter fun slot => !dropped M host port remove slot }

end Store

/- The algorithm name a key or signature blob starts with. -/
def keyBlobType (blob : Bytes) : Option Text :=
  match readString blob with
  | .ok (name,_) => Text.ofUtf8 name
  | .error _ => none

/- The length-prefixed blobs of a message, and whether the last one is whole. Up to three bytes at
   the end are not looked at; every blob takes four, so the fuel is enough. -/
def readBlobs : Nat → Bytes → List Bytes × Bool
  | 0, _ => ([],true)
  | fuel+1, rest =>
    if rest.length<4 then ([],true)
    else match readString rest with
      | .error _ => ([],false)
      | .ok (blob,rest) => (blob::(readBlobs fuel rest).1,(readBlobs fuel rest).2)

/-- The keys that a host key message lists. -/
def messageKeys (raw : Bytes) : List Bytes := (readBlobs raw.length raw).1

structure HostKeysUpdater where
  host : Text
  port : UInt16
  hash : Bool
  algorithms : List Text

/-- What the update gets from the connection: whether the host key is trusted at its start and
before it writes, the answer to the request for proofs, the session id and the algorithm of the
host key. -/
structure Connection where
  trustedAtStart : Bool
  trustedAtEnd : Bool
  prove : Bytes → Option Bytes
  sessionId : Option Bytes
  hostKeyAlg : Option Text

def proveRequest : Bytes := ascii "hostkeys-prove-00@openssh.com"

/- The algorithm that a proof is checked with; `none` is a proof that is passed over. For RSA the
   negotiated algorithm, else SHA-2 only. -/
def proofAlg (hostKeyAlg : Option Text) (keyType alg : Text) : Option Text :=
  if keyType = "ssh-rsa".toList then
    match hostKeyAlg.filter fun a => "rsa-sha2-".toList.isPrefixOf a || a == "ssh-rsa".toList with
    | some a => some a
    | none => if "rsa-sha2-".toList.isPrefixOf alg then some alg else none
  else some alg

def signedData (sessionId key : Bytes) : Bytes :=
  writeString proveRequest++writeString sessionId++writeString key

/- The loop over the proofs, which answer the keys by their position. -/
def checkProofs (verify : Cert.VerifyByName) (hostKeyAlg : Option Text) (sessionId : Bytes) :
    List Bytes → Bytes → List Key → Option (List Key)
  | [], _, add => some add
  | key::keys, sigs, add =>
    match readString sigs with
    | .error _ => none
    | .ok (sig,sigs) =>
      match keyBlobType key, keyBlobType sig with
      | some keyType, some alg =>
        match proofAlg hostKeyAlg keyType alg with
        | none => checkProofs verify hostKeyAlg sessionId keys sigs add
        | some alg =>
          match verify alg.bytes key (signedData sessionId key) sig with
          | .error _ => none
          | .ok () => checkProofs verify hostKeyAlg sessionId keys sigs (add++[(keyType,key)])
      | _, _ => none

namespace HostKeysUpdater

def permitted (U : HostKeysUpdater) (keyType : Text) : Bool :=
  U.algorithms.any fun a => a==keyType || (keyType == "ssh-rsa".toList &&
    ["rsa-sha2-512".toList,"rsa-sha2-256".toList,"ssh-rsa".toList].contains a)

/- The plain keys that `HostKeyAlgorithms` allows; a key that is listed twice ends the update. -/
def offeredFrom (U : HostKeysUpdater) : List Bytes → List Bytes → Option (List Bytes)
  | [], offered => some offered
  | blob::blobs, offered =>
    match keyBlobType blob with
    | none => U.offeredFrom blobs offered
    | some t =>
      if Cert.isCertName t || !U.permitted t then U.offeredFrom blobs offered
      else if offered.contains blob then none
      else U.offeredFrom blobs (offered++[blob])

def offered (U : HostKeysUpdater) (raw : Bytes) : Option (List Bytes) := do
  let offered ← U.offeredFrom (messageKeys raw) []
  if (readBlobs raw.length raw).2 then some offered else none

/- The proven keys among those that are not on file. -/
def learn (_ : HostKeysUpdater) (C : Connection) (verify : Cert.VerifyByName) (keys : List Bytes) :
    Option (List Key) :=
  if keys.isEmpty then some []
  else do
    let reply ← C.prove (keys.flatMap writeString)
    let sessionId ← C.sessionId
    checkProofs verify C.hostKeyAlg sessionId keys reply []

/-- The store that `update` writes; `none` where it leaves the file alone. -/
def update (U : HostKeysUpdater) (C : Connection) (M : Mac) (salts : Nat → Bytes)
    (verify : Cert.VerifyByName) (raw : Bytes) (kh : Store) : Option Store := do
  guard C.trustedAtStart
  let offered ← U.offered raw
  guard (!offered.isEmpty)
  let plan := kh.hostKeysUpdate M U.host U.port offered
  guard plan.blocked.isNone
  guard (!(plan.new.isEmpty && plan.old.isEmpty))
  let add ← U.learn C verify (plan.new.map fun i => offered.getD i [])
  guard C.trustedAtEnd
  return kh.updateHostKeys M salts U.host U.port plan.old add U.hash

end HostKeysUpdater
end PureSsh.KnownHosts
