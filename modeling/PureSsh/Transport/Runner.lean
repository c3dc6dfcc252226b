import PureSsh.Transport.KexMethod

/-! The state machine of a key exchange (`hazmat/transport/runner.rs`). -/

namespace PureSsh.Transport
open Lib Proc PacketCodec
variable {S : KexSuite} {P : Primitives}

structure KexAdvance where
  outbound : List Bytes
  completed : Bool
  deriving DecidableEq, Repr

structure DirKeys where
  cipher : Str
  iv : Bytes
  key : Bytes
  mac : Str
  macKey : Bytes
  deriving DecidableEq, Repr

structure InstalledKeys where
  c2s : DirKeys
  s2c : DirKeys
  deriving DecidableEq, Repr

inductive Phase (S : KexSuite) where
  | idle
  | sentKexInit
  | negotiated (clientState : Option S.ClientState)
  | gexClientAwaitGroup (clientState : S.GexClientState)
  | gexClientAwaitReply (clientState : S.GexClientState)
  | gexServerAwaitInit (request : GexRequest) (group : S.DhGroup)
  | awaitingPeerNewKeys
  | completed

structure KexRunner (S : KexSuite) where
  role : Role
  ourAdvertOwned : KexInit
  ourAdvertBytes : Bytes
  peerAdvertBytes : Option Bytes
  negotiated : Option NegotiatedOwned
  backend : Option KexBackend
  sessionId : Option Bytes
  currentH : Option Bytes
  currentK : Option Bytes
  installedKeys : Option InstalledKeys
  sentNewkeys : Bool
  peerNewkeys : Bool
  phase : Phase S
  strictKex : Bool
  pendingWrongGuessDiscard : Bool
  firstKex : Bool
  extInfoEnabled : Bool
  extInfoSend : Bool
  outboundExtInfo : Option ExtInfo
  peerExtInfo : Option ExtInfo
  acceptExtInfoNow : Bool
  gexSelector : Option (GexRequest → Option S.DhGroup)

namespace Phase

/- A key exchange is in flight. -/
def isKexing : Phase S → Bool
  | idle | completed => false
  | _ => true

def isCompleted : Phase S → Bool
  | completed => true
  | _ => false

/- The phases in which a wrongly guessed packet of the peer is dropped. -/
def discards : Phase S → Bool
  | negotiated _ | gexClientAwaitGroup _ | gexServerAwaitInit _ _ => true
  | _ => false

end Phase

namespace KexRunner

def new (role : Role) (advert : KexInit) : KexRunner S where
  role := role
  ourAdvertOwned := advert
  ourAdvertBytes := advert.encode
  peerAdvertBytes := none
  negotiated := none
  backend := none
  sessionId := none
  currentH := none
  currentK := none
  installedKeys := none
  sentNewkeys := false
  peerNewkeys := false
  phase := .idle
  strictKex := false
  pendingWrongGuessDiscard := false
  firstKex := true
  extInfoEnabled := false
  extInfoSend := false
  outboundExtInfo := none
  peerExtInfo := none
  acceptExtInfoNow := false
  gexSelector := none

def isKexing (r : KexRunner S) : Bool := r.phase.isKexing
def isCompleted (r : KexRunner S) : Bool := r.phase.isCompleted
def usesGex (r : KexRunner S) : Bool := r.backend.any KexBackend.isGex

def noteInboundOther (r : KexRunner S) : KexRunner S := { r with acceptExtInfoNow := false }

def handleInboundExtInfo (payload : Bytes) : Proc Error (KexRunner S) Unit := do
  let r ← get
  if !r.acceptExtInfoNow then fail (.protocol "unexpected SSH_MSG_EXT_INFO")
  else
    let parsed ← lift (ExtInfo.decode payload)
    set { r with peerExtInfo := some parsed, acceptExtInfoNow := false }

def start : Proc Error (KexRunner S) KexAdvance := do
  let r ← get
  match r.phase with
  | .idle =>
    set { r with phase := .sentKexInit }
    return { outbound := [r.ourAdvertBytes], completed := false }
  | _ => fail (.protocol "KexRunner::start called twice")

/- The session id and strict-kex survive; ext-info belongs to the first exchange only. -/
def restarted (advert : KexInit) (r : KexRunner S) : KexRunner S :=
  { r with
    ourAdvertOwned := advert
    ourAdvertBytes := advert.encode
    peerAdvertBytes := none
    negotiated := none
    backend := none
    currentH := none
    currentK := none
    installedKeys := none
    sentNewkeys := false
    peerNewkeys := false
    pendingWrongGuessDiscard := false
    firstKex := false
    extInfoEnabled := false
    extInfoSend := false
    outboundExtInfo := none
    acceptExtInfoNow := false
    phase := .sentKexInit }

def restart (advert : KexInit) : Proc Error (KexRunner S) KexAdvance := do
  let r ← get
  match r.phase with
  | .completed =>
    set (r.restarted advert)
    return { outbound := [advert.encode], completed := false }
  | _ => fail (.protocol "KexRunner::restart from non-Completed")

end KexRunner

/- `derive_for_direction`: an AEAD cipher has no MAC key. -/
def deriveForDirection (S : KexSuite) (backend : KexBackend) (k h sid : Bytes)
    (ivLetter keyLetter macLetter : UInt8) (cipher mac : Str) : Result DirKeys :=
  let kdf := derive (S.hash backend.hash) k h sid
  match CipherSpec.byName cipher with
  | none => .error (.unsupported "cipher in negotiation")
  | some spec =>
    let iv := kdf ivLetter spec.ivLen
    let key := kdf keyLetter spec.keyLen
    if spec.aead then .ok { cipher, iv, key, mac := [], macKey := [] }
    else match MacSpec.byName mac with
      | none => .error (.unsupported "MAC in negotiation")
      | some m => .ok { cipher, iv, key, mac, macKey := kdf macLetter m.keyLen }

/- The letters A to F, in turn for the two directions. -/
def deriveBoth (S : KexSuite) (backend : KexBackend) (neg : NegotiatedOwned) (k h sid : Bytes) :
    Result InstalledKeys := do
  let c2s ← deriveForDirection S backend k h sid 65 67 69 neg.cipherC2s neg.macC2s
  let s2c ← deriveForDirection S backend k h sid 66 68 70 neg.cipherS2c neg.macS2c
  return { c2s, s2c }

/- `ok_or(Error::Protocol(..))?` -/
def need {α : Type} (msg : String) : Option α → Result α
  | some a => .ok a
  | none => .error (.protocol msg)

def buildCipherMac (dir : DirKeys) : Result (SshCipher P × Option SshMac) := do
  let cipher ← match cipherByName dir.cipher dir.key dir.iv with
    | some built => built
    | none => .error (.unsupported "cipher name")
  if dir.mac.isEmpty then return (cipher,none)
  else match macByName dir.mac dir.macKey with
    | some mac => return (cipher,some mac)
    | none => .error (.unsupported "MAC name")

/- Which direction a role sends in, and which it receives. -/
def InstalledKeys.outbound (keys : InstalledKeys) : Role → DirKeys
  | .client => keys.c2s
  | .server => keys.s2c

def InstalledKeys.inbound (keys : InstalledKeys) : Role → DirKeys
  | .client => keys.s2c
  | .server => keys.c2s

def NegotiatedOwned.outComp (neg : NegotiatedOwned) : Role → Str
  | .client => neg.compC2s
  | .server => neg.compS2c

def NegotiatedOwned.inComp (neg : NegotiatedOwned) : Role → Str
  | .client => neg.compS2c
  | .server => neg.compC2s

/- Our own KEXINIT is the client's or the server's, by role. -/
def contextAs (role : Role) (vC vS ours peer : Bytes) : KexContext :=
  match role with
  | .client => { vC, vS, iC := ours, iS := peer }
  | .server => { vC, vS, iC := peer, iS := ours }

def negotiateAs (role : Role) (ours peer : KexInit) : Result NegotiatedOwned :=
  match role with
  | .client => negotiate ours peer
  | .server => negotiate peer ours

namespace KexRunner

def deriveKeys (r : KexRunner S) : Result InstalledKeys := do
  let neg ← need "missing negotiation" r.negotiated
  let backend ← need "missing backend" r.backend
  let k ← need "missing K" r.currentK
  let h ← need "missing H" r.currentH
  let sid ← need "missing session id" r.sessionId
  deriveBoth S backend neg k h sid

/- Nothing is installed before both NEWKEYS are out. -/
def maybeInstall (r : KexRunner S) : Proc Error (PacketCodec P) Unit :=
  if !(r.sentNewkeys && r.peerNewkeys) then pure ()
  else do
    let keys ← lift (need "no derived keys" r.installedKeys)
    let out ← lift (buildCipherMac (keys.outbound r.role))
    installOutbound out.1 out.2
    let inb ← lift (buildCipherMac (keys.inbound r.role))
    installInbound inb.1 inb.2
    let neg ← lift (need "missing negotiation" r.negotiated)
    let outComp ← okOr (.unsupported "unsupported compression")
      (Compress.byName (neg.outComp r.role))
    let inComp ← okOr (.unsupported "unsupported compression")
      (Decompress.byName (neg.inComp r.role))
    modify (installOutboundCompress outComp)
    modify (installInboundDecompress inComp)
    modify fun c => if r.strictKex then c.resetSequenceNumbers else c
    modify resetRekeyEpoch

def context (vC vS : Bytes) (r : KexRunner S) : KexContext :=
  contextAs r.role vC vS r.ourAdvertBytes (r.peerAdvertBytes.getD [])

def negotiateWith (peer : KexInit) (r : KexRunner S) : Result NegotiatedOwned :=
  negotiateAs r.role r.ourAdvertOwned peer

/- Ext-info towards us and from us: the two directions are independent. -/
def extInfoRecv (neg : NegotiatedOwned) : Role → Bool
  | .client => neg.clientExtInfo
  | .server => neg.serverExtInfo

def extInfoSendTo (neg : NegotiatedOwned) : Role → Bool
  | .client => neg.serverExtInfo
  | .server => neg.clientExtInfo

/- Strict-kex is latched: a later negotiation cannot take it back. -/
def adoptNegotiation (peer : KexInit) (neg : NegotiatedOwned) (backend : KexBackend)
    (r : KexRunner S) : KexRunner S :=
  { r with
    backend := some backend
    strictKex := r.strictKex || neg.strictKexEnabled
    extInfoEnabled := r.firstKex && extInfoRecv neg r.role
    extInfoSend := r.firstKex && extInfoSendTo neg r.role
    pendingWrongGuessDiscard := r.pendingWrongGuessDiscard ||
      (peer.firstKexPacketFollows && neg.firstKexPacketFollowsWrongGuess)
    negotiated := some neg }

def adoptOutput (out : KexOutput) (r : KexRunner S) : KexRunner S :=
  { r with
    currentK := some out.k
    currentH := some out.h
    sessionId := r.sessionId.or (some out.h) }

/- The ext-info sent right after the peer's first NEWKEYS. -/
def extInfoOut (r : KexRunner S) : List Bytes :=
  if r.firstKex && r.extInfoSend then (r.outboundExtInfo.map ExtInfo.encode).toList else []

def afterNewkeys (r : KexRunner S) : KexRunner S :=
  { r with
    phase := .completed
    acceptExtInfoNow := r.acceptExtInfoNow || (r.firstKex && r.extInfoEnabled)
    outboundExtInfo := if r.firstKex && r.extInfoSend then none else r.outboundExtInfo }

def setPhase (p : Phase S) (r : KexRunner S) : KexRunner S := { r with phase := p }

def setPeerAdvert (payload : Bytes) (r : KexRunner S) : KexRunner S :=
  { r with peerAdvertBytes := some payload }

def holdKeys (keys : InstalledKeys) (r : KexRunner S) : KexRunner S :=
  { r with installedKeys := some keys, sentNewkeys := true }

def notePeerNewkeys (r : KexRunner S) : KexRunner S := { r with peerNewkeys := true }

def noteDiscarded (r : KexRunner S) : KexRunner S := { r with pendingWrongGuessDiscard := false }

/- `advance_after_send_newkeys` -/
def advanceAfterSendNewkeys (r : KexRunner S) : KexRunner S :=
  r.setPhase (if r.peerNewkeys then .completed else .awaitingPeerNewKeys)

def gexGroupFor (request : GexRequest) (r : KexRunner S) : Option S.DhGroup :=
  match r.gexSelector with
  | none => some (defaultGexGroup request)
  | some select => select request

end KexRunner

/- What `on_packet` works on: the runner, the codec and the random source. -/
structure KexState (S : KexSuite) (P : Primitives) where
  runner : KexRunner S
  codec : PacketCodec P
  rng : Rng

namespace KexState

def onCodec {α : Type} (x : Proc Error (PacketCodec P) α) : Proc Error (KexState S P) α :=
  zoom (·.codec) (fun c s => { s with codec := c }) x

def onRng {α : Type} (x : Proc Error Rng α) : Proc Error (KexState S P) α :=
  zoom (·.rng) (fun g s => { s with rng := g }) x

def mapRunner (f : KexRunner S → KexRunner S) (s : KexState S P) : KexState S P :=
  { s with runner := f s.runner }

def modifyRunner (f : KexRunner S → KexRunner S) : Proc Error (KexState S P) Unit :=
  modify (mapRunner f)

/- The end of the four handlers that compute `(K, H)`. -/
def adoptKeys (out : KexOutput) (outbound : List Bytes) :
    Proc Error (KexState S P) (List Bytes) := do
  modifyRunner (·.adoptOutput out)
  let s ← get
  let keys ← lift s.runner.deriveKeys
  modifyRunner (·.holdKeys keys)
  let s ← get
  onCodec s.runner.maybeInstall
  modifyRunner (·.advanceAfterSendNewkeys)
  return outbound

def newkeys : Bytes := [msgNewKeys]

/- `build_client_init` and the phase that follows it. -/
def buildClientInit (neg : NegotiatedOwned) (backend : KexBackend) :
    Proc Error (KexState S P) (Phase S × Bytes) := do
  if backend.isGex then
    let request := GexRequest.forStrength (dhNeed neg)
    return (.gexClientAwaitGroup (S.gexStart request),msgKexDhGexRequest::request.body)
  else
    let s ← get
    onRng (set (S.clientInit backend s.rng).2)
    return (.negotiated (some (S.clientInit backend s.rng).1.1),
      msgKexEcdhInit::(S.clientInit backend s.rng).1.2)

/- The counter has already been moved past the KEXINIT. -/
def handlePeerKexinit (payload : Bytes) : Proc Error (KexState S P) (List Bytes) := do
  let s ← get
  let peer ← lift (KexInit.decode payload)
  modifyRunner (·.setPeerAdvert payload)
  let neg ← lift (s.runner.negotiateWith peer)
  if neg.strictKexEnabled ∧ s.runner.sessionId=none ∧ s.codec.seqIn≠1 then
    fail (.protocol "strict-kex: KEXINIT was not the first packet")
  else
    let backend ← lift (KexBackend.fromName neg.kex)
    modifyRunner (·.adoptNegotiation peer neg backend)
    match s.runner.role with
    | .client =>
      let (phase,init) ← buildClientInit neg backend
      modifyRunner (·.setPhase phase)
      return [init]
    | .server =>
      modifyRunner (·.setPhase (.negotiated none))
      return []

def handleKexInitMessage (payload : Bytes) (hostKey : Option S.HostKey) (vC vS : Bytes) :
    Proc Error (KexState S P) (List Bytes) := do
  let s ← get
  let hk ← lift (need "server requires host key" hostKey)
  let backend ← lift (need "backend unset" s.runner.backend)
  if backend.isGex then fail (.protocol "GEX routed wrong")
  else
    let out ← onRng (S.serverReply backend payload hk (s.runner.context vC vS))
    adoptKeys out.2 [msgKexEcdhReply::out.1,newkeys]

/- The phase is taken out first and is `Idle` when the rest fails. -/
def handleKexReplyMessage (clientState : Option S.ClientState) (payload : Bytes)
    (verifier : Option S.HostKeyVerify) (vC vS : Bytes) :
    Proc Error (KexState S P) (List Bytes) := do
  let s ← get
  let backend ← lift (need "backend unset" s.runner.backend)
  modifyRunner (·.setPhase .idle)
  let state ← lift (need "no client state for KEX reply" clientState)
  let v ← lift (need "client requires host-key verifier" verifier)
  if backend.isGex then fail (.protocol "GEX routed wrong")
  else
    let out ← lift (S.clientFinish backend state payload v (s.runner.context vC vS))
    adoptKeys out [newkeys]

def handleGexRequest (payload : Bytes) : Proc Error (KexState S P) (List Bytes) := do
  let s ← get
  let request ← lift (GexRequest.parse payload)
  let group ← lift (need "no matching DH grp found" (s.runner.gexGroupFor request))
  modifyRunner (·.setPhase (.gexServerAwaitInit request group))
  return [msgKexDhGexGroup::S.gexGroup group]

def handleGexGroup (clientState : S.GexClientState) (payload : Bytes) :
    Proc Error (KexState S P) (List Bytes) := do
  modifyRunner (·.setPhase .idle)
  let out ← onRng (S.gexClientInit clientState payload)
  modifyRunner (·.setPhase (.gexClientAwaitReply out.1))
  return [msgKexDhGexInit::out.2]

/- Which of the two group exchange hashes is meant; anything but `GexSha1` takes SHA-256. -/
def gexVariant (r : KexRunner S) : KexBackend :=
  if r.backend=some .gexSha1 then .gexSha1 else .gex

def handleGexInit (request : GexRequest) (group : S.DhGroup) (payload : Bytes)
    (hostKey : Option S.HostKey) (vC vS : Bytes) : Proc Error (KexState S P) (List Bytes) := do
  let s ← get
  let hk ← lift (need "server requires host key" hostKey)
  modifyRunner (·.setPhase .idle)
  let out ← onRng (S.gexServerReply (gexVariant s.runner) request group payload hk
    (s.runner.context vC vS))
  adoptKeys out.2 [msgKexDhGexReply::out.1,newkeys]

def handleGexReply (clientState : S.GexClientState) (payload : Bytes)
    (verifier : Option S.HostKeyVerify) (vC vS : Bytes) :
    Proc Error (KexState S P) (List Bytes) := do
  let s ← get
  let v ← lift (need "client requires host-key verifier" verifier)
  modifyRunner (·.setPhase .idle)
  let out ← lift (S.gexClientFinish (gexVariant s.runner) clientState payload v
    (s.runner.context vC vS))
  adoptKeys out [newkeys]

def handlePeerNewkeys : Proc Error (KexState S P) (List Bytes) := do
  modifyRunner (·.notePeerNewkeys)
  let s ← get
  onCodec s.runner.maybeInstall
  modifyRunner (·.afterNewkeys)
  return s.runner.extInfoOut

end KexState

/- What the caller hands to `on_packet` besides the packet. -/
structure KexInput (S : KexSuite) where
  hostKey : Option S.HostKey
  verifier : Option S.HostKeyVerify
  vC : Bytes
  vS : Bytes

namespace KexState

def early : Error := .protocol "NEWKEYS before KEX completion"
def unexpected : Error := .protocol "unexpected message during KEX"

/- The match on phase and message type. For a group exchange the types 30 and 31 mean other
   messages, so the back end decides which handler runs. -/
def dispatch (msg : UInt8) (payload : Bytes) (io : KexInput S) :
    Proc Error (KexState S P) (List Bytes) := fun s =>
  match s.runner.phase with
  | .sentKexInit =>
    if msg=msgKexInit then handlePeerKexinit payload s else fail unexpected s
  | .negotiated clientState =>
    if msg=msgNewKeys then fail early s
    else match s.runner.role, s.runner.usesGex with
      | .server, false =>
        if msg=msgKexEcdhInit then handleKexInitMessage payload io.hostKey io.vC io.vS s
        else fail unexpected s
      | .client, false =>
        if msg=msgKexEcdhReply then
          handleKexReplyMessage clientState payload io.verifier io.vC io.vS s
        else fail unexpected s
      | .server, true =>
        if msg=msgKexDhGexRequest ∨ msg=msgKexDhGexRequestOld then handleGexRequest payload s
        else fail unexpected s
      | .client, true => fail unexpected s
  | .gexClientAwaitGroup clientState =>
    if msg=msgKexDhGexGroup then handleGexGroup clientState payload s
    else if msg=msgNewKeys then fail early s
    else fail unexpected s
  | .gexServerAwaitInit request group =>
    if msg=msgKexDhGexInit then handleGexInit request group payload io.hostKey io.vC io.vS s
    else if msg=msgNewKeys then fail early s
    else fail unexpected s
  | .gexClientAwaitReply clientState =>
    if msg=msgKexDhGexReply then handleGexReply clientState payload io.verifier io.vC io.vS s
    else if msg=msgNewKeys then fail early s
    else fail unexpected s
  | .awaitingPeerNewKeys =>
    if msg=msgNewKeys then handlePeerNewkeys s else fail unexpected s
  | .idle | .completed => fail unexpected s

/- A packet after a wrong guess is dropped once; under strict-kex nothing but key exchange
   messages may come in between. -/
def onPacket (payload : Bytes) (io : KexInput S) : Proc Error (KexState S P) KexAdvance :=
  match payload with
  | [] => fail (.format "empty payload")
  | msg::_ => do
    modifyRunner (·.noteInboundOther)
    let s ← get
    if s.runner.pendingWrongGuessDiscard ∧ s.runner.phase.discards ∧ 30≤ msg ∧ msg≤49 then
      modifyRunner (·.noteDiscarded)
      return { outbound := [], completed := false }
    else if s.runner.strictKex ∧ s.runner.isKexing ∧ ¬isKexMsg msg then
      fail (.protocol "non-KEX message during strict-kex window")
    else
      let outbound ← dispatch msg payload io
      let s ← get
      return { outbound, completed := s.runner.isCompleted }

end KexState
end PureSsh.Transport
