import Mathlib.Data.List.AList
import PureSsh.Lib.Word32
import PureSsh.Channel.Request

/-! The channel multiplexer of one connection (`hazmat/channel/state.rs`). -/

namespace PureSsh.Channel
open Lib Reader Writer Proc

def msgGlobalRequest : UInt8 := 80
def msgRequestSuccess : UInt8 := 81
def msgRequestFailure : UInt8 := 82
def msgChannelOpen : UInt8 := 90
def msgChannelOpenConfirmation : UInt8 := 91
def msgChannelOpenFailure : UInt8 := 92
def msgChannelWindowAdjust : UInt8 := 93
def msgChannelData : UInt8 := 94
def msgChannelExtendedData : UInt8 := 95
def msgChannelEof : UInt8 := 96
def msgChannelClose : UInt8 := 97
def msgChannelRequest : UInt8 := 98
def msgChannelSuccess : UInt8 := 99
def msgChannelFailure : UInt8 := 100
def sshOpenResourceShortage : UInt32 := 4

structure ChannelState where
  localId : UInt32
  remoteId : UInt32
  localWindow : UInt32
  remoteWindow : UInt32
  localMaxPacket : UInt32
  remoteMaxPacket : UInt32
  kind : Str
  localEof : Bool
  remoteEof : Bool
  localClosed : Bool
  remoteClosed : Bool
  initialLocalWindow : UInt32
  pendingReplenish : UInt32
  openConfirmed : Bool
  initiatedByUs : Bool
  activity : UInt64 := 0
  xtype : Option Str := none
  deriving DecidableEq

namespace ChannelState

def isFullyClosed (ch : ChannelState) : Bool := ch.localClosed && ch.remoteClosed
def isOpen (ch : ChannelState) : Bool :=
  ch.openConfirmed && !ch.localClosed && !ch.remoteClosed

end ChannelState

inductive ChannelEvent where
  | openRequest (channel : UInt32) (kind : ChannelOpen)
  | openConfirmed (channel : UInt32)
  | openFailed (channel reason : UInt32) (description : Str)
  | openRejected (payload : Bytes) (reason : UInt32)
  | data (channel : UInt32) (data : Bytes)
  | extendedData (channel code : UInt32) (data : Bytes)
  | windowAdjust (channel added : UInt32)
  | eof (channel : UInt32)
  | close (channel : UInt32)
  | request (channel : UInt32) (request : ChannelRequest) (wantReply : Bool)
  | success (channel : UInt32)
  | failure (channel : UInt32)
  | globalRequest (request : GlobalRequest) (wantReply : Bool)
  | globalSuccess (data : Bytes)
  | globalFailure
  deriving DecidableEq

structure ConnectionState where
  channels : AList fun _ : UInt32 => ChannelState
  nextLocalId : UInt32
  defaultWindow : UInt32
  defaultMaxPacket : UInt32
  maxChannels : UInt32

abbrev Conn (α : Type) := Proc Error ConnectionState α

namespace ConnectionState

def new : ConnectionState where
  channels := ∅
  nextLocalId := 0
  defaultWindow := 2*1024*1024
  defaultMaxPacket := 32*1024
  maxChannels := 256

def channel (s : ConnectionState) (id : UInt32) : Option ChannelState := s.channels.lookup id
def put (id : UInt32) (ch : ChannelState) (s : ConnectionState) : ConnectionState :=
  { s with channels := s.channels.insert id ch }
def remove (id : UInt32) (s : ConnectionState) : ConnectionState :=
  { s with channels := s.channels.erase id }

/- The entry goes away once both sides have sent CLOSE. -/
def putUnlessClosed (id : UInt32) (ch : ChannelState) (s : ConnectionState) : ConnectionState :=
  if ch.isFullyClosed then remove id s else put id ch s

/- The first id at or after `id` that no channel holds. -/
def firstFree (s : ConnectionState) : Nat → UInt32 → Option UInt32
  | 0, _ => none
  | fuel+1, id => if (s.channel id).isNone then some id else s.firstFree fuel (id+1)

/- The loop of the source ends as soon as it meets a free id, and of `n + 1` consecutive ids
   one is free when `n` channels are tracked. -/
def allocateLocalId : Conn UInt32 := do
  let s ← get
  let id ← okOr .hang (s.firstFree (s.channels.keys.length+1) s.nextLocalId)
  modify fun s => { s with nextLocalId := id+1 }
  return id

def getMut (id : UInt32) : Conn ChannelState := do
  let s ← get
  okOr .badChannelState (s.channel id)

def ensureSendable (ch : ChannelState) : Conn Unit :=
  if ch.localClosed || ch.remoteClosed then fail .badChannelState else pure ()

def outbound (s : ConnectionState) (localId : UInt32) (kind : ChannelOpen) : ChannelState :=
  { localId, remoteId := 0, localWindow := s.defaultWindow, remoteWindow := 0,
    localMaxPacket := s.defaultMaxPacket, remoteMaxPacket := 0, kind := kind.kind,
    localEof := false, remoteEof := false, localClosed := false, remoteClosed := false,
    initialLocalWindow := s.defaultWindow, pendingReplenish := 0, openConfirmed := false,
    initiatedByUs := true }

def openPayload (s : ConnectionState) (localId : UInt32) (kind : ChannelOpen) : Bytes :=
  msgChannelOpen::(writeString kind.kind++be32 localId++be32 s.defaultWindow ++
    be32 s.defaultMaxPacket++kind.encodeTail)

def «open» (kind : ChannelOpen) : Conn (UInt32 × Bytes) := do
  let localId ← allocateLocalId
  let s ← get
  modify <| put localId (outbound s localId kind)
  return (localId,openPayload s localId kind)

def acceptOpen (localId : UInt32) : Conn Bytes := do
  let ch ← getMut localId
  if ch.openConfirmed then fail .badChannelState
  else
    modify <| put localId { ch with openConfirmed := true }
    return msgChannelOpenConfirmation::(be32 ch.remoteId++be32 localId ++
      be32 ch.localWindow++be32 ch.localMaxPacket)

def rejectOpen (localId reason : UInt32) (description language : Str) : Conn Bytes := do
  let ch ← getMut localId
  if ch.openConfirmed then fail .badChannelState
  else
    modify <| remove localId
    return msgChannelOpenFailure::(be32 ch.remoteId++be32 reason ++
      writeString description++writeString language)

def sendRequest (channel : UInt32) (req : ChannelRequest) (wantReply : Bool) : Conn Bytes := do
  let ch ← getMut channel
  ensureSendable ch
  return msgChannelRequest::(be32 ch.remoteId++writeString req.name ++
    writeBool wantReply++req.encode)

def sendRequestSuccess (channel : UInt32) : Conn Bytes := do
  let ch ← getMut channel
  return msgChannelSuccess::be32 ch.remoteId

def sendRequestFailure (channel : UInt32) : Conn Bytes := do
  let ch ← getMut channel
  return msgChannelFailure::be32 ch.remoteId

/- Room for a data payload after a message header of `header` bytes: `data_capacity` with 9,
   `extended_data_capacity` with 13. -/
def capacity (header : UInt32) (ch : ChannelState) : Nat :=
  if ch.remoteMaxPacket<header then 0
  else min (ch.remoteMaxPacket.toNat-header.toNat) ch.remoteWindow.toNat

def dataCapacity : ChannelState → Nat := capacity 9
def extendedDataCapacity : ChannelState → Nat := capacity 13

def dataPayload (remoteId : UInt32) (bytes : Bytes) : Bytes :=
  msgChannelData::(be32 remoteId++writeString bytes)

def extendedDataPayload (remoteId code : UInt32) (bytes : Bytes) : Bytes :=
  msgChannelExtendedData::(be32 remoteId++be32 code++writeString bytes)

/- What `send_data` and `send_extended_data` share: as much of `data` as there is room for. -/
def sendChunk (room : ChannelState → Nat) (payload : UInt32 → Bytes → Bytes) (channel : UInt32)
    (data : Bytes) : Conn (Bytes × Nat) := do
  let ch ← getMut channel
  ensureSendable ch
  if ch.localEof then fail .badChannelState
  else
    let take := min data.length (room ch)
    modify <| put channel
      { ch with remoteWindow := satSub ch.remoteWindow (UInt32.ofNat take)
                activity := ch.activity+UInt64.ofNat take }
    return (payload ch.remoteId (data.take take),take)

def sendData (channel : UInt32) (data : Bytes) : Conn (Bytes × Nat) :=
  sendChunk dataCapacity dataPayload channel data

def sendDatagram (channel : UInt32) (data : Bytes) : Conn (Option Bytes) := do
  let ch ← getMut channel
  ensureSendable ch
  if ch.localEof then fail .badChannelState
  else if dataCapacity ch<data.length then return none
  else
    let (payload,_) ← sendData channel data
    return some payload

def sendExtendedData (channel code : UInt32) (data : Bytes) : Conn (Bytes × Nat) :=
  sendChunk extendedDataCapacity (extendedDataPayload · code) channel data

def sendEof (channel : UInt32) : Conn Bytes := do
  let ch ← getMut channel
  if ch.localClosed then fail .badChannelState
  else
    modify <| put channel { ch with localEof := true }
    return msgChannelEof::be32 ch.remoteId

def sendClose (channel : UInt32) : Conn Bytes := do
  let ch ← getMut channel
  if ch.localClosed then fail .badChannelState
  else
    let ch := { ch with localClosed := true }
    modify <| putUnlessClosed channel ch
    return msgChannelClose::be32 ch.remoteId

def sendGlobalRequest (req : GlobalRequest) (wantReply : Bool) : Bytes :=
  msgGlobalRequest::(writeString req.name++writeBool wantReply++req.encode)

/- The credit at which `replenishWindow` flushes. -/
def replenishThreshold (ch : ChannelState) : UInt32 :=
  max (min (ch.initialLocalWindow/2) (satMul ch.localMaxPacket 3)) 1

def replenishWindow (channel by_ : UInt32) : Conn (Option Bytes) := do
  let ch ← getMut channel
  if ch.localClosed then return none
  else if by_=0 then return none
  else
    let pending := satAdd ch.pendingReplenish by_
    if pending<replenishThreshold ch then
      modify <| put channel { ch with pendingReplenish := pending }
      return none
    else
      modify <| put channel
        { ch with pendingReplenish := 0, localWindow := satAdd ch.localWindow pending }
      return some (msgChannelWindowAdjust::(be32 ch.remoteId++be32 pending))

def inbound (s : ConnectionState) (localId : UInt32) (kindName : Str)
    (remoteId window maxPacket : UInt32) : ChannelState :=
  { localId, remoteId, localWindow := s.defaultWindow, remoteWindow := window,
    localMaxPacket := s.defaultMaxPacket, remoteMaxPacket := maxPacket, kind := kindName,
    localEof := false, remoteEof := false, localClosed := false, remoteClosed := false,
    initialLocalWindow := s.defaultWindow, pendingReplenish := 0, openConfirmed := false,
    initiatedByUs := false }

def rejection (remoteId : UInt32) : Bytes :=
  msgChannelOpenFailure::(be32 remoteId++be32 sshOpenResourceShortage ++
    writeString (ascii "channel limit reached")++writeString [])

/- What each handler below does once its message is parsed. -/
def receiveOpen (kindName : Str) (kind : ChannelOpen) (remoteId window maxPacket : UInt32) :
    Conn ChannelEvent := do
  let s ← get
  if s.maxChannels.toNat≤ s.channels.keys.length then
    return .openRejected (rejection remoteId) sshOpenResourceShortage
  else
    let localId ← allocateLocalId
    modify <| put localId (inbound s localId kindName remoteId window maxPacket)
    return .openRequest localId kind

def receiveConfirmation (localId remoteId window maxPacket : UInt32) : Conn ChannelEvent := do
  let s ← get
  let ch ← okOr (.protocol "open-confirm for unknown channel") (s.channel localId)
  if ch.openConfirmed then fail (.protocol "double open-confirm")
  else if !ch.initiatedByUs then
    fail (.protocol "open-confirm for channel not initiated by us")
  else
    modify <| put localId
      { ch with remoteId, remoteWindow := window, remoteMaxPacket := maxPacket,
                openConfirmed := true }
    return .openConfirmed localId

def receiveFailure (localId reason : UInt32) (description : Str) : Conn ChannelEvent := do
  let s ← get
  let ch ← okOr (.protocol "open-failure for unknown channel") (s.channel localId)
  if !ch.initiatedByUs || ch.openConfirmed then
    fail (.protocol "open-failure for channel not pending our open")
  else
    modify <| remove localId
    return .openFailed localId reason description

def receiveAdjust (localId added : UInt32) : Conn ChannelEvent := do
  let ch ← getMut localId
  modify <| put localId { ch with remoteWindow := satAdd ch.remoteWindow added }
  return .windowAdjust localId added

/- `on_channel_data` and `on_extended_data` differ in the text of the error after EOF or close. -/
def receiveData (afterEof : String) (localId : UInt32) (data : Bytes) : Conn Unit := do
  let ch ← getMut localId
  if !ch.openConfirmed then fail (.protocol "channel not yet open")
  else if ch.remoteEof || ch.remoteClosed then fail (.protocol afterEof)
  else
    let len := UInt32.ofNat data.length
    if ch.localWindow<len then fail (.protocol "peer exceeded advertised window")
    else if ch.localMaxPacket<len then fail (.protocol "peer exceeded max packet")
    else
      modify <| put localId
        { ch with localWindow := ch.localWindow-len, activity := ch.activity+len.toUInt64 }

def receiveEof (localId : UInt32) : Conn ChannelEvent := do
  let ch ← getMut localId
  if !ch.openConfirmed then fail (.protocol "channel not yet open")
  else
    modify <| put localId { ch with remoteEof := true }
    return .eof localId

def receiveClose (localId : UInt32) : Conn ChannelEvent := do
  let ch ← getMut localId
  if !ch.openConfirmed then fail (.protocol "channel not yet open")
  else
    let ch := { ch with remoteClosed := true }
    modify <| putUnlessClosed localId ch
    return .close localId

def receiveRequest (localId : UInt32) (request : ChannelRequest) (wantReply : Bool) :
    Conn ChannelEvent := do
  let ch ← getMut localId
  if !ch.openConfirmed then fail (.protocol "channel not yet open")
  else return .request localId request wantReply

def onGlobalRequest (r : Bytes) : Conn ChannelEvent := do
  let (name,r) ← lift (readUtf8 "invalid utf-8" r)
  let (wantReply,tail) ← lift (readBool r)
  let request ← lift (GlobalRequest.decode name tail)
  return .globalRequest request wantReply

def onChannelOpen (r : Bytes) : Conn ChannelEvent := do
  let (kindName,r) ← lift (readUtf8 "invalid utf-8" r)
  let (remoteId,r) ← lift (readU32 r)
  let (initialWindow,r) ← lift (readU32 r)
  let (maxPacket,tail) ← lift (readU32 r)
  let kind ← lift (ChannelOpen.decode kindName tail)
  receiveOpen kindName kind remoteId initialWindow maxPacket

def onOpenConfirmation (r : Bytes) : Conn ChannelEvent := do
  let (localId,r) ← lift (readU32 r)
  let (remoteId,r) ← lift (readU32 r)
  let (initialWindow,r) ← lift (readU32 r)
  let (maxPacket,_) ← lift (readU32 r)
  receiveConfirmation localId remoteId initialWindow maxPacket

def onOpenFailure (r : Bytes) : Conn ChannelEvent := do
  let (localId,r) ← lift (readU32 r)
  let (reason,r) ← lift (readU32 r)
  let (description,r) ←
    lift (readUtf8 "invalid utf-8 in open-failure description" r)
  let (_,_) ← lift (readString r)
  receiveFailure localId reason description

def onWindowAdjust (r : Bytes) : Conn ChannelEvent := do
  let (localId,r) ← lift (readU32 r)
  let (added,_) ← lift (readU32 r)
  receiveAdjust localId added

def onChannelData (r : Bytes) : Conn ChannelEvent := do
  let (localId,r) ← lift (readU32 r)
  let (data,_) ← lift (readString r)
  receiveData "data after EOF/close" localId data
  return .data localId data

def onExtendedData (r : Bytes) : Conn ChannelEvent := do
  let (localId,r) ← lift (readU32 r)
  let (code,r) ← lift (readU32 r)
  let (data,_) ← lift (readString r)
  receiveData "extended data after EOF/close" localId data
  return .extendedData localId code data

def onChannelEof (r : Bytes) : Conn ChannelEvent := do
  let (localId,_) ← lift (readU32 r)
  receiveEof localId

def onChannelClose (r : Bytes) : Conn ChannelEvent := do
  let (localId,_) ← lift (readU32 r)
  receiveClose localId

def onChannelRequest (r : Bytes) : Conn ChannelEvent := do
  let (localId,r) ← lift (readU32 r)
  let (name,r) ← lift (readUtf8 "invalid utf-8" r)
  let (wantReply,tail) ← lift (readBool r)
  let request ← lift (ChannelRequest.decode name tail)
  receiveRequest localId request wantReply

def onChannelSuccess (r : Bytes) : Conn ChannelEvent := do
  let (localId,_) ← lift (readU32 r)
  let _ ← getMut localId
  return .success localId

def onChannelFailure (r : Bytes) : Conn ChannelEvent := do
  let (localId,_) ← lift (readU32 r)
  let _ ← getMut localId
  return .failure localId

def onPacket (payload : Bytes) : Conn ChannelEvent := do
  let (msg,r) ← lift (readU8 payload)
  if msg=msgGlobalRequest then onGlobalRequest r
  else if msg=msgRequestSuccess then return .globalSuccess r
  else if msg=msgRequestFailure then return .globalFailure
  else if msg=msgChannelOpen then onChannelOpen r
  else if msg=msgChannelOpenConfirmation then onOpenConfirmation r
  else if msg=msgChannelOpenFailure then onOpenFailure r
  else if msg=msgChannelWindowAdjust then onWindowAdjust r
  else if msg=msgChannelData then onChannelData r
  else if msg=msgChannelExtendedData then onExtendedData r
  else if msg=msgChannelEof then onChannelEof r
  else if msg=msgChannelClose then onChannelClose r
  else if msg=msgChannelRequest then onChannelRequest r
  else if msg=msgChannelSuccess then onChannelSuccess r
  else if msg=msgChannelFailure then onChannelFailure r
  else fail (.protocol "unexpected message for channel layer")

end ConnectionState
end PureSsh.Channel
