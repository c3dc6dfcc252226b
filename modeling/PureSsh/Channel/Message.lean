import PureSsh.Channel.State

/-! Inbound channel messages as values: `onPacket` is a parse followed by an action on the
channel table. -/

namespace PureSsh.Channel
open Lib Reader Writer ConnectionState Proc

inductive Msg where
  | globalRequest (request : GlobalRequest) (wantReply : Bool)
  | globalSuccess (data : Bytes)
  | globalFailure
  | «open» (kindName : Str) (kind : ChannelOpen) (remoteId window maxPacket : UInt32)
  | openConfirmation (localId remoteId window maxPacket : UInt32)
  | openFailure (localId reason : UInt32) (description : Str)
  | windowAdjust (localId added : UInt32)
  | data (localId : UInt32) (data : Bytes)
  | extendedData (localId code : UInt32) (data : Bytes)
  | eof (localId : UInt32)
  | close (localId : UInt32)
  | request (localId : UInt32) (request : ChannelRequest) (wantReply : Bool)
  | success (localId : UInt32)
  | failure (localId : UInt32)

namespace Msg

def parseBody (msg : UInt8) (r : Bytes) : Result Msg :=
  if msg=msgGlobalRequest then do
    let (name,r) ← readUtf8 "invalid utf-8" r
    let (wantReply,tail) ← readBool r
    let req ← GlobalRequest.decode name tail
    return .globalRequest req wantReply
  else if msg=msgRequestSuccess then return .globalSuccess r
  else if msg=msgRequestFailure then return .globalFailure
  else if msg=msgChannelOpen then do
    let (kindName,r) ← readUtf8 "invalid utf-8" r
    let (remoteId,r) ← readU32 r
    let (window,r) ← readU32 r
    let (maxPacket,tail) ← readU32 r
    let kind ← ChannelOpen.decode kindName tail
    return .open kindName kind remoteId window maxPacket
  else if msg=msgChannelOpenConfirmation then do
    let (localId,r) ← readU32 r
    let (remoteId,r) ← readU32 r
    let (window,r) ← readU32 r
    let (maxPacket,_) ← readU32 r
    return .openConfirmation localId remoteId window maxPacket
  else if msg=msgChannelOpenFailure then do
    let (localId,r) ← readU32 r
    let (reason,r) ← readU32 r
    let (description,r) ← readUtf8 "invalid utf-8 in open-failure description" r
    let (_,_) ← readString r
    return .openFailure localId reason description
  else if msg=msgChannelWindowAdjust then do
    let (localId,r) ← readU32 r
    let (added,_) ← readU32 r
    return .windowAdjust localId added
  else if msg=msgChannelData then do
    let (localId,r) ← readU32 r
    let (bytes,_) ← readString r
    return .data localId bytes
  else if msg=msgChannelExtendedData then do
    let (localId,r) ← readU32 r
    let (code,r) ← readU32 r
    let (bytes,_) ← readString r
    return .extendedData localId code bytes
  else if msg=msgChannelEof then do
    let (localId,_) ← readU32 r
    return .eof localId
  else if msg=msgChannelClose then do
    let (localId,_) ← readU32 r
    return .close localId
  else if msg=msgChannelRequest then do
    let (localId,r) ← readU32 r
    let (name,r) ← readUtf8 "invalid utf-8" r
    let (wantReply,tail) ← readBool r
    let req ← ChannelRequest.decode name tail
    return .request localId req wantReply
  else if msg=msgChannelSuccess then do
    let (localId,_) ← readU32 r
    return .success localId
  else if msg=msgChannelFailure then do
    let (localId,_) ← readU32 r
    return .failure localId
  else .error (.protocol "unexpected message for channel layer")

def parse (payload : Bytes) : Result Msg := do
  let (msg,r) ← readU8 payload
  parseBody msg r

/- The action of each parsed message on the channel table. -/
def handle : Msg → Conn ChannelEvent
  | .globalRequest req wantReply => return .globalRequest req wantReply
  | .globalSuccess bytes => return .globalSuccess bytes
  | .globalFailure => return .globalFailure
  | .open kindName kind remoteId window maxPacket =>
    receiveOpen kindName kind remoteId window maxPacket
  | .openConfirmation localId remoteId window maxPacket =>
    receiveConfirmation localId remoteId window maxPacket
  | .openFailure localId reason description => receiveFailure localId reason description
  | .windowAdjust localId added => receiveAdjust localId added
  | .data localId bytes => do
    receiveData "data after EOF/close" localId bytes
    return .data localId bytes
  | .extendedData localId code bytes => do
    receiveData "extended data after EOF/close" localId bytes
    return .extendedData localId code bytes
  | .eof localId => receiveEof localId
  | .close localId => receiveClose localId
  | .request localId req wantReply => receiveRequest localId req wantReply
  | .success localId => do
    let _ ← getMut localId
    return .success localId
  | .failure localId => do
    let _ ← getMut localId
    return .failure localId

/- Reading never touches the table, so a lifted read commutes out of an action. -/
theorem lift_bind_lift {α β γ : Type} (x : Result α) (f : α → Result β) (g : β → Conn γ) :
    (lift (x >>= f) >>= g : Conn γ)=lift x >>= fun a => lift (f a) >>= g := by
  cases x <;> rfl

theorem lift_ite_bind {α γ : Type} (c : Prop) [Decidable c] (x y : Result α) (g : α → Conn γ) :
    (lift (if c then x else y) >>= g : Conn γ)=if c then lift x >>= g else lift y >>= g := by
  split <;> rfl

/-- The source's handler is the parse followed by the action. -/
theorem onPacket_eq (payload : Bytes) : onPacket payload=lift (parse payload) >>= handle := by
  cases payload with
  | nil => rfl
  | cons msg r =>
    change _=lift (parseBody msg r) >>= handle
    simp only [parseBody,lift_ite_bind,lift_bind_lift]
    rfl

/- The data bytes of a message. -/
def bytes? : Msg → Option Bytes
  | .data _ bytes | .extendedData _ _ bytes => some bytes
  | _ => none

def Sized (m : Msg) : Prop := ∀ bytes∈m.bytes?, bytes.length<2^32

theorem sized_of_none {m : Msg} (h : m.bytes?=none) : m.Sized := by
  simp [Sized,h]

/-- A parsed message carries fewer than `2 ^ 32` data bytes. -/
theorem parse_sized (payload : Bytes) : Yields (parse payload) Sized := by
  refine .bind_any fun x => ?_
  -- one case per message type; only the two data messages carry bytes
  refine .ite (.bind_any fun _ => .bind_any fun _ => .bind_any fun _ =>
    .ok (sized_of_none rfl)) ?_
  refine .ite (.ok (sized_of_none rfl)) (.ite (.ok (sized_of_none rfl)) ?_)
  refine .ite (.bind_any fun _ => .bind_any fun _ => .bind_any fun _ => .bind_any fun _ =>
    .bind_any fun _ => .ok (sized_of_none rfl)) ?_
  refine .ite (.bind_any fun _ => .bind_any fun _ => .bind_any fun _ => .bind_any fun _ =>
    .ok (sized_of_none rfl)) ?_
  refine .ite (.bind_any fun _ => .bind_any fun _ => .bind_any fun _ => .bind_any fun _ =>
    .ok (sized_of_none rfl)) ?_
  refine .ite (.bind_any fun _ => .bind_any fun _ => .ok (sized_of_none rfl)) ?_
  refine .ite (.bind_any fun _ => .bind (readString_length _) fun a ha => .ok ?_) ?_
  · rintro bytes ⟨⟩
    exact ha
  refine .ite (.bind_any fun _ => .bind_any fun _ =>
    .bind (readString_length _) fun a ha => .ok ?_) ?_
  · rintro bytes ⟨⟩
    exact ha
  refine .ite (.bind_any fun _ => .ok (sized_of_none rfl)) ?_
  refine .ite (.bind_any fun _ => .ok (sized_of_none rfl)) ?_
  refine .ite (.bind_any fun _ => .bind_any fun _ => .bind_any fun _ => .bind_any fun _ =>
    .ok (sized_of_none rfl)) ?_
  refine .ite (.bind_any fun _ => .ok (sized_of_none rfl)) ?_
  exact .ite (.bind_any fun _ => .ok (sized_of_none rfl)) (.error _)

/-- What does not parse is malformed or has an unknown message number. -/
theorem parse_raises (payload : Bytes) : Raises (parse payload) fun e =>
    (∃ msg, e = .format msg) ∨ e = .protocol "unexpected message for channel layer" := by
  have format {α : Type} {x : Result α} (h : Malformed x) : Raises x fun e =>
      (∃ msg, e = .format msg) ∨ e = .protocol "unexpected message for channel layer" :=
    h.mono fun _ => .inl
  refine .bind (format (.readU8 payload)) fun x => ?_
  refine .ite (format (.utf8 fun _ => .bool fun _ =>
    .bind (GlobalRequest.decode_malformed _ _) fun _ => .ok _)) ?_
  refine .ite (.ok _) (.ite (.ok _) ?_)
  refine .ite (format (.utf8 fun _ => .u32 fun _ => .u32 fun _ => .u32 fun _ =>
    .bind (ChannelOpen.decode_malformed _ _) fun _ => .ok _)) ?_
  refine .ite (format (.u32 fun _ => .u32 fun _ => .u32 fun _ => .u32 fun _ => .ok _)) ?_
  refine .ite (format (.u32 fun _ => .u32 fun _ => .utf8 fun _ => .string fun _ => .ok _)) ?_
  refine .ite (format (.u32 fun _ => .u32 fun _ => .ok _)) ?_
  refine .ite (format (.u32 fun _ => .string fun _ => .ok _)) ?_
  refine .ite (format (.u32 fun _ => .u32 fun _ => .string fun _ => .ok _)) ?_
  refine .ite (format (.u32 fun _ => .ok _)) (.ite (format (.u32 fun _ => .ok _)) ?_)
  refine .ite (format (.u32 fun _ => .utf8 fun _ => .bool fun _ =>
    .bind (ChannelRequest.decode_malformed _ _) fun _ => .ok _)) ?_
  refine .ite (format (.u32 fun _ => .ok _)) (.ite (format (.u32 fun _ => .ok _)) ?_)
  exact .error (.inr rfl)

end Msg
end PureSsh.Channel
