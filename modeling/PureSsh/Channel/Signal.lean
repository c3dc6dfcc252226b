import PureSsh.Lib.CreditLink
import PureSsh.Channel.Window

/-! The part of a channel message that flow control depends on. -/

namespace PureSsh.Channel
open Lib Reader Writer ConnectionState
open Lib.CreditLink (Sig End)

def ChannelState.toEnd (ch : ChannelState) (id : UInt32) : End UInt32 where
  id := id
  peerId := ch.remoteId
  recvWindow := ch.localWindow.toNat
  sendWindow := ch.remoteWindow.toNat
  recvMax := ch.localMaxPacket.toNat
  sendMax := ch.remoteMaxPacket.toNat
  closed := ch.localClosed
  peerClosed := ch.remoteClosed
  confirmed := ch.openConfirmed
  initiated := ch.initiatedByUs

def Msg.signal : Msg → Option (Sig UInt32)
  | .open _ _ i w m => some (.open i w.toNat m.toNat)
  | .openConfirmation r j w m => some (.confirm r j w.toNat m.toNat)
  | .openFailure r _ _ => some (.refuse r)
  | .windowAdjust r n => some (.credit r n.toNat)
  | .data r bytes | .extendedData r _ bytes => some (.data r bytes.length)
  | .close r => some (.close r)
  | _ => none

/- The same read off the wire. The texts of an open or of a refusal are skipped over here,
   so a signal is in flight even when the receiver will not be able to decode them. -/
def signalBody (msg : UInt8) (r : Bytes) : Result (Option (Sig UInt32)) :=
  if msg=msgChannelOpen then do
    let (_,r) ← readString r
    let (i,r) ← readU32 r
    let (w,r) ← readU32 r
    let (m,_) ← readU32 r
    return some (.open i w.toNat m.toNat)
  else if msg=msgChannelOpenConfirmation then do
    let (id,r) ← readU32 r
    let (j,r) ← readU32 r
    let (w,r) ← readU32 r
    let (m,_) ← readU32 r
    return some (.confirm id j w.toNat m.toNat)
  else if msg=msgChannelOpenFailure then do
    let (id,_) ← readU32 r
    return some (.refuse id)
  else if msg=msgChannelWindowAdjust then do
    let (id,r) ← readU32 r
    let (n,_) ← readU32 r
    return some (.credit id n.toNat)
  else if msg=msgChannelData then do
    let (id,r) ← readU32 r
    let (bytes,_) ← readString r
    return some (.data id bytes.length)
  else if msg=msgChannelExtendedData then do
    let (id,r) ← readU32 r
    let (_,r) ← readU32 r
    let (bytes,_) ← readString r
    return some (.data id bytes.length)
  else if msg=msgChannelClose then do
    let (id,_) ← readU32 r
    return some (.close id)
  else return none

def signal : Bytes → Option (Sig UInt32)
  | [] => none
  | msg::r => match signalBody msg r with
    | .ok s => s
    | .error _ => none

variable {r payload bytes : Bytes}

theorem signal_of_body {msg : UInt8} {s : Option (Sig UInt32)} (h : signalBody msg r = .ok s) :
    signal (msg::r)=s := by
  simp only [signal,h]

theorem readUtf8_ok {text : String} {x : Bytes × Bytes} (h : readUtf8 text r = .ok x) :
    readString r = .ok x := by
  obtain ⟨⟨s,r'⟩,hread,h⟩ := except_bind_eq_ok.1 h
  simp only at h
  split at h
  · cases h
    exact hread
  · cases h

/-- A message that parses gives the signal read off the wire. -/
theorem signal_of_parse {m : Msg} (h : Msg.parse payload = .ok m) : signal payload=m.signal := by
  cases payload with
  | nil => cases h
  | cons msg r =>
    change Msg.parseBody msg r = .ok m at h
    suffices hy : Yields (Msg.parseBody msg r) fun m => signalBody msg r = .ok m.signal from
      signal_of_body (hy m h)
    unfold Msg.parseBody
    refine .ite_of (fun hm => ?_) fun _ => .ite_of (fun hm => ?_) fun _ =>
      .ite_of (fun hm => ?_) fun _ => .ite_of (fun hm => ?_) fun _ =>
      .ite_of (fun hm => ?_) fun _ => .ite_of (fun hm => ?_) fun _ =>
      .ite_of (fun hm => ?_) fun _ => .ite_of (fun hm => ?_) fun _ =>
      .ite_of (fun hm => ?_) fun _ => .ite_of (fun hm => ?_) fun _ =>
      .ite_of (fun hm => ?_) fun _ => .ite_of (fun hm => ?_) fun _ =>
      .ite_of (fun hm => ?_) fun _ => .ite_of (fun hm => ?_) fun _ => .error _
    all_goals subst hm
    · exact .bind_any fun _ => .bind_any fun _ => .bind_any fun _ => .ok rfl
    · exact .ok rfl
    · exact .ok rfl
    · refine .bind_eq fun a ha => .bind_eq fun b hb => .bind_eq fun c hc => .bind_eq fun d hd =>
        .bind_any fun k => .ok ?_
      change (readString r >>= _)=_
      rw [readUtf8_ok ha]
      change (readU32 a.2 >>= _)=_
      rw [hb]
      change (readU32 b.2 >>= _)=_
      rw [hc]
      change (readU32 c.2 >>= _)=_
      rw [hd]
      rfl
    · refine .bind_eq fun a ha => .bind_eq fun b hb => .bind_eq fun c hc => .bind_eq fun d hd =>
        .ok ?_
      change (readU32 r >>= _)=_
      rw [ha]
      change (readU32 a.2 >>= _)=_
      rw [hb]
      change (readU32 b.2 >>= _)=_
      rw [hc]
      change (readU32 c.2 >>= _)=_
      rw [hd]
      rfl
    · refine .bind_eq fun a ha => .bind_any fun _ => .bind_any fun _ => .bind_any fun _ => .ok ?_
      change (readU32 r >>= _)=_
      rw [ha]
      rfl
    · refine .bind_eq fun a ha => .bind_eq fun b hb => .ok ?_
      change (readU32 r >>= _)=_
      rw [ha]
      change (readU32 a.2 >>= _)=_
      rw [hb]
      rfl
    · refine .bind_eq fun a ha => .bind_eq fun b hb => .ok ?_
      change (readU32 r >>= _)=_
      rw [ha]
      change (readString a.2 >>= _)=_
      rw [hb]
      rfl
    · refine .bind_eq fun a ha => .bind_eq fun b hb => .bind_eq fun c hc => .ok ?_
      change (readU32 r >>= _)=_
      rw [ha]
      change (readU32 a.2 >>= _)=_
      rw [hb]
      change (readString b.2 >>= _)=_
      rw [hc]
      rfl
    · exact .bind_any fun _ => .ok rfl
    · refine .bind_eq fun a ha => .ok ?_
      change (readU32 r >>= _)=_
      rw [ha]
      rfl
    · exact .bind_any fun _ => .bind_any fun _ => .bind_any fun _ => .bind_any fun _ => .ok rfl
    · exact .bind_any fun _ => .ok rfl
    · exact .bind_any fun _ => .ok rfl

/-! The signals of what each call sends. -/

theorem signal_openPayload (s : ConnectionState) (id : UInt32) {kind : ChannelOpen}
    (h : kind.kind.length<2^32) : signal (openPayload s id kind) =
      some (.open id s.defaultWindow.toNat s.defaultMaxPacket.toNat) := by
  refine signal_of_body ?_
  change (readString _ >>= _)=_
  simp only [List.append_assoc,readString_writeString h,readU32_be32,except_ok_bind]
  rfl

theorem signal_confirmation (r j w m : UInt32) :
    signal (msgChannelOpenConfirmation::(be32 r++be32 j++be32 w++be32 m)) =
      some (.confirm r j w.toNat m.toNat) := by
  refine signal_of_body ?_
  change (readU32 _ >>= _)=_
  simp only [List.append_assoc,readU32_be32,readU32_be32_end,except_ok_bind]
  rfl

theorem signal_refusal (r : UInt32) (rest : Bytes) :
    signal (msgChannelOpenFailure::(be32 r++rest))=some (.refuse r) := by
  refine signal_of_body ?_
  change (readU32 _ >>= _)=_
  simp only [readU32_be32,except_ok_bind]
  rfl

theorem signalBody_adjust (r : Bytes) : signalBody msgChannelWindowAdjust r =
    readU32 r >>= fun x => readU32 x.2 >>= fun y => .ok (some (.credit x.1 y.1.toNat)) := rfl

theorem signalBody_data (r : Bytes) : signalBody msgChannelData r =
    readU32 r >>= fun x => readString x.2 >>= fun y => .ok (some (.data x.1 y.1.length)) := rfl

theorem signalBody_extendedData (r : Bytes) : signalBody msgChannelExtendedData r =
    readU32 r >>= fun x => readU32 x.2 >>= fun y => readString y.2 >>= fun z =>
      .ok (some (.data x.1 z.1.length)) := rfl

theorem signal_adjust (r n : UInt32) :
    signal (msgChannelWindowAdjust::(be32 r++be32 n))=some (.credit r n.toNat) := by
  refine signal_of_body ?_
  rw [signalBody_adjust,readU32_be32,except_ok_bind,readU32_be32_end,except_ok_bind]

theorem signal_dataPayload (r : UInt32) (h : bytes.length<2^32) :
    signal (dataPayload r bytes)=some (.data r bytes.length) := by
  refine signal_of_body ?_
  rw [signalBody_data,readU32_be32,except_ok_bind,readString_writeString_end h,except_ok_bind]

theorem signal_extendedDataPayload (r code : UInt32) (h : bytes.length<2^32) :
    signal (extendedDataPayload r code bytes)=some (.data r bytes.length) := by
  refine signal_of_body ?_
  rw [signalBody_extendedData,List.append_assoc,readU32_be32,except_ok_bind,readU32_be32,
    except_ok_bind,readString_writeString_end h,except_ok_bind]

theorem signal_close (r : UInt32) : signal (msgChannelClose::be32 r)=some (.close r) := by
  refine signal_of_body ?_
  change (readU32 _ >>= _)=_
  simp only [readU32_be32_end,except_ok_bind]
  rfl

theorem signal_eof (r : UInt32) : signal (msgChannelEof::be32 r)=none := rfl

theorem signal_quiet (h : payload.head?=some msgChannelRequest ∨
    payload.head?=some msgChannelSuccess ∨ payload.head?=some msgChannelFailure) :
    signal payload=none := by
  cases payload with
  | nil => rfl
  | cons msg r =>
    simp only [List.head?_cons,Option.some.injEq] at h
    rcases h with rfl | rfl | rfl <;> rfl

end PureSsh.Channel
