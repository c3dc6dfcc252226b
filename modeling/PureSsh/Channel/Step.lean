import PureSsh.Channel.Message

/-! What one call or one inbound message can do to the channel table. -/

namespace PureSsh.Channel
open Lib Reader Writer ConnectionState

namespace ConnectionState
variable (s : ConnectionState) (id id' : UInt32) (ch : ChannelState)

@[simp] theorem channel_put_self : (put id ch s).channel id=some ch := by
  simp [put,channel]

theorem channel_put_ne (h : id'≠id) : (put id ch s).channel id'=s.channel id' := by
  simp [put,channel,AList.lookup_insert_ne h]

@[simp] theorem channel_remove_self : (remove id s).channel id=none := by
  simp [remove,channel]

theorem channel_remove_ne (h : id'≠id) : (remove id s).channel id'=s.channel id' := by
  simp [remove,channel,AList.lookup_erase_ne h]

theorem putUnlessClosed_of_open (h : ch.isFullyClosed=false) :
    putUnlessClosed id ch s=put id ch s := by
  simp [putUnlessClosed,h]

theorem putUnlessClosed_of_closed (h : ch.isFullyClosed=true) :
    putUnlessClosed id ch s=remove id s := by
  simp [putUnlessClosed,h]

end ConnectionState

variable {id id' : UInt32} {s s' : ConnectionState} {ch ch' : ChannelState}

theorem channel_put_cases (h : (put id ch s).channel id'=some ch') :
    id'=id ∧ ch'=ch ∨ id'≠id ∧ s.channel id'=some ch' := by
  by_cases hid : id'=id
  · subst hid
    rw [channel_put_self] at h
    cases h
    exact .inl ⟨rfl,rfl⟩
  · rw [channel_put_ne _ _ _ _ hid] at h
    exact .inr ⟨hid,h⟩

theorem channel_remove_cases (h : (remove id s).channel id'=some ch) : s.channel id'=some ch := by
  by_cases hid : id'=id
  · subst hid
    rw [channel_remove_self] at h
    cases h
  · rwa [channel_remove_ne _ _ _ hid] at h

theorem firstFree_none {fuel : Nat} {start : UInt32} (h : s.firstFree fuel start=some id) :
    s.channel id=none := by
  induction fuel generalizing start with
  | zero => cases h
  | succ fuel ih =>
    rw [firstFree] at h
    split at h
    · next hfree =>
      cases h
      exact Option.isNone_iff_eq_none.1 hfree
    · exact ih h

section Settles
open Proc (Settles)
variable {α : Type} {Q : α → ConnectionState → Prop}

theorem allocateLocalId_settles : Settles allocateLocalId s fun id s' =>
    s.channel id=none ∧ s' = { s with nextLocalId := id+1 } :=
  .okOr_bind fun _ hfree => .modify_pure ⟨firstFree_none hfree,rfl⟩

/-- A procedure that starts by looking up a channel. -/
theorem getMut_settles {f : ChannelState → Conn α}
    (h : ∀ ch, s.channel id=some ch → Settles (f ch) s Q) : Settles (getMut id >>= f) s Q := by
  rw [Proc.Settles,getMut,Proc.bind_apply,Proc.get_bind]
  exact Settles.okOr_bind h

theorem ensureSendable_settles {f : Unit → Conn α}
    (h : ch.localClosed=false → ch.remoteClosed=false → Settles (f ()) s Q) :
    Settles (ensureSendable ch >>= f) s Q := by
  rw [ensureSendable]
  cases hl : ch.localClosed with
  | true => exact .of_fail _
  | false =>
    cases hr : ch.remoteClosed with
    | true => exact .of_fail _
    | false => exact h hl hr

end Settles

/- Messages that read the table and change nothing. -/
def Msg.idle : Msg → Bool
  | .globalRequest .. | .globalSuccess .. | .globalFailure => true
  | .request .. | .success .. | .failure .. => true
  | _ => false

/- The data bytes an event hands to the caller on channel `id`. -/
def ChannelEvent.delivered (id : UInt32) : ChannelEvent → Nat
  | .data channel bytes => if channel=id then bytes.length else 0
  | .extendedData channel _ bytes => if channel=id then bytes.length else 0
  | _ => 0

/- The channel an event announces for the first time. -/
def ChannelEvent.opened : ChannelEvent → Option UInt32
  | .openRequest channel _ => some channel
  | _ => none

/- The payload of an `OpenRejected` event is for the caller to forward. -/
def ChannelEvent.reply : ChannelEvent → List Bytes
  | .openRejected payload _ => [payload]
  | _ => []

/- Every way in which `handle` succeeds. -/
inductive Handled (s : ConnectionState) : Msg → ChannelEvent → ConnectionState → Prop where
  | idle (m : Msg) (ev : ChannelEvent) (hm : m.idle=true)
      (hd : ∀ id, ev.delivered id=0) (ho : ev.opened=none)
      (hr : ev.reply=[]) : Handled s m ev s
  | rejected (name : Str) (kind : ChannelOpen) (remoteId window maxPacket : UInt32)
      (hfull : s.maxChannels.toNat≤ s.channels.keys.length) :
      Handled s (.open name kind remoteId window maxPacket)
        (.openRejected (rejection remoteId) sshOpenResourceShortage) s
  | requested (name : Str) (kind : ChannelOpen) (remoteId window maxPacket id : UInt32)
      (hfree : s.channel id=none) :
      Handled s (.open name kind remoteId window maxPacket) (.openRequest id kind)
        (put id (inbound s id name remoteId window maxPacket) { s with nextLocalId := id+1 })
  | confirmed (id remoteId window maxPacket : UInt32) (ch : ChannelState)
      (hch : s.channel id=some ch) (hc : ch.openConfirmed=false)
      (hi : ch.initiatedByUs=true) :
      Handled s (.openConfirmation id remoteId window maxPacket) (.openConfirmed id)
        (put id { ch with remoteId, remoteWindow := window, remoteMaxPacket := maxPacket,
                          openConfirmed := true } s)
  | failed (id reason : UInt32) (description : Str) (ch : ChannelState)
      (hch : s.channel id=some ch) (hc : ch.openConfirmed=false)
      (hi : ch.initiatedByUs=true) :
      Handled s (.openFailure id reason description) (.openFailed id reason description)
        (remove id s)
  | adjusted (id added : UInt32) (ch : ChannelState) (hch : s.channel id=some ch) :
      Handled s (.windowAdjust id added) (.windowAdjust id added)
        (put id { ch with remoteWindow := satAdd ch.remoteWindow added } s)
  | received (m : Msg) (ev : ChannelEvent) (id : UInt32) (bytes : Bytes) (ch : ChannelState)
      (hm : m = .data id bytes ∧ ev = .data id bytes ∨
        ∃ code, m = .extendedData id code bytes ∧ ev = .extendedData id code bytes)
      (hch : s.channel id=some ch) (hc : ch.openConfirmed=true)
      (hr : ch.remoteClosed=false)
      (hw : ¬ch.localWindow<UInt32.ofNat bytes.length) :
      Handled s m ev (put id { ch with
          localWindow := ch.localWindow-UInt32.ofNat bytes.length
          activity := ch.activity+(UInt32.ofNat bytes.length).toUInt64 } s)
  | eof (id : UInt32) (ch : ChannelState) (hch : s.channel id=some ch) :
      Handled s (.eof id) (.eof id) (put id { ch with remoteEof := true } s)
  | closed (id : UInt32) (ch : ChannelState) (hch : s.channel id=some ch)
      (hc : ch.openConfirmed=true) (hl : ch.localClosed=false) :
      Handled s (.close id) (.close id) (put id { ch with remoteClosed := true } s)
  | finished (id : UInt32) (ch : ChannelState) (hch : s.channel id=some ch)
      (hc : ch.openConfirmed=true) (hl : ch.localClosed=true) :
      Handled s (.close id) (.close id) (remove id s)

section Settles
open Proc (Settles)

theorem receiveData_settles {afterEof : String} {bytes : Bytes} :
    Settles (receiveData afterEof id bytes) s fun _ s' => ∃ ch, s.channel id=some ch ∧
      ch.openConfirmed=true ∧ ch.remoteClosed=false ∧
      ¬ch.localWindow<UInt32.ofNat bytes.length ∧ s'=put id { ch with
        localWindow := ch.localWindow-UInt32.ofNat bytes.length
        activity := ch.activity+(UInt32.ofNat bytes.length).toUInt64 } s := by
  refine getMut_settles fun ch hch => .check fun hconf => .check fun heof => .check fun hw =>
    .check fun _ => .inr ⟨(),_,rfl,ch,hch,by simpa using hconf,?_,hw,rfl⟩
  simp only [Bool.or_eq_true,not_or,Bool.not_eq_true] at heof
  exact heof.2

/-- What a message does, once and for all: a refused one leaves the table as it was. -/
theorem handle_settles (m : Msg) : Settles m.handle s (Handled s m) := by
  cases m with
  | globalRequest | globalSuccess | globalFailure =>
    exact .of_pure (.idle _ _ rfl (fun _ => rfl) rfl rfl)
  | «open» name kind remoteId window maxPacket =>
    refine Settles.ite (fun hfull => .of_pure (.rejected _ _ _ _ _ hfull)) fun _ => ?_
    refine allocateLocalId_settles.bind_total ?_
    rintro id _ ⟨hfree,rfl⟩
    exact ⟨_,_,rfl,.requested _ _ _ _ _ _ hfree⟩
  | openConfirmation id remoteId window maxPacket =>
    refine Settles.okOr_bind fun ch hch => .check fun hc => .check fun hi => .modify_pure ?_
    exact .confirmed _ _ _ _ ch hch (by simpa using hc) (by simpa using hi)
  | openFailure id reason description =>
    refine Settles.okOr_bind fun ch hch => .check fun hc => .modify_pure ?_
    simp only [Bool.or_eq_true,Bool.not_eq_true',not_or,Bool.not_eq_false,Bool.not_eq_true] at hc
    exact .failed _ _ _ ch hch hc.2 hc.1
  | windowAdjust id added =>
    exact getMut_settles fun ch hch => .modify_pure (.adjusted _ _ ch hch)
  | data id bytes =>
    refine receiveData_settles.bind_total ?_
    rintro _ _ ⟨ch,hch,hc,hr,hw,rfl⟩
    exact ⟨_,_,rfl,.received _ _ id bytes ch (.inl ⟨rfl,rfl⟩) hch hc hr hw⟩
  | extendedData id code bytes =>
    refine receiveData_settles.bind_total ?_
    rintro _ _ ⟨ch,hch,hc,hr,hw,rfl⟩
    exact ⟨_,_,rfl,.received _ _ id bytes ch (.inr ⟨code,rfl,rfl⟩) hch hc hr hw⟩
  | eof id => exact getMut_settles fun ch hch => .check fun _ => .modify_pure (.eof _ ch hch)
  | close id =>
    refine getMut_settles fun ch hch => .check fun hc => .modify_pure ?_
    have hc : ch.openConfirmed=true := by simpa using hc
    rcases Bool.eq_false_or_eq_true ch.localClosed with hl | hl
    · rw [putUnlessClosed_of_closed _ _ _ (by simp [ChannelState.isFullyClosed,hl])]
      exact .finished _ ch hch hc hl
    · rw [putUnlessClosed_of_open _ _ _ (by simp [ChannelState.isFullyClosed,hl])]
      exact .closed _ ch hch hc hl
  | request id req wantReply =>
    exact getMut_settles fun ch _ => .check fun _ => .of_pure (.idle _ _ rfl (fun _ => rfl) rfl rfl)
  | success | failure =>
    exact getMut_settles fun ch _ => .of_pure (.idle _ _ rfl (fun _ => rfl) rfl rfl)

end Settles

theorem onPacket_settles (payload : Bytes) : Proc.Settles (onPacket payload) s fun ev s' =>
    ∃ m, Msg.parse payload = .ok m ∧ Handled s m ev s' := by
  rw [Msg.onPacket_eq]
  cases hparse : Msg.parse payload with
  | error e => exact .of_fail e
  | ok m =>
    exact (handle_settles m).imp_right fun ⟨ev,s',hrun,h⟩ => ⟨ev,s',hrun,m,rfl,h⟩

/- The calls a frontend makes on its side of the connection. -/
inductive Call where
  | «open» (kind : ChannelOpen)
  | acceptOpen (id : UInt32)
  | rejectOpen (id reason : UInt32) (description language : Str)
  | sendRequest (id : UInt32) (req : ChannelRequest) (wantReply : Bool)
  | sendRequestSuccess (id : UInt32)
  | sendRequestFailure (id : UInt32)
  | sendData (id : UInt32) (bytes : Bytes)
  | sendDatagram (id : UInt32) (bytes : Bytes)
  | sendExtendedData (id code : UInt32) (bytes : Bytes)
  | sendEof (id : UInt32)
  | sendClose (id : UInt32)
  | replenishWindow (id amount : UInt32)

/- What a call leaves to be sent, and the channel it created. -/
structure Output where
  wire : Option Bytes
  opened : Option UInt32

def execCall : Call → Conn Output
  | .open kind => do
    let (id,payload) ← ConnectionState.open kind
    return ⟨some payload,some id⟩
  | .acceptOpen id => do return ⟨some (← acceptOpen id),none⟩
  | .rejectOpen id reason description language => do
    return ⟨some (← rejectOpen id reason description language),none⟩
  | .sendRequest id req wantReply => do return ⟨some (← sendRequest id req wantReply),none⟩
  | .sendRequestSuccess id => do return ⟨some (← sendRequestSuccess id),none⟩
  | .sendRequestFailure id => do return ⟨some (← sendRequestFailure id),none⟩
  | .sendData id bytes => do return ⟨some (← sendData id bytes).1,none⟩
  | .sendDatagram id bytes => do return ⟨← sendDatagram id bytes,none⟩
  | .sendExtendedData id code bytes => do return ⟨some (← sendExtendedData id code bytes).1,none⟩
  | .sendEof id => do return ⟨some (← sendEof id),none⟩
  | .sendClose id => do return ⟨some (← sendClose id),none⟩
  | .replenishWindow id amount => do return ⟨← replenishWindow id amount,none⟩

namespace Call

/- The channel a call is about; `open` makes its own. -/
def subject : Call → Option UInt32
  | .open _ => none
  | .acceptOpen id | .rejectOpen id .. | .sendRequest id .. | .sendRequestSuccess id
  | .sendRequestFailure id | .sendData id _ | .sendDatagram id _ | .sendExtendedData id ..
  | .sendEof id | .sendClose id | .replenishWindow id _ => some id

/- The message a call produces. -/
@[simp] def message : Call → UInt8
  | .open _ => msgChannelOpen
  | .acceptOpen _ => msgChannelOpenConfirmation
  | .rejectOpen .. => msgChannelOpenFailure
  | .sendRequest .. => msgChannelRequest
  | .sendRequestSuccess _ => msgChannelSuccess
  | .sendRequestFailure _ => msgChannelFailure
  | .sendData .. | .sendDatagram .. => msgChannelData
  | .sendExtendedData .. => msgChannelExtendedData
  | .sendEof _ => msgChannelEof
  | .sendClose _ => msgChannelClose
  | .replenishWindow .. => msgChannelWindowAdjust

@[simp] def isAccept : Call → Bool
  | .acceptOpen _ => true
  | _ => false

@[simp] def isReject : Call → Bool
  | .rejectOpen .. => true
  | _ => false

@[simp] def isEof : Call → Bool
  | .sendEof _ => true
  | _ => false

@[simp] def isClose : Call → Bool
  | .sendClose _ => true
  | _ => false

/- The calls that send data. -/
@[simp] def isData : Call → Bool
  | .sendData .. | .sendDatagram .. | .sendExtendedData .. => true
  | _ => false

/- The two replies to a request, which look at nothing but the remote id. -/
@[simp] def isReply : Call → Bool
  | .sendRequestSuccess _ | .sendRequestFailure _ => true
  | _ => false

end Call

/- Every way in which a call succeeds. -/
inductive Called (s : ConnectionState) : Call → Output → ConnectionState → Prop where
  | quiet (c : Call) (id : UInt32) (ch : ChannelState) (wire : Option Bytes)
      (hsub : c.subject=some id) (hch : s.channel id=some ch)
      (hc : (c.isAccept || c.isReject || c.isEof || c.isClose)=false)
      (hw : ∀ payload∈wire, (c.message=msgChannelRequest ∨ c.message=msgChannelSuccess ∨
        c.message=msgChannelFailure) ∧ (∃ rest, payload=c.message::(be32 ch.remoteId++rest)) ∧
        (c.isReply=false → ch.localClosed=false))
      (he : c.isData=true → ch.localEof=false)
      (hr : ∀ id amount, c = .replenishWindow id amount → amount=0 ∨ ch.localClosed=true) :
      Called s c ⟨wire,none⟩ s
  | opened (kind : ChannelOpen) (id : UInt32) (hfree : s.channel id=none) :
      Called s (.open kind) ⟨some (openPayload s id kind),some id⟩
        (put id (outbound s id kind) { s with nextLocalId := id+1 })
  | accepted (id : UInt32) (ch : ChannelState) (hch : s.channel id=some ch)
      (hc : ch.openConfirmed=false) :
      Called s (.acceptOpen id) ⟨some (msgChannelOpenConfirmation::(be32 ch.remoteId++be32 id ++
          be32 ch.localWindow++be32 ch.localMaxPacket)),none⟩
        (put id { ch with openConfirmed := true } s)
  | rejected (id reason : UInt32) (description language : Str) (ch : ChannelState)
      (hch : s.channel id=some ch) (hc : ch.openConfirmed=false) :
      Called s (.rejectOpen id reason description language)
        ⟨some (msgChannelOpenFailure::(be32 ch.remoteId++be32 reason ++
          writeString description++writeString language)),none⟩
        (remove id s)
  | sent (c : Call) (id : UInt32) (ch : ChannelState) (bytes payload : Bytes)
      (hp : (∃ data, c = .sendData id data ∨ c = .sendDatagram id data) ∧
          payload=dataPayload ch.remoteId bytes ∨
        ∃ code data, c = .sendExtendedData id code data ∧
          payload=extendedDataPayload ch.remoteId code bytes)
      (hch : s.channel id=some ch) (hl : ch.localClosed=false) (he : ch.localEof=false)
      (hw : bytes.length≤ch.remoteWindow.toNat)
      (hm : bytes.length≤ch.remoteMaxPacket.toNat) :
      Called s c ⟨some payload,none⟩ (put id { ch with
          remoteWindow := satSub ch.remoteWindow (UInt32.ofNat bytes.length)
          activity := ch.activity+UInt64.ofNat bytes.length } s)
  | eof (id : UInt32) (ch : ChannelState) (hch : s.channel id=some ch)
      (hl : ch.localClosed=false) :
      Called s (.sendEof id) ⟨some (msgChannelEof::be32 ch.remoteId),none⟩
        (put id { ch with localEof := true } s)
  | closed (id : UInt32) (ch : ChannelState) (hch : s.channel id=some ch)
      (hl : ch.localClosed=false) (hr : ch.remoteClosed=false) :
      Called s (.sendClose id) ⟨some (msgChannelClose::be32 ch.remoteId),none⟩
        (put id { ch with localClosed := true } s)
  | finished (id : UInt32) (ch : ChannelState) (hch : s.channel id=some ch)
      (hl : ch.localClosed=false) (hr : ch.remoteClosed=true) :
      Called s (.sendClose id) ⟨some (msgChannelClose::be32 ch.remoteId),none⟩ (remove id s)
  | held (id amount : UInt32) (ch : ChannelState) (hch : s.channel id=some ch)
      (hl : ch.localClosed=false) (hz : amount≠0)
      (ht : satAdd ch.pendingReplenish amount<replenishThreshold ch) :
      Called s (.replenishWindow id amount) ⟨none,none⟩
        (put id { ch with pendingReplenish := satAdd ch.pendingReplenish amount } s)
  | flushed (id amount : UInt32) (ch : ChannelState) (hch : s.channel id=some ch)
      (hl : ch.localClosed=false) (hz : amount≠0) :
      Called s (.replenishWindow id amount) ⟨some (msgChannelWindowAdjust::(be32 ch.remoteId ++
          be32 (satAdd ch.pendingReplenish amount))),none⟩
        (put id { ch with
          pendingReplenish := 0
          localWindow := satAdd ch.localWindow (satAdd ch.pendingReplenish amount) } s)

theorem capacity_le_window (header : UInt32) (ch : ChannelState) :
    capacity header ch≤ch.remoteWindow.toNat := by
  unfold capacity
  split <;> omega

theorem capacity_le_maxPacket (header : UInt32) (ch : ChannelState) :
    capacity header ch≤ch.remoteMaxPacket.toNat := by
  unfold capacity
  split <;> omega

section Settles
open Proc (Settles)

theorem sendChunk_settles (header : UInt32) (payload : UInt32 → Bytes → Bytes) (data : Bytes) :
    Settles (sendChunk (capacity header) payload id data) s fun r s' =>
      ∃ ch bytes, s.channel id=some ch ∧ ch.localClosed=false ∧ ch.localEof=false ∧
      r.1=payload ch.remoteId bytes ∧ bytes.length≤ch.remoteWindow.toNat ∧
      bytes.length≤ch.remoteMaxPacket.toNat ∧ s'=put id { ch with
        remoteWindow := satSub ch.remoteWindow (UInt32.ofNat bytes.length)
        activity := ch.activity+UInt64.ofNat bytes.length } s := by
  refine getMut_settles fun ch hch => ensureSendable_settles fun hl _ => .check fun he =>
    .modify_pure ⟨ch,data.take (min data.length (capacity header ch)),hch,hl,by simpa using he,rfl,?_⟩
  have hlen : (data.take (min data.length (capacity header ch))).length =
      min data.length (capacity header ch) := by simp
  have hcap := Nat.min_le_right data.length (capacity header ch)
  rw [hlen]
  exact ⟨Nat.le_trans hcap (capacity_le_window header ch),
    Nat.le_trans hcap (capacity_le_maxPacket header ch),rfl⟩

/-- What a call does, once and for all: one that fails leaves the table as it was. -/
theorem execCall_settles (c : Call) : Settles (execCall c) s (Called s c) := by
  have hdata {c : Call} {id : UInt32} {data : Bytes}
      (hc : c = .sendData id data ∨ c = .sendDatagram id data) :
      Settles (sendData id data) s fun r s' => Called s c ⟨some r.1,none⟩ s' := by
    refine (sendChunk_settles 9 dataPayload data).imp_right ?_
    rintro ⟨r,_,hrun,ch,bytes,hch,hl,he,hp,hw,hm,rfl⟩
    exact ⟨r,_,hrun,.sent _ id ch bytes r.1 (.inl ⟨⟨data,hc⟩,hp⟩) hch hl he hw hm⟩
  cases c
  all_goals refine .bind_pure ?_
  case «open» kind =>
    refine allocateLocalId_settles.bind_total ?_
    rintro id _ ⟨hfree,rfl⟩
    exact ⟨_,_,rfl,.opened kind _ hfree⟩
  case acceptOpen id =>
    exact getMut_settles fun ch hch => .check fun hc =>
      .modify_pure (.accepted id ch hch (by simpa using hc))
  case rejectOpen id reason description language =>
    exact getMut_settles fun ch hch => .check fun hc =>
      .modify_pure (.rejected id reason description language ch hch (by simpa using hc))
  case sendRequest id req wantReply =>
    exact getMut_settles fun ch hch => ensureSendable_settles fun hl _ =>
      .of_pure (.quiet _ id ch _ rfl hch rfl (by simp [hl]) nofun nofun)
  case sendRequestSuccess id | sendRequestFailure id =>
    exact getMut_settles fun ch hch =>
      .of_pure (.quiet _ id ch _ rfl hch rfl (by simp) nofun nofun)
  case sendData id data => exact hdata (.inl rfl)
  case sendDatagram id data =>
    refine getMut_settles fun ch hch => ensureSendable_settles fun _ _ => .check fun he =>
      .ite (fun _ => ?_) fun _ => .bind_pure ?_
    · exact .of_pure (.quiet _ id ch _ rfl hch rfl (by simp) (by simpa using he) nofun)
    · exact hdata (.inr rfl)
  case sendExtendedData id code data =>
    refine (sendChunk_settles 13 (extendedDataPayload · code) data).imp_right ?_
    rintro ⟨r,_,hrun,ch,bytes,hch,hl,he,hp,hw,hm,rfl⟩
    exact ⟨r,_,hrun,.sent _ id ch bytes r.1 (.inr ⟨code,data,rfl,hp⟩) hch hl he hw hm⟩
  case sendEof id =>
    exact getMut_settles fun ch hch => .check fun hl =>
      .modify_pure (.eof id ch hch (by simpa using hl))
  case sendClose id =>
    refine getMut_settles fun ch hch => .check fun hl => .modify_pure ?_
    have hl : ch.localClosed=false := by simpa using hl
    rcases Bool.eq_false_or_eq_true ch.remoteClosed with hr | hr
    · rw [putUnlessClosed_of_closed _ _ _ (by simp [ChannelState.isFullyClosed,hr])]
      exact .finished id ch hch hl hr
    · rw [putUnlessClosed_of_open _ _ _ (by simp [ChannelState.isFullyClosed,hr])]
      exact .closed id ch hch hl hr
  case replenishWindow id amount =>
    have hquiet {ch : ChannelState} (hch : s.channel id=some ch)
        (h : amount=0 ∨ ch.localClosed=true) :
        Called s (.replenishWindow id amount) ⟨none,none⟩ s := by
      refine .quiet _ id ch _ rfl hch rfl (by simp) nofun ?_
      rintro id' amount' ⟨⟩
      exact h
    refine getMut_settles fun ch hch => .ite (fun hl => .of_pure (hquiet hch (.inr hl))) fun hl => ?_
    have hl : ch.localClosed=false := by simpa using hl
    refine .ite (fun hz => .of_pure (hquiet hch (.inl hz))) fun hz => .ite (fun ht => ?_) fun _ => ?_
    · exact .modify_pure (.held id amount ch hch hl hz ht)
    · exact .modify_pure (.flushed id amount ch hch hl hz)

end Settles

end PureSsh.Channel
