import PureSsh.Channel.Lifetime

/-! Messages of the connection layer read back as they were written. -/

namespace PureSsh.Channel
open Lib Reader Writer ConnectionState List Proc

/-- A text that fits its length field. -/
def Fits (s : Str) : Prop := validUtf8 s=true ∧ s.length<2^32

theorem fits_ascii {s : String} (h : (validUtf8 (ascii s) && decide ((ascii s).length<2^32))=true) :
    Fits (ascii s) := by
  simpa [Fits] using h

variable {f : Bytes × Bytes → Result α} {msg : String} {s : Str} {y : Result α} {α : Type}

theorem Fits.read (h : Fits s) {r : Bytes} (hf : f (s,r)=y) :
    (readUtf8 msg (writeString s++r) >>= f)=y := utf8_then h.1 h.2 hf

theorem Fits.read_end (h : Fits s) (hf : f (s,[])=y) :
    (readUtf8 msg (writeString s) >>= f)=y := utf8_end h.1 h.2 hf

namespace ChannelOpen

def builtIn : List Str :=
  ["session","direct-tcpip","forwarded-tcpip","direct-streamlocal@openssh.com",
    "forwarded-streamlocal@openssh.com","tun@openssh.com","auth-agent@openssh.com","x11"].map ascii

/- The texts of an open fit their fields, and another kind is none of those it knows. -/
def WellFormed : ChannelOpen → Prop
  | .session | .authAgent | .tun _ _ => True
  | .directTcpip destHost _ origHost _ | .forwardedTcpip destHost _ origHost _ =>
    Fits destHost ∧ Fits origHost
  | .directStreamlocal socketPath | .forwardedStreamlocal socketPath => Fits socketPath
  | .x11 origHost _ => Fits origHost
  | .other kind _ => Fits kind ∧ kind∉builtIn

variable {k : ChannelOpen}

theorem fits_kind (h : k.WellFormed) : Fits k.kind := by
  cases k with
  | other kind raw => exact h.1
  | _ => exact fits_ascii (by decide)

theorem decode_encodeTail (h : k.WellFormed) : decode k.kind k.encodeTail = .ok k := by
  cases k with
  | session | authAgent =>
    simp +decide only
  | directTcpip destHost destPort origHost origPort
  | forwardedTcpip destHost destPort origHost origPort =>
    simp +decide only [decode,kind,encodeTail,if_true,append_assoc]
    exact h.1.read (u32_then (h.2.read (u32_end rfl)))
  | directStreamlocal socketPath =>
    simp +decide only [kind,encodeTail,append_assoc]
    exact Fits.read h (string_then (by decide) (u32_end rfl))
  | forwardedStreamlocal socketPath =>
    simp +decide only [decode,kind]
    exact Fits.read h (string_end (by decide) rfl)
  | tun mode unit =>
    exact u32_then (u32_end rfl)
  | x11 origHost origPort =>
    simp +decide only [decode,kind]
    exact Fits.read h (u32_end rfl)
  | other name raw =>
    have hnot := h.2
    simp only [builtIn,map_cons,mem_cons,not_or] at hnot
    simp only [decode,kind,hnot]
    rfl

end ChannelOpen

namespace ChannelRequest

def builtIn : List Str :=
  ["pty-req","shell","exec","subsystem","env","window-change","signal","exit-status",
    "exit-signal","auth-agent-req@openssh.com","x11-req"].map ascii

def WellFormed : ChannelRequest → Prop
  | .ptyReq term _ _ _ _ modes => Fits term ∧ modes.length<2^32
  | .shell | .authAgentReq | .windowChange .. | .exitStatus _ => True
  | .exec s | .subsystem s | .signal s => Fits s
  | .env name value => Fits name ∧ Fits value
  | .exitSignal name _ message language => Fits name ∧ Fits message ∧ Fits language
  | .x11Req _ authProtocol authCookie _ => Fits authProtocol ∧ Fits authCookie
  | .other name _ => Fits name ∧ name∉builtIn

variable {q : ChannelRequest}

theorem fits_name (h : q.WellFormed) : Fits q.name := by
  cases q with
  | other name raw => exact h.1
  | _ => exact fits_ascii (by decide)

theorem decode_encode (h : q.WellFormed) : decode q.name q.encode = .ok q := by
  cases q with
  | shell | authAgentReq =>
    simp +decide only
  | ptyReq term cols rows pxW pxH modes =>
    simp +decide only [encode,append_assoc]
    exact h.1.read (u32_then (u32_then (u32_then (u32_then (string_end h.2 rfl)))))
  | exec s | subsystem s | signal s =>
    exact Fits.read_end h rfl
  | env key value =>
    exact h.1.read (h.2.read_end rfl)
  | windowChange cols rows pxW pxH =>
    exact u32_then (u32_then (u32_then (u32_end rfl)))
  | exitStatus code =>
    exact u32_end rfl
  | exitSignal s coreDumped message language =>
    simp +decide only [decode,name,encode,append_assoc]
    exact h.1.read (bool_then (h.2.1.read (h.2.2.read_end rfl)))
  | x11Req single protocol cookie screen =>
    simp +decide only [encode,append_assoc]
    exact bool_then (h.1.read (h.2.read (u32_end rfl)))
  | other s raw =>
    have hnot := h.2
    simp only [builtIn,map_cons,mem_cons,not_or] at hnot
    simp only [decode,name,hnot]
    rfl

end ChannelRequest

namespace GlobalRequest

def builtIn : List Str :=
  ["tcpip-forward","cancel-tcpip-forward","streamlocal-forward@openssh.com",
    "cancel-streamlocal-forward@openssh.com","keepalive@openssh.com",
    "no-more-sessions@openssh.com"].map ascii

def WellFormed : GlobalRequest → Prop
  | .tcpipForward bindAddress _ | .cancelTcpipForward bindAddress _ => Fits bindAddress
  | .streamlocalForward socketPath | .cancelStreamlocalForward socketPath => Fits socketPath
  | .keepalive | .noMoreSessions => True
  | .other name _ => Fits name ∧ name∉builtIn

variable {g : GlobalRequest}

theorem fits_name (h : g.WellFormed) : Fits g.name := by
  cases g with
  | other name raw => exact h.1
  | _ => exact fits_ascii (by decide)

theorem decode_encode (h : g.WellFormed) : decode g.name g.encode = .ok g := by
  cases g with
  | keepalive | noMoreSessions =>
    simp +decide only
  | tcpipForward address port | cancelTcpipForward address port =>
    exact Fits.read h (u32_end rfl)
  | streamlocalForward socketPath | cancelStreamlocalForward socketPath =>
    exact Fits.read_end h rfl
  | other s raw =>
    have hnot := h.2
    simp only [builtIn,map_cons,mem_cons,not_or] at hnot
    simp only [decode,name,hnot]
    rfl

end GlobalRequest

section Packets
variable {k : ChannelOpen} {q : ChannelRequest} {g : GlobalRequest}

theorem parse_openPayload (h : k.WellFormed) (s : ConnectionState) (id : UInt32) :
    Msg.parse (openPayload s id k) =
      .ok (.open k.kind k id s.defaultWindow s.defaultMaxPacket) := by
  rw [Msg.parse,openPayload,readU8_cons,except_ok_bind]
  simp +decide only [Msg.parseBody,if_true,if_false,append_assoc]
  refine (ChannelOpen.fits_kind h).read (u32_then (u32_then (u32_then ?_)))
  dsimp only
  rw [ChannelOpen.decode_encodeTail h]
  rfl

theorem parse_request (h : q.WellFormed) (id : UInt32) (wantReply : Bool) :
    Msg.parse (msgChannelRequest::(be32 id++writeString q.name++writeBool wantReply ++
      q.encode)) = .ok (.request id q wantReply) := by
  rw [Msg.parse,readU8_cons,except_ok_bind]
  simp +decide only [Msg.parseBody,if_true,if_false,append_assoc]
  refine u32_then ((ChannelRequest.fits_name h).read (bool_then ?_))
  dsimp only
  rw [ChannelRequest.decode_encode h]
  rfl

theorem parse_globalRequest (h : g.WellFormed) (wantReply : Bool) :
    Msg.parse (sendGlobalRequest g wantReply) = .ok (.globalRequest g wantReply) := by
  rw [Msg.parse,sendGlobalRequest,readU8_cons,except_ok_bind]
  simp +decide only [Msg.parseBody,if_true,if_false,append_assoc]
  refine (GlobalRequest.fits_name h).read (bool_then ?_)
  dsimp only
  rw [GlobalRequest.decode_encode h]
  rfl

theorem onPacket_of_parse {payload : Bytes} {m : Msg} (h : Msg.parse payload = .ok m)
    (t : ConnectionState) : onPacket payload t=m.handle t := by
  rw [Msg.onPacket_eq,h,lift_ok_bind]

/-- A peer with room answers an open with the event, one without with a refusal. -/
theorem onPacket_open (h : k.WellFormed) (s t : ConnectionState) (id : UInt32) :
    if t.maxChannels.toNat≤t.channels.keys.length then
      (onPacket (openPayload s id k) t).1 =
        .ok (.openRejected (rejection id) sshOpenResourceShortage)
    else ∃ id', (onPacket (openPayload s id k) t).1 = .ok (.openRequest id' k) := by
  rw [onPacket_of_parse (parse_openPayload h s id),Msg.handle,receiveOpen,Proc.get_bind,
    Proc.ite_apply]
  split
  · rfl
  next hroom =>
    have hmax := t.maxChannels.toNat_lt
    have htracked : tracked t<2^32 := by
      rw [tracked]
      omega
    obtain ⟨id',t',halloc⟩ := allocateLocalId_total htracked
    rw [bind_of_ok halloc]
    exact ⟨id',rfl⟩

/- What a request on a channel comes to at the peer. -/
def requestEvent (t : ConnectionState) (id : UInt32) (q : ChannelRequest) (wantReply : Bool) :
    Result ChannelEvent :=
  match t.channel id with
  | none => .error .badChannelState
  | some ch => if ch.openConfirmed then .ok (.request id q wantReply)
    else .error (.protocol "channel not yet open")

theorem onPacket_request (h : q.WellFormed) (id : UInt32) (wantReply : Bool) (t : ConnectionState) :
    (onPacket (msgChannelRequest::(be32 id++writeString q.name++writeBool wantReply ++
      q.encode)) t).1=requestEvent t id q wantReply := by
  rw [onPacket_of_parse (parse_request h id wantReply),Msg.handle,receiveRequest,bind_apply,getMut,
    get_bind,requestEvent]
  cases hch : t.channel id with
  | none => rfl
  | some ch =>
    dsimp only [okOr]
    cases hconf : ch.openConfirmed <;> rfl

/-- Every message decodes to the value it was made from, and the peer's event has that value and
the same flag: always for a global request, for an open unless the peer is at its cap, and for a
request if the peer has the channel and confirmed it. -/
theorem messages_survive (s s' t : ConnectionState) (wantReply : Bool) :
    (∀ k : ChannelOpen, k.WellFormed → ChannelOpen.decode k.kind k.encodeTail = .ok k ∧
      ∀ id payload, ConnectionState.open k s=(.ok (id,payload),s') →
        if t.maxChannels.toNat≤t.channels.keys.length then
          (onPacket payload t).1 = .ok (.openRejected (rejection id) sshOpenResourceShortage)
        else ∃ id', (onPacket payload t).1 = .ok (.openRequest id' k)) ∧
    (∀ q : ChannelRequest, q.WellFormed → ChannelRequest.decode q.name q.encode = .ok q ∧
      ∀ channel payload, sendRequest channel q wantReply s=(.ok payload,s') →
        ∃ ch, s.channel channel=some ch ∧ (onPacket payload t).1 =
          requestEvent t ch.remoteId q wantReply) ∧
    ∀ g : GlobalRequest, g.WellFormed → GlobalRequest.decode g.name g.encode = .ok g ∧
      onPacket (sendGlobalRequest g wantReply) t=(.ok (.globalRequest g wantReply),t) := by
  refine ⟨fun k hk => ⟨ChannelOpen.decode_encodeTail hk,fun id payload hopen => ?_⟩,
    fun q hq => ⟨ChannelRequest.decode_encode hq,fun channel payload hsend => ?_⟩,
    fun g hg => ⟨GlobalRequest.decode_encode hg,?_⟩⟩
  · obtain ⟨id',t',halloc,hopen⟩ := bind_eq_ok.1 hopen
    obtain ⟨-,rfl⟩ := allocateLocalId_settles.ok halloc
    cases hopen
    exact onPacket_open hk { s with nextLocalId := id+1 } t id
  · have hsettles : Proc.Settles (sendRequest channel q wantReply) s fun payload _ =>
        ∃ ch, s.channel channel=some ch ∧ (onPacket payload t).1 =
          requestEvent t ch.remoteId q wantReply :=
      getMut_settles fun ch hch => ensureSendable_settles fun _ _ =>
        .of_pure ⟨ch,hch,onPacket_request hq ch.remoteId wantReply t⟩
    exact hsettles.ok hsend
  · rw [onPacket_of_parse (parse_globalRequest hg wantReply)]
    rfl

/-- A session opened on a fresh peer, and a command. -/
theorem messages_survive_session :
    (∃ payload s', ConnectionState.open .session .new=(.ok (0,payload),s') ∧
      ∃ id, (onPacket payload .new).1 = .ok (.openRequest id .session)) ∧
    ChannelRequest.decode (ascii "exec") (writeString (ascii "ls")) = .ok (.exec (ascii "ls")) := by
  have hopen : ConnectionState.open .session .new =
      (.ok (0,openPayload .new 0 .session),put 0 (outbound .new 0 .session)
        { ConnectionState.new with nextLocalId := 1 }) := rfl
  have hls : (ChannelRequest.exec (ascii "ls")).WellFormed := fits_ascii (by decide)
  refine ⟨⟨_,_,hopen,?_⟩,((messages_survive .new .new .new true).2.1 _ hls).1⟩
  have hevent := ((messages_survive .new _ .new true).1 .session trivial).2 0 _ hopen
  rwa [if_neg (by decide)] at hevent

/-- A peer at its cap does not report the open. -/
theorem open_refused_at_cap :
    ∃ payload s', ConnectionState.open .session .new=(.ok (0,payload),s') ∧
      ∀ id, (onPacket payload { ConnectionState.new with maxChannels := 0 }).1 ≠
        .ok (.openRequest id .session) := by
  refine ⟨_,_,rfl,fun id h => ?_⟩
  have hrefused : (onPacket (openPayload .new 0 .session)
      { ConnectionState.new with maxChannels := 0 }).1 =
        .ok (.openRejected (rejection 0) sshOpenResourceShortage) := by decide
  cases hrefused.symm.trans h

end Packets
end PureSsh.Channel
