import PureSsh.Channel.Step

/-! The life of a channel, from the message that creates it to its CLOSE, over every run of one
connection. -/

namespace PureSsh.Channel
open Lib Reader Writer ConnectionState List

/- One thing that happened to a connection, with its outcome. -/
inductive Entry where
  | call (c : Call) (result : Result Output)
  | packet (payload : Bytes) (result : Result ChannelEvent)

/- The answers of the peer to an `open` of ours. -/
def Msg.confirms (id : UInt32) : Msg → Bool
  | .openConfirmation channel .. => channel==id
  | _ => false

def Msg.refuses (id : UInt32) : Msg → Bool
  | .openFailure channel .. => channel==id
  | _ => false

namespace Entry

/- `open` returned the id. -/
def openedByUs (id : UInt32) : Entry → Bool
  | .call _ (.ok out) => out.opened==some id
  | _ => false

/- A CHANNEL_OPEN of the peer was given the id. -/
def openedByPeer (id : UInt32) : Entry → Bool
  | .packet _ (.ok ev) => ev.opened==some id
  | _ => false

def creates (id : UInt32) (e : Entry) : Bool := e.openedByUs id || e.openedByPeer id

/- An OPEN_CONFIRMATION for the id came in and was handled. -/
def confirmedByPeer (id : UInt32) : Entry → Bool
  | .packet payload (.ok _) => match Msg.parse payload with
    | .ok m => m.confirms id
    | .error _ => false
  | _ => false

def accepts (id : UInt32) : Entry → Bool
  | .call (.acceptOpen channel) (.ok _) => channel==id
  | _ => false

def sendsEof (id : UInt32) : Entry → Bool
  | .call (.sendEof channel) (.ok _) => channel==id
  | _ => false

def sendsClose (id : UInt32) : Entry → Bool
  | .call (.sendClose channel) (.ok _) => channel==id
  | _ => false

/- The id under which the peer announced its end of the channel. -/
def announces (id : UInt32) : Entry → Option UInt32
  | .packet payload (.ok ev) => match Msg.parse payload, ev with
    | .ok (.open _ _ remoteId _ _), .openRequest channel _ =>
      if channel=id then some remoteId else none
    | .ok (.openConfirmation channel remoteId _ _), _ =>
      if channel=id then some remoteId else none
    | _, _ => none
  | _ => none

end Entry

/- What happened since the channel was created, its creation included. The newest entry comes
   first. -/
def since (id : UInt32) : List Entry → List Entry
  | [] => []
  | e::past => if e.creates id then [e] else e::since id past

/- A connection with its whole past, newest entry first. -/
structure Run where
  conn : ConnectionState
  past : List Entry

namespace Run

def start : Run where
  conn := ConnectionState.new
  past := []

def call (c : Call) (r : Run) : Run where
  conn := (execCall c r.conn).2
  past := .call c (execCall c r.conn).1::r.past

def packet (payload : Bytes) (r : Run) : Run where
  conn := (onPacket payload r.conn).2
  past := .packet payload (onPacket payload r.conn).1::r.past

/- The three limits are public fields, which the owner may set at any time. -/
def configure (window maxPacket maxChannels : UInt32) (r : Run) : Run where
  conn := { r.conn with defaultWindow := window, defaultMaxPacket := maxPacket, maxChannels }
  past := r.past

end Run

/- Every run whose calls are allowed where they are made. -/
inductive Reaches (allowed : ConnectionState → Call → Prop) : Run → Prop where
  | start : Reaches allowed .start
  | call {r : Run} (c : Call) : Reaches allowed r → allowed r.conn c → Reaches allowed (r.call c)
  | packet {r : Run} (payload : Bytes) : Reaches allowed r → Reaches allowed (r.packet payload)
  | configure {r : Run} (window maxPacket maxChannels : UInt32) : Reaches allowed r →
      Reaches allowed (r.configure window maxPacket maxChannels)

variable {allowed : ConnectionState → Call → Prop} {r : Run} {id id' : UInt32} {payload : Bytes}
  {s s' : ConnectionState} {c : Call} {ch ch' : ChannelState} {out : Output} {m : Msg}
  {ev : ChannelEvent} {e : Entry} {past : List Entry}

theorem Reaches.mono {allowed' : ConnectionState → Call → Prop}
    (hle : ∀ s c, allowed s c → allowed' s c) (h : Reaches allowed r) : Reaches allowed' r := by
  induction h with
  | start => exact .start
  | call c _ hc ih => exact .call c ih (hle _ _ hc)
  | packet payload _ ih => exact .packet payload ih
  | configure w m n _ ih => exact .configure w m n ih

theorem Run.call_cases (r : Run) (c : Call) :
    (∃ err, r.call c=⟨r.conn,.call c (.error err)::r.past⟩) ∨
      ∃ out s', r.call c=⟨s',.call c (.ok out)::r.past⟩ ∧ Called r.conn c out s' := by
  rw [Run.call]
  obtain ⟨err,hrun⟩ | ⟨out,s',hrun,hc⟩ := execCall_settles c
  · exact .inl ⟨err,by rw [hrun]⟩
  · exact .inr ⟨out,s',by rw [hrun],hc⟩

theorem Run.packet_cases (r : Run) (payload : Bytes) :
    (∃ err, r.packet payload=⟨r.conn,.packet payload (.error err)::r.past⟩) ∨
      ∃ m ev s', r.packet payload=⟨s',.packet payload (.ok ev)::r.past⟩ ∧
        Msg.parse payload = .ok m ∧ Handled r.conn m ev s' := by
  rw [Run.packet]
  obtain ⟨err,hrun⟩ | ⟨ev,s',hrun,m,hparse,hm⟩ := onPacket_settles payload
  · exact .inl ⟨err,by rw [hrun]⟩
  · exact .inr ⟨m,ev,s',by rw [hrun],hparse,hm⟩

/- What a successful call on a channel checked, left of its entry and sent. -/
structure Effect (c : Call) (ch : ChannelState) (out : Output) (entry : Option ChannelState) :
    Prop where
  opened : out.opened=none
  kept : ∀ ch'∈entry, ch'.localId=ch.localId ∧ ch'.remoteId=ch.remoteId ∧
    ch'.initiatedByUs=ch.initiatedByUs ∧ ch'.remoteClosed=ch.remoteClosed
  confirmed : ∀ ch'∈entry, ch'.openConfirmed=(ch.openConfirmed || c.isAccept)
  eof : ∀ ch'∈entry, ch'.localEof=(ch.localEof || c.isEof)
  closed : ∀ ch'∈entry, ch'.localClosed=(ch.localClosed || c.isClose)
  live : ∀ ch'∈entry, ch.isFullyClosed=false → ch'.isFullyClosed=false
  payload : ∀ p∈out.wire, ∃ rest, p=c.message::(be32 ch.remoteId++rest)
  pending : (c.isAccept || c.isReject)=true → ch.openConfirmed=false
  beforeClose : ∀ p∈out.wire, (c.isAccept || c.isReject || c.isReply)=false →
    ch.localClosed=false
  beforeEof : c.isData=true → ch.localEof=false

/- A call found its channel, and touched no other. -/
def Acts (c : Call) (id : UInt32) (s : ConnectionState) (out : Output) (s' : ConnectionState) :
    Prop :=
  ∃ ch, s.channel id=some ch ∧ Effect c ch out (s'.channel id) ∧
    ∀ id', id'≠id → s'.channel id'=s.channel id'

theorem Acts.wrote (hch : s.channel id=some ch) (he : Effect c ch out (some ch')) :
    Acts c id s out (put id ch' s) :=
  ⟨ch,hch,by rwa [channel_put_self],fun id' hid => channel_put_ne s id id' ch' hid⟩

theorem Acts.dropped (hch : s.channel id=some ch) (he : Effect c ch out none) :
    Acts c id s out (remove id s) :=
  ⟨ch,hch,by rwa [channel_remove_self],fun id' hid => channel_remove_ne s id id' hid⟩

theorem Acts.untouched (hch : s.channel id=some ch) (he : Effect c ch out (some ch)) :
    Acts c id s out s :=
  ⟨ch,hch,by rwa [hch],fun _ _ => rfl⟩

/-- A call on a channel that succeeds finds the channel, and touches no other. -/
theorem Called.acts (hc : c.subject=some id) (h : Called s c out s') : Acts c id s out s' := by
  cases h with
  | quiet _ at_ ch wire hsub hch hkind hw he hr =>
    cases hsub.symm.trans hc
    refine .untouched hch ?_
    constructor <;> simp_all
  | opened => cases hc
  | accepted at_ ch hch hp =>
    cases hc
    refine .wrote hch ?_
    constructor <;> simp_all [ChannelState.isFullyClosed]
  | rejected at_ reason description language ch hch hp =>
    cases hc
    refine .dropped hch ?_
    constructor <;> simp_all
  | sent _ at_ ch bytes payload hp hch hl he hw hm =>
    obtain ⟨⟨data,rfl | rfl⟩,rfl⟩ | ⟨code,data,rfl,rfl⟩ := hp
    all_goals
      cases hc
      refine .wrote hch ?_
      constructor <;> simp_all [ChannelState.isFullyClosed,dataPayload,extendedDataPayload]
  | eof at_ ch hch hl | closed at_ ch hch hl hr | held at_ amount ch hch hl hz ht
  | flushed at_ amount ch hch hl hz =>
    cases hc
    refine .wrote hch ?_
    constructor <;> simp_all [ChannelState.isFullyClosed]
  | finished at_ ch hch hl hr =>
    cases hc
    refine .dropped hch ?_
    constructor <;> simp_all

/-- A channel that is there after a call was there before, or the call has just created it. -/
theorem Called.entry (h : Called s c out s') (hch' : s'.channel id=some ch') :
    (c.subject=some id ∧ ∃ ch, s.channel id=some ch ∧ Effect c ch out (some ch')) ∨
    (c.subject≠some id ∧ out.opened≠some id ∧ s.channel id=some ch') ∨
    ∃ kind, c = .open kind ∧ out=⟨some (openPayload s id kind),some id⟩ ∧
      ch'=outbound s id kind := by
  cases hsub : c.subject with
  | some at_ =>
    obtain ⟨ch,hch,heff,hother⟩ := h.acts hsub
    by_cases hid : id=at_
    · subst hid
      exact .inl ⟨rfl,ch,hch,hch' ▸ heff⟩
    · exact .inr (.inl ⟨by simpa using Ne.symm hid,by simp [heff.opened],hother id hid ▸ hch'⟩)
  | none =>
    cases c <;> cases hsub
    cases h with
    | quiet _ _ _ _ hopen => cases hopen
    | sent _ _ _ _ _ hp => simp at hp
    | opened kind new hfree =>
      obtain ⟨rfl,rfl⟩ | ⟨hid,hold⟩ := channel_put_cases hch'
      · exact .inr (.inr ⟨_,rfl,rfl,rfl⟩)
      · exact .inr (.inl ⟨by simp,by simpa using Ne.symm hid,hold⟩)

/- What a packet leaves of the entry of channel `id`. -/
structure Heard (m : Msg) (id : UInt32) (ch ch' : ChannelState) : Prop where
  kept : ch'.localId=ch.localId ∧ ch'.initiatedByUs=ch.initiatedByUs ∧
    ch'.localEof=ch.localEof ∧ ch'.localClosed=ch.localClosed
  live : ch.isFullyClosed=false → ch'.isFullyClosed=false
  confirmed : (m.confirms id=false ∧ ch'.openConfirmed=ch.openConfirmed ∧
      ch'.remoteId=ch.remoteId) ∨
    (ch.initiatedByUs=true ∧
      ∃ window maxPacket, m = .openConfirmation id ch'.remoteId window maxPacket)

theorem Heard.refl (hm : m.confirms id=false) (ch : ChannelState) : Heard m id ch ch :=
  ⟨⟨rfl,rfl,rfl,rfl⟩,fun h => h,.inl ⟨hm,rfl,rfl⟩⟩

theorem Msg.idle_not_confirms (h : m.idle=true) (id : UInt32) : m.confirms id=false := by
  cases m <;> first | rfl | cases h

/- The entry that a packet wrote, or one that it left alone. -/
theorem Heard.put {at_ : UInt32} {old new : ChannelState} (hold : s.channel at_=some old)
    (hch' : (ConnectionState.put at_ new s).channel id=some ch')
    (hm : id≠at_ → m.confirms id=false) (h : Heard m at_ old new) :
    ∃ ch, s.channel id=some ch ∧ Heard m id ch ch' := by
  obtain ⟨rfl,rfl⟩ | ⟨hid,hsame⟩ := channel_put_cases hch'
  · exact ⟨old,hold,h⟩
  · exact ⟨ch',hsame,.refl (hm hid) ch'⟩

theorem ChannelEvent.opened_ne (ev : ChannelEvent) (h : ev.opened=none) (id : UInt32) :
    ev.opened≠some id := by simp [h]

/-- A channel that is there after a packet was there before, or the packet has just created it. -/
theorem Handled.entry (h : Handled s m ev s') (hch' : s'.channel id=some ch') :
    (∃ ch, s.channel id=some ch ∧ ev.opened≠some id ∧ Heard m id ch ch') ∨
    (s.channel id=none ∧ ∃ name kind remoteId window maxPacket,
      m = .open name kind remoteId window maxPacket ∧ ev = .openRequest id kind ∧
      ch'=inbound s id name remoteId window maxPacket) := by
  have kept (hev : ev.opened=none) (hold : ∃ ch, s.channel id=some ch ∧ Heard m id ch ch') :
      ∃ ch, s.channel id=some ch ∧ ev.opened≠some id ∧ Heard m id ch ch' := by
    obtain ⟨ch,hch,heard⟩ := hold
    exact ⟨ch,hch,ev.opened_ne hev id,heard⟩
  cases h with
  | idle _ _ hm hd ho hr =>
    exact .inl (kept ho ⟨ch',hch',.refl (Msg.idle_not_confirms hm id) ch'⟩)
  | rejected => exact .inl (kept rfl ⟨ch',hch',.refl rfl ch'⟩)
  | requested name kind remoteId window maxPacket new hfree =>
    obtain ⟨rfl,rfl⟩ | ⟨hid,hold⟩ := channel_put_cases hch'
    · exact .inr ⟨hfree,name,kind,remoteId,window,maxPacket,rfl,rfl,rfl⟩
    · refine .inl ⟨ch',hold,?_,.refl rfl ch'⟩
      simpa [ChannelEvent.opened] using fun h => hid h.symm
  | confirmed at_ remoteId window maxPacket ch hch hc hi =>
    refine .inl (kept rfl (Heard.put hch hch' ?_ ?_))
    · simpa [Msg.confirms] using fun hid => Ne.symm hid
    · exact ⟨⟨rfl,rfl,rfl,rfl⟩,fun h => h,.inr ⟨hi,window,maxPacket,rfl⟩⟩
  | failed | finished => exact .inl (kept rfl ⟨ch',channel_remove_cases hch',.refl rfl ch'⟩)
  | adjusted at_ added ch hch =>
    refine .inl (kept rfl (Heard.put hch hch' (fun _ => rfl) ?_))
    exact ⟨⟨rfl,rfl,rfl,rfl⟩,fun h => h,.inl ⟨rfl,rfl,rfl⟩⟩
  | received _ _ at_ bytes ch hm hch hc hr hw =>
    obtain ⟨hopened,hno⟩ : ev.opened=none ∧ ∀ id, m.confirms id=false := by
      obtain ⟨rfl,rfl⟩ | ⟨code,rfl,rfl⟩ := hm <;> exact ⟨rfl,fun _ => rfl⟩
    refine .inl (kept hopened (Heard.put hch hch' (fun _ => hno id) ?_))
    exact ⟨⟨rfl,rfl,rfl,rfl⟩,fun h => h,.inl ⟨hno at_,rfl,rfl⟩⟩
  | eof at_ ch hch =>
    refine .inl (kept rfl (Heard.put hch hch' (fun _ => rfl) ?_))
    exact ⟨⟨rfl,rfl,rfl,rfl⟩,fun h => h,.inl ⟨rfl,rfl,rfl⟩⟩
  | closed at_ ch hch hc hl =>
    refine .inl (kept rfl (Heard.put hch hch' (fun _ => rfl) ⟨⟨rfl,rfl,rfl,rfl⟩,fun _ => ?_,?_⟩))
    · simp [ChannelState.isFullyClosed,hl]
    · exact .inl ⟨rfl,rfl,rfl⟩

/- What the past of a connection says about a channel it tracks. -/
structure Recorded (past : List Entry) (id : UInt32) (ch : ChannelState) : Prop where
  created : ∃ e∈since id past, e.creates id=true
  ours : ∀ e∈since id past, e.openedByUs id=true → ch.initiatedByUs=true
  theirs : ∀ e∈since id past, e.openedByPeer id=true → ch.initiatedByUs=false
  confirmed : ch.openConfirmed=true → ch.initiatedByUs=true →
    ∃ e∈since id past, e.confirmedByPeer id=true
  accepted : ch.openConfirmed=true → ch.initiatedByUs=false →
    ∃ e∈since id past, e.accepts id=true
  announced : ch.initiatedByUs=false ∨ ch.openConfirmed=true →
    (since id past).findSome? (Entry.announces id)=some ch.remoteId
  closed : ∀ e∈since id past, e.sendsClose id=true → ch.localClosed=true
  ended : ∀ e∈since id past, e.sendsEof id=true → ch.localEof=true

theorem since_cons_of_creates (h : e.creates id=true) (past : List Entry) :
    since id (e::past)=[e] := if_pos h

theorem since_cons (h : e.creates id=false) (past : List Entry) :
    since id (e::past)=e::since id past := if_neg (by simp [h])

theorem not_opened (h : e.creates id=false) : e.openedByUs id=false ∧ e.openedByPeer id=false := by
  simpa [Entry.creates] using h

/-- An entry that does not create the channel adds to what is known of it. -/
theorem Recorded.cons (h : Recorded past id ch) (hnew : e.creates id=false)
    (hours : ch'.initiatedByUs=ch.initiatedByUs)
    (hconf : ch'.openConfirmed=true → ch.openConfirmed=true ∨
      (ch.initiatedByUs=true ∧ e.confirmedByPeer id=true) ∨
      (ch.initiatedByUs=false ∧ e.accepts id=true)) (hann : e.announces id=some ch'.remoteId ∨
      e.announces id=none ∧ ch'.remoteId=ch.remoteId ∧ e.confirmedByPeer id=false)
    (hclose : ch.localClosed=true ∨ e.sendsClose id=true → ch'.localClosed=true)
    (heof : ch.localEof=true ∨ e.sendsEof id=true → ch'.localEof=true) :
    Recorded (e::past) id ch' := by
  have hno := not_opened hnew
  have hall {p : Entry → Prop} (hhead : p e) (htail : ∀ x∈since id past, p x) :
      ∀ x∈since id (e::past), p x := by
    rw [since_cons hnew]
    exact forall_mem_cons.2 ⟨hhead,htail⟩
  have hsome {p : Entry → Prop} (h : p e ∨ ∃ x∈since id past, p x) :
      ∃ x∈since id (e::past), p x := by
    rw [since_cons hnew]
    obtain he | ⟨x,hx,hp⟩ := h
    · exact ⟨e,mem_cons_self,he⟩
    · exact ⟨x,mem_cons_of_mem _ hx,hp⟩
  constructor
  · exact hsome (.inr h.created)
  · exact hall (by simp [hno.1]) fun x hx he => hours.trans (h.ours x hx he)
  · exact hall (by simp [hno.2]) fun x hx he => hours.trans (h.theirs x hx he)
  · intro hc hi
    rw [hours] at hi
    obtain hc | ⟨-,he⟩ | ⟨hf,-⟩ := hconf hc
    · exact hsome (.inr (h.confirmed hc hi))
    · exact hsome (.inl he)
    · simp [hi] at hf
  · intro hc hi
    rw [hours] at hi
    obtain hc | ⟨ht,-⟩ | ⟨-,he⟩ := hconf hc
    · exact hsome (.inr (h.accepted hc hi))
    · simp [hi] at ht
    · exact hsome (.inl he)
  · intro hwhen
    rw [since_cons hnew,findSome?_cons]
    obtain hsaid | ⟨hquiet,hid,hnoconf⟩ := hann
    · rw [hsaid]
    · rw [hquiet,hid]
      refine h.announced ?_
      rw [hours] at hwhen
      obtain hi | hc := hwhen
      · exact .inl hi
      · obtain hc | ⟨-,he⟩ | ⟨hi,-⟩ := hconf hc
        · exact .inr hc
        · simp [hnoconf] at he
        · exact .inl hi
  · exact hall (fun he => hclose (.inr he)) fun x hx he => hclose (.inl (h.closed x hx he))
  · exact hall (fun he => heof (.inr he)) fun x hx he => heof (.inl (h.ended x hx he))

/- An entry that has nothing to say about the channel. -/
def Entry.Silent (id : UInt32) (e : Entry) : Prop :=
  e.creates id=false ∧ e.announces id=none ∧ e.confirmedByPeer id=false ∧
    e.accepts id=false ∧ e.sendsClose id=false ∧ e.sendsEof id=false

theorem Recorded.silent (h : Recorded past id ch) (he : e.Silent id) :
    Recorded (e::past) id ch := by
  obtain ⟨hnew,hann,hconf,-,hclose,heof⟩ := he
  exact h.cons hnew rfl .inl (.inr ⟨hann,rfl,hconf⟩) (by simp [hclose]) (by simp [heof])

theorem silent_call_error (id : UInt32) (c : Call) (err : Error) :
    (Entry.call c (.error err)).Silent id := by
  cases c <;> exact ⟨rfl,rfl,rfl,rfl,rfl,rfl⟩

theorem silent_packet_error (id : UInt32) (payload : Bytes) (err : Error) :
    (Entry.packet payload (.error err)).Silent id := ⟨rfl,rfl,rfl,rfl,rfl,rfl⟩

/- A call that is not about the channel. -/
theorem silent_call (hc : c.subject≠some id) (hout : out.opened≠some id) :
    (Entry.call c (.ok out)).Silent id := by
  cases c <;> simp_all [Entry.Silent,Call.subject,Entry.creates,Entry.openedByUs,
    Entry.openedByPeer,Entry.announces,Entry.confirmedByPeer,Entry.accepts,Entry.sendsClose,
    Entry.sendsEof]

/- `accept_open` and `reject_open` are for channels that the peer asked for. -/
def Careful (s : ConnectionState) : Call → Prop
  | .acceptOpen id | .rejectOpen id .. => ∀ ch, s.channel id=some ch → ch.initiatedByUs=false
  | _ => True

theorem Recorded.call (h : ∀ id ch, r.conn.channel id=some ch → Recorded r.past id ch)
    (hc : Careful r.conn c) (hch' : (r.call c).conn.channel id=some ch') :
    Recorded (r.call c).past id ch' := by
  obtain ⟨err,hrun⟩ | ⟨out,s',hrun,hcalled⟩ := r.call_cases c
  · rw [hrun] at hch' ⊢
    exact (h id ch' hch').silent (silent_call_error id c err)
  rw [hrun] at hch' ⊢
  obtain ⟨hsub,ch,hch,heff⟩ | ⟨hsub,hout,hold⟩ | ⟨kind,rfl,rfl,rfl⟩ := hcalled.entry hch'
  · obtain ⟨-,hrem,hours,-⟩ := heff.kept ch' rfl
    refine (h id ch hch).cons ?_ hours ?_ (.inr ⟨rfl,hrem,rfl⟩) ?_ ?_
    · simp [Entry.creates,Entry.openedByUs,Entry.openedByPeer,heff.opened]
    · rw [heff.confirmed ch' rfl,Bool.or_eq_true]
      rintro (hconf | hacc)
      · exact .inl hconf
      · cases c <;> cases hacc
        cases hsub
        exact .inr (.inr ⟨hc ch hch,by simp [Entry.accepts]⟩)
    · rw [heff.closed ch' rfl]
      cases c <;> simp_all [Entry.sendsClose]
    · rw [heff.eof ch' rfl]
      cases c <;> simp_all [Entry.sendsEof]
  · exact (h id ch' hold).silent (silent_call hsub hout)
  · have hcreates : (Entry.call (.open kind) (.ok ⟨some (openPayload r.conn id kind),
        some id⟩)).creates id=true := by simp [Entry.creates,Entry.openedByUs]
    constructor <;> simp [since_cons_of_creates hcreates,outbound,Entry.creates,
      Entry.openedByUs,Entry.openedByPeer,Entry.sendsClose,Entry.sendsEof]

/- What is announced for a channel that a packet did not create. -/
theorem announces_packet (hparse : Msg.parse payload = .ok m) (hold : ev.opened≠some id)
    (hm : m.confirms id=false) : (Entry.packet payload (.ok ev)).announces id=none := by
  simp only [Entry.announces,hparse]
  split
  · next h =>
    exact if_neg fun h => hold (by rw [ChannelEvent.opened,h])
  · next h =>
    cases h
    exact if_neg (by simpa [Msg.confirms] using hm)
  · rfl

theorem Recorded.packet (h : ∀ id ch, r.conn.channel id=some ch → Recorded r.past id ch)
    (hch' : (r.packet payload).conn.channel id=some ch') :
    Recorded (r.packet payload).past id ch' := by
  obtain ⟨err,hrun⟩ | ⟨m,ev,s',hrun,hparse,hm⟩ := r.packet_cases payload
  · rw [hrun] at hch' ⊢
    exact (h id ch' hch').silent (silent_packet_error id payload err)
  rw [hrun] at hch' ⊢
  obtain ⟨ch,hch,hold,heard⟩ | ⟨hfree,name,kind,remoteId,window,maxPacket,rfl,rfl,rfl⟩ :=
    hm.entry hch'
  · obtain ⟨-,hours,heof,hclose⟩ := heard.kept
    have hnew : (Entry.packet payload (.ok ev)).creates id=false := by
      simpa [Entry.creates,Entry.openedByUs,Entry.openedByPeer] using hold
    have hconf : (Entry.packet payload (.ok ev)).confirmedByPeer id=m.confirms id := by
      simp only [Entry.confirmedByPeer,hparse]
    refine (h id ch hch).cons hnew hours ?_ ?_ (by simp [hclose,Entry.sendsClose])
      (by simp [heof,Entry.sendsEof])
    · obtain ⟨-,hsame,-⟩ | ⟨hi,window,maxPacket,rfl⟩ := heard.confirmed
      · rw [hsame]
        exact .inl
      · exact fun _ => .inr (.inl ⟨hi,by simp [hconf,Msg.confirms]⟩)
    · obtain ⟨hno,-,hsame⟩ | ⟨hi,window,maxPacket,rfl⟩ := heard.confirmed
      · exact .inr ⟨announces_packet hparse hold hno,hsame,hconf.trans hno⟩
      · exact .inl (by simp [Entry.announces,hparse])
  · have hcreates : (Entry.packet payload (.ok (.openRequest id kind))).creates id=true := by
      simp [Entry.creates,Entry.openedByPeer,ChannelEvent.opened]
    constructor <;> simp [since_cons_of_creates hcreates,inbound,Entry.creates,
      Entry.openedByUs,Entry.openedByPeer,Entry.sendsClose,Entry.sendsEof,Entry.announces,
      hparse,ChannelEvent.opened]

theorem Reaches.recorded (h : Reaches Careful r) :
    ∀ id ch, r.conn.channel id=some ch → Recorded r.past id ch := by
  induction h with
  | start => intro id ch hch; cases hch
  | call c _ hc ih => exact fun id ch hch => Recorded.call ih hc hch
  | packet payload _ ih => exact fun id ch hch => Recorded.packet ih hch
  | configure w m n _ ih => exact ih

theorem onPacket_refused (hch : s.channel id=some ch) (hours : ch.initiatedByUs=false)
    (hparse : Msg.parse payload = .ok m) (hm : (m.confirms id || m.refuses id)=true) :
    ∃ err, onPacket payload s=(.error err,s) := by
  rcases hrun : onPacket payload s with ⟨err | ev,s'⟩
  · exact ⟨err,by rw [(onPacket_settles payload).error hrun]⟩
  · obtain ⟨m',hparse',hh⟩ := (onPacket_settles payload).ok hrun
    cases hparse.symm.trans hparse'
    cases hh with
    | idle _ _ hidle => cases m <;> simp_all [Msg.confirms,Msg.refuses,Msg.idle]
    | received _ _ _ _ _ hcase =>
      obtain ⟨rfl,-⟩ | ⟨code,rfl,-⟩ := hcase <;> simp [Msg.confirms,Msg.refuses] at hm
    | confirmed at_ _ _ _ ch' hch' _ hi =>
      obtain rfl : at_=id := by simpa [Msg.confirms,Msg.refuses] using hm
      cases hch.symm.trans hch'
      simp [hi] at hours
    | failed at_ _ _ ch' hch' _ hi =>
      obtain rfl : at_=id := by simpa [Msg.confirms,Msg.refuses] using hm
      cases hch.symm.trans hch'
      simp [hi] at hours
    | _ => simp [Msg.confirms,Msg.refuses] at hm

/-- As long as `accept_open` and `reject_open` are only called for channels that the peer asked
for: a channel of ours is open only after the peer has confirmed it, and a channel of the peer
only after we have accepted it; the peer can neither confirm nor refuse its own channel. -/
theorem opened_by_the_other_side {r : Run} (h : Reaches Careful r) {id : UInt32}
    {ch : ChannelState} (hch : r.conn.channel id=some ch) :
    (∃ e∈since id r.past, e.creates id=true) ∧
    (∀ e∈since id r.past, e.openedByUs id=true → ch.openConfirmed=true →
      ∃ e'∈since id r.past, e'.confirmedByPeer id=true) ∧
    (∀ e∈since id r.past, e.openedByPeer id=true →
      (ch.openConfirmed=true → ∃ e'∈since id r.past, e'.accepts id=true) ∧
      ∀ payload m, Msg.parse payload = .ok m → (m.confirms id || m.refuses id)=true →
        ∃ err, onPacket payload r.conn=(.error err,r.conn)) := by
  have hrec := h.recorded id ch hch
  refine ⟨hrec.created,fun e he hours hconf => hrec.confirmed hconf (hrec.ours e he hours),?_⟩
  intro e he htheirs
  have hours := hrec.theirs e he htheirs
  exact ⟨fun hconf => hrec.accepted hconf hours,
    fun payload m hparse hm => onPacket_refused hch hours hparse hm⟩

/- The peer opens a session, which is accepted. -/
def Run.accepted : Run :=
  (Run.start.packet (openPayload ConnectionState.new 7 .session)).call (.acceptOpen 0)

theorem Run.accepted_reaches : Reaches Careful Run.accepted := by
  refine .call _ (.packet _ .start) ?_
  intro ch hch
  have hours : ((Run.start.packet (openPayload ConnectionState.new 7 .session)).conn.channel 0).map
      (·.initiatedByUs)=some false := by decide
  rw [hch] at hours
  exact Option.some.inj hours

theorem opened_by_the_other_side_session : ∃ ch, Run.accepted.conn.channel 0=some ch ∧
    ch.openConfirmed=true ∧ ∃ e∈since 0 Run.accepted.past, e.accepts 0=true := by
  have hch : (Run.accepted.conn.channel 0).map (·.openConfirmed)=some true := by decide
  obtain ⟨ch,hget,hconf⟩ := Option.map_eq_some_iff.1 hch
  obtain ⟨⟨e,he,hcreates⟩,-,htheirs⟩ := opened_by_the_other_side Run.accepted_reaches hget
  have hpeer : ∀ e∈since 0 Run.accepted.past, e.creates 0=true → e.openedByPeer 0=true := by
    decide
  exact ⟨ch,hget,hconf,(htheirs e he (hpeer e he hcreates)).1 hconf⟩

/-- `accept_open` also confirms a channel that this side has opened and the peer has not yet
answered. -/
theorem accept_open_confirms_own_channel : ∃ (r : Run) (ch : ChannelState),
    Reaches (fun _ _ => True) r ∧ r.conn.channel 0=some ch ∧ ch.openConfirmed=true ∧
    (∃ e∈since 0 r.past, e.openedByUs 0=true) ∧
    ∀ e∈since 0 r.past, e.confirmedByPeer 0=false := by
  let r := (Run.start.call (.open .session)).call (.acceptOpen 0)
  have hch : (r.conn.channel 0).map (·.openConfirmed)=some true := by decide
  have hpast : (∃ e∈since 0 r.past, e.openedByUs 0=true) ∧
      ∀ e∈since 0 r.past, e.confirmedByPeer 0=false := by decide
  obtain ⟨ch,hget,hconf⟩ := Option.map_eq_some_iff.1 hch
  exact ⟨r,ch,.call _ (.call _ .start trivial) trivial,hget,hconf,hpast⟩

/- What the protocol asks of a message `p` about a channel, given what happened before. -/
structure InLifetime (c : Call) (id : UInt32) (p : Bytes) (before : List Entry) : Prop where
  confirmed : ∃ e∈since id before, (e.confirmedByPeer id || e.accepts id)=true
  recipient : ∃ remoteId rest, (since id before).findSome? (Entry.announces id)=some remoteId ∧
    p=c.message::(be32 remoteId++rest)
  beforeClose : ∀ e∈since id before, e.sendsClose id=false
  beforeEof : (c.isData || c.isEof)=true → ∀ e∈since id before, e.sendsEof id=false

/- Every message about a channel, the answers to an open apart, lies in the channel's lifetime. -/
def Run.Observes (r : Run) : Prop :=
  ∀ after c out before id p, r.past=after ++ .call c (.ok out)::before →
    c.subject=some id → (c.isAccept || c.isReject)=false → out.wire=some p →
    InLifetime c id p before

/- What the send calls leave to their caller: the channel is confirmed, a reply comes before our
   CLOSE and there is no second EOF. -/
def Orderly (s : ConnectionState) (c : Call) : Prop :=
  Careful s c ∧ ∀ id ch, c.subject=some id → s.channel id=some ch →
    (c.isAccept || c.isReject)=false →
    ch.openConfirmed=true ∧ (c.isReply=true → ch.localClosed=false) ∧
      (c.isEof=true → ch.localEof=false)

/- One more call, made in a state that the past describes. -/
theorem inLifetime_of_call {p : Bytes}
    (hrec : ∀ id ch, r.conn.channel id=some ch → Recorded r.past id ch) (hord : Orderly r.conn c)
    (hrun : (execCall c r.conn).1 = .ok out) (hsub : c.subject=some id)
    (hkind : (c.isAccept || c.isReject)=false) (hp : out.wire=some p) :
    InLifetime c id p r.past := by
  obtain ⟨ch,hch,heff,-⟩ := ((execCall_settles _).ok (Prod.ext hrun rfl)).acts hsub
  have h := hrec id ch hch
  obtain ⟨hconf,hreply,heof⟩ := hord.2 id ch hsub hch hkind
  have hopen : ch.localClosed=false := by
    rcases Bool.eq_false_or_eq_true c.isReply with hr | hr
    · exact hreply hr
    · exact heff.beforeClose p hp (by rw [hkind,hr]; rfl)
  constructor
  · rcases Bool.eq_false_or_eq_true ch.initiatedByUs with hi | hi
    · obtain ⟨e,he,hc⟩ := h.confirmed hconf hi
      exact ⟨e,he,by simp [hc]⟩
    · obtain ⟨e,he,ha⟩ := h.accepted hconf hi
      exact ⟨e,he,by simp [ha]⟩
  · obtain ⟨rest,hrest⟩ := heff.payload p hp
    exact ⟨ch.remoteId,rest,h.announced (.inr hconf),hrest⟩
  · intro e he
    by_contra hclose
    rw [h.closed e he (by simpa using hclose)] at hopen
    cases hopen
  · intro hwhich e he
    by_contra hend
    have hended := h.ended e he (by simpa using hend)
    rcases Bool.or_eq_true _ _ ▸ hwhich with hd | he'
    · rw [heff.beforeEof hd] at hended
      cases hended
    · rw [heof he'] at hended
      cases hended

/-- In every run whose calls are orderly, each message about a channel is sent between the
confirmation of the channel and our CLOSE, to the id that the peer announced; no data and no
second EOF follow our EOF, and there is one CLOSE at most. -/
theorem messages_in_lifetime {r : Run} (h : Reaches Orderly r) : r.Observes := by
  induction h with
  | start =>
    intro after c out before id p hpast
    simp [Run.start] at hpast
  | @call r c hr hc ih =>
    have hrec := (hr.mono fun _ _ ho => ho.1 : Reaches Careful r).recorded
    intro after c' out before id p hpast hsub hkind hp
    cases after with
    | nil =>
      obtain ⟨hentry,hbefore⟩ := cons.inj hpast
      obtain ⟨rfl,hrun⟩ := Entry.call.inj hentry
      cases hbefore
      exact inLifetime_of_call hrec hc hrun hsub hkind hp
    | cons e after => exact ih after c' out before id p (cons.inj hpast).2 hsub hkind hp
  | packet payload _ ih =>
    intro after c out before id p hpast hsub hkind hp
    cases after with
    | nil => cases (cons.inj hpast).1
    | cons e after => exact ih after c out before id p (cons.inj hpast).2 hsub hkind hp
  | configure w m n _ ih => exact ih

/- A session of the peer on which one reply is sent. -/
theorem messages_in_lifetime_session : (Run.accepted.call (.sendEof 0)).Observes := by
  refine messages_in_lifetime (.call _ (.call _ (.packet _ .start) ⟨?_,?_⟩) ⟨trivial,?_⟩)
  · intro ch hch
    have hours : ((Run.start.packet (openPayload ConnectionState.new 7 .session)).conn.channel
        0).map (·.initiatedByUs)=some false := by decide
    rw [hch] at hours
    exact Option.some.inj hours
  · intro id ch hsub hch hkind
    cases hkind
  · intro id ch hsub hch hkind
    cases hsub
    have hstate : (Run.accepted.conn.channel 0).map (fun ch => (ch.openConfirmed,ch.localEof)) =
        some (true,false) := by decide
    rw [hch] at hstate
    obtain ⟨hconf,heof⟩ := Prod.mk.inj (Option.some.inj hstate)
    exact ⟨hconf,nofun,fun _ => heof⟩

/- What the calls of a run have sent, oldest first. -/
def Run.sent (r : Run) : List Bytes := r.past.reverse.filterMap fun
  | .call _ (.ok out) => out.wire
  | _ => none

/- A session of ours, used before the peer has answered and after our CLOSE. -/
def Run.careless : Run :=
  (Run.start.call (.open .session)).call (.sendRequest 0 .shell false)
    |>.packet (msgChannelOpenConfirmation::(be32 0++be32 9++be32 100++be32 100))
    |>.call (.sendEof 0) |>.call (.sendEof 0) |>.call (.sendClose 0)
    |>.call (.sendRequestSuccess 0)

/-- The send calls do not make these checks: a request goes out for a channel that the peer has
not confirmed, to recipient 0; after the confirmation a second EOF does, and a reply after our
CLOSE. -/
theorem messages_outside_lifetime : Reaches (fun _ _ => True) Run.careless ∧
    ¬Run.careless.Observes ∧ Run.careless.sent.tail.map (·.take 5) =
      [msgChannelRequest::be32 0,msgChannelEof::be32 9,msgChannelEof::be32 9,
        msgChannelClose::be32 9,msgChannelSuccess::be32 9] := by
  refine ⟨?_,fun hobs => ?_,by decide⟩
  · exact .call _ (.call _ (.call _ (.call _ (.packet _ (.call _ (.call _ .start trivial) trivial))
      trivial) trivial) trivial) trivial
  · let opened := Run.start.call (.open .session)
    have hwire : ((execCall (.sendRequest 0 .shell false) opened.conn).1.toOption.bind
        Output.wire).isSome=true := by decide
    obtain ⟨p,hp⟩ := Option.isSome_iff_exists.1 hwire
    obtain ⟨out,hout,hp⟩ := Option.bind_eq_some_iff.1 hp
    have hrun : (execCall (.sendRequest 0 .shell false) opened.conn).1 = .ok out := by
      cases hres : (execCall (.sendRequest 0 .shell false) opened.conn).1 with
      | error err => rw [hres] at hout; cases hout
      | ok out' => rw [hres] at hout; cases hout; rfl
    obtain ⟨e,he,hconf⟩ := (hobs [_,_,_,_,_] (.sendRequest 0 .shell false) out opened.past 0 p
      (by rw [← hrun]; rfl) rfl rfl hp).confirmed
    have hnone : ∀ e∈since 0 opened.past, (e.confirmedByPeer 0 || e.accepts 0)=false := by
      decide
    rw [hnone e he] at hconf
    cases hconf

/- The shape of the table. -/
def Shaped (s : ConnectionState) : Prop :=
  ∀ id ch, s.channel id=some ch → ch.localId=id ∧ ch.isFullyClosed=false

theorem Shaped.called (h : Shaped s) (hc : Called s c out s') : Shaped s' := by
  intro id ch' hch'
  obtain ⟨-,ch,hch,heff⟩ | ⟨-,-,hold⟩ | ⟨kind,-,-,rfl⟩ := hc.entry hch'
  · obtain ⟨hlocal,hlive⟩ := h id ch hch
    exact ⟨(heff.kept ch' rfl).1.trans hlocal,heff.live ch' rfl hlive⟩
  · exact h id ch' hold
  · exact ⟨rfl,rfl⟩

theorem Shaped.handled (h : Shaped s) (hm : Handled s m ev s') : Shaped s' := by
  intro id ch' hch'
  obtain ⟨ch,hch,-,heard⟩ | ⟨-,name,kind,remoteId,window,maxPacket,rfl,rfl,rfl⟩ :=
    hm.entry hch'
  · obtain ⟨hlocal,hlive⟩ := h id ch hch
    exact ⟨heard.kept.1.trans hlocal,heard.live hlive⟩
  · exact ⟨rfl,rfl⟩

theorem Reaches.shaped (h : Reaches allowed r) : Shaped r.conn := by
  induction h with
  | start => intro id ch hch; cases hch
  | @call r c _ _ ih =>
    obtain ⟨err,hrun⟩ | ⟨out,s',hrun,hc⟩ := r.call_cases c
    · rwa [hrun]
    · rw [hrun]
      exact ih.called hc
  | @packet r payload _ ih =>
    obtain ⟨err,hrun⟩ | ⟨m,ev,s',hrun,-,hm⟩ := r.packet_cases payload
    · rwa [hrun]
    · rw [hrun]
      exact ih.handled hm
  | configure w m n _ ih => exact ih

/- The number of channels in the table. -/
def tracked (s : ConnectionState) : Nat := s.channels.keys.length

theorem mem_keys (h : s.channel id=some ch) : id∈s.channels.keys := by
  have hsome : (s.channels.lookup id).isSome=true := Option.isSome_iff_exists.2 ⟨ch,h⟩
  exact AList.mem_keys.1 (AList.lookup_isSome.1 hsome)

theorem tracked_put_of_mem (h : s.channel id=some ch) (ch' : ChannelState) :
    tracked (put id ch' s)=tracked s := by
  have hmem := mem_keys h
  have hpos := length_pos_of_mem hmem
  simp only [tracked,put,AList.keys_insert,length_cons,length_erase_of_mem hmem]
  omega

theorem tracked_put_le (s : ConnectionState) (id : UInt32) (ch : ChannelState) :
    tracked (put id ch s)≤tracked s+1 := by
  simp only [tracked,put,AList.keys_insert]
  exact Nat.succ_le_succ length_erase_le

theorem tracked_remove_le (s : ConnectionState) (id : UInt32) : tracked (remove id s)≤tracked s := by
  simp only [tracked,remove,AList.keys_erase]
  exact length_erase_le

/-- Only a CHANNEL_OPEN below the cap makes the table grow, by one channel. -/
theorem Handled.tracked_le (h : m.handle s=(.ok ev,s')) :
    tracked s'≤ max (tracked s) s.maxChannels.toNat := by
  have hsame : tracked s'≤tracked s → tracked s'≤ max (tracked s) s.maxChannels.toNat :=
    fun hle => Nat.le_trans hle (Nat.le_max_left _ _)
  cases (handle_settles _).ok h with
  | idle | rejected => exact hsame (Nat.le_refl _)
  | requested name kind remoteId window maxPacket id hfree =>
    simp only [Msg.handle,receiveOpen,Proc.get_bind] at h
    split at h
    · cases h
    · next hroom =>
      refine Nat.le_trans (tracked_put_le _ _ _) (Nat.le_trans ?_ (Nat.le_max_right _ _))
      change s.channels.keys.length+1≤_
      omega
  | confirmed _ _ _ _ _ hch | adjusted _ _ _ hch | eof _ _ hch | closed _ _ hch =>
    exact hsame (Nat.le_of_eq (tracked_put_of_mem hch _))
  | received _ _ _ _ _ _ hch => exact hsame (Nat.le_of_eq (tracked_put_of_mem hch _))
  | failed | finished => exact hsame (tracked_remove_le _ _)

theorem firstFree_eq_none {fuel : Nat} {start : UInt32} (h : s.firstFree fuel start=none) :
    ∀ i<fuel, start+UInt32.ofNat i∈s.channels.keys := by
  induction fuel generalizing start with
  | zero => omega
  | succ fuel ih =>
    rw [firstFree] at h
    split at h
    · cases h
    · next htaken =>
      intro i hi
      cases i with
      | zero =>
        obtain ⟨ch,hch⟩ : ∃ ch, s.channel start=some ch := by
          simpa [Option.ne_none_iff_exists'] using htaken
        simpa using mem_keys hch
      | succ i =>
        have hi' := ih h i (by omega)
        have hadd : start+UInt32.ofNat (i+1)=start+1+UInt32.ofNat i := by
          rw [UInt32.ofNat_add,UInt32.add_assoc,UInt32.add_comm (UInt32.ofNat i)]
          rfl
        rwa [hadd]

/-- The search for a free id ends: with `n` channels, one of any `n + 1` ids in a row is free. -/
theorem allocateLocalId_total (h : tracked s<2^32) : ∃ id s', allocateLocalId s=(.ok id,s') := by
  simp only [allocateLocalId,Proc.get_bind]
  cases hfree : s.firstFree (s.channels.keys.length+1) s.nextLocalId with
  | some id => exact ⟨id,_,rfl⟩
  | none =>
    have hall := firstFree_eq_none hfree
    have hnodup : ((range (s.channels.keys.length+1)).map
        fun i => s.nextLocalId+UInt32.ofNat i).Nodup := by
      refine List.Nodup.map_on ?_ nodup_range
      intro i hi j hj hij
      rw [mem_range] at hi hj
      have hij := congrArg UInt32.toNat (UInt32.add_right_inj _ |>.1 hij)
      unfold tracked at h
      rwa [toNat_ofNat_of_lt (by omega),toNat_ofNat_of_lt (by omega)] at hij
    have hsub : ((range (s.channels.keys.length+1)).map
        fun i => s.nextLocalId+UInt32.ofNat i) ⊆ s.channels.keys := by
      intro id hid
      obtain ⟨i,hi,rfl⟩ := mem_map.1 hid
      exact hall i (mem_range.1 hi)
    have hle := (subperm_of_subset hnodup hsub).length_le
    rw [length_map,length_range] at hle
    omega

/-- Whatever is called and whatever comes in: the table is indexed by local id and holds no
channel that both sides have closed, an id is handed out only when it is free, and a CHANNEL_OPEN
of the peer never takes the table beyond its cap; at the cap it changes nothing and is answered
with a failure for the peer's id. -/
theorem table_structure {r : Run} (h : Reaches (fun _ _ => True) r) :
    (∀ id ch, r.conn.channel id=some ch →
      ch.localId=id ∧ ¬(ch.localClosed=true ∧ ch.remoteClosed=true)) ∧
    (∀ c out s' id, execCall c r.conn=(.ok out,s') → out.opened=some id → r.conn.channel id=none) ∧
    (∀ payload ev s' id, onPacket payload r.conn=(.ok ev,s') → ev.opened=some id →
      r.conn.channel id=none) ∧ (∀ payload, tracked (onPacket payload r.conn).2 ≤
      max (tracked r.conn) r.conn.maxChannels.toNat) ∧
    (∀ payload name kind remoteId window maxPacket,
      Msg.parse payload = .ok (.open name kind remoteId window maxPacket) →
      r.conn.maxChannels.toNat≤tracked r.conn → onPacket payload r.conn =
        (.ok (.openRejected (rejection remoteId) sshOpenResourceShortage),r.conn)) := by
  refine ⟨?_,?_,?_,?_,?_⟩
  · intro id ch hch
    obtain ⟨hlocal,hlive⟩ := h.shaped id ch hch
    exact ⟨hlocal,by simpa [ChannelState.isFullyClosed] using hlive⟩
  · intro c out s' id hrun hopened
    cases (execCall_settles c).ok hrun with
    | opened kind new hfree => cases hopened; exact hfree
    | _ => cases hopened
  · intro payload ev s' id hrun hopened
    obtain ⟨m,-,hm⟩ := (onPacket_settles payload).ok hrun
    cases hm with
    | idle _ _ _ _ ho => simp [ho] at hopened
    | received _ _ _ _ _ hcase =>
      obtain ⟨-,rfl⟩ | ⟨code,-,rfl⟩ := hcase <;> cases hopened
    | requested _ _ _ _ _ _ hfree => cases hopened; exact hfree
    | _ => cases hopened
  · intro payload
    rcases hrun : onPacket payload r.conn with ⟨err | ev,s'⟩
    · rw [(onPacket_settles payload).error hrun]
      exact Nat.le_max_left _ _
    · rw [Msg.onPacket_eq,Proc.lift_bind_eq_ok] at hrun
      obtain ⟨m,-,hrun⟩ := hrun
      exact Handled.tracked_le hrun
  · intro payload name kind remoteId window maxPacket hparse hfull
    have hfull : r.conn.maxChannels.toNat≤r.conn.channels.keys.length := hfull
    rw [Msg.onPacket_eq,hparse,Proc.lift_ok_bind,Msg.handle,receiveOpen,Proc.get_bind,
      if_pos hfull]
    rfl

theorem table_structure_session : tracked (onPacket (openPayload ConnectionState.new 8 .session)
    Run.accepted.conn).2≤ max (tracked Run.accepted.conn) Run.accepted.conn.maxChannels.toNat :=
  (table_structure (Run.accepted_reaches.mono fun _ _ _ => trivial)).2.2.2.1 _

end PureSsh.Channel
