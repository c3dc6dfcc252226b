import PureSsh.Channel.World

/-! Honest traffic between two multiplexers is never refused. -/

namespace PureSsh.Channel
open Lib Reader Writer ConnectionState List Function
open Lib.CreditLink (Sig End Flowing Valid Live Pending Requested party_eq dataSum creditSum)

variable {ch ch' : ChannelState} {id amount remoteId i : UInt32} {g : Ghost} {w : World}
  {x o : Bool} {n owed t : Nat} {e' : Endpoint} {payload : Bytes} {rest : List (Nat × Bytes)}
  {s : Sig UInt32} {m : Msg} {B : Bool → List (Sig UInt32)} {E : Bool → End UInt32}
  {len : Sig UInt32 → Nat} {maxChannels maxPacket window : Bool → UInt32}

theorem toEnd_put_of_eq {s : ConnectionState} (hch : s.channel id=some ch)
    (he : ch'.toEnd id=ch.toEnd id) (id' : UInt32) :
    ((put id ch' s).channel id').map (·.toEnd id')=(s.channel id').map (·.toEnd id') := by
  by_cases hid : id'=id
  · subst hid
    simp [hch,he]
  · rw [channel_put_ne _ _ _ _ hid]

theorem Inv.link (h : Inv w g) (hch : (w.side x).conn.channel id=some ch) :
    g.ends (g.owner x id) x=some (ch.toEnd id) ∧ (ch.toEnd id).dead=false ∧
      Valid (g.opener (g.owner x id)) (g.ends (g.owner x id))
        fun z => flight (g.owner x id) (g.tags z) := by
  obtain ⟨hlt,he,hd⟩ := h.entry x id ch hch
  exact ⟨he,hd,h.valid _ hlt⟩

theorem toEnd_sent (ch : ChannelState) (id : UInt32) (hn : n≤ch.remoteWindow.toNat) : ({ ch with
        remoteWindow := satSub ch.remoteWindow (UInt32.ofNat n)
        activity := ch.activity+UInt64.ofNat n } : ChannelState).toEnd id =
      { ch.toEnd id with sendWindow := (ch.toEnd id).sendWindow-n } := by
  have hlt := ch.remoteWindow.toNat_lt
  simp only [ChannelState.toEnd,satSub_toNat,toNat_ofNat_of_lt (Nat.lt_of_le_of_lt hn hlt)]

theorem toEnd_flushed (h : Balanced owed ch) (id : UInt32) (ha : amount.toNat≤owed) : ({ ch with
        pendingReplenish := 0
        localWindow := satAdd ch.localWindow (satAdd ch.pendingReplenish amount) } :
        ChannelState).toEnd id =
      { ch.toEnd id with
        recvWindow := (ch.toEnd id).recvWindow+(satAdd ch.pendingReplenish amount).toNat } := by
  simp only [ChannelState.toEnd,(h.credit_toNat ha).2]

/- Credit is only given for delivered bytes, and those arrive on confirmed channels. -/
theorem Balanced.confirmed_of_owed (h : Balanced owed ch) (ha : amount.toNat≤owed)
    (hz : amount≠0) : ch.openConfirmed=true := by
  by_contra hno
  have howed := h.idle (by simpa using hno)
  exact hz (UInt32.toNat_inj.1 (by simp; omega))

theorem Inv.callOpened (h : Inv w g) {kind : ChannelOpen} (hk : kind.kind.length<2^32)
    (hfree : (w.side x).conn.channel id=none)
    (hconn : e'.conn=put id (outbound (w.side x).conn id kind)
      { (w.side x).conn with nextLocalId := id+1 }) (hbal : e'.Balanced) :
    ∃ g', Inv ⟨update w.side x e',update w.queue x
      (w.queue x++[openPayload (w.side x).conn id kind])⟩ g' := by
  have hs := signal_openPayload (w.side x).conn id hk
  have hnone (y : Bool) : flight g.next (g.tags y)=[] := by
    refine filterMap_eq_nil_iff.2 fun p hp => ?_
    split
    · next hp1 =>
      by_contra hsig
      exact absurd (h.tagged y p hp hsig) (by omega)
    · rfl
  have hP : Pending ((outbound (w.side x).conn id kind).toEnd id) := ⟨rfl,rfl,rfl,rfl⟩
  have hlt := Nat.lt_succ_self g.next
  have hopener := h.fresh g.next (!x) (Nat.le_refl _)
  refine h.add (update g.opener g.next x) hfree (h.fresh _ _ (Nat.le_refl _))
    (.put hconn (fun _ => rfl) hbal hP.dead)
    ((h.retagged g.next hlt.le).push x _ fun _ _ _ => hlt) hlt hlt.le (fun m hm hne => ?_)
    (fun m hm => update_of_ne hm _ _) ?_
  · omega
  · rw [update_self]
    refine .opening _ hP (update_self _ _ _) ?_ ?_ ?_
    · rwa [update_of_ne (Bool.not_ne_self x)]
    · simp only [update_self,flight_append,hnone]
      exact flight_singleton_self _ hs
    · rw [update_of_ne (Bool.not_ne_self x)]
      exact hnone _

theorem Inv.sendClose (h : Inv w g) (hch : (w.side x).conn.channel id=some ch)
    (hc : ch.openConfirmed=true) (hl : ch.localClosed=false)
    (ht : Turned (w.side x) e' id { ch.toEnd id with closed := true }) :
    ∃ g', Inv ⟨update w.side x e',
      update w.queue x (w.queue x++[msgChannelClose::be32 ch.remoteId])⟩ g' := by
  obtain ⟨he,hd,hv⟩ := h.link hch
  obtain ⟨E,B,hlv,hEx⟩ := hv.established he hc hd
  have hflow := hlv.flowing.sendClose x
  rw [hEx] at hflow
  refine h.send hch ht (signal_close _)
    (.live _ _ (hlv.send (by rw [hEx]; exact he) ?_ hc ?_ (hflow hl)))
  all_goals rw [hEx]

/-- Every honest call keeps the links valid. -/
theorem Inv.call (h : Inv w g) {c : Call} (hf : (w.side x).Fair c) : ∃ g', Inv (w.call x c) g' := by
  unfold World.call
  split
  case h_2 err s' herr =>
    rw [(execCall_settles c).error herr]
    refine ⟨g,?_⟩
    simpa using h
  case h_1 out s' hok =>
  have hc := (execCall_settles _).ok hok
  have hbal := (h.balanced x).afterCall hc hf.honest
  cases hc with
  | quiet _ id ch wire hsub hch hc hw he hr =>
    refine h.sendQuiet (fun _ => rfl) hbal fun payload hp => ?_
    obtain ⟨hm,⟨rest,rfl⟩,-⟩ := hw payload (by simpa using hp)
    exact signal_quiet (by simpa using hm)
  | opened kind id hfree => exact h.callOpened hf hfree rfl hbal
  | accepted id ch hch hconf =>
    obtain ⟨he,hd,hv⟩ := h.link hch
    exact h.send hch (.put rfl (fun _ => rfl) hbal hd) (signal_confirmation _ _ _ _)
      (hv.accept he (hf ch hch) hconf hd)
  | rejected id reason description language ch hch hconf =>
    obtain ⟨he,hd,hv⟩ := h.link hch
    refine h.send hch (.remove rfl hbal rfl ch.localWindow.toNat_lt rfl) ?_
      (hv.reject he (hf ch hch) hconf hd)
    exact signal_refusal _ _
  | sent _ id ch bytes payload hp hch hl _ hw hm =>
    obtain ⟨he,hd,hv⟩ := h.link hch
    have hopen : ch.isOpen=true := by
      obtain ⟨⟨data,rfl | rfl⟩,-⟩ | ⟨code,data,rfl,-⟩ := hp
      all_goals exact hf ch hch
    have hconf : ch.openConfirmed=true := by
      simp only [ChannelState.isOpen,Bool.and_eq_true] at hopen
      exact hopen.1.1
    have hlen : bytes.length<2^32 := Nat.lt_of_le_of_lt hw ch.remoteWindow.toNat_lt
    have hs : signal payload=some (.data ch.remoteId bytes.length) := by
      obtain ⟨-,rfl⟩ | ⟨code,data,-,rfl⟩ := hp
      · exact signal_dataPayload _ hlen
      · exact signal_extendedDataPayload _ _ hlen
    have hend := toEnd_sent ch id hw
    obtain ⟨E,B,hlv,hEx⟩ := hv.established he hconf hd
    refine h.send hch (.put rfl (fun _ => rfl) hbal ?_) hs ?_
    · rw [hend]
      exact hd
    · rw [hend,← hEx]
      refine .live _ _ (hlv.send (by rw [hEx]; exact he) rfl ?_ rfl ?_)
      · rw [hEx]
        exact hconf
      · have hflow := hlv.flowing.sendData x bytes.length
        rw [hEx] at hflow ⊢
        exact hflow hl hw hm
  | eof id ch hch hl =>
    refine h.sendQuiet (toEnd_put_of_eq hch rfl) hbal ?_
    simp [signal_eof]
  | closed id ch hch hl hr =>
    refine h.sendClose hch (hf ch hch) hl (.put rfl (fun _ => rfl) hbal ?_)
    simp [End.dead,ChannelState.toEnd,hr]
  | finished id ch hch hl hr =>
    refine h.sendClose hch (hf ch hch) hl (.remove rfl hbal rfl ch.localWindow.toNat_lt ?_)
    simp [End.dead,ChannelState.toEnd,hr]
  | held id amount ch hch hl hz ht =>
    refine h.sendQuiet (toEnd_put_of_eq hch rfl) hbal ?_
    simp
  | flushed id amount ch hch hl hz =>
    obtain ⟨he,hd,hv⟩ := h.link hch
    have hb := h.balanced x id ch hch
    have hconf := hb.confirmed_of_owed hf hz
    have hend := toEnd_flushed hb id hf
    obtain ⟨E,B,hlv,hEx⟩ := hv.established he hconf hd
    refine h.send hch (.put rfl (fun _ => rfl) hbal ?_) (signal_adjust _ _) ?_
    · exact hd
    · rw [hend]
      have hflow := hlv.flowing.sendCredit x (satAdd ch.pendingReplenish amount).toNat
      rw [hEx] at hflow
      refine .live _ _ (hlv.send (by rw [hEx]; exact he) ?_ hconf ?_ (hflow hl))
      all_goals rw [hEx]

theorem Inv.head (h : Inv w g) (htags : g.tags x=(t,payload)::rest)
    (hs : signal payload=some s) : t<g.next ∧ flight t (g.tags x)=s::flight t rest ∧
      Valid (g.opener t) (g.ends t) fun z => flight t (g.tags z) := by
  have hlt : t<g.next := by
    refine h.tagged x (t,payload) ?_ (by simp [hs])
    rw [htags]
    exact mem_cons_self
  refine ⟨hlt,?_,h.valid t hlt⟩
  rw [htags,flight_cons,flight_singleton_self t hs]
  rfl

/- The entry a signal is addressed to belongs to the link of the signal. -/
theorem Inv.target (h : Inv w g) {y : Bool} {F : End UInt32} (hF : g.ends t y=some F)
    (hd : F.dead=false) (hid : id=F.id) (hch : (w.side y).conn.channel id=some ch) :
    t=g.owner y id ∧ F=ch.toEnd id := by
  subst hid
  obtain ⟨ch',hch',hown⟩ := h.alive t y F hF hd
  obtain ⟨-,he,-⟩ := h.entry y F.id ch hch
  rw [hown,hF] at he
  exact ⟨hown.symm,Option.some.inj he⟩

theorem Inv.deliverOpen (h : Inv w g) {name : Str} {window maxPacket : UInt32}
    (htags : g.tags x=(t,payload)::rest)
    (hs : signal payload=some (.open remoteId window.toNat maxPacket.toNat))
    (hfree : (w.side !x).conn.channel id=none)
    (hconn : e'.conn=put id (inbound (w.side !x).conn id name remoteId window maxPacket)
      { (w.side !x).conn with nextLocalId := id+1 }) (hbal : e'.Balanced) :
    ∃ g', Inv ⟨update w.side (!x) e',update w.queue x (rest.map Prod.snd)⟩ g' := by
  have hne : (!x)≠x := Bool.not_ne_self x
  obtain ⟨hlt,hfl,hv⟩ := h.head htags hs
  obtain ⟨hx,hl,hq,hnone,P,hP,hPx,hid,hw,hm⟩ := hv.recvOpen hfl
  have hd : ((inbound (w.side !x).conn id name remoteId window maxPacket).toEnd id).dead =
      false := rfl
  refine h.add g.opener hfree hnone (.put hconn (fun _ => rfl) hbal hd)
    ((h.retagged t (Nat.le_refl _)).pop htags (.inl rfl)) hlt (Nat.le_refl _) (fun m hm _ => hm)
    (fun _ _ => rfl) ?_
  rw [← hx]
  refine .requested P _ hP ?_ ?_ (update_self _ _ _) ?_ ?_
  · exact ⟨rfl,rfl,rfl,rfl,hid,hw,hm⟩
  · rw [update_of_ne hne.symm]
    exact hPx
  · simpa using hl
  · simpa [hne] using hq

theorem Inv.deliverReject (h : Inv w g) {window maxPacket : UInt32}
    (htags : g.tags x=(t,payload)::rest)
    (hs : signal payload=some (.open remoteId window.toNat maxPacket.toNat))
    (hconn : e'.conn=(w.side !x).conn) (hbal : e'.Balanced) : ∃ g', Inv ⟨update w.side (!x) e',
      update (update w.queue x (rest.map Prod.snd)) (!x)
        (w.queue (!x)++[rejection remoteId])⟩ g' := by
  have hne : (!x)≠x := Bool.not_ne_self x
  obtain ⟨hlt,hfl,hv⟩ := h.head htags hs
  obtain ⟨hx,hl,hq,hnone,P,hP,hPx,hid,-,-⟩ := hv.recvOpen hfl
  have hrej : signal (rejection remoteId)=some (.refuse remoteId) := by
    exact signal_refusal _ _
  have hr := ((h.retagged t (Nat.le_refl _)).pop htags (.inl rfl)).push (!x)
    [rejection remoteId] fun _ _ _ => hlt
  rw [update_of_ne hne,update_of_ne hne] at hr
  refine h.retag (fun id => by rw [hconn]) hbal hr fun _ => ?_
  rw [← hx]
  refine .refused P hP hPx (by simp [hnone]) ?_ ?_
  · rw [update_of_ne hne.symm,update_self]
    exact hl
  · rw [update_self,flight_append,hq,map_singleton,flight_singleton_self t hrej,hid]
    rfl

theorem Msg.signal_of_idle (h : m.idle=true) : m.signal=none := by
  cases m <;> first | rfl | cases h

theorem toEnd_received (ch : ChannelState) (id : UInt32) (hn : n<2^32)
    (hw : n≤ch.localWindow.toNat) : ({ ch with
        localWindow := ch.localWindow-UInt32.ofNat n
        activity := ch.activity+(UInt32.ofNat n).toUInt64 } : ChannelState).toEnd id =
      { ch.toEnd id with recvWindow := (ch.toEnd id).recvWindow-n } := by
  have hlen := toNat_ofNat_of_lt hn
  have hsub : (ch.localWindow-UInt32.ofNat n).toNat=ch.localWindow.toNat-n := by
    rw [UInt32.toNat_sub_of_le _ _ (by rwa [UInt32.le_iff_toNat_le,hlen]),hlen]
  simp only [ChannelState.toEnd,hsub]

theorem toEnd_adjusted (ch : ChannelState) (id : UInt32) {added : UInt32}
    (hlt : ch.remoteWindow.toNat+added.toNat<2^32) :
    ({ ch with remoteWindow := satAdd ch.remoteWindow added } : ChannelState).toEnd id =
      { ch.toEnd id with sendWindow := (ch.toEnd id).sendWindow+added.toNat } := by
  simp only [ChannelState.toEnd,satAdd_toNat_of_lt hlt]

theorem Inv.live_small (h : Inv w g) {q : Bool → List (Sig UInt32)} (hlv : Live o (g.ends t) q E B)
    (x : Bool) : (E x).recvWindow<2^32 := by
  rcases party_eq x o with rfl | rfl
  · rcases hlv.opener with ⟨ho,-⟩ | ⟨P,w,m,-,ho,hE,-⟩
    · exact h.small t x _ ho
    · rw [hE]
      exact h.small t x P ho
  · exact h.small t _ _ hlv.acceptor

/- A data, credit or close signal reaches the entry it was sent to. -/
theorem Inv.arrival (h : Inv w g) (htags : g.tags x=(t,payload)::rest)
    (hs : signal payload=some s) (hch : (w.side !x).conn.channel id=some ch)
    (hopen : ∀ i w m, s ≠ .open i w m) (hrefuse : ∀ r, s ≠ .refuse r)
    (hconfirm : ∀ r j w m, s ≠ .confirm r j w m)
    (hid : ∀ E B, Flowing E B → B x=s::flight t rest → id=(E !x).id) :
    t=g.owner (!x) id ∧ ∃ E B, Live (g.opener t) (g.ends t) (fun z => flight t (g.tags z)) E B ∧
      flight t (g.tags x)=s::flight t rest ∧ B x=s::flight t rest ∧ E (!x)=ch.toEnd id := by
  obtain ⟨-,hfl,hv⟩ := h.head htags hs
  obtain ⟨E,B,hlv⟩ := hv.live_of_head hfl hopen hrefuse
  obtain ⟨hB,hend⟩ := hlv.head hfl hconfirm
  have hdead : (E !x).dead=false := by
    simp [End.dead,hlv.flowing.peer_reads x hB]
  obtain ⟨ht,hE⟩ := h.target hend hdead (hid E B hlv.flowing hB) hch
  exact ⟨ht,E,B,hlv,hfl,hB,hE⟩

theorem queue_of_reply_nil (queue : Bool → List Bytes) (x : Bool) (rest : List Bytes)
    (ev : ChannelEvent) (h : ev.reply=[]) :
    update (update queue x rest) (!x) (queue (!x)++ev.reply)=update queue x rest := by
  rw [h,append_nil,← update_of_ne (Bool.not_ne_self x) rest queue,update_eq_self]

theorem Inv.receiveClose (h : Inv w g) (htags : g.tags x=(t,payload)::rest)
    (hsig : signal payload=some (.close id)) (hch : (w.side !x).conn.channel id=some ch)
    (hc : ch.openConfirmed=true)
    (ht : Turned (w.side !x) e' id { ch.toEnd id with peerClosed := true }) :
    ∃ g', Inv ⟨update w.side (!x) e',update w.queue x (rest.map Prod.snd)⟩ g' := by
  obtain ⟨rfl,E,B,hlv,hfl,hB,hE⟩ := h.arrival htags hsig hch (by simp) (by simp) (by simp)
    fun E B hf hB => (hf.recvClose x hB).1
  have hflow := (hlv.flowing.recvClose x hB).2
  rw [hE] at hflow
  refine h.receive hch htags ht (.live _ _ (hlv.recv hfl ?_ hc ?_ hflow))
  all_goals rw [hE]

/- One case for each way the receiver handles the oldest message of `x`. -/
theorem Inv.handled (h : Inv w g) {ev : ChannelEvent} {s' : ConnectionState}
    (htags : g.tags x=(t,payload)::rest) (hsig : signal payload=m.signal) (hsized : m.Sized)
    (hm : Handled (w.side !x).conn m ev s') :
    ∃ g', Inv ⟨update w.side (!x) ((w.side !x).afterEvent ev s'),
      update (update w.queue x (rest.map Prod.snd)) (!x) (w.queue (!x)++ev.reply)⟩ g' := by
  have hbal := (h.balanced (!x)).afterEvent hm hsized
  cases hm with
  | idle _ _ hm _ _ hr =>
    rw [queue_of_reply_nil _ _ _ _ hr]
    exact h.receiveQuiet htags (hsig.trans (Msg.signal_of_idle hm)) (fun _ => rfl) hbal
  | rejected => exact h.deliverReject htags hsig rfl hbal
  | requested _ kind _ _ _ id hfree =>
    rw [queue_of_reply_nil _ _ _ (.openRequest id kind) rfl]
    exact h.deliverOpen htags hsig hfree rfl hbal
  | confirmed id remoteId window maxPacket ch hch hc hi =>
    rw [queue_of_reply_nil _ _ _ (.openConfirmed id) rfl]
    obtain ⟨-,hfl,hv⟩ := h.head htags hsig
    obtain ⟨E,B,hlv⟩ := hv.live_of_head hfl (by simp) (by simp)
    obtain ⟨P,hP,hend,hid,hlv⟩ := hlv.confirm hfl
    obtain ⟨rfl,rfl⟩ := h.target hend hP.dead hid hch
    exact h.receive hch htags (.put rfl (fun _ => rfl) hbal hP.dead) (.live _ _ hlv)
  | failed id reason description ch hch hc hi =>
    rw [queue_of_reply_nil _ _ _ (.openFailed id reason description) rfl]
    obtain ⟨-,hfl,hv⟩ := h.head htags hsig
    obtain ⟨P,hP,hend,hid,hv⟩ := hv.recvRefuse hfl
    obtain ⟨rfl,rfl⟩ := h.target hend hP.dead hid hch
    exact h.receive hch htags (.remove rfl hbal rfl ch.localWindow.toNat_lt rfl) hv
  | adjusted id added ch hch =>
    rw [queue_of_reply_nil _ _ _ (.windowAdjust id added) rfl]
    obtain ⟨rfl,E,B,hlv,hfl,hB,hE⟩ := h.arrival htags hsig hch (by simp) (by simp) (by simp)
      fun E B hf hB => (hf.recvCredit x hB).1
    obtain ⟨-,hle,hflow⟩ := hlv.flowing.recvCredit x hB
    have hconf := hlv.confirmed (!x)
    rw [hE] at hle hflow hconf
    have hend := toEnd_adjusted ch id (Nat.lt_of_le_of_lt hle (h.live_small hlv x))
    have hdead := (h.link hch).2.1
    refine h.receive hch htags (.put rfl (fun _ => rfl) hbal ?_) ?_
    all_goals rw [hend]
    · exact hdead
    · refine .live _ _ (hlv.recv hfl ?_ hconf ?_ hflow)
      all_goals rw [hE]
  | received _ _ id bytes ch hm hch hc hr hw =>
    have hlen : bytes.length<2^32 := by
      obtain ⟨rfl,-⟩ | ⟨code,rfl,-⟩ := hm
      all_goals exact hsized bytes rfl
    have hsig : signal payload=some (.data id bytes.length) := by
      obtain ⟨rfl,-⟩ | ⟨code,rfl,-⟩ := hm
      all_goals exact hsig
    have hreply : ev.reply=[] := by
      obtain ⟨-,rfl⟩ | ⟨code,-,rfl⟩ := hm
      all_goals rfl
    rw [queue_of_reply_nil _ _ _ _ hreply]
    obtain ⟨rfl,E,B,hlv,hfl,hB,hE⟩ := h.arrival htags hsig hch (by simp) (by simp) (by simp)
      fun E B hf hB => (hf.recvData x hB).1
    obtain ⟨-,hle,-,hflow⟩ := hlv.flowing.recvData x hB
    rw [hE] at hle hflow
    have hend := toEnd_received ch id hlen hle
    have hdead := (h.link hch).2.1
    refine h.receive hch htags (.put rfl (fun _ => rfl) hbal ?_) ?_
    all_goals rw [hend]
    · exact hdead
    · refine .live _ _ (hlv.recv hfl ?_ hc ?_ hflow)
      all_goals rw [hE]
  | eof id ch hch =>
    rw [queue_of_reply_nil _ _ _ (.eof id) rfl]
    exact h.receiveQuiet htags hsig (toEnd_put_of_eq hch rfl) hbal
  | closed id ch hch hc hl =>
    rw [queue_of_reply_nil _ _ _ (.close id) rfl]
    refine h.receiveClose htags hsig hch hc (.put rfl (fun _ => rfl) hbal ?_)
    simp [End.dead,ChannelState.toEnd,hl]
  | finished id ch hch hc hl =>
    rw [queue_of_reply_nil _ _ _ (.close id) rfl]
    refine h.receiveClose htags hsig hch hc (.remove rfl hbal rfl ch.localWindow.toNat_lt ?_)
    simp [End.dead,ChannelState.toEnd,hl]

/-- Every delivery that succeeds keeps the links valid. -/
theorem Inv.deliver {w' : World} (h : Inv w g) (hd : w.deliver x = .ok w') : ∃ g', Inv w' g' := by
  unfold World.deliver at hd
  split at hd
  · cases hd
    exact ⟨g,h⟩
  · next payload rest hq =>
    split at hd
    · next ev s' hok =>
      cases hd
      rw [Msg.onPacket_eq,Proc.lift_bind_eq_ok] at hok
      obtain ⟨m,hparse,hok⟩ := hok
      obtain ⟨⟨t,p⟩,l,htags,rfl,rfl⟩ := map_eq_cons_iff.1 ((h.queue x).trans hq)
      exact h.handled htags (signal_of_parse hparse) (Msg.parse_sized _ m hparse) ((handle_settles m).ok hok)
    · cases hd

/- The two refusals of flow control. -/
def FlowError (e : Error) : Prop :=
  e = .protocol "peer exceeded advertised window" ∨ e = .protocol "peer exceeded max packet"

instance (e : Error) : Decidable (FlowError e) := by
  unfold FlowError
  infer_instance

/- The receiver's side of a refused data message. -/
def Exceeds (s : ConnectionState) (id : UInt32) (bytes : Bytes) : Prop :=
  ∃ ch, s.channel id=some ch ∧ (ch.localWindow<UInt32.ofNat bytes.length ∨
    ch.localMaxPacket<UInt32.ofNat bytes.length)

theorem getMut_raises {X : Prop} (id : UInt32) (s : ConnectionState) :
    Proc.Raises (getMut id) s fun e => FlowError e → X :=
  .bind (.of_ok rfl) fun _ _ _ => .okOr fun _ h => absurd h (by decide)

theorem receiveData_raises {afterEof : String} (hafter : ¬FlowError (.protocol afterEof))
    (id : UInt32) (bytes : Bytes) (s : ConnectionState) :
    Proc.Raises (receiveData afterEof id bytes) s fun e => FlowError e → Exceeds s id bytes := by
  refine .bind (getMut_raises id s) fun ch s' hch => ?_
  obtain ⟨hch,rfl⟩ := Proc.okOr_eq_ok.1 hch
  refine .ite_of (fun _ => .fail fun h => absurd h (by decide)) fun _ => ?_
  refine .ite_of (fun _ => .fail fun h => absurd h hafter) fun _ => ?_
  refine .ite_of (fun hw => .fail fun _ => ⟨ch,hch,.inl hw⟩) fun _ => ?_
  exact .ite_of (fun hw => .fail fun _ => ⟨ch,hch,.inr hw⟩) fun _ => .of_ok rfl

/-- Only data beyond the window or the packet limit is refused by flow control. -/
theorem handle_raises (m : Msg) (s : ConnectionState) : Proc.Raises m.handle s fun e =>
    FlowError e → ∃ id bytes, m.bytes?=some bytes ∧
      m.signal=some (.data id bytes.length) ∧ Exceeds s id bytes := by
  cases m with
  | globalRequest | globalSuccess | globalFailure => exact .of_ok rfl
  | «open» =>
    refine .bind (.of_ok rfl) fun _ _ _ => .ite_of (fun _ => .of_ok rfl) fun _ => ?_
    refine .bind (.bind (.of_ok rfl) fun _ _ _ => ?_) fun _ _ _ => .of_ok rfl
    exact .bind (.okOr fun _ h => absurd h (by decide)) fun _ _ _ => .of_ok rfl
  | openConfirmation =>
    refine .bind (.of_ok rfl) fun _ _ _ => .bind (.okOr fun _ h => absurd h (by decide))
      fun _ _ _ => ?_
    refine .ite_of (fun _ => .fail fun h => absurd h (by decide)) fun _ => ?_
    exact .ite_of (fun _ => .fail fun h => absurd h (by decide)) fun _ => .of_ok rfl
  | openFailure =>
    refine .bind (.of_ok rfl) fun _ _ _ => .bind (.okOr fun _ h => absurd h (by decide))
      fun _ _ _ => ?_
    exact .ite_of (fun _ => .fail fun h => absurd h (by decide)) fun _ => .of_ok rfl
  | windowAdjust | success | failure =>
    exact .bind (getMut_raises _ _) fun _ _ _ => .of_ok rfl
  | eof | close | request =>
    refine .bind (getMut_raises _ _) fun _ _ _ => ?_
    exact .ite_of (fun _ => .fail fun h => absurd h (by decide)) fun _ => .of_ok rfl
  | data id bytes =>
    refine .bind (fun e he h => ?_) fun _ _ _ => .of_ok rfl
    exact ⟨id,bytes,rfl,rfl,receiveData_raises (by decide) id bytes s e he h⟩
  | extendedData id code bytes =>
    refine .bind (fun e he h => ?_) fun _ _ _ => .of_ok rfl
    exact ⟨id,bytes,rfl,rfl,receiveData_raises (by decide) id bytes s e he h⟩

theorem onPacket_raises (payload : Bytes) (s : ConnectionState) :
    Proc.Raises (onPacket payload) s fun e => FlowError e → ∃ id bytes,
      signal payload=some (.data id bytes.length) ∧ bytes.length<2^32 ∧ Exceeds s id bytes := by
  rw [Msg.onPacket_eq]
  refine .bind (.lift ((Msg.parse_raises payload).mono fun e he h => ?_)) fun m s' hm e he h => ?_
  · rcases he with ⟨msg,rfl⟩ | rfl
    · rcases h with h | h <;> cases h
    · exact absurd h (by decide)
  · obtain ⟨hparse,rfl⟩ := Prod.mk.inj hm
    obtain ⟨id,bytes,hbytes,hsig,hex⟩ := handle_raises m s e he h
    refine ⟨id,bytes,(signal_of_parse hparse).trans hsig,?_,hex⟩
    exact Msg.parse_sized payload m hparse bytes hbytes

/-- A message in flight is never refused by flow control. -/
theorem Inv.not_flowError (h : Inv w g) {e : Error} (hd : w.deliver x = .error e) :
    ¬FlowError e := by
  intro hflow
  unfold World.deliver at hd
  split at hd
  · cases hd
  next payload rest hq =>
  split at hd
  · cases hd
  next err s' herr =>
  cases hd
  obtain ⟨id,bytes,hsig,hlen,ch,hch,hex⟩ :=
    onPacket_raises payload (w.side !x).conn e (by rw [herr]) hflow
  obtain ⟨⟨t,p⟩,l,htags,rfl,rfl⟩ := map_eq_cons_iff.1 ((h.queue x).trans hq)
  obtain ⟨rfl,E,B,hlv,-,hB,hE⟩ := h.arrival htags hsig hch (by simp) (by simp) (by simp)
    fun E B hf hB => (hf.recvData x hB).1
  obtain ⟨-,hw,hm,-⟩ := hlv.flowing.recvData x hB
  rw [hE] at hw hm
  simp only [UInt32.lt_iff_toNat_lt,toNat_ofNat_of_lt hlen] at hex
  simp only [ChannelState.toEnd] at hw hm
  omega

/- Data or credit in flight towards the end `id`, read off the messages. -/
def bytesTo (len : Sig UInt32 → Nat) (id : UInt32) (queue : List Bytes) : Nat :=
  (queue.map fun payload => match signal payload with
    | some s => if s.addressee=some id then len s else 0
    | none => 0).sum

def dataInFlight := bytesTo Sig.dataLen
def adjustInFlight := bytesTo Sig.creditLen

theorem bytesTo_eq_flight (hlen : ∀ s, s.addressee=none → len s=0) {l : List (Nat × Bytes)}
    (h : ∀ p∈l, ∀ s r, signal p.2=some s → s.addressee=some r → (r=id ↔ p.1=n)) :
    bytesTo len id (l.map Prod.snd)=((flight n l).map len).sum := by
  induction l with
  | nil => rfl
  | cons p l ih =>
    have ih := ih fun p hp => h p (mem_cons_of_mem _ hp)
    have hp := h p mem_cons_self
    rw [bytesTo] at ih ⊢
    simp only [map_cons,sum_cons,ih]
    rcases hs : signal p.2 with _ | s
    · simp [flight,hs]
    · rcases ha : s.addressee with _ | r
      · have hz := hlen s ha
        by_cases hn : p.1=n
        · simp [flight,hs,hn,hz]
        · simp [flight,hn,ha]
      · have hiff := hp s r hs ha
        by_cases hn : p.1=n
        · simp [flight,hs,hn,ha,hiff.2 hn]
        · have hne : r≠id := fun hr => hn (hiff.1 hr)
          simp [flight,hn,ha,hne]

/- What is in flight towards an entry is what is in flight on its link. -/
theorem Inv.bytesTo_eq (h : Inv w g) (hlen : ∀ s, s.addressee=none → len s=0)
    (hch : (w.side !x).conn.channel id=some ch) : bytesTo len id (w.queue x) =
      ((flight (g.owner (!x) id) (g.tags x)).map len).sum := by
  rw [← h.queue x]
  refine bytesTo_eq_flight hlen fun p hp s r hs hr => ?_
  have hlt := h.tagged x p hp (by simp [hs])
  have hmem : s∈flight p.1 (g.tags x) := mem_filterMap.2 ⟨p,hp,by simp [hs]⟩
  obtain ⟨F,hF,hid,hdead⟩ := (h.valid p.1 hlt).addressed hmem hr
  constructor
  · intro hrid
    exact (h.target hF hdead (hrid.symm.trans hid) hch).1
  · intro hp1
    rw [hp1,(h.entry (!x) id ch hch).2.1] at hF
    rw [hid,← Option.some.inj hF]
    rfl

theorem Inv.start (window maxPacket maxChannels : Bool → UInt32) :
    Inv (.start window maxPacket maxChannels)
      ⟨fun _ => [],fun _ _ => 0,fun _ => false,fun _ _ => none,0⟩ := by
  refine ⟨fun _ => rfl,?_,?_,?_,fun _ _ _ => rfl,?_,?_,?_⟩
  · intro x p hp
    cases hp
  · intro x id ch hch
    cases hch
  · intro n x F hF
    cases hF
  · intro n hn
    exact absurd hn (Nat.not_lt_zero n)
  · intro x id ch hch
    cases hch
  · intro n x F hF
    cases hF

theorem World.Reachable.inv (h : w.Reachable window maxPacket maxChannels) : ∃ g, Inv w g := by
  induction h with
  | start => exact ⟨_,.start window maxPacket maxChannels⟩
  | call x c _ hfair ih =>
    obtain ⟨g,hg⟩ := ih
    exact hg.call hfair
  | deliver x _ hd ih =>
    obtain ⟨g,hg⟩ := ih
    exact hg.deliver hd

/- One direction of a channel: `ch` is the entry `i` of the sender `x`, `ch'` the entry `j` of
   the receiver. -/
structure Conserved (w : World) (x : Bool) (i j : UInt32) (ch ch' : ChannelState) : Prop where
  window : ch.remoteWindow.toNat+dataInFlight j (w.queue x)+adjustInFlight i (w.queue !x) =
    ch'.localWindow.toNat
  granted : ch.remoteWindow.toNat≤ch'.initialLocalWindow.toNat
  maxPacket : ch.remoteMaxPacket=ch'.localMaxPacket

theorem Inv.conserved (h : Inv w g) {j : UInt32} (hch : (w.side x).conn.channel i=some ch)
    (hch' : (w.side !x).conn.channel j=some ch') (hown : g.owner (!x) j=g.owner x i)
    (hlv : Live o (g.ends (g.owner x i)) (fun z => flight (g.owner x i) (g.tags z)) E B)
    (hE : E x=ch.toEnd i) (hw : (E !x).recvWindow=ch'.localWindow.toNat)
    (hm : (E !x).recvMax=ch'.localMaxPacket.toNat) : Conserved w x i j ch ch' := by
  have hwin := hlv.flowing.window x
  have hmax := hlv.flowing.maxPacket x
  rw [hE] at hwin hmax
  rw [hw] at hwin
  rw [hm] at hmax
  have hdata : dataInFlight j (w.queue x)=dataSum (B x) := by
    rw [dataInFlight,h.bytesTo_eq (fun _ => Sig.dataLen_of_addressee_none) hch',hown]
    exact (hlv.sums x).1
  have hcredit : adjustInFlight i (w.queue !x)=creditSum (B !x) := by
    have hch : (w.side !!x).conn.channel i=some ch := by rwa [Bool.not_not]
    rw [adjustInFlight,h.bytesTo_eq (fun _ => Sig.creditLen_of_addressee_none) hch,Bool.not_not]
    exact (hlv.sums !x).2
  have hwin : ch.remoteWindow.toNat+dataSum (B x)+creditSum (B !x)=ch'.localWindow.toNat := hwin
  have hle := (h.balanced (!x) j ch' hch').le
  refine ⟨?_,?_,UInt32.toNat_inj.1 hmax⟩
  · rw [hdata,hcredit]
    exact hwin
  · omega

/- A confirmed entry that its party has not closed has a counterpart. -/
theorem Inv.counterpart (h : Inv w g) (hch : (w.side x).conn.channel i=some ch)
    (hconf : ch.openConfirmed=true) (hopen : ch.localClosed=false) :
    ∃ ch', (w.side !x).conn.channel ch.remoteId=some ch' ∧ Conserved w x i ch.remoteId ch ch' ∧
      (ch'.openConfirmed=true → ch'.remoteId=i ∧ Conserved w (!x) ch.remoteId i ch' ch) := by
  obtain ⟨hend,hdead,hv⟩ := h.link hch
  obtain ⟨E,B,hlv,hE⟩ := hv.established hend hconf hdead
  have hreads : (E !x).peerClosed=false := hlv.flowing.peer_open x (by rw [hE]; exact hopen)
  obtain ⟨F,hF,hid,hw,hm,hFdead⟩ := hlv.known !x
  have halive : F.dead=false := by rw [hFdead]; simp [End.dead,hreads]
  obtain ⟨ch',hch',hown⟩ := h.alive _ _ F hF halive
  have hremote : ch.remoteId=F.id := by
    have hids := hlv.flowing.ids x
    rw [hE,← hid] at hids
    exact hids
  rw [← hremote] at hch' hown
  have hFeq : F=ch'.toEnd ch.remoteId := (h.target hF halive hremote hch').2
  refine ⟨ch',hch',h.conserved hch hch' hown hlv hE ?_ ?_,fun hconf' => ?_⟩
  · rw [← hw,hFeq]
    rfl
  · rw [← hm,hFeq]
    rfl
  · have hE' : E (!x)=ch'.toEnd ch.remoteId := hlv.end_eq (hF.trans (by rw [hFeq])) hconf'
    have hids := hlv.flowing.ids !x
    rw [Bool.not_not,hE,hE'] at hids
    refine ⟨hids,?_⟩
    rw [← hown] at hlv
    refine h.conserved hch' (by rwa [Bool.not_not]) (by rw [Bool.not_not,hown]) hlv hE' ?_ ?_
    all_goals rw [Bool.not_not,hE]; rfl

theorem Inv.credit_lt (h : Inv w g) {rest : List Bytes} (hq : w.queue x=payload::rest)
    (hs : signal payload=some (.credit i n)) (hch : (w.side !x).conn.channel i=some ch) :
    ch.remoteWindow.toNat+n<2^32 := by
  obtain ⟨⟨t,p⟩,l,htags,rfl,rfl⟩ := map_eq_cons_iff.1 ((h.queue x).trans hq)
  obtain ⟨rfl,E,B,hlv,-,hB,hE⟩ := h.arrival htags hs hch (by simp) (by simp) (by simp)
    fun E B hf hB => (hf.recvCredit x hB).1
  have hle := (hlv.flowing.recvCredit x hB).2.1
  rw [hE] at hle
  exact Nat.lt_of_le_of_lt hle (h.live_small hlv x)

/-- Whatever the two parties do and however calls and deliveries interleave, as long as both
keep to honest use. In each direction of a channel, what the sender may still send, the data in
flight and the credit in flight back add up to the receiver's window, and never exceed the
window it granted. No message is refused for its size, and no window addition saturates. -/
theorem honest_traffic_accepted {window maxPacket maxChannels : Bool → UInt32} {w : World}
    (h : w.Reachable window maxPacket maxChannels) :
    (∀ x i ch, (w.side x).conn.channel i=some ch → ch.openConfirmed=true →
      ch.localClosed=false → ∃ ch', (w.side !x).conn.channel ch.remoteId=some ch' ∧
        Conserved w x i ch.remoteId ch ch' ∧ (ch'.openConfirmed=true →
          ch'.remoteId=i ∧ Conserved w (!x) ch.remoteId i ch' ch)) ∧
    (∀ x e, w.deliver x = .error e → ¬FlowError e) ∧
    (∀ x payload rest i n ch, w.queue x=payload::rest →
      signal payload=some (.credit i n) → (w.side !x).conn.channel i=some ch →
      ch.remoteWindow.toNat+n<2^32) ∧
    (∀ x i amount ch, (w.side x).Fair (.replenishWindow i amount) →
      (w.side x).conn.channel i=some ch →
      ch.localWindow.toNat+ch.pendingReplenish.toNat+amount.toNat<2^32) := by
  obtain ⟨g,hg⟩ := h.inv
  refine ⟨?_,fun x e => hg.not_flowError,?_,?_⟩
  · intro x i ch hch hconf hopen
    exact hg.counterpart hch hconf hopen
  · intro x payload rest i n ch hq hs hch
    exact hg.credit_lt hq hs hch
  · intro x i amount ch hfair hch
    have hle := (hg.balanced x i ch hch).le
    have hinit := ch.initialLocalWindow.toNat_lt
    have hfair : amount.toNat≤(w.side x).owed i := hfair
    omega

/- Deliver if the receiver accepts. -/
def World.tryDeliver (w : World) (x : Bool) : World :=
  match w.deliver x with
  | .ok w' => w'
  | .error _ => w

theorem World.Reachable.tryDeliver (h : w.Reachable window maxPacket maxChannels) (x : Bool) :
    (w.tryDeliver x).Reachable window maxPacket maxChannels := by
  unfold World.tryDeliver
  split
  · next w' hw => exact .deliver x h hw
  · exact h

/- One party opens a session over eight-byte windows; the other accepts and sends six bytes,
   of which the first five have arrived. -/
def sessionAccepted : World :=
  (((World.start (fun _ => 8) (fun _ => 14) (fun _ => 4)).call true (.open .session)).tryDeliver
    true).call false (.acceptOpen 0)

def sixBytesSent : World :=
  ((sessionAccepted.tryDeliver false).call false (.sendData 0 [1,2,3,4,5])).call false
    (.sendData 0 [6]) |>.tryDeliver false

def sixBytesSender : ChannelState :=
  { sessionChannel with
    remoteId := 0, localWindow := 8, remoteWindow := 2, localMaxPacket := 14,
    remoteMaxPacket := 14, pendingReplenish := 0, activity := 6 }

theorem sessionAccepted_reachable :
    sessionAccepted.Reachable (fun _ => 8) (fun _ => 14) (fun _ => 4) := by
  refine .call _ _ (.tryDeliver (.call _ _ .start ?_) true) ?_
  · change (ascii "session").length<2^32
    decide
  · intro ch hch
    have hall := (Option.all_eq_true (fun ch => !ch.initiatedByUs) _).1 (by decide) ch hch
    simpa using hall

theorem sixBytesSent_reachable :
    sixBytesSent.Reachable (fun _ => 8) (fun _ => 14) (fun _ => 4) := by
  refine .tryDeliver (.call _ _ (.call _ _ (.tryDeliver sessionAccepted_reachable _) ?_) ?_) _
  · exact (Option.all_eq_true ChannelState.isOpen _).1 (by decide)
  · exact (Option.all_eq_true ChannelState.isOpen _).1 (by decide)

theorem sixBytesSent_sender : (sixBytesSent.side false).conn.channel 0=some sixBytesSender ∧
    dataInFlight 0 (sixBytesSent.queue false)=1 := by
  decide

theorem honest_traffic_accepted_six_bytes : ∃ receiver,
    (sixBytesSent.side true).conn.channel 0=some receiver ∧ receiver.localWindow.toNat=3 := by
  obtain ⟨ch',hch',hcons,-⟩ := (honest_traffic_accepted sixBytesSent_reachable).1 false 0
    sixBytesSender sixBytesSent_sender.1 rfl rfl
  refine ⟨ch',hch',?_⟩
  rw [← hcons.window]
  decide

end PureSsh.Channel
