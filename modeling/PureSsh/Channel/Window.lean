import Mathlib.Data.Finset.Basic
import Mathlib.Order.Lattice
import PureSsh.Channel.Step

/-! Receive windows: no byte of credit is lost between delivery and `replenish_window`. -/

namespace PureSsh.Channel
open Lib Reader Writer ConnectionState Function

/- A connection together with the bytes each channel has handed to its caller and the
   caller has not credited back yet. -/
structure Endpoint where
  conn : ConnectionState
  owed : UInt32 → Nat

namespace Endpoint

def start (window maxPacket maxChannels : UInt32) : Endpoint where
  conn := { ConnectionState.new with
    defaultWindow := window, defaultMaxPacket := maxPacket, maxChannels }
  owed := fun _ => 0

def afterCall (e : Endpoint) (c : Call) (out : Output) (s' : ConnectionState) : Endpoint where
  conn := s'
  owed := match c, out.opened with
    | .replenishWindow id amount, _ => update e.owed id (e.owed id-amount.toNat)
    | _, some id => update e.owed id 0
    | _, none => e.owed

def afterEvent (e : Endpoint) (ev : ChannelEvent) (s' : ConnectionState) : Endpoint where
  conn := s'
  owed := fun id => if ev.opened=some id then 0 else e.owed id+ev.delivered id

def call (e : Endpoint) (c : Call) : Endpoint :=
  match execCall c e.conn with
  | (.ok out,s') => e.afterCall c out s'
  | (.error _,s') => { e with conn := s' }

def packet (e : Endpoint) (payload : Bytes) : Endpoint :=
  match onPacket payload e.conn with
  | (.ok ev,s') => e.afterEvent ev s'
  | (.error _,s') => { e with conn := s' }

/- `replenish_window` is called for bytes that were delivered, each of them once. -/
def Honest (e : Endpoint) : Call → Prop
  | .replenishWindow id amount => amount.toNat≤e.owed id
  | _ => True

/- Any calls of the frontend, interleaved with any packets of the peer. -/
inductive Reachable (window maxPacket maxChannels : UInt32) : Endpoint → Prop where
  | start : Reachable window maxPacket maxChannels (start window maxPacket maxChannels)
  | call {e : Endpoint} (c : Call) : Reachable window maxPacket maxChannels e → e.Honest c →
      Reachable window maxPacket maxChannels (e.call c)
  | packet {e : Endpoint} (payload : Bytes) : Reachable window maxPacket maxChannels e →
      Reachable window maxPacket maxChannels (e.packet payload)

end Endpoint

/- The account of one channel. A locally closed channel ignores `replenish_window`, so its
   account may fall behind. -/
structure Balanced (owed : Nat) (ch : ChannelState) : Prop where
  le : ch.localWindow.toNat+ch.pendingReplenish.toNat+owed≤ch.initialLocalWindow.toNat
  eq : ch.localClosed=false →
    ch.localWindow.toNat+ch.pendingReplenish.toNat+owed=ch.initialLocalWindow.toNat
  held : ch.pendingReplenish<replenishThreshold ch
  idle : ch.openConfirmed=false → owed=0

def Endpoint.Balanced (e : Endpoint) : Prop :=
  ∀ id ch, e.conn.channel id=some ch → Channel.Balanced (e.owed id) ch

theorem replenishThreshold_toNat_le (ch : ChannelState) :
    (replenishThreshold ch).toNat≤ max (ch.initialLocalWindow.toNat/2) 1 := by
  simp only [replenishThreshold,UInt32.toNat_max,UInt32.toNat_min]
  exact max_le_max (min_le_left _ _) (le_of_eq rfl)

theorem replenishThreshold_pos (ch : ChannelState) : 0<(replenishThreshold ch).toNat := by
  simp only [replenishThreshold,UInt32.toNat_max]
  exact Nat.lt_of_lt_of_le (by decide) (le_max_right _ _)

variable {ch : ChannelState} {owed : Nat} {amount : UInt32}

/-- Once everything delivered is credited back, more than half the window is open. -/
theorem Balanced.localWindow_gt_half (h : Balanced 0 ch) (hopen : ch.localClosed=false)
    (hinit : 1≤ch.initialLocalWindow.toNat) :
    ch.initialLocalWindow.toNat/2<ch.localWindow.toNat := by
  have heq := h.eq hopen
  have hheld := UInt32.lt_iff_toNat_lt.1 h.held
  have hthreshold := replenishThreshold_toNat_le ch
  omega

theorem balanced_of_new {ch : ChannelState} (hw : ch.localWindow=ch.initialLocalWindow)
    (hp : ch.pendingReplenish=0) : Balanced 0 ch where
  le := by simp [hw,hp]
  eq := by simp [hw,hp]
  held := by
    rw [hp]
    exact replenishThreshold_pos ch
  idle := fun _ => rfl

theorem Balanced.shift {owed' : Nat} {ch' : ChannelState} (h : Balanced owed ch)
    (hsum : ch'.localWindow.toNat+ch'.pendingReplenish.toNat+owed' =
      ch.localWindow.toNat+ch.pendingReplenish.toNat+owed)
    (hi : ch'.initialLocalWindow=ch.initialLocalWindow) (hl : ch'.localClosed=ch.localClosed)
    (hheld : ch'.pendingReplenish<replenishThreshold ch')
    (hidle : ch'.openConfirmed=false → owed'=0) : Balanced owed' ch' where
  le := by rw [hsum,hi]; exact h.le
  eq := by rw [hsum,hi,hl]; exact h.eq
  held := hheld
  idle := hidle

theorem Balanced.receive (h : Balanced owed ch) {n : Nat} (hn : n<2^32)
    (hw : ¬ch.localWindow<UInt32.ofNat n) (hconf : ch.openConfirmed=true) : Balanced (owed+n)
      { ch with
        localWindow := ch.localWindow-UInt32.ofNat n
        activity := ch.activity+(UInt32.ofNat n).toUInt64 } := by
  have hlen := toNat_ofNat_of_lt hn
  rw [UInt32.lt_iff_toNat_lt] at hw
  have hsub : (ch.localWindow-UInt32.ofNat n).toNat=ch.localWindow.toNat-n := by
    rw [UInt32.toNat_sub_of_le _ _ (by rw [UInt32.le_iff_toNat_le]; omega),hlen]
  refine h.shift ?_ rfl rfl h.held fun hno => absurd (hconf.symm.trans hno) (by decide)
  simp only [hsub]
  omega

theorem Balanced.credit_toNat (h : Balanced owed ch) (ha : amount.toNat≤owed) :
    (satAdd ch.pendingReplenish amount).toNat=ch.pendingReplenish.toNat+amount.toNat ∧
      (satAdd ch.localWindow (satAdd ch.pendingReplenish amount)).toNat =
        ch.localWindow.toNat+(satAdd ch.pendingReplenish amount).toNat := by
  have hle := h.le
  have hinit := ch.initialLocalWindow.toNat_lt
  have hadd : (satAdd ch.pendingReplenish amount).toNat =
      ch.pendingReplenish.toNat+amount.toNat := satAdd_toNat_of_lt (by omega)
  exact ⟨hadd,satAdd_toNat_of_lt (by omega)⟩

theorem Balanced.hold (h : Balanced owed ch) (ha : amount.toNat≤owed)
    (ht : satAdd ch.pendingReplenish amount<replenishThreshold ch) : Balanced (owed-amount.toNat)
      { ch with pendingReplenish := satAdd ch.pendingReplenish amount } := by
  refine h.shift ?_ rfl rfl ht fun hno => by rw [h.idle hno,Nat.zero_sub]
  simp only [(h.credit_toNat ha).1]
  omega

theorem Balanced.flush (h : Balanced owed ch) (ha : amount.toNat≤owed) :
    Balanced (owed-amount.toNat) { ch with
        pendingReplenish := 0
        localWindow := satAdd ch.localWindow (satAdd ch.pendingReplenish amount) } := by
  obtain ⟨hpend,hadd⟩ := h.credit_toNat ha
  refine h.shift ?_ rfl rfl ?_ fun hno => by rw [h.idle hno,Nat.zero_sub]
  · simp only [UInt32.toNat_zero]
    omega
  · exact replenishThreshold_pos ch

theorem Balanced.congr {owed : Nat} {ch ch' : ChannelState} (h : Balanced owed ch)
    (hw : ch'.localWindow=ch.localWindow) (hp : ch'.pendingReplenish=ch.pendingReplenish)
    (hi : ch'.initialLocalWindow=ch.initialLocalWindow)
    (hm : ch'.localMaxPacket=ch.localMaxPacket) (hl : ch'.localClosed=ch.localClosed)
    (hc : ch'.openConfirmed=false → ch.openConfirmed=false) : Balanced owed ch' where
  le := by rw [hw,hp,hi]; exact h.le
  eq := by rw [hw,hp,hi,hl]; exact h.eq
  held := by rw [hp,replenishThreshold,hi,hm]; exact h.held
  idle := fun hno => h.idle (hc hno)

theorem Balanced.close (h : Balanced owed ch) : Balanced owed { ch with localClosed := true } :=
  ⟨h.le,fun hopen => absurd hopen (by simp),h.held,h.idle⟩

theorem Balanced.mono {owed' : Nat} (h : Balanced owed ch) (hle : owed'≤owed)
    (hclosed : ch.localClosed=true) : Balanced owed' ch :=
  ⟨by have := h.le; omega,fun hopen => absurd hopen (by simp [hclosed]),h.held,
    fun hno => by have := h.idle hno; omega⟩

namespace Endpoint

variable {e : Endpoint} {c : Call} {s' : ConnectionState}

theorem Balanced.put (h : e.Balanced) {s : ConnectionState} {owed : UInt32 → Nat} {id : UInt32}
    {ch : ChannelState} (hs : s.channels=e.conn.channels)
    (howed : ∀ id', id'≠id → owed id'=e.owed id') (hch : Channel.Balanced (owed id) ch) :
    (Endpoint.mk (put id ch s) owed).Balanced := by
  intro id' ch' hget
  obtain ⟨rfl,rfl⟩ | ⟨hid,hold⟩ := channel_put_cases hget
  · exact hch
  · change Channel.Balanced (owed id') ch'
    rw [howed id' hid]
    exact h id' ch' (by rwa [channel,← hs])

theorem Balanced.remove (h : e.Balanced) (id : UInt32) :
    (Endpoint.mk (remove id e.conn) e.owed).Balanced :=
  fun id' ch' hget => h id' ch' (channel_remove_cases hget)

theorem Balanced.afterCall (h : e.Balanced) {out : Output} (hc : Called e.conn c out s')
    (hhonest : e.Honest c) : (e.afterCall c out s').Balanced := by
  cases hc with
  | quiet _ id ch' wire hsub hch' hc hw he hr =>
    cases c with
    | replenishWindow _ amount =>
      cases hsub
      intro id' ch hch
      by_cases hid : id'=id
      · subst hid
        simp only [Endpoint.afterCall,update_self]
        cases hch'.symm.trans hch
        obtain rfl | hclosed := hr _ _ rfl
        · exact h _ _ hch
        · exact (h _ _ hch).mono (Nat.sub_le _ _) hclosed
      · simp only [Endpoint.afterCall,update_of_ne hid]
        exact h _ ch hch
    | _ => exact h
  | opened kind id hfree =>
    exact h.put rfl (fun id' hid => update_of_ne hid _ _) (by simpa using balanced_of_new rfl rfl)
  | accepted id ch hch hconf =>
    exact h.put rfl (fun _ _ => rfl) ((h id ch hch).congr rfl rfl rfl rfl rfl (by simp))
  | rejected id reason description language ch hch hconf => exact h.remove id
  | sent _ id ch bytes payload hp hch hl he hw hm =>
    have hb : Channel.Balanced (e.owed id)
        { ch with
          remoteWindow := satSub ch.remoteWindow (UInt32.ofNat bytes.length)
          activity := ch.activity+UInt64.ofNat bytes.length } :=
      (h id ch hch).congr rfl rfl rfl rfl rfl (fun hno => hno)
    obtain ⟨⟨data,rfl | rfl⟩,-⟩ | ⟨code,data,rfl,-⟩ := hp
    all_goals exact h.put rfl (fun _ _ => rfl) hb
  | eof id ch hch hl =>
    exact h.put rfl (fun _ _ => rfl) ((h id ch hch).congr rfl rfl rfl rfl rfl (by simp))
  | closed id ch hch hl hr => exact h.put rfl (fun _ _ => rfl) (h id ch hch).close
  | finished id ch hch hl hr => exact h.remove id
  | held id amount ch hch hl hz ht =>
    refine h.put rfl (fun id' hid => update_of_ne hid _ _) ?_
    simpa using (h id ch hch).hold hhonest ht
  | flushed id amount ch hch hl hz =>
    refine h.put rfl (fun id' hid => update_of_ne hid _ _) ?_
    simpa using (h id ch hch).flush hhonest

theorem Balanced.afterEvent (h : e.Balanced) {m : Msg} {ev : ChannelEvent}
    (hm : Handled e.conn m ev s') (hsized : m.Sized) : (e.afterEvent ev s').Balanced := by
  cases hm with
  | idle _ _ hm hd ho hr =>
    intro id ch hch
    simpa [Endpoint.afterEvent,hd,ho] using h id ch hch
  | rejected => exact h
  | requested name kind remoteId window maxPacket id hfree =>
    refine h.put rfl (fun id' hid => ?_) ?_
    · simp [ChannelEvent.opened,ChannelEvent.delivered,hid.symm]
    · simpa [ChannelEvent.opened] using balanced_of_new rfl rfl
  | confirmed id remoteId window maxPacket ch hch hc hi =>
    exact h.put rfl (fun _ _ => rfl) ((h id ch hch).congr rfl rfl rfl rfl rfl (by simp))
  | failed id reason description ch hch hc hi => exact h.remove id
  | adjusted id added ch hch =>
    exact h.put rfl (fun _ _ => rfl) ((h id ch hch).congr rfl rfl rfl rfl rfl (by simp))
  | received _ _ id bytes ch hm hch hc hr hw =>
    have hlen : bytes.length<2^32 := by
      obtain ⟨rfl,-⟩ | ⟨code,rfl,-⟩ := hm
      all_goals exact hsized bytes rfl
    have hopened : ev.opened=none := by
      obtain ⟨-,rfl⟩ | ⟨code,-,rfl⟩ := hm
      all_goals rfl
    have hdelivered (id' : UInt32) : ev.delivered id'=if id=id' then bytes.length else 0 := by
      obtain ⟨-,rfl⟩ | ⟨code,-,rfl⟩ := hm
      all_goals rfl
    refine h.put rfl (fun id' hid => ?_) ?_
    · simp [hopened,hdelivered,Ne.symm hid]
    · simpa [hopened,hdelivered] using (h id ch hch).receive hlen hw hc
  | eof id ch hch =>
    exact h.put rfl (fun _ _ => rfl) ((h id ch hch).congr rfl rfl rfl rfl rfl (by simp))
  | closed id ch hch hc hl =>
    exact h.put rfl (fun _ _ => rfl) ((h id ch hch).congr rfl rfl rfl rfl rfl (by simp))
  | finished id ch hch hc hl => exact h.remove id

theorem Balanced.call (h : e.Balanced) (hc : e.Honest c) : (e.call c).Balanced := by
  unfold Endpoint.call
  split
  · next out s' hok => exact h.afterCall ((execCall_settles c).ok hok) hc
  · next err s' herr =>
    rw [(execCall_settles c).error herr]
    exact h

theorem Balanced.packet (h : e.Balanced) (payload : Bytes) : (e.packet payload).Balanced := by
  unfold Endpoint.packet
  split
  · next ev s' hok =>
    rw [Msg.onPacket_eq,Proc.lift_bind_eq_ok] at hok
    obtain ⟨m,hparse,hok⟩ := hok
    exact h.afterEvent ((handle_settles m).ok hok) (Msg.parse_sized payload m hparse)
  · next err s' herr =>
    rw [(onPacket_settles payload).error herr]
    exact h

theorem Reachable.balanced {window maxPacket maxChannels : UInt32}
    (h : Reachable window maxPacket maxChannels e) : e.Balanced := by
  induction h with
  | start =>
    intro id ch hch
    cases hch
  | call c _ hc ih => exact ih.call hc
  | packet payload _ ih => exact ih.packet payload

end Endpoint

/- A peer opens a session on an eight-byte window, sends three bytes and is credited one. -/
def sessionAfterData : Endpoint :=
  (((Endpoint.start 8 5 4).packet (openPayload ConnectionState.new 7 .session)).call
    (.acceptOpen 0)).packet (dataPayload 0 [1,2,3]) |>.call (.replenishWindow 0 1)

def sessionChannel : ChannelState where
  localId := 0
  remoteId := 7
  localWindow := 5
  remoteWindow := 2*1024*1024
  localMaxPacket := 5
  remoteMaxPacket := 32*1024
  kind := ascii "session"
  localEof := false
  remoteEof := false
  localClosed := false
  remoteClosed := false
  initialLocalWindow := 8
  pendingReplenish := 1
  openConfirmed := true
  initiatedByUs := false
  activity := 3

theorem sessionAfterData_reachable : sessionAfterData.Reachable 8 5 4 := by
  refine .call _ (.packet _ (.call _ (.packet _ .start) trivial)) ?_
  change (1 : UInt32).toNat≤_
  decide +kernel

theorem sessionAfterData_channel :
    sessionAfterData.conn.channel 0=some sessionChannel ∧ sessionAfterData.owed 0=2 := by
  decide +kernel

end PureSsh.Channel
