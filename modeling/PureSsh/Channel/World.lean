import PureSsh.Channel.Signal

/-! Two multiplexers joined by reliable FIFO links, and how the invariant on their links moves
when one channel entry or one message changes. -/

namespace PureSsh.Channel
open Lib Reader Writer ConnectionState Function
open Lib.CreditLink (Sig End Flowing Valid Live Pending Requested party_eq dataSum creditSum)

/- The two endpoints, and for each the messages it has sent that are still in flight. -/
structure World where
  side : Bool → Endpoint
  queue : Bool → List Bytes

namespace World

def start (window maxPacket maxChannels : Bool → UInt32) : World where
  side := fun x => .start (window x) (maxPacket x) (maxChannels x)
  queue := fun _ => []

/- A call that fails sends nothing. -/
def call (w : World) (x : Bool) (c : Call) : World :=
  match execCall c (w.side x).conn with
  | (.ok out,s') =>
    { side := update w.side x ((w.side x).afterCall c out s')
      queue := update w.queue x (w.queue x++out.wire.toList) }
  | (.error _,s') => { w with side := update w.side x { w.side x with conn := s' } }

/- The oldest message from `x` reaches the other party. An error ends the connection. -/
def deliver (w : World) (x : Bool) : Result World :=
  match w.queue x with
  | [] => .ok w
  | payload::rest =>
    match onPacket payload (w.side !x).conn with
    | (.ok ev,s') => .ok
      { side := update w.side (!x) ((w.side !x).afterEvent ev s')
        queue := update (update w.queue x rest) (!x) (w.queue (!x)++ev.reply) }
    | (.error e,_) => .error e

end World

/- Honest use of one endpoint: data on open channels, credit for delivered bytes, answers
   to opens of the peer, a close only once the open was answered, and a channel type whose
   length fits its length field. -/
def Endpoint.Fair (e : Endpoint) : Call → Prop
  | .open kind => kind.kind.length<2^32
  | .acceptOpen id | .rejectOpen id _ _ _ =>
    ∀ ch, e.conn.channel id=some ch → ch.initiatedByUs=false
  | .sendData id _ | .sendDatagram id _ | .sendExtendedData id _ _ =>
    ∀ ch, e.conn.channel id=some ch → ch.isOpen=true
  | .sendClose id => ∀ ch, e.conn.channel id=some ch → ch.openConfirmed=true
  | .replenishWindow id amount => amount.toNat≤e.owed id
  | _ => True

/- Every interleaving of honest calls on both sides and of deliveries. -/
inductive World.Reachable (window maxPacket maxChannels : Bool → UInt32) : World → Prop where
  | start : Reachable window maxPacket maxChannels (World.start window maxPacket maxChannels)
  | call {w : World} (x : Bool) (c : Call) : Reachable window maxPacket maxChannels w →
      (w.side x).Fair c → Reachable window maxPacket maxChannels (w.call x c)
  | deliver {w w' : World} (x : Bool) : Reachable window maxPacket maxChannels w →
      w.deliver x = .ok w' → Reachable window maxPacket maxChannels w'

theorem Endpoint.Fair.honest {e : Endpoint} {c : Call} (h : e.Fair c) : e.Honest c := by
  cases c with
  | replenishWindow id amount => exact h
  | _ => trivial

/- Book-keeping for the proof: each pair of ends is a numbered link, each channel entry and
   each message in flight belongs to one. Messages without a signal may carry any number. -/
structure Ghost where
  tags : Bool → List (Nat × Bytes)
  owner : Bool → UInt32 → Nat
  opener : Nat → Bool
  ends : Nat → Bool → Option (End UInt32)
  next : Nat

/- The signals of link `n` among tagged messages. -/
def flight (n : Nat) (l : List (Nat × Bytes)) : List (Sig UInt32) :=
  l.filterMap fun p => if p.1=n then signal p.2 else none

theorem flight_append (n : Nat) (l l' : List (Nat × Bytes)) :
    flight n (l++l')=flight n l++flight n l' := List.filterMap_append

variable {payload : Bytes}

theorem flight_singleton_self (n : Nat) {s : Sig UInt32} (h : signal payload=some s) :
    flight n [(n,payload)]=[s] := by
  simp [flight,h]

theorem flight_singleton_of_ne {n t : Nat} (h : t≠n) (payload : Bytes) :
    flight n [(t,payload)]=[] := by
  simp [flight,h]

theorem flight_singleton_none (n t : Nat) (h : signal payload=none) :
    flight n [(t,payload)]=[] := by
  simp [flight,h]

theorem flight_cons (n : Nat) (p : Nat × Bytes) (l : List (Nat × Bytes)) :
    flight n (p::l)=flight n [p]++flight n l := flight_append n [p] l

structure Inv (w : World) (g : Ghost) : Prop where
  queue : ∀ x, (g.tags x).map Prod.snd=w.queue x
  tagged : ∀ x, ∀ p∈g.tags x, signal p.2≠none → p.1<g.next
  entry : ∀ x id ch, (w.side x).conn.channel id=some ch →
    g.owner x id<g.next ∧ g.ends (g.owner x id) x=some (ch.toEnd id) ∧ (ch.toEnd id).dead=false
  alive : ∀ n x F, g.ends n x=some F → F.dead=false →
    ∃ ch, (w.side x).conn.channel F.id=some ch ∧ g.owner x F.id=n
  fresh : ∀ n x, g.next≤n → g.ends n x=none
  valid : ∀ n, n<g.next → Valid (g.opener n) (g.ends n) fun x => flight n (g.tags x)
  balanced : ∀ x, (w.side x).Balanced
  small : ∀ n x F, g.ends n x=some F → F.recvWindow<2^32

/- The tagged messages of `g` change, but no signal on a link other than `t`. -/
structure Retagged (g : Ghost) (t next : Nat) (tags : Bool → List (Nat × Bytes))
    (queue : Bool → List Bytes) : Prop where
  queue : ∀ x, (tags x).map Prod.snd=queue x
  tagged : ∀ x, ∀ p∈tags x, signal p.2≠none → p.1<next
  others : ∀ x n, n≠t → flight n (tags x)=flight n (g.tags x)

namespace Retagged
variable {g : Ghost} {t next : Nat} {tags : Bool → List (Nat × Bytes)}
  {queue : Bool → List Bytes} (h : Retagged g t next tags queue)
include h

theorem push (x : Bool) (wire : List Bytes) (hlt : ∀ payload∈wire, signal payload≠none → t<next) :
    Retagged g t next (update tags x (tags x++wire.map (Prod.mk t)))
      (update queue x (queue x++wire)) := by
  refine ⟨(CreditLink.forall_party x).2 ⟨?_,?_⟩,?_,?_⟩
  · simp [h.queue]
  · simp [h.queue]
  · refine (forall_update_iff tags fun _ l => ∀ p∈l, signal p.2≠none → p.1<next).2
      ⟨fun p hp hs => ?_,fun y _ => h.tagged y⟩
    rcases List.mem_append.1 hp with hp | hp
    · exact h.tagged x p hp hs
    · obtain ⟨payload,hmem,rfl⟩ := List.mem_map.1 hp
      exact hlt payload hmem hs
  · refine (forall_update_iff tags fun y l => ∀ n, n≠t → flight n l=flight n (g.tags y)).2
      ⟨fun n hn => ?_,fun y _ => h.others y⟩
    rw [flight_append,h.others x n hn]
    simp [flight,hn.symm]

theorem pop {x : Bool} {p : Nat × Bytes} {rest : List (Nat × Bytes)} (htags : tags x=p::rest)
    (hp : p.1=t ∨ signal p.2=none) : Retagged g t next (update tags x rest)
      (update queue x (rest.map Prod.snd)) := by
  refine ⟨(CreditLink.forall_party x).2 ⟨?_,?_⟩,?_,?_⟩
  · simp
  · simp [h.queue]
  · refine (forall_update_iff tags fun _ l => ∀ p∈l, signal p.2≠none → p.1<next).2
      ⟨fun q hq => h.tagged x q ?_,fun y _ => h.tagged y⟩
    rw [htags]
    exact List.mem_cons_of_mem p hq
  · refine (forall_update_iff tags fun y l => ∀ n, n≠t → flight n l=flight n (g.tags y)).2
      ⟨fun n hn => ?_,fun y _ => h.others y⟩
    rw [← h.others x n hn,htags,flight_cons]
    rcases hp with rfl | hp
    · rw [flight_singleton_of_ne hn.symm]
      rfl
    · rw [flight_singleton_none n p.1 hp]
      rfl

end Retagged

/- A party that changes one entry, whose end is then `F`. -/
structure Turned (e e' : Endpoint) (id : UInt32) (F : End UInt32) : Prop where
  other : ∀ id', id'≠id → e'.conn.channel id'=e.conn.channel id'
  balanced : e'.Balanced
  entry : F.id=id
  small : F.recvWindow<2^32
  ends : ∀ ch, e'.conn.channel id=some ch → ch.toEnd id=F
  live : F.dead=false ↔ ∃ ch, e'.conn.channel id=some ch

namespace Turned
variable {e e' : Endpoint} {id : UInt32} {F : End UInt32}

theorem put {s : ConnectionState} {ch : ChannelState} (hconn : e'.conn=s.put id ch)
    (hs : ∀ id', s.channel id'=e.conn.channel id') (hbal : e'.Balanced)
    (hd : (ch.toEnd id).dead=false) : Turned e e' id (ch.toEnd id) := by
  refine ⟨fun id' hid => ?_,hbal,rfl,ch.localWindow.toNat_lt,fun ch' hget => ?_,?_⟩
  · rw [hconn,channel_put_ne _ _ _ _ hid,hs]
  · rw [hconn,channel_put_self] at hget
    cases hget
    rfl
  · rw [hconn]
    exact ⟨fun _ => ⟨_,channel_put_self _ _ _⟩,fun _ => hd⟩

theorem remove (hconn : e'.conn=e.conn.remove id) (hbal : e'.Balanced) (hF : F.id=id)
    (hsmall : F.recvWindow<2^32) (hd : F.dead=true) : Turned e e' id F := by
  refine ⟨fun id' hid => ?_,hbal,hF,hsmall,fun ch' hget => ?_,?_⟩
  · rw [hconn,channel_remove_ne _ _ _ hid]
  · rw [hconn,channel_remove_self] at hget
    cases hget
  · simp [hconn,hd]

theorem channel_update {side : Bool → Endpoint} {x y : Bool} {id' : UInt32}
    (h : Turned (side y) e' id F) (hne : ¬(x=y ∧ id'=id)) :
    (update side y e' x).conn.channel id'=(side x).conn.channel id' := by
  by_cases hx : x=y
  · subst hx
    rw [update_self,h.other id' fun hid => hne ⟨rfl,hid⟩]
  · rw [update_of_ne hx]

end Turned

theorem update_update_apply [DecidableEq α] [DecidableEq β] (f : α → β → γ) (a a' : α) (b b' : β)
    (c : γ) : update f a (update (f a) b c) a' b'=if a'=a ∧ b'=b then c else f a' b' := by
  by_cases ha : a'=a
  · subst ha
    simp [update_apply]
  · simp [ha]

namespace Inv
variable {w : World} {g : Ghost} (h : Inv w g)
include h

variable {ch ch' : ChannelState} {id : UInt32} {y x : Bool} {tags : Bool → List (Nat × Bytes)}
  {queue : Bool → List Bytes} {F : End UInt32} {n t next : Nat}
  {e' : Endpoint} {payload : Bytes} {s : Sig UInt32} {rest : List (Nat × Bytes)}

theorem retagged (t : Nat) (hnext : g.next≤next) : Retagged g t next g.tags w.queue :=
  ⟨h.queue,fun x p hp hs => Nat.lt_of_lt_of_le (h.tagged x p hp hs) hnext,fun _ _ _ => rfl⟩

/- The entry `id` of party `y` becomes the end `F` of link `n`. -/
theorem assign (opener : Nat → Bool) (ht : Turned (w.side y) e' id F)
    (hr : Retagged g n next tags queue) (hn : n<next) (hnext : g.next≤next)
    (hlt : ∀ m, m<next → m≠n → m<g.next) (hop : ∀ m, m≠n → opener m=g.opener m)
    (howner : ∀ id' ch', id'≠id → (w.side y).conn.channel id'=some ch' → g.owner y id'≠n)
    (hfree : ∀ m F', m≠n → g.ends m y=some F' → F'.dead=false → F'.id≠id)
    (hvalid : Valid (opener n) (update (g.ends n) y (some F)) fun x => flight n (tags x)) :
    ∃ g', Inv ⟨update w.side y e',queue⟩ g' := by
  refine ⟨{ tags, opener, next
            owner := update g.owner y (update (g.owner y) id n)
            ends := update g.ends n (update (g.ends n) y (some F)) },
    hr.queue,hr.tagged,?_,?_,?_,?_,?_,?_⟩
  · intro x id' ch' hget
    simp only [update_update_apply]
    by_cases hxy : x=y ∧ id'=id
    · obtain ⟨rfl,rfl⟩ := hxy
      have hget : e'.conn.channel id'=some ch' := by simpa using hget
      rw [if_pos ⟨rfl,rfl⟩,if_pos ⟨rfl,rfl⟩,ht.ends ch' hget]
      exact ⟨hn,rfl,ht.live.2 ⟨ch',hget⟩⟩
    · rw [ht.channel_update hxy] at hget
      obtain ⟨hown,he,hd⟩ := h.entry x id' ch' hget
      have hne : ¬(g.owner x id'=n ∧ x=y) := by
        rintro ⟨hown,rfl⟩
        exact howner id' ch' (fun hid => hxy ⟨rfl,hid⟩) hget hown
      rw [if_neg hxy,if_neg hne]
      exact ⟨Nat.lt_of_lt_of_le hown hnext,he,hd⟩
  · intro m x F' hF' hdead
    simp only [update_update_apply] at hF' ⊢
    split at hF'
    · next heq =>
      obtain ⟨rfl,rfl⟩ := heq
      cases hF'
      obtain ⟨ch',hch'⟩ := ht.live.1 hdead
      exact ⟨ch',by simpa [ht.entry] using hch',by simp [ht.entry]⟩
    · next hmx =>
      obtain ⟨ch',hch',hown⟩ := h.alive m x F' hF' hdead
      have hne : ¬(x=y ∧ F'.id=id) := by
        rintro ⟨rfl,hid⟩
        exact hfree m F' (fun hm => hmx ⟨hm,rfl⟩) hF' hdead hid
      rw [ht.channel_update hne,if_neg hne]
      exact ⟨ch',hch',hown⟩
  · intro m x hm
    simp only [update_update_apply]
    have hm : next≤ m := hm
    have hne : m≠n := by omega
    rw [if_neg fun heq => hne heq.1]
    exact h.fresh m x (hnext.trans hm)
  · intro m hm
    by_cases hmn : m=n
    · subst hmn
      simpa using hvalid
    · have hfl : (fun x => flight m (tags x))=fun x => flight m (g.tags x) :=
        funext fun x => hr.others x m hmn
      have hv := h.valid m (hlt m hm hmn)
      rw [← hfl,← hop m hmn] at hv
      simpa [hmn] using hv
  · exact (forall_update_iff w.side fun _ e => e.Balanced).2 ⟨ht.balanced,fun x _ => h.balanced x⟩
  · intro m x F' hF'
    simp only [update_update_apply] at hF'
    split at hF'
    · cases hF'
      exact ht.small
    · exact h.small m x F' hF'

theorem change (hch : (w.side y).conn.channel id=some ch) (ht : Turned (w.side y) e' id F)
    (hr : Retagged g (g.owner y id) g.next tags queue)
    (hvalid : Valid (g.opener (g.owner y id)) (update (g.ends (g.owner y id)) y (some F))
      fun x => flight (g.owner y id) (tags x)) : ∃ g', Inv ⟨update w.side y e',queue⟩ g' := by
  obtain ⟨hown,hend,-⟩ := h.entry y id ch hch
  refine h.assign g.opener ht hr hown (Nat.le_refl _) (fun m hm _ => hm) (fun _ _ => rfl)
    (fun id' ch' hid hch' heq => ?_) (fun m F' hm hF' hdead hid => ?_) hvalid
  · have hend' := (h.entry y id' ch' hch').2.1
    rw [heq,hend] at hend'
    exact hid (congrArg End.id (Option.some.inj hend')).symm
  · obtain ⟨_,-,hown'⟩ := h.alive m y F' hF' hdead
    rw [hid] at hown'
    exact hm hown'.symm

theorem add (opener : Nat → Bool) (hfree : (w.side y).conn.channel id=none)
    (hends : g.ends n y=none) (ht : Turned (w.side y) e' id F)
    (hr : Retagged g n next tags queue) (hn : n<next) (hnext : g.next≤next)
    (hlt : ∀ m, m<next → m≠n → m<g.next) (hop : ∀ m, m≠n → opener m=g.opener m)
    (hvalid : Valid (opener n) (update (g.ends n) y (some F)) fun x => flight n (tags x)) :
    ∃ g', Inv ⟨update w.side y e',queue⟩ g' := by
  refine h.assign opener ht hr hn hnext hlt hop (fun id' ch' _ hch' heq => ?_)
    (fun m F' _ hF' hdead hid => ?_) hvalid
  · have hend' := (h.entry y id' ch' hch').2.1
    rw [heq,hends] at hend'
    cases hend'
  · obtain ⟨ch',hch',-⟩ := h.alive m y F' hF' hdead
    rw [hid,hfree] at hch'
    cases hch'

theorem send (hch : (w.side x).conn.channel id=some ch) (ht : Turned (w.side x) e' id F)
    (hs : signal payload=some s) (hvalid : Valid (g.opener (g.owner x id))
      (update (g.ends (g.owner x id)) x (some F))
      (update (fun z => flight (g.owner x id) (g.tags z)) x
        (flight (g.owner x id) (g.tags x)++[s]))) : ∃ g', Inv ⟨update w.side x e',
      update w.queue x (w.queue x++[payload])⟩ g' := by
  have hown := (h.entry x id ch hch).1
  refine h.change hch ht ((h.retagged _ (Nat.le_refl _)).push x _ fun _ _ _ => hown) ?_
  change Valid _ _ (flight _ ∘ _)
  rw [comp_update,flight_append,List.map_singleton,flight_singleton_self _ hs]
  exact hvalid

theorem receive (hch : (w.side !x).conn.channel id=some ch)
    (htags : g.tags x=(g.owner (!x) id,payload)::rest) (ht : Turned (w.side !x) e' id F)
    (hvalid : Valid (g.opener (g.owner (!x) id)) (update (g.ends (g.owner (!x) id)) (!x) (some F))
      (update (fun z => flight (g.owner (!x) id) (g.tags z)) x (flight (g.owner (!x) id) rest))) :
    ∃ g', Inv ⟨update w.side (!x) e',update w.queue x (rest.map Prod.snd)⟩ g' := by
  refine h.change hch ht ((h.retagged _ (Nat.le_refl _)).pop htags (.inl rfl)) ?_
  change Valid _ _ (flight _ ∘ _)
  rw [comp_update]
  exact hvalid

theorem retag (hconn : ∀ id, (e'.conn.channel id).map (·.toEnd id) =
      ((w.side y).conn.channel id).map (·.toEnd id)) (hbal : e'.Balanced)
    (hr : Retagged g t g.next tags queue)
    (hvalid : t<g.next → Valid (g.opener t) (g.ends t) fun x => flight t (tags x)) :
    ∃ g', Inv ⟨update w.side y e',queue⟩ g' := by
  have hside := (forall_update_iff w.side fun x e => ∀ id,
    (e.conn.channel id).map (·.toEnd id)=((w.side x).conn.channel id).map (·.toEnd id)).2
      ⟨hconn,fun _ _ _ => rfl⟩
  refine ⟨{ g with tags },hr.queue,hr.tagged,?_,?_,h.fresh,?_,?_,h.small⟩
  · intro x id ch hch
    have hs := hside x id
    rw [hch] at hs
    obtain ⟨ch',hch',he⟩ := Option.map_eq_some_iff.1 hs.symm
    have hentry := h.entry x id ch' hch'
    rwa [he] at hentry
  · intro n x F hF hdead
    obtain ⟨ch,hch,hown⟩ := h.alive n x F hF hdead
    have hs := hside x F.id
    rw [hch] at hs
    obtain ⟨ch',hch',-⟩ := Option.map_eq_some_iff.1 hs
    exact ⟨ch',hch',hown⟩
  · intro n hn
    by_cases hnt : n=t
    · subst hnt
      exact hvalid hn
    · have hfl : (fun x => flight n (tags x))=fun x => flight n (g.tags x) :=
        funext fun x => hr.others x n hnt
      rw [hfl]
      exact h.valid n hn
  · exact (forall_update_iff w.side fun _ e => e.Balanced).2 ⟨hbal,fun x _ => h.balanced x⟩

theorem sendQuiet {wire : List Bytes} (hconn : ∀ id, (e'.conn.channel id).map (·.toEnd id) =
      ((w.side x).conn.channel id).map (·.toEnd id)) (hbal : e'.Balanced)
    (hsig : ∀ payload∈wire, signal payload=none) :
    ∃ g', Inv ⟨update w.side x e',update w.queue x (w.queue x++wire)⟩ g' :=
  h.retag hconn hbal ((h.retagged g.next (Nat.le_refl _)).push x wire
    fun payload hp hs => absurd (hsig payload hp) hs) fun hlt => absurd hlt (Nat.lt_irrefl _)

theorem receiveQuiet {p : Nat × Bytes} (htags : g.tags x=p::rest) (hsig : signal p.2=none)
    (hconn : ∀ id, (e'.conn.channel id).map (·.toEnd id) =
      ((w.side !x).conn.channel id).map (·.toEnd id)) (hbal : e'.Balanced) :
    ∃ g', Inv ⟨update w.side (!x) e',update w.queue x (rest.map Prod.snd)⟩ g' :=
  h.retag hconn hbal ((h.retagged g.next (Nat.le_refl _)).pop htags (.inr hsig))
    fun hlt => absurd hlt (Nat.lt_irrefl _)

end Inv

end PureSsh.Channel
