import PureSsh.Transport.Peers

/-! One exchange as its two ends see it: which messages were sent and received up to a phase, and
that two ends whose messages match arrive at the same result. -/

namespace PureSsh.Transport
open Lib
variable {S : KexSuite} {P : Primitives}

def isNewkeys (m : Bytes) : Bool := m.head? == some msgNewKeys

/- A message in the middle of an exchange. -/
def Quiet (m : Bytes) : Prop := Party.isKexinit m=false ∧ isNewkeys m=false

theorem quiet_of_head {m : Bytes} {b : UInt8} (h : m.head?=some b) (h20 : b≠msgKexInit)
    (h21 : b≠msgNewKeys) : Quiet m := by
  simp [Quiet,Party.isKexinit,isNewkeys,h,h20,h21]

theorem quiet_cons {b : UInt8} (m : Bytes) (h20 : b≠msgKexInit) (h21 : b≠msgNewKeys) :
    Quiet (b::m) := quiet_of_head rfl h20 h21

/- What came out of an exchange. -/
structure Exchange where
  neg : NegotiatedOwned
  backend : KexBackend
  out : KexOutput

/- What a role makes of the two KEXINITs. -/
def Chosen (role : Role) (ours : KexInit) (peerBytes : Bytes) (neg : NegotiatedOwned)
    (backend : KexBackend) : Prop :=
  ∃ peer, KexInit.decode peerBytes = .ok peer ∧ negotiateAs role ours peer = .ok neg ∧
    KexBackend.fromName neg.kex = .ok backend

/- Between the KEXINITs and `(K, H)`: the phase, and what was sent and received since. Packets
   dropped after a wrong guess are among those received. -/
inductive Stage (S : KexSuite) (backend : KexBackend) :
    Role → Phase S → List Bytes → List Bytes → Prop
  | method {rng d} (hgex : backend.isGex=false) :
      Stage S backend .client (.negotiated (some (S.clientInit backend rng).1.1))
        [msgKexEcdhInit::(S.clientInit backend rng).1.2] d
  | waiting {d} : Stage S backend .server (.negotiated none) [] d
  | asked {request d} (hgex : backend.isGex=true) :
      Stage S backend .client (.gexClientAwaitGroup (S.gexStart request))
        [msgKexDhGexRequest::request.body] d
  | chose {request group rng rng' st init d} (hgex : backend.isGex=true)
      (hinit : S.gexClientInit (S.gexStart request) group rng=(.ok (st,init),rng')) :
      Stage S backend .client (.gexClientAwaitReply st)
        [msgKexDhGexRequest::request.body,msgKexDhGexInit::init] (d++[group])
  | offered {ask request group d d'} (hgex : backend.isGex=true)
      (hreq : GexRequest.parse ask = .ok request) :
      Stage S backend .server (.gexServerAwaitInit request group)
        [msgKexDhGexGroup::S.gexGroup group] (d++[ask]++d')

/- Everything between the KEXINITs and the NEWKEYS of an exchange with result `out`. -/
inductive Body (S : KexSuite) (backend : KexBackend) (ctx : KexContext) (out : KexOutput) :
    Role → List Bytes → List Bytes → Prop
  | client {rng v reply d} (hgex : backend.isGex=false)
      (hout : S.clientFinish backend (S.clientInit backend rng).1.1 reply v ctx = .ok out) :
      Body S backend ctx out .client [msgKexEcdhInit::(S.clientInit backend rng).1.2] (d++[reply])
  | server {init hk rng rng' reply d} (hgex : backend.isGex=false)
      (hout : S.serverReply backend init hk ctx rng=(.ok (reply,out),rng')) :
      Body S backend ctx out .server [msgKexEcdhReply::reply] (d++[init])
  | gexClient {request group rng rng' st init reply v d} (hgex : backend.isGex=true)
      (hinit : S.gexClientInit (S.gexStart request) group rng=(.ok (st,init),rng'))
      (hout : S.gexClientFinish backend st reply v ctx = .ok out) :
      Body S backend ctx out .client
        [msgKexDhGexRequest::request.body,msgKexDhGexInit::init] (d++[group,reply])
  | gexServer {ask request group init hk rng rng' reply d d'} (hgex : backend.isGex=true)
      (hreq : GexRequest.parse ask = .ok request)
      (hout : S.gexServerReply backend request group init hk ctx rng=(.ok (reply,out),rng')) :
      Body S backend ctx out .server [msgKexDhGexGroup::S.gexGroup group,msgKexDhGexReply::reply]
        (d++[ask]++d'++[init])

theorem append_singleton_eq {d : List Bytes} {a b : Bytes} (h : d++[a]=[b]) : a=b := by
  cases d with
  | nil => simpa using h
  | cons x d => simp at h

theorem append_two_eq {d d' : List Bytes} {a b x y : Bytes}
    (h : d++[a]++d'++[b]=[x,y]) : a=x ∧ b=y := by
  have hlen := congrArg List.length h
  simp only [List.length_append,List.length_cons,List.length_nil] at hlen
  have hd : d=[] := List.length_eq_zero_iff.1 (by omega)
  have hd' : d'=[] := List.length_eq_zero_iff.1 (by omega)
  subst hd hd'
  simpa using h

/-- Two ends that have each received what the other sent hold the same result. -/
theorem Body.agree (hS : S.Agrees) {backend : KexBackend} {ctx : KexContext}
    {out out' : KexOutput} {c s c' s' : List Bytes} (hc : Body S backend ctx out .client c s')
    (hs : Body S backend ctx out' .server s c') (hs' : s'=s) (hc' : c'=c) : out=out' := by
  cases hc with
  | client hgex hout =>
    cases hs with
    | server _ hout' =>
      rw [append_singleton_eq hs'] at hout
      rw [append_singleton_eq hc'] at hout'
      exact hS.method _ _ _ _ _ _ _ _ _ _ hout' hout
    | gexServer hgex' => rw [hgex] at hgex'; cases hgex'
  | gexClient hgex hinit hout =>
    cases hs with
    | server hgex' => rw [hgex] at hgex'; cases hgex'
    | gexServer _ hreq hout' =>
      obtain ⟨rfl,rfl⟩ := @append_two_eq _ [] _ _ _ _ (by simpa using hs')
      obtain ⟨rfl,rfl⟩ := append_two_eq hc'
      rw [GexRequest.parse_body] at hreq
      cases hreq
      exact hS.gex _ _ _ _ _ _ _ _ _ _ _ _ _ _ _ hinit hout' hout

/- A whole exchange from one end: KEXINIT, the messages in between, NEWKEYS and what follows. -/
def Finished (S : KexSuite) (vC vS : Bytes) (role : Role) (sent received : List Bytes)
    (x : Exchange) : Prop :=
  ∃ (ours : KexInit) (peerBytes : Bytes) (sb rb ts tr : List Bytes) (nk : Bytes),
    ours.WellFormed ∧ sent=ours.encode::(sb++KexState.newkeys::ts) ∧
    received=peerBytes::(rb++nk::tr) ∧ isNewkeys nk=true ∧
    (∀ m∈sb, Quiet m) ∧ (∀ m∈rb, Quiet m) ∧
    Chosen role ours peerBytes x.neg x.backend ∧
    Body S x.backend (contextAs role vC vS ours.encode peerBytes) x.out role sb rb

/- The peer's advert, read back, is the advert the peer meant. -/
theorem Chosen.encode {role : Role} {ours peer : KexInit} {neg : NegotiatedOwned}
    {backend : KexBackend} (h : Chosen role ours peer.encode neg backend)
    (hwf : peer.WellFormed) : negotiateAs role ours peer = .ok neg ∧
      KexBackend.fromName neg.kex = .ok backend := by
  obtain ⟨peer',hdec,hneg,hback⟩ := h
  rw [KexInit.decode_encode hwf] at hdec
  cases hdec
  exact ⟨hneg,hback⟩

theorem body_eq {k k' : Bytes} {rb sb tr ts : List Bytes} {nk : Bytes}
    (h : k::(rb++nk::tr) <+: k'::(sb++KexState.newkeys::ts))
    (hnk : isNewkeys nk=true) (hr : ∀ m∈rb, Quiet m) (hs : ∀ m∈sb, Quiet m) :
    k=k' ∧ rb=sb := by
  obtain ⟨hk,htail⟩ := List.cons_prefix_cons.1 h
  exact ⟨hk,(eq_of_prefix_of_first htail hnk rfl (fun m hm => (hr m hm).2)
    fun m hm => (hs m hm).2).1⟩

/-- When each end's messages of an exchange start with those the other sent, both finish it with
the same algorithms, the same secret and the same hash. -/
theorem Finished.agree (hS : S.Agrees) {vC vS : Bytes} {cs cr ss sr : List Bytes}
    {x y : Exchange} (hc : Finished S vC vS .client cs cr x)
    (hs : Finished S vC vS .server ss sr y) (h₁ : cr <+: ss) (h₂ : sr <+: cs) : x=y := by
  obtain ⟨a,ab,sb,rb,ts,tr,nk,hwfa,rfl,rfl,hnk,hqs,hqr,hcha,hba⟩ := hc
  obtain ⟨b,bb,sb',rb',ts',tr',nk',hwfb,rfl,rfl,hnk',hqs',hqr',hchb,hbb⟩ := hs
  obtain ⟨rfl,hrb⟩ := body_eq h₁ hnk hqr hqs'
  obtain ⟨rfl,hrb'⟩ := body_eq h₂ hnk' hqr' hqs
  obtain ⟨hneg,hback⟩ := hcha.encode hwfb
  obtain ⟨hneg',hback'⟩ := hchb.encode hwfa
  obtain ⟨neg,backend,out⟩ := x
  obtain ⟨neg',backend',out'⟩ := y
  have hn : neg=neg' := Except.ok.inj (hneg.symm.trans hneg')
  subst hn
  have hb : backend=backend' := Except.ok.inj (hback.symm.trans hback')
  subst hb
  have ho : out=out' := hba.agree hS hbb hrb hrb'
  rw [ho]

end PureSsh.Transport
