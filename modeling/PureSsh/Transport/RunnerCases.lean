import PureSsh.Transport.Runner

/-! What a successful `on_packet` can do, said once; every later result about the runner is
read off these cases. -/

namespace PureSsh.Transport
open Lib Proc
variable {S : KexSuite} {P : Primitives}

/- How an exchange goes on after both KEXINITs: the next phase, what is sent and what is left of
   the random source. -/
def opening (S : KexSuite) (role : Role) (neg : NegotiatedOwned) (backend : KexBackend)
    (rng : Rng) : Phase S × List Bytes × Rng :=
  match role with
  | .server => (.negotiated none,[],rng)
  | .client =>
    if backend.isGex then
      let request := GexRequest.forStrength (dhNeed neg)
      (.gexClientAwaitGroup (S.gexStart request),[msgKexDhGexRequest::request.body],rng)
    else
      (.negotiated (some (S.clientInit backend rng).1.1),
        [msgKexEcdhInit::(S.clientInit backend rng).1.2],(S.clientInit backend rng).2)

namespace KexState

/- The four ways to arrive at `(K, H)`. -/
inductive Computes (io : KexInput S) (payload : Bytes) (s : KexState S P) :
    KexOutput → Rng → List Bytes → Prop
  | init {cs hk backend reply out rng'} (hphase : s.runner.phase = .negotiated cs)
      (hrole : s.runner.role = .server) (hmsg : payload.head?=some msgKexEcdhInit)
      (hhk : io.hostKey=some hk) (hback : s.runner.backend=some backend)
      (hgex : backend.isGex=false)
      (hout : S.serverReply backend payload hk (s.runner.context io.vC io.vS) s.rng =
        (.ok (reply,out),rng')) :
      Computes io payload s out rng' [msgKexEcdhReply::reply,newkeys]
  | reply {st v backend out} (hphase : s.runner.phase = .negotiated (some st))
      (hrole : s.runner.role = .client) (hmsg : payload.head?=some msgKexEcdhReply)
      (hv : io.verifier=some v) (hback : s.runner.backend=some backend)
      (hgex : backend.isGex=false)
      (hout : S.clientFinish backend st payload v (s.runner.context io.vC io.vS) = .ok out) :
      Computes io payload s out s.rng [newkeys]
  | gexInit {request group hk reply out rng'}
      (hphase : s.runner.phase = .gexServerAwaitInit request group)
      (hmsg : payload.head?=some msgKexDhGexInit) (hhk : io.hostKey=some hk)
      (hout : S.gexServerReply (gexVariant s.runner) request group payload hk
        (s.runner.context io.vC io.vS) s.rng=(.ok (reply,out),rng')) :
      Computes io payload s out rng' [msgKexDhGexReply::reply,newkeys]
  | gexReply {st v out} (hphase : s.runner.phase = .gexClientAwaitReply st)
      (hmsg : payload.head?=some msgKexDhGexReply) (hv : io.verifier=some v)
      (hout : S.gexClientFinish (gexVariant s.runner) st payload v
        (s.runner.context io.vC io.vS) = .ok out) :
      Computes io payload s out s.rng [newkeys]

/- The runner once `(K, H)` is known and NEWKEYS is out. -/
def agreed (out : KexOutput) (keys : InstalledKeys) (r : KexRunner S) : KexRunner S :=
  ((r.adoptOutput out).holdKeys keys).setPhase .awaitingPeerNewKeys

/- Everything a packet can do, with what is sent in turn. -/
inductive Stepped (io : KexInput S) (payload : Bytes) (s : KexState S P) :
    List Bytes → KexState S P → Prop
  | dropped {msg} (hpending : s.runner.pendingWrongGuessDiscard=true)
      (hphase : s.runner.phase.discards=true) (hmsg : payload.head?=some msg)
      (hrange : 30≤ msg ∧ msg≤49) :
      Stepped io payload s [] (s.mapRunner fun r => r.noteInboundOther.noteDiscarded)
  | kexinit {peer neg backend} (hphase : s.runner.phase = .sentKexInit)
      (hmsg : payload.head?=some msgKexInit) (hpeer : KexInit.decode payload = .ok peer)
      (hneg : s.runner.negotiateWith peer = .ok neg)
      (hfirst : ¬(neg.strictKexEnabled ∧ s.runner.sessionId=none ∧ s.codec.seqIn≠1))
      (hback : KexBackend.fromName neg.kex = .ok backend) :
      Stepped io payload s (opening S s.runner.role neg backend s.rng).2.1
        { s with
          runner := ((s.runner.noteInboundOther.setPeerAdvert payload).adoptNegotiation
            peer neg backend).setPhase (opening S s.runner.role neg backend s.rng).1
          rng := (opening S s.runner.role neg backend s.rng).2.2 }
  | computed {out rng' outbound keys} (hout : Computes io payload s out rng' outbound)
      (hkeys : (s.runner.adoptOutput out).deriveKeys = .ok keys) :
      Stepped io payload s outbound
        { s with runner := agreed out keys s.runner.noteInboundOther, rng := rng' }
  | gexRequest {cs request group} (hphase : s.runner.phase = .negotiated cs)
      (hrole : s.runner.role = .server) (hgex : s.runner.usesGex=true)
      (hmsg : payload.head?=some msgKexDhGexRequest ∨ payload.head?=some msgKexDhGexRequestOld)
      (hreq : GexRequest.parse payload = .ok request)
      (hgroup : s.runner.gexGroupFor request=some group) :
      Stepped io payload s [msgKexDhGexGroup::S.gexGroup group]
        (s.mapRunner fun r => r.noteInboundOther.setPhase (.gexServerAwaitInit request group))
  | gexGroup {st st' init rng'} (hphase : s.runner.phase = .gexClientAwaitGroup st)
      (hmsg : payload.head?=some msgKexDhGexGroup)
      (hinit : S.gexClientInit st payload s.rng=(.ok (st',init),rng')) :
      Stepped io payload s [msgKexDhGexInit::init]
        { s with
          runner := s.runner.noteInboundOther.setPhase (.gexClientAwaitReply st')
          rng := rng' }
  | newkeys {codec'} (hphase : s.runner.phase = .awaitingPeerNewKeys)
      (hmsg : payload.head?=some msgNewKeys)
      (hinst : s.runner.notePeerNewkeys.maybeInstall s.codec=(.ok (),codec')) :
      Stepped io payload s s.runner.extInfoOut
        { s with
          runner := s.runner.noteInboundOther.notePeerNewkeys.afterNewkeys
          codec := codec' }

theorem need_eq_ok {α : Type} {msg : String} {o : Option α} {a : α} :
    need msg o = .ok a ↔ o=some a := by
  cases o <;> simp [need]

variable {r : KexRunner S} {o : List Bytes} {s s' : KexState S P} {payload vC vS : Bytes}
  {hostKey : Option S.HostKey} {verifier : Option S.HostKeyVerify} {st : S.GexClientState}
  {io : KexInput S}

/- Before the peer's NEWKEYS nothing is installed. -/
theorem maybeInstall_idle (h : r.peerNewkeys=false) (c : PacketCodec P) :
    r.maybeInstall c=(.ok (),c) := by
  simp [KexRunner.maybeInstall,h]

theorem adoptKeys_ok {out : KexOutput} {outbound : List Bytes}
    (h : adoptKeys out outbound s=(.ok o,s')) (hp : s.runner.peerNewkeys=false) :
    o=outbound ∧ ∃ keys, (s.runner.adoptOutput out).deriveKeys = .ok keys ∧
      s'=s.mapRunner (agreed out keys) := by
  simp only [adoptKeys,modifyRunner,modify_bind,get_bind,lift_bind_eq_ok] at h
  obtain ⟨keys,hkeys,h⟩ := h
  obtain ⟨⟨⟩,t,hinst,h⟩ := bind_eq_ok.1 h
  obtain ⟨c,hc,rfl⟩ := zoom_eq_ok.1 hinst
  have hp' : (((s.runner.adoptOutput out).holdKeys keys)).peerNewkeys=false := hp
  cases (maybeInstall_idle hp' _).symm.trans hc
  cases h
  refine ⟨rfl,keys,hkeys,?_⟩
  simp only [mapRunner,KexRunner.advanceAfterSendNewkeys,hp']
  rfl

theorem buildClientInit_eq (neg : NegotiatedOwned) (backend : KexBackend) (s : KexState S P) :
    ∃ init, (opening S .client neg backend s.rng).2.1=[init] ∧
      buildClientInit neg backend s=(.ok ((opening S .client neg backend s.rng).1,init),
        { s with rng := (opening S .client neg backend s.rng).2.2 }) := by
  simp only [opening,buildClientInit]
  cases backend.isGex with
  | true => exact ⟨_,rfl,rfl⟩
  | false => exact ⟨_,rfl,rfl⟩

/- Before the peer's NEWKEYS is recorded, the runner is not done. -/
def Open (r : KexRunner S) : Prop := r.peerNewkeys=true → r.phase = .completed

theorem Open.peerNewkeys (h : Open r) (hp : r.phase ≠ .completed) : r.peerNewkeys=false := by
  cases hn : r.peerNewkeys with
  | false => rfl
  | true => exact absurd (h hn) hp

theorem backend_of_usesGex {backend : KexBackend} (hb : r.backend=some backend) :
    r.usesGex=backend.isGex := by
  simp [KexRunner.usesGex,hb]

section Handlers

/- The state that `on_packet` dispatches on differs from `s` in one ext-info flag. -/
variable {t : KexState S P} (ht : t=s.mapRunner (·.noteInboundOther))
include ht

theorem handlePeerKexinit_stepped (hphase : s.runner.phase = .sentKexInit)
    (hmsg : payload.head?=some msgKexInit) (h : handlePeerKexinit payload t=(.ok o,s')) :
    Stepped io payload s o s' := by
  subst ht
  simp only [handlePeerKexinit,modifyRunner,get_bind,modify_bind,
    lift_bind_eq_ok,ite_fail_eq_ok] at h
  obtain ⟨peer,hpeer,neg,hneg,hfirst,backend,hback,h⟩ := h
  have hstep : Stepped io payload s _ _ := .kexinit hphase hmsg hpeer hneg hfirst hback
  have hrole' : (s.mapRunner (·.noteInboundOther)).runner.role=s.runner.role := rfl
  rw [hrole'] at h
  rcases hrole : s.runner.role with _ | _
  · obtain ⟨init,hinit,hbuild⟩ := buildClientInit_eq (S := S) (P := P) neg backend
      (((s.mapRunner (·.noteInboundOther)).mapRunner (·.setPeerAdvert payload)).mapRunner
        (·.adoptNegotiation peer neg backend))
    have hinit : (opening S .client neg backend s.rng).2.1=[init] := hinit
    rw [hrole] at h
    rw [hrole,hinit] at hstep
    cases (bind_of_ok hbuild _).symm.trans h
    exact hstep
  · rw [hrole] at h hstep
    cases h
    exact hstep

theorem handleKexInitMessage_stepped {cs : Option S.ClientState}
    (hphase : s.runner.phase = .negotiated cs) (hrole : s.runner.role = .server)
    (hmsg : payload.head?=some msgKexEcdhInit) (hp : s.runner.peerNewkeys=false)
    (h : handleKexInitMessage payload io.hostKey io.vC io.vS t=(.ok o,s')) :
    Stepped io payload s o s' := by
  subst ht
  simp only [handleKexInitMessage,get_bind,lift_bind_eq_ok,need_eq_ok,ite_fail_eq_ok] at h
  obtain ⟨hk,hhk,backend,hback,hgex,h⟩ := h
  obtain ⟨⟨reply,out⟩,t,hout,h⟩ := bind_eq_ok.1 h
  obtain ⟨rng',hrng,rfl⟩ := zoom_eq_ok.1 hout
  obtain ⟨rfl,keys,hkeys,rfl⟩ := adoptKeys_ok h hp
  exact .computed (.init hphase hrole hmsg hhk hback (by simpa using hgex) hrng) hkeys

theorem handleKexReplyMessage_stepped {cs : Option S.ClientState}
    (hphase : s.runner.phase = .negotiated cs) (hrole : s.runner.role = .client)
    (hmsg : payload.head?=some msgKexEcdhReply) (hp : s.runner.peerNewkeys=false)
    (h : handleKexReplyMessage cs payload io.verifier io.vC io.vS t=(.ok o,s')) :
    Stepped io payload s o s' := by
  subst ht
  simp only [handleKexReplyMessage,modifyRunner,get_bind,modify_bind,
    lift_bind_eq_ok,need_eq_ok,ite_fail_eq_ok] at h
  obtain ⟨backend,hback,st,rfl,v,hv,hgex,out,hout,h⟩ := h
  obtain ⟨rfl,keys,hkeys,rfl⟩ := adoptKeys_ok h hp
  exact .computed (.reply hphase hrole hmsg hv hback (by simpa using hgex) hout) hkeys

theorem handleGexInit_stepped {request : GexRequest} {group : S.DhGroup}
    (hphase : s.runner.phase = .gexServerAwaitInit request group)
    (hmsg : payload.head?=some msgKexDhGexInit) (hp : s.runner.peerNewkeys=false)
    (h : handleGexInit request group payload io.hostKey io.vC io.vS t=(.ok o,s')) :
    Stepped io payload s o s' := by
  subst ht
  simp only [handleGexInit,modifyRunner,get_bind,modify_bind,lift_bind_eq_ok,need_eq_ok] at h
  obtain ⟨hk,hhk,h⟩ := h
  obtain ⟨⟨reply,out⟩,t,hout,h⟩ := bind_eq_ok.1 h
  obtain ⟨rng',hrng,rfl⟩ := zoom_eq_ok.1 hout
  obtain ⟨rfl,keys,hkeys,rfl⟩ := adoptKeys_ok h hp
  exact .computed (.gexInit hphase hmsg hhk hrng) hkeys

theorem handleGexReply_stepped {st : S.GexClientState}
    (hphase : s.runner.phase = .gexClientAwaitReply st)
    (hmsg : payload.head?=some msgKexDhGexReply) (hp : s.runner.peerNewkeys=false)
    (h : handleGexReply st payload io.verifier io.vC io.vS t=(.ok o,s')) :
    Stepped io payload s o s' := by
  subst ht
  simp only [handleGexReply,modifyRunner,get_bind,modify_bind,lift_bind_eq_ok,need_eq_ok] at h
  obtain ⟨v,hv,out,hout,h⟩ := h
  obtain ⟨rfl,keys,hkeys,rfl⟩ := adoptKeys_ok h hp
  exact .computed (.gexReply hphase hmsg hv hout) hkeys

theorem handleGexRequest_stepped {cs : Option S.ClientState}
    (hphase : s.runner.phase = .negotiated cs) (hrole : s.runner.role = .server)
    (hgex : s.runner.usesGex=true) (hmsg : payload.head?=some msgKexDhGexRequest ∨
      payload.head?=some msgKexDhGexRequestOld) (h : handleGexRequest payload t=(.ok o,s')) :
    Stepped io payload s o s' := by
  subst ht
  simp only [handleGexRequest,get_bind,lift_bind_eq_ok,need_eq_ok] at h
  obtain ⟨request,hreq,group,hgroup,h⟩ := h
  cases h
  exact .gexRequest hphase hrole hgex hmsg hreq hgroup

theorem handleGexGroup_stepped {st : S.GexClientState}
    (hphase : s.runner.phase = .gexClientAwaitGroup st)
    (hmsg : payload.head?=some msgKexDhGexGroup)
    (h : handleGexGroup st payload t=(.ok o,s')) : Stepped io payload s o s' := by
  subst ht
  simp only [handleGexGroup,modifyRunner,modify_bind] at h
  obtain ⟨⟨st',init⟩,t,hout,h⟩ := bind_eq_ok.1 h
  obtain ⟨rng',hrng,rfl⟩ := zoom_eq_ok.1 hout
  cases h
  exact .gexGroup hphase hmsg hrng

theorem handlePeerNewkeys_stepped (hphase : s.runner.phase = .awaitingPeerNewKeys)
    (hmsg : payload.head?=some msgNewKeys) (h : handlePeerNewkeys t=(.ok o,s')) :
    Stepped io payload s o s' := by
  subst ht
  simp only [handlePeerNewkeys,modifyRunner,modify_bind,get_bind] at h
  obtain ⟨⟨⟩,t,hinst,h⟩ := bind_eq_ok.1 h
  obtain ⟨codec',hc,rfl⟩ := zoom_eq_ok.1 hinst
  cases h
  exact .newkeys hphase hmsg hc

theorem dispatch_cases {msg : UInt8} {body : Bytes} (ho : Open s.runner)
    (h : dispatch msg (msg::body) io t=(.ok o,s')) : Stepped io (msg::body) s o s' := by
  have hopen : ∀ {p : Phase S}, s.runner.phase=p → p ≠ .completed →
      s.runner.peerNewkeys=false := fun hp hne => ho.peerNewkeys (hp ▸ hne)
  have hphase' : t.runner.phase=s.runner.phase := by rw [ht]; rfl
  have hrole' : t.runner.role=s.runner.role := by rw [ht]; rfl
  have hgex' : t.runner.usesGex=s.runner.usesGex := by rw [ht]; rfl
  unfold dispatch at h
  rw [hphase',hrole',hgex'] at h
  split at h
  · next hphase =>
    split at h
    · next hmsg => exact handlePeerKexinit_stepped ht hphase (by rw [hmsg]; rfl) h
    · cases h
  · next cs hphase =>
    have hp := hopen hphase nofun
    split at h
    · cases h
    · split at h
      · next hrole _ =>
        split at h
        · next hmsg =>
          exact handleKexInitMessage_stepped ht hphase hrole (by rw [hmsg]; rfl) hp h
        · cases h
      · next hrole _ =>
        split at h
        · next hmsg =>
          exact handleKexReplyMessage_stepped ht hphase hrole (by rw [hmsg]; rfl) hp h
        · cases h
      · next hrole hgex =>
        split at h
        · next hmsg =>
          refine handleGexRequest_stepped ht hphase hrole hgex (hmsg.imp ?_ ?_) h
          all_goals exact fun hm => by rw [hm]; rfl
        · cases h
      · cases h
  · next st hphase =>
    split at h
    · next hmsg => exact handleGexGroup_stepped ht hphase (by rw [hmsg]; rfl) h
    · split at h <;> cases h
  · next request group hphase =>
    split at h
    · next hmsg =>
      exact handleGexInit_stepped ht hphase (by rw [hmsg]; rfl) (hopen hphase nofun) h
    · split at h <;> cases h
  · next st hphase =>
    split at h
    · next hmsg =>
      exact handleGexReply_stepped ht hphase (by rw [hmsg]; rfl) (hopen hphase nofun) h
    · split at h <;> cases h
  · next hphase =>
    split at h
    · next hmsg => exact handlePeerNewkeys_stepped ht hphase (by rw [hmsg]; rfl) h
    · cases h
  · cases h
  · cases h

end Handlers

/-- Everything a packet that is accepted can do. -/
theorem onPacket_cases {adv : KexAdvance} (ho : Open s.runner)
    (h : onPacket payload io s=(.ok adv,s')) : Stepped io payload s adv.outbound s' := by
  cases payload with
  | nil => cases h
  | cons msg body =>
    simp only [onPacket,modifyRunner,modify_bind,get_bind] at h
    split at h
    · next hd =>
      cases h
      exact .dropped hd.1 hd.2.1 rfl hd.2.2
    · split at h
      · cases h
      · obtain ⟨o,t,hdisp,h⟩ := bind_eq_ok.1 h
        cases h
        exact dispatch_cases rfl ho hdisp

end KexState

namespace KexRunner

variable {adv : KexAdvance} {r r' : KexRunner S}

theorem start_ok (h : start r=(.ok adv,r')) :
    r.phase = .idle ∧ adv.outbound=[r.ourAdvertBytes] ∧ r'=r.setPhase .sentKexInit := by
  rw [start,get_bind] at h
  cases hp : r.phase with
  | idle =>
    rw [hp] at h
    cases h
    exact ⟨rfl,rfl,rfl⟩
  | _ => rw [hp] at h; cases h

theorem restart_ok {advert : KexInit} (h : restart advert r=(.ok adv,r')) :
    r.phase = .completed ∧ adv.outbound=[advert.encode] ∧ r'=r.restarted advert := by
  rw [restart,get_bind] at h
  cases hp : r.phase with
  | completed =>
    rw [hp] at h
    cases h
    exact ⟨rfl,rfl,rfl⟩
  | _ => rw [hp] at h; cases h

theorem handleInboundExtInfo_ok {payload : Bytes}
    (h : handleInboundExtInfo payload r=(.ok (),r')) : r.acceptExtInfoNow=true ∧
      ∃ parsed, r' = { r with peerExtInfo := some parsed, acceptExtInfoNow := false } := by
  simp only [handleInboundExtInfo,get_bind,ite_fail_eq_ok,lift_bind_eq_ok] at h
  obtain ⟨ha,parsed,-,h⟩ := h
  cases h
  exact ⟨by simpa using ha,parsed,rfl⟩

end KexRunner

/- The slot that the keys of one direction fill. -/
def slotFor (dir : DirKeys) : Result (CipherSlot P) := do
  let built ← buildCipherMac dir
  classify built.1 built.2

/- The codec `c'` is `c` with the keys of runner `r` in place. -/
structure Installed (r : KexRunner S) (c c' : PacketCodec P) : Prop where
  slots : ∃ keys, r.installedKeys=some keys ∧ slotFor (keys.outbound r.role) = .ok c'.outbound ∧
    slotFor (keys.inbound r.role) = .ok c'.inbound
  compress : ∃ neg comp, r.negotiated=some neg ∧
    Compress.byName (neg.outComp r.role)=some comp ∧
    c'.outboundCompress=if c.outboundCompress.compressing then comp.activate else comp
  decompress : ∃ neg comp, r.negotiated=some neg ∧
    Decompress.byName (neg.inComp r.role)=some comp ∧
    c'.inboundDecompress=if c.inboundDecompress.decompressing then comp.activate else comp
  seqIn : c'.seqIn=if r.strictKex then 0 else c.seqIn
  seqOut : c'.seqOut=if r.strictKex then 0 else c.seqOut
  seqInBase : c'.seqInBase=c'.seqIn
  seqOutBase : c'.seqOutBase=c'.seqOut
  bytesIn : c'.bytesIn=0
  bytesOut : c'.bytesOut=0
  pending : c'.pendingFirstBlock=none

/-- The second NEWKEYS puts everything that was negotiated in place at once. -/
theorem KexRunner.maybeInstall_ok {r : KexRunner S} {c c' : PacketCodec P}
    (hs : r.sentNewkeys=true) (hp : r.peerNewkeys=true)
    (h : r.maybeInstall c=(.ok (),c')) : Installed r c c' := by
  simp only [maybeInstall,hs,hp,Bool.and_self,Bool.not_true,Bool.false_eq_true,if_false,
    lift_bind_eq_ok,KexState.need_eq_ok] at h
  obtain ⟨keys,hkeys,out,hout,h⟩ := h
  obtain ⟨⟨⟩,c₁,hinst,h⟩ := bind_eq_ok.1 h
  obtain ⟨slot,hslot,hc₁⟩ := lift_bind_eq_ok.1 hinst
  obtain ⟨inb,hin,h⟩ := lift_bind_eq_ok.1 h
  obtain ⟨⟨⟩,c₂,hinst',h⟩ := bind_eq_ok.1 h
  obtain ⟨slot',hslot',hc₂⟩ := lift_bind_eq_ok.1 hinst'
  simp only [lift_bind_eq_ok,KexState.need_eq_ok,okOr_bind_eq_ok] at h
  obtain ⟨neg,hneg,comp,hcomp,decomp,hdecomp,h⟩ := h
  cases hc₁
  cases hc₂
  cases h
  have hout' : slotFor (keys.outbound r.role) = .ok slot := by rw [slotFor,hout]; exact hslot
  have hin' : slotFor (keys.inbound r.role) = .ok slot' := by rw [slotFor,hin]; exact hslot'
  rcases Bool.eq_false_or_eq_true r.strictKex with hst | hst <;> simp only [hst]
  · exact ⟨⟨keys,hkeys,hout',hin'⟩,⟨neg,comp,hneg,hcomp,rfl⟩,
      ⟨neg,decomp,hneg,hdecomp,rfl⟩,(if_pos hst).symm,(if_pos hst).symm,rfl,rfl,rfl,rfl,rfl⟩
  · have hst' : ¬r.strictKex=true := by simp [hst]
    exact ⟨⟨keys,hkeys,hout',hin'⟩,⟨neg,comp,hneg,hcomp,rfl⟩,
      ⟨neg,decomp,hneg,hdecomp,rfl⟩,(if_neg hst').symm,(if_neg hst').symm,rfl,rfl,rfl,rfl,rfl⟩

end PureSsh.Transport
