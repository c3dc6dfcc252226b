import PureSsh.Transport.Transcript

/-! The invariant of one end of a connection: what its runner has recorded is what its messages
say, exchange by exchange. -/

namespace PureSsh.Transport
open Lib KexState Party List
variable {S : KexSuite} {P : Primitives}

namespace Phase

/- Whether our KEXINIT of the exchange is out, the peer's is in, and `(K, H)` is known. -/
def begun : Phase S → Nat
  | idle => 0
  | _ => 1

def heard : Phase S → Nat
  | idle | sentKexInit => 0
  | _ => 1

def hasKeys : Phase S → Bool
  | awaitingPeerNewKeys | completed => true
  | _ => false

end Phase

/- The runner's record of the peer's KEXINIT. -/
structure Bound (r : KexRunner S) (peerBytes : Bytes) (neg : NegotiatedOwned)
    (backend : KexBackend) : Prop where
  peer : r.peerAdvertBytes=some peerBytes
  negEq : r.negotiated=some neg
  backendEq : r.backend=some backend
  chosen : Chosen r.role r.ourAdvertOwned peerBytes neg backend

/- The runner's record of the result. -/
structure Holds (r : KexRunner S) (x : Exchange) : Prop where
  neg : r.negotiated=some x.neg
  hash : r.currentH=some x.out.h
  keys : ∃ sid keys, r.sessionId=some sid ∧ r.installedKeys=some keys ∧
    deriveBoth S x.backend x.neg x.out.k x.out.h sid = .ok keys

/- The messages of the current exchange that go with a state of the runner. -/
inductive Progress (vC vS : Bytes) (r : KexRunner S) : List Bytes → List Bytes → Prop
  | idle (hphase : r.phase = .idle) (hneg : r.negotiated=none) : Progress vC vS r [] []
  | opened (hphase : r.phase = .sentKexInit) (hneg : r.negotiated=none) :
      Progress vC vS r [r.ourAdvertBytes] []
  | running {peerBytes sb rb neg backend} (hb : Bound r peerBytes neg backend)
      (hst : Stage S backend r.role r.phase sb rb) (hs : ∀ m∈sb, Quiet m)
      (hr : ∀ m∈rb, Quiet m) : Progress vC vS r (r.ourAdvertBytes::sb) (peerBytes::rb)
  | agreed {peerBytes sb rb x} (hphase : r.phase = .awaitingPeerNewKeys)
      (hch : Chosen r.role r.ourAdvertOwned peerBytes x.neg x.backend)
      (hbody : Body S x.backend (contextAs r.role vC vS r.ourAdvertBytes peerBytes) x.out r.role
        sb rb)
      (hs : ∀ m∈sb, Quiet m) (hr : ∀ m∈rb, Quiet m) (hx : Holds r x) :
      Progress vC vS r (r.ourAdvertBytes::(sb++[newkeys])) (peerBytes::rb)
  | done {sent received x} (hphase : r.phase = .completed)
      (hf : Finished S vC vS r.role sent received x) (hx : Holds r x) :
      Progress vC vS r sent received

/- The codec works with the keys the runner holds. -/
structure Fitted (r : KexRunner S) (c : PacketCodec P) : Prop where
  slots : ∃ keys, r.installedKeys=some keys ∧ slotFor (keys.outbound r.role) = .ok c.outbound ∧
    slotFor (keys.inbound r.role) = .ok c.inbound
  comp : ∃ neg, r.negotiated=some neg ∧ c.outboundCompress.name=neg.outComp r.role ∧
    c.inboundDecompress.name=neg.inComp r.role

/- One end, with the exchanges it has put behind it. Segment `i` of a log is exchange `i`. -/
structure Local (vC vS : Bytes) (role : Role) (p : Party S P) (past : List Exchange) : Prop where
  roleEq : p.runner.role=role
  bytes : p.runner.ourAdvertBytes=p.runner.ourAdvertOwned.encode
  wf : p.runner.ourAdvertOwned.WellFormed
  notDone : Open p.runner
  accept : p.runner.acceptExtInfoNow=true → p.runner.phase = .completed
  newkeys : p.runner.sentNewkeys=p.runner.phase.hasKeys
  noHash : p.runner.phase.hasKeys=false → p.runner.currentH=none
  sentCount : p.sent.countP isKexinit=past.length+p.runner.phase.begun
  recvCount : p.received.countP isKexinit=past.length+p.runner.phase.heard
  finished : ∀ i x, past[i]?=some x → Finished S vC vS role
    (segment isKexinit (i+1) p.sent) (segment isKexinit (i+1) p.received) x
  current : Progress vC vS p.runner (segment isKexinit (past.length+1) p.sent)
    (segment isKexinit (past.length+1) p.received)
  sid : p.runner.sessionId=(past.map (·.out.h)++p.runner.currentH.toList).head?
  strict : p.runner.strictKex =
    (past.any (·.neg.strictKexEnabled) || p.runner.negotiated.any (·.strictKexEnabled))
  fitted : p.runner.phase = .completed → Fitted p.runner p.codec

variable {backend : KexBackend} {phase : Phase S} {rb sb : List Bytes} {role : Role}
  {r : KexRunner S} {name : Str}

theorem Stage.middle (h : Stage S backend role phase sb rb) :
    phase.heard=1 ∧ phase.hasKeys=false := by
  cases h <;> exact ⟨rfl,rfl⟩

theorem Stage.drop (h : Stage S backend role phase sb rb) (hd : phase.discards=true) (m : Bytes) :
    Stage S backend role phase sb (rb++[m]) := by
  cases h with
  | method hgex => exact .method hgex
  | waiting => exact .waiting
  | asked hgex => exact .asked hgex
  | chose => cases hd
  | offered hgex hreq =>
    rw [append_assoc]
    exact .offered hgex hreq

theorem Stage.opening (role : Role) (neg : NegotiatedOwned) (backend : KexBackend) (rng : Rng) :
    Stage S backend role (opening S role neg backend rng).1 (opening S role neg backend rng).2.1
      [] ∧ ∀ m∈(Transport.opening S role neg backend rng).2.1, Quiet m := by
  cases role with
  | server => exact ⟨.waiting,nofun⟩
  | client =>
    simp only [Transport.opening]
    cases hgex : backend.isGex with
    | true =>
      refine ⟨.asked hgex,fun m hm => ?_⟩
      rw [mem_singleton.1 hm]
      exact quiet_cons _ (by decide) (by decide)
    | false =>
      refine ⟨.method hgex,fun m hm => ?_⟩
      rw [mem_singleton.1 hm]
      exact quiet_cons _ (by decide) (by decide)

theorem gexVariant_eq (hb : r.backend=some backend) (hgex : backend.isGex=true) :
    gexVariant r=backend := by
  unfold gexVariant
  rw [hb]
  cases backend <;> first | rfl | cases hgex

/- What is sent besides NEWKEYS when `(K, H)` is reached. -/
theorem Stage.body {s : KexState S P} {m : Bytes} {io : KexInput S} {out : KexOutput} {rng' : Rng}
    {outbound : List Bytes} (h : Stage S backend s.runner.role s.runner.phase sb rb)
    (hb : s.runner.backend=some backend) (hc : Computes io m s out rng' outbound) :
    ∃ extra, outbound=extra++[newkeys] ∧ (∀ o∈extra, Quiet o) ∧ Quiet m ∧
      Body S backend (s.runner.context io.vC io.vS) out s.runner.role (sb++extra) (rb++[m]) := by
  cases hc with
  | init hphase hrole hmsg hhk hback hgex hout =>
    rw [hb] at hback
    cases hback
    rw [hphase,hrole] at h
    rw [hrole]
    cases h with
    | waiting =>
      exact ⟨[_],rfl,by simpa using quiet_cons _ (by decide) (by decide),
        quiet_of_head hmsg (by decide) (by decide),.server hgex hout⟩
  | reply hphase hrole hmsg hv hback hgex hout =>
    rw [hb] at hback
    cases hback
    rw [hphase,hrole] at h
    rw [hrole]
    generalize hcs : some _=cs at h
    cases h with
    | method hgex' =>
      cases hcs
      exact ⟨[],rfl,nofun,quiet_of_head hmsg (by decide) (by decide),.client hgex hout⟩
  | gexInit hphase hmsg hhk hout =>
    rw [hphase] at h
    generalize s.runner.role=role at h ⊢
    cases h with
    | offered hgex hreq =>
      rw [gexVariant_eq hb hgex] at hout
      exact ⟨[_],rfl,by simpa using quiet_cons _ (by decide) (by decide),
        quiet_of_head hmsg (by decide) (by decide),.gexServer hgex hreq hout⟩
  | gexReply hphase hmsg hv hout =>
    rw [hphase] at h
    generalize s.runner.role=role at h ⊢
    cases h with
    | chose hgex hinit =>
      rw [gexVariant_eq hb hgex] at hout
      refine ⟨[],rfl,nofun,quiet_of_head hmsg (by decide) (by decide),?_⟩
      rw [append_assoc]
      exact .gexClient hgex hinit hout

namespace Progress
variable {vC vS : Bytes} {r : KexRunner S} {sent received : List Bytes}

/- The messages of the current exchange, phase by phase. -/
def Log (vC vS : Bytes) (r : KexRunner S) (sent received : List Bytes) : Phase S → Prop
  | .idle => sent=[] ∧ received=[] ∧ r.negotiated=none
  | .sentKexInit => sent=[r.ourAdvertBytes] ∧ received=[] ∧ r.negotiated=none
  | .awaitingPeerNewKeys => ∃ peerBytes sb rb x, sent=r.ourAdvertBytes::(sb++[newkeys]) ∧
      received=peerBytes::rb ∧ Chosen r.role r.ourAdvertOwned peerBytes x.neg x.backend ∧
      Body S x.backend (contextAs r.role vC vS r.ourAdvertBytes peerBytes) x.out r.role sb rb ∧
      (∀ m∈sb, Quiet m) ∧ (∀ m∈rb, Quiet m) ∧ Holds r x
  | .completed => ∃ x, Finished S vC vS r.role sent received x ∧ Holds r x
  | phase => ∃ peerBytes sb rb neg backend, sent=r.ourAdvertBytes::sb ∧
      received=peerBytes::rb ∧ Bound r peerBytes neg backend ∧
      Stage S backend r.role phase sb rb ∧ (∀ m∈sb, Quiet m) ∧ ∀ m∈rb, Quiet m

theorem log (h : Progress vC vS r sent received) : Log vC vS r sent received r.phase := by
  cases h with
  | idle hphase hneg | opened hphase hneg =>
    rw [hphase]
    exact ⟨rfl,rfl,hneg⟩
  | running hb hst hs hr =>
    obtain ⟨h1,h2⟩ := hst.middle
    generalize r.phase=phase at hst h1 h2 ⊢
    cases phase <;> first
      | exact ⟨_,_,_,_,_,rfl,rfl,hb,hst,hs,hr⟩
      | (cases h1; done)
      | cases h2
  | agreed hphase hch hbody hs hr hx =>
    rw [hphase]
    exact ⟨_,_,_,_,rfl,rfl,hch,hbody,hs,hr,hx⟩
  | done hphase hf hx =>
    rw [hphase]
    exact ⟨_,hf,hx⟩

/- The phases between the KEXINITs and the keys. -/
theorem of_running (h : Progress vC vS r sent received) (h1 : r.phase.heard=1)
    (h2 : r.phase.hasKeys=false) : ∃ peerBytes sb rb neg backend,
      sent=r.ourAdvertBytes::sb ∧ received=peerBytes::rb ∧
      Bound r peerBytes neg backend ∧ Stage S backend r.role r.phase sb rb ∧
      (∀ m∈sb, Quiet m) ∧ ∀ m∈rb, Quiet m := by
  have hlog := h.log
  generalize r.phase=phase at h1 h2 hlog ⊢
  cases phase <;> first | exact hlog | (cases h1; done) | cases h2

theorem log_at {phase : Phase S} (h : Progress vC vS r sent received) (hp : r.phase=phase) :
    Log vC vS r sent received phase := hp ▸ h.log

end Progress

theorem Compress.name_of_byName {c : Compress P} (h : Compress.byName name=some c) (b : Bool) :
    (if b then c.activate else c).name=name := by
  unfold Compress.byName at h
  split_ifs at h <;> cases h <;> cases b <;> simp_all [Compress.activate,Compress.name]

theorem Decompress.name_of_byName {c : Decompress P} (h : Decompress.byName name=some c)
    (b : Bool) : (if b then c.activate else c).name=name := by
  unfold Decompress.byName at h
  split_ifs at h <;> cases h <;> cases b <;> simp_all [Decompress.activate,Decompress.name]

theorem Installed.fitted {c c' : PacketCodec P} (h : Installed r c c') : Fitted r c' := by
  obtain ⟨neg,comp,hneg,hcomp,hc⟩ := h.compress
  obtain ⟨neg',decomp,hneg',hdecomp,hd⟩ := h.decompress
  rw [hneg] at hneg'
  cases hneg'
  refine ⟨h.slots,neg,hneg,?_,?_⟩
  · rw [hc]
    exact Compress.name_of_byName hcomp _
  · rw [hd]
    exact Decompress.name_of_byName hdecomp _

/- A packet of the current exchange: the peer's KEXINIT when none has come yet, and any other
   message afterwards. -/
def InTurn (p : Party S P) (m : Bytes) : Prop :=
  isKexinit m=true ∧ p.runner.phase.heard=0 ∨ isKexinit m=false ∧ p.runner.phase.heard=1

namespace Local
variable {vC vS : Bytes} {role : Role} {p : Party S P} {past : List Exchange}

variable {m : Bytes} {out outbound : List Bytes} {k : KexState S P} {phase : Phase S}
  {io : KexInput S} {rng' : Rng} {backend : KexBackend} {neg : NegotiatedOwned} {r r' : KexRunner S}

section
variable (hl : Local vC vS role p past)
include hl

theorem received_count (hm : InTurn p m) : (p.received++[m]).countP isKexinit=past.length+1 := by
  have hcount := hl.recvCount
  rw [countP_append,hcount]
  rcases hm with ⟨h,hh⟩ | ⟨h,hh⟩ <;> simp [h,hh]

theorem received_segment (hm : InTurn p m) (i : Nat) : segment isKexinit i (p.received++[m]) =
      segment isKexinit i p.received++if past.length+1=i then [m] else [] := by
  have hcount := hl.recvCount
  rcases hm with ⟨h,hh⟩ | ⟨h,hh⟩
  · rw [segment_append_marker _ _ _ h,hcount,hh]
  · rw [segment_append_plain _ _ _ (by simpa using h),hcount,hh]

theorem sent_segment (hb : p.runner.phase.begun=1)
    (hout : ∀ m∈out, isKexinit m=false) (i : Nat) : segment isKexinit i (p.sent++out) =
      segment isKexinit i p.sent++if past.length+1=i then out else [] := by
  rw [segment_append_plain _ _ _ hout,hl.sentCount,hb]

/- Past exchanges are closed. -/
theorem finished_append {sent received : List Bytes}
    {ins : List Bytes} (hs : ∀ i, segment isKexinit i sent =
      segment isKexinit i p.sent++if past.length+1=i then out else [])
    (hr : ∀ i, segment isKexinit i received =
      segment isKexinit i p.received++if past.length+1=i then ins else []) (i : Nat)
    (x : Exchange) (hx : past[i]?=some x) : Finished S vC vS role
      (segment isKexinit (i+1) sent) (segment isKexinit (i+1) received) x := by
  obtain ⟨hi,-⟩ := List.getElem?_eq_some_iff.1 hx
  rw [hs,hr,if_neg (by omega),if_neg (by omega),append_nil,append_nil]
  exact hl.finished i x hx

/-- A packet that keeps the runner's records keeps the whole invariant. -/
theorem advance (hm : InTurn p m)
    (hout : ∀ o∈out, isKexinit o=false) (hbegun : p.runner.phase.begun=1)
    (hheard : k.runner.phase.heard=1) (hrole : k.runner.role=p.runner.role)
    (hours : k.runner.ourAdvertOwned=p.runner.ourAdvertOwned)
    (hbytes : k.runner.ourAdvertBytes=p.runner.ourAdvertBytes) (hopen : Open k.runner)
    (haccept : k.runner.acceptExtInfoNow=true → k.runner.phase = .completed)
    (hnewkeys : k.runner.sentNewkeys=k.runner.phase.hasKeys)
    (hnoHash : k.runner.phase.hasKeys=false → k.runner.currentH=none)
    (hprog : ∀ {sent received}, Progress vC vS p.runner sent received →
      Progress vC vS k.runner (sent++out) (received++[m]))
    (hsid : k.runner.sessionId=(past.map (·.out.h)++k.runner.currentH.toList).head?)
    (hstrict : k.runner.strictKex=(past.any (·.neg.strictKexEnabled) ||
      k.runner.negotiated.any (·.strictKexEnabled)))
    (hfit : k.runner.phase = .completed → Fitted k.runner k.codec) :
    Local vC vS role (({ p.take m with kex := k } : Party S P).emit out) past where
  roleEq := hrole.trans hl.roleEq
  bytes := by
    change k.runner.ourAdvertBytes=k.runner.ourAdvertOwned.encode
    rw [hbytes,hours,hl.bytes]
  wf := by
    change k.runner.ourAdvertOwned.WellFormed
    rw [hours]
    exact hl.wf
  notDone := hopen
  accept := haccept
  newkeys := hnewkeys
  noHash := hnoHash
  sentCount := by
    have hplain : out.countP isKexinit=0 := by
      simpa using hout
    have hb' : k.runner.phase.begun=1 := by
      revert hheard
      cases k.runner.phase <;> simp [Phase.heard,Phase.begun]
    change (p.sent++out).countP isKexinit=past.length+k.runner.phase.begun
    rw [countP_append,hl.sentCount,hplain,hbegun,hb']
  recvCount := (hl.received_count hm).trans (by rw [← hheard]; rfl)
  finished := hl.finished_append (hl.sent_segment hbegun hout) (hl.received_segment hm)
  current := by
    change Progress vC vS k.runner (segment isKexinit _ (p.sent++out))
      (segment isKexinit _ (p.received++[m]))
    rw [hl.sent_segment hbegun hout,hl.received_segment hm,if_pos rfl,if_pos rfl]
    exact hprog hl.current
  sid := hsid
  strict := hstrict
  fitted := fun h => ⟨(hfit h).slots,(hfit h).comp⟩

end

theorem plain_of_quiet (h : ∀ m∈out, Quiet m) : ∀ m∈out, isKexinit m=false := fun m hm => (h m hm).1

theorem begun_of_heard (h : phase.heard=1) : phase.begun=1 := by
  revert h
  cases phase <;> simp [Phase.heard,Phase.begun]

theorem not_accepting {a : Prop} (h : false=true) : a := absurd h Bool.false_ne_true

theorem ne_completed (h : phase.hasKeys=false) : phase ≠ .completed := by
  rintro rfl
  cases h

theorem quiet_append {l l' : List Bytes} (h : ∀ m∈l, Quiet m) (h' : ∀ m∈l', Quiet m) :
    ∀ m∈l++l', Quiet m := fun m hm => (mem_append.1 hm).elim (h m) (h' m)

/- A step from one stage to another changes the phase and nothing else that matters. -/
theorem stage_step (hl : Local vC vS role p past) {pending : Bool} (hk : k.runner = { p.runner with
      phase := phase, pendingWrongGuessDiscard := pending, acceptExtInfoNow := false })
    (h1 : p.runner.phase.heard=1) (h2 : p.runner.phase.hasKeys=false) (hm : Quiet m)
    (hout : ∀ o∈out, Quiet o) (hst : ∀ {backend sb rb}, p.runner.backend=some backend →
      Stage S backend p.runner.role p.runner.phase sb rb →
      Stage S backend p.runner.role phase (sb++out) (rb++[m])) :
    Local vC vS role (({ p.take m with kex := k } : Party S P).emit out) past := by
  obtain ⟨pb,sb,rb,neg,backend,-,-,hb,hstage,-,-⟩ := hl.current.of_running h1 h2
  obtain ⟨h1',h2'⟩ := (hst hb.backendEq hstage).middle
  have hkeys : p.runner.sentNewkeys=phase.hasKeys := by rw [hl.newkeys,h2,h2']
  have hpeer := hl.notDone.peerNewkeys (ne_completed h2)
  obtain ⟨r,c,g⟩ := k
  subst hk
  refine hl.advance (.inr ⟨hm.1,h1⟩) (plain_of_quiet hout) (begun_of_heard h1) h1' rfl rfl rfl
    ?_ not_accepting hkeys (fun _ => hl.noHash h2) ?_ hl.sid hl.strict
    (fun h => absurd h (ne_completed h2'))
  · intro hp
    exact absurd (hpeer.symm.trans hp) Bool.false_ne_true
  · intro sent received hprog
    obtain ⟨pb,sb,rb,neg,backend,rfl,rfl,hb,hstage,hs,hr⟩ := hprog.of_running h1 h2
    exact .running ⟨hb.peer,hb.negEq,hb.backendEq,hb.chosen⟩ (hst hb.backendEq hstage)
      (quiet_append hs hout) (quiet_append hr (by simpa using hm))

theorem computes_middle {s : KexState S P} {out : KexOutput} (h : Computes io m s out rng' outbound) :
    s.runner.phase.heard=1 ∧ s.runner.phase.hasKeys=false := by
  cases h with
  | init hphase => rw [hphase]; exact ⟨rfl,rfl⟩
  | reply hphase => rw [hphase]; exact ⟨rfl,rfl⟩
  | gexInit hphase => rw [hphase]; exact ⟨rfl,rfl⟩
  | gexReply hphase => rw [hphase]; exact ⟨rfl,rfl⟩

theorem adoptOutput_deriveKeys (hn : r.negotiated=some neg) (hb : r.backend=some backend)
    (out : KexOutput) : ∃ sid, (r.adoptOutput out).sessionId=some sid ∧
      (r.adoptOutput out).deriveKeys=deriveBoth S backend neg out.k out.h sid := by
  have hsid : ∃ sid, (r.adoptOutput out).sessionId=some sid := by
    simp only [KexRunner.adoptOutput]
    cases r.sessionId <;> exact ⟨_,rfl⟩
  obtain ⟨sid,hsid⟩ := hsid
  refine ⟨sid,hsid,?_⟩
  have hn' : (r.adoptOutput out).negotiated=some neg := hn
  have hb' : (r.adoptOutput out).backend=some backend := hb
  rw [KexRunner.deriveKeys,hn',hb',hsid]
  rfl

/- The runner that has `(K, H)` is the runner before in everything else. -/
structure Agrees (out : KexOutput) (keys : InstalledKeys) (r r' : KexRunner S) : Prop where
  phase : r'.phase = .awaitingPeerNewKeys
  role : r'.role=r.role
  owned : r'.ourAdvertOwned=r.ourAdvertOwned
  bytes : r'.ourAdvertBytes=r.ourAdvertBytes
  peerNewkeys : r'.peerNewkeys=r.peerNewkeys
  accept : r'.acceptExtInfoNow=false
  newkeys : r'.sentNewkeys=true
  neg : r'.negotiated=r.negotiated
  strict : r'.strictKex=r.strictKex
  hash : r'.currentH=some out.h
  sid : r'.sessionId=r.sessionId.or (some out.h)
  keys : r'.installedKeys=some keys

theorem agrees_agreed (out : KexOutput) (keys : InstalledKeys) (r : KexRunner S) :
    Agrees out keys r (KexState.agreed out keys r.noteInboundOther) :=
  ⟨rfl,rfl,rfl,rfl,rfl,rfl,rfl,rfl,rfl,rfl,rfl,rfl⟩

theorem computed (hl : Local vC vS role p past) (hvC : io.vC=vC) (hvS : io.vS=vS)
    {out : KexOutput} {keys : InstalledKeys} (hout : Computes io m (p.take m).kex out rng' outbound)
    (hkeys : (p.runner.adoptOutput out).deriveKeys = .ok keys) :
    Local vC vS role (({ p.take m with kex := { (p.take m).kex with
      runner := KexState.agreed out keys p.runner.noteInboundOther, rng := rng' } } :
        Party S P).emit outbound) past := by
  obtain ⟨h1,h2⟩ := computes_middle hout
  have hpeer := hl.notDone.peerNewkeys (ne_completed h2)
  have hnone := hl.noHash h2
  obtain ⟨pb,sb,rb,neg,backend,-,-,hb,hstage,-,-⟩ := hl.current.of_running h1 h2
  obtain ⟨extra,rfl,hextra,hm,-⟩ :=
    Stage.body (s := (p.take m).kex) hstage hb.backendEq hout
  have ha := agrees_agreed out keys p.runner
  refine hl.advance (.inr ⟨hm.1,h1⟩) ?_ (begun_of_heard h1) (by rw [ha.phase]; rfl) ha.role
    ha.owned ha.bytes ?_ ?_ (by rw [ha.newkeys,ha.phase]; rfl) ?_ ?_ ?_ ?_ ?_
  · intro o ho
    rcases mem_append.1 ho with ho | ho
    · exact (hextra o ho).1
    · rw [mem_singleton.1 ho]
      rfl
  · intro hp
    exact absurd ((ha.peerNewkeys.trans hpeer).symm.trans hp) Bool.false_ne_true
  · intro hacc
    exact absurd (ha.accept.symm.trans hacc) Bool.false_ne_true
  · intro hno
    rw [ha.phase] at hno
    cases hno
  · intro sent received hprog
    obtain ⟨pb,sb,rb,neg,backend,rfl,rfl,hb,hstage,hs,hr⟩ := hprog.of_running h1 h2
    obtain ⟨extra',heq,-,-,hbody⟩ :=
      Stage.body (s := (p.take m).kex) hstage hb.backendEq hout
    obtain rfl := append_cancel_right heq
    obtain ⟨sid,hsid,hderive⟩ := adoptOutput_deriveKeys hb.negEq hb.backendEq out
    rw [hderive] at hkeys
    have hctx : (p.take m).kex.runner.context io.vC io.vS =
        contextAs p.runner.role vC vS p.runner.ourAdvertBytes pb := by
      rw [hvC,hvS]
      change contextAs _ _ _ _ (p.runner.peerAdvertBytes.getD [])=_
      rw [hb.peer]
      rfl
    have hch := hb.chosen
    have hbody : Body S backend _ out p.runner.role _ _ := hbody
    rw [hctx,← ha.role,← ha.bytes] at hbody
    rw [← ha.role,← ha.owned] at hch
    rw [← ha.bytes,cons_append,cons_append,← append_assoc]
    exact .agreed (x := ⟨neg,backend,out⟩) ha.phase hch hbody (quiet_append hs hextra)
      (quiet_append hr (by simpa using hm))
      ⟨ha.neg.trans hb.negEq,ha.hash,sid,keys,ha.sid.trans hsid,ha.keys,hkeys⟩
  · rw [ha.sid,hl.sid,hnone,ha.hash,Option.toList_none,append_nil,head?_append]
    rfl
  · rw [ha.strict,ha.neg,hl.strict]
  · intro hp
    rw [ha.phase] at hp
    cases hp

theorem kexinit (hl : Local vC vS role p past) {peer : KexInit}
    (hphase : p.runner.phase = .sentKexInit) (hmsg : m.head?=some msgKexInit)
    (hpeer : KexInit.decode m = .ok peer) (hneg : p.runner.negotiateWith peer = .ok neg)
    (hback : KexBackend.fromName neg.kex = .ok backend) :
    Local vC vS role (({ p.take m with kex := { (p.take m).kex with
      runner := ((p.runner.noteInboundOther.setPeerAdvert m).adoptNegotiation
        peer neg backend).setPhase (opening S p.runner.role neg backend p.kex.rng).1
      rng := (opening S p.runner.role neg backend p.kex.rng).2.2 } } :
        Party S P).emit (opening S p.runner.role neg backend p.kex.rng).2.1) past := by
  obtain ⟨hst,hq⟩ := Stage.opening (S := S) p.runner.role neg backend p.kex.rng
  obtain ⟨h1',h2'⟩ := hst.middle
  obtain ⟨-,-,hnone⟩ := hl.current.log_at hphase
  have hkeys : p.runner.phase.hasKeys=false := by rw [hphase]; rfl
  have hpeerk := hl.notDone.peerNewkeys (ne_completed hkeys)
  have hstrict := hl.strict
  refine hl.advance (.inl ⟨by simp [isKexinit,hmsg],by rw [hphase]; rfl⟩) (plain_of_quiet hq)
    (by rw [hphase]; rfl) h1' rfl rfl rfl ?_ not_accepting ?_ (fun _ => hl.noHash hkeys) ?_ hl.sid ?_
    (fun h => absurd h (ne_completed h2'))
  · intro hp
    exact absurd (hpeerk.symm.trans hp) Bool.false_ne_true
  · exact (hl.newkeys.trans hkeys).trans h2'.symm
  · intro sent received hprog
    obtain ⟨rfl,rfl,-⟩ := hprog.log_at hphase
    exact .running ⟨rfl,rfl,rfl,peer,hpeer,hneg,hback⟩ hst hq (by simp)
  · change (p.runner.strictKex || neg.strictKexEnabled)=_
    rw [hstrict,hnone]
    simp [KexRunner.setPhase,KexRunner.adoptNegotiation]

theorem extInfoOut_plain (r : KexRunner S) : ∀ o∈r.extInfoOut, isKexinit o=false := by
  intro o ho
  unfold KexRunner.extInfoOut at ho
  split at ho
  · cases he : r.outboundExtInfo with
    | none => simp [he] at ho
    | some e =>
      simp only [he,Option.map_some,Option.toList_some,mem_singleton] at ho
      rw [ho]
      rfl
  · cases ho

/- The runner that is done keeps all that it agreed on. -/
structure Completes (r r' : KexRunner S) : Prop where
  phase : r'.phase = .completed
  role : r'.role=r.role
  owned : r'.ourAdvertOwned=r.ourAdvertOwned
  bytes : r'.ourAdvertBytes=r.ourAdvertBytes
  newkeys : r'.sentNewkeys=r.sentNewkeys
  neg : r'.negotiated=r.negotiated
  strict : r'.strictKex=r.strictKex
  hash : r'.currentH=r.currentH
  sid : r'.sessionId=r.sessionId
  keys : r'.installedKeys=r.installedKeys

theorem completes_afterNewkeys (r : KexRunner S) :
    Completes r r.noteInboundOther.notePeerNewkeys.afterNewkeys :=
  ⟨rfl,rfl,rfl,rfl,rfl,rfl,rfl,rfl,rfl,rfl⟩

theorem Completes.holds {x : Exchange} (hc : Completes r r') (hx : Holds r x) : Holds r' x := by
  obtain ⟨hneg,hhash,hkeys⟩ := hx
  rw [← hc.sid,← hc.keys] at hkeys
  exact ⟨hc.neg.trans hneg,hc.hash.trans hhash,hkeys⟩

theorem Completes.fitted {c : PacketCodec P} (hc : Completes r r') (hf : Fitted r c) :
    Fitted r' c := by
  obtain ⟨hslots,hcomp⟩ := hf
  rw [← hc.keys,← hc.role] at hslots
  rw [← hc.neg,← hc.role] at hcomp
  exact ⟨hslots,hcomp⟩

theorem peerNewkeys (hl : Local vC vS role p past) {codec' : PacketCodec P}
    (hphase : p.runner.phase = .awaitingPeerNewKeys) (hmsg : m.head?=some msgNewKeys)
    (hinst : p.runner.notePeerNewkeys.maybeInstall (p.take m).kex.codec=(.ok (),codec')) :
    Local vC vS role (({ p.take m with kex := { (p.take m).kex with
      runner := p.runner.noteInboundOther.notePeerNewkeys.afterNewkeys, codec := codec' } } :
        Party S P).emit p.runner.extInfoOut) past := by
  have hsent : p.runner.sentNewkeys=true := by rw [hl.newkeys,hphase]; rfl
  have hinst' : Installed p.runner.notePeerNewkeys (p.take m).kex.codec codec' :=
    KexRunner.maybeInstall_ok hsent rfl hinst
  have hfit : Fitted p.runner codec' := ⟨hinst'.fitted.slots,hinst'.fitted.comp⟩
  have hm : isKexinit m=false := by simp [isKexinit,hmsg,msgNewKeys,msgKexInit]
  have hc := completes_afterNewkeys p.runner
  refine hl.advance (.inr ⟨hm,by rw [hphase]; rfl⟩) (extInfoOut_plain _) (by rw [hphase]; rfl)
    (by rw [hc.phase]; rfl) hc.role hc.owned hc.bytes (fun _ => hc.phase) (fun _ => hc.phase)
    (by rw [hc.newkeys,hsent,hc.phase]; rfl) ?_ ?_ (by rw [hc.sid,hc.hash,hl.sid])
    (by rw [hc.strict,hc.neg,hl.strict]) fun _ => hc.fitted hfit
  · intro hno
    rw [hc.phase] at hno
    cases hno
  · intro sent received hprog
    obtain ⟨pb,sb,rb,x,rfl,rfl,hch,hbody,hs,hr,hx⟩ := hprog.log_at hphase
    rw [hl.bytes,← hc.role] at hbody
    rw [← hc.role] at hch
    rw [hl.bytes]
    refine .done (x := x) hc.phase
      ⟨_,pb,sb,rb,p.runner.extInfoOut,[],m,hl.wf,?_,rfl,?_,hs,hr,hch,hbody⟩
      (hc.holds hx)
    · simp
    · simp [isNewkeys,hmsg]

/-- Every packet that is accepted keeps the invariant. -/
theorem packet (hl : Local vC vS role p past) (hvC : io.vC=vC) (hvS : io.vS=vS)
    (h : Stepped io m (p.take m).kex out k) :
    Local vC vS role (({ p.take m with kex := k } : Party S P).emit out) past := by
  cases h with
  | dropped hpending hphase hmsg hrange =>
    have hphase : p.runner.phase.discards=true := hphase
    have hq : Quiet m := by
      refine quiet_of_head hmsg ?_ ?_
      all_goals rintro rfl; exact absurd hrange.1 (by decide)
    have hmid : p.runner.phase.heard=1 ∧ p.runner.phase.hasKeys=false := by
      revert hphase
      cases p.runner.phase <;> simp [Phase.discards,Phase.heard,Phase.hasKeys]
    refine hl.stage_step rfl hmid.1 hmid.2 hq nofun fun _ hst => ?_
    rw [append_nil]
    exact hst.drop hphase m
  | kexinit hphase hmsg hpeer hneg hfirst hback =>
    exact hl.kexinit hphase hmsg hpeer hneg hback
  | computed hout hkeys => exact hl.computed hvC hvS hout hkeys
  | gexRequest hphase hrole hgex hmsg hreq hgroup =>
    have hphase : p.runner.phase=_ := hphase
    have hrole : p.runner.role=_ := hrole
    have hgex : p.runner.usesGex=true := hgex
    have hq : Quiet m := hmsg.elim (fun h => quiet_of_head h (by decide) (by decide))
      fun h => quiet_of_head h (by decide) (by decide)
    refine hl.stage_step rfl (by rw [hphase]; rfl) (by rw [hphase]; rfl) hq ?_ fun hb hst => ?_
    · simpa using quiet_cons _ (by decide) (by decide)
    · rw [hphase,hrole] at hst
      rw [hrole]
      rw [backend_of_usesGex hb] at hgex
      cases hst with
      | waiting =>
        simpa using @Stage.offered S _ _ _ _ _ [] hgex hreq
  | gexGroup hphase hmsg hinit =>
    have hphase : p.runner.phase=_ := hphase
    refine hl.stage_step rfl (by rw [hphase]; rfl) (by rw [hphase]; rfl)
      (quiet_of_head hmsg (by decide) (by decide)) ?_ fun hb hst => ?_
    · simpa using quiet_cons _ (by decide) (by decide)
    · rw [hphase] at hst
      generalize p.runner.role=role at hst ⊢
      generalize hst' : Phase.gexClientAwaitGroup _=phase at hst
      cases hst with
      | asked hgex =>
        cases hst'
        exact .chose hgex hinit
      | _ => cases hst'
  | newkeys hphase hmsg hinst => exact hl.peerNewkeys hphase hmsg hinst

/- The runner is replaced and something is sent; nothing is received. -/
def resend (r : KexRunner S) (out : List Bytes) (p : Party S P) : Party S P :=
  ({ p with kex := { p.kex with runner := r } } : Party S P).emit out

theorem start (hl : Local vC vS role p past) (hphase : p.runner.phase = .idle) :
    Local vC vS role (resend (p.runner.setPhase .sentKexInit) [p.runner.ourAdvertBytes] p)
      past := by
  obtain ⟨hs,hr,hneg⟩ := hl.current.log_at hphase
  have hkeys : p.runner.phase.hasKeys=false := by rw [hphase]; rfl
  have hcount : p.sent.countP isKexinit=past.length := by rw [hl.sentCount,hphase]; rfl
  have hmark : isKexinit p.runner.ourAdvertBytes=true := by rw [hl.bytes]; rfl
  have hseg (i : Nat) : segment isKexinit i (p.sent++[p.runner.ourAdvertBytes]) =
      segment isKexinit i p.sent++if past.length+1=i then [p.runner.ourAdvertBytes]
        else [] := by
    rw [segment_append_marker _ _ _ hmark,hcount]
  have hrec (i : Nat) : segment isKexinit i p.received =
      segment isKexinit i p.received++if past.length+1=i then [] else [] := by simp
  refine ⟨hl.roleEq,hl.bytes,hl.wf,?_,?_,hl.newkeys.trans hkeys,fun _ => hl.noHash hkeys,?_,
    ?_,hl.finished_append hseg hrec,?_,hl.sid,hl.strict,nofun⟩
  · intro hp
    exact absurd ((hl.notDone.peerNewkeys (ne_completed hkeys)).symm.trans hp) Bool.false_ne_true
  · intro ha
    have := hl.accept ha
    rw [hphase] at this
    cases this
  · change (p.sent++[_]).countP isKexinit=past.length+1
    rw [countP_append,hcount,countP_singleton,if_pos hmark]
  · have := hl.recvCount
    rw [hphase] at this
    exact this
  · change Progress vC vS _ (segment isKexinit _ (p.sent++[_])) (segment isKexinit _ p.received)
    rw [hseg,if_pos rfl,hs,hr]
    exact .opened rfl hneg

/- The exchange that is done joins the past. -/
theorem restart (hl : Local vC vS role p past) (hphase : p.runner.phase = .completed)
    {advert : KexInit} (hwf : advert.WellFormed) : ∃ x,
    Local vC vS role (resend (p.runner.restarted advert) [advert.encode] p) (past++[x]) := by
  obtain ⟨x,hfin,hx⟩ := hl.current.log_at hphase
  have hcount : p.sent.countP isKexinit=past.length+1 := by rw [hl.sentCount,hphase]; rfl
  have hcount' : p.received.countP isKexinit=past.length+1 := by
    rw [hl.recvCount,hphase]; rfl
  have hmark : isKexinit advert.encode=true := rfl
  have hsid := hl.sid
  have hstrict := hl.strict
  rw [hx.hash] at hsid
  rw [hx.neg] at hstrict
  rw [hl.roleEq] at hfin
  refine ⟨x,hl.roleEq,rfl,hwf,nofun,nofun,rfl,fun _ => rfl,?_,?_,?_,?_,?_,?_,nofun⟩
  · change (p.sent++[_]).countP isKexinit=(past++[x]).length+1
    rw [countP_append,hcount,countP_singleton,if_pos hmark,length_append]
    rfl
  · change p.received.countP isKexinit=(past++[x]).length
    rw [hcount',length_append]
    rfl
  · intro i y hy
    change Finished S vC vS role (segment isKexinit _ (p.sent++[_])) _ y
    obtain ⟨hi,-⟩ := List.getElem?_eq_some_iff.1 hy
    rw [length_append,length_singleton] at hi
    rw [segment_append_marker _ _ _ hmark,hcount,if_neg (by omega),append_nil]
    by_cases hlast : i<past.length
    · rw [getElem?_append_left hlast] at hy
      exact hl.finished i y hy
    · have hi' : i=past.length := by omega
      subst hi'
      rw [getElem?_concat_length] at hy
      cases hy
      exact hfin
  · change Progress vC vS _ (segment isKexinit _ (p.sent++[_])) (segment isKexinit _ p.received)
    rw [length_append,length_singleton,segment_append_marker _ _ _ hmark,hcount,
      if_pos rfl,segment_eq_nil _ (by omega),segment_eq_nil _ (by omega)]
    exact .opened rfl rfl
  · change p.runner.sessionId=((past++[x]).map (fun y : Exchange => y.out.h)++[]).head?
    rw [hsid]
    simp
  · change p.runner.strictKex=((past++[x]).any (·.neg.strictKexEnabled) || false)
    rw [hstrict]
    simp

/- An ext-info is accepted only once the exchange is done. -/
theorem extInfo (hl : Local vC vS role p past) {parsed : ExtInfo}
    (haccept : p.runner.acceptExtInfoNow=true) (hmsg : m.head?=some msgExtInfo) :
    Local vC vS role { p.take m with kex := { (p.take m).kex with runner :=
      { p.runner with peerExtInfo := some parsed, acceptExtInfoNow := false } } } past := by
  have hphase := hl.accept haccept
  have hm : isKexinit m=false := by simp [isKexinit,hmsg,msgExtInfo,msgKexInit]
  have hturn : InTurn p m := .inr ⟨hm,by rw [hphase]; rfl⟩
  have hsent (i : Nat) : segment isKexinit i p.sent =
      segment isKexinit i p.sent++if past.length+1=i then [] else [] := by simp
  refine ⟨hl.roleEq,hl.bytes,hl.wf,hl.notDone,not_accepting,hl.newkeys,hl.noHash,hl.sentCount,?_,
    hl.finished_append hsent (hl.received_segment hturn),?_,hl.sid,hl.strict,fun h =>
      ⟨(hl.fitted h).slots,(hl.fitted h).comp⟩⟩
  · change (p.received++[m]).countP isKexinit=past.length+p.runner.phase.heard
    rw [hphase]
    exact hl.received_count hturn
  · change Progress vC vS _ (segment isKexinit _ p.sent) (segment isKexinit _ (p.received++[m]))
    rw [hl.received_segment hturn,if_pos rfl]
    obtain ⟨x,⟨ours,pb,sb,rb,ts,tr,nk,hwf,hs,hr,hrest⟩,hx⟩ :=
      hl.current.log_at hphase
    refine .done (x := x) hphase ⟨ours,pb,sb,rb,ts,tr++[m],nk,hwf,hs,?_,hrest⟩
      ⟨hx.neg,hx.hash,hx.keys⟩
    rw [hr]
    simp

end Local

end PureSsh.Transport
