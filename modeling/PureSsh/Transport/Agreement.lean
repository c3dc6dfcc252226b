import PureSsh.Transport.Ledger

/-! Two connected runners agree: in every run, through any number of re-keys, the ends that have
completed the same exchange hold the same algorithms, session id and keys. -/

namespace PureSsh.Transport
open Lib KexState Party List Proc Function
variable {S : KexSuite} {P : Primitives}

/- Both ends, and what is on its way between them. -/
structure Inv (vC vS : Bytes) (w : World S P) (past : Role → List Exchange) : Prop where
  parties : ∀ role, Local vC vS role (w.party role) (past role)
  linked : ∀ role : Role, (w.party role.other).sent=(w.party role).received++w.queue role

theorem Role.other_ne (role : Role) : role.other≠role := by cases role <;> nofun

theorem Role.eq_other {a b : Role} (h : a≠b) : a=b.other := by
  cases a <;> cases b <;> first | rfl | exact absurd rfl h

/- Neither the session id nor strict-kex is ever taken back. -/
def Keeps (r r' : KexRunner S) : Prop :=
  (∀ sid, r.sessionId=some sid → r'.sessionId=some sid) ∧
    (r.strictKex=true → r'.strictKex=true)

theorem Keeps.refl (r : KexRunner S) : Keeps r r := ⟨fun _ h => h,fun h => h⟩

theorem Keeps.trans {r r' r'' : KexRunner S} (h : Keeps r r') (h' : Keeps r' r'') : Keeps r r'' :=
  ⟨fun sid hs => h'.1 sid (h.1 sid hs),fun hs => h'.2 (h.2 hs)⟩

theorem Keeps.stepped {io : KexInput S} {m : Bytes} {out : List Bytes} {s s' : KexState S P}
    (h : Stepped io m s out s') : Keeps s.runner s'.runner := by
  cases h with
  | dropped => exact .refl _
  | kexinit => exact ⟨fun _ h => h,fun h => by
      change (s.runner.strictKex || _)=true
      rw [h]
      rfl⟩
  | computed => exact ⟨fun sid h => by
      change s.runner.sessionId.or _=_
      rw [h]
      rfl,fun h => h⟩
  | gexRequest => exact .refl _
  | gexGroup => exact .refl _
  | newkeys => exact .refl _

variable {out : List Bytes} {p' : Party S P} {past : Role → List Exchange}
  {queue : Role → List Bytes} {side : Role} {vC vS : Bytes} {w w' : World S P} {a : Act S}

/- One end moves, taking `ins` from its queue and sending `out`. -/
theorem Inv.moved (hi : Inv vC vS w past) {ins rest : List Bytes} {past' : List Exchange}
    (hq : w.queue side=ins++rest) (hp : Local vC vS side p' past')
    (hsent : p'.sent=(w.party side).sent++out)
    (hrecv : p'.received=(w.party side).received++ins)
    (hqueue : queue side=rest ∧ queue side.other=w.queue side.other++out)
    (hkeep : Keeps (w.party side).runner p'.runner) :
    ∃ past, Inv vC vS { party := update w.party side p', queue := queue } past ∧
      ∀ role, Keeps (w.party role).runner (update w.party side p' role).runner := by
  refine ⟨update past side past',⟨?_,?_⟩,?_⟩
  · intro role
    by_cases h : role=side
    · subst h
      simpa using hp
    · simpa [update_of_ne h] using hi.parties role
  · intro role
    by_cases h : role=side
    · subst h
      simp only [update_self,update_of_ne (Role.other_ne role),hqueue.1,hrecv]
      rw [hi.linked role,hq,append_assoc]
    · obtain rfl := Role.eq_other h
      have hback : side.other.other=side := by cases side <;> rfl
      simp only [hback,update_self,update_of_ne h,hqueue.2,hsent]
      have := hi.linked side.other
      rw [hback] at this
      rw [this,append_assoc]
  · intro role
    by_cases h : role=side
    · subst h
      simpa using hkeep
    · simpa [update_of_ne h] using Keeps.refl _

/- Adverts that survive their own encoding. -/
def Act.WellFormed : Act S → Prop
  | .restart _ advert => advert.WellFormed
  | _ => True

namespace Party

variable {out : List Bytes} {p p' : Party S P}

theorem start_ok (h : start p=(.ok out,p')) :
    p.runner.phase = .idle ∧ out=[p.runner.ourAdvertBytes] ∧
      p'=Local.resend (p.runner.setPhase .sentKexInit) out p := by
  obtain ⟨adv,t,hz,h⟩ := bind_eq_ok.1 h
  obtain ⟨r,hr,rfl⟩ := zoom_eq_ok.1 hz
  obtain ⟨hphase,hout,rfl⟩ := KexRunner.start_ok hr
  cases h
  exact ⟨hphase,hout,rfl⟩

theorem restart_ok {advert : KexInit} (h : restart advert p=(.ok out,p')) :
    p.runner.phase = .completed ∧
      out=[advert.encode] ∧ p'=Local.resend (p.runner.restarted advert) out p := by
  obtain ⟨adv,t,hz,h⟩ := bind_eq_ok.1 h
  obtain ⟨r,hr,rfl⟩ := zoom_eq_ok.1 hz
  obtain ⟨hphase,hout,rfl⟩ := KexRunner.restart_ok hr
  cases h
  exact ⟨hphase,hout,rfl⟩

/- Either an ext-info or a packet of the exchange. -/
theorem deliver_ok {io : KexInput S} {m : Bytes} (h : deliver io m p=(.ok out,p')) :
    (m.head?=some msgExtInfo ∧ p.runner.acceptExtInfoNow=true ∧ out=[] ∧ ∃ parsed,
      p' = { p.take m with kex := { (p.take m).kex with runner :=
        { p.runner with peerExtInfo := some parsed, acceptExtInfoNow := false } } }) ∨
    ∃ adv k, onPacket m io (p.take m).kex=(.ok adv,k) ∧ out=adv.outbound ∧
      p'=({ p.take m with kex := k } : Party S P).emit out := by
  rw [deliver,Proc.modify_bind] at h
  split at h
  · next hm =>
    obtain ⟨⟨⟩,t,hz,h⟩ := bind_eq_ok.1 h
    obtain ⟨r,hr,rfl⟩ := zoom_eq_ok.1 hz
    obtain ⟨ha,parsed,rfl⟩ := KexRunner.handleInboundExtInfo_ok hr
    cases h
    exact .inl ⟨hm,ha,rfl,parsed,rfl⟩
  · obtain ⟨adv,t,hz,h⟩ := bind_eq_ok.1 h
    obtain ⟨k,hk,rfl⟩ := zoom_eq_ok.1 hz
    cases h
    exact .inr ⟨adv,k,hk,rfl,rfl⟩

end Party

theorem World.move_ok {x : Proc Error (Party S P) (List Bytes)}
    (h : World.move side x w=(.ok (),w')) : ∃ out p', x (w.party side)=(.ok out,p') ∧
      w' = { party := update w.party side p'
             queue := update w.queue side.other (w.queue side.other++out) } := by
  obtain ⟨out,t,hz,h⟩ := bind_eq_ok.1 h
  obtain ⟨p',hx,rfl⟩ := zoom_eq_ok.1 hz
  cases h
  exact ⟨out,p',hx,rfl⟩

/-- Every act of the two ends keeps the invariant, and what each end has latched. -/
theorem Inv.act (hi : Inv vC vS w past) (ha : a.WellFormed) (h : World.act vC vS a w=(.ok (),w')) :
    ∃ past', Inv vC vS w' past' ∧ ∀ role, Keeps (w.party role).runner (w'.party role).runner := by
  cases a with
  | start side =>
    obtain ⟨out,p',hx,rfl⟩ := World.move_ok h
    obtain ⟨hphase,rfl,rfl⟩ := Party.start_ok hx
    exact hi.moved (nil_append _).symm ((hi.parties side).start hphase) rfl (append_nil _).symm
      ⟨by simp [update_of_ne (Role.other_ne side).symm],by simp⟩ (.refl _)
  | restart side advert =>
    obtain ⟨out,p',hx,rfl⟩ := World.move_ok h
    obtain ⟨hphase,rfl,rfl⟩ := Party.restart_ok hx
    obtain ⟨x,hl⟩ := (hi.parties side).restart hphase ha
    exact hi.moved (nil_append _).symm hl rfl (append_nil _).symm
      ⟨by simp [update_of_ne (Role.other_ne side).symm],by simp⟩ (.refl _)
  | deliver side hostKey verifier =>
    rw [World.act,get_bind] at h
    cases hq : w.queue side with
    | nil =>
      rw [hq] at h
      cases h
      exact ⟨past,hi,fun _ => .refl _⟩
    | cons m rest =>
      rw [hq] at h
      obtain ⟨out,p',hx,rfl⟩ := World.move_ok (w := { w with queue := _ }) h
      have hqueue : update (update w.queue side rest) side.other
            (update w.queue side rest side.other++out) side=rest ∧
          update (update w.queue side rest) side.other
            (update w.queue side rest side.other++out) side.other=w.queue side.other++out := by
        simp [update_of_ne (Role.other_ne side),update_of_ne (Role.other_ne side).symm]
      have hq' : w.queue side=[m]++rest := hq
      rcases Party.deliver_ok hx with ⟨hm,hacc,rfl,parsed,rfl⟩ | ⟨adv,k,hk,rfl,rfl⟩
      · exact hi.moved hq' ((hi.parties side).extInfo hacc hm) (append_nil _).symm rfl hqueue
          (.refl _)
      · have hst := onPacket_cases (s := ((w.party side).take m).kex) (hi.parties side).notDone hk
        have hkeep := Keeps.stepped hst
        exact hi.moved hq' ((hi.parties side).packet rfl rfl hst) rfl rfl hqueue hkeep

theorem Inv.init (vC vS : Bytes) {advert : Role → KexInit} (hwf : ∀ role, (advert role).WellFormed)
    (ext : Role → Option ExtInfo) (selector : Option (GexRequest → Option S.DhGroup))
    (rng : Role → Rng) :
    Inv vC vS (World.init advert ext selector rng : World S P) fun _ => [] where
  parties role :=
    { roleEq := rfl, bytes := rfl, wf := hwf role, notDone := nofun, accept := nofun
      newkeys := rfl, noHash := fun _ => rfl, sentCount := rfl, recvCount := rfl
      finished := nofun, current := .idle rfl rfl, sid := rfl, strict := rfl, fitted := nofun }
  linked _ := rfl

/- The ends agree on everything they negotiated and installed. -/
structure Agree (c s : Party S P) : Prop where
  negotiated : ∃ neg, c.runner.negotiated=some neg ∧ s.runner.negotiated=some neg
  sessionId : ∃ sid, c.runner.sessionId=some sid ∧ s.runner.sessionId=some sid
  strictKex : c.runner.strictKex=s.runner.strictKex
  keys : ∃ keys, c.runner.installedKeys=some keys ∧ s.runner.installedKeys=some keys
  c2s : c.codec.outbound=s.codec.inbound
  s2c : s.codec.outbound=c.codec.inbound
  compC2s : c.codec.outboundCompress.name=s.codec.inboundDecompress.name
  compS2c : s.codec.outboundCompress.name=c.codec.inboundDecompress.name

/- What one end received starts what the other sent, exchange by exchange. -/
theorem Inv.matching (hi : Inv vC vS w past) (role : Role) (i : Nat) :
    segment isKexinit i (w.party role).received <+: segment isKexinit i (w.party role.other).sent :=
  segment_isPrefix _ _ (hi.linked role ▸ prefix_append _ _)

theorem Inv.past_eq (hS : S.Agrees) (hi : Inv vC vS w past)
    (hlen : (past .client).length=(past .server).length) : past .client=past .server := by
  refine ext_getElem? fun i => ?_
  rcases hc : (past .client)[i]? with _ | x
  · rw [getElem?_eq_none_iff,hlen] at hc
    exact (getElem?_eq_none hc).symm
  · obtain ⟨hlt,-⟩ := List.getElem?_eq_some_iff.1 hc
    have hs := getElem?_eq_getElem (hlen ▸ hlt)
    rw [hs,Finished.agree hS ((hi.parties .client).finished i x hc)
      ((hi.parties .server).finished i _ hs) (hi.matching .client _) (hi.matching .server _)]

theorem Inv.agree (hS : S.Agrees) (hi : Inv vC vS w past)
    (hdone : ∀ role, (w.party role).runner.phase = .completed)
    (hsame : (w.party .client).exchange=(w.party .server).exchange) :
    Agree (w.party .client) (w.party .server) := by
  have hc := hi.parties .client
  have hs := hi.parties .server
  have hnum (role : Role) : (w.party role).exchange=(past role).length+1 := by
    rw [exchange,(hi.parties role).sentCount,hdone]
    rfl
  have hlen : (past .client).length=(past .server).length := by
    have h1 := hnum .client
    have h2 := hnum .server
    omega
  have hpast := hi.past_eq hS hlen
  obtain ⟨x,hfx,hx⟩ := hc.current.log_at (hdone .client)
  obtain ⟨y,hfy,hy⟩ := hs.current.log_at (hdone .server)
  rw [hc.roleEq] at hfx
  rw [hs.roleEq,← hlen] at hfy
  obtain rfl := Finished.agree hS hfx hfy (hi.matching .client _) (hi.matching .server _)
  obtain ⟨sid,keys,hsid,hkeys,hder⟩ := hx.keys
  obtain ⟨sid',keys',hsid',hkeys',hder'⟩ := hy.keys
  have hsids : (w.party .client).runner.sessionId=(w.party .server).runner.sessionId := by
    rw [hc.sid,hs.sid,hpast,hx.hash,hy.hash]
  obtain rfl : sid=sid' := Option.some.inj (hsid.symm.trans (hsids.trans hsid'))
  obtain rfl : keys=keys' := Except.ok.inj (hder.symm.trans hder')
  obtain ⟨⟨k,hk,hout,hin⟩,⟨neg,hneg,hco,hdi⟩⟩ := hc.fitted (hdone .client)
  obtain ⟨⟨k',hk',hout',hin'⟩,⟨neg',hneg',hco',hdi'⟩⟩ := hs.fitted (hdone .server)
  rw [hkeys] at hk
  rw [hkeys'] at hk'
  rw [hx.neg] at hneg
  rw [hy.neg] at hneg'
  cases hk
  cases hk'
  cases hneg
  cases hneg'
  rw [hc.roleEq] at hout hin hco hdi
  rw [hs.roleEq] at hout' hin' hco' hdi'
  exact {
    negotiated := ⟨_,hx.neg,hy.neg⟩
    sessionId := ⟨sid,hsid,hsid'⟩
    strictKex := by rw [hc.strict,hs.strict,hpast,hx.neg,hy.neg]
    keys := ⟨keys,hkeys,hkeys'⟩
    c2s := Except.ok.inj (hout.symm.trans hin')
    s2c := Except.ok.inj (hout'.symm.trans hin)
    compC2s := hco.trans hdi'.symm
    compS2c := hco'.trans hdi.symm }

/-- A run keeps the invariant, and what each end has latched. -/
theorem Inv.run (hi : Inv vC vS w past) {acts : List (Act S)} (ha : ∀ a∈acts, a.WellFormed)
    (h : runAll (World.act vC vS) acts w=(.ok (),w')) :
    ∃ past', Inv vC vS w' past' ∧ ∀ role, Keeps (w.party role).runner (w'.party role).runner := by
  refine runAll_invariant (P := Act.WellFormed) (I := fun w' => ∃ past', Inv vC vS w' past' ∧
    ∀ role, Keeps (w.party role).runner (w'.party role).runner) ?_ acts w w' ha
    ⟨past,hi,fun role => .refl _⟩ h
  rintro a s s' hwf ⟨past,hi,hk⟩ h
  obtain ⟨past',hi',hk'⟩ := hi.act hwf h
  exact ⟨past',hi',fun role => (hk role).trans (hk' role)⟩

/-- In every run of two connected runners, whatever the order of their acts and however often
they re-key: ends that have completed the same exchange agree; strict-kex is never taken back;
and the session id is the hash of the first exchange from then on. -/
theorem runners_agree (hS : S.Agrees) (vC vS : Bytes) {advert : Role → KexInit}
    (hwf : ∀ role, (advert role).WellFormed) (ext : Role → Option ExtInfo)
    (selector : Option (GexRequest → Option S.DhGroup)) (rng : Role → Rng)
    {acts acts' : List (Act S)} (ha : ∀ a∈acts, a.WellFormed)
    (ha' : ∀ a∈acts', a.WellFormed) {w w' : World S P}
    (h : runAll (World.act vC vS) acts (World.init advert ext selector rng)=(.ok (),w))
    (h' : runAll (World.act vC vS) acts' w=(.ok (),w')) :
    ((∀ role, (w.party role).runner.phase = .completed) →
      (w.party .client).exchange=(w.party .server).exchange →
      Agree (w.party .client) (w.party .server)) ∧
    ∀ role, ((w.party role).runner.strictKex=true → (w'.party role).runner.strictKex=true) ∧
      (∀ sid, (w.party role).runner.sessionId=some sid →
        (w'.party role).runner.sessionId=some sid) ∧
      ((w.party role).exchange=1 → (w.party role).runner.phase = .completed →
        ∃ hash, (w.party role).runner.currentH=some hash ∧
          (w'.party role).runner.sessionId=some hash) := by
  obtain ⟨past,hi,-⟩ := (Inv.init vC vS hwf ext selector rng).run ha h
  obtain ⟨-,-,hkeep⟩ := hi.run ha' h'
  refine ⟨hi.agree hS,fun role => ⟨(hkeep role).2,(hkeep role).1,fun hone hdone => ?_⟩⟩
  have hl := hi.parties role
  obtain ⟨x,-,hx⟩ := hl.current.log_at hdone
  have hlen : (past role).length=0 := by
    have hcount := hl.sentCount
    rw [hdone] at hcount
    have hcount : (w.party role).exchange=(past role).length+1 := hcount
    omega
  have hsid := hl.sid
  rw [length_eq_zero_iff.1 hlen,hx.hash] at hsid
  exact ⟨x.out.h,hx.hash,(hkeep role).1 _ hsid⟩

theorem Phase.eq_completed {phase : Phase S} (h : phase.isCompleted=true) : phase = .completed := by
  cases phase <;> first | rfl | cases h

/- Two ends that talk until nothing is left to say. -/
namespace Sample

def advert (ciphers : List Str) : KexInit where
  cookie := replicate 16 0
  kex := [ascii "curve25519-sha256"]
  serverHostKey := [ascii "ssh-ed25519"]
  ciphersC2s := ciphers
  ciphersS2c := ciphers
  macsC2s := [ascii "hmac-sha2-256"]
  macsS2c := [ascii "hmac-sha2-256"]
  compC2s := [ascii "none"]
  compS2c := [ascii "none"]
  langC2s := []
  langS2c := []
  firstKexPacketFollows := false

def plain : KexInit := advert [ascii "aes128-ctr",ascii "aes256-ctr"]

theorem plain_wellFormed : plain.WellFormed := by
  obtain ⟨hkex,hkey,hciphers,hmacs,hcomp,hlang⟩ : NamesOk plain.kex ∧ NamesOk plain.serverHostKey ∧
      NamesOk plain.ciphersC2s ∧ NamesOk plain.macsC2s ∧ NamesOk plain.compC2s ∧
      NamesOk plain.langC2s := by
    decide +kernel
  exact ⟨rfl,hkex,hkey,hciphers,hciphers,hmacs,hmacs,hcomp,hcomp,hlang,hlang⟩

def deliver (side : Role) : Act KexSuite.null := .deliver side (some ()) (some ())

def settle : List (Act KexSuite.null) :=
  (replicate 4 [deliver .client,deliver .server]).flatten

/- A first exchange and a re-key that both ends begin. -/
def session : List (Act KexSuite.null) :=
  [.start .client,.start .server]++settle ++
    [.restart .server plain,.restart .client plain]++settle

def adverts (client : KexInit) : Role → KexInit
  | .client => client
  | .server => plain

def run (client : KexInit) (acts : List (Act KexSuite.null)) :
    Except Error Unit × World KexSuite.null Primitives.null :=
  runAll (World.act [] []) acts
    (World.init (adverts client) (fun _ => none) none fun _ _ => 0)

theorem run_ok {client : KexInit} {acts : List (Act KexSuite.null)}
    (h : (run client acts).1 = .ok ()) : runAll (World.act [] []) acts
      (World.init (adverts client) (fun _ => none) none fun _ _ => 0) =
        (.ok (),(run client acts).2) := Prod.ext h rfl

/- Whether the two ends are done, and with which exchange. -/
def ends (w : World KexSuite.null Primitives.null) : Bool × Bool × Nat × Nat :=
  ((w.party .client).runner.isCompleted,(w.party .server).runner.isCompleted,
    (w.party .client).exchange,(w.party .server).exchange)

theorem ends_done {w : World KexSuite.null Primitives.null} {n m : Nat}
    (h : ends w=(true,true,n,m)) : (∀ role, (w.party role).runner.phase = .completed) ∧
      (w.party .client).exchange=n ∧ (w.party .server).exchange=m := by
  simp only [ends,Prod.mk.injEq] at h
  obtain ⟨hc,hs,hn,hm⟩ := h
  refine ⟨fun role => ?_,hn,hm⟩
  cases role with
  | client => exact Phase.eq_completed hc
  | server => exact Phase.eq_completed hs

end Sample

theorem Sample.session_wellFormed : ∀ a∈Sample.session, a.WellFormed := by
  simp [Sample.session,Sample.settle,Sample.deliver,Act.WellFormed,Sample.plain_wellFormed]

open Sample in
theorem runners_agree_session : ((run plain session).2.party .client).exchange=2 ∧
    Agree ((run plain session).2.party .client) ((run plain session).2.party .server) := by
  have hwf (role : Role) : (adverts plain role).WellFormed := by
    cases role <;> exact plain_wellFormed
  have hrun : (run plain session).1 = .ok () ∧ ends (run plain session).2=(true,true,2,2) := by
    decide +kernel
  obtain ⟨hok,hends⟩ := hrun
  have hagree := runners_agree KexSuite.null_agrees [] [] hwf (fun _ => none) none (fun _ _ => 0)
    session_wellFormed (forall_mem_nil _) (run_ok hok) rfl
  obtain ⟨hdone,hc,hs⟩ := ends_done hends
  exact ⟨hc,hagree.1 hdone (hc.trans hs.symm)⟩

/-- With a comma in a name the two ends read different lists out of the same advert, and complete
the exchange with different ciphers. -/
theorem comma_in_name_disagrees : ∃ (client : KexInit) (acts : List (Act KexSuite.null))
    (w : World KexSuite.null Primitives.null),
    runAll (World.act [] []) acts (World.init (Sample.adverts client) (fun _ => none) none
      fun _ _ => 0)=(.ok (),w) ∧ (∀ role, (w.party role).runner.phase = .completed) ∧
    (w.party .client).exchange=(w.party .server).exchange ∧
    (w.party .client).runner.negotiated≠(w.party .server).runner.negotiated := by
  let client := Sample.advert [ascii "x,aes128-ctr",ascii "aes256-ctr"]
  let acts := [.start .client,.start .server]++Sample.settle
  have hrun : (Sample.run client acts).1 = .ok () ∧
      Sample.ends (Sample.run client acts).2=(true,true,1,1) ∧
      ((Sample.run client acts).2.party .client).runner.negotiated.map (·.cipherC2s) =
        some (ascii "aes256-ctr") ∧
      ((Sample.run client acts).2.party .server).runner.negotiated.map (·.cipherC2s) =
        some (ascii "aes128-ctr") := by decide +kernel
  obtain ⟨hok,hends,hc,hs⟩ := hrun
  obtain ⟨hdone,hone,hone'⟩ := Sample.ends_done hends
  refine ⟨client,acts,_,Sample.run_ok hok,hdone,hone.trans hone'.symm,fun h => ?_⟩
  rw [h,hs] at hc
  exact absurd hc (by decide)

end PureSsh.Transport
