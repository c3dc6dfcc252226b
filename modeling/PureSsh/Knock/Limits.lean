import PureSsh.Knock.Checks

/-! The limits per second that the configuration of a knock server sets, on public key verifications
and on calls of the key source (`knock/state.rs`). -/

namespace PureSsh.Knocking
open Lib Proc

namespace KnockState
variable {C : Crypto} {s : KnockState C}

/-- The public key verifications that a call makes: its calls of `verify` that reach the verifier
of the key. -/
def verified (s : KnockState C) : Op C → Nat
  | .handle ask now src datagram =>
    match s.judging ask now src datagram with
    | none => 0
    | some (k,keyBlob,s) => (Admission.checks C s.cfg s.nonceFloor keyBlob k now src datagram
        (s.entryFor (k.user,k.keyFp) now,s.verify)).countP fun c =>
          reachesVerifier keyBlob (c.signature k)
  | _ => 0

/-- The calls of `keys_for` that a call makes. -/
def asked (s : KnockState C) : Op C → Nat
  | .handle ask now src datagram => (s.asksKeys ask now src datagram).toNat
  | _ => 0

/- The two buckets keep their sizes. -/
structure Rated (n m : Nat) (s : KnockState C) : Prop where
  verify : s.verify.Sane ∧ s.verify.burst=max n 1 ∧ s.verify.refillMs=max (1000/max n 1) 1
  lookups : s.lookups.Sane ∧ s.lookups.burst=max m 1 ∧ s.lookups.refillMs=max (1000/max m 1) 1

theorem rated_new (cfg : KnockServerConfig) (hostKeys : List C.HostKey) (now : Nat) :
    Rated cfg.verifyPerSec cfg.keyLookupsPerSec (.new cfg hostKeys now : KnockState C) := by
  have hperSecond : ∀ n, (perSecond n now).Sane ∧ (perSecond n now).burst=max n 1 ∧
      (perSecond n now).refillMs=max (1000/max n 1) 1 := fun n =>
    ⟨Bucket.sane_new _ _ now,rfl,Nat.max_eq_left (Nat.le_max_right _ 1)⟩
  exact ⟨hperSecond _,hperSecond _⟩

variable {op : Op C} {ask : Answers} {datagram : Bytes} {k : Knock} {now : Nat} {src : IpAddr}
  {s₁ : KnockState C} {user : Str}

theorem calls_handle (ask : Answers) (now : Nat) (src : IpAddr) (datagram : Bytes)
    (s : KnockState C) : (calls C).next s (.handle ask now src datagram) =
      (s.handle ask now src datagram).2 := rfl

theorem verified_le : s.verified (.handle ask now src datagram) ≤
    (s.verifications ask now src datagram).length := by
  rw [verified,verifications]
  cases s.judging ask now src datagram with
  | none => exact Nat.le_refl 0
  | some judged =>
    rw [List.length_map]
    exact List.countP_le_length

theorem calls_pays {u : Nat} (h : (calls C).time op=some u) :
    Bucket.Spends u (s.verified op) s.verify ((calls C).next s op).verify ∧
      Bucket.Spends u (s.asked op) s.lookups ((calls C).next s op).lookups := by
  cases op with
  | handle ask now src datagram =>
    obtain rfl : now=u := Option.some.inj h
    obtain ⟨hverify,hlookups⟩ := (s.handle_treated ask now src datagram).pays
    exact ⟨hverify.mono verified_le,hlookups⟩
  | _ => cases h

theorem calls_idle (h : (calls C).time op=none) :
    ((calls C).next s op).verify=s.verify ∧ ((calls C).next s op).lookups=s.lookups := by
  have hlimits := calls_limits (s := s) h
  exact ⟨congrArg (·.2.1) hlimits,congrArg (·.2.2.1) hlimits⟩

theorem Rated.step {n m : Nat} (h : Rated n m s) (op : Op C) : Rated n m ((calls C).next s op) := by
  cases htime : (calls C).time op with
  | none =>
    obtain ⟨hverify,hlookups⟩ := calls_idle (s := s) htime
    exact ⟨hverify ▸ h.verify,hlookups ▸ h.lookups⟩
  | some u =>
    obtain ⟨hverify,hlookups⟩ := calls_pays (s := s) htime
    refine ⟨⟨hverify.sane h.verify.1,?_,?_⟩,hlookups.sane h.lookups.1,?_,?_⟩
    · exact hverify.burst.trans h.verify.2.1
    · exact hverify.refillMs.trans h.verify.2.2
    · exact hlookups.burst.trans h.lookups.2.1
    · exact hlookups.refillMs.trans h.lookups.2.2

theorem meter_verify (C : Crypto) (n m : Nat) :
    (calls C).Meter verified (fun _ _ => True) (max (1000/max n 1) 1)
      (max n 1*max (1000/max n 1) 1) (fun t s => s.verify.credit t) (Rated n m) :=
  Bucket.meter (fun _ s => s.verify) (fun h _ => h.step _) (fun h _ => h.verify)
    (fun h => Bucket.credit_later h) (fun _ h => (calls_idle h).1) fun _ h => (calls_pays h).1

theorem meter_lookups (C : Crypto) (n m : Nat) :
    (calls C).Meter asked (fun _ _ => True) (max (1000/max m 1) 1)
      (max m 1*max (1000/max m 1) 1) (fun t s => s.lookups.credit t) (Rated n m) :=
  Bucket.meter (fun _ s => s.lookups) (fun h _ => h.step _) (fun h _ => h.lookups)
    (fun h => Bucket.credit_later h) (fun _ h => (calls_idle h).2) fun _ h => (calls_pays h).2

theorem takeLookup_of_tokens {b : Bucket} (hsane : (s.lookupSlot (sourcePrefix src) now).1.Sane)
    (htokens : 0<(s.lookupSlot (sourcePrefix src) now).1.tokens)
    (hlookups : s.lookups.take now=(true,b)) : s.takeLookup src now=(true,{ s with
      lookups := b
      prefixLookups := (s.lookupSlot (sourcePrefix src) now).2.insert (sourcePrefix src)
        (((s.lookupSlot (sourcePrefix src) now).1.take now).2,now) }) := by
  rw [takeLookup,takePrefixLookup]
  dsimp only
  rw [(Bucket.take_of_tokens now hsane htokens).1]
  dsimp only
  rw [hlookups]

theorem loadUserKeys_of_take {lookups : Bucket}
    {prefixLookups : AList fun _ : Bytes => Bucket × Nat} (hfresh : s.isFresh user now=false)
    (hmay : ask.mayKnock=true) (hroom : s.keyCache.keys.length< max s.cfg.keyCacheUsers 1)
    (htake : s.takeLookup src now=(true,{ s with lookups, prefixLookups })) :
    s.loadUserKeys ask user src now =
      (true,reload user (keyTable C ask.keysFor) now { s with lookups, prefixLookups }) := by
  rw [loadUserKeys,hfresh,hmay,if_neg (by decide),if_neg (by decide),htake]
  dsimp only
  rw [decide_eq_false (Nat.not_le.2 hroom),Bool.and_false,if_neg (by decide)]

theorem loadUserKeys_limits {t : KnockState C} (hfresh : s.isFresh user now=false)
    (hmay : ask.mayKnock=true) (htake : s.takeLookup src now=(true,t)) :
    (s.loadUserKeys ask user src now).2.cfg=t.cfg ∧
      (s.loadUserKeys ask user src now).2.lookups=t.lookups ∧
      (s.loadUserKeys ask user src now).2.prefixLookups=t.prefixLookups := by
  rw [loadUserKeys,hfresh,hmay,if_neg (by decide),if_neg (by decide),htake]
  dsimp only
  split
  · obtain ⟨keyCache,hevict,-⟩ := evictUser_shrinks (s := t)
    rw [hevict]
    exact ⟨rfl,rfl,rfl⟩
  · exact ⟨rfl,rfl,rfl⟩

/- Once the keys of the user are known, they need not be looked up. -/
theorem handle_loaded (hparse : Knock.parse datagram = .ok k)
    (hclock : absDiff k.nonce.toNat now≤ s.cfg.clockSkewMs)
    (hload : s.loadUserKeys ask k.user src now=(true,s₁)) (hcfg : s₁.cfg=s.cfg)
    (hfresh : s₁.isFresh k.user now=true) :
    s.judging ask now src datagram=s₁.judging ask now src datagram ∧
      s.handle ask now src datagram=s₁.handle ask now src datagram := by
  have hagain : s₁.loadUserKeys ask k.user src now=(true,s₁) := by
    rw [loadUserKeys,if_pos hfresh]
  constructor
  · rw [judging,judging,hparse]
    dsimp only
    rw [hload,hagain,hcfg]
  · rw [handle,handle,hparse]
    dsimp only
    rw [hload,hagain,hcfg,if_neg (Nat.not_lt.2 hclock),if_neg (Nat.not_lt.2 hclock)]

theorem Treated.lookups {verdict : Verdict} {checks : List ((Str × Bytes) × Check)} {asked : Bool}
    (h : Treated s ask now src datagram verdict checks asked s₁)
    (hparse : Knock.parse datagram = .ok k)
    (hclock : absDiff k.nonce.toNat now≤ s.cfg.clockSkewMs) :
    ∃ entries verify, s₁ = { (s.loadUserKeys ask k.user src now).2 with entries, verify } := by
  cases h with
  | early _ hearly => exact absurd (hearly k hparse) (Nat.not_lt.2 hclock)
  | unknown _ hparse' =>
    cases hparse.symm.trans hparse'
    exact ⟨_,_,rfl⟩
  | judged hparse' _ hload =>
    cases hparse.symm.trans hparse'
    subst hload
    exact ⟨_,_,rfl⟩

end KnockState

namespace Bucket

theorem take_now (burst refillMs now tokens : Nat) :
    take now { tokens := tokens+1, burst, refillMs, lastMs := now } =
      (true,{ tokens, burst, refillMs, lastMs := now }) := by
  rw [take,refill,if_neg (Nat.lt_irrefl now)]
  rfl

theorem take_later {burst refillMs : Nat} (hburst : 0<burst) (hrefill : 0<refillMs)
    (now : Nat) : take (now+refillMs) { tokens := 0, burst, refillMs, lastMs := now } =
      (true,{ tokens := 0, burst, refillMs, lastMs := now+refillMs }) := by
  have hone : (now+refillMs-now)/refillMs=1 := by
    rw [Nat.add_sub_cancel_left,Nat.div_self hrefill]
  have hsane : Sane { tokens := 0, burst, refillMs, lastMs := now } := ⟨Nat.zero_le _,hrefill⟩
  have hmin : min (0+1) burst=1 := Nat.min_eq_left hburst
  rw [take,refill_eq hsane (Nat.lt_add_of_pos_right hrefill)]
  rw [hone,hmin,Nat.one_mul,ite_self]
  rfl

end Bucket

/-- What the configuration allows in `len` milliseconds. -/
def perSecondBound (n len : Nat) : Nat := max n 1+len*max n 1/1000+1

/-- The rates whose refill period is a whole number of milliseconds, or at most one. -/
def WholePeriod (n : Nat) : Prop := max n 1 ∣ 1000 ∨ 1000≤n

instance (n : Nat) : Decidable (WholePeriod n) := inferInstanceAs (Decidable (_ ∨ _))

variable {n : Nat}

theorem WholePeriod.le_bound {count len : Nat} (h : WholePeriod n)
    (hcount : count*max (1000/max n 1) 1≤ max n 1*max (1000/max n 1) 1+len) :
    count≤perSecondBound n len := by
  rw [perSecondBound]
  have hpos : 0< max n 1 := Nat.lt_of_lt_of_le Nat.zero_lt_one (Nat.le_max_right n 1)
  suffices hrest : (count-max n 1)*1000≤len*max n 1 by
    omega
  rcases h with ⟨q,hq⟩ | hfast
  · have hq₁ : 0<q := by
      rcases Nat.eq_zero_or_pos q with rfl | hq₁
      · cases hq
      · exact hq₁
    have hperiod : max (1000/max n 1) 1=q := by
      rw [hq,Nat.mul_div_cancel_left q hpos,Nat.max_eq_left hq₁]
    rw [hperiod] at hcount
    have hover : (count-max n 1)*q≤len := by
      rw [Nat.sub_mul]
      omega
    calc (count-max n 1)*1000=(count-max n 1)*q*max n 1 := by
          rw [hq,Nat.mul_assoc,Nat.mul_comm q]
      _≤len*max n 1 := Nat.mul_le_mul_right _ hover
  · have hn : max n 1=n := Nat.max_eq_left (by omega)
    have hperiod : max (1000/n) 1=1 := by
      have hle : 1000/n≤1 := Nat.div_le_of_le_mul (by omega)
      omega
    rw [hn,hperiod] at hcount
    rw [hn]
    calc (count-n)*1000≤len*1000 := Nat.mul_le_mul_right _ (by omega)
      _≤len*n := Nat.mul_le_mul_left _ hfast

theorem not_wholePeriod (h : ¬WholePeriod n) : 3≤n ∧ 1≤1000/n ∧ 1000/n≤333 ∧ 1000/n*n≤999 := by
  rw [WholePeriod,not_or] at h
  obtain ⟨hdvd,hlt⟩ := h
  have hn : 3≤n := by
    by_contra hsmall
    have hcases : n=0 ∨ n=1 ∨ n=2 := by omega
    rcases hcases with rfl | rfl | rfl
    · exact hdvd (by decide)
    · exact hdvd (by decide)
    · exact hdvd (by decide)
  rw [Nat.max_eq_left (by omega)] at hdvd
  have hmul : 1000/n*n≤1000 := Nat.div_mul_le_self 1000 n
  have hne : 1000/n*n≠1000 := fun heq => hdvd ⟨1000/n,by rw [Nat.mul_comm,heq]⟩
  refine ⟨hn,(Nat.one_le_div_iff (by omega)).2 (by omega),?_,by omega⟩
  exact Nat.le_of_lt_succ (Nat.div_lt_of_lt_mul (by omega))

theorem bound_lt_of_not_whole (h : ¬WholePeriod n) : perSecondBound n (2000*(1000/n))<n+2000 := by
  obtain ⟨hn,-,-,hmul⟩ := not_wholePeriod h
  have hdiv : 2000*(1000/n)*n/1000=2*(1000/n*n) := by
    rw [Nat.mul_assoc]
    omega
  rw [perSecondBound,Nat.max_eq_left (by omega)]
  omega

namespace Sample

/- A signature of the right algorithm and length that is not valid. -/
def forgery : Bytes :=
  Writer.writeString (ascii "ssh-ed25519")++Writer.writeString (.replicate 64 1)

theorem verify_forgery (namespace_ : Str) (message : Bytes) : reachesVerifier userKey forgery=true ∧
      verify crypto userKey namespace_ message forgery = .error .badSignature :=
  ⟨by decide,rfl⟩

def forged : Bytes :=
  [version,typeKnock,0,3]++user++keyFp crypto userKey++writeStr16 forgery++be64 0 ++
    zeros++keyFp crypto (crypto.publicBlob ())++writeStr16 []++writeStr16 forgery

theorem parse_forged : ∃ k, Knock.parse forged = .ok k ∧ k.user=user ∧
    k.keyFp=keyFp crypto userKey ∧ k.sig1=forgery ∧ k.nonce.toNat=0 := by
  have hfields : (Knock.parse forged).toOption.map (fun k => (k.user,k.keyFp,k.sig1,k.nonce)) =
      some (user,keyFp crypto userKey,forgery,0) := by decide +kernel
  cases h : Knock.parse forged with
  | error _ =>
    rw [h] at hfields
    cases hfields
  | ok k =>
    rw [h] at hfields
    obtain ⟨huser,hfp,hsig1,hnonce⟩ : k.user=user ∧ k.keyFp=keyFp crypto userKey ∧
        k.sig1=forgery ∧ k.nonce=0 := by
      simpa [Except.toOption] using hfields
    exact ⟨k,rfl,huser,hfp,hsig1,by rw [hnonce]; rfl⟩

/- Time for 2000 refills, and buckets elsewhere that never run dry. -/
def lenient (n m ttl : Nat) : KnockServerConfig :=
  { KnockServerConfig.default with
    clockSkewMs := 1000000, verifyPerSec := n, keyLookupsPerSec := m, keyCacheTtlMs := ttl
    newsig1Burst := n+2000, keyLookupsPrefixBurst := m+2000 }

end Sample

namespace KnockState
open Sample
variable {n m r t u i j : Nat} {s : KnockState crypto}

/- The keys of the user are known and stay so; the key has seen no valid sig1. -/
structure Awaits (n m r t j i : Nat) (s : KnockState crypto) : Prop where
  cfg : s.cfg=lenient n m 1000000
  fresh : ∀ u<1000000, s.isFresh user u=true
  cached : s.cached (user,keyFp crypto userKey)=some userKey
  sig1Cache : ∀ now, (s.entryFor (user,keyFp crypto userKey) now).sig1Cache=[]
  newsig1 : ∀ now, (s.entryFor (user,keyFp crypto userKey) now).newsig1.Sane
  tokens : ∀ now, i≤(s.entryFor (user,keyFp crypto userKey) now).newsig1.tokens
  verify : s.verify = { tokens := j, burst := n, refillMs := r, lastMs := t }
  time : t+i*r<1000000

variable {b : Bucket} {j' t' : Nat}

/- A forged sig1 that is checked takes a token of either bucket, and nothing is checked after it. -/
theorem checkSig1_forged {e e' : Entry} {v : Bucket} {k : Knock} (cfg : KnockServerConfig)
    (floor : Nat) (hempty : e.sig1Cache=[]) (hfirst : (e.newsig1.take u).1=true)
    (he : e' = { e with newsig1 := (e.newsig1.take u).2 }) (htake : v.take u=(true,b))
    (hsig1 : k.sig1=forgery) :
    Admission.checkSig1 crypto cfg userKey k u (e,v)=(.error (.drop .badSig1),(e',b)) ∧
      Admission.checks crypto cfg floor userKey k u home forged (e,v)=[.sig1] := by
  have hnew : Admission.takeNewsig1 u (e,v)=(.ok true,(e',v)) := by
    rw [Admission.takeNewsig1,hfirst,he]
  have hboth : Admission.both (Admission.takeNewsig1 u) (Admission.takeVerify u) (e,v) =
      (.ok true,(e',b)) := by
    refine Admission.both_eq hnew ?_
    rw [Admission.takeVerify,htake]
  have hseen : k.sig1∉e.sig1Cache := by
    rw [hempty]
    exact List.not_mem_nil
  have hcheck : Admission.checkSig1 crypto cfg userKey k u (e,v) =
      (.error (.drop .badSig1),(e',b)) := by
    rw [Admission.checkSig1,get_bind]
    dsimp only
    rw [if_neg hseen,bind_of_ok hboth,hsig1,(verify_forgery _ _).2]
    rfl
  have hreached : Admission.checksSig1 k u (e,v)=true := by
    rw [Admission.checksSig1,hempty,hfirst,htake]
    rfl
  refine ⟨hcheck,?_⟩
  rw [Admission.checks,hreached,Admission.checksSig2,hcheck]
  rfl

/- A knock with a forged sig1 costs one verification and leaves nothing behind. -/
theorem Awaits.check (h : Awaits n m r t j (i+1) s) (hu : u<1000000)
    (htake : s.verify.take u=(true,b)) : s.verified (.handle admits u home forged)=1 ∧
      ∃ e, (s.handle admits u home forged).2 =
        { s.putEntry (user,keyFp crypto userKey) e with verify := b } ∧
        e.sig1Cache=[] ∧ e.newsig1.Sane ∧ i≤e.newsig1.tokens := by
  obtain ⟨k,hparse,huser,hfp,hsig1,hnonce⟩ := parse_forged
  have hload : s.loadUserKeys admits k.user home u=(true,s) := by
    rw [loadUserKeys,huser,if_pos (h.fresh u hu)]
  have hclock : absDiff k.nonce.toNat u≤ s.cfg.clockSkewMs := by
    rw [h.cfg,absDiff,lenient]
    dsimp only
    omega
  have hempty := h.sig1Cache u
  have hleft := h.tokens u
  obtain ⟨hfirst,hsane,htokens⟩ := Bucket.take_of_tokens u (h.newsig1 u)
    (Nat.lt_of_lt_of_le (Nat.succ_pos i) hleft)
  generalize he : s.entryFor (user,keyFp crypto userKey) u=e at hempty hleft hfirst hsane htokens
  obtain ⟨hcheck,hchecks⟩ := checkSig1_forged s.cfg s.nonceFloor hempty hfirst rfl htake hsig1
  have hgrant : Admission.grant s.cfg s.hostKeys s.nonceFloor userKey k u home forged
      (s.entryFor (k.user,k.keyFp) u,s.verify) =
        (.error (.drop .badSig1),({ e with newsig1 := (e.newsig1.take u).2 },b)) := by
    rw [huser,hfp,he,Admission.grant,bind_of_error hcheck]
  have hcached : s.cached (k.user,k.keyFp)=some userKey := by rw [huser,hfp,h.cached]
  obtain ⟨-,hhandle⟩ := handle_judged hparse hclock hload hcached hgrant
  rw [huser,hfp] at hhandle
  have hrest : i≤(e.newsig1.take u).2.tokens := by omega
  refine ⟨?_,{ e with newsig1 := (e.newsig1.take u).2 },?_,hempty,hsane,hrest⟩
  · rw [verified,judging_eq hparse hclock hload hcached]
    dsimp only
    rw [huser,hfp,he,hchecks,List.countP_singleton,Check.signature,hsig1,(verify_forgery [] []).1]
    rfl
  · rw [hhandle]

theorem Awaits.next (h : Awaits n m r t j (i+1) s) (hu : u<1000000)
    (htake : s.verify.take u=(true,b))
    (hb : b = { tokens := j', burst := n, refillMs := r, lastMs := t' })
    (htime : t'+i*r<1000000) :
    s.verified (.handle admits u home forged)=1 ∧
      Awaits n m r t' j' i ((calls crypto).next s (.handle admits u home forged)) := by
  obtain ⟨hone,e,hnext,hcache,hsane,htokens⟩ := h.check hu htake
  refine ⟨hone,?_⟩
  rw [calls_handle,hnext]
  refine ⟨h.cfg,h.fresh,h.cached,fun now => ?_,fun now => ?_,fun now => ?_,hb,htime⟩
  · exact hcache
  · exact hsane
  · exact htokens

theorem drains_verify (n m r : Nat) (hn : 0<n) (hr : 0<r) :
    (calls crypto).Drains verified (fun u => .handle admits u home forged) r (Awaits n m r) where
  time _ := rfl
  take := by
    intro t j i s h
    have htime := h.time
    rw [Nat.add_mul] at htime
    refine h.next (by omega) ?_ rfl (by omega)
    rw [h.verify]
    exact Bucket.take_now n r t j
  tick := by
    intro t i s h
    have htime := h.time
    rw [Nat.add_mul] at htime
    refine h.next (by omega) ?_ rfl (by omega)
    rw [h.verify]
    exact Bucket.take_later hn hr t

theorem load_new (n m : Nat) : ∃ lookups prefixLookups,
    (new (lenient n m 1000000) [()] 0 : KnockState crypto).loadUserKeys admits user home 0 =
      (true,reload user (keyTable crypto [userKey]) 0
        { (new (lenient n m 1000000) [()] 0 : KnockState crypto) with lookups, prefixLookups }) := by
  have hsane := (Bucket.sane_new (max m 1) (max (1000/max m 1) 1) 0)
  obtain ⟨htoken,-,-⟩ := Bucket.take_of_tokens 0 hsane (Nat.le_max_right m 1)
  have hlookups : (new (lenient n m 1000000) [()] 0 : KnockState crypto).lookups.take 0 =
      (true,((perSecond m 0).take 0).2) := Prod.ext htoken rfl
  have htake : takeLookup home 0 (new (lenient n m 1000000) [()] 0 : KnockState crypto)=_ :=
    takeLookup_of_tokens (by exact ⟨Nat.min_le_right _ _,Nat.le_max_right _ _⟩)
      (by exact Nat.lt_min.2 ⟨Nat.succ_pos _,Nat.succ_pos _⟩) hlookups
  exact ⟨_,_,loadUserKeys_of_take rfl rfl
    (Nat.lt_of_lt_of_le Nat.zero_lt_one (Nat.le_max_right _ 1)) htake⟩

theorem perSecond_of_not_whole (hn : ¬WholePeriod n) :
    perSecond n 0 = { tokens := n, burst := n, refillMs := 1000/n, lastMs := 0 } := by
  obtain ⟨hn₃,hperiod,-,-⟩ := not_wholePeriod hn
  rw [perSecond,Nat.max_eq_left (by omega),Bucket.new,Nat.max_eq_left hperiod,
    Nat.max_eq_left hperiod]

theorem awaits_reload (m : Nat) (lookups : Bucket)
    (prefixLookups : AList fun _ : Bytes => Bucket × Nat) (hn : ¬WholePeriod n) :
    Awaits n m (1000/n) 0 n (n+2000) (reload user (keyTable crypto [userKey]) 0
      { (new (lenient n m 1000000) [()] 0 : KnockState crypto) with lookups, prefixLookups }) := by
  obtain ⟨hn₃,hperiod,hshort,hmul⟩ := not_wholePeriod hn
  have hentry : ∀ now, entryFor (user,keyFp crypto userKey) now
      (reload user (keyTable crypto [userKey]) 0 { (new (lenient n m 1000000) [()] 0 :
        KnockState crypto) with lookups, prefixLookups }) = .new (lenient n m 1000000) now := by
    simp [entryFor,reload,retain,new]
  have hkey : (keyTable crypto [userKey]).lookup (keyFp crypto userKey)=some userKey := by
    decide
  refine ⟨rfl,fun u hu => ?_,?_,fun now => ?_,fun now => ?_,fun now => ?_,?_,?_⟩
  · rw [isFresh,show (reload user (keyTable crypto [userKey]) 0 _).keyCache.lookup user =
      some { loadedMs := 0, keys := keyTable crypto [userKey] } from AList.lookup_insert _]
    change (decide (0≤u) && decide (u-0<1000000))=true
    simp [hu]
  · simp [cached,reload,hkey]
  · rfl
  · rw [hentry]
    exact Bucket.sane_new _ _ now
  · rw [hentry]
    exact Nat.le_refl _
  · exact perSecond_of_not_whole hn
  · rw [Nat.add_mul,Nat.mul_comm n]
    omega

/- All tokens are spent at once, then one for each period. The first datagram looks up the keys. -/
theorem Awaits.spent_all {s₁ : KnockState crypto} {k : Nat}
    (h : Awaits (n+1) m (1000/(n+1)) 0 (n+1) (n+1+k) s₁) (hperiod : 0<1000/(n+1))
    (hload : s.loadUserKeys admits user home 0=(true,s₁)) (hcfg : s₁.cfg=s.cfg) :
    ∃ ops, (calls crypto).Clocked 0 ops ∧
      (calls crypto).spentWithin verified 0 (0+k*(1000/(n+1))) s ops=n+1+k := by
  have hdrains := drains_verify (n+1) m (1000/(n+1)) (Nat.succ_pos n) hperiod
  have hspent : (calls crypto).spentWithin verified 0 (0+k*(1000/(n+1))) s₁ _=_ :=
    hdrains.spent_all h (Nat.le_refl 0) (Nat.le_refl _)
  obtain ⟨knock,hparse,huser,-,-,hnonce⟩ := parse_forged
  obtain ⟨hjudging,hhandle⟩ := handle_loaded hparse (by rw [hnonce]; exact Nat.zero_le _)
    (huser ▸ hload) hcfg (by rw [huser]; exact h.fresh 0 (by decide))
  refine ⟨_,hdrains.clocked 0 (n+1) k,?_⟩
  rw [← hspent]
  refine Timed.spentWithin_congr ?_ ?_
  · rw [verified,hjudging,verified]
  · rw [calls_handle,hhandle,calls_handle]

/-- A rate without a whole period lets too many verifications through. -/
theorem verified_exceeds (m : Nat) (hn : ¬WholePeriod n) : ∃ ops : List (Op crypto),
    (calls crypto).Clocked 0 ops ∧ perSecondBound n (2000*(1000/n)) <
      (calls crypto).spentWithin verified 0 (0+2000*(1000/n))
        (.new (lenient n m 1000000) [()] 0) ops := by
  obtain ⟨hn₃,hperiod,-,-⟩ := not_wholePeriod hn
  obtain ⟨lookups,prefixLookups,hload⟩ := load_new n m
  have hready := awaits_reload m lookups prefixLookups hn
  have hbound := bound_lt_of_not_whole hn
  obtain ⟨n',rfl⟩ : ∃ n', n=n'+1 := ⟨n-1,by omega⟩
  obtain ⟨ops,hclocked,hspent⟩ := hready.spent_all hperiod hload rfl
  exact ⟨ops,hclocked,hspent ▸ hbound⟩

/- The keys of the user are asked for again with every datagram. -/
structure Asks (n m r t j i : Nat) (s : KnockState crypto) : Prop where
  cfg : s.cfg=lenient n m 0
  slot : ∀ now, (s.lookupSlot (sourcePrefix home) now).1.Sane ∧
    i≤(s.lookupSlot (sourcePrefix home) now).1.tokens
  lookups : s.lookups = { tokens := j, burst := m, refillMs := r, lastMs := t }
  time : t+i*r<1000000

theorem Asks.next (h : Asks n m r t j (i+1) s) (hu : u<1000000) (htake : s.lookups.take u=(true,b))
    (hb : b = { tokens := j', burst := m, refillMs := r, lastMs := t' })
    (htime : t'+i*r<1000000) :
    s.asked (.handle admits u home forged)=1 ∧
      Asks n m r t' j' i ((calls crypto).next s (.handle admits u home forged)) := by
  obtain ⟨k,hparse,-,-,-,hnonce⟩ := parse_forged
  obtain ⟨hsane,htokens⟩ := h.slot u
  have hlookup := takeLookup_of_tokens hsane (Nat.lt_of_lt_of_le (Nat.succ_pos i) htokens) htake
  have hstale : s.isFresh k.user u=false := by
    rw [isFresh]
    split
    · rw [h.cfg]
      exact Bool.and_false _
    · rfl
  have hclock : absDiff k.nonce.toNat u≤ s.cfg.clockSkewMs := by
    rw [h.cfg,absDiff,lenient]
    dsimp only
    omega
  have hmay : admits.mayKnock=true := rfl
  obtain ⟨hcfg,hlookups,hsource⟩ := loadUserKeys_limits hstale hmay hlookup
  obtain ⟨entries,verify,hnext⟩ : ∃ entries verify, (s.handle admits u home forged).2 =
      { (s.loadUserKeys admits k.user home u).2 with entries, verify } :=
    (s.handle_treated admits u home forged).lookups hparse hclock
  refine ⟨?_,?_⟩
  · rw [asked,asksKeys,hparse]
    dsimp only
    rw [decide_eq_true hclock,asksFor,hstale,hlookup]
    rfl
  · rw [calls_handle,hnext]
    have hslot : ∀ now, (lookupSlot (sourcePrefix home) now
        { (s.loadUserKeys admits k.user home u).2 with entries, verify }).1 =
          ((s.lookupSlot (sourcePrefix home) u).1.take u).2 := by
      intro now
      rw [lookupSlot]
      rw [hsource,AList.lookup_insert]
    refine ⟨hcfg.trans h.cfg,fun now => ?_,hlookups.trans hb,htime⟩
    obtain ⟨-,hsane',htokens'⟩ := Bucket.take_of_tokens u hsane (by omega)
    rw [hslot]
    exact ⟨hsane',by omega⟩

theorem drains_lookups (n m r : Nat) (hm : 0< m) (hr : 0<r) :
    (calls crypto).Drains asked (fun u => .handle admits u home forged) r (Asks n m r) where
  time _ := rfl
  take := by
    intro t j i s h
    have htime := h.time
    rw [Nat.add_mul] at htime
    refine h.next (by omega) ?_ rfl (by omega)
    rw [h.lookups]
    exact Bucket.take_now m r t j
  tick := by
    intro t i s h
    have htime := h.time
    rw [Nat.add_mul] at htime
    refine h.next (by omega) ?_ rfl (by omega)
    rw [h.lookups]
    exact Bucket.take_later hm hr t

/-- A rate without a whole period lets too many calls of the key source through. -/
theorem asked_exceeds (n : Nat) (hm : ¬WholePeriod m) : ∃ ops : List (Op crypto),
    (calls crypto).Clocked 0 ops ∧ perSecondBound m (2000*(1000/m)) <
      (calls crypto).spentWithin asked 0 (0+2000*(1000/m)) (.new (lenient n m 0) [()] 0) ops := by
  obtain ⟨hm₃,hperiod,hshort,hmul⟩ := not_wholePeriod hm
  have hready : Asks n m (1000/m) 0 m (m+2000) (.new (lenient n m 0) [()] 0) := by
    refine ⟨rfl,fun now => ?_,perSecond_of_not_whole hm,?_⟩
    · exact ⟨⟨Nat.min_le_right _ _,Nat.le_max_right _ _⟩,Nat.le_min.2 ⟨Nat.le_refl _,Nat.le_refl _⟩⟩
    · rw [Nat.add_mul,Nat.mul_comm m]
      omega
  have hdrains := drains_lookups n m (1000/m) (by omega) hperiod
  refine ⟨_,hdrains.clocked 0 m 2000,Nat.lt_of_lt_of_eq (bound_lt_of_not_whole hm) ?_⟩
  exact (hdrains.spent_all hready (Nat.le_refl 0) (Nat.le_refl _)).symm

end KnockState
end PureSsh.Knocking
