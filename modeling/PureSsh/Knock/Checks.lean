import PureSsh.Knock.Replay
import PureSsh.Lib.Pacing

/-! What the datagrams cost: the public key verifications and the calls of the key source that
`KnockState::handle` makes, and the token buckets that pay for them (`knock/state.rs`). -/

namespace PureSsh.Knocking
open Lib Proc

namespace Bucket
variable {b b' : Bucket} {now t : Nat}

structure Sane (b : Bucket) : Prop where
  tokens_le : b.tokens≤b.burst
  refill_pos : 0<b.refillMs

/- The tokens and the time towards the next one, in milliseconds. -/
def level (now : Nat) (b : Bucket) : Nat := b.tokens*b.refillMs+(now-b.lastMs)

/-- What a bucket is worth at a moment; a full one gains nothing. -/
def credit (now : Nat) (b : Bucket) : Nat := min (b.level now) (b.burst*b.refillMs)

theorem sane_new (burst refillMs now : Nat) : (new burst refillMs now).Sane :=
  ⟨Nat.le_refl _,Nat.le_max_right _ _⟩

theorem credit_le : b.credit now≤b.burst*b.refillMs := Nat.min_le_right _ _

/- In the meantime the credit grows by no more than the time. -/
theorem credit_later (h : t≤now) : b.credit now≤b.credit t+(now-t) := by
  simp only [credit,level]
  omega

theorem refill_eq (h : b.Sane) (hlt : b.lastMs<now) : b.refill now =
      { b with
        tokens := min (b.tokens+(now-b.lastMs)/b.refillMs) b.burst
        lastMs := if min (b.tokens+(now-b.lastMs)/b.refillMs) b.burst=b.burst then now
          else b.lastMs+(now-b.lastMs)/b.refillMs*b.refillMs } := by
  have htokens : min b.tokens b.burst=b.tokens := Nat.min_eq_left h.tokens_le
  rw [refill,if_pos hlt]
  dsimp only
  by_cases hgained : (now-b.lastMs)/b.refillMs>0
  · rw [if_pos hgained]
    split
    · rfl
    · rfl
  · rw [if_neg hgained,Nat.eq_zero_of_not_pos hgained,Nat.add_zero,Nat.zero_mul,htokens]
    split
    · rfl
    · rfl

theorem refill_spec (h : b.Sane) (now : Nat) : (b.refill now).Sane ∧
    (b.refill now).burst=b.burst ∧ (b.refill now).refillMs=b.refillMs ∧
    b.tokens≤(b.refill now).tokens ∧ (b.refill now).level now≤b.credit now := by
  have hle := h.tokens_le
  by_cases hlt : b.lastMs<now
  · rw [refill_eq h hlt]
    refine ⟨⟨Nat.min_le_right _ _,h.refill_pos⟩,rfl,rfl,?_,?_⟩
    · exact Nat.le_min.2 ⟨Nat.le_add_right _ _,hle⟩
    · -- whole refill periods become tokens, and a full bucket drops the rest
      have hperiods := Nat.div_add_mod (now-b.lastMs) b.refillMs
      have hrest := Nat.mod_lt (now-b.lastMs) h.refill_pos
      generalize (now-b.lastMs)/b.refillMs=gained at hperiods ⊢
      rw [Nat.mul_comm] at hperiods
      have hgained : (b.tokens+gained)*b.refillMs=b.tokens*b.refillMs+gained*b.refillMs :=
        Nat.add_mul _ _ _
      rw [credit,level,level]
      dsimp only
      by_cases hfull : b.burst≤b.tokens+gained
      · have hcap := Nat.mul_le_mul_right b.refillMs hfull
        rw [Nat.min_eq_right hfull,if_pos rfl]
        omega
      · have hcap : (b.tokens+gained+1)*b.refillMs≤b.burst*b.refillMs :=
          Nat.mul_le_mul_right b.refillMs (Nat.lt_of_not_le hfull)
        rw [Nat.add_mul _ 1] at hcap
        rw [Nat.min_eq_left (Nat.le_of_not_le hfull),if_neg (by omega)]
        omega
  · have hcap := Nat.mul_le_mul_right b.refillMs hle
    rw [refill,if_neg hlt]
    refine ⟨h,rfl,rfl,Nat.le_refl _,?_⟩
    rw [credit,level]
    omega

/-- Buckets before and after a call at a moment that spent `n` tokens or more. -/
structure Spends (now n : Nat) (b b' : Bucket) : Prop where
  sane : b.Sane → b'.Sane
  burst : b'.burst=b.burst
  refillMs : b'.refillMs=b.refillMs
  paid : b.Sane → n*b.refillMs+b'.credit now≤b.credit now

theorem Spends.refl (now : Nat) (b : Bucket) : Spends now 0 b b :=
  ⟨fun h => h,rfl,rfl,fun _ => by rw [Nat.zero_mul,Nat.zero_add]⟩

theorem Spends.trans {b'' : Bucket} {n m : Nat} (h : Spends now n b b') (h' : Spends now m b' b'') :
    Spends now (n+m) b b'' := by
  refine ⟨fun hb => h'.sane (h.sane hb),h'.burst.trans h.burst,h'.refillMs.trans h.refillMs,?_⟩
  intro hb
  have hfirst := h.paid hb
  have hsecond := h'.paid (h.sane hb)
  rw [h.refillMs] at hsecond
  rw [Nat.add_mul]
  omega

theorem Spends.mono {n m : Nat} (h : Spends now n b b') (hm : m≤n) : Spends now m b b' := by
  refine ⟨h.sane,h.burst,h.refillMs,fun hb => ?_⟩
  have hpaid := h.paid hb
  have hmul := Nat.mul_le_mul_right b.refillMs hm
  omega

theorem refill_size (now : Nat) (b : Bucket) :
    (b.refill now).burst=b.burst ∧ (b.refill now).refillMs=b.refillMs := by
  rw [refill]
  split
  · dsimp only
    split
    · split <;> exact ⟨rfl,rfl⟩
    · split <;> exact ⟨rfl,rfl⟩
  · exact ⟨rfl,rfl⟩

theorem spends_take (now : Nat) (b : Bucket) :
    Spends now (b.take now).1.toNat b (b.take now).2 := by
  obtain ⟨hburst,hrefillMs⟩ := refill_size now b
  rw [take]
  by_cases htokens : (b.refill now).tokens>0
  · rw [if_pos htokens]
    refine ⟨fun hb => ?_,hburst,hrefillMs,fun hb => ?_⟩
    · obtain ⟨hsane,-⟩ := refill_spec hb now
      exact ⟨Nat.le_trans (Nat.sub_le _ 1) hsane.tokens_le,hsane.refill_pos⟩
    · obtain ⟨-,-,-,-,hlevel⟩ := refill_spec hb now
      have hone : (b.refill now).tokens*b.refillMs =
          ((b.refill now).tokens-1)*b.refillMs+b.refillMs := by
        rw [← Nat.succ_mul,Nat.succ_eq_add_one,Nat.sub_add_cancel htokens]
      refine Nat.le_trans (Nat.add_le_add_left (Nat.min_le_left _ _) _) (Nat.le_trans ?_ hlevel)
      rw [level,level]
      dsimp only
      rw [hrefillMs,Bool.toNat_true]
      omega
  · rw [if_neg htokens]
    refine ⟨fun hb => (refill_spec hb now).1,hburst,hrefillMs,fun hb => ?_⟩
    obtain ⟨-,-,-,-,hlevel⟩ := refill_spec hb now
    rw [Bool.toNat_false,Nat.zero_mul,Nat.zero_add]
    exact Nat.le_trans (Nat.min_le_left _ _) hlevel

/- A bucket with tokens gives one of them away. -/
theorem take_of_tokens (now : Nat) (h : b.Sane) (htokens : 0<b.tokens) :
    (b.take now).1=true ∧ (b.take now).2.Sane ∧ b.tokens-1≤(b.take now).2.tokens := by
  obtain ⟨-,-,-,hle,-⟩ := refill_spec h now
  refine ⟨?_,(spends_take now b).sane h,?_⟩
  · rw [take,if_pos (Nat.lt_of_lt_of_le htokens hle)]
  · rw [take,if_pos (Nat.lt_of_lt_of_le htokens hle)]
    exact Nat.sub_le_sub_right hle 1

/-- A bucket of a server, which may be made at the moment it is used, meters the calls that it pays
for. -/
theorem meter {σ α : Type} {S : Timed σ α} {spent : σ → α → Nat} {allowed : σ → α → Prop}
    {I : σ → Prop} {burst refillMs : Nat} (bucket : Nat → σ → Bucket)
    (hkeeps : ∀ {s a}, I s → allowed s a → I (S.next s a))
    (hsize : ∀ {s}, I s → ∀ t, (bucket t s).Sane ∧ (bucket t s).burst=burst ∧
      (bucket t s).refillMs=refillMs)
    (hlater : ∀ {s t u}, t≤u → (bucket u s).credit u≤(bucket t s).credit t+(u-t))
    (hidle : ∀ {s a} t, S.time a=none → bucket t (S.next s a)=bucket t s)
    (hspends : ∀ {s a u}, allowed s a → S.time a=some u →
      Spends u (spent s a) (bucket u s) (bucket u (S.next s a))) :
    S.Meter spent allowed refillMs (burst*refillMs) (fun t s => (bucket t s).credit t) I where
  keeps := hkeeps
  idle := by
    intro s a t hI ha htime
    rw [hidle t htime]
  pays := by
    intro s a t u hI ha htime htu
    obtain ⟨hsane,-,hrefillMs⟩ := hsize hI u
    have hpaid := (hspends ha htime).paid hsane
    rw [hrefillMs] at hpaid
    exact Nat.le_trans hpaid (hlater htu)
  full := by
    intro s a u hI ha htime
    obtain ⟨hsane,hburst,hrefillMs⟩ := hsize hI u
    have hpaid := (hspends ha htime).paid hsane
    have hcap : (bucket u s).credit u≤_ := credit_le
    rw [hrefillMs] at hpaid
    rw [hburst,hrefillMs] at hcap
    exact Nat.le_trans hpaid hcap

end Bucket

namespace Admission
variable {C : Crypto} {cfg : KnockServerConfig} {hostKeys : List (C.HostKey × Bytes × Bytes)}
  {floor : Nat} {keyBlob : Bytes} {k : Knock} {now : Nat} {src : IpAddr} {datagram : Bytes}
  {s t u : Entry × Bucket}

/- The tokens that a call took: for verifications, for new sig1s and for new sources. -/
structure Charged (now verify newsig1 newPrefix : Nat) (s t : Entry × Bucket) : Prop where
  verify : Bucket.Spends now verify s.2 t.2
  newsig1 : Bucket.Spends now newsig1 s.1.newsig1 t.1.newsig1
  newPrefix : Bucket.Spends now newPrefix s.1.newPrefix t.1.newPrefix

def purse (s : Entry × Bucket) : Bucket × Bucket × Bucket := (s.2,s.1.newsig1,s.1.newPrefix)

theorem Charged.of_purse (now : Nat) (h : purse t=purse s) : Charged now 0 0 0 s t := by
  have hverify : t.2=s.2 := congrArg (·.1) h
  have hnewsig1 : t.1.newsig1=s.1.newsig1 := congrArg (·.2.1) h
  have hnewPrefix : t.1.newPrefix=s.1.newPrefix := congrArg (·.2.2) h
  refine ⟨?_,?_,?_⟩
  · rw [hverify]
    exact .refl now _
  · rw [hnewsig1]
    exact .refl now _
  · rw [hnewPrefix]
    exact .refl now _

theorem Charged.trans {v n p v' n' p' : Nat} (h : Charged now v n p s t)
    (h' : Charged now v' n' p' t u) : Charged now (v+v') (n+n') (p+p') s u :=
  ⟨h.verify.trans h'.verify,h.newsig1.trans h'.newsig1,h.newPrefix.trans h'.newPrefix⟩

theorem Charged.purse {v n p : Nat} (h : Charged now v n p s t) (hu : purse u=purse t) :
    Charged now v n p s u := h.trans (.of_purse now hu)

theorem Charged.mono {v n p v' n' p' : Nat} (h : Charged now v n p s t) (hv : v'≤v) (hn : n'≤n)
    (hp : p'≤p) : Charged now v' n' p' s t :=
  ⟨h.verify.mono hv,h.newsig1.mono hn,h.newPrefix.mono hp⟩

theorem takeVerify_eq (now : Nat) (s : Entry × Bucket) :
    takeVerify now s=(.ok (s.2.take now).1,(takeVerify now s).2) := rfl

theorem takeNewsig1_eq (now : Nat) (s : Entry × Bucket) :
    takeNewsig1 now s=(.ok (s.1.newsig1.take now).1,(takeNewsig1 now s).2) := rfl

theorem takeVerify_charged (now : Nat) (s : Entry × Bucket) :
    Charged now (s.2.take now).1.toNat 0 0 s (takeVerify now s).2 :=
  ⟨Bucket.spends_take now s.2,.refl now _,.refl now _⟩

theorem takeNewsig1_charged (now : Nat) (s : Entry × Bucket) :
    Charged now 0 (s.1.newsig1.take now).1.toNat 0 s (takeNewsig1 now s).2 :=
  ⟨.refl now _,Bucket.spends_take now s.1.newsig1,.refl now _⟩

theorem takeNewprefix_charged (now : Nat) (s : Entry × Bucket) :
    Charged now 0 0 (s.1.newPrefix.take now).1.toNat s ( takeNewprefix now s).2 :=
  ⟨.refl now _,.refl now _,Bucket.spends_take now s.1.newPrefix⟩

theorem keeps_purse_settle {slot : Nat} :
    Keeps purse (settle C cfg hostKeys keyBlob k slot datagram) := by
  rw [settle]
  split
  · exact fun _ => rfl
  · refine Keeps.bind (fun _ => rfl) fun _ => Keeps.bind (fun _ => rfl) fun s => ?_
    refine Keeps.ite (fun _ => rfl) ?_
    split
    · exact fun _ => rfl
    · exact fun _ => rfl

theorem both_eq {x y : Admission Bool} {a b : Bool} (hx : x s=(.ok a,t))
    (hy : y t=(.ok b,u)) : both x y s=(.ok (a && b),if a then u else t) := by
  rw [both,bind_of_ok hx]
  cases a with
  | false => rfl
  | true => exact hy

theorem checkSig1_charged (C : Crypto) (cfg : KnockServerConfig) (keyBlob : Bytes) (k : Knock)
    (now : Nat) (s : Entry × Bucket) : Meets (checkSig1 C cfg keyBlob k now) s fun _ t =>
      Charged now (checksSig1 k now s).toNat (checksSig1 k now s).toNat 0 s t := by
  refine .get_bind (.ite_of (fun hmem => ?_) fun hmem => ?_)
  · rw [checksSig1,decide_eq_false (not_not_intro hmem)]
    exact .of_purse now rfl
  · have hcharged : Meets (both (takeNewsig1 now) (takeVerify now)) s fun _ t =>
        Charged now (checksSig1 k now s).toNat (checksSig1 k now s).toNat 0 s t := by
      have hsig1 := takeNewsig1_charged now s
      have hverify := takeVerify_charged now (takeNewsig1 now s).2
      rw [Meets,both_eq (takeNewsig1_eq now s) (takeVerify_eq now _),checksSig1,
        decide_eq_true hmem]
      cases htoken : (s.1.newsig1.take now).1 with
      | false => exact hsig1.mono (Nat.zero_le _) (Nat.zero_le _) (Nat.le_refl _)
      | true =>
        rw [htoken] at hsig1
        refine (hsig1.trans hverify).mono ?_ (Bool.toNat_le _) (Nat.le_refl _)
        exact Nat.le_add_left _ _
    refine hcharged.bind (fun ok t ht => .ite_of (fun _ => ht) fun _ => ?_) fun _ t ht => ht
    split
    · exact ht
    · refine ht.purse ?_
      rfl

/- The slot of the source is the one that `takeKnock` found. -/
theorem takeAll_charged (cfg : KnockServerConfig) (src : IpAddr) (now : Nat)
    (s : Entry × Bucket) : ∃ ok slot u, takeAll cfg src now s=(.ok (ok,slot),u) ∧
      Charged now ok.toNat 0 (ok && !u.1.isGood slot).toNat s u := by
  rcases hknock : takeKnock cfg src now s with ⟨r,t⟩
  obtain ⟨⟨ok,slot⟩,rfl⟩ : ∃ p, r = .ok p := ⟨_,(congrArg (·.1) hknock).symm⟩
  have ht : purse t=purse s := by
    have hkeeps : purse (takeKnock cfg src now s).2=purse s := keeps_takeKnock (fun _ _ _ => rfl) s
    rwa [hknock] at hkeeps
  obtain ⟨a,t₁,hsource,hcharged,hslots⟩ : ∃ a t₁,
      (if t.1.isGood slot then pure true else takeNewprefix now : Admission Bool) t=(.ok a,t₁) ∧
        Charged now 0 0 (a && !t.1.isGood slot).toNat t t₁ ∧
        t₁.1.knockBuckets=t.1.knockBuckets := by
    cases t.1.isGood slot with
    | false => exact ⟨(t.1.newPrefix.take now).1,( takeNewprefix now t).2,rfl,by
        rw [Bool.not_false,Bool.and_true]
        exact takeNewprefix_charged now t,rfl⟩
    | true => exact ⟨true,t,rfl,.of_purse now rfl,rfl⟩
  have hgood : ∀ u : Entry × Bucket, u.1.knockBuckets=t.1.knockBuckets →
      u.1.isGood slot=t.1.isGood slot := by
    intro u hu
    rw [Entry.isGood,hu,Entry.isGood]
  have hverify := takeVerify_charged now t₁
  refine ⟨ok && (a && (t₁.2.take now).1),slot,
    if ok then (if a then (takeVerify now t₁).2 else t₁) else t,?_,?_⟩
  · rw [takeAll,bind_of_ok hknock]
    exact bind_of_ok (both_eq (pure_apply ok t) (both_eq hsource (takeVerify_eq now t₁))) _
  · cases ok with
    | false => exact .of_purse now ht
    | true =>
      cases a with
      | false =>
        exact ((Charged.of_purse now ht).trans hcharged).mono (Nat.zero_le _) (Nat.zero_le _)
          (Nat.zero_le _)
      | true =>
        have hslot : (takeVerify now t₁).2.1.isGood slot=t.1.isGood slot := hgood _ hslots
        have hpaid := ((Charged.of_purse now ht).trans hcharged).trans hverify
        rw [Nat.zero_add,Nat.zero_add,Nat.zero_add] at hpaid
        rw [if_pos rfl,if_pos rfl,hslot]
        refine hpaid.mono (Nat.le_refl _) (Nat.le_refl _) ?_
        cases (t₁.2.take now).1 with
        | false => exact Nat.zero_le _
        | true => exact Nat.le_refl _

/-- The verifications of one datagram are paid for, each kind from its own bucket. -/
theorem grant_charged (s : Entry × Bucket) :
    Meets (grant cfg hostKeys floor keyBlob k now src datagram) s fun _ t =>
      Charged now (checks C cfg floor keyBlob k now src datagram s).length
        ((checks C cfg floor keyBlob k now src datagram s).count .sig1)
        ((checks C cfg floor keyBlob k now src datagram s).count (.sig2 false)) s t := by
  have hsig1 := checkSig1_charged C cfg keyBlob k now s
  have hfirst : Meets (grant cfg hostKeys floor keyBlob k now src datagram) s fun _ t =>
      Charged now ((checksSig1 k now s).toNat +
          (checksSig2 C cfg floor keyBlob k now src datagram s).isSome.toNat)
        (checksSig1 k now s).toNat
        (checksSig2 C cfg floor keyBlob k now src datagram s==some false).toNat s t := by
    rw [checksSig2]
    rcases hcheck : checkSig1 C cfg keyBlob k now s with ⟨e | ⟨⟨⟩⟩,t⟩
    · exact .bind_of_error hcheck (hsig1.apply hcheck)
    · replace hsig1 := hsig1.apply hcheck
      refine .bind_of_ok hcheck (.get_bind ?_)
      dsimp only
      rw [reachesSig2]
      refine .ite_of (fun hsame => ?_) fun hother => ?_
      · rw [if_pos hsame]
        exact hsig1.purse (keeps_retransmit (fun _ _ _ => rfl) t)
      · rw [if_neg hother]
        refine .ite_of (fun hold => ?_) fun hfresh => ?_
        · rw [if_pos hold]
          exact hsig1
        · obtain ⟨ok,slot,u,hall,hcharged⟩ := takeAll_charged cfg src now t
          have hpaid := hsig1.trans hcharged
          rw [if_neg hfresh,hall]
          refine .bind_of_ok hall ?_
          cases ok with
          | false => exact hpaid
          | true =>
            refine (hpaid.purse (keeps_purse_settle u)).mono (Nat.le_refl _) (Nat.le_refl _) ?_
            change (some (u.1.isGood slot)==some false).toNat≤_
            cases u.1.isGood slot <;> exact Nat.le_refl _
  have hlength : (checks C cfg floor keyBlob k now src datagram s).length =
      (checksSig1 k now s).toNat +
        (checksSig2 C cfg floor keyBlob k now src datagram s).isSome.toNat := by
    rw [checks]
    cases checksSig1 k now s <;> cases checksSig2 C cfg floor keyBlob k now src datagram s <;> rfl
  have hsig1 : (checks C cfg floor keyBlob k now src datagram s).count .sig1 =
      (checksSig1 k now s).toNat := by
    rw [checks]
    cases checksSig1 k now s <;> cases checksSig2 C cfg floor keyBlob k now src datagram s <;> rfl
  have hsig2 : (checks C cfg floor keyBlob k now src datagram s).count (.sig2 false) =
      (checksSig2 C cfg floor keyBlob k now src datagram s==some false).toNat := by
    rw [checks]
    rcases checksSig2 C cfg floor keyBlob k now src datagram s with _ | ⟨_ | _⟩ <;>
      cases checksSig1 k now s <;> rfl
  rw [hlength,hsig1,hsig2]
  exact hfirst

end Admission

namespace KnockState
variable {C : Crypto} {s : KnockState C} {ask : Answers} {now : Nat} {src : IpAddr} {user : Str}
  {datagram : Bytes} {k : Knock} {keyBlob : Bytes}

/- The calls of the key source are charged, and nothing is verified. -/
structure Looks (asked : Bool) (now : Nat) (s s' : KnockState C) : Prop where
  verify : s'.verify=s.verify
  lookups : Bucket.Spends now asked.toNat s.lookups s'.lookups

theorem Looks.refl (now : Nat) (s : KnockState C) : Looks false now s s := ⟨rfl,.refl now _⟩

theorem loadUserKeys_looks (ask : Answers) (user : Str) (src : IpAddr) (now : Nat)
    (s : KnockState C) :
    Looks (s.asksFor ask user src now) now s (s.loadUserKeys ask user src now).2 := by
  obtain ⟨ok,lookups,prefixLookups,htake,hspends⟩ : ∃ ok lookups prefixLookups,
      s.takeLookup src now=(ok,{ s with lookups, prefixLookups }) ∧
        Bucket.Spends now ok.toNat s.lookups lookups := by
    refine ⟨_,_,_,takeLookup_eq,?_⟩
    cases (s.takePrefixLookup src now).1 with
    | false => exact .refl now _
    | true => exact Bucket.spends_take now s.lookups
  rw [loadUserKeys,asksFor,htake]
  cases s.isFresh user now with
  | true => exact .refl now s
  | false =>
    cases ask.mayKnock with
    | false =>
      rw [if_neg (by decide),if_pos (by decide),forget]
      split
      · exact ⟨rfl,.refl now _⟩
      · exact .refl now s
    | true =>
      rw [if_neg (by decide),if_neg (by decide)]
      cases ok with
      | false => exact ⟨rfl,hspends⟩
      | true =>
        dsimp only
        split
        · obtain ⟨keyCache,hevict,-⟩ := evictUser_shrinks (s := { s with lookups, prefixLookups })
          rw [hevict]
          exact ⟨rfl,hspends⟩
        · exact ⟨rfl,hspends⟩

/-- The verifications and the calls of the key source are paid from the two global buckets. -/
theorem Treated.pays {verdict : Verdict} {checks : List ((Str × Bytes) × Check)} {asked : Bool}
    {s' : KnockState C} (h : Treated s ask now src datagram verdict checks asked s') :
    Bucket.Spends now checks.length s.verify s'.verify ∧
      Bucket.Spends now asked.toNat s.lookups s'.lookups := by
  cases h with
  | early => exact ⟨.refl now _,.refl now _⟩
  | @unknown k =>
    have hlooks := loadUserKeys_looks ask k.user src now s
    rw [hlooks.verify]
    exact ⟨.refl now _,hlooks.lookups⟩
  | @judged k s₁ keyBlob r t hparse hclock hload hcached hgrant =>
    have hlooks := loadUserKeys_looks ask k.user src now s
    rw [hload] at hlooks
    have hcharged := (Admission.grant_charged _).apply hgrant
    rw [List.length_map,← hlooks.verify]
    exact ⟨hcharged.verify,hlooks.lookups⟩

/- What the limits of an entry count. -/
def metered (e : Entry) : Bucket × Bucket × List PrefixSlot × List Bytes :=
  (e.newsig1,e.newPrefix,e.knockBuckets,e.sig1Cache)

/- What the limits of a server count. -/
def limits (s : KnockState C) : KnockServerConfig × Bucket × Bucket ×
    (AList fun _ : Bytes => Bucket × Nat) ×
    (Str × Bytes → Option (Bucket × Bucket × List PrefixSlot × List Bytes)) :=
  (s.cfg,s.verify,s.lookups,s.prefixLookups,fun key => (s.entries key).map metered)

theorem overlooks_limits : Overlooks (limits (C := C)) := by
  intro s key e pending lastAccept he
  refine congrArg (s.cfg,s.verify,s.lookups,s.prefixLookups,·) (funext fun key' => ?_)
  by_cases hkey : key'=key
  · simp [putEntry,hkey,he,metered]
  · simp [putEntry,hkey]

end KnockState

/-- A server as its callers drive it: the clock is read for every datagram. -/
def calls (C : Crypto) : Timed (KnockState C) (Op C) where
  next s op := (History.start s).next op
  time
    | .handle _ now _ _ => some now
    | _ => none

/- Only datagrams are metered. -/
theorem calls_limits {C : Crypto} {s : KnockState C} {op : Op C}
    (h : (calls C).time op=none) : ((calls C).next s op).limits=s.limits := by
  cases op with
  | handle ask now src datagram => cases h
  | complete pending coins port now => exact KnockState.overlooks_limits.complete
  | releasePending user fp => exact KnockState.overlooks_limits.releasePending user fp
  | setKeySource => rfl
  | invalidateKeys user => cases user <;> rfl

end PureSsh.Knocking
