import PureSsh.Knock.Replay

/-! Whom a `KnockState` answers, and with how much. -/

namespace PureSsh.Knocking
open Lib Proc List KnockState

/- The two signatures of a knock, under the blob of a key. -/
def Knock.Identifies (C : Crypto) (blob : Bytes) (k : Knock) : Prop :=
  verify C blob nsKnockId (knockIdMessage k.user k.keyFp) k.sig1 = .ok ()

def Knock.Signed (C : Crypto) (blob : Bytes) (k : Knock) : Prop :=
  verify C blob nsKnock k.signed k.sig2 = .ok ()

namespace Admission
variable {C : Crypto} {cfg : KnockServerConfig} {hostKeys : List (C.HostKey × Bytes × Bytes)}
  {floor : Nat} {keyBlob : Bytes} {k : Knock} {now : Nat} {src : IpAddr} {datagram : Bytes}
  {s t : Entry × Bucket}

/- An entry after a knock: its sig1 may be new in the cache, and the ACCEPT may be gone. -/
structure Follows (C : Crypto) (keyBlob : Bytes) (k : Knock) (e e' : Entry) : Prop where
  sig1 : ∀ sig∈e'.sig1Cache, sig∈e.sig1Cache ∨ sig=k.sig1 ∧ k.Identifies C keyBlob
  accept : e'.lastAccept=none ∨
    e'.lastAccept=e.lastAccept ∧ e'.lastKnockHash=e.lastKnockHash

theorem Follows.refl (C : Crypto) (keyBlob : Bytes) (k : Knock) (e : Entry) :
    Follows C keyBlob k e e := ⟨fun _ h => .inl h,.inr ⟨rfl,rfl⟩⟩

theorem Follows.of_record (h : Follows C keyBlob k s.1 t.1) {u : Entry × Bucket}
    (hu : record u=record t) : Follows C keyBlob k s.1 u.1 := by
  simp only [record,Prod.mk.injEq] at hu
  obtain ⟨hcache,-,hhash,haccept⟩ := hu
  refine ⟨?_,?_⟩
  · rw [hcache]
    exact h.sig1
  · rw [haccept,hhash]
    exact h.accept

theorem total_both {x y : Admission Bool} (hx : Total x) (hy : Total y) : Total (both x y) :=
  hx.bind fun _ => .ite hy (total_pure false)

theorem total_takeVerify : Total (takeVerify now) := fun s => ⟨(s.2.take now).1,_,rfl⟩

theorem total_takeNewsig1 : Total (takeNewsig1 now) := fun s => ⟨(s.1.newsig1.take now).1,_,rfl⟩

theorem total_takeAll : Total (takeAll cfg src now) := by
  refine Total.bind (fun s => ⟨(s.1.takeKnockBucket cfg src now).1,_,rfl⟩) fun p => ?_
  refine .get_bind fun s => Total.bind (total_both (total_pure p.1) ?_) fun ok => total_pure _
  refine total_both (.ite (total_pure true) fun s => ?_) total_takeVerify
  exact ⟨(s.1.newPrefix.take now).1,_,rfl⟩

/- A sig1 that verifies or that the entry has seen. -/
def Known (C : Crypto) (keyBlob : Bytes) (k : Knock) (e : Entry) : Prop :=
  k.sig1∈e.sig1Cache ∨ k.Identifies C keyBlob

theorem checkSig1_meets : Meets (checkSig1 C cfg keyBlob k now) s fun r t =>
    Follows C keyBlob k s.1 t.1 ∧ t.1.lastKnockHash=s.1.lastKnockHash ∧
      t.1.lastAccept=s.1.lastAccept ∧
      (r = .ok () ∧ Known C keyBlob k s.1 ∨ ∃ reason, r = .error (.drop reason)) := by
  refine .get_bind (.ite_of (fun hin => ?_) fun _ => ?_)
  · refine ⟨⟨fun sig hsig => ?_,.inr ⟨rfl,rfl⟩⟩,rfl,rfl,.inl ⟨rfl,.inl hin⟩⟩
    rcases mem_cons.1 hsig with rfl | hsig
    · exact .inl hin
    · exact .inl (mem_of_mem_erase hsig)
  · have hkeeps : Keeps record (both (takeNewsig1 now) (takeVerify now)) :=
      keeps_both (fun _ => rfl) fun _ => rfl
    obtain ⟨ok,t,hok⟩ := total_both total_takeNewsig1 total_takeVerify s
    have ht : record t=record s := by rw [← hkeeps s,hok]
    have hfollows := (Follows.refl C keyBlob k s.1).of_record ht
    simp only [record,Prod.mk.injEq] at ht
    obtain ⟨hcache,-,hhash,haccept⟩ := ht
    refine .bind_of_ok hok (.ite_of (fun _ => ⟨hfollows,hhash,haccept,.inr ⟨_,rfl⟩⟩) fun _ => ?_)
    cases hv : verify C keyBlob nsKnockId (knockIdMessage k.user k.keyFp) k.sig1 with
    | error _ => exact ⟨hfollows,hhash,haccept,.inr ⟨_,rfl⟩⟩
    | ok _ =>
      refine ⟨⟨fun sig hsig => ?_,.inr ⟨haccept,hhash⟩⟩,hhash,haccept,.inl ⟨rfl,.inr hv⟩⟩
      rcases mem_cons.1 (mem_of_mem_take hsig) with rfl | hsig
      · exact .inr ⟨rfl,hv⟩
      · exact .inl (hcache ▸ hsig)

/- The pending accept of a knock. -/
structure Grants (C : Crypto) (k : Knock) (datagram : Bytes) (p : PendingAccept) : Prop where
  user : p.user=k.user
  keyFp : p.keyFp=k.keyFp
  hash : p.knockHash=knockHash C datagram
  length : p.knockLen=datagram.length

/- What stands behind an answer other than a drop, given the entry of the knock's key. -/
def Earned (C : Crypto) (keyBlob : Bytes) (k : Knock) (datagram : Bytes) (e : Entry) :
    Except Refusal PendingAccept → Prop
  | .ok p => Known C keyBlob k e ∧ k.Signed C keyBlob ∧ Grants C k datagram p
  | .error (.resend bytes) => Known C keyBlob k e ∧ knockHash C datagram=e.lastKnockHash ∧
      ∃ expiry, e.lastAccept=some (bytes,expiry)
  | .error (.drop _) => True

theorem retransmit_meets (hknown : Known C keyBlob k s.1)
    (hhash : knockHash C datagram=t.1.lastKnockHash)
    (hlast : t.1.lastKnockHash=s.1.lastKnockHash) (haccept : t.1.lastAccept=s.1.lastAccept) :
    Meets (retransmit cfg src now) t fun r u =>
      record u=record t ∧ Earned C keyBlob k datagram s.1 r := by
  refine ⟨keeps_retransmit (fun _ _ _ => rfl) t,?_⟩
  simp only [retransmit,get_bind]
  cases h : t.1.lastAccept with
  | none => trivial
  | some a =>
    dsimp only
    split
    · rw [bind_apply]
      dsimp only [takeKnock]
      split
      · trivial
      · exact ⟨hknown,hhash.trans hlast,_,haccept.symm.trans h⟩
    · trivial

theorem settle_meets {slot : Nat} (hknown : Known C keyBlob k s.1)
    (hs : Follows C keyBlob k s.1 t.1) :
    Meets (settle C cfg hostKeys keyBlob k slot datagram) t fun r u =>
      Follows C keyBlob k s.1 u.1 ∧ Earned C keyBlob k datagram s.1 r := by
  rw [settle]
  cases hv : verify C keyBlob nsKnock k.signed k.sig2 with
  | error _ => exact ⟨hs,trivial⟩
  | ok _ =>
    have hconsumed (e : Entry) (hcache : e.sig1Cache=t.1.sig1Cache)
        (haccept : e.lastAccept=none) : Follows C keyBlob k s.1 e :=
      ⟨hcache ▸ hs.sig1,.inl haccept⟩
    refine .modify_bind (.get_bind (.ite_of (fun _ => ⟨hconsumed _ rfl rfl,trivial⟩) fun _ => ?_))
    split
    · exact ⟨hconsumed _ rfl rfl,trivial⟩
    · exact ⟨hconsumed _ rfl rfl,hknown,hv,rfl,rfl,rfl,rfl⟩

/-- Steps 4 to 11. -/
theorem grant_meets : Meets (grant cfg hostKeys floor keyBlob k now src datagram) s fun r t =>
      Follows C keyBlob k s.1 t.1 ∧ Earned C keyBlob k datagram s.1 r := by
  refine .bind checkSig1_meets (fun _ t ht => ?_) fun e t ht => ?_
  · obtain ⟨hfollows,hhash,haccept,⟨-,hknown⟩ | ⟨_,hdrop⟩⟩ := ht
    · refine .get_bind (.ite_of (fun hsame => ?_) fun _ => .ite_of (fun _ => ?_) fun _ => ?_)
      · exact (retransmit_meets hknown hsame.2 hhash haccept).mono fun r u hu =>
          ⟨hfollows.of_record hu.1,hu.2⟩
      · exact ⟨hfollows,trivial⟩
      · obtain ⟨p,u,hp⟩ := @total_takeAll cfg now src t
        have hu : record u=record t := by rw [← unmetered_record.takeAll t,hp]
        refine .bind_of_ok hp (.ite_of (fun _ => ?_) fun _ => ?_)
        · exact ⟨hfollows.of_record hu,trivial⟩
        · exact settle_meets hknown (hfollows.of_record hu)
    · cases hdrop
  · obtain ⟨hfollows,-,-,⟨hok,-⟩ | ⟨reason,hdrop⟩⟩ := ht
    · cases hok
    · cases hdrop
      exact ⟨hfollows,trivial⟩

end Admission

namespace KnockState
variable {C : Crypto} {ask : Answers} {now : Nat} {src : IpAddr} {user : Str}
  {s s' : KnockState C}

theorem keyTable_lookup {blobs : List Bytes} {fp blob : Bytes}
    (h : (keyTable C blobs).lookup fp=some blob) : C.sha256 blob=fp ∧ blob∈blobs := by
  have hfold : ∀ (l : List Bytes) (t : AList fun _ : Bytes => Bytes),
      (l.foldl (fun t b => t.insert (keyFp C b) b) t).lookup fp=some blob →
      t.lookup fp=some blob ∨ keyFp C blob=fp ∧ blob∈l := by
    intro l
    induction l with
    | nil => exact fun t h => .inl h
    | cons b l ih =>
      intro t h
      rcases ih _ h with h | ⟨hfp,hmem⟩
      · by_cases hb : fp=keyFp C b
        · rw [hb,AList.lookup_insert,Option.some.injEq] at h
          exact .inr ⟨h ▸ hb.symm,h ▸ mem_cons_self⟩
        · rw [AList.lookup_insert_ne hb] at h
          exact .inl h
      · exact .inr ⟨hfp,mem_cons_of_mem b hmem⟩
  rcases hfold _ _ h with h | ⟨hfp,hmem⟩
  · simp at h
  · exact ⟨hfp,(mem_filter.1 hmem).1⟩

/- No entry is new, and no key but those of the answer. -/
structure Draws (blobs : List Bytes) (s s' : KnockState C) : Prop where
  entries : ∀ key e, s'.entries key=some e → s.entries key=some e
  cached : ∀ key blob, s'.cached key=some blob →
    s.cached key=some blob ∨ C.sha256 blob=key.2 ∧ blob∈blobs

namespace Draws
variable {blobs : List Bytes}

theorem refl : Draws blobs s s := ⟨fun _ _ h => h,fun _ _ h => .inl h⟩

theorem retain {keep : Str × Bytes → Bool} : Draws blobs s (s.retain keep) := by
  refine ⟨fun key e h => ?_,fun _ _ h => .inl h⟩
  simp only [KnockState.retain] at h
  split at h
  · exact h
  · cases h

theorem erase : Draws blobs s { s with keyCache := s.keyCache.erase user } := by
  refine ⟨fun _ _ h => h,fun key blob h => ?_⟩
  rw [KnockState.cached] at h
  by_cases hu : key.1=user
  · rw [hu,AList.lookup_erase] at h
    cases h
  · rw [AList.lookup_erase_ne hu] at h
    exact .inl h

theorem trans {s₁ : KnockState C} (h : Draws blobs s s₁) (h' : Draws blobs s₁ s') :
    Draws blobs s s' :=
  ⟨fun key e he => h.entries key e (h'.entries key e he),fun key blob hb =>
    (h'.cached key blob hb).elim (h.cached key blob) .inr⟩

theorem forget : Draws blobs s (s.forget user) := by
  rw [KnockState.forget]
  split
  · exact erase.trans retain
  · exact refl

theorem evict : Draws blobs s s.evictUser := by
  rw [evictUser]
  split
  · exact erase
  · exact refl

theorem reload : Draws blobs s (s.reload user (keyTable C blobs) now) := by
  have hretain : Draws blobs s (s.retain fun key =>
      key.1≠user || ((keyTable C blobs).lookup key.2).isSome) := retain
  refine ⟨hretain.entries,fun key blob h => ?_⟩
  rw [KnockState.cached,KnockState.reload] at h
  by_cases hu : key.1=user
  · rw [hu,AList.lookup_insert] at h
    exact .inr (keyTable_lookup h)
  · rw [AList.lookup_insert_ne hu] at h
    exact .inl h

end Draws

/- The key blobs that `load_user_keys` gets to see. -/
def heard (ask : Answers) (user : Str) (src : IpAddr) (now : Nat) (s : KnockState C) : List Bytes :=
  if (s.told ask user src now).isSome then ask.keysFor else []

theorem loadUserKeys_draws :
    Draws (s.heard ask user src now) s (s.loadUserKeys ask user src now).2 := by
  rw [loadUserKeys,heard,told,takeLookup_eq]
  split
  · exact .refl
  split
  · exact .forget
  have hcharged (blobs : List Bytes) (lookups : Bucket)
      (prefixLookups : AList fun _ : Bytes => Bucket × Nat) :
      Draws blobs s { s with lookups, prefixLookups } := ⟨fun _ _ h => h,fun _ _ h => .inl h⟩
  cases (s.takePrefixLookup src now).1 && (s.lookups.take now).1 with
  | false => exact hcharged _ _ _
  | true =>
    rw [if_pos rfl,Option.isSome_some,if_pos rfl]
    dsimp only
    split
    · exact ((hcharged _ _ _).trans .evict).trans .reload
    · exact (hcharged _ _ _).trans .reload

variable {coins : C.Coins} {p : PendingAccept} {port : UInt16}

theorem complete_length {done : CompletedAccept} (h : (s.complete p coins port now).1 = .ok done) :
    done.datagram.length≤p.knockLen := by
  rcases hrun : completeInner p coins port now s with ⟨r,t⟩
  rw [complete,hrun] at h
  cases r with
  | error _ => cases h
  | ok done' =>
    cases h
    exact (completeInner_meets.apply hrun).2 done rfl

end KnockState

/-- A state with the accepts it handed out, each with its datagram, and with the datagrams and key
blobs it was given. -/
structure Session (C : Crypto) where
  state : KnockState C
  granted : List (Bytes × PendingAccept)
  hashed : List Bytes

def Verdict.isDrop : Verdict → Bool
  | .drop _ => true
  | _ => false

def newlyGranted (datagram : Bytes) : Verdict → List (Bytes × PendingAccept)
  | .accept p => [(datagram,p)]
  | _ => []

namespace Session
variable {C : Crypto} {c c' : Session C} {key : Str × Bytes} {e e' : Entry}

def start (s : KnockState C) : Session C := { state := s, granted := [], hashed := [] }

def next (c : Session C) (op : Op C) : KnockState C := (History.start c.state).next op

/- The blobs that the key source gives out during a call. -/
def blobs (c : Session C) (ask : Answers) (now : Nat) (src : IpAddr) (datagram : Bytes) :
    List Bytes :=
  if ((History.start c.state).answer (.handle ask now src datagram)).isSome then ask.keysFor else []

def step (c : Session C) (op : Op C) : Session C :=
  match op with
  | .handle ask now src datagram =>
    { state := c.next op
      granted := newlyGranted datagram (c.state.handle ask now src datagram).1++c.granted
      hashed := datagram::(c.blobs ask now src datagram++c.hashed) }
  | _ => { c with state := c.next op }

/- `complete` is called with an accept that `handle` gave out. -/
def Genuine (c : Session C) : Op C → Prop
  | .complete p _ _ _ => ∃ datagram, (datagram,p)∈c.granted
  | _ => True

inductive Reaches (s : KnockState C) : Session C → Prop
  | start : Reaches s (start s)
  | step {c : Session C} (h : Reaches s c) (op : Op C) (hop : c.Genuine op) : Reaches s (c.step op)

/- An entry rests on what was verified before: its cached sig1s under a key with its fingerprint,
   its ACCEPT by a knock that was granted. -/
structure Backed (granted : List (Bytes × PendingAccept)) (hashed : List Bytes)
    (C : Crypto) (key : Str × Bytes) (e : Entry) : Prop where
  sig1 : ∀ sig∈e.sig1Cache, ∃ blob∈hashed, C.sha256 blob=key.2 ∧
    verify C blob nsKnockId (knockIdMessage key.1 key.2) sig = .ok ()
  accept : ∀ bytes expiry, e.lastAccept=some (bytes,expiry) →
    ∃ datagram p, (datagram,p)∈granted ∧ (p.user,p.keyFp)=key ∧
      p.knockHash=e.lastKnockHash ∧ bytes.length≤p.knockLen

/- An accept was given out for a knock that was signed. -/
def Due (hashed : List Bytes) (C : Crypto) (datagram : Bytes) (p : PendingAccept) : Prop :=
  datagram∈hashed ∧ ∃ k blob, Knock.parse datagram = .ok k ∧ Admission.Grants C k datagram p ∧
    blob∈hashed ∧ C.sha256 blob=k.keyFp ∧ k.Signed C blob

structure Vouches (c : Session C) : Prop where
  cached : ∀ key blob, c.state.cached key=some blob →
    C.sha256 blob=key.2 ∧ blob∈c.hashed
  entries : ∀ key e, c.state.entries key=some e → Backed c.granted c.hashed C key e
  granted : ∀ datagram p, (datagram,p)∈c.granted → Due c.hashed C datagram p

variable {granted : List (Bytes × PendingAccept)} {hashed hashed' : List Bytes} {datagram : Bytes}
  {p : PendingAccept} {k : Knock} {now : Nat} {ask : Answers} {src : IpAddr}

theorem Backed.mono {granted' : List (Bytes × PendingAccept)} (h : Backed granted hashed C key e)
    (hgranted : ∀ x∈granted, x∈granted') (hhashed : ∀ x∈hashed, x∈hashed') :
    Backed granted' hashed' C key e := by
  refine ⟨fun sig hsig => ?_,fun bytes expiry haccept => ?_⟩
  · obtain ⟨blob,hblob,hrest⟩ := h.sig1 sig hsig
    exact ⟨blob,hhashed blob hblob,hrest⟩
  · obtain ⟨datagram,p,hp,hrest⟩ := h.accept bytes expiry haccept
    exact ⟨datagram,p,hgranted _ hp,hrest⟩

theorem Due.mono (h : Due hashed C datagram p) (hhashed : ∀ x∈hashed, x∈hashed') :
    Due hashed' C datagram p := by
  obtain ⟨hd,k,blob,hparse,hgrants,hblob,hrest⟩ := h
  exact ⟨hhashed _ hd,k,blob,hparse,hgrants,hhashed _ hblob,hrest⟩

theorem Backed.follows {blob : Bytes} (h : Backed granted hashed C (k.user,k.keyFp) e)
    (hblob : blob∈hashed) (hfp : C.sha256 blob=k.keyFp) (hf : Admission.Follows C blob k e e') :
    Backed granted hashed C (k.user,k.keyFp) e' := by
  refine ⟨fun sig hsig => ?_,fun bytes expiry haccept => ?_⟩
  · rcases hf.sig1 sig hsig with hold | ⟨rfl,hid⟩
    · exact h.sig1 sig hold
    · exact ⟨blob,hblob,hfp,hid⟩
  · rcases hf.accept with hnone | ⟨hsame,hhash⟩
    · rw [hnone] at haccept
      cases haccept
    · rw [hhash]
      exact h.accept bytes expiry (hsame ▸ haccept)

/- A state that differs in one entry. -/
theorem Vouches.put {s' : KnockState C} (h : c.Vouches)
    (hentries : ∀ key', s'.entries key'=if key'=key then some e else c.state.entries key')
    (hcached : ∀ key, s'.cached key=c.state.cached key)
    (hentry : Backed c.granted c.hashed C key e) :
    ({ c with state := s' } : Session C).Vouches := by
  refine ⟨fun key' blob hb => h.cached key' blob (hcached key' ▸ hb),fun key' e' he' => ?_,h.granted⟩
  rw [hentries key'] at he'
  split at he'
  · next heq =>
    cases he'
    exact heq ▸ hentry
  · exact h.entries key' e' he'

theorem Vouches.releasePending (h : c.Vouches) (user : Str) (fp : Bytes) :
    ({ c with state := c.state.releasePending user fp } : Session C).Vouches := by
  rw [KnockState.releasePending]
  split
  · next e he =>
    have hbacked := h.entries _ e he
    exact h.put (fun _ => rfl) (fun _ => rfl) ⟨hbacked.sig1,hbacked.accept⟩
  · exact h

theorem Vouches.complete (h : c.Vouches) {coins : C.Coins} {port : UInt16}
    (hp : (datagram,p)∈c.granted) :
    ({ c with state := (c.state.complete p coins port now).2 } : Session C).Vouches := by
  rcases hrun : completeInner p coins port now c.state with ⟨r,t⟩
  have hinner := completeInner_meets.apply hrun
  have ht : ({ c with state := t } : Session C).Vouches := by
    rcases hinner.1 with rfl | ⟨e,bytes,expiry,he,hhash,hlen,rfl⟩
    · exact h
    · have hbacked := h.entries _ e he
      refine h.put (fun _ => rfl) (fun _ => rfl) ⟨hbacked.sig1,?_⟩
      rintro bytes' expiry' ⟨⟩
      exact ⟨datagram,p,hp,rfl,hhash.symm,hlen⟩
  rw [KnockState.complete,hrun]
  cases r with
  | ok _ => exact ht
  | error _ => exact ht.releasePending p.user p.keyFp

/- The datagram and the blobs of a call, before its verdict is recorded. -/
def given (c : Session C) (ask : Answers) (now : Nat) (src : IpAddr) (datagram : Bytes) :
    Session C :=
  { c with hashed := datagram::(c.blobs ask now src datagram++c.hashed) }

theorem Vouches.given (h : c.Vouches) (ask : Answers) (now : Nat) (src : IpAddr)
    (datagram : Bytes) : (c.given ask now src datagram).Vouches := by
  have hhashed : ∀ x∈c.hashed, x∈(c.given ask now src datagram).hashed := fun x hx =>
    mem_cons_of_mem _ (mem_append_right _ hx)
  refine ⟨fun key blob hb => ?_,fun key e he => ?_,fun d p hp => ?_⟩
  · exact ⟨(h.cached key blob hb).1,hhashed _ (h.cached key blob hb).2⟩
  · exact (h.entries key e he).mono (fun _ hx => hx) hhashed
  · exact (h.granted d p hp).mono hhashed

/- Looking up the keys of a user. -/
theorem Vouches.load (h : c.Vouches) (hparse : Knock.parse datagram = .ok k)
    (hclock : absDiff k.nonce.toNat now≤c.state.cfg.clockSkewMs) :
    ({ c.given ask now src datagram with
      state := (c.state.loadUserKeys ask k.user src now).2 } : Session C).Vouches := by
  have hgiven := h.given ask now src datagram
  have hblobs : c.blobs ask now src datagram=c.state.heard ask k.user src now := by
    have hanswer : (History.start c.state).answer (.handle ask now src datagram) =
        (c.state.told ask k.user src now).map (k.user,·) := by
      simp only [History.answer,hparse]
      exact if_neg (not_lt.2 hclock)
    rw [blobs,heard,hanswer,Option.isSome_map]
  have hdraws : KnockState.Draws (c.state.heard ask k.user src now) c.state _ :=
    loadUserKeys_draws
  refine ⟨fun key blob hb => ?_,fun key e he => ?_,hgiven.granted⟩
  · rcases hdraws.cached key blob hb with hold | ⟨hfp,hin⟩
    · exact hgiven.cached key blob hold
    · refine ⟨hfp,mem_cons_of_mem _ (mem_append_left _ ?_)⟩
      rw [hblobs]
      exact hin
  · exact hgiven.entries key e (hdraws.entries key e he)

theorem Vouches.entryFor (h : c.Vouches) (key : Str × Bytes) (now : Nat) :
    Backed c.granted c.hashed C key (c.state.entryFor key now) := by
  rw [KnockState.entryFor]
  cases he : c.state.entries key with
  | none =>
    refine ⟨fun sig hsig => ?_,fun bytes expiry haccept => ?_⟩
    · cases hsig
    · cases haccept
  | some e => exact h.entries key e he

/- A verdict other than a drop, with what it rests on. -/
def Deserved (c : Session C) (datagram : Bytes) (now : Nat) (hashed : List Bytes)
    (out : Verdict × KnockState C) : Prop :=
  ∃ k blob r e, Knock.parse datagram = .ok k ∧
    absDiff k.nonce.toNat now≤c.state.cfg.clockSkewMs ∧
    out.2.cached (k.user,k.keyFp)=some blob ∧ out.1=verdictOf r ∧
    Backed c.granted hashed C (k.user,k.keyFp) e ∧ Admission.Earned C blob k datagram e r

/-- One datagram keeps the invariant. -/
theorem Vouches.treated (h : c.Vouches) {out : Verdict × KnockState C}
    {checks : List ((Str × Bytes) × Check)} {asked : Bool}
    (hout : KnockState.Treated c.state ask now src datagram out.1 checks asked out.2) :
    ({ c.given ask now src datagram with
      state := out.2, granted := newlyGranted datagram out.1++c.granted } : Session C).Vouches ∧
    (out.1.isDrop=true ∨ c.Deserved datagram now (c.given ask now src datagram).hashed out) := by
  obtain ⟨verdict,s'⟩ := out
  cases hout with
  | early reason _ => exact ⟨h.given ask now src datagram,.inl rfl⟩
  | unknown reason hparse hclock => exact ⟨h.load hparse hclock,.inl rfl⟩
  | @judged k s₁ keyBlob r t hparse hclock hload hcached hgrant =>
    have hs₁ : ({ c.given ask now src datagram with
        state := (c.state.loadUserKeys ask k.user src now).2 } : Session C).Vouches :=
      h.load hparse hclock
    rw [hload] at hs₁
    have hbacked := hs₁.entryFor (k.user,k.keyFp) now
    obtain ⟨hfp,hblob⟩ := hs₁.cached _ _ hcached
    obtain ⟨hfollows,hearned⟩ := Admission.grant_meets.apply hgrant
    have hput : ({ c.given ask now src datagram with
        state := { s₁.putEntry (k.user,k.keyFp) t.1 with verify := t.2 } } : Session C).Vouches :=
      hs₁.put (fun _ => rfl) (fun _ => rfl) (hbacked.follows hblob hfp hfollows)
    have hdeserved : c.Deserved datagram now (c.given ask now src datagram).hashed
        (verdictOf r,{ s₁.putEntry (k.user,k.keyFp) t.1 with verify := t.2 }) :=
      ⟨k,keyBlob,r,_,hparse,hclock,hcached,rfl,hbacked,hearned⟩
    refine ⟨?_,.inr hdeserved⟩
    rcases r with (_ | _) | p
    · exact hput
    · exact hput
    · -- the only verdict that hands something out
      have hdue : Due (c.given ask now src datagram).hashed C datagram p :=
        ⟨mem_cons_self,k,keyBlob,hparse,hearned.2.2,hblob,hfp,hearned.2.1⟩
      refine ⟨hput.cached,fun key e he => ?_,fun d q hq => ?_⟩
      · exact (hput.entries key e he).mono (fun x hx => mem_cons_of_mem _ hx) fun _ hx => hx
      · rcases mem_cons.1 hq with heq | hq
        · cases heq
          exact hdue
        · exact hput.granted d q hq

theorem Reaches.vouches {cfg : KnockServerConfig} {hostKeys : List C.HostKey} {t₀ : Nat}
    (h : Reaches (.new cfg hostKeys t₀) c) : c.Vouches := by
  induction h with
  | start =>
    refine ⟨fun key blob hb => ?_,nofun,nofun⟩
    simp [Session.start,new,cached] at hb
  | @step c h op hop ih =>
    cases op with
    | handle ask now src datagram =>
      exact (ih.treated (c.state.handle_treated ask now src datagram)).1
    | complete p coins port now =>
      obtain ⟨datagram,hp⟩ := hop
      exact ih.complete hp
    | releasePending user fp => exact ih.releasePending user fp
    | setKeySource =>
      refine ⟨fun key blob hb => ?_,ih.entries,ih.granted⟩
      simp [Session.step,next,History.next,setKeySource,cached] at hb
    | invalidateKeys user =>
      cases user with
      | none =>
        refine ⟨fun key blob hb => ?_,ih.entries,ih.granted⟩
        simp [Session.step,next,History.next,invalidateKeys,cached] at hb
      | some u =>
        have herase : KnockState.Draws [] c.state
            { c.state with keyCache := c.state.keyCache.erase u } := .erase
        refine ⟨fun key blob hb => ?_,ih.entries,ih.granted⟩
        rcases herase.cached key blob hb with hold | ⟨-,hin⟩
        · exact ih.cached key blob hold
        · cases hin

section Injective
variable {hashed : List Bytes} {k : Knock} {blob datagram : Bytes}

/- A fingerprint names one blob of the run. -/
theorem Backed.identifies (hinj : Set.InjOn C.sha256 { x | x∈hashed })
    (hb : Backed c.granted hashed C (k.user,k.keyFp) e) (hblob : blob∈hashed)
    (hfp : C.sha256 blob=k.keyFp) (hknown : Admission.Known C blob k e) :
    k.Identifies C blob := by
  rcases hknown with hin | hid
  · obtain ⟨blob',hblob',hfp',hverify⟩ := hb.sig1 _ hin
    obtain rfl := hinj hblob' hblob (hfp'.trans hfp.symm)
    exact hverify
  · exact hid

/- A hash names one datagram of the run: the ACCEPT that is sent again answers this very one. -/
theorem Backed.signed (hinj : Set.InjOn C.sha256 { x | x∈hashed })
    (hb : Backed c.granted hashed C (k.user,k.keyFp) e)
    (hdue : ∀ d p, (d,p)∈c.granted → Due hashed C d p) (hparse : Knock.parse datagram = .ok k)
    (hdatagram : datagram∈hashed) (hblob : blob∈hashed) (hfp : C.sha256 blob=k.keyFp)
    {bytes : Bytes} (hhash : knockHash C datagram=e.lastKnockHash)
    (haccept : ∃ expiry, e.lastAccept=some (bytes,expiry)) :
    k.Signed C blob ∧ bytes.length≤datagram.length := by
  obtain ⟨expiry,haccept⟩ := haccept
  obtain ⟨d,p,hp,-,hpHash,hlen⟩ := hb.accept bytes expiry haccept
  obtain ⟨hd,k',blob',hparse',hgrants,hblob',hfp',hsigned⟩ := hdue d p hp
  obtain rfl : d=datagram :=
    hinj hd hdatagram (hgrants.hash.symm.trans (hpHash.trans hhash.symm))
  obtain rfl : k'=k := Except.ok.inj (hparse'.symm.trans hparse)
  obtain rfl := hinj hblob' hblob (hfp'.trans hfp.symm)
  exact ⟨hsigned,hgrants.length ▸ hlen⟩

end Injective

/-- Whenever a datagram is answered, it is a knock in time, both signatures verify under a key that
the user's cached keys hold under its fingerprint, and what is sent back is no longer than the
datagram. -/
theorem answers_authenticated_knocks {cfg : KnockServerConfig} {hostKeys : List C.HostKey}
    {t₀ : Nat} (h : Reaches (.new cfg hostKeys t₀) c) (ask : Answers) (now : Nat) (src : IpAddr)
    (d : Bytes) (hinj : Set.InjOn C.sha256 { x | x∈(c.step (.handle ask now src d)).hashed })
    (hanswer : (c.state.handle ask now src d).1.isDrop=false) : ∃ k blob, Knock.parse d = .ok k ∧
      absDiff k.nonce.toNat now≤c.state.cfg.clockSkewMs ∧
      (c.state.handle ask now src d).2.cached (k.user,k.keyFp)=some blob ∧
      C.sha256 blob=k.keyFp ∧
      verify C blob nsKnockId (knockIdMessage k.user k.keyFp) k.sig1 = .ok () ∧
      verify C blob nsKnock k.signed k.sig2 = .ok () ∧
      (∀ bytes, (c.state.handle ask now src d).1 = .resend bytes → bytes.length≤d.length) ∧
      ∀ p, (c.state.handle ask now src d).1 = .accept p →
        ∀ (s : KnockState C) (coins : C.Coins) (port : UInt16) (t : Nat) (done : CompletedAccept),
          (s.complete p coins port t).1 = .ok done → done.datagram.length≤d.length := by
  obtain ⟨hnext,hdrop | ⟨k,blob,r,e,hparse,hclock,hcached,hr,hbacked,hearned⟩⟩ :=
    h.vouches.treated (c.state.handle_treated ask now src d)
  · rw [hanswer] at hdrop
    cases hdrop
  have hdue := (h.vouches.given ask now src d).granted
  obtain ⟨hfp,hblob⟩ := hnext.cached _ _ hcached
  refine ⟨k,blob,hparse,hclock,hcached,hfp,?_⟩
  rw [hr]
  rcases r with (_ | bytes) | p
  · rw [hr] at hanswer
    cases hanswer
  · obtain ⟨hknown,hhash,haccept⟩ := hearned
    obtain ⟨hsigned,hlen⟩ := hbacked.signed hinj hdue hparse mem_cons_self hblob hfp hhash haccept
    refine ⟨hbacked.identifies hinj hblob hfp hknown,hsigned,?_,nofun⟩
    rintro bytes' ⟨⟩
    exact hlen
  · obtain ⟨hknown,hsigned,hgrants⟩ := hearned
    refine ⟨hbacked.identifies hinj hblob hfp hknown,hsigned,nofun,?_⟩
    rintro q ⟨⟩ s coins port t done hdone
    rw [← hgrants.length]
    exact complete_length hdone

/- Opens a listener for the accept that was handed out last. -/
def completeLast (coins : C.Coins) (port : UInt16) (now : Nat) (c : Session C) : Session C :=
  match c.granted with
  | (_,p)::_ => c.step (.complete p coins port now)
  | [] => c

theorem Reaches.completeLast {s : KnockState C} (h : Reaches s c) (coins : C.Coins) (port : UInt16)
    (now : Nat) : Reaches s (c.completeLast coins port now) := by
  rw [Session.completeLast]
  split
  · next d p rest hgranted =>
    have hin : (d,p)∈c.granted := hgranted ▸ mem_cons_self
    exact h.step (.complete p coins port now) ⟨d,hin⟩
  · exact h

section Resent
open Sample

/- A hash that tells a knock from the key it is made with. -/
def sized : Crypto := { crypto with sha256 := fun b => (be32 (UInt32.ofNat b.length)++b).take 32 }

def knocking : Bytes :=
  [version,typeKnock,0,3]++user++keyFp sized userKey++writeStr16 userKey ++
    be64 100500++zeros++keyFp sized (sized.publicBlob ())++writeStr16 []++writeStr16 userKey

/- The knock comes in, its listener is opened. -/
def opened : Session sized :=
  ((start (.new .default [()] 90000)).step (.handle admits 100000 home knocking)).completeLast
    () 2222 100100

/-- The same knock once more is sent the ACCEPT again. -/
theorem answers_authenticated_knocks_resent :
    (opened.state.handle admits 100200 home knocking).1.isDrop=false ∧
    (opened.state.handle admits 100200 home knocking).1.isAccept=false ∧
    ∃ k blob, Knock.parse knocking = .ok k ∧ verify sized blob nsKnock k.signed k.sig2 = .ok () ∧
      ∀ bytes, (opened.state.handle admits 100200 home knocking).1 = .resend bytes →
        bytes.length≤knocking.length := by
  have hreaches : Reaches (.new .default [()] 90000) opened :=
    (Reaches.start.step (.handle admits 100000 home knocking) trivial).completeLast _ _ _
  have hanswer : (opened.state.handle admits 100200 home knocking).1.isDrop=false := by
    decide +kernel
  have hinj : ∀ x∈(opened.step (.handle admits 100200 home knocking)).hashed,
      ∀ y∈(opened.step (.handle admits 100200 home knocking)).hashed,
        sized.sha256 x=sized.sha256 y → x=y := by
    decide +kernel
  obtain ⟨k,blob,hparse,-,-,-,-,hsigned,hlen,-⟩ := answers_authenticated_knocks
    hreaches admits 100200 home knocking (fun x hx y hy => hinj x hx y hy) hanswer
  exact ⟨hanswer,by decide +kernel,k,blob,hparse,hsigned,hlen⟩

end Resent

end Session
end PureSsh.Knocking
