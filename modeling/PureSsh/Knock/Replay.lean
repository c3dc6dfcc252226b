import PureSsh.Knock.Treatment

/-! Which knocks a `KnockState` accepts over a whole history of calls. -/

namespace PureSsh.Knocking
open Lib Proc KnockState

namespace Admission
variable {C : Crypto} {cfg : KnockServerConfig} {hostKeys : List (C.HostKey × Bytes × Bytes)}
  {floor : Nat} {keyBlob : Bytes} {k : Knock} {now : Nat} {src : IpAddr} {datagram : Bytes}
  {e e' : Entry} {v v' : Bucket}

def nonce (s : Entry × Bucket) : Nat := s.1.lastNonce

/- What an entry remembers of earlier knocks, apart from the rate limits. -/
def record (s : Entry × Bucket) : List Bytes × Nat × Bytes × Option (Bytes × Nat) :=
  (s.1.sig1Cache,s.1.lastNonce,s.1.lastKnockHash,s.1.lastAccept)

theorem keeps_both {τ : Type} {view : Entry × Bucket → τ} {x y : Admission Bool}
    (hx : Keeps view x) (hy : Keeps view y) : Keeps view (both x y) := by
  refine hx.bind fun b => ?_
  split
  · exact hy
  · exact fun _ => rfl

section Slots
variable {τ : Type} {view : Entry × Bucket → τ}
  (h : ∀ e v slots, view ({ e with knockBuckets := slots },v)=view (e,v))
include h

theorem keeps_takeKnock : Keeps view (takeKnock cfg src now) := by
  intro s
  dsimp only [takeKnock,Entry.takeKnockBucket]
  split
  · exact h s.1 s.2 _
  · exact h s.1 s.2 _

theorem keeps_retransmit : Keeps view (retransmit cfg src now) := by
  refine Keeps.bind (fun _ => rfl) fun s => ?_
  dsimp only
  split
  · refine Keeps.ite ((keeps_takeKnock h).bind fun p => ?_) fun _ => rfl
    exact Keeps.ite (fun _ => rfl) fun _ => rfl
  · exact fun _ => rfl

end Slots

/- A view of an entry in which its rate limits do not show. -/
structure Unmetered {τ : Type} (view : Entry × Bucket → τ) : Prop where
  verify : ∀ e v v', view (e,v')=view (e,v)
  newsig1 : ∀ e v b, view ({ e with newsig1 := b },v)=view (e,v)
  newPrefix : ∀ e v b, view ({ e with newPrefix := b },v)=view (e,v)
  knockBuckets : ∀ e v slots, view ({ e with knockBuckets := slots },v)=view (e,v)

namespace Unmetered
variable {τ : Type} {view : Entry × Bucket → τ}

section
variable (h : Unmetered view)
include h

theorem takeVerify : Keeps view (takeVerify now) := fun s =>
  h.verify s.1 s.2 _

theorem takeNew : Keeps view ( takeNewprefix now) := fun s =>
  h.newPrefix s.1 s.2 _

theorem takeNewsig1 : Keeps view (takeNewsig1 now) := fun s =>
  h.newsig1 s.1 s.2 _

theorem checkSig1 (hcache : ∀ e v sigs, view ({ e with sig1Cache := sigs },v)=view (e,v)) :
    Keeps view (checkSig1 C cfg keyBlob k now) := by
  refine Keeps.bind (fun _ => rfl) fun s => ?_
  refine Keeps.ite (fun t => hcache t.1 t.2 _) ?_
  refine (keeps_both h.takeNewsig1 h.takeVerify).bind fun ok => ?_
  refine Keeps.ite (fun _ => rfl) ?_
  split
  · exact fun _ => rfl
  · exact fun t => hcache t.1 t.2 _

theorem takeAll : Keeps view (takeAll cfg src now) := by
  refine (keeps_takeKnock h.knockBuckets).bind fun p => Keeps.bind (fun _ => rfl) fun s => ?_
  refine Keeps.bind (keeps_both (fun _ => rfl) (keeps_both ?_ h.takeVerify)) fun _ _ => rfl
  split
  · exact fun _ => rfl
  · exact h.takeNew

end

end Unmetered

theorem unmetered_record : Unmetered record := ⟨fun _ _ _ => rfl,fun _ _ _ => rfl,
  fun _ _ _ => rfl,fun _ _ _ => rfl⟩

theorem unmetered_nonce : Unmetered nonce := ⟨fun _ _ _ => rfl,fun _ _ _ => rfl,
  fun _ _ _ => rfl,fun _ _ _ => rfl⟩

theorem keeps_checkSig1 : Keeps nonce (checkSig1 C cfg keyBlob k now) :=
  unmetered_nonce.checkSig1 fun _ _ _ => rfl

/- A retransmitted knock is answered from the cache or dropped, never accepted. -/
theorem retransmit_refuses (s : Entry × Bucket) :
    Meets (retransmit cfg src now) s fun r _ => ∀ p, r ≠ .ok p := by
  refine .get_bind ?_
  dsimp only
  split
  · refine .ite_of (fun _ => ?_) fun _ => nofun
    exact .bind_of_ok rfl (.ite_of (fun _ => nofun) fun _ => nofun)
  · exact nofun

/- From step 8 on the nonce is either untouched or that of the knock. -/
theorem settle_nonce {slot : Nat} (s : Entry × Bucket) :
    Meets (settle C cfg hostKeys keyBlob k slot datagram) s fun r t =>
      nonce t=k.nonce.toNat ∨ nonce t=nonce s ∧ ∀ p, r ≠ .ok p := by
  rw [settle]
  split
  · exact .inr ⟨rfl,nofun⟩
  · refine .modify_bind (.get_bind (.ite_of (fun _ => .inl rfl) fun _ => ?_))
    split
    · exact .inl rfl
    · exact .inl rfl

/-- No datagram lowers the nonce of the entry. A knock is accepted only with a nonce above the
entry's and not below the floor, and the entry then holds that nonce. -/
theorem grant_nonce (s : Entry × Bucket) :
    Meets (grant cfg hostKeys floor keyBlob k now src datagram) s fun r t => nonce s≤nonce t ∧
      ∀ p, r = .ok p → nonce s<k.nonce.toNat ∧ floor≤k.nonce.toNat ∧ nonce t=k.nonce.toNat := by
  refine .bind (keeps_checkSig1.meets s) (fun _ t ht => ?_) fun _ t ht => ⟨ht.ge,nofun⟩
  refine .get_bind (.ite_of (fun _ => ?_) fun _ => .ite_of (fun _ => ⟨ht.ge,nofun⟩) fun hfresh => ?_)
  · have hkeep : nonce (retransmit cfg src now t).2=nonce t := keeps_retransmit (fun _ _ _ => rfl) t
    exact ⟨(hkeep.trans ht).ge,fun p hp => absurd hp (retransmit_refuses t p)⟩
  · refine .bind (unmetered_nonce.takeAll.meets t) (fun _ u hu => ?_) fun _ u hu =>
      ⟨(hu.trans ht).ge,nofun⟩
    refine .ite_of (fun _ => ⟨(hu.trans ht).ge,nofun⟩) fun _ => (settle_nonce u).mono ?_
    rintro r v (hv | ⟨hv,hr⟩)
    · change t.1.lastNonce=nonce s at ht
      exact ⟨by omega,fun _ _ => ⟨by omega,by omega,hv⟩⟩
    · exact ⟨(hv.trans (hu.trans ht)).ge,fun p hp => absurd hp (hr p)⟩

end Admission

namespace KnockState
variable {C : Crypto} {ask : Answers} {now : Nat} {src : IpAddr} {user : Str}
  {s s' : KnockState C} {key : Str × Bytes}

/-- The nonce of the last knock that the entry of a key consumed; 0 without an entry. -/
def consumed (key : Str × Bytes) (s : KnockState C) : Nat :=
  ((s.entries key).map (·.lastNonce)).getD 0

/-- What the key source tells `load_user_keys`, if it is asked: which fingerprints may knock. -/
def told (ask : Answers) (user : Str) (src : IpAddr) (now : Nat) (s : KnockState C) :
    Option (Bytes → Bool) :=
  if s.isFresh user now then none
  else if !ask.mayKnock then some fun _ => false
  else if (s.takeLookup src now).1 then
    some fun fp => ((keyTable C ask.keysFor).lookup fp).isSome
  else none

/- A lookup is charged to the two rate limits; nothing else changes. -/
theorem takeLookup_eq : s.takeLookup src now =
    ((s.takePrefixLookup src now).1 && (s.lookups.take now).1,{ s with
      lookups := if (s.takePrefixLookup src now).1 then (s.lookups.take now).2 else s.lookups
      prefixLookups := (s.takePrefixLookup src now).2.prefixLookups }) := by
  have hp : ∃ p, (s.takePrefixLookup src now).2 = { s with prefixLookups := p } := ⟨_,rfl⟩
  rw [takeLookup]
  rcases h : s.takePrefixLookup src now with ⟨ok,t⟩
  rw [h] at hp
  obtain ⟨p,rfl⟩ := hp
  cases ok <;> rfl

theorem evictUser_shrinks : ∃ keyCache : AList fun _ : Str => CachedKeys,
    s.evictUser = { s with keyCache } ∧ ∀ u c, keyCache.lookup u=some c →
      s.keyCache.lookup u=some c := by
  rw [evictUser]
  split
  · next victim _ =>
    refine ⟨s.keyCache.erase victim.1,rfl,fun u c h => ?_⟩
    by_cases hu : u=victim.1
    · rw [hu,AList.lookup_erase] at h
      cases h
    · rwa [AList.lookup_erase_ne hu] at h
  · exact ⟨s.keyCache,rfl,fun u c h => h⟩

/-- What `load_user_keys` can do. Without an answer of the key source only the rate limits move.
An answer drops the entries of the user's keys that it leaves out, if any, and no such key is
cached afterwards. -/
structure Loads (user : Str) (told : Option (Bytes → Bool)) (s s' : KnockState C) : Prop where
  floor : s'.nonceFloor=s.nonceFloor
  cfg : s'.cfg=s.cfg
  kept : ∀ key, (∀ a, told=some a → key.1=user → a key.2) → s'.entries key=s.entries key
  cached : ∀ key, (s'.cached key).isSome →
    (∀ a, told=some a → key.1=user → a key.2) ∧
      ((s.cached key).isSome ∨ ∃ a, told=some a ∧ key.1=user)

namespace Loads

theorem refl : Loads user none s s :=
  ⟨rfl,rfl,fun _ _ => rfl,fun _ h => ⟨nofun,.inl h⟩⟩

variable {told : Option (Bytes → Bool)}

theorem charged (lookups : Bucket) (prefixLookups : AList fun _ : Bytes => Bucket × Nat)
    (h : Loads user told { s with lookups, prefixLookups } s') : Loads user told s s' :=
  ⟨h.floor,h.cfg,h.kept,h.cached⟩

theorem forget : Loads user (some fun _ => false) s (s.forget user) := by
  rw [KnockState.forget]
  split
  · refine ⟨rfl,rfl,fun key hkey => ?_,fun key h => ?_⟩
    · have hne : key.1≠user := fun heq => nomatch hkey _ rfl heq
      simp [retain,hne]
    · obtain ⟨u,fp⟩ := key
      by_cases heq : u=user
      · subst heq
        simp [KnockState.cached,retain] at h
      · refine ⟨fun _ _ heq' => absurd heq' heq,.inl ?_⟩
        simpa [KnockState.cached,retain,AList.lookup_erase_ne heq] using h
  · next hnone =>
    refine ⟨rfl,rfl,fun _ _ => rfl,fun key h => ⟨fun _ _ heq => ?_,.inl h⟩⟩
    obtain rfl : key.1=user := heq
    simp only [KnockState.cached,Option.not_isSome_iff_eq_none.1 hnone] at h
    cases h

theorem reload {keys : AList fun _ : Bytes => Bytes} :
    Loads user (some fun fp => (keys.lookup fp).isSome) s (s.reload user keys now) := by
  refine ⟨rfl,rfl,fun key hkey => ?_,fun ⟨u,fp⟩ h => ?_⟩
  · have hkeep : (key.1≠user || (keys.lookup key.2).isSome)=true := by
      by_cases heq : key.1=user
      · simp [hkey _ rfl heq]
      · simp [heq]
    simp only [KnockState.reload,retain,hkeep,if_true]
  · by_cases heq : u=user
    · subst heq
      simpa [KnockState.cached,KnockState.reload] using h
    · refine ⟨fun _ _ heq' => absurd heq' heq,.inl ?_⟩
      simpa [KnockState.cached,KnockState.reload,retain,AList.lookup_insert_ne heq] using h

/- Another user's keys may have been evicted before. -/
theorem evicted (h : Loads user told s.evictUser s') : Loads user told s s' := by
  obtain ⟨keyCache,heq,hsub⟩ := evictUser_shrinks (s := s)
  rw [heq] at h
  refine ⟨h.floor,h.cfg,h.kept,fun key hkey => ?_⟩
  obtain ⟨ha,hor⟩ := h.cached key hkey
  refine ⟨ha,hor.imp_left fun hc => ?_⟩
  rw [KnockState.cached] at hc ⊢
  cases hu : keyCache.lookup key.1 with
  | none => simp [hu] at hc
  | some c => simpa [hsub _ _ hu,hu] using hc

end Loads

theorem loadUserKeys_loads :
    Loads user (s.told ask user src now) s (s.loadUserKeys ask user src now).2 := by
  rw [loadUserKeys,told,takeLookup_eq]
  split
  · exact .refl
  split
  · exact .forget
  cases (s.takePrefixLookup src now).1 && (s.lookups.take now).1 with
  | false => exact ⟨rfl,rfl,fun _ _ => rfl,fun _ h => ⟨nofun,.inl h⟩⟩
  | true =>
    rw [if_pos rfl]
    dsimp only
    split
    · exact .charged _ _ (.evicted .reload)
    · exact .charged _ _ .reload

theorem entries_of_cached {fp : Bytes}
    (h : ((s.loadUserKeys ask user src now).2.cached (user,fp)).isSome) :
    (s.loadUserKeys ask user src now).2.entries (user,fp)=s.entries (user,fp) :=
  loadUserKeys_loads.kept _ (loadUserKeys_loads.cached _ h).1

/-- What one datagram can do to the table of entries, after the user's keys were looked up: the
nonce of no key goes down, and those of other keys stay. An accepted knock has a cached key and a
nonce above all that its key consumed before, which it consumes. -/
structure Handles (k : Knock) (now : Nat) (s s₁ : KnockState C) (verdict : Verdict)
    (s' : KnockState C) : Prop where
  clock : absDiff k.nonce.toNat now≤ s.cfg.clockSkewMs
  floor : s'.nonceFloor=s₁.nonceFloor
  cfg : s'.cfg=s₁.cfg
  keyCache : s'.keyCache=s₁.keyCache
  consumed_le : ∀ key, s₁.consumed key≤ s'.consumed key
  accepted : verdict.isAccept → (s₁.cached (k.user,k.keyFp)).isSome ∧
    s₁.consumed (k.user,k.keyFp)<k.nonce.toNat ∧ s₁.nonceFloor≤k.nonce.toNat ∧
    s'.consumed (k.user,k.keyFp)=k.nonce.toNat

theorem consumed_entryFor : (s.entryFor key now).lastNonce=s.consumed key := by
  rw [entryFor,consumed]
  cases s.entries key <;> rfl

theorem consumed_putEntry {e : Entry} {verify : Bucket} {key' : Str × Bytes} :
    consumed key' { s.putEntry key e with verify } =
      if key'=key then e.lastNonce else s.consumed key' := by
  simp only [consumed,putEntry]
  split <;> rfl

/- Datagrams that are dropped before the key lookup change nothing. -/
theorem Treated.handles {datagram : Bytes} {verdict : Verdict}
    {checks : List ((Str × Bytes) × Check)} {asked : Bool}
    (h : Treated s ask now src datagram verdict checks asked s') :
    (verdict.isAccept=false ∧ s'=s) ∨ ∃ k, Knock.parse datagram = .ok k ∧
      Handles k now s (s.loadUserKeys ask k.user src now).2 verdict s' := by
  cases h with
  | early reason _ => exact .inl ⟨rfl,rfl⟩
  | @unknown k reason hparse hclock =>
    exact .inr ⟨k,hparse,hclock,rfl,rfl,rfl,fun _ => le_rfl,nofun⟩
  | @judged k s₁ keyBlob r t hparse hclock hload hcached hgrant =>
    refine .inr ⟨k,hparse,?_⟩
    rw [hload]
    obtain ⟨hends,hok⟩ := (Admission.grant_nonce _).apply hgrant
    simp only [Admission.nonce,consumed_entryFor] at hends hok
    refine ⟨hclock,rfl,rfl,rfl,fun key => ?_,fun h => ?_⟩
    · rw [consumed_putEntry]
      split
      · next h => exact h ▸ hends
      · exact le_rfl
    · cases r with
      | error refusal => cases refusal <;> cases h
      | ok p =>
        obtain ⟨hlt,hfloor,hnonce⟩ := hok p rfl
        refine ⟨Option.isSome_of_eq_some hcached,hlt,hfloor,?_⟩
        rw [consumed_putEntry,if_pos rfl,hnonce]

end KnockState

namespace KnockState
variable {C : Crypto} {s s' : KnockState C} {key : Str × Bytes}

/- What `complete` does to the entries. -/
def Stores (p : PendingAccept) (s s' : KnockState C) : Prop :=
  s'=s ∨ ∃ e bytes expiry, s.entries (p.user,p.keyFp)=some e ∧
    e.lastKnockHash=p.knockHash ∧ bytes.length≤p.knockLen ∧
    s'=s.putEntry (p.user,p.keyFp) { e with lastAccept := some (bytes,expiry) }

variable {coins : C.Coins} {p : PendingAccept} {port : UInt16} {now : Nat}

/-- An ACCEPT is never longer than the knock it answers. -/
theorem completeInner_meets : Meets (completeInner p coins port now) s fun r s' => Stores p s s' ∧
      ∀ done, r = .ok done → done.datagram.length≤p.knockLen := by
  refine .get_bind ?_
  cases s.hostKeys[p.hostKey]? with
  | none => exact ⟨.inl rfl,nofun⟩
  | some usable =>
    obtain ⟨hostKey,blob,fp⟩ := usable
    refine .bind_of_ok rfl ?_
    dsimp only
    cases C.diffieHellman (C.ephGenerate coins) p.ephC with
    | none => exact ⟨.inl rfl,nofun⟩
    | some shared =>
      cases buildAccept C hostKey coins p.knockHash (C.ephPublic (C.ephGenerate coins)) port
          (max s.cfg.windowSecs 1) p.fullHostkey with
      | error _ => exact ⟨.inl rfl,nofun⟩
      | ok datagram =>
        refine .bind_of_ok rfl (.ite_of (fun _ => ⟨.inl rfl,nofun⟩) fun hle => .modify_bind ?_)
        rw [not_lt] at hle
        refine ⟨?_,?_⟩
        · split
          · next e he =>
            split
            · next hhash => exact .inr ⟨e,datagram,_,he,hhash,hle,rfl⟩
            · exact .inl rfl
          · exact .inl rfl
        · rintro done ⟨⟩
          exact hle

/- A view in which pending knocks and stored accepts do not show. -/
def Overlooks {τ : Type} (view : KnockState C → τ) : Prop :=
  ∀ s key e pending lastAccept, s.entries key=some e →
    view (s.putEntry key { e with pending, lastAccept })=view s

section Views
variable {τ : Type} {view : KnockState C → τ}

theorem Overlooks.releasePending (h : Overlooks view) (user : Str) (fp : Bytes) :
    view (s.releasePending user fp)=view s := by
  rw [KnockState.releasePending]
  split
  · next e he => exact h s _ e _ _ he
  · rfl

theorem Overlooks.complete (h : Overlooks view) : view (s.complete p coins port now).2=view s := by
  rcases hrun : completeInner p coins port now s with ⟨r,t⟩
  have ht : view t=view s := by
    rcases (completeInner_meets.apply hrun).1 with rfl | ⟨e,bytes,expiry,he,-,-,rfl⟩
    · rfl
    · exact h s _ e _ _ he
  rw [KnockState.complete,hrun]
  cases r with
  | ok _ => exact ht
  | error _ => exact (h.releasePending _ _).trans ht

end Views

/-- What decides about replays. -/
def memory (s : KnockState C) :
    KnockServerConfig × Nat × (AList fun _ : Str => CachedKeys) × (Str × Bytes → Nat) :=
  (s.cfg,s.nonceFloor,s.keyCache,fun key => s.consumed key)

theorem overlooks_memory : Overlooks (memory (C := C)) := by
  intro s key e pending lastAccept he
  refine congrArg (s.cfg,s.nonceFloor,s.keyCache,·) (funext fun k => ?_)
  by_cases hk : k=key
  · simp [consumed,putEntry,hk,he]
  · simp [consumed,putEntry,hk]

end KnockState

/-- The calls on a `KnockState`. -/
inductive Op (C : Crypto) where
  | handle (ask : Answers) (now : Nat) (src : IpAddr) (datagram : Bytes)
  | complete (pending : PendingAccept) (coins : C.Coins) (port : UInt16) (now : Nat)
  | releasePending (user : Str) (fp : Bytes)
  | setKeySource
  | invalidateKeys (user : Option Str)

def Op.isHandle {C : Crypto} : Op C → Bool
  | .handle .. => true
  | _ => false

/-- A datagram that was answered with `Verdict::Accept`. -/
structure Accepted where
  datagram : Bytes
  knock : Knock
  parsed : Knock.parse datagram = .ok knock

def Accepted.key (a : Accepted) : Str × Bytes := (a.knock.user,a.knock.keyFp)

def newlyAccepted (datagram : Bytes) (verdict : Verdict) : List Accepted :=
  match h : Knock.parse datagram with
  | .ok knock => if verdict.isAccept then [⟨datagram,knock,h⟩] else []
  | .error _ => []

/-- A state with the knocks it accepted, the newest first. `lost` holds the keys that the key
source left out of an answer after a knock with them was accepted. -/
structure History (C : Crypto) where
  state : KnockState C
  accepted : List Accepted
  lost : Str × Bytes → Bool

namespace History
variable {C : Crypto} {r : History C}

def start (s : KnockState C) : History C := { state := s, accepted := [], lost := fun _ => false }

/-- Whom a call asks the key source about, and which keys the source then lets knock. -/
def answer (r : History C) : Op C → Option (Str × (Bytes → Bool))
  | .handle ask now src datagram =>
    match Knock.parse datagram with
    | .ok k =>
      if absDiff k.nonce.toNat now>r.state.cfg.clockSkewMs then none
      else (r.state.told ask k.user src now).map (k.user,·)
    | .error _ => none
  | _ => none

def loses (r : History C) (op : Op C) (key : Str × Bytes) : Bool :=
  match r.answer op with
  | some (user,lets) => key.1==user && !lets key.2 && r.accepted.any (·.key==key)
  | none => false

def next (r : History C) : Op C → KnockState C
  | .handle ask now src datagram => (r.state.handle ask now src datagram).2
  | .complete pending coins port now => (r.state.complete pending coins port now).2
  | .releasePending user fp => r.state.releasePending user fp
  | .setKeySource => r.state.setKeySource
  | .invalidateKeys user => r.state.invalidateKeys user

def newly (r : History C) : Op C → List Accepted
  | .handle ask now src datagram =>
    newlyAccepted datagram (r.state.handle ask now src datagram).1
  | _ => []

def step (r : History C) (op : Op C) : History C where
  state := r.next op
  accepted := r.newly op++r.accepted
  lost key := r.lost key || r.loses op key

/-- Every history of calls that `allowed` lets happen, from a given state. -/
inductive Reaches (allowed : History C → Op C → Prop) (s : KnockState C) : History C → Prop
  | start : Reaches allowed s (start s)
  | step {r : History C} (h : Reaches allowed s r) (op : Op C) (hop : allowed r op) :
      Reaches allowed s (r.step op)

variable {op : Op C} {datagram : Bytes} {s : KnockState C}

/- The calls besides `handle` neither move a nonce nor bring back a key. -/
theorem next_of_not_handle (h : op.isHandle=false) :
    (∀ key, (r.next op).consumed key=r.state.consumed key) ∧
      (∀ key, r.state.cached key=none → (r.next op).cached key=none) ∧
      (r.next op).nonceFloor=r.state.nonceFloor := by
  have of_memory : ∀ s' : KnockState C, s'.memory=r.state.memory →
      (∀ key, s'.consumed key=r.state.consumed key) ∧
        (∀ key, r.state.cached key=none → s'.cached key=none) ∧
        s'.nonceFloor=r.state.nonceFloor := by
    intro s' hs
    simp only [memory,Prod.mk.injEq] at hs
    obtain ⟨-,hfloor,hcache,hconsumed⟩ := hs
    refine ⟨fun key => congrFun hconsumed key,fun key hkey => ?_,hfloor⟩
    rwa [cached,hcache]
  cases op with
  | handle ask now src datagram => cases h
  | complete pending coins port now => exact of_memory _ overlooks_memory.complete
  | releasePending user fp => exact of_memory _ (overlooks_memory.releasePending ..)
  | setKeySource => exact ⟨fun _ => rfl,fun _ _ => rfl,rfl⟩
  | invalidateKeys user =>
    cases user with
    | none => exact ⟨fun _ => rfl,fun _ _ => rfl,rfl⟩
    | some u =>
      refine ⟨fun _ => rfl,fun key hkey => ?_,rfl⟩
      obtain ⟨v,fp⟩ := key
      by_cases hv : v=u
      · subst hv
        simp [next,invalidateKeys,cached]
      · simpa [next,invalidateKeys,cached,AList.lookup_erase_ne hv]
          using hkey

/-- The replay protection: the nonce of every accepted knock is remembered, unless the key source
left its key out since; then the key is not cached. -/
def Remembers (accepted : List Accepted) (lost : Str × Bytes → Bool) (s : KnockState C) : Prop :=
  ∀ a∈accepted, a.knock.nonce.toNat≤ s.consumed a.key ∨ lost a.key ∧ s.cached a.key=none

/-- The key source does not let a key knock again that it left out after a knock with it was
accepted. -/
def Steady (r : History C) (op : Op C) : Prop :=
  ∀ user lets, r.answer op=some (user,lets) → ∀ fp, lets fp → ¬r.lost (user,fp)

theorem Remembers.load {s₁ : KnockState C} {user : Str} {told : Option (Bytes → Bool)}
    (h : Remembers r.accepted r.lost r.state) (hsteady : r.Steady op)
    (hanswer : r.answer op=told.map (user,·)) (hload : KnockState.Loads user told r.state s₁) :
    Remembers r.accepted (r.step op).lost s₁ := by
  intro a ha
  have hlost : r.lost a.key → (r.step op).lost a.key := fun h => by simp [step,h]
  rcases Option.eq_none_or_eq_some (s₁.cached a.key) with hnone | ⟨blob,hblob⟩
  · rcases h a ha with hle | ⟨hl,-⟩
    · by_cases hkept : ∀ lets, told=some lets → a.key.1=user → lets a.key.2
      · left
        rw [consumed,hload.kept _ hkept]
        exact hle
      · right
        push Not at hkept
        obtain ⟨lets,htold,huser,hlets⟩ := hkept
        refine ⟨?_,hnone⟩
        have hany : r.accepted.any (·.key==a.key)=true :=
          List.any_eq_true.2 ⟨a,ha,beq_self_eq_true _⟩
        simp [step,loses,hanswer,htold,huser,hany,Bool.eq_false_iff.2 hlets]
    · exact .inr ⟨hlost hl,hnone⟩
  · obtain ⟨hkept,hor⟩ := hload.cached a.key (Option.isSome_of_eq_some hblob)
    left
    rcases h a ha with hle | ⟨hl,hc⟩
    · rw [consumed,hload.kept _ hkept]
      exact hle
    · rcases hor with hsome | ⟨lets,htold,huser⟩
      · simp [hc] at hsome
      · subst huser
        have hasked : r.answer op=some (a.key.1,lets) := by rw [hanswer,htold]; rfl
        exact absurd hl (hsteady _ lets hasked a.key.2 (hkept lets htold rfl))

theorem newlyAccepted_eq {k : Knock} (hparse : Knock.parse datagram = .ok k) (verdict : Verdict) :
    newlyAccepted datagram verdict=if verdict.isAccept then [⟨datagram,k,hparse⟩] else [] := by
  rw [newlyAccepted]
  split
  · next knock h =>
    obtain rfl : k=knock := Except.ok.inj (hparse.symm.trans h)
    rfl
  · next h => cases hparse.symm.trans h

theorem newlyAccepted_of_not_accept {verdict : Verdict} (h : verdict.isAccept=false) :
    newlyAccepted datagram verdict=[] := by
  rw [newlyAccepted]
  split <;> simp [h]

/-- A later knock of the same key has a higher nonce, and no datagram comes twice. -/
def Fresh (newer older : Accepted) : Prop :=
  newer.datagram≠older.datagram ∧
    (newer.key=older.key → older.knock.nonce<newer.knock.nonce)

theorem Fresh.of_nonce {newer older : Accepted}
    (h : newer.key=older.key → older.knock.nonce.toNat<newer.knock.nonce.toNat) :
    Fresh newer older := by
  refine ⟨fun heq => ?_,fun hkey => UInt64.lt_iff_toNat_lt.2 (h hkey)⟩
  have hknock : newer.knock=older.knock :=
    Except.ok.inj (newer.parsed.symm.trans ((congrArg Knock.parse heq).trans older.parsed))
  have hlt := h (by rw [Accepted.key,Accepted.key,hknock])
  rw [hknock] at hlt
  exact lt_irrefl _ hlt

structure Protected (r : History C) : Prop where
  fresh : r.accepted.Pairwise Fresh
  remembers : Remembers r.accepted r.lost r.state

/- A call that accepts nothing and keeps the nonces. -/
theorem Protected.quiet (h : r.Protected) (hnewly : r.newly op=[])
    (hconsumed : ∀ key, (r.next op).consumed key=r.state.consumed key)
    (hcached : ∀ key, r.state.cached key=none → (r.next op).cached key=none) :
    (r.step op).Protected := by
  have haccepted : (r.step op).accepted=r.accepted := by rw [step,hnewly]; rfl
  refine ⟨haccepted ▸ h.fresh,?_⟩
  rw [haccepted]
  intro a ha
  rcases h.remembers a ha with hle | ⟨hl,hc⟩
  · exact .inl (hle.trans (hconsumed a.key).ge)
  · exact .inr ⟨by simp [step,hl],hcached a.key hc⟩

theorem Protected.handle {ask : Answers} {now : Nat} {src : IpAddr} (h : r.Protected)
    (hsteady : r.Steady (.handle ask now src datagram)) :
    (r.step (.handle ask now src datagram)).Protected := by
  rcases (r.state.handle_treated ask now src datagram).handles with
    ⟨hdrop,hsame⟩ | ⟨k,hparse,hh⟩
  · refine h.quiet (newlyAccepted_of_not_accept hdrop) (fun key => ?_) fun key hkey => ?_
    · rw [next,hsame]
    · rwa [next,hsame]
  · have hanswer : r.answer (.handle ask now src datagram) =
        (r.state.told ask k.user src now).map (k.user,·) := by
      simp only [answer,hparse]
      rw [if_neg (not_lt.2 hh.clock)]
    have hmem := h.remembers.load hsteady hanswer loadUserKeys_loads
    have hcached : ∀ key, (r.state.handle ask now src datagram).2.cached key =
        (r.state.loadUserKeys ask k.user src now).2.cached key := fun key => by
      rw [cached,hh.keyCache]
      rfl
    have hold : Remembers r.accepted (r.step (.handle ask now src datagram)).lost
        (r.state.handle ask now src datagram).2 := by
      intro a ha
      rcases hmem a ha with hle | ⟨hl,hc⟩
      · exact .inl (hle.trans (hh.consumed_le a.key))
      · exact .inr ⟨hl,(hcached a.key).trans hc⟩
    cases hv : (r.state.handle ask now src datagram).1.isAccept with
    | false =>
      have haccepted : (r.step (.handle ask now src datagram)).accepted=r.accepted := by
        rw [step,newly,newlyAccepted_of_not_accept hv]
        rfl
      exact ⟨haccepted ▸ h.fresh,haccepted ▸ hold⟩
    | true =>
      have haccepted : (r.step (.handle ask now src datagram)).accepted =
          ⟨datagram,k,hparse⟩::r.accepted := by
        rw [step,newly,newlyAccepted_eq hparse,if_pos hv]
        rfl
      obtain ⟨hsome,hlt,-,hnonce⟩ := hh.accepted hv
      constructor
      · rw [haccepted]
        refine List.pairwise_cons.2 ⟨fun b hb => .of_nonce fun hkey => ?_,h.fresh⟩
        change (k.user,k.keyFp)=b.key at hkey
        rw [hkey] at hsome hlt
        rcases hmem b hb with hle | ⟨-,hc⟩
        · exact lt_of_le_of_lt hle hlt
        · simp [hc] at hsome
      · rw [haccepted]
        intro a ha
        rcases List.mem_cons.1 ha with rfl | ha
        · exact .inl hnonce.ge
        · exact hold a ha

theorem steady_of_not_lost (h : ∀ key, r.lost key=false) : r.Steady op := by
  intro user lets _ fp _ hlost
  rw [h] at hlost
  cases hlost

theorem loses_start (key : Str × Bytes) : (start s).loses op key=false := by
  rw [loses]
  split
  · exact Bool.and_false _
  · rfl

theorem lost_step (op : Op C) (h : ∀ key, r.lost key=false)
    (hop : ∀ key, r.loses op key=false) (key : Str × Bytes) : (r.step op).lost key=false := by
  simp only [step,h,hop,Bool.or_false]

theorem Reaches.foldl {allowed : History C → Op C → Prop} (hall : ∀ r op, allowed r op)
    (h : Reaches allowed s r) (ops : List (Op C)) :
    Reaches allowed s (ops.foldl History.step r) := by
  induction ops generalizing r with
  | nil => exact h
  | cons op ops ih => exact ih (h.step op (hall r op))

theorem Reaches.protected (h : Reaches Steady s r) : r.Protected := by
  induction h with
  | start => exact ⟨.nil,nofun⟩
  | step h op hop ih =>
    cases op with
    | handle ask now src datagram => exact ih.handle hop
    | _ => exact ih.quiet rfl (next_of_not_handle rfl).1 (next_of_not_handle rfl).2.1

end History

/-! A small instance: a hash that keeps the last 32 bytes, and signatures that name their key. -/

namespace Sample

def crypto : Crypto where
  HostKey := Unit
  Ephemeral := Unit
  Coins := Unit
  sha256 b := (b.reverse++zeros).take 32
  sha512 b := b
  publicBlob _ := Writer.writeString (ascii "ssh-ed25519")++Writer.writeString (.replicate 32 9)
  sign _ _ _ := .ok (Writer.writeString (ascii "ssh-ed25519"))
  verifyByName alg blob _ sig :=
    if sig=Writer.writeString alg++blob.drop 15 then .ok () else .error .badSignature
  ephGenerate _ := ()
  ephPublic _ := zeros
  diffieHellman _ _ := some zeros
  hkdfExtract salt key := salt++key
  hkdfExpand prk info n := (prk++info).take n

def user : Str := ascii "ann"
def userKey : Bytes :=
  Writer.writeString (ascii "ssh-ed25519")++Writer.writeString (.replicate 32 7)

/- Knocks at the host key of the instance, without the flag that asks for that key. -/
def knock (nonce : UInt64) : Bytes :=
  [version,typeKnock,0,3]++user++keyFp crypto userKey++writeStr16 userKey++be64 nonce ++
    zeros++keyFp crypto (crypto.publicBlob ())++writeStr16 []++writeStr16 userKey

def admits : Answers := { mayKnock := true, keysFor := [userKey] }
def withdraws : Answers := { mayKnock := true, keysFor := [] }
def home : IpAddr := .v4 192 0 2 1

def server (now : Nat) : KnockState crypto := .new .default [()] now

end Sample

namespace History
variable {C : Crypto} {r : History C}
open Sample

/-- In every history in which the key source is steady, the accepted knocks of one user and key
have strictly increasing nonces, and no datagram is accepted twice. -/
theorem accepted_knocks_fresh {s : KnockState C} (h : Reaches Steady s r) :
    r.accepted.Pairwise fun newer older => newer.datagram≠older.datagram ∧
      (newer.key=older.key → older.knock.nonce<newer.knock.nonce) :=
  h.protected.fresh

theorem accepted_knocks_fresh_after_reload : ∃ r : History crypto, Reaches Steady (server 90000) r ∧
      r.accepted.map (·.knock.nonce)=[102000,100500] ∧
      r.accepted.Pairwise fun newer older => newer.datagram≠older.datagram ∧
        (newer.key=older.key → older.knock.nonce<newer.knock.nonce) := by
  -- the keys of the user are asked for again before the second knock
  have hlost₁ := lost_step (.handle admits 100000 home (knock 100500))
    (fun _ => rfl) (loses_start (s := server 90000))
  have hlost₂ := lost_step (.invalidateKeys none) hlost₁ fun _ => rfl
  have h₁ : Reaches Steady (server 90000) _ := Reaches.start.step
    (.handle admits 100000 home (knock 100500)) (steady_of_not_lost fun _ => rfl)
  have h₂ := h₁.step (.invalidateKeys none) (steady_of_not_lost hlost₁)
  have h₃ := h₂.step (.handle admits 102000 home (knock 102000)) (steady_of_not_lost hlost₂)
  exact ⟨_,h₃,by decide +kernel,accepted_knocks_fresh h₃⟩

/-- A key that one answer leaves out and the next one has again starts over: the same datagram is
accepted twice. -/
theorem withdrawn_key_accepts_replay :
    ¬ ∀ (s : KnockState crypto) (r : History crypto), Reaches (fun _ _ => True) s r →
      r.accepted.Pairwise fun newer older => newer.datagram≠older.datagram ∧
        (newer.key=older.key → older.knock.nonce<newer.knock.nonce) := by
  intro h
  have hfresh := h (server 90000) _ (Reaches.start.foldl (fun _ _ => trivial)
    [.handle admits 100000 home (knock 100500),.setKeySource,
      .handle withdraws 101000 home (knock 100500),.setKeySource,
      .handle admits 102000 home (knock 100500)])
  have hdatagrams := (List.pairwise_map (f := Accepted.datagram) (R := (· ≠ ·))).2
    (hfresh.imp fun h => h.1)
  revert hdatagrams
  decide +kernel

variable {s : KnockState C}

theorem Reaches.floor (h : Reaches (fun _ _ => True) s r) : r.state.nonceFloor=s.nonceFloor := by
  induction h with
  | start => rfl
  | step h op hop ih =>
    refine Eq.trans ?_ ih
    cases op with
    | handle ask now src datagram =>
      rcases (handle_treated _ ask now src datagram).handles with
        ⟨-,hsame⟩ | ⟨k,-,hh⟩
      · exact congrArg _ hsame
      · exact hh.floor.trans loadUserKeys_loads.floor
    | _ => exact (next_of_not_handle rfl).2.2

theorem handle_accept {ask : Answers} {now : Nat} {src : IpAddr} {datagram : Bytes}
    (h : (s.handle ask now src datagram).1.isAccept) :
    ∃ k, Knock.parse datagram = .ok k ∧ s.nonceFloor≤k.nonce.toNat ∧
      k.nonce.toNat≤now+s.cfg.clockSkewMs := by
  rcases (s.handle_treated ask now src datagram).handles with
    ⟨hnot,-⟩ | ⟨k,hparse,hh⟩
  · rw [hnot] at h
    cases h
  · obtain ⟨-,-,hfloor,-⟩ := hh.accepted h
    have hclock := hh.clock
    rw [absDiff] at hclock
    rw [loadUserKeys_loads.floor] at hfloor
    exact ⟨k,hparse,hfloor,by omega⟩

/-- A knock that a server accepted is refused by every later server whose start lies after the
nonce of the knock. A start that is more than the clock skew after the acceptance is enough. -/
theorem captured_knock_refused {s : KnockState C} {cfg : KnockServerConfig}
    {hostKeys : List C.HostKey} {ask : Answers} {src : IpAddr} {t₁ t₀ : Nat} {d : Bytes}
    (haccept : (s.handle ask t₁ src d).1.isAccept)
    (hlater : t₁+s.cfg.clockSkewMs<t₀ ∨ ∃ k, Knock.parse d = .ok k ∧ k.nonce.toNat<t₀)
    (h : Reaches (fun _ _ => True) (.new cfg hostKeys t₀) r) (ask' : Answers) (t : Nat)
    (src' : IpAddr) : (r.state.handle ask' t src' d).1.isAccept=false := by
  rw [Bool.eq_false_iff]
  intro hagain
  obtain ⟨k,hparse,-,hskew⟩ := handle_accept haccept
  obtain ⟨k',hparse',hfloor,-⟩ := handle_accept hagain
  obtain rfl : k=k' := Except.ok.inj (hparse.symm.trans hparse')
  rw [h.floor] at hfloor
  change t₀≤k.nonce.toNat at hfloor
  rcases hlater with hlt | ⟨k',hparse',hlt⟩
  · omega
  · obtain rfl : k=k' := Except.ok.inj (hparse.symm.trans hparse')
    omega

theorem captured_knock_refused_once :
    ((server 90000).handle admits 100000 home (knock 100500)).1.isAccept ∧
      ((server 101000).handle admits 101500 home (knock 100500)).1.isAccept=false := by
  have haccept : ((server 90000).handle admits 100000 home (knock 100500)).1.isAccept := by
    decide +kernel
  have hparse : (Knock.parse (knock 100500)).toOption.map (·.nonce)=some 100500 := by
    decide +kernel
  refine ⟨haccept,captured_knock_refused haccept (.inr ?_) .start admits 101500 home⟩
  cases h : Knock.parse (knock 100500) with
  | error _ => simp [h,Except.toOption] at hparse
  | ok k =>
    simp only [h,Except.toOption,Option.map_some,Option.some.injEq] at hparse
    exact ⟨k,rfl,by rw [hparse]; decide⟩

/-- The clock of this client is 20 s ahead: the server that starts a second after the knock was
accepted takes it for a new one. -/
theorem captured_knock_accepted_again :
    ¬ ∀ (s : KnockState crypto) (r : History crypto) (t₀ t₁ t : Nat) (d : Bytes),
      (s.handle admits t₁ home d).1.isAccept → t₁<t₀ → t₀≤t →
      Reaches (fun _ _ => True) (server t₀) r →
      (r.state.handle admits t home d).1.isAccept=false := by
  intro h
  have hrefused := h (server 90000) _ 101000 100000 101500 (knock 120000) (by decide +kernel)
    (by decide) (by decide) .start
  revert hrefused
  decide +kernel

end History
end PureSsh.Knocking
