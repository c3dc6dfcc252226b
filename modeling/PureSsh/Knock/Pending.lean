import PureSsh.Knock.Answer

/-! The cap on open rendezvous listeners: the counter in the entry of a key against the accepts that
were given out for that key and not released (`knock/state.rs`). -/

namespace PureSsh.Knocking
open Lib Proc KnockState

namespace Admission
variable {C : Crypto} {cfg : KnockServerConfig} {hostKeys : List (C.HostKey × Bytes × Bytes)}
  {floor : Nat} {keyBlob : Bytes} {k : Knock} {now : Nat} {src : IpAddr} {datagram : Bytes}
  {s t : Entry × Bucket}

def pending (s : Entry × Bucket) : Nat := s.1.pending

theorem unmetered_pending : Unmetered pending := ⟨fun _ _ _ => rfl,fun _ _ _ => rfl,
  fun _ _ _ => rfl,fun _ _ _ => rfl⟩

/- An accept takes a slot that was free, and nothing else moves the counter. -/
def Counts (cfg : KnockServerConfig) (k : Knock) (before : Nat) :
    Except Refusal PendingAccept → Entry × Bucket → Prop
  | .ok p, t => before<cfg.maxPending ∧ t.1.pending=before+1 ∧
      (p.user,p.keyFp)=(k.user,k.keyFp)
  | .error _, t => t.1.pending=before

theorem settle_counts {slot : Nat} (s : Entry × Bucket) :
    Meets (settle C cfg hostKeys keyBlob k slot datagram) s (Counts cfg k s.1.pending) := by
  rw [settle]
  split
  · exact rfl
  · refine .modify_bind (.get_bind (.ite_of (fun _ => rfl) fun hfree => ?_))
    split
    · exact rfl
    · exact ⟨Nat.lt_of_not_le hfree,rfl,rfl⟩

theorem Counts.of_error {before : Nat} {r : Except Refusal PendingAccept}
    (hr : ∀ p, r ≠ .ok p) (h : t.1.pending=before) : Counts cfg k before r t := by
  cases r with
  | ok p => exact absurd rfl (hr p)
  | error _ => exact h

theorem grant_counts (s : Entry × Bucket) :
    Meets (grant cfg hostKeys floor keyBlob k now src datagram) s (Counts cfg k s.1.pending) := by
  have hcheck := (unmetered_pending.checkSig1 fun _ _ _ => rfl : Keeps pending
    (checkSig1 C cfg keyBlob k now)).meets s
  refine .bind hcheck (fun _ t ht => ?_) fun _ t ht => ht
  refine .get_bind (.ite_of (fun _ => ?_) fun _ => .ite_of (fun _ => ht) fun _ => ?_)
  · have hkeep : pending (retransmit cfg src now t).2=pending t :=
      keeps_retransmit (fun _ _ _ => rfl) t
    exact Counts.of_error (retransmit_refuses t) (hkeep.trans ht)
  · refine .bind (unmetered_pending.takeAll.meets t) (fun _ u hu => ?_) fun _ u hu => hu.trans ht
    refine .ite_of (fun _ => hu.trans ht) fun _ => ?_
    exact (hu.trans ht : u.1.pending=s.1.pending) ▸ settle_counts u

end Admission

namespace KnockState
variable {C : Crypto} {s s' : KnockState C} {key key' : Str × Bytes} {ask : Answers} {now : Nat}
  {src : IpAddr} {user : Str}

/-- The slots in use of a key; none without an entry. -/
def slots (key : Str × Bytes) (s : KnockState C) : Nat := ((s.entries key).map (·.pending)).getD 0

theorem slots_of_entries (h : s'.entries key=s.entries key) : s'.slots key=s.slots key := by
  rw [slots,slots,h]

theorem slots_putEntry (e : Entry) (verify : Bucket) :
    slots key' { s.putEntry key e with verify } = if key'=key then e.pending else s.slots key' := by
  simp only [slots,putEntry]
  split <;> rfl

theorem slots_entryFor : (s.entryFor key now).pending=s.slots key := by
  rw [entryFor,slots]
  cases s.entries key <;> rfl

/-- Whether `load_user_keys` drops the entry of a key: a user with cached keys may not knock any
more, or the keys are asked for and this one is not among them. -/
def withdraws (ask : Answers) (user : Str) (src : IpAddr) (now : Nat) (s : KnockState C)
    (key : Str × Bytes) : Bool :=
  key.1=user && !s.isFresh user now && if ask.mayKnock then
      (s.takeLookup src now).1 && !((keyTable C ask.keysFor).lookup key.2).isSome
    else (s.keyCache.lookup user).isSome

theorem entries_reload {keys : AList fun _ : Bytes => Bytes} :
    (s.reload user keys now).entries key =
      if key.1=user ∧ ¬(keys.lookup key.2).isSome then none else s.entries key := by
  simp only [reload,retain]
  split <;> split <;> simp_all

theorem entries_evictUser : s.evictUser.entries=s.entries := by
  rw [evictUser]
  split <;> rfl

theorem entries_loadUserKeys : (s.loadUserKeys ask user src now).2.entries key =
    if s.withdraws ask user src now key then none else s.entries key := by
  rw [loadUserKeys,withdraws,takeLookup_eq]
  cases s.isFresh user now with
  | true => simp
  | false =>
    cases ask.mayKnock with
    | false =>
      rw [if_neg (by decide),if_pos (by decide),forget]
      cases s.keyCache.lookup user <;> simp [retain]
    | true =>
      rw [if_neg (by decide),if_neg (by decide)]
      cases (s.takePrefixLookup src now).1 && (s.lookups.take now).1 with
      | false => simp
      | true =>
        dsimp only
        rw [entries_reload,apply_ite entries,entries_evictUser,ite_self]
        simp

theorem slots_releasePending (user : Str) (fp : Bytes) : (s.releasePending user fp).slots key =
      if key=(user,fp) then s.slots key-1 else s.slots key := by
  rw [releasePending]
  cases he : s.entries (user,fp) with
  | none =>
    dsimp only
    split
    · next h =>
      subst h
      rw [slots,he]
      rfl
    · rfl
  | some e =>
    have hput : (s.putEntry (user,fp) { e with pending := e.pending-1 }).slots key =
        if key=(user,fp) then e.pending-1 else s.slots key := slots_putEntry _ s.verify
    rw [hput]
    split
    · next h =>
      subst h
      rw [slots,he]
      rfl
    · rfl

theorem slots_completeInner (p : PendingAccept) (coins : C.Coins) (port : UInt16) (now : Nat)
    (key : Str × Bytes) : (completeInner p coins port now s).2.slots key=s.slots key := by
  rcases hrun : completeInner p coins port now s with ⟨r,t⟩
  rcases (completeInner_meets.apply hrun).1 with rfl | ⟨e,bytes,expiry,he,-,-,rfl⟩
  · rfl
  · have hput : (s.putEntry (p.user,p.keyFp) { e with lastAccept := some (bytes,expiry) }).slots key =
        if key=(p.user,p.keyFp) then e.pending else s.slots key := slots_putEntry _ s.verify
    rw [hput]
    split
    · next h =>
      subst h
      rw [slots,he]
      rfl
    · rfl

theorem slots_complete {p : PendingAccept} {coins : C.Coins} {port : UInt16} :
    (s.complete p coins port now).2.slots key=match (s.complete p coins port now).1 with
      | .ok _ => s.slots key
      | .error _ => if key=(p.user,p.keyFp) then s.slots key-1 else s.slots key := by
  have hinner := slots_completeInner (s := s) p coins port now key
  rw [complete]
  rcases hrun : completeInner p coins port now s with ⟨r,t⟩
  rw [hrun] at hinner
  cases r with
  | ok _ => exact hinner
  | error _ =>
    rw [slots_releasePending,hinner]

/- A lookup leaves every key that has an entry its slots. -/
theorem slots_loadUserKeys (ask : Answers) (user : Str) (src : IpAddr) (now : Nat)
    (key : Str × Bytes) : (s.loadUserKeys ask user src now).2.slots key=s.slots key ∨
      (s.loadUserKeys ask user src now).2.entries key=none := by
  rw [slots,slots,entries_loadUserKeys]
  split
  · exact .inr rfl
  · exact .inl rfl

/-- What a datagram does to the slots: those of a key whose entry is left are as they were, but for
one slot more with an accept, which was free. -/
theorem handle_slots (s : KnockState C) (ask : Answers) (now : Nat) (src : IpAddr) (datagram : Bytes)
    (key : Str × Bytes) : (s.handle ask now src datagram).2.entries key=none ∧
        (∀ p, (s.handle ask now src datagram).1 = .accept p → (p.user,p.keyFp)≠key) ∨
      (∃ p, (s.handle ask now src datagram).1 = .accept p ∧ (p.user,p.keyFp)=key ∧
        s.slots key<s.cfg.maxPending ∧
        (s.handle ask now src datagram).2.slots key=s.slots key+1) ∨
      ((∀ p, (s.handle ask now src datagram).1 = .accept p → (p.user,p.keyFp)≠key) ∧
        (s.handle ask now src datagram).2.slots key=s.slots key) := by
  have htreated := s.handle_treated ask now src datagram
  revert htreated
  generalize s.verifications ask now src datagram=checks, s.asksKeys ask now src datagram=asked,
    s.handle ask now src datagram=out
  obtain ⟨verdict,s'⟩ := out
  intro htreated
  cases htreated with
  | early reason _ => exact .inr (.inr ⟨nofun,rfl⟩)
  | @unknown k reason hparse hclock =>
    obtain hslots | hnone := slots_loadUserKeys (s := s) ask k.user src now key
    · exact .inr (.inr ⟨nofun,hslots⟩)
    · exact .inl ⟨hnone,nofun⟩
  | @judged k s₁ keyBlob r t hparse hclock hload hcached hgrant =>
    subst hload
    have hcounts := (Admission.grant_counts _).apply hgrant
    have hown : (s.loadUserKeys ask k.user src now).2.slots (k.user,k.keyFp) =
        s.slots (k.user,k.keyFp) :=
      slots_of_entries (entries_of_cached (Option.isSome_of_eq_some hcached))
    have hcfg : (s.loadUserKeys ask k.user src now).2.cfg=s.cfg := loadUserKeys_loads.cfg
    rw [slots_entryFor,hown,hcfg] at hcounts
    by_cases hkey : key=(k.user,k.keyFp)
    · subst hkey
      cases r with
      | ok p =>
        obtain ⟨hfree,hpending,hp⟩ := hcounts
        refine .inr (.inl ⟨p,rfl,hp,hfree,?_⟩)
        rw [slots_putEntry,if_pos rfl,hpending]
      | error refusal =>
        refine .inr (.inr ⟨?_,?_⟩)
        · intro p hp
          cases refusal <;> cases hp
        · rw [slots_putEntry,if_pos rfl]
          exact hcounts
    · have hother : ∀ p, verdictOf r = .accept p → (p.user,p.keyFp)≠key := by
        intro p hp
        cases r with
        | ok q =>
          cases hp
          exact fun heq => hkey (heq.symm.trans hcounts.2.2)
        | error refusal => cases refusal <;> cases hp
      obtain hslots | hnone := slots_loadUserKeys (s := s) ask k.user src now key
      · refine .inr (.inr ⟨hother,?_⟩)
        rw [slots_putEntry,if_neg hkey,hslots]
      · refine .inl ⟨?_,hother⟩
        dsimp only [putEntry]
        rw [if_neg hkey,hnone]

/-- The calls that drop the entry of a key, by the answer of the key source and the state before. -/
def Withdraws (s : KnockState C) (key : Str × Bytes) : Op C → Prop
  | .handle ask now src datagram => ∃ k, Knock.parse datagram = .ok k ∧
      absDiff k.nonce.toNat now≤ s.cfg.clockSkewMs ∧ s.withdraws ask k.user src now key
  | _ => False

theorem entries_handle {datagram : Bytes} (hentry : (s.entries key).isSome) :
    (s.handle ask now src datagram).2.entries key=none ↔
      s.Withdraws key (.handle ask now src datagram) := by
  have hload (user : Str) : (s.loadUserKeys ask user src now).2.entries key=none ↔
      s.withdraws ask user src now key := by
    rw [entries_loadUserKeys]
    split
    · next h => exact iff_of_true rfl h
    · next h => exact iff_of_false (Option.isSome_iff_ne_none.1 hentry) h
  have hwithdraws {k : Knock} (hparse : Knock.parse datagram = .ok k)
      (hclock : absDiff k.nonce.toNat now≤ s.cfg.clockSkewMs) :
      s.Withdraws key (.handle ask now src datagram) ↔
        (s.loadUserKeys ask k.user src now).2.entries key=none := by
    rw [hload,Withdraws,hparse]
    constructor
    · rintro ⟨_,hk,-,h⟩
      cases hk
      exact h
    · exact fun h => ⟨k,rfl,hclock,h⟩
  have htreated := s.handle_treated ask now src datagram
  revert htreated
  generalize (s.handle ask now src datagram).1=verdict,
    s.verifications ask now src datagram=checks, s.asksKeys ask now src datagram=asked,
    (s.handle ask now src datagram).2=s'
  intro htreated
  cases htreated with
  | early _ hearly =>
    refine iff_of_false (Option.isSome_iff_ne_none.1 hentry) ?_
    rintro ⟨k,hparse,hclock,-⟩
    exact absurd hclock (Nat.not_le.2 (hearly k hparse))
  | unknown _ hparse hclock => rw [hwithdraws hparse hclock]
  | judged hparse hclock hload hcached =>
    subst hload
    rw [hwithdraws hparse hclock,putEntry]
    dsimp only
    split
    · next hkey =>
      subst hkey
      rw [entries_of_cached (Option.isSome_of_eq_some hcached)]
      exact iff_of_false (Option.some_ne_none _) (Option.isSome_iff_ne_none.1 hentry)
    · rfl

end KnockState

/-- A state with the keys of the accepts it gave out that were not released: each release takes one
of them away. -/
structure Desk (C : Crypto) where
  state : KnockState C
  opened : List (Str × Bytes)

def opens : Verdict → List (Str × Bytes)
  | .accept p => [(p.user,p.keyFp)]
  | _ => []

namespace Desk
variable {C : Crypto} {d : Desk C}

def start (s : KnockState C) : Desk C := { state := s, opened := [] }

/- A release is a call of `release_pending`, or of `complete` that fails. -/
def step (d : Desk C) (op : Op C) : Desk C where
  state := (History.start d.state).next op
  opened := match op with
    | .handle ask now src datagram => opens (d.state.handle ask now src datagram).1++d.opened
    | .complete p coins port now => match (d.state.complete p coins port now).1 with
      | .ok _ => d.opened
      | .error _ => d.opened.erase (p.user,p.keyFp)
    | .releasePending user fp => d.opened.erase (user,fp)
    | _ => d.opened

/-- At every moment of a run. -/
def Always (P : Desk C → Prop) (d : Desk C) : List (Op C) → Prop
  | [] => P d
  | op::ops => P d ∧ Always P (d.step op) ops

theorem Always.now {P : Desk C → Prop} {ops : List (Op C)} (h : Always P d ops) : P d := by
  cases ops with
  | nil => exact h
  | cons op ops => exact h.1

/-- No call of a run drops the entry of a key for which a listener is open. -/
def Undisturbed (d : Desk C) : List (Op C) → Prop
  | [] => True
  | op::ops => (∀ key∈d.opened, ¬d.state.Withdraws key op) ∧ Undisturbed (d.step op) ops

/- Each open listener holds one slot of its key, and no slot is in use beyond them. -/
def Settled (d : Desk C) : Prop := ∀ key, d.state.slots key=d.opened.count key

def Capped (d : Desk C) : Prop := ∀ key, d.opened.count key≤d.state.cfg.maxPending

theorem Settled.housed {key : Str × Bytes} (h : d.Settled) (hkey : key∈d.opened) :
    (d.state.entries key).isSome := by
  have hpos : 0<d.state.slots key := by
    rw [h key]
    exact List.count_pos_iff.2 hkey
  cases he : d.state.entries key with
  | none =>
    rw [slots,he] at hpos
    cases hpos
  | some e => rfl

theorem count_erase_mem {key key' : Str × Bytes} {l : List (Str × Bytes)} :
    (l.erase key').count key=if key=key' then l.count key-1 else l.count key := by
  split
  · next h => rw [h,List.count_erase_self]
  · next h => rw [List.count_erase_of_ne h]

theorem Settled.handle {ask : Answers} {now : Nat} {src : IpAddr} {datagram : Bytes} (h : d.Settled)
    (hkeeps : ∀ key∈d.opened, ¬d.state.Withdraws key (.handle ask now src datagram)) :
    (d.step (.handle ask now src datagram)).Settled := by
  intro key
  change (d.state.handle ask now src datagram).2.slots key =
    (opens (d.state.handle ask now src datagram).1++d.opened).count key
  have hquiet (hno : ∀ p, (d.state.handle ask now src datagram).1 = .accept p →
      (p.user,p.keyFp)≠key) :
      (opens (d.state.handle ask now src datagram).1++d.opened).count key=d.opened.count key := by
    cases hv : (d.state.handle ask now src datagram).1 with
    | accept p =>
      rw [opens,List.singleton_append,List.count_cons_of_ne (hno p hv)]
    | drop | resend => rfl
  obtain ⟨hnone,hno⟩ | ⟨p,hp,rfl,-,hslots⟩ | ⟨hno,hslots⟩ :=
    d.state.handle_slots ask now src datagram key
  · -- the entry went, so that no listener is open for the key
    have hzero : key∉d.opened :=
      fun hmem => hkeeps key hmem ((entries_handle (h.housed hmem)).1 hnone)
    rw [hquiet hno,List.count_eq_zero.2 hzero,slots,hnone]
    rfl
  · rw [hslots,h,hp,opens,List.singleton_append,List.count_cons_self]
  · rw [hslots,h,hquiet hno]

theorem Settled.step {op : Op C} (h : d.Settled)
    (hkeeps : ∀ key∈d.opened, ¬d.state.Withdraws key op) : (d.step op).Settled := by
  cases op with
  | handle ask now src datagram => exact h.handle hkeeps
  | complete p coins port now =>
    intro key
    dsimp only [Desk.step,History.next,History.start]
    rw [slots_complete]
    cases (d.state.complete p coins port now).1 with
    | ok _ => exact h key
    | error _ =>
      rw [count_erase_mem,h key]
  | releasePending user fp =>
    intro key
    dsimp only [Desk.step,History.next,History.start]
    rw [slots_releasePending,count_erase_mem,h key]
  | setKeySource => exact h
  | invalidateKeys user =>
    cases user with
    | none => exact h
    | some u => exact h

theorem cfg_step (d : Desk C) (op : Op C) : (d.step op).state.cfg=d.state.cfg := by
  cases op with
  | handle ask now src datagram =>
    obtain ⟨-,hsame⟩ | ⟨k,-,hhandles⟩ := (d.state.handle_treated ask now src datagram).handles
    · exact congrArg cfg hsame
    · exact hhandles.cfg.trans loadUserKeys_loads.cfg
  | complete p coins port now =>
    exact congrArg Prod.fst overlooks_memory.complete
  | releasePending user fp => exact congrArg Prod.fst (overlooks_memory.releasePending user fp)
  | setKeySource => rfl
  | invalidateKeys user => cases user <;> rfl

/- A slot is only taken while there is one. -/
def Bounded (d : Desk C) : Prop := ∀ key, d.state.slots key≤d.state.cfg.maxPending

theorem Bounded.step {op : Op C} (h : d.Bounded) : (d.step op).Bounded := by
  intro key
  rw [cfg_step]
  cases op with
  | handle ask now src datagram =>
    change (d.state.handle ask now src datagram).2.slots key≤_
    obtain ⟨hnone,-⟩ | ⟨p,-,-,hfree,hslots⟩ | ⟨-,hslots⟩ :=
      d.state.handle_slots ask now src datagram key
    · rw [slots,hnone]
      exact Nat.zero_le _
    · rw [hslots]
      exact hfree
    · rw [hslots]
      exact h key
  | complete p coins port now =>
    have hkey := h key
    dsimp only [Desk.step,History.next,History.start]
    rw [slots_complete]
    cases (d.state.complete p coins port now).1 with
    | ok _ => exact hkey
    | error _ =>
      dsimp only
      split
      · exact Nat.le_trans (Nat.sub_le _ 1) hkey
      · exact hkey
  | releasePending user fp =>
    have hkey := h key
    dsimp only [Desk.step,History.next]
    rw [slots_releasePending]
    split
    · exact Nat.le_trans (Nat.sub_le _ 1) hkey
    · exact hkey
  | setKeySource => exact h key
  | invalidateKeys user => cases user <;> exact h key

theorem Settled.capped (h : d.Settled) (hbounded : d.Bounded) : d.Capped := by
  intro key
  rw [← h key]
  exact hbounded key

theorem Settled.keeps {op : Op C} {key : Str × Bytes} (h : d.Settled) (hnext : (d.step op).Settled)
    (hkey : key∈d.opened) : ¬d.state.Withdraws key op := by
  intro hwithdraws
  cases op with
  | handle ask now src datagram =>
    have hsome : ((d.state.handle ask now src datagram).2.entries key).isSome=true :=
      hnext.housed (List.mem_append_right _ hkey)
    rw [(entries_handle (h.housed hkey)).2 hwithdraws] at hsome
    cases hsome
  | _ => exact hwithdraws

theorem always_iff {ops : List (Op C)} (h : d.Settled) (hbounded : d.Bounded) :
    Always (fun d => d.Settled ∧ d.Capped) d ops ↔ d.Undisturbed ops := by
  induction ops generalizing d with
  | nil => exact iff_of_true ⟨h,h.capped hbounded⟩ trivial
  | cons op ops ih =>
    constructor
    · rintro ⟨-,hrest⟩
      have hnext := hrest.now.1
      exact ⟨fun key hkey => h.keeps hnext hkey,(ih hnext hbounded.step).1 hrest⟩
    · rintro ⟨hkeeps,hrest⟩
      exact ⟨⟨h,h.capped hbounded⟩,(ih (h.step hkeeps) hbounded.step).2 hrest⟩

/-- Over every run of a new server, each open listener holds a slot of its own, no release frees
another's and at most `max_pending` are open for a key, exactly when no answer of the key source
drops the entry of a key for which a listener is open. -/
theorem open_listeners_counted_iff (cfg : KnockServerConfig) (hostKeys : List C.HostKey) (now : Nat)
    (ops : List (Op C)) :
    Always (fun d => d.Settled ∧ d.Capped) (start (.new cfg hostKeys now)) ops ↔
      (start (.new cfg hostKeys now)).Undisturbed ops :=
  always_iff (fun _ => rfl) fun _ => Nat.zero_le _

open Sample

/-- A key that the source withdraws for one answer has three listeners open where two are allowed,
and the release of an old one frees the slot of the new one. -/
theorem withdrawn_key_exceeds_cap :
    let d := [.handle admits 100000 home (knock 100500),.handle admits 100100 home (knock 100600),
      .setKeySource,.handle withdraws 100200 home (knock 100700),.setKeySource,
      .handle admits 100300 home (knock 100800)].foldl step (start (server 90000))
    d.opened.count (user,keyFp crypto userKey)=3 ∧ d.state.cfg.maxPending=2 ∧
      d.state.slots (user,keyFp crypto userKey)=1 ∧
      (d.step (.releasePending user (keyFp crypto userKey))).opened.count
        (user,keyFp crypto userKey)=2 ∧
      (d.step (.releasePending user (keyFp crypto userKey))).state.slots
        (user,keyFp crypto userKey)=0 := by
  decide +kernel

end Desk
end PureSsh.Knocking
