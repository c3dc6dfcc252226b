import PureSsh.Knock.State

/-! The ways in which `KnockState::handle` treats a datagram (`knock/state.rs`). -/

namespace PureSsh.Knocking
open Lib Proc

/- The calls of `verify`: sig2 is verified for a source that is marked good or not. -/
inductive Check where
  | sig1
  | sig2 (good : Bool)
  deriving DecidableEq, Repr

def Check.signature (k : Knock) : Check → Bytes
  | .sig1 => k.sig1
  | .sig2 _ => k.sig2

namespace Admission

/- Steps 5 to 7: a retransmitted, old or rate limited knock is not verified. -/
def reachesSig2 (C : Crypto) (cfg : KnockServerConfig) (floor : Nat) (k : Knock) (now : Nat)
    (src : IpAddr) (datagram : Bytes) (s : Entry × Bucket) : Option Bool :=
  if k.nonce.toNat=s.1.lastNonce ∧ knockHash C datagram=s.1.lastKnockHash then none
  else if k.nonce.toNat≤ s.1.lastNonce ∨ k.nonce.toNat<floor then none
  else match takeAll cfg src now s with
    | (.ok (true,slot),t) => some (t.1.isGood slot)
    | _ => none

/-- Whether step 8 verifies sig2, and if so, whether the slot of the source was marked good. -/
def checksSig2 (C : Crypto) (cfg : KnockServerConfig) (floor : Nat) (keyBlob : Bytes) (k : Knock)
    (now : Nat) (src : IpAddr) (datagram : Bytes) (s : Entry × Bucket) : Option Bool :=
  match checkSig1 C cfg keyBlob k now s with
  | (.error _,_) => none
  | (.ok (),t) => reachesSig2 C cfg floor k now src datagram t

/-- The signatures that `grant` verifies. -/
def checks (C : Crypto) (cfg : KnockServerConfig) (floor : Nat) (keyBlob : Bytes) (k : Knock)
    (now : Nat) (src : IpAddr) (datagram : Bytes) (s : Entry × Bucket) : List Check :=
  (if checksSig1 k now s then [.sig1] else []) ++
    ((checksSig2 C cfg floor keyBlob k now src datagram s).map .sig2).toList

end Admission

namespace KnockState
variable {C : Crypto} {s s₁ : KnockState C} {ask : Answers} {now : Nat} {src : IpAddr}
  {datagram keyBlob : Bytes} {k : Knock} {r : Except Refusal PendingAccept} {t : Entry × Bucket}

/-- The blob under which a knock for this user and fingerprint is verified. -/
def cached (key : Str × Bytes) (s : KnockState C) : Option Bytes :=
  (s.keyCache.lookup key.1).bind fun c => c.keys.lookup key.2

/-- The knock that `handle` finds in a datagram, with the blob of its key and the state after the
keys of the user were looked up. -/
def judging (ask : Answers) (now : Nat) (src : IpAddr) (datagram : Bytes) (s : KnockState C) :
    Option (Knock × Bytes × KnockState C) :=
  match Knock.parse datagram with
  | .error _ => none
  | .ok k =>
    if absDiff k.nonce.toNat now>s.cfg.clockSkewMs then none
    else match s.loadUserKeys ask k.user src now with
      | (false,_) => none
      | (true,s) => (s.cached (k.user,k.keyFp)).map (k,·,s)

/-- The calls of `verify` for a datagram, each with the key it is made for. -/
def verifications (ask : Answers) (now : Nat) (src : IpAddr) (datagram : Bytes)
    (s : KnockState C) : List ((Str × Bytes) × Check) :=
  match s.judging ask now src datagram with
  | none => []
  | some (k,keyBlob,s) =>
    (Admission.checks C s.cfg s.nonceFloor keyBlob k now src datagram
      (s.entryFor (k.user,k.keyFp) now,s.verify)).map ((k.user,k.keyFp),·)

/-- Whether `load_user_keys` calls `keys_for`. -/
def asksFor (ask : Answers) (user : Str) (src : IpAddr) (now : Nat) (s : KnockState C) : Bool :=
  !s.isFresh user now && (ask.mayKnock && (s.takeLookup src now).1)

/-- Whether a datagram makes `handle` call `keys_for`. -/
def asksKeys (ask : Answers) (now : Nat) (src : IpAddr) (datagram : Bytes)
    (s : KnockState C) : Bool :=
  match Knock.parse datagram with
  | .error _ => false
  | .ok k =>
    absDiff k.nonce.toNat now≤ s.cfg.clockSkewMs && s.asksFor ask k.user src now

def verdictOf : Except Refusal PendingAccept → Verdict
  | .ok pending => .accept pending
  | .error refusal => refusal.verdict

section Judged
variable (hparse : Knock.parse datagram = .ok k)
  (hclock : absDiff k.nonce.toNat now≤ s.cfg.clockSkewMs)
  (hload : s.loadUserKeys ask k.user src now=(true,s₁))
  (hcached : s₁.cached (k.user,k.keyFp)=some keyBlob)
include hparse hclock hload hcached

theorem judging_eq : s.judging ask now src datagram=some (k,keyBlob,s₁) := by
  rw [judging,hparse]
  dsimp only
  rw [if_neg (Nat.not_lt.2 hclock),hload]
  dsimp only
  rw [hcached]
  rfl

/- Once the keys of the user are there, the entry of the key decides. -/
theorem handle_judged (hgrant : Admission.grant s₁.cfg s₁.hostKeys s₁.nonceFloor keyBlob k now src datagram
      (s₁.entryFor (k.user,k.keyFp) now,s₁.verify)=(r,t)) :
    s.verifications ask now src datagram =
        (Admission.checks C s₁.cfg s₁.nonceFloor keyBlob k now src datagram
          (s₁.entryFor (k.user,k.keyFp) now,s₁.verify)).map ((k.user,k.keyFp),·) ∧
      s.handle ask now src datagram =
        (verdictOf r,{ s₁.putEntry (k.user,k.keyFp) t.1 with verify := t.2 }) := by
  rw [verifications,judging_eq hparse hclock hload hcached]
  refine ⟨rfl,?_⟩
  rw [cached] at hcached
  rw [handle,hparse]
  dsimp only
  rw [if_neg (Nat.not_lt.2 hclock),hload]
  dsimp only
  rw [hcached]
  dsimp only
  rw [hgrant]
  cases r <;> rfl

end Judged

/-- The ways a datagram is treated: dropped before its keys are looked up, dropped for want of a
key, or judged by the entry of its key; with the verifications and the call of `keys_for` that it
causes. -/
inductive Treated (s : KnockState C) (ask : Answers) (now : Nat) (src : IpAddr)
    (datagram : Bytes) : Verdict → List ((Str × Bytes) × Check) → Bool → KnockState C → Prop
  | early (reason : DropReason)
      (hearly : ∀ k, Knock.parse datagram = .ok k → s.cfg.clockSkewMs<absDiff k.nonce.toNat now) :
      Treated s ask now src datagram (.drop reason) [] false s
  | unknown {k : Knock} (reason : DropReason) (hparse : Knock.parse datagram = .ok k)
      (hclock : absDiff k.nonce.toNat now≤ s.cfg.clockSkewMs) :
      Treated s ask now src datagram (.drop reason) [] (s.asksFor ask k.user src now)
        (s.loadUserKeys ask k.user src now).2
  | judged {k : Knock} {s₁ : KnockState C} {keyBlob : Bytes} {r : Except Refusal PendingAccept}
      {t : Entry × Bucket} (hparse : Knock.parse datagram = .ok k)
      (hclock : absDiff k.nonce.toNat now≤ s.cfg.clockSkewMs)
      (hload : (s.loadUserKeys ask k.user src now).2=s₁)
      (hcached : s₁.cached (k.user,k.keyFp)=some keyBlob)
      (hgrant : Admission.grant s₁.cfg s₁.hostKeys s₁.nonceFloor keyBlob k now src datagram
        (s₁.entryFor (k.user,k.keyFp) now,s₁.verify)=(r,t)) :
      Treated s ask now src datagram (verdictOf r)
        ((Admission.checks C s₁.cfg s₁.nonceFloor keyBlob k now src datagram
          (s₁.entryFor (k.user,k.keyFp) now,s₁.verify)).map ((k.user,k.keyFp),·))
        (s.asksFor ask k.user src now) { s₁.putEntry (k.user,k.keyFp) t.1 with verify := t.2 }

theorem handle_treated (s : KnockState C) (ask : Answers) (now : Nat) (src : IpAddr)
    (datagram : Bytes) : Treated s ask now src datagram (s.handle ask now src datagram).1
      (s.verifications ask now src datagram) (s.asksKeys ask now src datagram)
      (s.handle ask now src datagram).2 := by
  cases hparse : Knock.parse datagram with
  | error _ =>
    rw [handle,verifications,judging,asksKeys,hparse]
    exact .early _ (by simp [hparse])
  | ok k =>
    by_cases hclock : absDiff k.nonce.toNat now≤ s.cfg.clockSkewMs
    · have hasks : s.asksKeys ask now src datagram=s.asksFor ask k.user src now := by
        simp [asksKeys,hparse,hclock]
      have hnot := Nat.not_lt.2 hclock
      rcases hload : s.loadUserKeys ask k.user src now with ⟨_ | _,s₁⟩
      · rw [hasks,handle,verifications,judging,hparse]
        dsimp only
        rw [if_neg hnot,if_neg hnot,hload]
        exact (congrArg Prod.snd hload) ▸ .unknown .rateLimited hparse hclock
      · cases hcached : s₁.cached (k.user,k.keyFp) with
        | none =>
          have hlookup := hcached
          rw [cached] at hlookup
          rw [hasks,handle,verifications,judging,hparse]
          dsimp only
          rw [if_neg hnot,if_neg hnot,hload]
          dsimp only
          rw [hcached,hlookup]
          exact (congrArg Prod.snd hload) ▸ .unknown .unknownKey hparse hclock
        | some keyBlob =>
          rcases hgrant : Admission.grant s₁.cfg s₁.hostKeys s₁.nonceFloor keyBlob k now src datagram
            (s₁.entryFor (k.user,k.keyFp) now,s₁.verify) with ⟨r,t⟩
          obtain ⟨hchecks,hhandle⟩ := handle_judged hparse hclock hload hcached hgrant
          rw [hasks,hchecks,hhandle]
          exact .judged hparse hclock (congrArg Prod.snd hload) hcached hgrant
    · rw [handle,verifications,judging,asksKeys,hparse]
      dsimp only
      rw [if_pos (Nat.lt_of_not_le hclock),if_pos (Nat.lt_of_not_le hclock),decide_eq_false hclock]
      refine .early _ fun k' hk' => ?_
      cases hparse.symm.trans hk'
      exact Nat.lt_of_not_le hclock

end KnockState
end PureSsh.Knocking
