import PureSsh.Lib.Text

/-! What a session may do after it has authenticated: `AuthCertCaps` of `auth/server.rs`, with the
checks that `server.rs` makes of it. -/

namespace PureSsh.Auth
open Lib

structure HostPort where
  host : Text
  port : Option UInt16
  deriving DecidableEq, Repr

def HostPort.matches (e : HostPort) (host : Text) (port : UInt16) : Bool :=
  (e.host == "*".toList || e.host==host) && e.port.all (· == port)

structure AuthCertCaps where
  permitPty : Bool
  permitPortForwarding : Bool
  permitAgentForwarding : Bool
  permitX11Forwarding : Bool
  permitUserRc : Bool
  environment : List Text
  forceCommand : Option Text
  permitOpen : Option (List HostPort)
  permitListen : Option (List HostPort)
  forceTunDevice : Option UInt32
  noTouchRequired : Bool
  verifyRequired : Bool
  deriving DecidableEq, Repr

/- `is_none_or` over a list of destinations. -/
def allows (list : Option (List HostPort)) (host : Text) (port : UInt16) : Bool :=
  list.all fun l => l.any (·.matches host port)

def unitAny : UInt32 := 0x7fffffff

/- The device that is opened for a request, as the channel loop of `server.rs` picks it. -/
def tunUnit (forced : Option UInt32) (unit : UInt32) : Option UInt32 :=
  match forced with
  | some f => if unit≠unitAny ∧ unit≠f then none else some f
  | none => some unit

/- What a session may be used for. -/
inductive Use where
  | pty
  | destination (host : Text) (port : UInt16)
  | listener (host : Text) (port : UInt16)
  | streamLocal
  | agent
  | x11
  | userRc
  | withoutTouch
  | withoutVerification
  | tun (unit : UInt32)

namespace AuthCertCaps
variable {a b c c' : AuthCertCaps}

/- A tun device is within reach if a request opens it, or leaves the choice to the kernel. -/
def Permits (c : AuthCertCaps) : Use → Prop
  | .pty => c.permitPty
  | .destination host port => c.permitPortForwarding ∧ allows c.permitOpen host port
  | .listener host port => c.permitPortForwarding ∧ allows c.permitListen host port
  | .streamLocal => c.permitPortForwarding
  | .agent => c.permitAgentForwarding
  | .x11 => c.permitX11Forwarding
  | .userRc => c.permitUserRc
  | .withoutTouch => c.noTouchRequired
  | .withoutVerification => c.verifyRequired=false
  | .tun unit => ∃ asked, tunUnit c.forceTunDevice asked=some unit ∨
      tunUnit c.forceTunDevice asked=some unitAny

def unrestricted : AuthCertCaps where
  permitPty := true
  permitPortForwarding := true
  permitAgentForwarding := true
  permitX11Forwarding := true
  permitUserRc := true
  environment := []
  forceCommand := none
  permitOpen := none
  permitListen := none
  forceTunDevice := none
  noTouchRequired := true
  verifyRequired := false

def both : Option (List HostPort) → Option (List HostPort) → Option (List HostPort)
  | some a, some b => some (a.filter (· ∈ b))
  | a, b => a.or b

/- The result of `intersect`, unless the commands differ. -/
def merged (a b : AuthCertCaps) : AuthCertCaps where
  permitPty := a.permitPty && b.permitPty
  permitPortForwarding := a.permitPortForwarding && b.permitPortForwarding
  permitAgentForwarding := a.permitAgentForwarding && b.permitAgentForwarding
  permitX11Forwarding := a.permitX11Forwarding && b.permitX11Forwarding
  permitUserRc := a.permitUserRc && b.permitUserRc
  environment := a.environment++b.environment
  forceCommand := a.forceCommand.or b.forceCommand
  permitOpen := both a.permitOpen b.permitOpen
  permitListen := both a.permitListen b.permitListen
  forceTunDevice := a.forceTunDevice.or b.forceTunDevice
  noTouchRequired := a.noTouchRequired && b.noTouchRequired
  verifyRequired := a.verifyRequired || b.verifyRequired

def intersect (a b : AuthCertCaps) : Option AuthCertCaps :=
  match a.forceCommand, b.forceCommand with
  | some x, some y => if x≠y then none else some (merged a b)
  | _, _ => some (merged a b)

/- The same but for the order of the environment. -/
def Alike (c c' : AuthCertCaps) : Prop :=
  c.environment.Perm c'.environment ∧ { c with environment := [] } = { c' with environment := [] }

/-- `intersect` is a meet at `a` and `b`. -/
structure Meets (a b : AuthCertCaps) : Prop where
  lower : ∀ c, a.intersect b=some c → ∀ use, c.Permits use → a.Permits use ∧ b.Permits use
  forced : ∀ c, a.intersect b=some c → ∀ command,
    a.forceCommand=some command ∨ b.forceCommand=some command → c.forceCommand=some command
  identity : a.intersect unrestricted=some a ∧ unrestricted.intersect a=some a
  symmetric : ∀ c, a.intersect b=some c → ∃ c', b.intersect a=some c' ∧ c.Alike c'
  conflict : a.intersect b=none ↔
    ∃ x y, a.forceCommand=some x ∧ b.forceCommand=some y ∧ x≠y

/- The commands that both sides force are the same. -/
def Agreed (a b : AuthCertCaps) : Prop := ∀ x∈a.forceCommand, ∀ y∈b.forceCommand, x=y

theorem intersect_eq_some : a.intersect b=some c ↔ Agreed a b ∧ merged a b=c := by
  rw [intersect,Agreed]
  cases a.forceCommand <;> cases b.forceCommand <;> simp

theorem intersect_eq_none : a.intersect b=none ↔
    ∃ x y, a.forceCommand=some x ∧ b.forceCommand=some y ∧ x≠y := by
  rw [intersect]
  cases a.forceCommand <;> cases b.forceCommand <;> simp

theorem intersect_unrestricted (a : AuthCertCaps) :
    a.intersect unrestricted=some a ∧ unrestricted.intersect a=some a := by
  obtain ⟨⟩ := a
  simp [intersect_eq_some,Agreed,merged,unrestricted,both]

/- An entry of both lists stands in each of them. -/
theorem allows_both {l m : Option (List HostPort)} {host : Text} {port : UInt16}
    (h : allows (both l m) host port=true) : allows l host port ∧ allows m host port := by
  cases l <;> cases m
  all_goals simp_all only [allows,both,Option.or,Option.all_none,Option.all_some,and_self,
    List.any_filter,List.any_eq_true,Bool.and_eq_true,decide_eq_true_eq]
  obtain ⟨e,hl,hm,he⟩ := h
  exact ⟨⟨e,hl,he⟩,e,hm,he⟩

theorem permits_tun (unit : UInt32) : c.Permits (.tun unit) ↔
    ∀ f∈c.forceTunDevice, f=unit ∨ f=unitAny := by
  rw [Permits]
  cases c.forceTunDevice with
  | none => simp [tunUnit]
  | some f =>
    simp only [tunUnit,Option.mem_some,forall_eq']
    refine ⟨fun ⟨asked,h⟩ => ?_,fun h => ⟨f,?_⟩⟩
    all_goals grind

theorem or_comm_iff {α : Type} {x y : Option α} : x.or y=y.or x ↔ ∀ m∈x, ∀ n∈y, m=n := by
  cases x <;> cases y <;> simp

theorem both_comm_iff {l m : Option (List HostPort)} :
    both l m=both m l ↔ ∀ x∈l, ∀ y∈m, x.filter (· ∈ y)=y.filter (· ∈ x) := by
  cases l <;> cases m <;> simp [both]

theorem merged_lower (htun : ∀ m∈a.forceTunDevice, ∀ n∈b.forceTunDevice, m=n) {use : Use}
    (h : (merged a b).Permits use) : a.Permits use ∧ b.Permits use := by
  cases use with
  | tun unit =>
    simp only [permits_tun,merged] at h ⊢
    cases ha : a.forceTunDevice <;> cases hb : b.forceTunDevice
    all_goals simp_all
  | destination host port | listener host port =>
    simp only [Permits,merged,Bool.and_eq_true] at h ⊢
    have hboth := allows_both h.2
    exact ⟨⟨h.1.1,hboth.1⟩,h.1.2,hboth.2⟩
  | _ => simpa [Permits,merged] using h

/-- It is one unless two different tun devices are forced, of which only the first remains, or the
lists of destinations name what they share in a different order. -/
theorem meets_iff (a b : AuthCertCaps) : Meets a b ↔
    (∃ x y, a.forceCommand=some x ∧ b.forceCommand=some y ∧ x≠y) ∨
    (∀ m∈a.forceTunDevice, ∀ n∈b.forceTunDevice, m=n) ∧
      (∀ l∈a.permitOpen, ∀ m∈b.permitOpen, l.filter (· ∈ m)=m.filter (· ∈ l)) ∧
      ∀ l∈a.permitListen, ∀ m∈b.permitListen, l.filter (· ∈ m)=m.filter (· ∈ l) := by
  rw [← intersect_eq_none]
  constructor
  · intro h
    refine or_iff_not_imp_left.2 fun hsome => ?_
    obtain ⟨c,hc⟩ := Option.ne_none_iff_exists'.1 hsome
    obtain ⟨c',hc',-,hsame⟩ := h.symmetric c hc
    obtain ⟨-,rfl⟩ := intersect_eq_some.1 hc
    obtain ⟨-,rfl⟩ := intersect_eq_some.1 hc'
    simp only [merged,mk.injEq,or_comm_iff,both_comm_iff] at hsame
    tauto
  · intro h
    refine ⟨fun c hc use hp => ?_,fun c hc command hforce => ?_,intersect_unrestricted a,
      fun c hc => ?_,intersect_eq_none⟩
    all_goals obtain ⟨htun,hopen,hlisten⟩ := h.resolve_left (by simp [hc])
    all_goals obtain ⟨hagreed,rfl⟩ := intersect_eq_some.1 hc
    · exact merged_lower htun hp
    · rcases hforce with ha | hb
      · simp [merged,ha]
      · rw [merged,or_comm_iff.2 hagreed,hb,Option.some_or]
    · have hback : Agreed b a := fun x hx y hy => (hagreed y hy x hx).symm
      refine ⟨_,intersect_eq_some.2 ⟨hback,rfl⟩,List.perm_append_comm,?_⟩
      simp only [merged,both_comm_iff.2 hopen,both_comm_iff.2 hlisten,or_comm_iff.2 hagreed,
        or_comm_iff.2 htun,Bool.and_comm,Bool.or_comm]

def tunnel (unit : UInt32) : AuthCertCaps := { unrestricted with forceTunDevice := some unit }

/-- Of two keys bound to different tun devices, the first decides. -/
theorem first_tun_device_wins : (tunnel 1).intersect (tunnel 2)=some (tunnel 1) ∧
    (tunnel 2).intersect (tunnel 1)=some (tunnel 2) ∧
    (tunnel 1).Permits (.tun 1) ∧ ¬(tunnel 2).Permits (.tun 1) := by
  simp only [permits_tun,tunnel,Option.mem_some,forall_eq']
  decide

/-- But for a forced tun device, `c` permits nothing that `a` does not, and runs its command. -/
structure Below (c a : AuthCertCaps) : Prop where
  uses : ∀ use, { c with forceTunDevice := none }.Permits use →
    { a with forceTunDevice := none }.Permits use
  command : ∀ x∈a.forceCommand, x∈c.forceCommand

theorem Below.trans (h : c.Below b) (h' : b.Below a) : c.Below a :=
  ⟨fun use hp => h'.uses use (h.uses use hp),fun x hx => h.command x (h'.command x hx)⟩

theorem intersect_below (h : a.intersect b=some c) : c.Below a ∧ c.Below b := by
  obtain ⟨hagreed,rfl⟩ := intersect_eq_some.1 h
  have hlow (use : Use) := @merged_lower { a with forceTunDevice := none }
    { b with forceTunDevice := none } nofun use
  refine ⟨⟨fun use hp => (hlow use hp).1,fun x hx => ?_⟩,fun use hp => (hlow use hp).2,
    fun x hx => ?_⟩
  · simp_all [merged]
  · rw [merged,or_comm_iff.2 hagreed,hx]
    rfl

/- `none` is for no restriction. -/
def mergeCaps : Option AuthCertCaps → Option AuthCertCaps → Option (Option AuthCertCaps)
  | some a, some b => (a.intersect b).map some
  | a, b => some (a.or b)

theorem mergeCaps_below {p q r : Option AuthCertCaps} (h : mergeCaps p q=some r) :
    (r.getD unrestricted).Below (p.getD unrestricted) ∧
      (r.getD unrestricted).Below (q.getD unrestricted) := by
  apply intersect_below
  cases p <;> cases q <;> cases r <;> simp_all [mergeCaps,intersect_unrestricted]

/- `pending_cert_caps`, and what the certificates and lines of the accepted keys say. -/
abbrev Chain := Option AuthCertCaps × List AuthCertCaps

/- A key that the authenticator accepts, as does the check of security keys, with the restrictions
   of its certificate and of its line. -/
def Chain.add (s : Chain) (f : Option AuthCertCaps × Option AuthCertCaps) : Chain :=
  match mergeCaps f.1 f.2 >>= mergeCaps s.1 with
  | some c => (c,f.1.toList++f.2.toList++s.2)
  | none => s

theorem combined_below {p q r c : Option AuthCertCaps} (h : mergeCaps q r >>= mergeCaps p=some c) :
    ∀ o∈[p,q,r], (c.getD unrestricted).Below (o.getD unrestricted) := by
  obtain ⟨d,hd,hc⟩ := Option.bind_eq_some_iff.1 h
  have hpending := mergeCaps_below hc
  have hkey := mergeCaps_below hd
  simp only [List.forall_mem_cons]
  exact ⟨hpending.1,hpending.2.trans hkey.1,hpending.2.trans hkey.2,List.forall_mem_nil _⟩

/-- Whatever keys a session is authenticated by, each of them restricts it, and a key whose forced
command conflicts is refused. -/
theorem factors_restrict (fs : List (Option AuthCertCaps × Option AuthCertCaps)) :
    let s := fs.foldl Chain.add (none,[])
    s.2.Forall (s.1.getD unrestricted).Below ∧
      ∀ f, (∃ o∈[s.1,f.1,f.2], ∃ o'∈[s.1,f.1,f.2], ∃ x∈o.bind forceCommand,
        ∃ y∈o'.bind forceCommand, x≠y) → s.add f=s := by
  intro s
  constructor
  · refine List.foldlRecOn (motive := fun s => s.2.Forall (s.1.getD unrestricted).Below) fs Chain.add
      (b := (none,[])) trivial fun s hs f _ => ?_
    unfold Chain.add
    split
    next c h =>
      have hbelow := combined_below h
      simp only [List.forall_mem_cons] at hbelow
      simp only [List.forall_iff_forall_mem,List.mem_append,Option.mem_toList] at hs ⊢
      rintro a ((ha | ha) | ha)
      · rw [ha] at hbelow
        exact hbelow.2.1
      · rw [ha] at hbelow
        exact hbelow.2.2.1
      · exact hbelow.1.trans (hs a ha)
    · exact hs
  · rintro f ⟨o,ho,o',ho',x,hx,y,hy,hne⟩
    unfold Chain.add
    split
    next c h =>
      have hforced : ∀ o∈[s.1,f.1,f.2], ∀ x∈o.bind forceCommand,
          x∈(c.getD unrestricted).forceCommand := by
        intro o ho x hx
        obtain ⟨a,ha,hx⟩ := Option.bind_eq_some_iff.1 hx
        refine (combined_below h o ho).command x ?_
        rw [ha]
        exact hx
      exact absurd (Option.mem_unique (hforced o ho x hx) (hforced o' ho' y hy)) hne
    · rfl

end AuthCertCaps

end PureSsh.Auth
