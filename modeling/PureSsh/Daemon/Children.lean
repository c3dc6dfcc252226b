import Mathlib.Data.Set.Finite.Lattice
import PureSsh.Lib.Assoc

/-! The daemon's table of live connections and the caps on it (`ChildTable` of `bin/sshd.rs`). -/

namespace PureSsh.Daemon
open List

inductive IpAddr where
  | v4 (a : BitVec 32)
  | v6 (a : BitVec 128)
  deriving DecidableEq

/- `Penalties::mask`: the net block of a source. -/
def mask (bits : UInt8 × UInt8) : IpAddr → IpAddr
  | .v4 a => .v4 (a &&& BitVec.allOnes 32 <<< (32-min bits.1.toNat 32))
  | .v6 a => .v6 (a &&& BitVec.allOnes 128 <<< (128-min bits.2.toNat 128))

structure ChildRecord where
  ip : IpAddr
  authenticated : Bool

/- The records by process. -/
abbrev ChildTable := List (Nat × ChildRecord)

/- The caps; zero is no cap. `early` has the start and the rate of the random drop. -/
structure Caps where
  maxStartups : Nat
  early : Option (Nat × Nat)
  perSourceMax : Nat
  netBlockSize : UInt8 × UInt8
  rate_le : ∀ e∈early, e.2≤100

namespace ChildTable

def unauthenticated (t : ChildTable) : Nat := t.countP (!·.2.authenticated)

def countFromIp (t : ChildTable) (ip : IpAddr) : Nat := t.countP (·.2.ip=ip)

def remove (t : ChildTable) (pid : Nat) : ChildTable := t.filter (·.1≠pid)

def insert (t : ChildTable) (pid : Nat) (ip : IpAddr) : ChildTable :=
  (pid,⟨ip,false⟩)::t.remove pid

/- The child has reported that its user is authenticated. -/
def message (t : ChildTable) (pid : Nat) : ChildTable :=
  t.map fun c => if c.1=pid then (c.1,{ c.2 with authenticated := true }) else c

/- `draw` is the random number. -/
def dropsEarly (caps : Caps) (unauth draw : Nat) : Bool :=
  match caps.early with
  | none => false
  | some (start,rate) => 0<caps.maxStartups && start≤unauth &&
      draw%100< if start<caps.maxStartups then
        (100-rate)*(unauth-start)/(caps.maxStartups-start)+rate else 100

/- `admit` -/
def admitChild (t : ChildTable) (caps : Caps) (peer : IpAddr) (draw : Nat) : Except String Unit :=
  if 0<caps.maxStartups ∧ caps.maxStartups≤t.unauthenticated then .error "max-startups"
  else if dropsEarly caps t.unauthenticated draw then .error "max-startups (early drop)"
  else if 0<caps.perSourceMax ∧ caps.perSourceMax≤t.countFromIp peer then
    .error "per-source-max"
  else .ok ()

end ChildTable

open ChildTable

/- What the accept loop does to the table: a connection that gets as far as `admit`, a line on the
pipe of a child, a child that is reaped. -/
inductive Event where
  | connection (pid : Nat) (peer : IpAddr) (draw : Nat)
  | notice (pid : Nat)
  | exit (pid : Nat)

def step (caps : Caps) (t : ChildTable) : Event → ChildTable
  | .connection pid peer draw => match t.admitChild caps peer draw with
    | .ok () => t.insert pid peer
    | .error _ => t
  | .notice pid => t.message pid
  | .exit pid => t.remove pid

def run (caps : Caps) (events : List Event) : ChildTable := events.foldl (step caps) []

/-- The live children whose sources are in a net block. -/
def countFromBlock (caps : Caps) (t : ChildTable) (block : IpAddr) : Nat :=
  t.countP fun c => mask caps.netBlockSize c.2.ip=block

section Caps
variable {caps : Caps} {t : ChildTable} {peer : IpAddr} {pid draw : Nat}

theorem admit_eq_ok : t.admitChild caps peer draw = .ok () ↔
    (0<caps.maxStartups → t.unauthenticated<caps.maxStartups) ∧
    dropsEarly caps t.unauthenticated draw=false ∧
    (0<caps.perSourceMax → t.countFromIp peer<caps.perSourceMax) := by
  rw [admitChild]
  split_ifs <;> simp_all

theorem unauthenticated_message_le (t : ChildTable) (pid : Nat) :
    (t.message pid).unauthenticated≤t.unauthenticated := by
  rw [unauthenticated,message,countP_map]
  refine countP_mono_left fun c _ hc => ?_
  by_cases h : c.1=pid <;> simp_all

theorem countFromIp_message (t : ChildTable) (pid : Nat) (ip : IpAddr) :
    (t.message pid).countFromIp ip=t.countFromIp ip := by
  rw [countFromIp,message,countP_map]
  refine countP_congr fun c _ => ?_
  by_cases h : c.1=pid <;> simp [h]

theorem countP_remove_le (p : Nat × ChildRecord → Bool) (t : ChildTable) (pid : Nat) :
    (t.remove pid).countP p≤t.countP p := filter_sublist.countP_le

/-- The two counts that are looked at before a child is taken stay under their caps. -/
theorem run_capped (caps : Caps) (events : List Event) :
    (0<caps.maxStartups → (run caps events).unauthenticated≤caps.maxStartups) ∧
    (0<caps.perSourceMax → ∀ ip, (run caps events).countFromIp ip≤caps.perSourceMax) := by
  induction events using List.reverseRecOn with
  | nil => exact ⟨fun _ => Nat.zero_le _,fun _ _ => Nat.zero_le _⟩
  | append_singleton events e ih =>
    rw [run,foldl_append,foldl_cons,foldl_nil,← run]
    generalize run caps events=t at ih
    obtain ⟨hstart,hsource⟩ := ih
    cases e with
    | notice pid =>
      refine ⟨fun h => (unauthenticated_message_le t pid).trans (hstart h),fun h ip => ?_⟩
      exact (countFromIp_message t pid ip).trans_le (hsource h ip)
    | exit pid =>
      exact ⟨fun h => (countP_remove_le _ t pid).trans (hstart h),
        fun h ip => (countP_remove_le _ t pid).trans (hsource h ip)⟩
    | connection pid peer draw =>
      rw [step]
      split
      next hok =>
        obtain ⟨hunauth,-,hcount⟩ := admit_eq_ok.1 hok
        refine ⟨fun h => ?_,fun h ip => ?_⟩
        · have hle := countP_remove_le (!·.2.authenticated) t pid
          rw [unauthenticated,ChildTable.insert,countP_cons_of_pos (by rfl)]
          exact Nat.succ_le_of_lt (hle.trans_lt (hunauth h))
        · have hle := countP_remove_le (·.2.ip=ip) t pid
          by_cases hip : peer=ip
          · subst hip
            rw [countFromIp,ChildTable.insert,countP_cons_of_pos (by simp)]
            exact Nat.succ_le_of_lt (hle.trans_lt (hcount h))
          · rw [countFromIp,ChildTable.insert,countP_cons_of_neg (by simpa using hip)]
            exact hle.trans (hsource h ip)
      · exact ⟨hstart,hsource⟩

end Caps

section Blocks
variable {caps : Caps} {t : ChildTable} {events : List Event}

/-- Every connection is dropped early. -/
def ShutsOut (caps : Caps) : Prop := 0<caps.maxStartups ∧ caps.early=some (0,100)

/-- A block is one address. -/
def WholeAddresses (bits : UInt8 × UInt8) : Prop := 32≤bits.1.toNat ∧ 128≤bits.2.toNat

theorem mask_of_wholeAddresses {bits : UInt8 × UInt8} (h : WholeAddresses bits) (ip : IpAddr) :
    mask bits ip=ip := by
  cases ip with
  | v4 a => rw [mask,min_eq_right h.1,Nat.sub_self,BitVec.shiftLeft_zero,BitVec.and_allOnes]
  | v6 a => rw [mask,min_eq_right h.2,Nat.sub_self,BitVec.shiftLeft_zero,BitVec.and_allOnes]

theorem one_masked {w k : Nat} (hk : 0<k) : 1#w &&& BitVec.allOnes w <<< k=0#w := by
  ext i hi
  by_cases h : i=0 <;> simp [BitVec.getElem_one,h,hk]

theorem mask_collides {bits : UInt8 × UInt8} (h : ¬WholeAddresses bits) :
    ∃ a b, a≠b ∧ mask bits a=mask bits b := by
  rw [WholeAddresses,not_and_or,not_le,not_le] at h
  obtain h | h := h
  · refine ⟨.v4 0#32,.v4 1#32,by decide,?_⟩
    rw [mask,mask,one_masked (by omega),BitVec.zero_and]
  · refine ⟨.v6 0#128,.v6 1#128,by decide,?_⟩
    rw [mask,mask,one_masked (by omega),BitVec.zero_and]

theorem run_shutsOut (h : ShutsOut caps) (events : List Event) : run caps events=[] := by
  induction events using List.reverseRecOn with
  | nil => rfl
  | append_singleton events e ih =>
    rw [run,foldl_append,foldl_cons,foldl_nil,← run,ih]
    cases e with
    | notice | exit => rfl
    | connection pid peer draw =>
      have hdraw : draw%100<100 := Nat.mod_lt _ (by decide)
      have hdrop : dropsEarly caps 0 draw=true := by simp [dropsEarly,h.1,h.2,hdraw]
      have hadmit : admitChild [] caps peer draw ≠ .ok () := fun hok => by
        simpa [unauthenticated,hdrop] using (admit_eq_ok.1 hok).2.1
      rw [step]
      split
      next hok => exact absurd hok hadmit
      · rfl

theorem admit_open (hopen : ¬ShutsOut caps) (ht : t.unauthenticated=0) {peer : IpAddr}
    (hpeer : t.countFromIp peer<caps.perSourceMax) : t.admitChild caps peer 99 = .ok () := by
  refine admit_eq_ok.2 ⟨fun h => ht ▸ h,?_,fun _ => hpeer⟩
  rw [ht,dropsEarly]
  split
  · rfl
  next start rate hearly =>
    have hrate := caps.rate_le _ hearly
    by_contra hdrop
    simp only [Bool.not_eq_false,Bool.and_eq_true,decide_eq_true_eq] at hdrop
    obtain ⟨⟨hmax,hstart⟩,hdraw⟩ := hdrop
    obtain rfl := Nat.le_zero.1 hstart
    rw [if_pos hmax,Nat.sub_self,Nat.mul_zero,Nat.zero_div] at hdraw
    have hfull : rate=100 := by omega
    exact hopen ⟨hmax,hfull ▸ hearly⟩

/-- One more child of an address that has a place, authenticated at once. -/
theorem run_seat (hopen : ¬ShutsOut caps) (hrun : (run caps events).unauthenticated=0)
    {peer : IpAddr} (hpeer : (run caps events).countFromIp peer<caps.perSourceMax) :
    ∃ events' pid, run caps events'=(pid,⟨peer,true⟩)::run caps events := by
  obtain ⟨pid,hpid⟩ := Infinite.exists_notMem_finset ((run caps events).map Prod.fst).toFinset
  rw [mem_toFinset] at hpid
  have hfresh : ∀ c∈run caps events, c.1≠pid := fun c hc heq =>
    hpid (heq ▸ mem_map_of_mem hc)
  refine ⟨events++[.connection pid peer 99,.notice pid],pid,?_⟩
  rw [run,foldl_append,foldl_cons,foldl_cons,foldl_nil,← run,step,admit_open hopen hrun hpeer]
  have hremove : (run caps events).remove pid=run caps events := by
    simpa [ChildTable.remove] using hfresh
  rw [step,ChildTable.insert,hremove,message,map_cons,if_pos rfl]
  congr 1
  exact (map_congr_left fun c hc => if_neg (hfresh c hc)).trans (map_id _)

theorem run_seats (hopen : ¬ShutsOut caps) (peer : IpAddr) {n : Nat} (hn : n≤caps.perSourceMax) :
    ∃ events, (run caps events).unauthenticated=0 ∧ (run caps events).length=n ∧
      ∀ c∈run caps events, c.2.ip=peer := by
  induction n with
  | zero => exact ⟨[],rfl,rfl,by simp [run]⟩
  | succ n ih =>
    obtain ⟨events,hunauth,hlen,hip⟩ := ih (Nat.le_of_succ_le hn)
    have hcount : (run caps events).countFromIp peer<caps.perSourceMax :=
      (countP_le_length.trans_eq hlen).trans_lt hn
    obtain ⟨events',pid,hrun⟩ := run_seat hopen hunauth hcount
    refine ⟨events',?_,by simp [hrun,hlen],by simpa [hrun] using hip⟩
    rw [hrun,unauthenticated,countP_cons_of_neg (by simp)]
    exact hunauth

/-- The caps hold in every run, and for net blocks exactly if a block is one address or nobody
comes in at all. -/
theorem caps_iff (caps : Caps) :
    (0<caps.maxStartups → ∀ events, (run caps events).unauthenticated≤caps.maxStartups) ∧
    (0<caps.perSourceMax →
      ((∀ events block, countFromBlock caps (run caps events) block≤caps.perSourceMax) ↔
        WholeAddresses caps.netBlockSize ∨ ShutsOut caps)) := by
  refine ⟨fun h events => (run_capped caps events).1 h,fun hpos => ⟨fun hcap => ?_,?_⟩⟩
  · by_contra hnot
    obtain ⟨hblock,hopen⟩ := not_or.1 hnot
    obtain ⟨a,b,hne,hmask⟩ := mask_collides hblock
    obtain ⟨events,hunauth,hlen,hip⟩ := run_seats hopen a le_rfl
    have hb : (run caps events).countFromIp b=0 := by
      refine countP_eq_zero.2 fun c hc => ?_
      simpa [hip c hc] using hne
    obtain ⟨events',pid,hrun⟩ := run_seat hopen hunauth (hb ▸ hpos)
    have hall : countFromBlock caps (run caps events') (mask caps.netBlockSize a) =
        caps.perSourceMax+1 := by
      rw [countFromBlock,hrun,countP_cons_of_pos (by simp [hmask]),countP_eq_length.2,hlen]
      exact fun c hc => by simp [hip c hc]
    have hle := hcap events' (mask caps.netBlockSize a)
    omega
  · rintro (hwhole | hshut) events block
    · have hcount := (run_capped caps events).2 hpos block
      simpa [countFromBlock,mask_of_wholeAddresses hwhole,countFromIp] using hcount
    · rw [run_shutsOut hshut,countFromBlock]
      exact Nat.zero_le _

/-- Two addresses of one block have a child each where one is allowed. -/
theorem block_over_cap : ∃ caps events block, 0<caps.perSourceMax ∧
    caps.perSourceMax<countFromBlock caps (run caps events) block :=
  ⟨⟨10,none,1,(24,64),by simp⟩,[.connection 1 (.v4 0) 0,.connection 2 (.v4 1) 0],.v4 0,by decide⟩

end Blocks
end PureSsh.Daemon
