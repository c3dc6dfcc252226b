import Mathlib.Logic.Function.Basic
import PureSsh.Format
import PureSsh.Lib.Word32

/-! The requests of `ssh-agent` and its lock (`agent/server.rs`). Times are milliseconds. -/

namespace PureSsh.Agent
open Lib

structure Hop where
  user : Option Str
  hostname : Option Str
  keys : List (Bytes × Bool)

structure DestConstraint where
  fromHop : Hop
  toHop : Hop

/- The key itself is in memory or on a token. -/
structure Held (κ : Type) where
  key : κ
  blob : Bytes
  comment : Str
  expires : Option Nat
  confirm : Bool
  dest : List DestConstraint
  skProvider : Option Str

structure Bind where
  hostKey : Bytes
  sessionId : Bytes
  forwarded : Bool

structure ConnectionState where
  binds : List Bind := []
  bindAttempted : Bool := false

structure Lock where
  salt : Bytes
  digest : Bytes

structure AgentState (κ : Type) where
  keys : List (Held κ) := []
  locked : Option Lock := none
  unlockFailures : UInt32 := 0
  unlockAfter : Option Nat := none

/- What `handle_on` calls: `permitted_by_dest_constraints`, `verify_by_key`, and the handlers that
   sign and that add or remove keys. These see the connection and cannot change it. -/
structure Handlers (κ : Type) where
  permitted : Option Bytes → Option Bytes → Held κ → Option Str → Bool
  verifyByKey : Bytes → Bytes → Bytes → Bool
  sign : ConnectionState → Bytes → List (Held κ) → Option Bytes
  add : ConnectionState → Bool → Bytes → List (Held κ) → Option Bytes × List (Held κ)
  addSmartcard : ConnectionState → Bool → Bytes → List (Held κ) → Option Bytes × List (Held κ)
  removeSmartcard : Bytes → List (Held κ) → Option Bytes × List (Held κ)

/- A request on a connection. `expireAt` is the clock as `expire` reads it, `now` as an UNLOCK does,
   and `salt` what a LOCK draws. -/
structure Request (κ : Type) where
  conn : Nat
  bytes : Bytes
  expireAt : Nat
  now : Nat
  salt : Bytes
  handlers : Handlers κ

def failure : Bytes := [5]
def success : Bytes := [6]
def sessionBindName : Bytes := ascii "session-bind@openssh.com"

/- `Reader::new(body).read_string()`, the rest left aside. -/
def firstString (body : Bytes) : Option Bytes := (Reader.readString body).toOption.map Prod.fst

variable {κ : Type}

/- The hops from the first bind on; the last one is held against the user. -/
def permittedAlong (permitted : Option Bytes → Option Bytes → Held κ → Option Str → Bool)
    (held : Held κ) (user : Option Str) : Option Bytes → List Bind → Bool
  | _, [] => true
  | source, [b] =>
    !(b.forwarded && user.isSome) && permitted source (some b.hostKey) held user &&
      (!(b.forwarded && user.isNone) || permitted (some b.hostKey) none held none)
  | source, b::binds =>
    b.forwarded && permitted source (some b.hostKey) held none &&
      permittedAlong permitted held user (some b.hostKey) binds

def identityPermitted (permitted : Option Bytes → Option Bytes → Held κ → Option Str → Bool)
    (held : Held κ) (conn : ConnectionState) (user : Option Str) : Bool :=
  if held.dest.isEmpty then true
  else if conn.binds.isEmpty then !conn.bindAttempted
  else permittedAlong permitted held user none conn.binds

/- `remote` in `allowed_provider` -/
def ConnectionState.remote (conn : ConnectionState) : Bool :=
  conn.bindAttempted || !conn.binds.isEmpty

/- The connection is used for no other session once it has authenticated. -/
def recordBind (conn : ConnectionState) (new : Bind) : List Bind → Bool × ConnectionState
  | [] =>
    if conn.binds.length≥16 then (false,conn)
    else (true,{ conn with binds := conn.binds++[new] })
  | b::binds =>
    if !b.forwarded then (false,conn)
    else if b.sessionId=new.sessionId then (b.hostKey==new.hostKey,conn)
    else recordBind conn new binds

def parseBind (body : Bytes) : Result (Bind × Bytes) := do
  let (_,r) ← Reader.readString body
  let (hostKey,r) ← Reader.readString r
  let (sessionId,r) ← Reader.readString r
  let (sig,r) ← Reader.readString r
  let (forwarded,_) ← Reader.readBool r
  return (⟨hostKey,sessionId,forwarded⟩,sig)

def sessionBind (verifyByKey : Bytes → Bytes → Bytes → Bool) (body : Bytes)
    (conn : ConnectionState) : Bool × ConnectionState :=
  let conn := { conn with bindAttempted := true }
  match parseBind body with
  | .error _ => (false,conn)
  | .ok (new,sig) =>
    if new.sessionId.length>128 || !verifyByKey new.hostKey new.sessionId sig then (false,conn)
    else recordBind conn new conn.binds

def Held.heldAt (now : Nat) (k : Held κ) : Bool := k.expires.all (now < ·)

def identitiesAnswer (shown : List (Held κ)) : Bytes :=
  12::be32 (UInt32.ofNat shown.length) ++
    shown.flatMap fun k => Writer.writeString k.blob++Writer.writeString k.comment

namespace AgentState
variable (sha512 : Bytes → Bytes) (r : Request κ) (body : Bytes) (s : AgentState κ)

def expire (now : Nat) : AgentState κ := { s with keys := s.keys.filter (·.heldAt now) }

def removeIdentity (conn : ConnectionState) : Bytes × AgentState κ :=
  match firstString body with
  | none => (failure,s)
  | some blob =>
    match s.keys.findIdx? (·.blob==blob) with
    | none => (failure,s)
    | some i =>
      if (s.keys[i]?).any (identityPermitted r.handlers.permitted · conn none) then
        (success,{ s with keys := s.keys.eraseIdx i })
      else (failure,s)

def lock : Bytes × AgentState κ :=
  match firstString body with
  | none => (failure,s)
  | some pass => (success,{ s with locked := some ⟨r.salt,sha512 (r.salt++pass)⟩ })

def unlock : Bytes × AgentState κ :=
  match firstString body with
  | none => (failure,s)
  | some pass =>
    if s.unlockAfter.any (r.now < ·) then (failure,s)
    else if s.locked.any fun l => l.digest==sha512 (l.salt++pass) then
      (success,{ s with locked := none, unlockFailures := 0, unlockAfter := none })
    else
      let failures := satAdd s.unlockFailures 1
      (failure,{ s with unlockFailures := failures,
                         unlockAfter := some (r.now+min (100*failures.toNat) 10000) })

def extension (conn : ConnectionState) : Bytes × ConnectionState :=
  if firstString body=some (ascii "query") then
    (29::Writer.writeString (ascii "query")++Writer.writeString sessionBindName,conn)
  else if firstString body=some sessionBindName then
    let bound := sessionBind r.handlers.verifyByKey body conn
    (if bound.1 then success else [28],bound.2)
  else (failure,conn)

/- The match of `handle_on` on the type of the message. -/
def dispatch (msgType : UInt8) (conn : ConnectionState) : Bytes × AgentState κ × ConnectionState :=
  let keep (x : Option Bytes × List (Held κ)) := (x.1.getD failure,{ s with keys := x.2 },conn)
  let on (x : Bytes × AgentState κ) := (x.1,x.2,conn)
  match msgType with
  | 11 => (identitiesAnswer (s.keys.filter (identityPermitted r.handlers.permitted · conn none)),
      s,conn)
  | 13 => ((r.handlers.sign conn body s.keys).getD failure,s,conn)
  | 17 => keep (r.handlers.add conn false body s.keys)
  | 25 => keep (r.handlers.add conn true body s.keys)
  | 20 => keep (r.handlers.addSmartcard conn false body s.keys)
  | 26 => keep (r.handlers.addSmartcard conn true body s.keys)
  | 21 => keep (r.handlers.removeSmartcard body s.keys)
  | 18 => on (s.removeIdentity r body conn)
  | 19 => (success,{ s with keys := [] },conn)
  | 22 => on (s.lock sha512 r body)
  | 23 => if s.locked.isSome then on (s.unlock sha512 r body) else (failure,s,conn)
  | 27 => ((extension r body conn).1,s,(extension r body conn).2)
  | _ => (failure,s,conn)

/- Locked, the agent lists nothing and refuses the rest, but a session bind marks its connection. -/
def refuse (msgType : UInt8) (conn : ConnectionState) : Bytes × AgentState κ × ConnectionState :=
  (if msgType=11 then identitiesAnswer ([] : List (Held κ)) else failure,s,
    if msgType=27 ∧ firstString body=some sessionBindName then
      { conn with bindAttempted := true } else conn)

def handleOn (conn : ConnectionState) : Bytes × AgentState κ × ConnectionState :=
  let s := s.expire r.expireAt
  match r.bytes with
  | [] => (failure,s,conn)
  | msgType::body =>
    if s.locked.isSome && msgType != 23 then s.refuse body msgType conn
    else s.dispatch sha512 r body msgType conn

end AgentState

/- The agent with its connections, each under a number of its own. -/
structure Daemon (κ : Type) where
  state : AgentState κ := {}
  conns : Nat → ConnectionState := fun _ => {}

namespace Daemon
variable (sha512 : Bytes → Bytes)

def reply (a : Daemon κ) (r : Request κ) : Bytes :=
  (a.state.handleOn sha512 r (a.conns r.conn)).1

def step (a : Daemon κ) (r : Request κ) : Daemon κ :=
  let (_,state,conn) := a.state.handleOn sha512 r (a.conns r.conn)
  ⟨state,Function.update a.conns r.conn conn⟩

def run (a : Daemon κ) (rs : List (Request κ)) : Daemon κ := rs.foldl (step sha512) a

def exchange (a : Daemon κ) : List (Request κ) → List (Request κ × Bytes)
  | [] => []
  | r::rs => (r,a.reply sha512 r)::exchange (a.step sha512 r) rs

end Daemon

/- The passphrase of a LOCK (22) or an UNLOCK (23), and a session bind (27). -/
def Request.asks (r : Request κ) (msgType : UInt8) : Option Bytes :=
  match r.bytes with
  | [] => none
  | t::body => if t=msgType then firstString body else none

theorem asks_eq_some {r : Request κ} {t : UInt8} {pass : Bytes} :
    r.asks t=some pass ↔ ∃ body, r.bytes=t::body ∧ firstString body=some pass := by
  rcases hbytes : r.bytes with _ | ⟨msgType,body⟩ <;> simp [Request.asks,hbytes]

theorem head_of_asks {r : Request κ} {t : UInt8} {pass : Bytes} (h : r.asks t=some pass) :
    r.bytes.head?=some t := by
  obtain ⟨body,hbytes,-⟩ := asks_eq_some.1 h
  rw [hbytes,List.head?_cons]

/- When the next UNLOCK is heard, from the times of the failed ones, the newest first. -/
def backOff : List Nat → Nat
  | [] => 0
  | t::earlier => t+min (100*(earlier.length+1)) 10000

/- A wrong passphrase fails if it is heard. -/
def hear (p : Bytes) (fails : List Nat) (r : Request κ) : List Nat :=
  match r.asks 23 with
  | some pass => if r.now<backOff fails ∨ pass=p then fails else r.now::fails
  | none => fails

/- The state of an agent that `p` has locked. -/
structure Shut (sha512 : Bytes → Bytes) (p : Bytes) (fails : List Nat) (s : AgentState κ) : Prop where
  locked : ∃ salt, s.locked=some ⟨salt,sha512 (salt++p)⟩
  failures : s.unlockFailures.toNat=min fails.length (2^32-1)
  after : s.unlockAfter.getD 0=backOff fails

/- An agent that is not locked has forgotten the failed attempts. -/
def Rested (s : AgentState κ) : Prop :=
  s.locked=none → s.unlockFailures=0 ∧ s.unlockAfter=none

section Step
variable {sha512 : Bytes → Bytes} {s : AgentState κ} {r : Request κ} {conn : ConnectionState}
  {p : Bytes} {fails : List Nat}

theorem Rested.unlock (h : Rested s) (hlocked : s.locked.isSome=true) (body : Bytes) :
    Rested (s.unlock sha512 r body).2 := by
  unfold AgentState.unlock
  repeat' split
  · exact h
  · exact h
  · exact fun _ => ⟨rfl,rfl⟩
  · intro hnone
    simp_all

theorem Rested.handleOn (h : Rested s) : Rested (s.handleOn sha512 r conn).2.1 := by
  unfold AgentState.handleOn
  split
  · exact h
  · dsimp only
    split
    · exact h
    · unfold AgentState.dispatch
      split
      all_goals try exact h
      · unfold AgentState.removeIdentity
        repeat' split
        all_goals exact h
      · unfold AgentState.lock
        split
        · exact h
        · rintro ⟨⟩
      · split
        · next hlocked => exact Rested.unlock (s := s.expire r.expireAt) h hlocked _
        · exact h

theorem recordBind_attempted (new : Bind) (binds : List Bind) :
    (recordBind conn new binds).2.bindAttempted=conn.bindAttempted := by
  fun_induction recordBind conn new binds <;> simp_all

theorem attempted_sessionBind (verify : Bytes → Bytes → Bytes → Bool) (body : Bytes) :
    (sessionBind verify body conn).2.bindAttempted=true := by
  unfold sessionBind
  repeat' split
  all_goals simp [recordBind_attempted]

theorem dispatch_conn (msgType : UInt8) (body : Bytes) : (s.dispatch sha512 r body msgType conn).2.2 =
    if msgType=27 then (AgentState.extension r body conn).2 else conn := by
  unfold AgentState.dispatch
  split
  all_goals try rfl
  · split <;> rfl
  · next hother => rw [if_neg hother]

/-- Only an extension touches a connection: it marks it, or binds it. -/
theorem handleOn_conn (sha512 : Bytes → Bytes) (s : AgentState κ) (r : Request κ)
    (conn : ConnectionState) : (s.handleOn sha512 r conn).2.2=conn ∨ ∃ body, r.bytes=27::body ∧
      ((s.handleOn sha512 r conn).2.2={ conn with bindAttempted := true } ∨
        (s.handleOn sha512 r conn).2.2=(sessionBind r.handlers.verifyByKey body conn).2) := by
  rw [AgentState.handleOn]
  cases hbytes : r.bytes with
  | nil => exact .inl rfl
  | cons msgType body =>
    dsimp only
    split
    · dsimp only [AgentState.refuse]
      split
      · next hbind => exact .inr ⟨body,by rw [hbind.1],.inl rfl⟩
      · exact .inl rfl
    · rw [dispatch_conn]
      split
      · next hbind =>
        rw [AgentState.extension]
        split
        · exact .inl rfl
        split
        · exact .inr ⟨body,by rw [hbind],.inr rfl⟩
        · exact .inl rfl
      · exact .inl rfl

theorem attempted_handleOn (h : conn.bindAttempted=true) :
    (s.handleOn sha512 r conn).2.2.bindAttempted=true := by
  obtain heq | ⟨body,-,heq | heq⟩ := handleOn_conn sha512 s r conn <;> rw [heq]
  · exact h
  · exact attempted_sessionBind _ body

theorem attempted_refused (hlocked : s.locked.isSome=true)
    (hbind : r.asks 27=some sessionBindName) :
    (s.handleOn sha512 r conn).2.2.bindAttempted=true := by
  obtain ⟨body,hbytes,hname⟩ := asks_eq_some.1 hbind
  simp [AgentState.handleOn,AgentState.refuse,AgentState.expire,hbytes,hlocked,hname]

/- A request has left a locked agent as it was, but for the keys that expired. -/
structure Refused (sha512 : Bytes → Bytes) (p : Bytes) (fails : List Nat) (r : Request κ)
    (s : AgentState κ) (reply : Bytes) (s' : AgentState κ) : Prop where
  reply : reply=failure ∨ reply=identitiesAnswer ([] : List (Held κ))
  keys : s'.keys=s.keys
  shut : Shut sha512 p (hear p fails r) s'

theorem Shut.unlock (hinj : ∀ salt p q, sha512 (salt++p)=sha512 (salt++q) → p=q)
    (h : Shut sha512 p fails s) {body : Bytes} (hask : r.asks 23=firstString body) :
    if r.asks 23=some p ∧ backOff fails≤r.now then (s.unlock sha512 r body).1=success
    else Refused sha512 p fails r s (s.unlock sha512 r body).1 (s.unlock sha512 r body).2 := by
  obtain ⟨salt,hlocked⟩ := h.locked
  rw [hask]
  cases hpass : firstString body with
  | none => simpa [AgentState.unlock,hpass] using ⟨.inl rfl,rfl,by simpa [hear,hask,hpass] using h⟩
  | some pass =>
    have hafter : s.unlockAfter.any (r.now < ·)=decide (r.now<backOff fails) := by
      rw [← h.after]
      cases s.unlockAfter <;> simp
    have hmatch : (s.locked.any fun l => l.digest==sha512 (l.salt++pass)) =
        decide (pass=p) := by
      rw [hlocked,Option.any_some,Bool.eq_iff_iff,beq_iff_eq,decide_eq_true_eq]
      exact ⟨fun heq => (hinj salt p pass heq).symm,fun heq => by rw [heq]⟩
    simp only [AgentState.unlock,hpass,hafter,hmatch,Option.some.injEq,decide_eq_true_eq]
    by_cases hearly : r.now<backOff fails
    · rw [if_neg fun hdone => absurd hearly (Nat.not_lt.2 hdone.2),if_pos hearly]
      exact ⟨.inl rfl,rfl,by simpa [hear,hask,hpass,hearly] using h⟩
    · rw [if_neg hearly]
      by_cases hp : pass=p
      · rw [if_pos ⟨hp,Nat.not_lt.1 hearly⟩,if_pos hp]
      · rw [if_neg fun hdone => hp hdone.1,if_neg hp]
        refine ⟨.inl rfl,rfl,?_⟩
        simp only [hear,hask,hpass,hearly,hp]
        refine ⟨⟨salt,hlocked⟩,?_,?_⟩
        · simp [h.failures]
          omega
        · simp [backOff,h.failures]
          omega

theorem Shut.handleOn (hinj : ∀ salt p q, sha512 (salt++p)=sha512 (salt++q) → p=q)
    (h : Shut sha512 p fails s) (r : Request κ) (conn : ConnectionState) :
    if r.asks 23=some p ∧ backOff fails≤r.now then (s.handleOn sha512 r conn).1=success
    else Refused sha512 p fails r (s.expire r.expireAt) (s.handleOn sha512 r conn).1
      (s.handleOn sha512 r conn).2.1 := by
  have hexp : Shut sha512 p fails (s.expire r.expireAt) := ⟨h.locked,h.failures,h.after⟩
  have hsome : (s.expire r.expireAt).locked.isSome=true := by
    obtain ⟨salt,hlocked⟩ := hexp.locked
    rw [hlocked,Option.isSome_some]
  have hother (hask : r.asks 23=none) : Shut sha512 p (hear p fails r) (s.expire r.expireAt) := by
    simpa [hear,hask] using hexp
  rw [AgentState.handleOn]
  rcases hbytes : r.bytes with _ | ⟨msgType,body⟩
  · have hask : r.asks 23=none := by simp [Request.asks,hbytes]
    simpa [hask] using ⟨.inl rfl,rfl,hother hask⟩
  · by_cases htype : msgType=23
    · subst htype
      simpa [AgentState.dispatch,hsome] using
        hexp.unlock hinj (show r.asks 23=firstString body by simp [Request.asks,hbytes])
    · have hask : r.asks 23=none := by simp [Request.asks,hbytes,htype]
      simp only [hsome,bne_iff_ne.2 htype,Bool.and_self,if_true,hask,AgentState.refuse]
      exact ⟨by split <;> simp,rfl,hother hask⟩

theorem shut_of_lock (h : Rested s) (hask : r.asks 22=some p)
    (hdone : (s.handleOn sha512 r conn).1=success) :
    Shut sha512 p [] (s.handleOn sha512 r conn).2.1 := by
  obtain ⟨body,hbytes,hpass⟩ := asks_eq_some.1 hask
  cases hlocked : s.locked with
  | some l =>
    simp [AgentState.handleOn,hbytes,AgentState.expire,hlocked,AgentState.refuse,success,
      failure] at hdone
  | none =>
    obtain ⟨hfailures,hafter⟩ := h hlocked
    simp only [AgentState.handleOn,hbytes,AgentState.expire,hlocked,AgentState.dispatch,
      AgentState.lock,hpass]
    exact ⟨⟨r.salt,rfl⟩,by simp [hfailures],by simp [hafter,backOff]⟩

/- Without binds, a connection that tried to bind sees only the keys without constraints. -/
theorem identityPermitted_attempted (h : conn.bindAttempted=true) (hbinds : conn.binds=[])
    (permitted : Option Bytes → Option Bytes → Held κ → Option Str → Bool) (held : Held κ)
    (user : Option Str) : identityPermitted permitted held conn user=held.dest.isEmpty := by
  cases hdest : held.dest <;> simp [identityPermitted,h,hbinds,hdest]

end Step

section Run
variable {sha512 : Bytes → Bytes} {a : Daemon κ} {p : Bytes} {fails : List Nat}

theorem rested_run (h : Rested a.state) (rs : List (Request κ)) :
    Rested (a.run sha512 rs).state := by
  induction rs generalizing a with
  | nil => exact h
  | cons r rs ih => exact ih (a := a.step sha512 r) h.handleOn

theorem attempted_step {c : Nat} (h : (a.conns c).bindAttempted=true) (r : Request κ) :
    ((a.step sha512 r).conns c).bindAttempted=true := by
  simp only [Daemon.step,Function.update_apply]
  split
  · next heq => exact attempted_handleOn (heq ▸ h)
  · exact h

theorem attempted_run {c : Nat} (h : (a.conns c).bindAttempted=true) (rs : List (Request κ)) :
    ((a.run sha512 rs).conns c).bindAttempted=true := by
  induction rs generalizing a with
  | nil => exact h
  | cons r rs ih => exact ih (attempted_step h r)

theorem Shut.run (hinj : ∀ salt p q, sha512 (salt++p)=sha512 (salt++q) → p=q)
    (h : Shut sha512 p fails a.state) (rs : List (Request κ))
    (hshut : ∀ e∈a.exchange sha512 rs, ¬(e.1.bytes.head?=some 23 ∧ e.2=success)) :
    (∀ e∈a.exchange sha512 rs, e.2=failure ∨ e.2=identitiesAnswer ([] : List (Held κ))) ∧
    (a.run sha512 rs).state.keys =
      a.state.keys.filter (fun k => rs.all fun r => k.heldAt r.expireAt) ∧
    Shut sha512 p (rs.foldl (hear p) fails) (a.run sha512 rs).state ∧
    ∀ r∈rs, r.asks 27=some sessionBindName →
      ((a.run sha512 rs).conns r.conn).bindAttempted=true := by
  induction rs generalizing a fails with
  | nil => simpa [Daemon.exchange,Daemon.run] using h
  | cons r rs ih =>
    have hstep := h.handleOn hinj r (a.conns r.conn)
    rw [Daemon.exchange,List.forall_mem_cons] at hshut
    split at hstep
    · next hdone => exact absurd ⟨head_of_asks hdone.1,hstep⟩ hshut.1
    · obtain ⟨hreplies,hkeys,hafter,hbinds⟩ := ih (a := a.step sha512 r) hstep.shut hshut.2
      refine ⟨List.forall_mem_cons.2 ⟨hstep.reply,hreplies⟩,hkeys.trans ?_,hafter,
        List.forall_mem_cons.2 ⟨fun hbind => attempted_run ?_ rs,hbinds⟩⟩
      · rw [show (a.step sha512 r).state.keys=_ from hstep.keys,AgentState.expire,
          List.filter_filter]
        simp only [List.all_cons,Bool.and_comm]
      · obtain ⟨salt,hlocked⟩ := h.locked
        simpa [Daemon.step] using attempted_refused (by simp [hlocked]) hbind

end Run

/-- From a LOCK with `p` to the UNLOCK that succeeds, no request on any connection is answered with a
signature or a key, and keys go only when they expire. An UNLOCK succeeds exactly with `p` and once
the pause after the failed ones is over. A connection that asked for a session bind in the meantime
is never a local one again. -/
theorem locked_agent_shut (sha512 : Bytes → Bytes)
    (hinj : ∀ salt p q, sha512 (salt++p)=sha512 (salt++q) → p=q)
    (before during : List (Request κ)) (lock : Request κ) (p : Bytes) (hask : lock.asks 22=some p)
    (hdone : (Daemon.run sha512 {} before).reply sha512 lock=success)
    (hshut : ∀ e∈((Daemon.run sha512 {} before).step sha512 lock).exchange sha512 during,
      ¬(e.1.bytes.head?=some 23 ∧ e.2=success)) :
    let a := (Daemon.run sha512 {} before).step sha512 lock
    (∀ e∈a.exchange sha512 during, e.2=failure ∨ e.2=identitiesAnswer ([] : List (Held κ))) ∧
    (a.run sha512 during).state.keys =
      a.state.keys.filter (fun k => during.all fun r => k.heldAt r.expireAt) ∧
    (∀ r : Request κ, r.bytes.head?=some 23 ∧ (a.run sha512 during).reply sha512 r=success ↔
      r.asks 23=some p ∧ backOff (during.foldl (hear p) [])≤r.now) ∧
    ∀ r∈during, r.asks 27=some sessionBindName → ∀ later,
      let conn := (a.run sha512 (during++later)).conns r.conn
      conn.remote=true ∧ (conn.binds=[] → ∀ permitted (held : Held κ) user,
        identityPermitted permitted held conn user=held.dest.isEmpty) := by
  intro a
  have hlocked : Shut sha512 p [] a.state :=
    shut_of_lock (rested_run (fun _ => ⟨rfl,rfl⟩) before) hask hdone
  obtain ⟨hreplies,hkeys,hafter,hbinds⟩ := hlocked.run hinj during hshut
  refine ⟨hreplies,hkeys,fun r => ?_,fun r hr hbind later => ?_⟩
  · have hstep := hafter.handleOn hinj r ((a.run sha512 during).conns r.conn)
    split at hstep
    · next hopens => exact iff_of_true ⟨head_of_asks hopens.1,hstep⟩ hopens
    · next hopens =>
      refine iff_of_false (fun h => ?_) hopens
      have hreply : Daemon.reply sha512 _ r=_ ∨ Daemon.reply sha512 _ r=_ := hstep.reply
      simp [h.2,success,failure,identitiesAnswer] at hreply
  · have hmark : ((a.run sha512 (during++later)).conns r.conn).bindAttempted=true := by
      rw [Daemon.run,List.foldl_append]
      exact attempted_run (hbinds r hr hbind) later
    exact ⟨by simp [ConnectionState.remote,hmark],identityPermitted_attempted hmark⟩

def closedHandlers : Handlers Unit where
  permitted _ _ _ _ := false
  verifyByKey _ _ _ := false
  sign _ _ _ := none
  add _ _ _ keys := (none,keys)
  addSmartcard _ _ _ keys := (none,keys)
  removeSmartcard _ keys := (none,keys)

def askAt (now : Nat) (msgType : UInt8) (s : String) : Request Unit :=
  ⟨0,msgType::Writer.writeString (ascii s),now,now,[],closedHandlers⟩

/- The agent is given a key, and locked. -/
def lockedWithKey : Daemon Unit :=
  (Daemon.run id {} [{ askAt 0 17 "" with handlers := { closedHandlers with
    add := fun _ _ _ keys => (some success,⟨(),[1],[],none,false,[],none⟩::keys) } }]).step id
      (askAt 0 22 "pw")

/-- It does not list the key, and is opened again after a wrong guess. -/
theorem locked_agent_shut_guess : lockedWithKey.state.keys.map (·.blob)=[[1]] ∧
    (∀ e∈lockedWithKey.exchange id [askAt 5 11 "",askAt 10 23 "guess"],
      e.2=failure ∨ e.2=identitiesAnswer ([] : List (Held Unit))) ∧
    (lockedWithKey.run id [askAt 5 11 "",askAt 10 23 "guess"]).reply id (askAt 110 23 "pw")=success :=
  have h := locked_agent_shut id (fun _ _ _ h => List.append_cancel_left h) _
    [askAt 5 11 "",askAt 10 23 "guess"] (askAt 0 22 "pw") (ascii "pw") rfl (by decide) (by decide)
  ⟨by decide,h.1,((h.2.2.1 (askAt 110 23 "pw")).2 (by decide)).2⟩

/-- Sessions that differ, each proved by a request of the connection that names it; only the last may
authenticate. -/
structure BindPath (rs : List (Request κ)) (c : Nat) (binds : List Bind) : Prop where
  short : binds.length≤16
  path : binds.Pairwise fun b b' => b.forwarded=true ∧ b.sessionId≠b'.sessionId
  proved : ∀ b∈binds, ∃ r∈rs, r.conn=c ∧ ∃ body sig, r.bytes=27::body ∧
    parseBind body = .ok (b,sig) ∧ r.handlers.verifyByKey b.hostKey b.sessionId sig=true

section Binds
variable {rs : List (Request κ)} {r : Request κ} {conn : ConnectionState}

theorem recordBind_cases (conn : ConnectionState) (new : Bind) (l : List Bind) :
    (recordBind conn new l).2.binds=conn.binds ∨ conn.binds.length<16 ∧
      (∀ b∈l, b.forwarded=true ∧ b.sessionId≠new.sessionId) ∧
      (recordBind conn new l).2.binds=conn.binds++[new] := by
  induction l with
  | nil =>
    rw [recordBind]
    split
    · exact .inl rfl
    · next hlen => exact .inr ⟨Nat.not_le.1 hlen,nofun,rfl⟩
  | cons b l ih =>
    rw [recordBind]
    split
    · exact .inl rfl
    split
    · exact .inl rfl
    next hforwarded hsession =>
    obtain heq | ⟨hlen,hall,heq⟩ := ih
    · exact .inl heq
    · exact .inr ⟨hlen,List.forall_mem_cons.2 ⟨⟨by simpa using hforwarded,hsession⟩,hall⟩,heq⟩

theorem BindPath.sessionBind (h : BindPath rs r.conn conn.binds) (hr : r∈rs) {body : Bytes}
    (hbytes : r.bytes=27::body) :
    BindPath rs r.conn (sessionBind r.handlers.verifyByKey body conn).2.binds := by
  unfold Agent.sessionBind
  split
  · exact h
  next new sig hparse =>
    split
    · exact h
    next hok =>
    obtain heq | ⟨hlen,hall,heq⟩ := recordBind_cases ⟨conn.binds,true⟩ new conn.binds <;> rw [heq]
    · exact h
    · refine ⟨by simpa [Nat.lt_succ_iff] using hlen,
        List.pairwise_append.2 ⟨h.path,by simp,by simpa using hall⟩,fun b hb => ?_⟩
      obtain hb | rfl := by simpa using hb
      · exact h.proved b hb
      · exact ⟨r,hr,rfl,body,sig,hbytes,hparse,by simp_all⟩

theorem BindPath.handleOn (h : BindPath rs r.conn conn.binds) (hr : r∈rs) (sha512 : Bytes → Bytes)
    (s : AgentState κ) : BindPath rs r.conn (s.handleOn sha512 r conn).2.2.binds := by
  obtain heq | ⟨body,hbytes,heq | heq⟩ := handleOn_conn sha512 s r conn <;> rw [heq]
  · exact h
  · exact h
  · exact h.sessionBind hr hbytes

end Binds

end PureSsh.Agent
