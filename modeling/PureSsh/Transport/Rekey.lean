import PureSsh.Lib.Word32
import PureSsh.Transport.RunnerCases

/-! When new keys are due: the counters of the codec over whole runs and the thresholds of the
re-key policy (`hazmat/transport/packet.rs`, `hazmat/transport/rekey.rs`). -/

namespace PureSsh.Transport
open Lib Proc
variable {S : KexSuite} {P : Primitives}

/- What one end does with its codec. The runner of an installation is arbitrary. -/
inductive CodecEvent (S : KexSuite) where
  | encode (payload : Bytes)
  | decode (buf : Bytes)
  | install (r : KexRunner S)
  | activateCompress

/- What went over the wire under the present keys, counted without bound. -/
structure Epoch where
  packetsOut : Nat
  packetsIn : Nat
  wireOut : Nat
  wireIn : Nat
  deriving DecidableEq, Repr

namespace Epoch

def start : Epoch := ⟨0,0,0,0⟩

def sent (n : Nat) (e : Epoch) : Epoch :=
  { e with packetsOut := e.packetsOut+1, wireOut := e.wireOut+n }

def received (n : Nat) (e : Epoch) : Epoch :=
  { e with packetsIn := e.packetsIn+1, wireIn := e.wireIn+n }

end Epoch

structure Metered (P : Primitives) where
  codec : PacketCodec P
  rng : Rng
  epoch : Epoch

namespace Metered

def new (rng : Rng) : Metered P := ⟨PacketCodec.new,rng,Epoch.start⟩

/- A frame that was taken off the wire counts, also if its payload then fails to inflate. -/
def afterDecode (r : Result (Option (Bytes × Nat))) (e : Epoch) : Epoch :=
  match r with
  | .ok (some (_,consumed)) => e.received consumed
  | _ => e

/- `maybe_install` opens an epoch when it succeeds and both NEWKEYS have gone by. -/
def afterInstall (r : KexRunner S) (res : Result Unit) (e : Epoch) : Epoch :=
  match res with
  | .ok _ => if r.sentNewkeys && r.peerNewkeys then Epoch.start else e
  | .error _ => e

def afterEncode (res : Result Bytes) (e : Epoch) : Epoch :=
  match res with
  | .ok frame => e.sent frame.length
  | .error _ => e

/- A failed call may be followed by others. -/
def step (m : Metered P) : CodecEvent S → Metered P
  | .encode payload =>
    let res := PacketCodec.encode payload (m.codec,m.rng)
    { codec := res.2.1, rng := res.2.2, epoch := afterEncode res.1 m.epoch }
  | .decode buf =>
    { m with codec := (PacketCodec.decode buf m.codec).2
             epoch := afterDecode (PacketCodec.decodeFrame buf m.codec).1 m.epoch }
  | .install r =>
    let res := r.maybeInstall m.codec
    { m with codec := res.2, epoch := afterInstall r res.1 m.epoch }
  | .activateCompress => { m with codec := m.codec.activateCompress }

def run (m : Metered P) (events : List (CodecEvent S)) : Metered P := events.foldl step m

end Metered

/- The part of a codec that the policy looks at. -/
structure Counters where
  seqIn : UInt32
  seqOut : UInt32
  bytesIn : Nat
  bytesOut : Nat
  seqInBase : UInt32
  seqOutBase : UInt32

def PacketCodec.counters (c : PacketCodec P) : Counters :=
  ⟨c.seqIn,c.seqOut,c.bytesIn,c.bytesOut,c.seqInBase,c.seqOutBase⟩

def Counters.sent (n : Nat) (k : Counters) : Counters :=
  { k with seqOut := k.seqOut+1, bytesOut := addBytes k.bytesOut n }

def Counters.received (n : Nat) (k : Counters) : Counters :=
  { k with seqIn := k.seqIn+1, bytesIn := addBytes k.bytesIn n }

section Steps
open Proc

theorem keeps_toFrame (payload : Bytes) :
    Keeps PacketCodec.counters (PacketCodec.toFrame payload : Proc Error (PacketCodec P) Bytes) := by
  intro c
  rw [PacketCodec.toFrame,get_bind]
  split
  · rfl
  · rfl

theorem keeps_fromFrame (payload : Bytes) : Keeps PacketCodec.counters
      (PacketCodec.fromFrame payload : Proc Error (PacketCodec P) Bytes) := by
  intro c
  rw [PacketCodec.fromFrame,get_bind]
  split
  · rfl
  · rfl

theorem keeps_encodeFrame (payload : Bytes) : Keeps (fun s => s.1.counters)
      (PacketCodec.encodeFrame payload : Proc Error (PacketCodec P × Rng) Bytes) := by
  rintro ⟨c,rng⟩
  rw [PacketCodec.encodeFrame,get_bind]
  dsimp only
  cases c.outbound with
  | none => rfl
  | stream cipher mac => rfl
  | gcm cipher => rfl
  | chachaPoly cipher => rfl

theorem keeps_decodeFrame (buf : Bytes) : Keeps PacketCodec.counters
      (PacketCodec.decodeFrame buf : Proc Error (PacketCodec P) (Option (Bytes × Nat))) := by
  intro c
  rw [PacketCodec.decodeFrame,get_bind]
  cases c.inbound with
  | none => rfl
  | stream cipher mac => rfl
  | gcm cipher => rfl
  | chachaPoly cipher => rfl

theorem keeps_onFst_toFrame (payload : Bytes) :
    Keeps (fun s : PacketCodec P × Rng => s.1.counters) (onFst (PacketCodec.toFrame payload)) :=
  fun s => keeps_toFrame payload s.1

variable {payload buf : Bytes} {c c' : PacketCodec P}

/- A frame that was built moves the outbound counters. -/
theorem encode_counters {frame : Bytes} {s s' : PacketCodec P × Rng}
    (h : PacketCodec.encode payload s=(.ok frame,s')) :
    s'.1.counters=s.1.counters.sent frame.length := by
  obtain ⟨body,s₁,hto,h⟩ := bind_eq_ok.1 h
  obtain ⟨frame',s₂,hframe,h⟩ := bind_eq_ok.1 h
  cases h
  have h₁ := keeps_onFst_toFrame payload s
  have h₂ := keeps_encodeFrame body s₁
  rw [hto] at h₁
  rw [hframe] at h₂
  exact congrArg (Counters.sent frame.length) (h₂.trans h₁)

theorem encode_keepsOnError (payload : Bytes) :
    KeepsOnError (fun s : PacketCodec P × Rng => s.1.counters) (PacketCodec.encode payload) :=
  .bind (keeps_onFst_toFrame payload) fun body =>
    .bind (keeps_encodeFrame body) fun frame => (total_modify_pure _ frame).keepsOnError

/- A frame that was accepted moves the inbound counters, whatever its payload turns into. -/
theorem decode_counters {consumed : Nat}
    (h : PacketCodec.decodeFrame buf c=(.ok (some (payload,consumed)),c')) :
    (PacketCodec.decode buf c).2.counters=c.counters.received consumed := by
  have hkept := keeps_decodeFrame buf c
  rw [h] at hkept
  have hfrom : Keeps PacketCodec.counters (PacketCodec.fromFrame payload >>= fun payload =>
      (pure (some (payload,consumed)) : Proc Error (PacketCodec P) (Option (Bytes × Nat)))) :=
    (keeps_fromFrame payload).bind fun _ _ => rfl
  rw [PacketCodec.decode,bind_of_ok h]
  dsimp only
  rw [modify_bind,hfrom]
  exact congrArg (Counters.received consumed) hkept

theorem decode_counters_none (h : PacketCodec.decodeFrame buf c=(.ok none,c')) :
    (PacketCodec.decode buf c).2.counters=c.counters := by
  have hkept := keeps_decodeFrame buf c
  rw [h] at hkept
  rw [PacketCodec.decode,bind_of_ok h]
  exact hkept

theorem decode_counters_error {e : Error} (h : PacketCodec.decodeFrame buf c=(.error e,c')) :
    (PacketCodec.decode buf c).2.counters=c.counters := by
  have hkept := keeps_decodeFrame buf c
  rw [h] at hkept
  rw [PacketCodec.decode,bind_of_error h]
  exact hkept

/- An installation that fails has not come to the counters yet. -/
theorem maybeInstall_keepsOnError (r : KexRunner S) :
    KeepsOnError PacketCodec.counters (r.maybeInstall : Proc Error (PacketCodec P) Unit) := by
  have hlift : ∀ {α : Type} (x : Result α),
      Keeps PacketCodec.counters (lift x : Proc Error (PacketCodec P) α) := fun _ _ => rfl
  have hokOr : ∀ {α : Type} (e : Error) (o : Option α),
      Keeps PacketCodec.counters (okOr e o : Proc Error (PacketCodec P) α) :=
    fun _ o _ => by cases o <;> rfl
  rw [KexRunner.maybeInstall]
  split
  · exact (total_pure ()).keepsOnError
  · refine .bind (hlift _) fun keys => .bind (hlift _) fun out => .bind ?_ fun _ =>
      .bind (hlift _) fun inb => .bind ?_ fun _ => .bind (hlift _) fun neg =>
      .bind (hokOr _ _) fun outComp => .bind (hokOr _ _) fun inComp => Total.keepsOnError ?_
    · exact (hlift _).bind fun _ _ => rfl
    · exact (hlift _).bind fun _ _ => rfl
    · exact fun c => ⟨(),_,rfl⟩

end Steps

/- The counters of a codec say what went over the wire in an epoch: the sequence numbers modulo
   2³², the bytes up to the largest 64-bit number. -/
structure Accounts (c : PacketCodec P) (e : Epoch) : Prop where
  packetsOut : c.seqOut-c.seqOutBase=UInt32.ofNat e.packetsOut
  packetsIn : c.seqIn-c.seqInBase=UInt32.ofNat e.packetsIn
  bytesOut : c.bytesOut=min e.wireOut (2^64-1)
  bytesIn : c.bytesIn=min e.wireIn (2^64-1)

namespace Accounts

variable {c c' : PacketCodec P} {e : Epoch} {n : Nat} {m : Metered P}

theorem of_counters (h : Accounts c e) (hc : c'.counters=c.counters) : Accounts c' e := by
  simp only [PacketCodec.counters,Counters.mk.injEq] at hc
  obtain ⟨hseqIn,hseqOut,hbytesIn,hbytesOut,hinBase,houtBase⟩ := hc
  exact ⟨by rw [hseqOut,houtBase,h.packetsOut],by rw [hseqIn,hinBase,h.packetsIn],
    hbytesOut.trans h.bytesOut,hbytesIn.trans h.bytesIn⟩

theorem next_seq {seq base : UInt32} (h : seq-base=UInt32.ofNat n) :
    seq+1-base=UInt32.ofNat (n+1) := by
  rw [UInt32.ofNat_add]
  grind

theorem addBytes_min (w n : Nat) : addBytes (min w (2^64-1)) n=min (w+n) (2^64-1) := by
  rw [addBytes]
  omega

theorem sent (h : Accounts c e) (hc : c'.counters=c.counters.sent n) : Accounts c' (e.sent n) := by
  simp only [PacketCodec.counters,Counters.sent,Counters.mk.injEq] at hc
  obtain ⟨hseqIn,hseqOut,hbytesIn,hbytesOut,hinBase,houtBase⟩ := hc
  refine ⟨?_,?_,?_,hbytesIn.trans h.bytesIn⟩
  · rw [hseqOut,houtBase]
    exact next_seq h.packetsOut
  · rw [hseqIn,hinBase]
    exact h.packetsIn
  · rw [hbytesOut,h.bytesOut]
    exact addBytes_min e.wireOut n

theorem received (h : Accounts c e) (hc : c'.counters=c.counters.received n) : Accounts c' (e.received n) := by
  simp only [PacketCodec.counters,Counters.received,Counters.mk.injEq] at hc
  obtain ⟨hseqIn,hseqOut,hbytesIn,hbytesOut,hinBase,houtBase⟩ := hc
  refine ⟨?_,?_,hbytesOut.trans h.bytesOut,?_⟩
  · rw [hseqOut,houtBase]
    exact h.packetsOut
  · rw [hseqIn,hinBase]
    exact next_seq h.packetsIn
  · rw [hbytesIn,h.bytesIn]
    exact addBytes_min e.wireIn n

/- Strict key exchange sets the sequence numbers back before the base is taken. -/
theorem installed {r : KexRunner S} (h : Installed r c c') : Accounts c' Epoch.start :=
  ⟨by rw [h.seqOutBase,UInt32.sub_self]; rfl,by rw [h.seqInBase,UInt32.sub_self]; rfl,
    h.bytesOut,h.bytesIn⟩

/-- Each call keeps the account: a packet is counted when its frame is, and an installation
starts the count afresh. -/
theorem step (h : Accounts m.codec m.epoch) (ev : CodecEvent S) :
    Accounts (m.step ev).codec (m.step ev).epoch := by
  cases ev with
  | encode payload =>
    rw [Metered.step]
    rcases hres : PacketCodec.encode payload (m.codec,m.rng) with ⟨r,s'⟩
    cases r with
    | error e => exact h.of_counters (encode_keepsOnError payload _ e s' hres)
    | ok frame => exact h.sent (encode_counters hres)
  | decode buf =>
    rw [Metered.step]
    rcases hres : PacketCodec.decodeFrame buf m.codec with ⟨r,c'⟩
    cases r with
    | error e => exact h.of_counters (decode_counters_error hres)
    | ok taken =>
      cases taken with
      | none => exact h.of_counters (decode_counters_none hres)
      | some frame => exact h.received (decode_counters hres)
  | install r =>
    rw [Metered.step]
    rcases hres : r.maybeInstall m.codec with ⟨res,c'⟩
    cases res with
    | error e => exact h.of_counters (maybeInstall_keepsOnError r _ e c' hres)
    | ok u =>
      dsimp only [Metered.afterInstall]
      split
      · next hboth =>
        obtain ⟨hsent,hpeer⟩ := Bool.and_eq_true_iff.1 hboth
        exact installed (KexRunner.maybeInstall_ok hsent hpeer hres)
      · next hnot =>
        have hidle : r.maybeInstall m.codec=(.ok (),m.codec) := by
          rw [KexRunner.maybeInstall,if_pos (by rw [Bool.eq_false_iff.2 hnot]; rfl)]
          rfl
        cases hidle.symm.trans hres
        exact h
  | activateCompress => exact h.of_counters rfl

theorem run (h : Accounts m.codec m.epoch) (events : List (CodecEvent S)) :
    Accounts (m.run events).codec (m.run events).epoch := by
  induction events generalizing m with
  | nil => exact h
  | cons ev events ih => exact ih (h.step ev)

theorem new (rng : Rng) :
    Accounts (Metered.new rng : Metered P).codec (Metered.new rng : Metered P).epoch :=
  ⟨UInt32.sub_self 0,UInt32.sub_self 0,rfl,rfl⟩

variable {c : PacketCodec P} {e : Epoch} {policy : RekeyPolicy}

theorem not_bytesExceeded (h : Accounts c Epoch.start) (hpos : 0<policy.maxBytes) :
    policy.bytesExceeded c=false := by
  have hout : c.bytesOut=0 := h.bytesOut
  have hin : c.bytesIn=0 := h.bytesIn
  rw [RekeyPolicy.bytesExceeded,hout,hin,Bool.or_self]
  exact decide_eq_false (Nat.not_le.2 hpos)

theorem seqExceeded_iff (h : Accounts c e) (hout : e.packetsOut<2^32)
    (hin : e.packetsIn<2^32) : policy.seqExceeded c=true ↔
      policy.maxSeq.toNat≤e.packetsOut ∨ policy.maxSeq.toNat≤e.packetsIn := by
  rw [RekeyPolicy.seqExceeded,h.packetsOut,h.packetsIn,Bool.or_eq_true,decide_eq_true_eq,
    decide_eq_true_eq,UInt32.le_iff_toNat_le,UInt32.le_iff_toNat_le,toNat_ofNat_of_lt hout,
    toNat_ofNat_of_lt hin,or_comm]

end Accounts

/- A call of `maybe_install` that puts new keys in place. -/
def KexRunner.Installs (r : KexRunner S) (c : PacketCodec P) : Prop :=
  (r.sentNewkeys && r.peerNewkeys)=true ∧ (r.maybeInstall c).1 = .ok ()

/-- Over any run the counters are those of the epoch; an installation clears both conditions of
the policy, and the one on sequence numbers then holds exactly from the packet on that reaches
it. -/
theorem rekey_accounting (rng : Rng) (events : List (CodecEvent S)) (policy : RekeyPolicy) :
    Accounts ((Metered.new rng : Metered P).run events).codec
      ((Metered.new rng : Metered P).run events).epoch ∧
    (∀ r : KexRunner S, r.Installs ((Metered.new rng : Metered P).run events).codec →
      0<policy.maxBytes → 0<policy.maxSeq →
      policy.bytesExceeded ((Metered.new rng : Metered P).run (events++[.install r])).codec =
        false ∧
      policy.seqExceeded ((Metered.new rng : Metered P).run (events++[.install r])).codec =
        false) ∧ (((Metered.new rng : Metered P).run events).epoch.packetsOut<2^32 →
      ((Metered.new rng : Metered P).run events).epoch.packetsIn<2^32 →
      (policy.seqExceeded ((Metered.new rng : Metered P).run events).codec=true ↔
        policy.maxSeq.toNat≤((Metered.new rng : Metered P).run events).epoch.packetsOut ∨
        policy.maxSeq.toNat≤((Metered.new rng : Metered P).run events).epoch.packetsIn)) := by
  have hrun := (Accounts.new (P := P) rng).run events
  refine ⟨hrun,?_,hrun.seqExceeded_iff⟩
  rintro r ⟨hboth,hok⟩ hbytes hseq
  have hfresh : Accounts ((Metered.new rng : Metered P).run (events++[.install r])).codec
      Epoch.start := by
    obtain ⟨hsent,hpeer⟩ := Bool.and_eq_true_iff.1 hboth
    rw [Metered.run,List.foldl_append]
    exact Accounts.installed (KexRunner.maybeInstall_ok hsent hpeer (Prod.ext hok rfl))
  refine ⟨hfresh.not_bytesExceeded hbytes,Bool.eq_false_iff.2 fun hexceeded => ?_⟩
  have hreached := (hfresh.seqExceeded_iff (by decide) (by decide)).1 hexceeded
  rw [UInt32.lt_iff_toNat_lt] at hseq
  exact absurd hseq (by simpa [Epoch.start] using hreached)

/- A strict client that has sent and received NEWKEYS, with keys for ChaCha20-Poly1305. -/
def chachaDir : DirKeys where
  cipher := ascii "chacha20-poly1305@openssh.com"
  iv := []
  key := List.replicate 64 0
  mac := []
  macKey := []

def chachaAdvert : KexInit where
  cookie := List.replicate 16 0
  kex := [ascii "curve25519-sha256"]
  serverHostKey := [ascii "ssh-ed25519"]
  ciphersC2s := [chachaDir.cipher]
  ciphersS2c := [chachaDir.cipher]
  macsC2s := []
  macsS2c := []
  compC2s := [ascii "none"]
  compS2c := [ascii "none"]
  langC2s := []
  langS2c := []
  firstKexPacketFollows := false

def chachaNegotiated : NegotiatedOwned where
  kex := ascii "curve25519-sha256"
  hostKey := ascii "ssh-ed25519"
  cipherC2s := chachaDir.cipher
  cipherS2c := chachaDir.cipher
  macC2s := []
  macS2c := []
  compC2s := ascii "none"
  compS2c := ascii "none"
  firstKexPacketFollowsWrongGuess := false
  strictKexEnabled := true
  extInfoEnabled := false
  clientExtInfo := false
  serverExtInfo := false

def chachaRunner : KexRunner KexSuite.null :=
  { KexRunner.new .client chachaAdvert with
    sentNewkeys := true
    peerNewkeys := true
    strictKex := true
    installedKeys := some ⟨chachaDir,chachaDir⟩
    negotiated := some chachaNegotiated }

/- A run of two packets, with an installation between them. -/
def meteredRun : List (CodecEvent KexSuite.null) :=
  [.encode [20],.install chachaRunner,.encode [21]]

def metered : Metered Primitives.null := (Metered.new fun _ => 0).run meteredRun

theorem rekey_accounting_chacha :
    chachaRunner.Installs metered.codec ∧ 0<RekeyPolicy.default.maxBytes ∧
      0<RekeyPolicy.default.maxSeq ∧
      RekeyPolicy.default.bytesExceeded ((Metered.new (fun _ => 0) : Metered Primitives.null).run
        (meteredRun++[.install chachaRunner])).codec=false ∧
      metered.epoch.packetsOut=1 ∧ metered.epoch.packetsIn=0 ∧
      (RekeyPolicy.default.seqExceeded metered.codec=true ↔
        RekeyPolicy.default.maxSeq.toNat≤ metered.epoch.packetsOut ∨
          RekeyPolicy.default.maxSeq.toNat≤ metered.epoch.packetsIn) := by
  have hinstalls : chachaRunner.Installs metered.codec := ⟨by decide,by decide⟩
  have hout : metered.epoch.packetsOut=1 := by decide
  have hin : metered.epoch.packetsIn=0 := by decide
  have hall := rekey_accounting (P := Primitives.null) (fun _ => 0) meteredRun RekeyPolicy.default
  rw [show (Metered.new fun _ => 0).run meteredRun=metered from rfl] at hall
  exact ⟨hinstalls,by decide,by decide,
    (hall.2.1 chachaRunner hinstalls (by decide) (by decide)).1,hout,hin,
    hall.2.2 (by rw [hout]; decide) (by rw [hin]; decide)⟩

end PureSsh.Transport
