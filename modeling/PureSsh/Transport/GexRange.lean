import PureSsh.Key.Rsa
import PureSsh.Transport.KexMethod

/-! Group exchange: the group the server offers and the range check of the client that asked for it
(`hazmat/transport/runner.rs`, `hazmat/kex/dh.rs`). -/

namespace PureSsh.Transport
open Lib Reader Writer
variable {S : KexSuite}

/- What purecrypto knows about its groups: prime and generator as big-endian bytes, and the
   sizes of the three primes of RFC 3526. -/
structure KexSuite.Groups (S : KexSuite) where
  p : S.DhGroup → Bytes
  g : S.DhGroup → Bytes
  p_short : ∀ group, (p group).length<2^31
  g_short : ∀ group, (g group).length<2^31
  group14_bits : Rsa.bitLen (Rsa.ofBeBytes (p S.group14))=2048
  group16_bits : Rsa.bitLen (Rsa.ofBeBytes (p S.group16))=4096
  group18_bits : Rsa.bitLen (Rsa.ofBeBytes (p S.group18))=8192

variable (G : S.Groups) (request : GexRequest)

namespace KexSuite.Groups

def bitSize (group : S.DhGroup) : Nat := Rsa.bitLen (Rsa.ofBeBytes (G.p group))

/- `server_group`: the answer to a request, with the group of the selector. -/
def serverGroup (requestPayload : Bytes) (select : GexRequest → S.DhGroup) :
    Result (GexRequest × S.DhGroup × Bytes) := do
  let request ← GexRequest.parse requestPayload
  let group := select request
  return (request,group,msgKexDhGexGroup::(writeMpint (G.p group)++writeMpint (G.g group)))

end KexSuite.Groups

def stripLeadingZero (b : Bytes) : Bytes := b.dropWhile (· == 0)

/- `client_init` up to the point where the prime and the generator go to purecrypto. -/
def GexRequest.readGroup (groupPayload : Bytes) : Result (Nat × Nat) := do
  let (msg,r) ← readU8 groupPayload
  if msg≠msgKexDhGexGroup then .error (.protocol "expected SSH_MSG_KEX_DH_GEX_GROUP")
  else
    let (pRaw,r) ← readString r
    let (gRaw,_) ← readString r
    let p := Rsa.ofBeBytes (stripLeadingZero pRaw)
    let g := Rsa.ofBeBytes (stripLeadingZero gRaw)
    let bits := Rsa.bitLen p
    if bits<request.min.toNat || bits>request.max.toNat then
      .error (.crypto "GEX group out of requested range")
    else return (p,g)

/- The range a request leaves open. -/
def GexRequest.Allows (bits : Nat) : Prop :=
  request.min.toNat≤bits ∧ bits≤request.max.toNat

instance (request : GexRequest) (bits : Nat) : Decidable (request.Allows bits) :=
  inferInstanceAs (Decidable (_ ∧ _))

def builtinSizes : List Nat := [2048,4096,8192]

/- The requests that `default_gex_group` answers without looking at their upper end. -/
def GexRequest.Overshot : Prop :=
  2048<request.min.toNat ∧ request.min.toNat≤4096 ∧ 4096<request.n.toNat ∧
    request.max.toNat<8192

theorem ofBeBytes_mpintBody (b : Bytes) :
    Rsa.ofBeBytes (stripLeadingZero (mpintBody b))=Rsa.ofBeBytes b := by
  rw [stripLeadingZero,Rsa.dropWhile_mpintBody,Rsa.ofBeBytes_dropWhile]

theorem mpintBody_short {b : Bytes} (h : b.length<2^31) : (mpintBody b).length<2^32 := by
  have hdrop : (b.dropWhile (· == 0)).length≤b.length := (List.dropWhile_sublist _).length_le
  rw [mpintBody]
  cases hm : b.dropWhile (· == 0) with
  | nil => decide
  | cons x m =>
    rw [hm] at hdrop
    dsimp only
    split
    · rw [List.length_cons]
      omega
    · omega

/-- The client reads the prime and the generator that the server sent, and looks only at their
range. -/
theorem readGroup_serverGroup (group : S.DhGroup) :
    request.readGroup (msgKexDhGexGroup::(writeMpint (G.p group)++writeMpint (G.g group))) =
      if request.Allows (G.bitSize group) then
        .ok (Rsa.ofBeBytes (G.p group),Rsa.ofBeBytes (G.g group))
      else .error (.crypto "GEX group out of requested range") := by
  have hp := mpintBody_short (G.p_short group)
  have hg := mpintBody_short (G.g_short group)
  rw [GexRequest.readGroup,readU8_cons,except_ok_bind]
  dsimp only
  rw [if_neg (not_not.2 rfl),writeMpint,readString_writeString hp,except_ok_bind]
  dsimp only
  rw [writeMpint,readString_writeString_end hg,except_ok_bind]
  dsimp only
  rw [ofBeBytes_mpintBody,ofBeBytes_mpintBody]
  by_cases hin : request.Allows (G.bitSize group)
  · rw [if_pos hin,if_neg]
    · rfl
    · rw [GexRequest.Allows,KexSuite.Groups.bitSize] at hin
      rw [Bool.or_eq_true,decide_eq_true_eq,decide_eq_true_eq]
      omega
  · rw [if_neg hin,if_pos]
    rw [GexRequest.Allows,KexSuite.Groups.bitSize] at hin
    rw [Bool.or_eq_true,decide_eq_true_eq,decide_eq_true_eq]
    omega

theorem serverGroup_body (select : GexRequest → S.DhGroup) :
    G.serverGroup (msgKexDhGexRequest::request.body) select =
      .ok (request,select request,msgKexDhGexGroup ::
        (writeMpint (G.p (select request))++writeMpint (G.g (select request)))) := by
  rw [KexSuite.Groups.serverGroup,GexRequest.parse_body,except_ok_bind]
  rfl

/-- The size of the group that is picked, by the thresholds of the request. -/
theorem bitSize_default : G.bitSize (defaultGexGroup request)=if request.min.toNat>4096 then 8192
      else if request.min.toNat>2048 then (if request.n.toNat>4096 then 8192 else 4096)
      else if request.n.toNat≤2048 ∧ request.max.toNat≥2048 then 2048
      else if request.n.toNat≤4096 ∧ request.max.toNat≥4096 then 4096
      else if request.max.toNat≥8192 then 8192 else if request.max.toNat≥4096 then 4096
      else 2048 := by
  have h14 : G.bitSize S.group14=2048 := G.group14_bits
  have h16 : G.bitSize S.group16=4096 := G.group16_bits
  have h18 : G.bitSize S.group18=8192 := G.group18_bits
  have hle : ∀ a b : UInt32, a≤b ↔ a.toNat≤b.toNat := fun _ _ => UInt32.le_iff_toNat_le
  have hlt : ∀ a b : UInt32, a>b ↔ a.toNat>b.toNat := fun _ _ => UInt32.lt_iff_toNat_lt
  simp only [defaultGexGroup,Bool.and_eq_true,decide_eq_true_eq,hle,hlt,apply_ite G.bitSize,
    h14,h16,h18,UInt32.toNat_ofNat,Nat.reducePow,Nat.reduceMod]

/-- A request that some built-in group fits is answered with a group in its range, and the client
goes on with that group, exactly unless its lower end lies between 2048 and 4096 bits, its
preferred size above 4096 and its upper end below 8192. -/
theorem default_group_in_range_iff (hlow : request.min≤request.n) (hhigh : request.n≤request.max)
    (hfits : ∃ bits∈builtinSizes, request.Allows bits) :
    (request.Allows (G.bitSize (defaultGexGroup request)) ↔ ¬request.Overshot) ∧
    ∃ answer, G.serverGroup (msgKexDhGexRequest::request.body) defaultGexGroup =
        .ok (request,defaultGexGroup request,answer) ∧
      ((∃ pg, request.readGroup answer = .ok pg) ↔ ¬request.Overshot) := by
  have hrange : request.Allows (G.bitSize (defaultGexGroup request)) ↔ ¬request.Overshot := by
    rw [UInt32.le_iff_toNat_le] at hlow hhigh
    simp only [builtinSizes,List.mem_cons,List.not_mem_nil,or_false,exists_eq_or_imp,
      exists_eq_left,GexRequest.Allows] at hfits
    rw [bitSize_default,GexRequest.Allows,GexRequest.Overshot]
    -- each threshold decides one comparison of the picked size
    split_ifs
    all_goals omega
  refine ⟨hrange,_,serverGroup_body G request defaultGexGroup,?_⟩
  rw [readGroup_serverGroup,← hrange]
  constructor
  · rintro ⟨pg,hpg⟩
    by_contra hout
    rw [if_neg hout] at hpg
    cases hpg
  · intro hin
    exact ⟨_,if_pos hin⟩

def sizedPrime (bytes : Nat) : Bytes := 128::List.replicate (min bytes 1024-1) 0

theorem sizedPrime_short (bytes : Nat) : (sizedPrime bytes).length<2^31 := by
  rw [sizedPrime,List.length_cons,List.length_replicate]
  omega

def KexSuite.sizedGroups : KexSuite.null.Groups where
  p := sizedPrime
  g _ := [2]
  p_short := sizedPrime_short
  g_short _ := by decide
  group14_bits := by decide +kernel
  group16_bits := by decide +kernel
  group18_bits := by decide +kernel

/- What a client that needs 128 bits of security asks for. -/
def strongRequest : GexRequest := { min := 2048, n := 3072, max := 8192 }

theorem default_group_in_range_strong :
    strongRequest.min≤ strongRequest.n ∧ strongRequest.n≤ strongRequest.max ∧
      (∃ bits∈builtinSizes, strongRequest.Allows bits) ∧
      (strongRequest.Allows (KexSuite.sizedGroups.bitSize (defaultGexGroup strongRequest)) ↔
        ¬strongRequest.Overshot) :=
  ⟨by decide,by decide,⟨2048,by decide,by decide⟩,
    (default_group_in_range_iff KexSuite.sizedGroups strongRequest (by decide) (by decide)
      ⟨2048,by decide,by decide⟩).1⟩

def narrowRequest : GexRequest := { min := 3000, n := 6000, max := 7000 }

/-- Asked for 3000 to 7000 bits, preferably 6000, the server offers 8192, and the client refuses,
though the 4096-bit group would do. -/
theorem default_group_overshoots :
    narrowRequest.min≤narrowRequest.n ∧ narrowRequest.n≤narrowRequest.max ∧
      4096∈builtinSizes ∧ narrowRequest.Allows 4096 ∧
      KexSuite.sizedGroups.bitSize (defaultGexGroup narrowRequest)=8192 ∧
      (KexSuite.sizedGroups.serverGroup (msgKexDhGexRequest::narrowRequest.body)
        defaultGexGroup >>= fun answer => narrowRequest.readGroup answer.2.2) =
          .error (.crypto "GEX group out of requested range") := by
  have hbits : KexSuite.sizedGroups.bitSize (defaultGexGroup narrowRequest)=8192 :=
    (bitSize_default _ narrowRequest).trans (by decide)
  refine ⟨by decide,by decide,by decide,by decide,hbits,?_⟩
  rw [serverGroup_body,except_ok_bind,readGroup_serverGroup,hbits,if_neg (by decide)]

end PureSsh.Transport
