import Mathlib.Data.List.Count
import Mathlib.Data.List.Perm.Basic
import PureSsh.Knock.Answer
import PureSsh.Knock.Checks

/-! What a leaked sig1 can be used for: the verifications that one key is made to cost, and the
tables of a knock server, which stay within their sizes (`knock/state.rs`). -/

namespace PureSsh.Knocking
open Lib Proc List KnockState

section Tables
variable {α : Type} {l : List α} {a : α}

theorem swapRemove_perm {i : Nat} (h : l[i]?=some a) : l.Perm (a::swapRemove i l) := by
  rcases eq_nil_or_concat l with rfl | ⟨init,last,rfl⟩
  · cases h
  rw [concat_eq_append] at h ⊢
  have hremove : swapRemove i (init++[last])=((init++[last]).set i last).dropLast := by
    rw [swapRemove,getLast?_concat]
  rw [hremove]
  rcases Nat.lt_or_ge i init.length with hi | hi
  · -- the last element moves into the gap
    rw [getElem?_append_left hi] at h
    obtain ⟨-,rfl⟩ := List.getElem?_eq_some_iff.1 h
    rw [set_append_left _ _ hi,dropLast_concat]
    have hgap : (last::init[i]::init.eraseIdx i).Perm (init[i]::init.set i last) :=
      (List.Perm.swap _ _ _).trans ((set_perm_cons_eraseIdx hi last).symm.cons _)
    calc (init++[last]).Perm (last::init) := perm_append_singleton last init
      _ |>.Perm (last::init[i]::init.eraseIdx i) :=
        (getElem_cons_eraseIdx_perm hi).symm.cons last
      _ |>.Perm (init[i]::init.set i last) := hgap
  · rw [getElem?_append_right hi] at h
    obtain ⟨hlast,rfl⟩ : i-init.length=0 ∧ last=a := by
      rcases Nat.eq_zero_or_pos (i-init.length) with hzero | hpos
      · rw [hzero] at h
        exact ⟨hzero,Option.some.inj h⟩
      · rw [getElem?_eq_none (by rw [length_singleton]; omega)] at h
        cases h
    rw [set_append_right _ _ hi,hlast,set_cons_zero,dropLast_concat]
    exact perm_append_singleton last init

theorem minBy_cons (lt : α → α → Bool) (x : α) (l : List α) :
    (minBy lt l=none ∧ minBy lt (x::l)=some x) ∨
      ∃ b, minBy lt l=some b ∧ minBy lt (x::l)=some (if lt b x then b else x) := by
  rw [minBy]
  cases h : minBy lt l with
  | none => exact .inl ⟨rfl,rfl⟩
  | some b =>
    refine .inr ⟨b,rfl,?_⟩
    dsimp only
    cases lt b x <;> rfl

variable {lt : α → α → Bool} {f : α → α}

theorem minBy_eq_none (h : minBy lt l=none) : l=[] := by
  cases l with
  | nil => rfl
  | cons x l =>
    obtain ⟨-,hx⟩ | ⟨b,-,hb⟩ := minBy_cons lt x l
    · rw [hx] at h
      cases h
    · rw [hb] at h
      cases h

theorem mem_of_minBy (h : minBy lt l=some a) : a∈l := by
  induction l generalizing a with
  | nil => cases h
  | cons x l ih =>
    obtain ⟨-,hx⟩ | ⟨b,hmin,hb⟩ := minBy_cons lt x l
    · rw [hx] at h
      cases h
      exact mem_cons_self
    · rw [hb] at h
      cases h
      split
      · exact mem_cons_of_mem x (ih hmin)
      · exact mem_cons_self

/- If some elements come before all others, one of them is found. -/
theorem minBy_prefers {P : α → Prop} (hlt : ∀ x y, P x → ¬P y → lt x y=true ∧ lt y x=false)
    (h : minBy lt l=some a) (hex : ∃ x∈l, P x) : P a := by
  induction l generalizing a with
  | nil => cases h
  | cons x l ih =>
    by_contra ha
    obtain ⟨hnone,hx⟩ | ⟨b,hmin,hb⟩ := minBy_cons lt x l
    · rw [hx] at h
      cases h
      rw [minBy_eq_none hnone] at hex
      obtain ⟨y,hy,hP⟩ := hex
      rw [mem_singleton] at hy
      exact ha (hy ▸ hP)
    · rw [hb] at h
      obtain ⟨y,hy,hP⟩ := hex
      have hrest : P x ∨ P b := by
        rcases mem_cons.1 hy with rfl | hy
        · exact .inl hP
        · exact .inr (ih hmin ⟨y,hy,hP⟩)
      cases hless : lt b x with
      | true =>
        rw [if_pos hless] at h
        obtain rfl : b=a := Option.some.inj h
        have hx : P x := hrest.resolve_right ha
        rw [(hlt x b hx ha).2] at hless
        cases hless
      | false =>
        rw [hless] at h
        obtain rfl : x=a := Option.some.inj h
        have hb : P b := hrest.resolve_left ha
        rw [(hlt b x hb ha).1] at hless
        cases hless

theorem map_modify_of_eq {β : Type} {g : α → β} (h : ∀ a, g (f a)=g a) (i : Nat) :
    (l.modify i f).map g=l.map g := by
  induction l generalizing i with
  | nil => simp
  | cons a l ih =>
    cases i with
    | zero => rw [modify_zero_cons,map_cons,map_cons,h]
    | succ i => rw [modify_succ_cons,map_cons,map_cons,ih]

theorem mem_modify (h : a∈l) (i : Nat) : a∈l.modify i f ∨ f a∈l.modify i f := by
  obtain ⟨j,hj,rfl⟩ := mem_iff_getElem.1 h
  have hget : (l.modify i f)[j]?=some (if i=j then f l[j] else l[j]) := by
    rw [getElem?_modify,getElem?_eq_getElem hj]
    split <;> rfl
  have hmem := mem_of_getElem? hget
  split at hmem
  · exact .inr hmem
  · exact .inl hmem

end Tables

section Maps
variable {α : Type} [DecidableEq α] {β : α → Type} {m : AList β} {a : α} {n : Nat}

theorem length_insert_le (b : β a) (h : m.keys.length≤n) (hroom : a∈m ∨ m.keys.length<n) :
    (m.insert a b).keys.length≤n := by
  rw [AList.keys_insert,length_cons]
  rcases hroom with hmem | hlt
  · rw [length_erase_add_one (AList.mem_keys.1 hmem)]
    exact h
  · exact Nat.lt_of_le_of_lt (length_erase_le) hlt

theorem length_erase_lt (h : a∈m) : (m.erase a).keys.length< m.keys.length := by
  rw [AList.keys_erase,← length_erase_add_one (AList.mem_keys.1 h)]
  exact Nat.lt_succ_self _

theorem length_erase_le (a : α) (m : AList β) : (m.erase a).keys.length≤ m.keys.length := by
  rw [AList.keys_erase]
  exact List.length_erase_le

/- In a full table something is found that can go. -/
theorem erase_minBy_room (lt : Sigma β → Sigma β → Bool) (hm : m.keys.length≠0) : ∃ victim,
    minBy lt m.entries=some victim ∧ (m.erase victim.1).keys.length< m.keys.length := by
  cases hmin : minBy lt m.entries with
  | none =>
    have hnil : m.keys=m.entries.map Sigma.fst := rfl
    rw [minBy_eq_none hmin] at hnil
    rw [hnil] at hm
    exact absurd rfl hm
  | some victim =>
    refine ⟨victim,rfl,length_erase_lt ?_⟩
    exact AList.mem_keys.2 (mem_keys_of_mem (mem_of_minBy hmin))

end Maps

/- The sources in a table of slots, with whether they are marked good. -/
def marks (slots : List PrefixSlot) : List (Bytes × Bool) :=
  slots.map fun slot => (slot.prefixBytes,slot.good)

/-- No source is there twice, and there are not more than the configuration allows. -/
structure Seated (cfg : KnockServerConfig) (slots : List PrefixSlot) : Prop where
  distinct : ((marks slots).map Prod.fst).Nodup
  length_le : slots.length≤ max cfg.maxPrefixesPerKey 1

/-- A source that is marked good stays so, unless all of them are. -/
def Spares (slots slots' : List PrefixSlot) : Prop :=
  ∀ src, (src,true)∈marks slots → (src,true)∈marks slots' ∨ ∀ slot∈slots, slot.good=true

variable {slots : List PrefixSlot}

theorem Spares.of_marks {slots' : List PrefixSlot} (h : marks slots'=marks slots) :
    Spares slots slots' := fun _ hsrc => .inl (h ▸ hsrc)

theorem mem_marks {src : Bytes} {good : Bool} :
    (src,good)∈marks slots ↔ ∃ slot∈slots, slot.prefixBytes=src ∧ slot.good=good := by
  simp [marks]

/- A new source at the end. -/
theorem Seated.push {cfg : KnockServerConfig} {slot : PrefixSlot}
    (hdistinct : ((marks slots).map Prod.fst).Nodup)
    (hlength : slots.length< max cfg.maxPrefixesPerKey 1)
    (hnew : ∀ other∈slots, other.prefixBytes≠slot.prefixBytes) : Seated cfg (slots++[slot]) := by
  refine ⟨?_,?_⟩
  · rw [marks,map_append,map_append]
    refine List.Nodup.append hdistinct (nodup_singleton _) ?_
    intro src hold hsrc
    rw [map_singleton,map_singleton,mem_singleton] at hsrc
    obtain ⟨p,hp,rfl⟩ := mem_map.1 hold
    obtain ⟨other,hother,hsource,-⟩ := mem_marks.1 hp
    exact hnew other hother (hsource.trans hsrc)
  · rw [length_append]
    exact hlength

namespace Entry
variable {cfg : KnockServerConfig} {e : Entry} {now : Nat}

/- The order in which slots have to go. -/
def leavesBefore (a b : PrefixSlot × Nat) : Bool :=
  if a.1.good=b.1.good then a.1.lastUsed<b.1.lastUsed else !a.1.good

theorem leavesBefore_good (a b : PrefixSlot × Nat) (ha : a.1.good=false)
    (hb : ¬b.1.good=false) : leavesBefore a b=true ∧ leavesBefore b a=false := by
  rw [Bool.not_eq_false] at hb
  rw [leavesBefore,leavesBefore,ha,hb]
  exact ⟨rfl,rfl⟩

/- A slot makes room for a new one, a good slot only when all are. -/
theorem evicts (slots : List PrefixSlot) (h : slots≠[]) : ∃ victim, slots.Perm (victim::swapRemove
      (((minBy leavesBefore slots.zipIdx).map (·.2)).getD 0) slots) ∧
    (victim.good=true → ∀ slot∈slots, slot.good=true) := by
  cases hmin : minBy leavesBefore slots.zipIdx with
  | none =>
    have hnil := congrArg length (minBy_eq_none hmin)
    rw [length_zipIdx] at hnil
    exact absurd (length_eq_zero_iff.1 hnil) h
  | some victim =>
    have hget := mem_zipIdx_iff_getElem?.1 (mem_of_minBy hmin)
    refine ⟨victim.1,swapRemove_perm hget,fun hgood slot hslot => ?_⟩
    by_contra hbad
    obtain ⟨i,hi,hslot⟩ := mem_iff_getElem.1 hslot
    have hmem : (slot,i)∈slots.zipIdx := by
      rw [mem_zipIdx_iff_getElem?,getElem?_eq_some_iff]
      exact ⟨hi,hslot⟩
    have hvictim := minBy_prefers leavesBefore_good hmin ⟨_,hmem,Bool.eq_false_of_not_eq_true hbad⟩
    rw [hgood] at hvictim
    cases hvictim

theorem knockSlot_spec (src : Bytes) (now : Nat) (h : Seated cfg e.knockBuckets) :
    Seated cfg (e.knockSlot cfg src now).2 ∧ Spares e.knockBuckets (e.knockSlot cfg src now).2 := by
  rw [knockSlot]
  cases hfind : e.knockBuckets.findIdx? (·.prefixBytes==src) with
  | some i => exact ⟨h,.of_marks rfl⟩
  | none =>
    have hnew : ∀ slot∈e.knockBuckets, slot.prefixBytes≠src := by
      intro slot hslot
      have hne := findIdx?_eq_none_iff.1 hfind slot hslot
      simpa using hne
    dsimp only
    split
    · next hfull =>
      have hne : e.knockBuckets≠[] := by
        intro hnil
        rw [hnil,length_nil] at hfull
        omega
      obtain ⟨victim,hperm,hgood⟩ := evicts e.knockBuckets hne
      have hlength := h.length_le
      rw [hperm.length_eq] at hlength
      refine ⟨.push ?_ hlength fun slot hslot => ?_,fun p hp => ?_⟩
      · have hdistinct := (((hperm.map _).map Prod.fst).nodup_iff).1 h.distinct
        exact (nodup_cons.1 hdistinct).2
      · exact hnew slot (hperm.mem_iff.2 (mem_cons_of_mem _ hslot))
      · obtain ⟨slot,hslot,hsource,hmark⟩ := mem_marks.1 hp
        rcases mem_cons.1 (hperm.mem_iff.1 hslot) with rfl | hrest
        · exact .inr (hgood hmark)
        · exact .inl (mem_marks.2 ⟨slot,mem_append_left _ hrest,hsource,hmark⟩)
    · next hroom =>
      refine ⟨.push h.distinct (Nat.lt_of_not_le hroom) hnew,fun p hp => .inl ?_⟩
      obtain ⟨slot,hslot,hmark⟩ := mem_marks.1 hp
      exact mem_marks.2 ⟨slot,mem_append_left _ hslot,hmark⟩

theorem takeKnockBucket_spec (src : IpAddr) (now : Nat) (h : Seated cfg e.knockBuckets) :
    Seated cfg (e.takeKnockBucket cfg src now).2.knockBuckets ∧
      Spares e.knockBuckets (e.takeKnockBucket cfg src now).2.knockBuckets := by
  obtain ⟨hseated,hspares⟩ := knockSlot_spec (sourcePrefix src) now h
  rw [takeKnockBucket]
  rcases hslot : e.knockSlot cfg (sourcePrefix src) now with ⟨i,slots⟩
  rw [hslot] at hseated hspares
  dsimp only
  cases hget : slots[i]? with
  | none => exact ⟨hseated,hspares⟩
  | some slot =>
    -- only the bucket and the time change
    have hmarks : marks (slots.set i
        { slot with bucket := (slot.bucket.take now).2, lastUsed := now })=marks slots := by
      obtain ⟨hi,rfl⟩ := List.getElem?_eq_some_iff.1 hget
      have hself : (marks slots).set i (slots[i].prefixBytes,slots[i].good)=marks slots := by
        rw [marks,← map_set (f := fun slot : PrefixSlot => (slot.prefixBytes,slot.good)),
          set_getElem_self]
      rw [← hself]
      exact map_set
    refine ⟨⟨?_,?_⟩,fun p hp => ?_⟩
    · rw [hmarks]
      exact hseated.distinct
    · rw [length_set]
      exact hseated.length_le
    · rw [hmarks]
      exact hspares p hp

/-- The tables of an entry are within their sizes. -/
structure Tidy (cfg : KnockServerConfig) (e : Entry) : Prop where
  seated : Seated cfg e.knockBuckets
  sig1Cache : e.sig1Cache.length≤ max cfg.sig1CacheSize 1

theorem tidy_new (cfg : KnockServerConfig) (now : Nat) : (Entry.new cfg now).Tidy cfg :=
  ⟨⟨nodup_nil,Nat.zero_le _⟩,Nat.zero_le _⟩

/- What a datagram does to the tables of an entry. -/
def Moves (cfg : KnockServerConfig) (e e' : Entry) : Prop :=
  e.Tidy cfg → e'.Tidy cfg ∧ Spares e.knockBuckets e'.knockBuckets

/- No slot goes. -/
def Grows (cfg : KnockServerConfig) (e e' : Entry) : Prop :=
  e.Tidy cfg → e'.Tidy cfg ∧ ∀ src, (src,true)∈marks e.knockBuckets →
    (src,true)∈marks e'.knockBuckets

variable {e' e'' : Entry}

theorem Grows.refl (cfg : KnockServerConfig) (e : Entry) : Grows cfg e e :=
  fun h => ⟨h,fun _ hsrc => hsrc⟩

theorem Grows.trans (h : Grows cfg e e') (h' : Grows cfg e' e'') : Grows cfg e e'' := by
  intro he
  obtain ⟨htidy,hmarks⟩ := h he
  exact ⟨(h' htidy).1,fun src hsrc => (h' htidy).2 src (hmarks src hsrc)⟩

theorem Moves.grows (h : Moves cfg e e') (h' : Grows cfg e' e'') : Moves cfg e e'' := by
  intro he
  obtain ⟨htidy,hspares⟩ := h he
  exact ⟨(h' htidy).1,fun src hsrc => (hspares src hsrc).imp_left ((h' htidy).2 src)⟩

theorem Grows.moves (h : Grows cfg e e') : Moves cfg e e' :=
  fun he => ⟨(h he).1,fun src hsrc => .inl ((h he).2 src hsrc)⟩

/- Before a slot goes, the slots and their marks are the same. -/
theorem Moves.of_same (hslots : e'.knockBuckets=e.knockBuckets)
    (hcache : e.sig1Cache.length≤ max cfg.sig1CacheSize 1 →
      e'.sig1Cache.length≤ max cfg.sig1CacheSize 1) (h : Moves cfg e' e'') : Moves cfg e e'' := by
  intro he
  have htidy : e'.Tidy cfg := ⟨hslots ▸ he.seated,hcache he.sig1Cache⟩
  exact hslots ▸ h htidy

theorem Grows.of_same (hslots : e'.knockBuckets=e.knockBuckets)
    (hcache : e'.sig1Cache=e.sig1Cache) : Grows cfg e e' :=
  fun he => ⟨⟨hslots ▸ he.seated,hcache ▸ he.sig1Cache⟩,fun _ hsrc => hslots ▸ hsrc⟩

theorem grows_markGood (cfg : KnockServerConfig) (i : Nat) (e : Entry) :
    Grows cfg e (e.markGood i) := by
  intro he
  have hsources : (marks (e.markGood i).knockBuckets).map Prod.fst =
      (marks e.knockBuckets).map Prod.fst := by
    rw [marks,marks,map_map,map_map]
    refine map_modify_of_eq (fun _ => ?_) i
    rfl
  refine ⟨⟨⟨hsources ▸ he.seated.distinct,?_⟩,he.sig1Cache⟩,fun src hsrc => ?_⟩
  · rw [markGood,length_modify]
    exact he.seated.length_le
  · obtain ⟨slot,hslot,hsource,hgood⟩ := mem_marks.1 hsrc
    rcases mem_modify hslot i with hmem | hmem
    · exact mem_marks.2 ⟨slot,hmem,hsource,hgood⟩
    · exact mem_marks.2 ⟨_,hmem,hsource,rfl⟩

end Entry

namespace Admission
variable {C : Crypto} {cfg : KnockServerConfig} {hostKeys : List (C.HostKey × Bytes × Bytes)}
  {floor : Nat} {keyBlob : Bytes} {k : Knock} {now : Nat} {src : IpAddr} {datagram : Bytes}
  {s t : Entry × Bucket}
open Entry

theorem takeKnock_moves (s : Entry × Bucket) :
    Meets (takeKnock cfg src now) s fun _ t => Moves cfg s.1 t.1 := by
  intro h
  obtain ⟨hseated,hspares⟩ := takeKnockBucket_spec src now h.seated
  refine ⟨⟨hseated,?_⟩,hspares⟩
  dsimp only [takeKnock,takeKnockBucket]
  split
  · exact h.sig1Cache
  · exact h.sig1Cache

theorem checkSig1_slots (s : Entry × Bucket) :
    Meets (checkSig1 C cfg keyBlob k now) s fun _ t => t.1.knockBuckets=s.1.knockBuckets ∧
      (s.1.sig1Cache.length≤ max cfg.sig1CacheSize 1 →
        t.1.sig1Cache.length≤ max cfg.sig1CacheSize 1) := by
  refine .get_bind (.ite_of (fun hmem => ⟨rfl,fun h => ?_⟩) fun _ => ?_)
  · change (k.sig1::s.1.sig1Cache.erase k.sig1).length≤_
    rw [length_cons,length_erase_add_one hmem]
    exact h
  · have hkeeps : Keeps (fun s : Entry × Bucket => (s.1.knockBuckets,s.1.sig1Cache))
        (both (takeNewsig1 now) (takeVerify now)) := keeps_both (fun _ => rfl) fun _ => rfl
    refine .bind (hkeeps.meets s) (fun ok t ht => ?_) fun _ t ht => ?_
    · obtain ⟨hslots,hsame⟩ := Prod.mk.inj ht
      refine .ite_of (fun _ => ⟨hslots,fun h => hsame ▸ h⟩) fun _ => ?_
      split
      · exact ⟨hslots,fun h => hsame ▸ h⟩
      · exact ⟨hslots,fun _ => length_take_le _ _⟩
    · obtain ⟨hslots,hsame⟩ := Prod.mk.inj ht
      exact ⟨hslots,fun h => hsame ▸ h⟩

theorem retransmit_moves (s : Entry × Bucket) :
    Meets (retransmit cfg src now) s fun _ t => Moves cfg s.1 t.1 := by
  refine .get_bind ?_
  dsimp only
  split
  · refine .ite_of (fun _ => ?_) fun _ => (Grows.refl cfg s.1).moves
    exact .bind (takeKnock_moves s) (fun p t ht => .ite_of (fun _ => ht) fun _ => ht) fun _ _ h => h
  · exact (Grows.refl cfg s.1).moves

theorem takeAll_moves (s : Entry × Bucket) :
    Meets (takeAll cfg src now) s fun _ t => Moves cfg s.1 t.1 := by
  refine .bind (takeKnock_moves s) (fun p t ht => .get_bind ?_) fun _ _ h => h
  have hkeeps : Keeps (fun s : Entry × Bucket => (s.1.knockBuckets,s.1.sig1Cache))
      (both (pure p.1) (both (if t.1.isGood p.2 then pure true else takeNewprefix now)
        (takeVerify now))) := by
    refine keeps_both (fun _ => rfl) (keeps_both ?_ fun _ => rfl)
    split
    · exact fun _ => rfl
    · exact fun _ => rfl
  have hsame : ∀ u : Entry × Bucket, (u.1.knockBuckets,u.1.sig1Cache) =
      (t.1.knockBuckets,t.1.sig1Cache) → Moves cfg s.1 u.1 := fun u hu =>
    ht.grows (.of_same (congrArg Prod.fst hu) (congrArg Prod.snd hu))
  exact .bind (hkeeps.meets t) (fun _ u hu => hsame u hu) fun _ u hu => hsame u hu

theorem settle_grows {slot : Nat} (s : Entry × Bucket) :
    Meets (settle C cfg hostKeys keyBlob k slot datagram) s fun _ t => Grows cfg s.1 t.1 := by
  have hgood := grows_markGood cfg slot s.1
  rw [settle]
  split
  · exact Grows.refl cfg s.1
  · refine .modify_bind (.get_bind (.ite_of (fun _ => ?_) fun _ => ?_))
    · exact hgood.trans (.of_same rfl rfl)
    · split
      · exact hgood.trans (.of_same rfl rfl)
      · exact hgood.trans (.of_same rfl rfl)

/-- One datagram keeps the tables of the entry within their sizes and spares the good slots. -/
theorem grant_moves (s : Entry × Bucket) :
    Meets (grant cfg hostKeys floor keyBlob k now src datagram) s fun _ t => Moves cfg s.1 t.1 := by
  refine .bind (checkSig1_slots s) (fun _ t ht => .get_bind ?_) fun _ t ht => ?_
  · have hrest : ∀ u : Entry × Bucket, Moves cfg t.1 u.1 → Moves cfg s.1 u.1 := fun u hu =>
      .of_same ht.1 ht.2 hu
    refine .ite_of (fun _ => hrest _ (retransmit_moves t)) fun _ => ?_
    refine .ite_of (fun _ => hrest _ (Grows.refl cfg t.1).moves) fun _ => ?_
    refine .bind (takeAll_moves t) (fun p u hu => ?_) fun _ u hu => hrest u hu
    refine .ite_of (fun _ => hrest u hu) fun _ => ?_
    exact hrest _ (hu.grows (settle_grows u))
  · exact .of_same ht.1 ht.2 (Grows.refl cfg t.1).moves

end Admission

namespace KnockState
variable {C : Crypto} {s : KnockState C} {ask : Answers} {now : Nat} {src : IpAddr} {user : Str}
  {datagram : Bytes} {cfg : KnockServerConfig}

/-- All tables are within their configured sizes. -/
structure Tidy (cfg : KnockServerConfig) (s : KnockState C) : Prop where
  config : s.cfg=cfg
  entries : ∀ key e, s.entries key=some e → e.Tidy cfg
  keyCache : s.keyCache.keys.length≤ max cfg.keyCacheUsers 1
  prefixLookups : s.prefixLookups.keys.length≤ max cfg.keyLookupPrefixes 1

theorem tidy_new (cfg : KnockServerConfig) (hostKeys : List C.HostKey) (now : Nat) :
    (new cfg hostKeys now).Tidy cfg := by
  refine ⟨rfl,fun key e h => ?_,Nat.zero_le _,Nat.zero_le _⟩
  cases h

theorem lookupSlot_room (src : Bytes) (now : Nat)
    (h : s.prefixLookups.keys.length≤ max s.cfg.keyLookupPrefixes 1) :
    (s.lookupSlot src now).2.keys.length≤ max s.cfg.keyLookupPrefixes 1 ∧
      (src∈(s.lookupSlot src now).2 ∨
        (s.lookupSlot src now).2.keys.length< max s.cfg.keyLookupPrefixes 1) := by
  rw [lookupSlot]
  cases hlookup : s.prefixLookups.lookup src with
  | some p =>
    refine ⟨h,.inl ?_⟩
    exact AList.lookup_isSome.1 (Option.isSome_of_eq_some hlookup)
  | none =>
    dsimp only
    split
    · next hfull =>
      have hne : s.prefixLookups.keys.length≠0 := by omega
      obtain ⟨victim,hmin,hlt⟩ := erase_minBy_room (fun a b => a.2.2<b.2.2) hne
      rw [hmin]
      exact ⟨Nat.le_of_lt (Nat.lt_of_lt_of_le hlt h),.inr (Nat.lt_of_lt_of_le hlt h)⟩
    · next hroom => exact ⟨h,.inr (Nat.lt_of_not_le hroom)⟩

theorem Tidy.takeLookup (h : s.Tidy cfg) (src : IpAddr) (now : Nat) :
    (s.takeLookup src now).2.Tidy cfg ∧ (s.takeLookup src now).2.keyCache=s.keyCache := by
  have hsize := h.prefixLookups
  rw [← h.config] at hsize
  obtain ⟨hle,hroom⟩ := lookupSlot_room (sourcePrefix src) now hsize
  rw [takeLookup_eq]
  refine ⟨⟨h.config,h.entries,h.keyCache,?_⟩,rfl⟩
  rw [← h.config]
  exact length_insert_le _ hle hroom

theorem Tidy.loadUserKeys (h : s.Tidy cfg) (ask : Answers) (user : Str) (src : IpAddr) (now : Nat) :
    (s.loadUserKeys ask user src now).2.Tidy cfg := by
  have hentries : ∀ key e, (s.loadUserKeys ask user src now).2.entries key=some e →
      e.Tidy cfg := fun key e he => h.entries key e (loadUserKeys_draws.entries key e he)
  suffices hsizes : (s.loadUserKeys ask user src now).2.keyCache.keys.length ≤
        max cfg.keyCacheUsers 1 ∧
      (s.loadUserKeys ask user src now).2.prefixLookups.keys.length ≤
        max cfg.keyLookupPrefixes 1 from
    ⟨loadUserKeys_loads.cfg.trans h.config,hentries,hsizes.1,hsizes.2⟩
  obtain ⟨htidy,hcache⟩ := h.takeLookup src now
  rw [KnockState.loadUserKeys]
  split
  · exact ⟨h.keyCache,h.prefixLookups⟩
  split
  · rw [forget]
    split
    · exact ⟨Nat.le_trans (length_erase_le user s.keyCache) h.keyCache,h.prefixLookups⟩
    · exact ⟨h.keyCache,h.prefixLookups⟩
  rcases htake : s.takeLookup src now with ⟨ok,t⟩
  rw [htake] at htidy hcache
  cases ok with
  | false => exact ⟨htidy.keyCache,htidy.prefixLookups⟩
  | true =>
    dsimp only at hcache ⊢
    rw [hcache]
    split
    · next hfull =>
      -- the user is new and the cache is full
      rw [Bool.and_eq_true,decide_eq_true_iff] at hfull
      have hne : t.keyCache.keys.length≠0 := by
        rw [hcache]
        omega
      rw [evictUser]
      obtain ⟨victim,hmin,hlt⟩ := erase_minBy_room _ hne
      rw [hmin]
      have hroom := Nat.lt_of_lt_of_le hlt htidy.keyCache
      exact ⟨length_insert_le _ (Nat.le_of_lt hroom) (.inr hroom),htidy.prefixLookups⟩
    · next hroom =>
      refine ⟨length_insert_le _ htidy.keyCache ?_,htidy.prefixLookups⟩
      change user∈t.keyCache ∨ t.keyCache.keys.length<_
      rw [hcache]
      by_cases hmem : (s.keyCache.lookup user).isSome
      · exact .inl (AList.lookup_isSome.1 hmem)
      · rw [Bool.not_eq_true] at hmem
        rw [hmem,htidy.config,Bool.not_false,Bool.true_and,decide_eq_true_iff] at hroom
        exact .inr (Nat.lt_of_not_le hroom)

variable {s' : KnockState C}

theorem entries_of_limits {key : Str × Bytes} {e' : Entry} (h : s'.limits=s.limits)
    (he' : s'.entries key=some e') : ∃ e, s.entries key=some e ∧ metered e=metered e' := by
  have hentries : (fun key => (s'.entries key).map metered) =
      fun key => (s.entries key).map metered := congrArg (·.2.2.2.2) h
  have hmap := congrFun hentries key
  rw [he'] at hmap
  exact Option.map_eq_some_iff.1 hmap.symm

theorem Tidy.of_limits (h : s.Tidy cfg) (hlimits : s'.limits=s.limits)
    (hcache : s'.keyCache.keys.length≤ s.keyCache.keys.length) : s'.Tidy cfg := by
  have hsource : s'.prefixLookups=s.prefixLookups := congrArg (·.2.2.2.1) hlimits
  refine ⟨(congrArg (·.1) hlimits).trans h.config,fun key e he => ?_,
    Nat.le_trans hcache h.keyCache,hsource ▸ h.prefixLookups⟩
  obtain ⟨e₀,he₀,hmetered⟩ := entries_of_limits hlimits he
  simp only [metered,Prod.mk.injEq] at hmetered
  obtain ⟨-,-,hslots,hsig1⟩ := hmetered
  have htidy := h.entries key e₀ he₀
  exact ⟨hslots ▸ htidy.seated,hsig1 ▸ htidy.sig1Cache⟩

theorem Tidy.entryFor (h : s.Tidy cfg) (key : Str × Bytes) (now : Nat) :
    (s.entryFor key now).Tidy cfg := by
  rw [KnockState.entryFor]
  cases he : s.entries key with
  | none =>
    rw [h.config]
    exact Entry.tidy_new cfg now
  | some e => exact h.entries key e he

/-- No key loses a good slot while it has others: the entries that a call leaves spare them. -/
def SparesGood (s s' : KnockState C) : Prop :=
  ∀ key e e', s.entries key=some e → s'.entries key=some e' →
    Spares e.knockBuckets e'.knockBuckets

theorem Tidy.treated {verdict : Verdict} {checks : List ((Str × Bytes) × Check)} {asked : Bool}
    (h : s.Tidy cfg) (htreated : Treated s ask now src datagram verdict checks asked s') :
    s'.Tidy cfg ∧ SparesGood s s' := by
  have hload : ∀ user key e e', s.entries key=some e →
      (s.loadUserKeys ask user src now).2.entries key=some e' → e=e' := by
    intro user key e e' he he'
    have hold := loadUserKeys_draws.entries key e' he'
    exact Option.some.inj (he.symm.trans hold)
  cases htreated with
  | early =>
    refine ⟨h,fun key e e' he he' => ?_⟩
    rw [he] at he'
    cases he'
    exact .of_marks rfl
  | @unknown k =>
    refine ⟨h.loadUserKeys ask k.user src now,fun key e e' he he' => ?_⟩
    rw [hload k.user key e e' he he']
    exact .of_marks rfl
  | @judged k s₁ keyBlob r t hparse hclock hs₁ hcached hgrant =>
    have htidy : s₁.Tidy cfg := hs₁ ▸ h.loadUserKeys ask k.user src now
    have hends := (Admission.grant_moves _).apply hgrant
    rw [htidy.config] at hends
    obtain ⟨hentry,hspares⟩ := hends (htidy.entryFor _ now)
    refine ⟨⟨htidy.config,fun key e he => ?_,htidy.keyCache,htidy.prefixLookups⟩,
      fun key e e' he he' => ?_⟩
    · by_cases hkey : key=(k.user,k.keyFp)
      · simp only [putEntry,hkey] at he
        cases he
        exact hentry
      · simp only [putEntry,hkey] at he
        exact htidy.entries key e he
    · by_cases hkey : key=(k.user,k.keyFp)
      · -- the key was cached, so its entry was not dropped
        have hkept : s₁.entries (k.user,k.keyFp)=s.entries (k.user,k.keyFp) := by
          rw [← hs₁] at hcached ⊢
          exact entries_of_cached (Option.isSome_of_eq_some hcached)
        simp only [putEntry,hkey] at he'
        cases he'
        rw [hkey,← hkept] at he
        rw [KnockState.entryFor,he] at hspares
        exact hspares
      · simp only [putEntry,hkey] at he'
        rw [← hs₁] at he'
        rw [hload k.user key e e' he he']
        exact .of_marks rfl

end KnockState

/-- The limits that each key has of its own: on sig1s that are not cached, and on sig2s from sources
that are not marked good. -/
inductive Limit where
  | newsig1
  | newPrefix

namespace Limit

def check : Limit → Check
  | .newsig1 => .sig1
  | .newPrefix => .sig2 false

def bucket : Limit → Entry → Bucket
  | .newsig1 => Entry.newsig1
  | .newPrefix => Entry.newPrefix

def burst (cfg : KnockServerConfig) : Limit → Nat
  | .newsig1 => cfg.newsig1Burst
  | .newPrefix => cfg.newPrefixBurst

def refillMs (cfg : KnockServerConfig) : Limit → Nat
  | .newsig1 => max cfg.newsig1RefillMs 1
  | .newPrefix => max cfg.newPrefixRefillMs 1

variable {C : Crypto} {limit : Limit} {cfg : KnockServerConfig} {s : KnockState C}
  {key : Str × Bytes} {now : Nat}

theorem bucket_new (limit : Limit) (cfg : KnockServerConfig) (now : Nat) :
    limit.bucket (.new cfg now) =
      { tokens := limit.burst cfg, burst := limit.burst cfg, refillMs := limit.refillMs cfg
        lastMs := now } := by
  cases limit <;> rfl

theorem bucket_of_metered {e e' : Entry} (h : metered e'=metered e) :
    limit.bucket e'=limit.bucket e := by
  cases limit with
  | newsig1 => exact congrArg (·.1) h
  | newPrefix => exact congrArg (·.2.1) h

/- The verifications of a datagram are paid for by the entry of its key. -/
theorem grant_spends (limit : Limit) {hostKeys : List (C.HostKey × Bytes × Bytes)} {floor : Nat}
    {keyBlob : Bytes} {k : Knock} {src : IpAddr} {datagram : Bytes} (s : Entry × Bucket) :
    Meets (Admission.grant cfg hostKeys floor keyBlob k now src datagram) s fun _ t =>
      Bucket.Spends now ((Admission.checks C cfg floor keyBlob k now src datagram s).count
        limit.check) (limit.bucket s.1) (limit.bucket t.1) := by
  have hcharged : Meets (Admission.grant cfg hostKeys floor keyBlob k now src datagram) s _ :=
    Admission.grant_charged s
  cases limit with
  | newsig1 => exact hcharged.newsig1
  | newPrefix => exact hcharged.newPrefix

/-- The buckets of all entries have their configured sizes. -/
structure Funded (cfg : KnockServerConfig) (s : KnockState C) : Prop where
  config : s.cfg=cfg
  entries : ∀ (limit : Limit) key e, s.entries key=some e → (limit.bucket e).Sane ∧
    (limit.bucket e).burst=limit.burst cfg ∧ (limit.bucket e).refillMs=limit.refillMs cfg

theorem Funded.entryFor (h : Funded cfg s) (limit : Limit) (key : Str × Bytes) (now : Nat) :
    (limit.bucket (s.entryFor key now)).Sane ∧
      (limit.bucket (s.entryFor key now)).burst=limit.burst cfg ∧
      (limit.bucket (s.entryFor key now)).refillMs=limit.refillMs cfg := by
  rw [KnockState.entryFor]
  cases he : s.entries key with
  | some e => exact h.entries limit key e he
  | none =>
    rw [h.config]
    cases limit with
    | newsig1 => exact ⟨Bucket.sane_new _ _ now,rfl,rfl⟩
    | newPrefix => exact ⟨Bucket.sane_new _ _ now,rfl,rfl⟩

/- An entry that is not there yet will have full buckets. -/
theorem credit_later (limit : Limit) (s : KnockState C) (key : Str × Bytes) {t u : Nat}
    (h : t≤u) : (limit.bucket (s.entryFor key u)).credit u ≤
      (limit.bucket (s.entryFor key t)).credit t+(u-t) := by
  rw [entryFor,entryFor]
  cases s.entries key with
  | some e => exact Bucket.credit_later h
  | none =>
    rw [Option.getD_none,Option.getD_none,bucket_new,bucket_new,Bucket.credit,Bucket.credit,
      Bucket.level,Bucket.level]
    dsimp only
    omega

theorem entryFor_of_limits {s' : KnockState C} (limit : Limit) (h : s'.limits=s.limits)
    (key : Str × Bytes) (t : Nat) :
    limit.bucket (s'.entryFor key t)=limit.bucket (s.entryFor key t) := by
  have hcfg : s'.cfg=s.cfg := congrArg (·.1) h
  have hmap := congrFun (congrArg (·.2.2.2.2) h) key
  dsimp only [limits] at hmap
  rw [entryFor,entryFor,hcfg]
  cases he : s.entries key with
  | none =>
    rw [he,Option.map_none,Option.map_eq_none_iff] at hmap
    rw [hmap]
  | some e =>
    rw [he] at hmap
    obtain ⟨e',he',hmetered⟩ := Option.map_eq_some_iff.1 hmap
    rw [he']
    exact bucket_of_metered hmetered

end Limit

namespace KnockState
variable {C : Crypto} {s s' : KnockState C} {ask : Answers} {now : Nat} {src : IpAddr}
  {datagram : Bytes} {cfg : KnockServerConfig} {key : Str × Bytes}
  {verdict : Verdict} {checks : List ((Str × Bytes) × Check)} {asked : Bool}

theorem keyTable_isSome {blobs : List Bytes} {blob : Bytes} (hmem : blob∈blobs)
    (hsupported : (maxSigBlobLen blob).isSome) :
    ((keyTable C blobs).lookup (keyFp C blob)).isSome := by
  have hfold : ∀ (l : List Bytes) (t : AList fun _ : Bytes => Bytes),
      ((t.lookup (keyFp C blob)).isSome ∨ blob∈l) →
      ((l.foldl (fun t b => t.insert (keyFp C b) b) t).lookup (keyFp C blob)).isSome := by
    intro l
    induction l with
    | nil =>
      rintro t (h | h)
      · exact h
      · cases h
    | cons b l ih =>
      intro t h
      refine ih _ ?_
      by_cases hb : keyFp C blob=keyFp C b
      · rw [hb,AList.lookup_insert]
        exact .inl rfl
      · rw [AList.lookup_insert_ne hb]
        refine h.imp_right fun hin => ?_
        rcases mem_cons.1 hin with rfl | hin
        · exact absurd rfl hb
        · exact hin
  exact hfold _ ∅ (.inr (mem_filter.2 ⟨hmem,hsupported⟩))

/-- The key source lets a user knock with a key, whenever it is asked. -/
def Returns (key : Str × Bytes) : Op C → Prop
  | .handle ask _ _ datagram => ∀ k, Knock.parse datagram = .ok k → k.user=key.1 →
    ask.mayKnock=true ∧ ∃ blob∈ask.keysFor, (maxSigBlobLen blob).isSome ∧ keyFp C blob=key.2
  | _ => True

theorem entries_of_returns {k : Knock} (h : Returns key (.handle ask now src datagram : Op C))
    (hparse : Knock.parse datagram = .ok k) :
    (s.loadUserKeys ask k.user src now).2.entries key=s.entries key := by
  refine loadUserKeys_loads.kept key fun lets htold huser => ?_
  obtain ⟨hmay,blob,hmem,hsupported,hfp⟩ := h k hparse huser.symm
  rw [told,hmay] at htold
  split at htold
  · cases htold
  · rw [if_neg (by decide)] at htold
    split at htold
    · cases htold
      rw [← hfp]
      exact keyTable_isSome hmem hsupported
    · cases htold

/-- One datagram: what a key is made to cost is paid from the buckets of its entry. -/
theorem Treated.spends (limit : Limit) (h : Treated s ask now src datagram verdict checks asked s')
    (hreturns : Returns key (.handle ask now src datagram : Op C)) :
    Bucket.Spends now (checks.count (key,limit.check)) (limit.bucket (s.entryFor key now))
      (limit.bucket (s'.entryFor key now)) := by
  have hentry : ∀ s₁ s₂ : KnockState C, s₂.cfg=s₁.cfg → s₂.entries key=s₁.entries key →
      s₂.entryFor key now=s₁.entryFor key now := by
    intro s₁ s₂ hcfg hentries
    rw [entryFor,entryFor,hcfg,hentries]
  cases h with
  | early => exact .refl now _
  | @unknown k _ hparse =>
    rw [hentry s _ loadUserKeys_loads.cfg (entries_of_returns hreturns hparse)]
    exact .refl now _
  | @judged k s₁ keyBlob r t hparse hclock hload hcached hgrant =>
    have hkept : s₁.entryFor key now=s.entryFor key now := by
      rw [← hload]
      exact hentry s _ loadUserKeys_loads.cfg (entries_of_returns hreturns hparse)
    by_cases hkey : key=(k.user,k.keyFp)
    · have hspends := (Limit.grant_spends limit _).apply hgrant
      have hput : entryFor key now { s₁.putEntry (k.user,k.keyFp) t.1 with verify := t.2 } =
          t.1 := by
        simp [entryFor,putEntry,hkey]
      rw [hput,← hkept,hkey,count_map_of_injective _ _ (Prod.mk_right_injective (k.user,k.keyFp))]
      exact hspends
    · have hput : entryFor key now { s₁.putEntry (k.user,k.keyFp) t.1 with verify := t.2 } =
          s₁.entryFor key now := by
        simp [entryFor,putEntry,hkey]
      have hnone : (map (((k.user,k.keyFp),·)) (Admission.checks C s₁.cfg s₁.nonceFloor
          keyBlob k now src datagram (s₁.entryFor (k.user,k.keyFp) now,s₁.verify))).count
            (key,limit.check)=0 := by
        refine count_eq_zero.2 fun hmem => ?_
        obtain ⟨check,-,heq⟩ := mem_map.1 hmem
        exact hkey (congrArg Prod.fst heq).symm
      rw [hput,hkept,hnone]
      exact .refl now _

theorem Treated.funded (h : Treated s ask now src datagram verdict checks asked s')
    (hfunded : Limit.Funded cfg s) : Limit.Funded cfg s' := by
  have hload : ∀ user, Limit.Funded cfg (s.loadUserKeys ask user src now).2 := fun user =>
    ⟨loadUserKeys_loads.cfg.trans hfunded.config,fun limit key e he =>
      hfunded.entries limit key e (loadUserKeys_draws.entries key e he)⟩
  cases h with
  | early => exact hfunded
  | @unknown k => exact hload k.user
  | @judged k s₁ keyBlob r t hparse hclock hs₁ hcached hgrant =>
    have hfunded₁ : Limit.Funded cfg s₁ := hs₁ ▸ hload k.user
    refine ⟨hfunded₁.config,fun limit key e he => ?_⟩
    by_cases hkey : key=(k.user,k.keyFp)
    · have hspends := (Limit.grant_spends limit _).apply hgrant
      obtain ⟨hsane,hburst,hrefillMs⟩ := hfunded₁.entryFor limit (k.user,k.keyFp) now
      simp only [putEntry,hkey] at he
      cases he
      exact ⟨hspends.sane hsane,hspends.burst.trans hburst,hspends.refillMs.trans hrefillMs⟩
    · simp only [putEntry,hkey] at he
      exact hfunded₁.entries limit key e he

/-- The calls of `verify` of one kind that a call makes for a key. -/
def checksOf (key : Str × Bytes) (check : Check) (s : KnockState C) : Op C → Nat
  | .handle ask now src datagram => (s.verifications ask now src datagram).count (key,check)
  | _ => 0

theorem funded_next (op : Op C) (h : Limit.Funded cfg s) :
    Limit.Funded cfg ((calls C).next s op) := by
  cases htime : (calls C).time op with
  | some u =>
    cases op with
    | handle ask now src datagram => exact (s.handle_treated ask now src datagram).funded h
    | _ => cases htime
  | none =>
    have hlimits := calls_limits (s := s) htime
    refine ⟨(congrArg (·.1) hlimits).trans h.config,fun limit key e' he' => ?_⟩
    obtain ⟨e,he,hmetered⟩ := entries_of_limits hlimits he'
    rw [← Limit.bucket_of_metered hmetered]
    exact h.entries limit key e he

theorem meter_limit (C : Crypto) (cfg : KnockServerConfig) (key : Str × Bytes) (limit : Limit) :
    (calls C).Meter (checksOf key limit.check) (fun _ op => Returns key op) (limit.refillMs cfg)
      (limit.burst cfg*limit.refillMs cfg)
      (fun t s => (limit.bucket (s.entryFor key t)).credit t) (Limit.Funded cfg) := by
  refine Bucket.meter (fun t (s : KnockState C) => limit.bucket (s.entryFor key t)) (fun h _ => funded_next _ h)
    (fun h t => h.entryFor limit key t) (fun h => Limit.credit_later limit _ key h)
    (fun t h => Limit.entryFor_of_limits limit (calls_limits h) key t) ?_
  intro s op u hreturns htime
  cases op with
  | handle ask now src datagram =>
    obtain rfl : now=u := Option.some.inj htime
    exact (s.handle_treated ask now src datagram).spends limit hreturns
  | _ => cases htime

theorem calls_keyCache {op : Op C} (h : (calls C).time op=none) :
    ((calls C).next s op).keyCache.keys.length≤ s.keyCache.keys.length := by
  cases op with
  | handle ask now src datagram => cases h
  | complete pending coins port now =>
    have hcache : ((calls C).next s (.complete pending coins port now)).keyCache=s.keyCache :=
      congrArg (·.2.2.1) overlooks_memory.complete
    rw [hcache]
  | releasePending user fp =>
    have hcache : ((calls C).next s (.releasePending user fp)).keyCache=s.keyCache :=
      congrArg (·.2.2.1) (overlooks_memory.releasePending user fp)
    rw [hcache]
  | setKeySource => exact Nat.zero_le _
  | invalidateKeys user =>
    cases user with
    | none => exact Nat.zero_le _
    | some u => exact length_erase_le u s.keyCache

theorem tidy_next (op : Op C) (h : s.Tidy cfg) :
    ((calls C).next s op).Tidy cfg ∧ SparesGood s ((calls C).next s op) := by
  cases htime : (calls C).time op with
  | some u =>
    cases op with
    | handle ask now src datagram => exact h.treated (s.handle_treated ask now src datagram)
    | _ => cases htime
  | none =>
    have hlimits := calls_limits (s := s) htime
    refine ⟨h.of_limits hlimits (calls_keyCache htime),fun key e e' he he' => ?_⟩
    · obtain ⟨e₀,he₀,hmetered⟩ := entries_of_limits hlimits he'
      obtain rfl : e=e₀ := Option.some.inj (he.symm.trans he₀)
      exact .of_marks (congrArg (fun p => marks p.2.2.1) hmetered.symm)

variable {len : Nat}

theorem Limit.le_bound {count burst refillMs : Nat} (hpos : 0<refillMs)
    (h : count*refillMs≤burst*refillMs+len) : count≤burst+len/refillMs := by
  rw [Nat.add_comm,← Nat.add_mul_div_right _ _ hpos,Nat.add_comm]
  exact (Nat.le_div_iff_mul_le hpos).2 h

theorem checksOf_le {hostKeys : List C.HostKey} {start lo : Nat} {ops : List (Op C)} (limit : Limit)
    (hclock : (calls C).Clocked start ops) (hreturns : ∀ op∈ops, Returns key op) :
    (calls C).spentWithin (checksOf key limit.check) lo (lo+len) (.new cfg hostKeys start) ops ≤
      limit.burst cfg+len/limit.refillMs cfg := by
  have hfunded : Limit.Funded cfg (.new cfg hostKeys start : KnockState C) := by
    refine ⟨rfl,fun limit key e he => ?_⟩
    cases he
  have hpos : 0<limit.refillMs cfg := by
    cases limit with
    | newsig1 => exact Nat.le_max_right _ 1
    | newPrefix => exact Nat.le_max_right _ 1
  refine Limit.le_bound hpos ?_
  exact (meter_limit C cfg key limit).spent_le hfunded (Timed.admits_of_forall hreturns _) hclock

section Leaked
open Sample

/- The same sig1 with two nonces, from two addresses. -/
def leaking : List (Op crypto) :=
  [.handle admits 100000 home (knock 100500),.handle admits 100001 (.v4 198 51 100 7) (knock 100600)]

end Leaked
end KnockState
end PureSsh.Knocking
