import Mathlib.Data.List.Dedup
import Mathlib.Data.List.Induction
import Mathlib.Data.List.Perm.Subperm
import PureSsh.Transport.ExtInfo
import PureSsh.Lib.Assoc
import PureSsh.Lib.Utf8

/-! The EXT_INFO messages that the builder methods of `ExtInfo` make, and what `decode` makes of
them (`hazmat/transport/ext_info.rs`). -/

namespace PureSsh.Transport.ExtInfo
open Lib Reader Writer List

def withServerSigAlgs (value : Str) (e : ExtInfo) : ExtInfo :=
  { e with raw := setRaw (ascii "server-sig-algs") value e.raw, serverSigAlgs := some value }

def withPublickeyAlgorithmsInUse (value : Str) (e : ExtInfo) : ExtInfo :=
  { e with
    raw := setRaw (ascii "publickey-algorithms-in-use") value e.raw
    publickeyAlgorithmsInUse := some value }

/-- The value of an extension in the list of pairs. -/
def extension (name : Str) (e : ExtInfo) : Option Str := e.raw.lookup name

/- The calls of the builder methods. -/
inductive Call where
  | serverSigAlgs (value : Text)
  | publickeyAlgorithmsInUse (value : Text)
  | extension (name value : Text)

namespace Call

def name : Call → Str
  | serverSigAlgs _ => ascii "server-sig-algs"
  | publickeyAlgorithmsInUse _ => ascii "publickey-algorithms-in-use"
  | extension name _ => name.bytes

def value : Call → Str
  | serverSigAlgs value => value.bytes
  | publickeyAlgorithmsInUse value => value.bytes
  | extension _ value => value.bytes

def apply : Call → ExtInfo → ExtInfo
  | serverSigAlgs value => withServerSigAlgs value.bytes
  | publickeyAlgorithmsInUse value => withPublickeyAlgorithmsInUse value.bytes
  | extension name value => withExtension name.bytes value.bytes

def isServerSigAlgs : Call → Bool
  | serverSigAlgs _ => true
  | _ => false

def isPublickeyAlgorithmsInUse : Call → Bool
  | publickeyAlgorithmsInUse _ => true
  | _ => false

end Call

def build (calls : List Call) : ExtInfo := calls.foldl (fun e call => call.apply e) .new

/-- The value that the last of certain calls gives. -/
def lastValue (p : Call → Bool) (calls : List Call) : Option Str :=
  (calls.filter p).getLast?.map Call.value

section SetRaw
variable {name value : Str} {raw : List (Str × Str)}

theorem lookup_setRaw (name value other : Str) (raw : List (Str × Str)) :
    (setRaw name value raw).lookup other=if other=name then some value else raw.lookup other := by
  induction raw with
  | nil =>
    rw [setRaw,lookup_cons]
    by_cases h : other=name
    · rw [if_pos h,beq_iff_eq.2 h]
    · rw [if_neg h,beq_false_of_ne h]
  | cons p raw ih =>
    obtain ⟨n,v⟩ := p
    rw [setRaw]
    by_cases hn : n=name
    · subst hn
      rw [if_pos rfl,lookup_cons,lookup_cons]
      by_cases h : other=n
      · rw [if_pos h,beq_iff_eq.2 h]
      · rw [if_neg h,beq_false_of_ne h]
    · rw [if_neg hn,lookup_cons,lookup_cons,ih]
      by_cases h : other=n
      · have hne : other≠name := fun heq => hn (h.symm.trans heq)
        rw [beq_iff_eq.2 h]
        dsimp only
        rw [if_neg hne]
      · rw [beq_false_of_ne h]

theorem names_setRaw (name value : Str) (raw : List (Str × Str)) :
    (setRaw name value raw).map Prod.fst =
      if name∈raw.map Prod.fst then raw.map Prod.fst else raw.map Prod.fst++[name] := by
  induction raw with
  | nil => rfl
  | cons p raw ih =>
    obtain ⟨n,v⟩ := p
    rw [setRaw]
    by_cases hn : n=name
    · subst hn
      rw [if_pos rfl,map_cons,map_cons,if_pos mem_cons_self]
    · rw [if_neg hn,map_cons,map_cons,ih]
      by_cases hmem : name∈raw.map Prod.fst
      · rw [if_pos hmem,if_pos (mem_cons_of_mem _ hmem)]
      · have hnot : name∉n::raw.map Prod.fst := by
          rw [mem_cons,not_or]
          exact ⟨fun h => hn h.symm,hmem⟩
        rw [if_neg hmem,if_neg hnot,cons_append]

theorem mem_setRaw {p : Str × Str} (h : p∈setRaw name value raw) : p∈raw ∨ p=(name,value) := by
  induction raw with
  | nil => exact .inr (mem_singleton.1 h)
  | cons q raw ih =>
    obtain ⟨n,v⟩ := q
    rw [setRaw] at h
    by_cases hn : n=name
    · subst hn
      rw [if_pos rfl] at h
      rcases mem_cons.1 h with rfl | h
      · exact .inr rfl
      · exact .inl (mem_cons_of_mem _ h)
    · rw [if_neg hn] at h
      rcases mem_cons.1 h with rfl | h
      · exact .inl mem_cons_self
      · exact (ih h).imp_left (mem_cons_of_mem _)

end SetRaw

/-- What the wire can carry: pairs with distinct names, of texts that are not too long. -/
structure Wireable (e : ExtInfo) : Prop where
  distinct : (e.raw.map Prod.fst).Nodup
  count : e.raw.length≤1024
  texts : ∀ p∈e.raw, (validUtf8 p.1=true ∧ p.1.length<2^32) ∧
    validUtf8 p.2=true ∧ p.2.length<2^32

theorem readPairs_pairs (raw : List (Str × Str)) (r : Bytes) (e : ExtInfo)
    (h : ∀ p∈raw, (validUtf8 p.1=true ∧ p.1.length<2^32) ∧ validUtf8 p.2=true ∧ p.2.length<2^32) :
    readPairs raw.length ((raw.flatMap fun p => writeString p.1++writeString p.2)++r) e =
      .ok (raw.foldl (fun e p => e.record p.1 p.2) e,r) := by
  induction raw generalizing e with
  | nil => rfl
  | cons p raw ih =>
    obtain ⟨⟨hname,hnameLen⟩,hvalue,hvalueLen⟩ := h p mem_cons_self
    rw [flatMap_cons,append_assoc,append_assoc]
    apply string_then hnameLen
    dsimp only
    apply string_then hvalueLen
    rw [hname,hvalue]
    exact ih (e.record p.1 p.2) fun q hq => h q (mem_cons_of_mem p hq)

variable {e : ExtInfo} {p : Str × Str} {raw : List (Str × Str)} {calls : List Call}

theorem decode_encode (h : e.Wireable) :
    decode e.encode = .ok (e.raw.foldl (fun e p => e.record p.1 p.2) .new) := by
  have hcount := h.count
  have hn : (UInt32.ofNat e.raw.length).toNat=e.raw.length := UInt32.toNat_ofNat_of_lt' (by
    rw [UInt32.size]
    omega)
  have hsmall : ¬UInt32.ofNat e.raw.length>1024 := by
    intro hlt
    have hlt' := UInt32.lt_iff_toNat_lt.1 hlt
    rw [hn] at hlt'
    change 1024<e.raw.length at hlt'
    omega
  have hpairs := readPairs_pairs e.raw [] .new h.texts
  rw [append_nil] at hpairs
  rw [decode,encode,readU8_cons,except_ok_bind]
  dsimp only
  apply u32_then
  rw [if_neg hsmall,hn,hpairs]
  rfl

theorem record_serverSigAlgs (name value : Str) (e : ExtInfo) :
    (e.record name value).serverSigAlgs =
      if name=ascii "server-sig-algs" then some value else e.serverSigAlgs := by
  rw [record]
  split
  · rfl
  · split <;> rfl

theorem record_publickeyAlgorithmsInUse (name value : Str) (e : ExtInfo) :
    (e.record name value).publickeyAlgorithmsInUse =
      if name=ascii "publickey-algorithms-in-use" then some value
      else e.publickeyAlgorithmsInUse := by
  rw [record]
  split
  · next h => rw [if_neg (by rw [h]; decide)]
  · split <;> rfl

theorem record_raw (name value : Str) (e : ExtInfo) :
    (e.record name value).raw=e.raw++[(name,value)] := by
  rw [record]
  split
  · rfl
  · split <;> rfl

theorem lookup_cons_or {name : Str} (h : p.1∉raw.map Prod.fst) (init : Option Str) :
    (raw.lookup name).or (if p.1=name then some p.2 else init)=((p::raw).lookup name).or init := by
  obtain ⟨n,v⟩ := p
  rw [lookup_cons]
  by_cases hn : name=n
  · subst hn
    have hnone : raw.lookup name=none := by
      cases hlookup : raw.lookup name with
      | none => rfl
      | some b => exact absurd (mem_map_of_mem (f := Prod.fst) (mem_of_lookup hlookup)) h
    rw [if_pos rfl,beq_self_eq_true,hnone]
    rfl
  · rw [if_neg fun heq => hn heq.symm,beq_false_of_ne hn]

/- With distinct names it does not matter which of several values would win. -/
theorem foldl_record (h : (raw.map Prod.fst).Nodup) (e : ExtInfo) :
    raw.foldl (fun e p => e.record p.1 p.2) e =
      { serverSigAlgs := (raw.lookup (ascii "server-sig-algs")).or e.serverSigAlgs
        publickeyAlgorithmsInUse :=
          (raw.lookup (ascii "publickey-algorithms-in-use")).or e.publickeyAlgorithmsInUse
        raw := e.raw++raw } := by
  induction raw generalizing e with
  | nil =>
    rw [append_nil]
    rfl
  | cons p raw ih =>
    rw [map_cons,nodup_cons] at h
    rw [foldl_cons,ih h.2,record_serverSigAlgs,record_publickeyAlgorithmsInUse,record_raw,
      lookup_cons_or h.1,lookup_cons_or h.1,append_assoc,singleton_append]

/-- A message comes back as it was exactly when its typed fields agree with its pairs. -/
theorem decode_encode_iff (h : e.Wireable) :
    decode e.encode = .ok e ↔ e.extension (ascii "server-sig-algs")=e.serverSigAlgs ∧
      e.extension (ascii "publickey-algorithms-in-use")=e.publickeyAlgorithmsInUse := by
  rw [decode_encode h,foldl_record h.distinct,Except.ok.injEq,ExtInfo.mk.injEq]
  simp only [new,Option.or_none,nil_append,and_true,extension]

theorem build_concat (calls : List Call) (call : Call) :
    build (calls++[call])=call.apply (build calls) := by
  rw [build,foldl_append]
  rfl

theorem lastValue_concat (p : Call → Bool) (calls : List Call) (call : Call) :
    lastValue p (calls++[call])=if p call then some call.value else lastValue p calls := by
  rw [lastValue,filter_append]
  cases hp : p call with
  | true =>
    rw [filter_singleton,hp]
    simp
  | false =>
    rw [filter_singleton,hp]
    simp [lastValue]

namespace Call
variable (call : Call) (e : ExtInfo)

theorem apply_raw : (call.apply e).raw=setRaw call.name call.value e.raw := by
  cases call <;> rfl

theorem apply_serverSigAlgs : (call.apply e).serverSigAlgs =
    if call.isServerSigAlgs then some call.value else e.serverSigAlgs := by
  cases call <;> rfl

theorem apply_publickeyAlgorithmsInUse : (call.apply e).publickeyAlgorithmsInUse =
    if call.isPublickeyAlgorithmsInUse then some call.value else e.publickeyAlgorithmsInUse := by
  cases call <;> rfl

theorem validUtf8_name : validUtf8 call.name=true := by
  cases call with
  | serverSigAlgs _ => exact (by decide : validUtf8 (ascii "server-sig-algs")=true)
  | publickeyAlgorithmsInUse _ =>
    exact (by decide : validUtf8 (ascii "publickey-algorithms-in-use")=true)
  | extension name _ => exact validUtf8_bytes name

theorem validUtf8_value : validUtf8 call.value=true := by
  cases call with
  | serverSigAlgs value => exact validUtf8_bytes value
  | publickeyAlgorithmsInUse value => exact validUtf8_bytes value
  | extension _ value => exact validUtf8_bytes value

end Call

theorem build_eq_lastValue {field : ExtInfo → Option Str} {p : Call → Bool} (hnew : field .new=none)
    (happly : ∀ call e, field (call.apply e)=if p call then some call.value else field e)
    (calls : List Call) : field (build calls)=lastValue p calls := by
  induction calls using reverseRecOn with
  | nil => exact hnew
  | append_singleton calls call ih => rw [build_concat,lastValue_concat,happly,ih]

theorem extension_build (name : Str) (calls : List Call) :
    (build calls).extension name=lastValue (fun call => call.name=name) calls := by
  refine build_eq_lastValue rfl (fun call e => ?_) calls
  rw [extension,Call.apply_raw,lookup_setRaw,extension]
  simp [eq_comm]

theorem serverSigAlgs_build (calls : List Call) :
    (build calls).serverSigAlgs=lastValue Call.isServerSigAlgs calls :=
  build_eq_lastValue rfl Call.apply_serverSigAlgs calls

theorem publickeyAlgorithmsInUse_build (calls : List Call) :
    (build calls).publickeyAlgorithmsInUse=lastValue Call.isPublickeyAlgorithmsInUse calls :=
  build_eq_lastValue rfl Call.apply_publickeyAlgorithmsInUse calls

theorem build_names (calls : List Call) : ((build calls).raw.map Prod.fst).Nodup ∧
    ∀ name∈(build calls).raw.map Prod.fst, name∈calls.map Call.name := by
  induction calls using reverseRecOn with
  | nil => exact ⟨nodup_nil,fun _ h => h⟩
  | append_singleton calls call ih =>
    rw [build_concat,Call.apply_raw,names_setRaw,map_append]
    split
    · exact ⟨ih.1,fun name h => mem_append_left _ (ih.2 name h)⟩
    · next hnew =>
      refine ⟨?_,fun name h => ?_⟩
      · refine List.Nodup.append ih.1 (nodup_singleton _) fun name hold hname => ?_
        rw [mem_singleton] at hname
        exact hnew (hname ▸ hold)
      · rcases mem_append.1 h with h | h
        · exact mem_append_left _ (ih.2 name h)
        · exact mem_append_right _ h

theorem build_pairs (h : p∈(build calls).raw) : ∃ call∈calls, p=(call.name,call.value) := by
  induction calls using reverseRecOn with
  | nil => cases h
  | append_singleton calls call ih =>
    rw [build_concat,Call.apply_raw] at h
    rcases mem_setRaw h with h | rfl
    · obtain ⟨earlier,hmem,rfl⟩ := ih h
      exact ⟨earlier,mem_append_left _ hmem,rfl⟩
    · exact ⟨call,mem_append_right _ (mem_singleton_self call),rfl⟩

theorem wireable_build (hnames : (calls.map Call.name).dedup.length≤1024)
    (hlength : ∀ call∈calls, call.name.length<2^32 ∧ call.value.length<2^32) :
    (build calls).Wireable := by
  obtain ⟨hdistinct,hsubset⟩ := build_names calls
  refine ⟨hdistinct,?_,fun p hp => ?_⟩
  · rw [← length_map (f := Prod.fst)]
    refine Nat.le_trans (List.Subperm.length_le ?_) hnames
    exact subperm_of_subset hdistinct fun name h => mem_dedup.2 (hsubset name h)
  · obtain ⟨call,hmem,rfl⟩ := build_pairs hp
    obtain ⟨hname,hvalue⟩ := hlength call hmem
    exact ⟨⟨call.validUtf8_name,hname⟩,call.validUtf8_value,hvalue⟩

/-- What the builder methods made comes back exactly when no built-in extension has its last value
from `with_extension` alone: the last value given under its name is the last one given to its own
method. -/
theorem built_ext_info_reads_back_iff (calls : List Call)
    (hnames : (calls.map Call.name).dedup.length≤1024)
    (hlength : ∀ call∈calls, call.name.length<2^32 ∧ call.value.length<2^32) :
    decode (build calls).encode = .ok (build calls) ↔
      lastValue (fun call => call.name=ascii "server-sig-algs") calls =
          lastValue Call.isServerSigAlgs calls ∧
        lastValue (fun call => call.name=ascii "publickey-algorithms-in-use") calls =
          lastValue Call.isPublickeyAlgorithmsInUse calls := by
  rw [decode_encode_iff (wireable_build hnames hlength),extension_build,extension_build,
    serverSigAlgs_build,publickeyAlgorithmsInUse_build]

/- A value of `with_extension` under a built-in name, before that of the method. -/
def bothWays : List Call :=
  [.extension "server-sig-algs".toList "ssh-dss".toList,.extension "ping@openssh.com".toList "0".toList,
    .serverSigAlgs "ssh-ed25519".toList]

theorem built_ext_info_reads_back_both_ways : (bothWays.map Call.name).dedup.length≤1024 ∧
    decode (build bothWays).encode = .ok (build bothWays) := by
  have hnames : (bothWays.map Call.name).dedup.length≤1024 := by decide
  refine ⟨hnames,(built_ext_info_reads_back_iff bothWays hnames ?_).2 ?_⟩
  · intro call hcall
    rcases mem_cons.1 hcall with rfl | hcall
    · exact ⟨by decide,by decide⟩
    · rcases mem_cons.1 hcall with rfl | hcall
      · exact ⟨by decide,by decide⟩
      · rw [mem_singleton.1 hcall]
        exact ⟨by decide,by decide⟩
  · exact ⟨by decide,by decide⟩

/- `with_extension` under a built-in name. -/
def onlyExtension : List Call := [.extension "server-sig-algs".toList "ssh-ed25519".toList]

/-- The typed field is empty, and `decode` fills it. -/
theorem built_ext_info_gains_field :
    decode (build onlyExtension).encode ≠ .ok (build onlyExtension) := by
  intro h
  have hfield : (decode (build onlyExtension).encode).toOption.map (·.serverSigAlgs) =
      some (build onlyExtension).serverSigAlgs := by
    rw [h]
    rfl
  revert hfield
  decide

end PureSsh.Transport.ExtInfo
