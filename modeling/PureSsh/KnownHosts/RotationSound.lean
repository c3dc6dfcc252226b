import PureSsh.KnownHosts.Rotation

/-! What an update of the host keys of one host learns, forgets and leaves alone. -/

namespace PureSsh.KnownHosts
open Lib Reader Writer List

namespace HostKeysUpdater
variable {U : HostKeysUpdater}

/-- The listed keys that the update looks at. -/
def wanted (U : HostKeysUpdater) (blob : Bytes) : Bool :=
  match keyBlobType blob with
  | none => false
  | some t => !(Cert.isCertName t || !U.permitted t)

variable {offered : List Bytes}

/-- The listed keys are taken as they stand, if none of them is there twice. -/
theorem offeredFrom_eq_some {blobs acc : List Bytes} (hacc : acc.Nodup) :
    U.offeredFrom blobs acc=some offered ↔ acc++blobs.filter U.wanted=offered ∧ offered.Nodup := by
  fun_induction offeredFrom U blobs acc with
  | case1 acc => simpa using fun h => h ▸ hacc
  | case2 acc blob blobs htype ih => simpa [wanted,htype] using ih hacc
  | case3 acc blob blobs t htype hskip ih => simpa [wanted,htype,hskip] using ih hacc
  | case4 blob blobs acc t htype htake hseen =>
    rw [contains_iff_mem] at hseen
    refine iff_of_false nofun ?_
    rintro ⟨rfl,hnodup⟩
    rw [filter_cons_of_pos (by simp [wanted,htype,htake])] at hnodup
    exact (nodup_append.1 hnodup).2.2 blob hseen blob mem_cons_self rfl
  | case5 blob blobs acc t htype htake hfresh ih =>
    have hacc' : (acc++[blob]).Nodup := by
      simpa [nodup_append,hacc,forall_mem_ne'] using hfresh
    rw [ih hacc',filter_cons_of_pos (by simp [wanted,htype,htake]),append_assoc,singleton_append]

theorem offered_eq_some {raw : Bytes} (h : U.offered raw=some offered) :
    (messageKeys raw).filter U.wanted=offered ∧ offered.Nodup := by
  rw [HostKeysUpdater.offered,Option.bind_eq_bind,Option.bind_eq_some_iff] at h
  obtain ⟨keys,hkeys,h⟩ := h
  split at h
  · cases h
    exact (offeredFrom_eq_some nodup_nil).1 hkeys
  · cases h

end HostKeysUpdater

theorem mem_of_bracketTarget {rest g : Text} {q : UInt16} (h : bracketTarget rest=some (g,q))
    {c : Char} (hc : c∈g) : c∈rest := by
  obtain ⟨after,hsplit⟩ := splitLast_of_bracketTarget h
  rw [(Text.splitLast_eq_some hsplit).1]
  exact mem_append_left _ hc

namespace Store
variable {M : Mac} {host : Text} {port : UInt16} {offered : List Bytes} {s : Store}

variable {e : Entry} {k : Bytes} {h' token : Text} {p' : UInt16}

theorem mem_entries : e∈s.entries ↔ .entry e∈s.lines := by
  rw [entries,mem_filterMap]
  refine ⟨fun ⟨slot,hslot,he⟩ => ?_,fun h => ⟨_,h,rfl⟩⟩
  cases slot <;> cases he
  exact hslot

/-- The key blobs on file for a host. -/
def recorded (M : Mac) (host : Text) (port : UInt16) (s : Store) : List Bytes :=
  (s.plainKeys M host port).map (·.2)

theorem mem_recorded : k∈s.recorded M host port ↔
    ∃ e∈s.entries, e.marker=none ∧ hostFieldMatches M e.hostSpec host port ∧ e.keyBlob=k := by
  rw [recorded,mem_map]
  constructor
  · rintro ⟨key,hkey,rfl⟩
    obtain ⟨e,he,hmark,hmatch,rfl⟩ := mem_plainKeys.1 hkey
    exact ⟨e,mem_entries.2 he,hmark,hmatch,rfl⟩
  · rintro ⟨e,he,hmark,hmatch,rfl⟩
    exact ⟨e.key,mem_plainKeys.2 ⟨e,mem_entries.1 he,hmark,hmatch,rfl⟩,rfl⟩

section Plan
variable (st : List Bool × HostKeysUpdate) (e : Entry)

/-- An entry that does not stop the update. -/
def Harmless (M : Mac) (host : Text) (port : UInt16) (offered : List Bytes) (e : Entry) : Prop :=
  if hostFieldMatches M e.hostSpec host port then e.simple=true
  else e.keyBlob∈offered → e.marker≠none

/-- The entries that the plan is made from. -/
def ours (M : Mac) (host : Text) (port : UInt16) (e : Entry) : Bool :=
  hostFieldMatches M e.hostSpec host port && e.simple

theorem planEntry_blocked : (planEntry M host port offered st e).2.blocked=none ↔
    st.2.blocked=none ∧ Harmless M host port offered e := by
  rw [planEntry,Harmless]
  cases hostFieldMatches M e.hostSpec host port with
  | false => by_cases hin : e.keyBlob∈offered <;> cases e.marker <;> simp [hin]
  | true => cases e.simple <;> cases offered.idxOf? e.keyBlob <;> simp

theorem planEntry_old : (planEntry M host port offered st e).2.old =
    st.2.old++if ours M host port e=true ∧ e.keyBlob∉offered then [e.keyBlob] else [] := by
  rw [planEntry,ours]
  cases hostFieldMatches M e.hostSpec host port with
  | false =>
    simp only [Bool.not_false,reduceIte]
    split <;> simp
  | true =>
    cases e.simple with
    | false => simp
    | true =>
      cases hidx : offered.idxOf? e.keyBlob with
      | none => simp [idxOf?_eq_none_iff.1 hidx]
      | some i =>
        obtain ⟨hlt,hget,-⟩ := idxOf?_eq_some_iff.1 hidx
        simp [← hget]

theorem planEntry_known {i : Nat} (hi : i<st.1.length) :
    i<(planEntry M host port offered st e).1.length ∧
    ((planEntry M host port offered st e).1.getD i false=true ↔ st.1.getD i false=true ∨
        ours M host port e=true ∧ offered.idxOf? e.keyBlob=some i) := by
  rw [planEntry,ours]
  cases hostFieldMatches M e.hostSpec host port with
  | false =>
    simp only [Bool.not_false,reduceIte]
    split <;> simp [hi]
  | true =>
    cases e.simple with
    | false => simp [hi]
    | true =>
      cases offered.idxOf? e.keyBlob with
      | none => simp [hi]
      | some j => by_cases hji : j=i <;> simp [hji,hi]

end Plan

theorem foldl_planEntry_blocked {es : List Entry} {st : List Bool × HostKeysUpdate} :
    (es.foldl (planEntry M host port offered) st).2.blocked=none ↔
      st.2.blocked=none ∧ ∀ e∈es, Harmless M host port offered e := by
  induction es generalizing st with
  | nil => simp
  | cons e es ih => rw [foldl_cons,ih,planEntry_blocked,forall_mem_cons,and_assoc]

theorem foldl_planEntry_old (es : List Entry) (st : List Bool × HostKeysUpdate) :
    (es.foldl (planEntry M host port offered) st).2.old=st.2.old ++
      (es.filter fun e => ours M host port e=true ∧ e.keyBlob∉offered).map (·.keyBlob) := by
  induction es generalizing st with
  | nil => simp
  | cons e es ih =>
    rw [foldl_cons,ih,planEntry_old]
    by_cases he : ours M host port e=true ∧ e.keyBlob∉offered <;> simp [he]

theorem foldl_planEntry_known (es : List Entry) (st : List Bool × HostKeysUpdate) {i : Nat}
    (hi : i<st.1.length) : (es.foldl (planEntry M host port offered) st).1.getD i false=true ↔
      st.1.getD i false=true ∨
        ∃ e∈es, ours M host port e=true ∧ offered.idxOf? e.keyBlob=some i := by
  induction es generalizing st with
  | nil => simp
  | cons e es ih =>
    obtain ⟨hlen,hknown⟩ := @planEntry_known M host port offered st e i hi
    rw [foldl_cons,ih _ hlen,hknown,exists_mem_cons_iff,or_assoc]

/-- The facts about a plan that nothing blocks. -/
structure Planned (M : Mac) (host : Text) (port : UInt16) (offered : List Bytes) (s : Store) :
    Prop where
  harmless : ∀ e∈s.entries, Harmless M host port offered e
  old : ∀ k, k∈(s.hostKeysUpdate M host port offered).old ↔
    k∈s.recorded M host port ∧ k∉offered
  new : (s.hostKeysUpdate M host port offered).new.map (fun i => offered.getD i []) =
    offered.filter fun k => !(s.recorded M host port).contains k

theorem simple_marker (h : e.simple=true) : e.marker=none := by
  rw [Entry.simple,Bool.and_eq_true,Option.isNone_iff_eq_none] at h
  exact h.1

theorem ours_of_recorded (hharmless : ∀ e∈s.entries, Harmless M host port offered e) :
    k∈s.recorded M host port ↔ ∃ e∈s.entries, ours M host port e=true ∧ e.keyBlob=k := by
  rw [mem_recorded]
  constructor
  · rintro ⟨e,he,-,hmatch,hk⟩
    have hsimple := hharmless e he
    rw [Harmless,if_pos hmatch] at hsimple
    exact ⟨e,he,by rw [ours,hmatch,hsimple]; rfl,hk⟩
  · rintro ⟨e,he,hours,hk⟩
    rw [ours,Bool.and_eq_true] at hours
    exact ⟨e,he,simple_marker hours.2,hours.1,hk⟩

theorem Planned.ours (h : Planned M host port offered s) (he : e∈s.entries)
    (hmatch : hostFieldMatches M e.hostSpec host port=true) : ours M host port e=true := by
  have hharmless := h.harmless e he
  rw [Harmless,if_pos hmatch] at hharmless
  rw [Store.ours,hmatch,hharmless]
  rfl

theorem planned_of_not_blocked (hnodup : offered.Nodup)
    (h : (s.hostKeysUpdate M host port offered).blocked=none) :
    Planned M host port offered s := by
  obtain ⟨-,hharmless⟩ := foldl_planEntry_blocked.1 h
  refine ⟨hharmless,fun k => ?_,?_⟩
  · rw [ours_of_recorded hharmless,hostKeysUpdate]
    rw [foldl_planEntry_old,nil_append,mem_map]
    simp only [mem_filter,decide_eq_true_eq]
    constructor
    · rintro ⟨e,⟨he,hours,hnot⟩,rfl⟩
      exact ⟨⟨e,he,hours,rfl⟩,hnot⟩
    · rintro ⟨⟨e,he,hours,rfl⟩,hnot⟩
      exact ⟨e,⟨he,hours,hnot⟩,rfl⟩
  · have hoffered : offered=(range offered.length).map fun i => offered.getD i [] := by
      apply ext_getElem
      · simp
      · intro i h₁ h₂
        simp [h₁]
    conv_rhs => rw [hoffered,filter_map]
    congr 1
    refine filter_congr fun i hi => ?_
    rw [mem_range] at hi
    have hfalse : (replicate offered.length false).getD i false=false := by
      simp [hi]
    rw [Function.comp,Bool.not_inj_iff,Bool.eq_iff_iff,foldl_planEntry_known _ _ (by simpa using hi),
      contains_iff_mem,ours_of_recorded hharmless,hfalse,or_iff_right Bool.false_ne_true]
    refine exists_congr fun e => and_congr_right fun he => and_congr_right fun _ => ?_
    rw [idxOf?_eq_some_iff]
    constructor
    · rintro ⟨hlt,hget,-⟩
      simpa [hi] using hget.symm
    · intro heq
      refine ⟨hi,by simp [heq,hi],fun j hj => ?_⟩
      intro hsame
      have hij : offered[j]=offered[i] := by
        rw [hsame,heq]
        simp [hi]
      exact hj.ne ((hnodup.getElem_inj_iff).1 hij)

/-- A new entry matches its own host. -/
def OwnName (host : Text) (port : UInt16) (hashed : Bool) : Prop :=
  hashed=true ∨ patternsMatch [formatHostPattern host port] host port=true

theorem newSpec_matches_iff {salt : Bytes} {hashed : Bool} :
    hostFieldMatches M (newSpec M salt host port hashed) host port=true ↔
      OwnName host port hashed := by
  cases hashed with
  | true =>
    refine iff_of_true ?_ (.inl rfl)
    simp [newSpec,hostFieldMatches,hashNew,parseHashed_encodeHashed,checkHashed,hmac,M.length_mac]
  | false => exact ⟨fun h => .inr h,fun h => h.resolve_left Bool.false_ne_true⟩

section Written
variable {salts : Nat → Bytes} {remove : List Bytes} {add : List Key} {hashed : Bool}

theorem foldl_add (hhost : safeField host=true) {pairs : List (Key × Nat)}
    (hsafe : ∀ p∈pairs, safeField p.1.1=true) (s : Store) :
    pairs.foldl (fun s p => s.add M (salts p.2) host port p.1 hashed) s =
      { lines := s.lines ++
        pairs.map fun p => .entry (newEntry M (salts p.2) host port p.1 hashed) } := by
  induction pairs generalizing s with
  | nil => simp
  | cons p pairs ih =>
    have hadd : s.add M (salts p.2) host port p.1 hashed =
        s.push (newEntry M (salts p.2) host port p.1 hashed) := by
      rw [Store.add,tryAdd_eq_ok.2 ⟨hsafe p mem_cons_self,hhost,rfl⟩]
    rw [foldl_cons,hadd,ih fun q hq => hsafe q (mem_cons_of_mem p hq)]
    simp [push]

theorem dropped_iff {slot : Slot} : dropped M host port remove slot=true ↔
    ∃ e, slot = .entry e ∧ e.marker=none ∧ e.keyBlob∈remove ∧
      hostFieldMatches M e.hostSpec host port=true := by
  cases slot <;> simp [dropped,and_assoc]

/-- The lines that stay and the new ones. -/
theorem updateHostKeys_eq (hhost : safeField host=true) (hsafe : ∀ key∈add, safeField key.1=true) :
    s.updateHostKeys M salts host port remove add hashed =
      { lines := (s.lines.filter fun slot => !dropped M host port remove slot) ++
        add.zipIdx.map fun p => .entry (newEntry M (salts p.2) host port p.1 hashed) } :=
  foldl_add hhost (fun p hp => hsafe p.1 (fst_mem_of_mem_zipIdx hp)) _

variable (hhost : safeField host=true) (hsafe : ∀ key∈add, safeField key.1=true)
include hhost hsafe

theorem mem_entries_updateHostKeys {e : Entry} :
    e∈(s.updateHostKeys M salts host port remove add hashed).entries ↔
      e∈s.entries ∧ dropped M host port remove (.entry e)=false ∨
      ∃ p∈add.zipIdx, newEntry M (salts p.2) host port p.1 hashed=e := by
  rw [mem_entries,updateHostKeys_eq hhost hsafe,mem_entries]
  simp only [mem_append,mem_filter,mem_map,Slot.entry.injEq,Bool.not_eq_true']

theorem mem_recorded_updateHostKeys {k : Bytes} :
    k∈(s.updateHostKeys M salts host port remove add hashed).recorded M host port ↔
      k∈s.recorded M host port ∧ k∉remove ∨ ∃ p∈add.zipIdx, p.1.2=k ∧
        hostFieldMatches M (newSpec M (salts p.2) host port hashed) host port=true := by
  rw [mem_recorded,mem_recorded]
  simp only [mem_entries_updateHostKeys hhost hsafe]
  constructor
  · rintro ⟨e,⟨he,hkept⟩ | ⟨p,hp,rfl⟩,hmark,hmatch,rfl⟩
    · refine .inl ⟨⟨e,he,hmark,hmatch,rfl⟩,fun hin => ?_⟩
      simp [dropped,hmark,hmatch,hin] at hkept
    · exact .inr ⟨p,hp,rfl,hmatch⟩
  · rintro (⟨⟨e,he,hmark,hmatch,rfl⟩,hnot⟩ | ⟨p,hp,rfl,hmatch⟩)
    · exact ⟨e,.inl ⟨he,by simp [dropped,hnot]⟩,hmark,hmatch,rfl⟩
    · exact ⟨_,.inr ⟨p,hp,rfl⟩,rfl,hmatch,rfl⟩

theorem namedKeys_updateHostKeys (m : Option Marker) (h' : Text) (p' : UInt16) :
    (s.updateHostKeys M salts host port remove add hashed).namedKeys M m h' p' =
      (s.lines.filter fun slot => !dropped M host port remove slot).flatMap (namedOf M m h' p') ++
        add.zipIdx.flatMap fun p =>
          namedOf M m h' p' (.entry (newEntry M (salts p.2) host port p.1 hashed)) := by
  rw [updateHostKeys_eq hhost hsafe,namedKeys,flatMap_append,flatMap_map]

/-- Names that neither a dropped nor a new line has keep their keys. -/
theorem namedKeys_updateHostKeys_eq {m : Option Marker} {h' : Text} {p' : UInt16}
    (hold : ∀ slot∈s.lines, dropped M host port remove slot=true → namedOf M m h' p' slot=[])
    (hnew : ∀ p∈add.zipIdx,
      namedOf M m h' p' (.entry (newEntry M (salts p.2) host port p.1 hashed))=[]) :
    (s.updateHostKeys M salts host port remove add hashed).namedKeys M m h' p' =
      s.namedKeys M m h' p' := by
  rw [namedKeys_updateHostKeys hhost hsafe,flatMap_eq_nil_iff.2 hnew,append_nil,namedKeys]
  revert hold
  induction s.lines with
  | nil => exact fun _ => rfl
  | cons slot lines ih =>
    rw [forall_mem_cons]
    rintro ⟨hslot,hold⟩
    rw [filter_cons,flatMap_cons,← ih hold]
    cases hdrop : dropped M host port remove slot with
    | false => rfl
    | true => rw [hslot hdrop]; rfl

theorem markedKeys_updateHostKeys (m : Marker) (h' : Text) (p' : UInt16) :
    (s.updateHostKeys M salts host port remove add hashed).namedKeys M (some m) h' p' =
      s.namedKeys M (some m) h' p' := by
  refine namedKeys_updateHostKeys_eq hhost hsafe (fun slot _ hdrop => ?_) fun p _ => ?_
  · obtain ⟨e,rfl,hmark,-⟩ := dropped_iff.1 hdrop
    simp [namedOf,hmark]
  · simp [namedOf,newEntry]

variable {h' : Text} {p' : UInt16}

/-- The keys of another name stay the same exactly if no dropped and no new line has the name. -/
theorem plainKeys_updateHostKeys_iff (hadd : ∀ key∈add, key.2∉remove) :
    (s.updateHostKeys M salts host port remove add hashed).plainKeys M h' p'=s.plainKeys M h' p' ↔
      (∀ e∈s.entries, dropped M host port remove (.entry e)=true →
        hostFieldMatches M e.hostSpec h' p'=false) ∧ ∀ p∈add.zipIdx,
        hostFieldMatches M (newSpec M (salts p.2) host port hashed) h' p'=false := by
  simp only [plainKeys_eq_namedKeys]
  constructor
  · rw [namedKeys_updateHostKeys hhost hsafe,namedKeys]
    intro heq
    -- what the dropped lines had is what the new ones have, and only the former is removed
    have hperm := ((filter_append_perm (fun slot => !dropped M host port remove slot)
      s.lines).flatMap_right (namedOf M none h' p')).symm
    rw [← heq,flatMap_append,perm_append_left_iff] at hperm
    have hkeys : ∀ key, (∃ p∈add.zipIdx,
        hostFieldMatches M (newSpec M (salts p.2) host port hashed) h' p'=true ∧ key=p.1) ↔
        ∃ e∈s.entries, dropped M host port remove (.entry e)=true ∧
          hostFieldMatches M e.hostSpec h' p'=true ∧ key=e.key := by
      intro key
      have hnew : ∀ p : Key × Nat,
          key∈namedOf M none h' p' (.entry (newEntry M (salts p.2) host port p.1 hashed)) ↔
            hostFieldMatches M (newSpec M (salts p.2) host port hashed) h' p'=true ∧ key=p.1 := by
        simp [namedOf,newEntry,Entry.key]
      have hmem := hperm.mem_iff (a := key)
      simp only [mem_flatMap,mem_filter,Bool.not_not,hnew] at hmem
      rw [hmem]
      constructor
      · rintro ⟨slot,⟨hslot,hdrop⟩,hkey⟩
        obtain ⟨e,rfl,hmark,-⟩ := dropped_iff.1 hdrop
        exact ⟨e,mem_entries.2 hslot,hdrop,by simpa [namedOf,hmark] using hkey⟩
      · rintro ⟨e,he,hdrop,hmatch,rfl⟩
        obtain ⟨_,⟨⟩,hmark,-⟩ := dropped_iff.1 hdrop
        exact ⟨.entry e,⟨mem_entries.1 he,hdrop⟩,by simp [namedOf,hmark,hmatch]⟩
    have hremove : ∀ e, dropped M host port remove (.entry e)=true → e.key.2∈remove :=
      fun e he => by simpa [Entry.key] using (Bool.and_eq_true_iff.1 (Bool.and_eq_true_iff.1 he).1).2
    refine ⟨fun e he hdrop => Bool.eq_false_iff.2 fun hmatch => ?_,
      fun p hp => Bool.eq_false_iff.2 fun hmatch => ?_⟩
    · obtain ⟨p,hp,-,hkey⟩ := (hkeys e.key).2 ⟨e,he,hdrop,hmatch,rfl⟩
      exact hadd p.1 (fst_mem_of_mem_zipIdx hp) (hkey ▸ hremove e hdrop)
    · obtain ⟨e,-,hdrop,-,hkey⟩ := (hkeys p.1).1 ⟨p,hp,hmatch,rfl⟩
      exact hadd p.1 (fst_mem_of_mem_zipIdx hp) (hkey ▸ hremove e hdrop)
  · rintro ⟨hold,hnew⟩
    refine namedKeys_updateHostKeys_eq hhost hsafe (fun slot hslot hdrop => ?_) fun p hp => ?_
    · obtain ⟨e,rfl,-⟩ := dropped_iff.1 hdrop
      simp [namedOf,hold e (mem_entries.2 hslot) hdrop]
    · simp [namedOf,newEntry,hnew p hp]

end Written

/-- Stores that answer alike have the same keys on file. -/
theorem plainKeys_eq_of_lookup {s' : Store}
    (h : ∀ key, s'.lookup M host port key=s.lookup M host port key) :
    s'.plainKeys M host port=s.plainKeys M host port := by
  simp only [lookup_eq_verdict] at h
  exact (verdict_congr_iff.1 h).2.1

theorem same_of_plain_pattern {p : Text}
    (hplain : p.any (fun c => c == '*' || c == '?' || c == '!')=false)
    (hhost : patternsMatch [p] host port=true) (h : patternsMatch [p] h' p'=true) :
    Text.sameAsciiCase h' host=true ∧ p'=port := by
  have hfixed : ∀ g : Text, (∀ c∈g, c∈p) → FixedGlob g := by
    intro g hg
    refine .inl (any_eq_false.2 fun c hc hwild => ?_)
    have hc := any_eq_false.1 hplain c (hg c hc)
    simp only [isWild,Bool.or_eq_true] at hwild hc
    exact hc (.inl hwild)
  have hsame : ∀ g : Text, FixedGlob g → globMatchAsciiCi g host=true →
      globMatchAsciiCi g h'=true → Text.sameAsciiCase h' host=true := by
    intro g hg hhost hother
    have h₁ := sameAsciiCase_of_glob hg hhost
    have h₂ := sameAsciiCase_of_glob hg hother
    rw [Text.sameAsciiCase,beq_iff_eq] at h₁ h₂ ⊢
    exact h₂.symm.trans h₁
  rw [patternsMatch_singleton,Bool.and_eq_true] at hhost h
  by_cases hbracket : p.head?=some '['
  · obtain ⟨rest,rfl⟩ := head?_eq_some_iff.1 hbracket
    rw [patternMatchInner_bracket] at hhost h
    cases htarget : bracketTarget rest with
    | none => simp [htarget] at h
    | some t =>
      simp only [htarget,Bool.and_eq_true,beq_iff_eq] at hhost h
      refine ⟨hsame t.1 (hfixed t.1 fun c hc => ?_) hhost.2.1 h.2.1,h.2.2.symm.trans hhost.2.2⟩
      exact mem_cons_of_mem _ (mem_of_bracketTarget htarget hc)
  · rw [patternMatchInner_plain hbracket,Bool.and_eq_true,beq_iff_eq] at hhost h
    exact ⟨hsame p (hfixed p fun _ hc => hc) hhost.2.2 h.2.2,h.2.1.trans hhost.2.1.symm⟩

theorem hostFieldMatches_hashed_congr (h : formatHost h' p'=formatHost host port) :
    hostFieldMatches M (.hashed token) h' p'=hostFieldMatches M (.hashed token) host port := by
  simp only [hostFieldMatches,checkHashed,h]

theorem formatHost_of_hashed (hbind : ∀ salt, Binding M salt (formatHost host port))
    (hhost : hostFieldMatches M (.hashed token) host port=true)
    (h : hostFieldMatches M (.hashed token) h' p'=true) :
    formatHost h' p'=formatHost host port := by
  simp only [hostFieldMatches] at hhost h
  cases htoken : parseHashed token with
  | none => simp [htoken] at h
  | some t =>
    simp only [htoken,checkHashed,Bool.and_eq_true,beq_iff_eq] at hhost h
    exact hbind t.1 _ (h.2.trans hhost.2.symm)

/-- The entries that the plan is made from name no other host, unless one is hashed and the host is
written like another. -/
theorem same_of_ours (hbind : ∀ salt, Binding M salt (formatHost host port))
    (hours : ours M host port e=true)
    (hhashed : ∀ token, e.hostSpec = .hashed token → Singular host port true)
    (h : hostFieldMatches M e.hostSpec h' p'=true) :
    Text.sameAsciiCase h' host=true ∧ p'=port := by
  rw [ours,Bool.and_eq_true] at hours
  obtain ⟨hmatch,hsimple⟩ := hours
  rw [Entry.simple,Bool.and_eq_true] at hsimple
  cases hspec : e.hostSpec with
  | hashed token =>
    rw [hspec] at hmatch h
    exact same_of_formatHost (hhashed token hspec) (formatHost_of_hashed hbind hmatch h)
  | patterns pats =>
    rw [hspec] at hmatch h hsimple
    cases pats with
    | nil => cases h
    | cons p pats =>
      cases pats with
      | nil => exact same_of_plain_pattern (by simpa using hsimple.2) hmatch h
      | cons q pats => cases hsimple.2

end Store
section Proofs
variable {verify : Cert.VerifyByName} {hostKeyAlg : Option Text} {sessionId : Bytes}

/-- The keys and the strings of the reply that answer them. -/
def proofs : List Bytes → Bytes → List (Bytes × Bytes)
  | [], _ => []
  | key::keys, sigs =>
    match readString sigs with
    | .ok (sig,sigs) => (key,sig)::proofs keys sigs
    | .error _ => []

/-- The signature verifies, by an algorithm that counts as a proof, under the key and over the
session id and the key. -/
def Verifies (verify : Cert.VerifyByName) (hostKeyAlg : Option Text) (sessionId key sig : Bytes) :
    Prop :=
  ∃ keyType sigType alg, keyBlobType key=some keyType ∧ keyBlobType sig=some sigType ∧
    proofAlg hostKeyAlg keyType sigType=some alg ∧
    verify alg.bytes key (signedData sessionId key) sig = .ok ()

/-- An RSA signature by an algorithm that does not count. -/
def PassedOver (hostKeyAlg : Option Text) (key sig : Bytes) : Prop :=
  ∃ keyType sigType, keyBlobType key=some keyType ∧ keyBlobType sig=some sigType ∧
    proofAlg hostKeyAlg keyType sigType=none

theorem not_verifies_of_passedOver {key sig : Bytes} (h : PassedOver hostKeyAlg key sig) :
    ¬Verifies verify hostKeyAlg sessionId key sig := by
  obtain ⟨keyType,sigType,hkey,hsig,hnone⟩ := h
  rintro ⟨keyType',sigType',alg,hkey',hsig',hsome,-⟩
  obtain rfl := Option.some.inj (hkey.symm.trans hkey')
  obtain rfl := Option.some.inj (hsig.symm.trans hsig')
  rw [hnone] at hsome
  cases hsome

/-- A reply that the update accepts answers every key, verifies for those that are learned, and
leaves out only those that are passed over. -/
theorem checkProofs_eq_some {keys : List Bytes} {sigs : Bytes} {acc add : List Key}
    (h : checkProofs verify hostKeyAlg sessionId keys sigs acc=some add) :
    (proofs keys sigs).map (·.1)=keys ∧ ∃ learned, add=acc++learned ∧
      (∀ key∈learned, ∃ sig, (key.2,sig)∈proofs keys sigs ∧
        keyBlobType key.2=some key.1 ∧ Verifies verify hostKeyAlg sessionId key.2 sig) ∧
      ((∀ p∈proofs keys sigs, ¬PassedOver hostKeyAlg p.1 p.2) → learned.map (·.2)=keys) := by
  fun_induction checkProofs verify hostKeyAlg sessionId keys sigs acc with
  | case1 sigs acc =>
    cases h
    exact ⟨rfl,[],by simp,by simp,fun _ => rfl⟩
  | case2 => cases h
  | case3 key keys sigs acc sig rest hsig keyType sigType hsigType hkeyType halg ih =>
    obtain ⟨hkeys,learned,hadd,hlearned,-⟩ := ih h
    rw [proofs,hsig]
    refine ⟨by rw [map_cons,hkeys],learned,hadd,fun k hk => ?_,fun hnone => ?_⟩
    · obtain ⟨sig',hmem,hrest⟩ := hlearned k hk
      exact ⟨sig',mem_cons_of_mem _ hmem,hrest⟩
    · exact absurd ⟨keyType,sigType,hkeyType,hsigType,halg⟩ (hnone (key,sig) mem_cons_self)
  | case4 => cases h
  | case5 key keys sigs acc sig rest hsig keyType sigType hsigType hkeyType alg halg hverify ih =>
    obtain ⟨hkeys,learned,hadd,hlearned,hall⟩ := ih h
    rw [proofs,hsig]
    refine ⟨by rw [map_cons,hkeys],(keyType,key)::learned,by simp [hadd],
      forall_mem_cons.2 ⟨?_,fun k hk => ?_⟩,fun hnone => ?_⟩
    · exact ⟨sig,mem_cons_self,hkeyType,keyType,sigType,alg,hkeyType,hsigType,halg,hverify⟩
    · obtain ⟨sig',hmem,hrest⟩ := hlearned k hk
      exact ⟨sig',mem_cons_of_mem _ hmem,hrest⟩
    · rw [map_cons,hall fun p hp => hnone p (mem_cons_of_mem _ hp)]
  | case6 => cases h

end Proofs

namespace HostKeysUpdater
variable {U : HostKeysUpdater} {C : Connection} {M : Mac} {salts : Nat → Bytes}
  {verify : Cert.VerifyByName} {raw : Bytes} {s : Store}

/-- The file with the keys that are learned in place of those that are not offered. -/
def rewritten (U : HostKeysUpdater) (M : Mac) (salts : Nat → Bytes) (offered : List Bytes)
    (add : List Key) (s : Store) : Store :=
  s.updateHostKeys M salts U.host U.port (s.hostKeysUpdate M U.host U.port offered).old add U.hash

/-- The listed keys that are looked at and not on file: a proof is asked for each. -/
def asked (U : HostKeysUpdater) (M : Mac) (raw : Bytes) (s : Store) : List Bytes :=
  ((messageKeys raw).filter U.wanted).filter fun k => !(s.recorded M U.host U.port).contains k

/-- The reply to the request for `keys` proves one of them. -/
def Proven (C : Connection) (verify : Cert.VerifyByName) (keys : List Bytes) (key : Bytes) : Prop :=
  ∃ reply sessionId sig, C.prove (keys.flatMap writeString)=some reply ∧
    C.sessionId=some sessionId ∧ (key,sig)∈proofs keys reply ∧
    Verifies verify C.hostKeyAlg sessionId key sig

/-- No proof of the reply is passed over. -/
def AllChecked (C : Connection) (keys : List Bytes) : Prop :=
  ∀ reply, C.prove (keys.flatMap writeString)=some reply →
    ∀ p∈proofs keys reply, ¬PassedOver C.hostKeyAlg p.1 p.2

theorem learn_eq_some {keys : List Bytes} {add : List Key} (h : U.learn C verify keys=some add) :
    (∀ key∈add, key.2∈keys ∧ keyBlobType key.2=some key.1 ∧ Proven C verify keys key.2) ∧
    (AllChecked C keys → add.map (·.2)=keys) ∧
    (keys.Nodup → ¬AllChecked C keys → ∃ key∈keys, ¬Proven C verify keys key) := by
  rw [learn] at h
  cases keys with
  | nil =>
    cases h
    refine ⟨by simp,fun _ => rfl,fun _ hnot => ?_⟩
    exact absurd (fun reply _ p hp => by cases hp) hnot
  | cons k keys =>
    rw [isEmpty_cons,if_neg Bool.false_ne_true,Option.bind_eq_bind,Option.bind_eq_some_iff] at h
    obtain ⟨reply,hreply,h⟩ := h
    rw [Option.bind_eq_some_iff] at h
    obtain ⟨sessionId,hsession,h⟩ := h
    obtain ⟨hkeys,learned,hadd,hlearned,hall⟩ := checkProofs_eq_some h
    subst hadd
    refine ⟨fun key hkey => ?_,fun hchecked => hall (hchecked reply hreply),fun hnodup hnot => ?_⟩
    · obtain ⟨sig,hmem,htype,hverifies⟩ := hlearned key hkey
      refine ⟨?_,htype,reply,sessionId,sig,hreply,hsession,hmem,hverifies⟩
      rw [← hkeys]
      exact mem_map_of_mem hmem
    · rw [AllChecked] at hnot
      push Not at hnot
      obtain ⟨reply',hreply',p,hp,hpassed⟩ := hnot
      obtain rfl := Option.some.inj (hreply.symm.trans hreply')
      refine ⟨p.1,hkeys ▸ mem_map_of_mem hp,?_⟩
      rintro ⟨reply',sessionId',sig,hreply',-,hmem,hverifies⟩
      obtain rfl := Option.some.inj (hreply.symm.trans hreply')
      -- the key has one answer
      have hsame : (p.1,sig)=p :=
        inj_on_of_nodup_map (by rw [hkeys]; exact hnodup) hmem hp rfl
      rw [← hsame] at hpassed
      exact not_verifies_of_passedOver hpassed hverifies

theorem update_eq_some {s' : Store} : U.update C M salts verify raw s=some s' ↔
    ∃ offered add, C.trustedAtStart=true ∧ U.offered raw=some offered ∧ offered≠[] ∧
      (s.hostKeysUpdate M U.host U.port offered).blocked=none ∧
      ¬((s.hostKeysUpdate M U.host U.port offered).new=[] ∧
        (s.hostKeysUpdate M U.host U.port offered).old=[]) ∧
      U.learn C verify ((s.hostKeysUpdate M U.host U.port offered).new.map fun i =>
        offered.getD i [])=some add ∧ C.trustedAtEnd=true ∧
      U.rewritten M salts offered add s=s' := by
  have hguard : ∀ {b : Prop} [Decidable b] {x : Option Store},
      (guard b >>= fun _ => x)=some s' ↔ b ∧ x=some s' := by
    intro b _ x
    by_cases hb : b
    · simp [hb]
    · simp [hb]
  rw [update,hguard,Option.bind_eq_bind,Option.bind_eq_some_iff]
  constructor
  · rintro ⟨hstart,offered,hoffered,h⟩
    obtain ⟨hne,h⟩ := hguard.1 h
    obtain ⟨hblocked,h⟩ := hguard.1 h
    obtain ⟨hplan,h⟩ := hguard.1 h
    obtain ⟨add,hadd,h⟩ := Option.bind_eq_some_iff.1 h
    obtain ⟨hend,h⟩ := hguard.1 h
    refine ⟨offered,add,hstart,hoffered,by simpa using hne,by simpa using hblocked,?_,hadd,
      hend,Option.some.inj h⟩
    rw [not_and_or]
    simpa using hplan
  · rintro ⟨offered,add,hstart,hoffered,hne,hblocked,hplan,hadd,hend,rfl⟩
    refine ⟨hstart,offered,hoffered,hguard.2 ⟨by simpa using hne,hguard.2
      ⟨by simpa using hblocked,hguard.2 ⟨by simpa using not_and_or.1 hplan,?_⟩⟩⟩⟩
    exact Option.bind_eq_some_iff.2 ⟨add,hadd,hguard.2 ⟨hend,rfl⟩⟩

/-- The update gets to the file and has something to change there: the host key is trusted, the
message is well formed, lists no key twice and at least one that is looked at, no entry blocks the
update, and the server has answered for every key it was asked for. -/
structure Applies (U : HostKeysUpdater) (C : Connection) (M : Mac) (verify : Cert.VerifyByName)
    (raw : Bytes) (s : Store) (offered : List Bytes) (add : List Key) : Prop where
  trusted : C.trustedAtStart=true ∧ C.trustedAtEnd=true
  message : U.offered raw=some offered
  nonempty : offered≠[]
  unblocked : (s.hostKeysUpdate M U.host U.port offered).blocked=none
  learned : U.learn C verify (U.asked M raw s)=some add
  changes : add≠[] ∨ ∃ k∈s.recorded M U.host U.port, k∉offered

section Applies
variable {offered : List Bytes} {add : List Key}

theorem Applies.planned (h : Applies U C M verify raw s offered add) :
    s.Planned M U.host U.port offered :=
  Store.planned_of_not_blocked (offered_eq_some h.message).2 h.unblocked

theorem asked_eq (h : U.offered raw=some offered) :
    U.asked M raw s=offered.filter fun k => !(s.recorded M U.host U.port).contains k := by
  rw [asked,(offered_eq_some h).1]

theorem mem_asked (h : U.offered raw=some offered) {k : Bytes} :
    k∈U.asked M raw s ↔ k∈offered ∧ k∉s.recorded M U.host U.port := by
  rw [asked_eq h]
  simp

theorem update_of_applies (h : Applies U C M verify raw s offered add) :
    U.update C M salts verify raw s=some (U.rewritten M salts offered add s) := by
  have hplan := h.planned
  have hlearn := h.learned
  rw [asked_eq h.message,← hplan.new] at hlearn
  refine update_eq_some.2 ⟨offered,add,h.trusted.1,h.message,h.nonempty,h.unblocked,?_,hlearn,
    h.trusted.2,rfl⟩
  rintro ⟨hnew,hold⟩
  rw [hnew] at hlearn
  rcases h.changes with hadd | ⟨k,hk,hnot⟩
  · cases hlearn
    exact hadd rfl
  · have hmem := (hplan.old k).2 ⟨hk,hnot⟩
    rw [hold] at hmem
    cases hmem

/-- Otherwise the store stays as it is. -/
theorem update_getD_of_not_applies (h : ∀ offered add, ¬Applies U C M verify raw s offered add) :
    (U.update C M salts verify raw s).getD s=s := by
  cases hupdate : U.update C M salts verify raw s with
  | none => rfl
  | some s' =>
    obtain ⟨offered,add,hstart,hoffered,hne,hblocked,-,hadd,hend,rfl⟩ :=
      update_eq_some.1 hupdate
    have hplan := Store.planned_of_not_blocked (offered_eq_some hoffered).2 hblocked
    have hnone : ¬(add≠[] ∨ ∃ k∈s.recorded M U.host U.port, k∉offered) := by
      intro hchanges
      refine h offered add ⟨⟨hstart,hend⟩,hoffered,hne,hblocked,?_,hchanges⟩
      rw [asked_eq hoffered,← hplan.new,hadd]
    rw [not_or,not_not] at hnone
    have hold : (s.hostKeysUpdate M U.host U.port offered).old=[] := by
      rw [eq_nil_iff_forall_not_mem]
      intro k hk
      exact hnone.2 ⟨k,(hplan.old k).1 hk⟩
    rw [hnone.1,rewritten,hold,Store.updateHostKeys]
    have hkeep : ∀ slot, Store.dropped M U.host U.port [] slot=false := by
      intro slot
      cases slot <;> simp [Store.dropped]
    simp [hkeep]

end Applies

/-- What an update may do to a store. -/
structure Sound (U : HostKeysUpdater) (C : Connection) (M : Mac) (verify : Cert.VerifyByName)
    (raw : Bytes) (s s' : Store) : Prop where
  /-- A new key was listed, and proven with a signature that verifies. -/
  learned : ∀ k∈s'.recorded M U.host U.port, k∉s.recorded M U.host U.port →
    k∈messageKeys raw ∧ Proven C verify (U.asked M raw s) k
  /-- A listed key stays on file. -/
  kept : ∀ k∈s.recorded M U.host U.port, k∈messageKeys raw → k∈s'.recorded M U.host U.port
  notEmptied : s.recorded M U.host U.port≠[] → s'.recorded M U.host U.port≠[]
  /-- Other hosts get the answers they got before, apart from the fallback to the bare host. -/
  others : ∀ h' p', ¬(Text.sameAsciiCase h' U.host=true ∧ (p'=U.port ∨ U.port=22)) →
    ∀ key, s'.lookup M h' p' key=s.lookup M h' p' key
  revoked : ∀ h' p', s'.revokedKeys M h' p'=s.revokedKeys M h' p'
  authority : ∀ h' p' ca, s'.caTrusted M h' p' ca=s.caTrusted M h' p' ca
  /-- With a key unproven nothing changes. -/
  allOrNothing : (∃ k∈U.asked M raw s, ¬Proven C verify (U.asked M raw s) k) → s'=s

theorem sound_refl : Sound U C M verify raw s s where
  learned _ hk hnot := absurd hk hnot
  kept _ hk _ := hk
  notEmptied h := h
  others _ _ _ _ := rfl
  revoked _ _ := rfl
  authority _ _ _ := rfl
  allOrNothing _ := rfl

/-- The cases in which the update is careful enough. -/
structure Careful (U : HostKeysUpdater) (C : Connection) (M : Mac) (raw : Bytes) (s : Store)
    (offered : List Bytes) : Prop where
  /-- No listed key on file is of a type that is not looked at. -/
  wanted : ∀ k∈s.recorded M U.host U.port, k∈messageKeys raw → U.wanted k=true
  /-- No RSA proof is passed over. -/
  checked : AllChecked C (U.asked M raw s)
  /-- If all keys on file go, the entries that replace them match the host. -/
  matchesItself : s.recorded M U.host U.port≠[] →
    (∀ k∈s.recorded M U.host U.port, k∉offered) →
    U.hash=true ∨ patternsMatch [formatHostPattern U.host U.port] U.host U.port=true
  /-- A new entry matches no other host. -/
  oneHost : U.asked M raw s≠[] → Store.Singular U.host U.port U.hash
  /-- Neither does a hashed entry that goes. -/
  oneHashed : ∀ e∈s.entries, ∀ token, e.hostSpec = .hashed token →
    hostFieldMatches M e.hostSpec U.host U.port=true → e.keyBlob∉offered →
    Store.Singular U.host U.port true

/-- A signature verifies only under a key whose type can be written to a line. -/
def TypedKeys (verify : Cert.VerifyByName) : Prop :=
  ∀ alg key msg sig, verify alg key msg sig = .ok () →
    ∃ keyType, keyBlobType key=some keyType ∧ Store.safeField keyType=true

namespace Applies
variable {offered : List Bytes} {add : List Key}

section
variable (h : Applies U C M verify raw s offered add)
include h

theorem safe (hverify : TypedKeys verify) : ∀ key∈add, Store.safeField key.1=true := by
  intro key hkey
  obtain ⟨-,htype,-,sessionId,sig,-,-,-,-,-,alg,-,-,-,hok⟩ :=
    (learn_eq_some h.learned).1 key hkey
  obtain ⟨keyType,htype',hsafe⟩ := hverify _ _ _ _ hok
  obtain rfl := Option.some.inj (htype.symm.trans htype')
  exact hsafe

theorem mem_offered {key : Key} (hkey : key∈add) :
    key.2∈offered ∧ key.2∉s.recorded M U.host U.port :=
  (mem_asked h.message).1 ((learn_eq_some h.learned).1 key hkey).1

theorem not_old : ∀ key∈add, key.2∉(s.hostKeysUpdate M U.host U.port offered).old := by
  intro key hkey hold
  exact ((h.planned.old key.2).1 hold).2 (h.mem_offered hkey).1

theorem asked_nodup : (U.asked M raw s).Nodup := by
  rw [asked_eq h.message]
  exact (offered_eq_some h.message).2.filter _

end

theorem exists_zipIdx {α : Type} {l : List α} (h : l≠[]) : ∃ p, p∈l.zipIdx := by
  obtain ⟨a,l,rfl⟩ := exists_cons_of_ne_nil h
  exact ⟨(a,0),by exact mem_cons_self⟩

/-- The entries that go are those the plan is made from whose key is not offered. -/
theorem dropped_iff (h : Applies U C M verify raw s offered add) {e : Entry} (he : e∈s.entries) :
    Store.dropped M U.host U.port (s.hostKeysUpdate M U.host U.port offered).old (.entry e)=true ↔
      Store.ours M U.host U.port e=true ∧ e.keyBlob∉offered := by
  simp only [Store.dropped,Bool.and_eq_true,Option.isNone_iff_eq_none,contains_iff_mem]
  constructor
  · rintro ⟨⟨-,hold⟩,hmatch⟩
    exact ⟨h.planned.ours he hmatch,((h.planned.old _).1 hold).2⟩
  · rintro ⟨hours,hnot⟩
    have hrecorded := (Store.ours_of_recorded h.planned.harmless).2 ⟨e,he,hours,rfl⟩
    rw [Store.ours,Bool.and_eq_true] at hours
    exact ⟨⟨Store.simple_marker hours.2,(h.planned.old _).2 ⟨hrecorded,hnot⟩⟩,hours.1⟩

variable (h : Applies U C M verify raw s offered add)
include h

variable {k : Bytes} {h' : Text} {p' : UInt16}

theorem mem_message (hk : k∈offered) : k∈messageKeys raw := by
  rw [← (offered_eq_some h.message).1] at hk
  exact (mem_filter.1 hk).1

theorem mem_offered_iff (hk : k∈messageKeys raw) : k∈offered ↔ U.wanted k=true := by
  rw [← (offered_eq_some h.message).1,mem_filter]
  exact and_iff_right hk

/-- With no proof passed over every key that was asked for is learned. -/
theorem map_add (hchecked : AllChecked C (U.asked M raw s)) :
    add.map (·.2)=U.asked M raw s := (learn_eq_some h.learned).2.1 hchecked

variable (salts : Nat → Bytes) (hhost : Store.safeField U.host=true) (hverify : TypedKeys verify)
include hhost hverify

theorem mem_recorded_after : k∈(U.rewritten M salts offered add s).recorded M U.host U.port ↔
      k∈s.recorded M U.host U.port ∧ k∈offered ∨ ∃ p∈add.zipIdx, p.1.2=k ∧ hostFieldMatches M
        (Store.newSpec M (salts p.2) U.host U.port U.hash) U.host U.port=true := by
  rw [rewritten,Store.mem_recorded_updateHostKeys hhost (h.safe hverify),h.planned.old]
  refine or_congr_left ⟨fun ⟨hk,hnot⟩ => ⟨hk,?_⟩,fun ⟨hk,hin⟩ => ⟨hk,fun hnot => hnot.2 hin⟩⟩
  by_contra hout
  exact hnot ⟨hk,hout⟩

theorem kept_iff : (∀ k∈s.recorded M U.host U.port, k∈messageKeys raw →
      k∈(U.rewritten M salts offered add s).recorded M U.host U.port) ↔
      ∀ k∈s.recorded M U.host U.port, k∈messageKeys raw → U.wanted k=true := by
  refine forall_congr' fun k => forall_congr' fun hk => forall_congr' fun hmessage => ?_
  rw [h.mem_recorded_after salts hhost hverify,h.mem_offered_iff hmessage]
  constructor
  · rintro (⟨-,hwanted⟩ | ⟨p,hp,rfl,-⟩)
    · exact hwanted
    · exact absurd hk (h.mem_offered (fst_mem_of_mem_zipIdx hp)).2
  · exact fun hwanted => .inl ⟨hk,hwanted⟩

theorem learned_after (hk : k∈(U.rewritten M salts offered add s).recorded M U.host U.port)
    (hnot : k∉s.recorded M U.host U.port) :
    k∈messageKeys raw ∧ Proven C verify (U.asked M raw s) k := by
  rw [h.mem_recorded_after salts hhost hverify] at hk
  rcases hk with ⟨hin,-⟩ | ⟨p,hp,rfl,-⟩
  · exact absurd hin hnot
  · have hkey := fst_mem_of_mem_zipIdx hp
    exact ⟨h.mem_message (h.mem_offered hkey).1,((learn_eq_some h.learned).1 p.1 hkey).2.2⟩

theorem after_ne : U.rewritten M salts offered add s≠s := by
  intro heq
  by_cases hdrop : ∃ e∈s.entries, Store.dropped M U.host U.port
      (s.hostKeysUpdate M U.host U.port offered).old (.entry e)=true
  · obtain ⟨e,he,hdrop⟩ := hdrop
    have hmem := he
    rw [← heq,rewritten,Store.mem_entries_updateHostKeys hhost (h.safe hverify)] at hmem
    rcases hmem with ⟨-,hkept⟩ | ⟨p,hp,rfl⟩
    · rw [hkept] at hdrop
      cases hdrop
    · exact ((h.dropped_iff he).1 hdrop).2 (h.mem_offered (fst_mem_of_mem_zipIdx hp)).1
  · push Not at hdrop
    have hadd : add≠[] := by
      refine h.changes.resolve_right ?_
      rintro ⟨k,hk,hnot⟩
      obtain ⟨e,he,hours,rfl⟩ := (Store.ours_of_recorded h.planned.harmless).1 hk
      exact hdrop e he ((h.dropped_iff he).2 ⟨hours,hnot⟩)
    have hkept : (s.lines.filter fun slot => !Store.dropped M U.host U.port
        (s.hostKeysUpdate M U.host U.port offered).old slot)=s.lines := by
      rw [filter_eq_self]
      intro slot hslot
      rw [Bool.not_eq_true',Bool.eq_false_iff]
      intro hslotDrop
      obtain ⟨e,rfl,-⟩ := Store.dropped_iff.1 hslotDrop
      exact hdrop e (Store.mem_entries.2 hslot) hslotDrop
    rw [rewritten,Store.updateHostKeys_eq hhost (h.safe hverify),hkept] at heq
    exact hadd (by simpa using congrArg Store.lines heq)

theorem allOrNothing_iff : ((∃ k∈U.asked M raw s, ¬Proven C verify (U.asked M raw s) k) →
      U.rewritten M salts offered add s=s) ↔ AllChecked C (U.asked M raw s) := by
  constructor
  · intro hnothing
    by_contra hnot
    exact h.after_ne salts hhost hverify
      (hnothing ((learn_eq_some h.learned).2.2 h.asked_nodup hnot))
  · rintro hchecked ⟨k,hk,hunproven⟩
    rw [← h.map_add hchecked] at hk
    obtain ⟨key,hkey,rfl⟩ := mem_map.1 hk
    exact absurd ((learn_eq_some h.learned).1 key hkey).2.2 hunproven

theorem notEmptied_iff (hchecked : AllChecked C (U.asked M raw s)) :
    (s.recorded M U.host U.port≠[] →
      (U.rewritten M salts offered add s).recorded M U.host U.port≠[]) ↔
    (s.recorded M U.host U.port≠[] → (∀ k∈s.recorded M U.host U.port, k∉offered) →
      Store.OwnName U.host U.port U.hash) := by
  refine forall_congr' fun _ => ?_
  rw [Ne,eq_nil_iff_forall_not_mem,not_forall_not]
  simp only [h.mem_recorded_after salts hhost hverify,Store.newSpec_matches_iff]
  constructor
  · rintro ⟨k,⟨hk,hin⟩ | ⟨p,-,-,hmatch⟩⟩ hgone
    · exact absurd hin (hgone k hk)
    · exact hmatch
  · intro hself
    by_cases hstays : ∃ k∈s.recorded M U.host U.port, k∈offered
    · exact hstays.imp fun k hk => .inl hk
    · push Not at hstays
      -- nothing that is offered is on file, so all of it is new
      obtain ⟨k,hk⟩ := exists_mem_of_ne_nil _ h.nonempty
      have hasked : k∈U.asked M raw s := (mem_asked h.message).2 ⟨hk,fun hin => hstays k hin hk⟩
      have hadd : add≠[] := by
        rintro rfl
        rw [← h.map_add hchecked] at hasked
        cases hasked
      obtain ⟨p,hp⟩ := exists_zipIdx hadd
      exact ⟨p.1.2,.inr ⟨p,hp,rfl,hself hstays⟩⟩

theorem revoked_after (h' : Text) (p' : UInt16) :
    (U.rewritten M salts offered add s).revokedKeys M h' p'=s.revokedKeys M h' p' := by
  rw [Store.revokedKeys_eq_namedKeys,rewritten,
    Store.markedKeys_updateHostKeys hhost (h.safe hverify),Store.revokedKeys_eq_namedKeys]

theorem authority_after (h' : Text) (p' : UInt16) (ca : Bytes) :
    (U.rewritten M salts offered add s).caTrusted M h' p' ca=s.caTrusted M h' p' ca := by
  rw [Bool.eq_iff_iff,Store.caTrusted_iff,rewritten,
    Store.markedKeys_updateHostKeys hhost (h.safe hverify),Store.caTrusted_iff]

theorem plainKeys_after_iff :
    (U.rewritten M salts offered add s).plainKeys M h' p'=s.plainKeys M h' p' ↔
      (∀ e∈s.entries, Store.ours M U.host U.port e=true ∧ e.keyBlob∉offered →
        hostFieldMatches M e.hostSpec h' p'=false) ∧ ∀ p∈add.zipIdx,
        hostFieldMatches M (Store.newSpec M (salts p.2) U.host U.port U.hash) h' p'=false := by
  rw [rewritten,Store.plainKeys_updateHostKeys_iff hhost (h.safe hverify) h.not_old]
  refine and_congr_left fun _ => forall₂_congr fun e he => ?_
  rw [h.dropped_iff he]

theorem others_of_careful (hbind : ∀ salt, Binding M salt (formatHost U.host U.port))
    (hcareful : Careful U C M raw s offered)
    (hother : ¬(Text.sameAsciiCase h' U.host=true ∧ (p'=U.port ∨ U.port=22))) (key : Key) :
    (U.rewritten M salts offered add s).lookup M h' p' key=s.lookup M h' p' key := by
  have hkeys : ∀ q, (q=p' ∨ q=22) →
      (U.rewritten M salts offered add s).plainKeys M h' q=s.plainKeys M h' q := by
    intro q hq
    have hown : ¬(Text.sameAsciiCase h' U.host=true ∧ q=U.port) := by
      rintro ⟨hsame,rfl⟩
      exact hother ⟨hsame,hq.imp Eq.symm id⟩
    refine (h.plainKeys_after_iff salts hhost hverify).2
      ⟨fun e he hgone => Bool.eq_false_iff.2 fun hmatch => hown ?_,
        fun p hp => Bool.eq_false_iff.2 fun hmatch => hown ?_⟩
    · have hhere := (Bool.and_eq_true_iff.1 hgone.1).1
      exact Store.same_of_ours hbind hgone.1
        (fun token htoken => hcareful.oneHashed e he token htoken hhere hgone.2) hmatch
    · have hkey := (learn_eq_some h.learned).1 p.1 (fst_mem_of_mem_zipIdx hp)
      exact Store.same_of_newSpec (fun _ => hbind _)
        (hcareful.oneHost (ne_nil_of_mem hkey.1)) hmatch
  rw [Store.lookup_eq_verdict,Store.lookup_eq_verdict,h.revoked_after salts hhost hverify,
    hkeys p' (.inl rfl),Store.bareKeys,Store.bareKeys,hkeys 22 (.inr rfl)]

end Applies

/-- One update learns only proven keys, keeps what is still listed and leaves other hosts alone
exactly if, where it changes the file at all, it is careful. -/
theorem host_keys_update_sound_iff (U : HostKeysUpdater) (C : Connection) (M : Mac)
    (salts : Nat → Bytes) (verify : Cert.VerifyByName) (raw : Bytes) (s : Store)
    (hhost : Store.safeField U.host=true) (hverify : TypedKeys verify)
    (hbind : ∀ salt, Binding M salt (formatHost U.host U.port)) :
    Sound U C M verify raw s ((U.update C M salts verify raw s).getD s) ↔
      ∀ offered add, Applies U C M verify raw s offered add → Careful U C M raw s offered := by
  constructor
  · intro hsound offered add h
    rw [update_of_applies h] at hsound
    have hchecked := (h.allOrNothing_iff salts hhost hverify).1 hsound.allOrNothing
    refine ⟨(h.kept_iff salts hhost hverify).1 hsound.kept,hchecked,
      (h.notEmptied_iff salts hhost hverify hchecked).1 hsound.notEmptied,fun hasked => ?_,
      fun e he token htoken hmatch hnot => ?_⟩
    · by_contra hsingular
      have hadd : add≠[] := by
        rintro rfl
        exact hasked (h.map_add hchecked).symm
      obtain ⟨p,hp⟩ := Applies.exists_zipIdx hadd
      obtain ⟨h',p',hmatch,hother⟩ :=
        Store.exists_other_of_not_singular (fun _ => hbind (salts p.2)) hsingular
      refine absurd hmatch (Bool.eq_false_iff.1
        (((h.plainKeys_after_iff salts hhost hverify).1 ?_).2 p hp))
      exact Store.plainKeys_eq_of_lookup (hsound.others h' p' (by simp [hother]))
    · by_contra hsingular
      obtain ⟨h',p',hname,hother⟩ := Store.exists_alias hsingular
      have hmatch' : hostFieldMatches M e.hostSpec h' p'=true := by
        rw [htoken] at hmatch ⊢
        rw [Store.hostFieldMatches_hashed_congr hname,hmatch]
      refine absurd hmatch' (Bool.eq_false_iff.1 (((h.plainKeys_after_iff salts hhost hverify).1
        ?_).1 e he ⟨h.planned.ours he hmatch,hnot⟩))
      exact Store.plainKeys_eq_of_lookup (hsound.others h' p' (by simp [hother]))
  · intro hcareful
    by_cases happlies : ∃ offered add, Applies U C M verify raw s offered add
    · obtain ⟨offered,add,h⟩ := happlies
      have hcare := hcareful offered add h
      rw [update_of_applies h]
      exact {
        learned := fun k hk hnot => h.learned_after salts hhost hverify hk hnot
        kept := (h.kept_iff salts hhost hverify).2 hcare.wanted
        notEmptied := (h.notEmptied_iff salts hhost hverify hcare.checked).2 hcare.matchesItself
        others := fun h' p' => h.others_of_careful salts hhost hverify hbind hcare
        revoked := h.revoked_after salts hhost hverify
        authority := h.authority_after salts hhost hverify
        allOrNothing := (h.allOrNothing_iff salts hhost hverify).2 hcare.checked }
    · push Not at happlies
      rw [update_getD_of_not_applies happlies]
      exact sound_refl

section Examples

def edKey (n : UInt8) : Bytes := writeString (ascii "ssh-ed25519")++[n]
def rsaKey : Bytes := writeString (ascii "ssh-rsa")++[2]

def dbUpdater : HostKeysUpdater :=
  { host := "db".toList, port := 22, hash := false, algorithms := ["ssh-ed25519".toList] }

def proofConnection : Connection where
  trustedAtStart := true
  trustedAtEnd := true
  prove _ := some (writeString (edKey 9))
  sessionId := some [3]
  hostKeyAlg := none

/- One key, one signature. -/
def oneSignature : Cert.VerifyByName := fun _ key msg sig =>
  if key=edKey 2 ∧ msg=signedData [3] (edKey 2) ∧ sig=edKey 9 then .ok ()
  else .error .badSignature

theorem oneSignature_typed : TypedKeys oneSignature := by
  intro alg key msg sig h
  rw [oneSignature] at h
  split at h
  · next hkey => exact ⟨"ssh-ed25519".toList,by rw [hkey.1]; decide,by decide⟩
  · cases h

def dbStore : Store := Store.fromBytes (ascii "db ssh-ed25519 AAAAC3NzaC1lZDI1NTE5AQ==\n")

/-- The server has a new key and proves it: it replaces the old one. -/
theorem host_keys_update_sound_db :
    let s' := (dbUpdater.update proofConnection (nameMac ["db".toList]) (fun _ => []) oneSignature
      (writeString (edKey 2)) dbStore).getD dbStore
    dbStore.recorded (nameMac ["db".toList]) "db".toList 22=[edKey 1] ∧
    s'.recorded (nameMac ["db".toList]) "db".toList 22=[edKey 2] ∧
    Sound dbUpdater proofConnection (nameMac ["db".toList]) oneSignature (writeString (edKey 2))
      dbStore s' := by
  refine ⟨by decide +kernel,by decide +kernel,
    (host_keys_update_sound_iff dbUpdater proofConnection (nameMac ["db".toList]) (fun _ => [])
      oneSignature (writeString (edKey 2)) dbStore (by decide) oneSignature_typed
      (nameMac_binding mem_cons_self (by decide))).2 ?_⟩
  intro offered add _
  have hspec : ∀ e∈dbStore.entries, e.hostSpec = .patterns ["db".toList] := by decide
  have htype : ∀ p∈proofs (dbUpdater.asked (nameMac ["db".toList]) (writeString (edKey 2)) dbStore)
      (writeString (edKey 9)), keyBlobType p.1=some "ssh-ed25519".toList := by
    decide
  refine ⟨by decide,?_,fun _ _ => .inr (by decide),fun _ => .inl (by decide),
    fun e he token htoken => ?_⟩
  · rintro reply hreply p hp ⟨keyType,sigType,hkey,-,hnone⟩
    cases hreply
    obtain rfl := Option.some.inj ((htype p hp).symm.trans hkey)
    cases hnone
  · rw [hspec e he] at htoken
    cases htoken

/-- Both keys are on file and both are listed; the one that `HostKeyAlgorithms` does not name is
taken for a key that the server has given up. -/
theorem listed_key_removed :
    ¬ ∀ (U : HostKeysUpdater) (C : Connection) (M : Mac) (salts : Nat → Bytes)
      (verify : Cert.VerifyByName) (raw : Bytes) (s : Store),
      Store.safeField U.host=true → TypedKeys verify →
      (∀ salt, Binding M salt (formatHost U.host U.port)) →
      Sound U C M verify raw s ((U.update C M salts verify raw s).getD s) := by
  intro h
  have hkept := (h dbUpdater proofConnection (nameMac ["db".toList]) (fun _ => []) oneSignature
    (writeString (edKey 1)++writeString rsaKey) (Store.fromBytes (ascii
      "db ssh-ed25519 AAAAC3NzaC1lZDI1NTE5AQ==\ndb ssh-rsa AAAAB3NzaC1yc2EC\n"))
    (by decide) oneSignature_typed (nameMac_binding mem_cons_self (by decide))).kept rsaKey
  revert hkept
  decide +kernel

end Examples

end HostKeysUpdater

end PureSsh.KnownHosts
