import PureSsh.KnownHosts.Reading

/-! Saving a store and loading it again, after any edits (`to_bytes`, `from_bytes` and the mutating
operations of `known_hosts/store.rs`). -/

namespace PureSsh.KnownHosts
open Lib Cert List
variable {M : Mac} {m : Option Marker} {host : Text} {port : UInt16} {slot : Slot} {e : Entry}

namespace Store
variable {s : Store}

/- The bytes of a slot before its newline. -/
def slotLine : Slot → Bytes
  | .verbatim s => s.bytes
  | .entry e => (formatEntry e).bytes
  | .raw line _ => line
  | .removed => []

theorem slotBytes_eq (h : slot ≠ .removed) : slotBytes slot=slotLine slot++[10] := by
  cases slot with
  | removed => exact absurd rfl h
  | verbatim _ => rfl
  | entry _ => rfl
  | raw _ _ => rfl

/-- What is true of every slot: it is one line, of the kind that its reading gives. An entry that
would be read otherwise is plain and has no comment. -/
def Sound : Slot → Prop
  | .verbatim t => '\n' ∉ t ∧ parseWords t.words=none
  | .raw line revoked => 10∉line ∧ validUtf8 line=false ∧ revoked=revokedOf line
  | .entry e => e.Writable ∧ (¬Durable e.key → e.marker=none ∧ e.comment=[])
  | .removed => True

/- What a slot is read as once it is saved. -/
def reread (slot : Slot) : Slot := readLine (stripCr (slotLine slot))

variable {line : Bytes} {ls : List Bytes} {f g : α → List β} {l : List α} {α β : Type}

theorem sound_readLine (h : 10∉line) : Sound (readLine line) := by
  rcases text_or_raw line with ⟨t,rfl⟩ | hraw
  · rw [readLine_bytes]
    cases hparse : parseWords t.words with
    | none =>
      refine ⟨fun hmem => h ?_,hparse⟩
      exact mem_flatMap.2 ⟨'\n',hmem,by decide⟩
    | some e =>
      obtain ⟨hwritable,hdurable⟩ :=
        writable_of_parseWords (fun w hw => Text.isWord_of_mem_words hw) hparse
      exact ⟨hwritable,fun hnot => absurd hdurable hnot⟩
  · rw [readLine_raw hraw]
    exact ⟨h,hraw,rfl⟩

theorem newline_not_mem_slotLine (h : Sound slot) : 10∉slotLine slot := by
  have htext : ∀ {t : Text}, '\n' ∉ t → 10∉t.bytes :=
    fun ht hmem => ht (Text.mem_of_mem_bytes hmem (by decide))
  cases slot with
  | verbatim t => exact htext h.1
  | raw line revoked => exact h.1
  | entry e => exact htext h.1.newline_not_mem
  | removed => exact not_mem_nil

theorem splitOn_lines (h : ∀ l∈ls, 10∉l) : (ls.flatMap (· ++ [10])).splitOn 10=ls++[[]] := by
  induction ls with
  | nil => rfl
  | cons l ls ih =>
    obtain ⟨hl,hls⟩ := forall_mem_cons.1 h
    rw [flatMap_cons,append_assoc,singleton_append,
      splitOn_append_cons_self_of_not_mem hl,ih hls,cons_append]

/-- Lines that end in a newline are the lines of the file. -/
theorem fileLines_lines (h : ∀ l∈ls, 10∉l) : fileLines (ls.flatMap (· ++ [10]))=ls := by
  rw [fileLines,splitOn_lines h]
  simp

theorem lines_reload (h : ∀ slot∈s.lines, Sound slot) :
    (fromBytes s.toBytes).lines=(s.lines.filter (· ≠ .removed)).map reread := by
  have hbytes : s.toBytes=((s.lines.filter (· ≠ .removed)).map slotLine).flatMap (· ++ [10]) := by
    rw [toBytes,flatMap_map]
    induction s.lines with
    | nil => rfl
    | cons slot lines ih =>
      rw [flatMap_cons,ih]
      by_cases hremoved : slot = .removed
      · rw [hremoved]
        rfl
      · rw [filter_cons_of_pos (by simpa using hremoved),flatMap_cons,slotBytes_eq hremoved]
  have hlines : ∀ l∈(s.lines.filter (· ≠ .removed)).map slotLine, 10∉l := by
    intro l hl
    obtain ⟨slot,hslot,rfl⟩ := mem_map.1 hl
    exact newline_not_mem_slotLine (h slot (mem_of_mem_filter hslot))
  rw [hbytes,fromBytes,fileLines_lines hlines,map_map]
  rfl

theorem reread_entry (h : e.Writable) : reread (.entry e) =
      (parseWords e.fields).elim (.verbatim (Text.stripCr (formatEntry e))) .entry := by
  rw [reread,slotLine,readLine_stripCr_bytes,h.words_format]

theorem reread_durable (h : e.Writable) (hdurable : Durable e.key) :
    reread (.entry e) = .entry e := by
  have htype : parseKeyType e.keyType=e.keyType := hdurable.2
  rw [reread_entry h,h.parseWords_fields hdurable.1,htype]
  rfl

theorem namedOf_reread_other (h : Sound slot) (hslot : ∀ e, slot ≠ .entry e) :
    namedOf M m host port (reread slot)=namedOf M m host port slot := by
  cases slot with
  | verbatim t =>
    rw [reread,slotLine,readLine_stripCr_bytes,h.2]
    rfl
  | raw line revoked =>
    obtain ⟨-,hraw,rfl⟩ := h
    rw [reread,slotLine,readLine_stripCr_raw hraw]
    cases revokedOf line <;> rfl
  | entry e => exact absurd rfl (hslot e)
  | removed => rfl

theorem namedOf_reread_fading (h : e.Writable) (hm : e.marker=none) (hcomment : e.comment=[]) :
    namedOf M m host port (reread (.entry e))=if e.keyBlob=[] then []
      else if m=none ∧ hostFieldMatches M e.hostSpec host port=true then
        [(parseKeyType e.keyType,e.keyBlob)] else [] := by
  rw [reread_entry h]
  by_cases hblob : e.keyBlob=[]
  · rw [if_pos hblob,Entry.Writable.parseWords_fields_nil hm hblob hcomment]
    rfl
  · rw [if_neg hblob,h.parseWords_fields hblob]
    simp only [Option.elim_some,namedOf,hm,Entry.key,eq_comm (a := m)]

theorem namedOf_reread_marked (h : Sound slot) (marker : Marker) :
    namedOf M (some marker) host port (reread slot)=namedOf M (some marker) host port slot := by
  cases slot with
  | entry e =>
    by_cases hdurable : Durable e.key
    · rw [reread_durable h.1 hdurable]
    · obtain ⟨hm,hcomment⟩ := h.2 hdurable
      rw [namedOf_reread_fading h.1 hm hcomment]
      simp [namedOf,hm]
  | verbatim _ => exact namedOf_reread_other h fun _ he => by cases he
  | raw _ _ => exact namedOf_reread_other h fun _ he => by cases he
  | removed => exact namedOf_reread_other h fun _ he => by cases he

/-- A slot names the same plain keys again, unless its key is not durable. -/
theorem namedOf_reread_plain (h : Sound slot) :
    (namedOf M none host port (reread slot)).length≤(namedOf M none host port slot).length ∧
    (namedOf M none host port (reread slot)=namedOf M none host port slot ↔
      ∀ e, slot = .entry e → e.marker=none → hostFieldMatches M e.hostSpec host port=true →
        Durable e.key) := by
  by_cases hslot : ∃ e, slot = .entry e
  · obtain ⟨e,rfl⟩ := hslot
    by_cases hdurable : Durable e.key
    · rw [reread_durable h.1 hdurable]
      refine ⟨le_refl _,iff_of_true rfl ?_⟩
      rintro _ ⟨⟩ - -
      exact hdurable
    · obtain ⟨hm,hcomment⟩ := h.2 hdurable
      have hkey : e.keyBlob≠[] → (parseKeyType e.keyType,e.keyBlob)≠e.key :=
        fun hblob hsame => hdurable ⟨hblob,congrArg Prod.fst hsame⟩
      rw [namedOf_reread_fading h.1 hm hcomment,namedOf]
      by_cases hmatch : hostFieldMatches M e.hostSpec host port=true
      · by_cases hblob : e.keyBlob=[]
        · simp [hblob,hdurable]
        · simp [hm,hmatch,hblob,hdurable,hkey hblob]
      · simp [hmatch]
  · rw [namedOf_reread_other h fun e he => hslot ⟨e,he⟩]
    exact ⟨le_refl _,iff_of_true rfl fun e he => absurd ⟨e,he⟩ hslot⟩

theorem durable_of_mem_readLine {key : Key} (h : key∈namedOf M m host port (readLine line)) :
    Durable key := by
  have hread : ∀ {t : Text} {e : Entry}, parseWords t.words=some e → Durable e.key :=
    fun hparse => (writable_of_parseWords (fun w hw => Text.isWord_of_mem_words hw) hparse).2
  rcases text_or_raw line with ⟨t,rfl⟩ | hraw
  · rw [readLine_bytes] at h
    cases hparse : parseWords t.words with
    | none => simp [hparse,namedOf] at h
    | some e =>
      simp only [hparse,Option.elim_some,namedOf,mem_ite_nil_right,mem_singleton] at h
      rw [h.2]
      exact hread hparse
  · rw [readLine_raw hraw] at h
    cases hrevoked : revokedOf line with
    | none => simp [hrevoked,namedOf] at h
    | some e =>
      simp only [hrevoked,namedOf,mem_ite_nil_right,mem_singleton] at h
      rw [h.2]
      exact hread (Option.filter_eq_some_iff.1 hrevoked).1

theorem length_flatMap_le (h : ∀ x∈l, (g x).length≤(f x).length) :
    (l.flatMap g).length≤(l.flatMap f).length := by
  induction l with
  | nil => exact le_refl _
  | cons x l ih =>
    obtain ⟨hx,hl⟩ := forall_mem_cons.1 h
    have hle := ih hl
    rw [flatMap_cons,flatMap_cons,length_append,length_append]
    omega

/-- Rows that do not get longer give the same list together only if each of them is the same. -/
theorem flatMap_eq_flatMap_iff (h : ∀ x∈l, (g x).length≤(f x).length) :
    l.flatMap g=l.flatMap f ↔ ∀ x∈l, g x=f x := by
  refine ⟨fun hsame => ?_,fun hsame => flatMap_congr hsame⟩
  induction l with
  | nil => exact fun x hx => absurd hx not_mem_nil
  | cons x l ih =>
    obtain ⟨hx,hl⟩ := forall_mem_cons.1 h
    have hle := length_flatMap_le hl
    rw [flatMap_cons,flatMap_cons] at hsame
    have hlen := congrArg length hsame
    rw [length_append,length_append] at hlen
    obtain ⟨hhead,htail⟩ := append_inj hsame (by omega)
    exact forall_mem_cons.2 ⟨hhead,ih hl htail⟩

section Reload
variable (hsound : ∀ slot∈s.lines, Sound slot)
include hsound

theorem namedKeys_reload : (fromBytes s.toBytes).namedKeys M m host port =
    s.lines.flatMap fun slot => namedOf M m host port (reread slot) := by
  rw [namedKeys,lines_reload hsound]
  induction s.lines with
  | nil => rfl
  | cons slot lines ih =>
    by_cases hremoved : slot = .removed
    · rw [hremoved,filter_cons_of_neg (by simp),ih]
      rfl
    · rw [filter_cons_of_pos (by simpa using hremoved),map_cons,flatMap_cons,flatMap_cons,ih]

theorem namedKeys_reload_marked (marker : Marker) :
    (fromBytes s.toBytes).namedKeys M (some marker) host port =
      s.namedKeys M (some marker) host port := by
  rw [namedKeys_reload hsound]
  exact flatMap_congr fun slot hslot => namedOf_reread_marked (hsound slot hslot) marker

theorem namedKeys_reload_plain_iff :
    (fromBytes s.toBytes).namedKeys M none host port=s.namedKeys M none host port ↔
      ∀ e, .entry e∈s.lines → e.marker=none →
        hostFieldMatches M e.hostSpec host port=true → Durable e.key := by
  rw [namedKeys_reload hsound,namedKeys,
    flatMap_eq_flatMap_iff fun slot hslot => (namedOf_reread_plain (hsound slot hslot)).1]
  constructor
  · intro h e he
    exact (namedOf_reread_plain (hsound _ he)).2.1 (h _ he) e rfl
  · intro h slot hslot
    refine (namedOf_reread_plain (hsound slot hslot)).2.2 ?_
    rintro e rfl
    exact h e hslot

theorem durable_of_mem_reload {key : Key}
    (h : key∈(fromBytes s.toBytes).namedKeys M m host port) : Durable key := by
  rw [namedKeys_reload hsound] at h
  obtain ⟨slot,-,hkey⟩ := mem_flatMap.1 h
  exact durable_of_mem_readLine hkey

/-- The entries that a lookup takes plain keys from. -/
def Consulted (M : Mac) (host : Text) (port : UInt16) (s : Store) (e : Entry) : Prop :=
  .entry e∈s.lines ∧ e.marker=none ∧ (hostFieldMatches M e.hostSpec host port=true ∨
    port≠22 ∧ s.namedKeys M none host port=[] ∧ hostFieldMatches M e.hostSpec host 22=true)

/-- After a save and a load, lookups for a host get the same answers exactly if every entry they
take keys from has a durable key. -/
theorem lookup_reload_iff :
    (∀ key, (fromBytes s.toBytes).lookup M host port key=s.lookup M host port key) ↔
      ∀ e, s.Consulted M host port e → Durable e.key := by
  simp only [lookup_eq_verdict,verdict_congr_iff,revokedKeys_eq_namedKeys,bareKeys,
    plainKeys_eq_namedKeys,namedKeys_reload_marked hsound]
  constructor
  · rintro ⟨-,hhere,hbare⟩ e ⟨he,hm,hmatch | ⟨hport,hnil,hmatch⟩⟩
    · exact (namedKeys_reload_plain_iff hsound).1 hhere e he hm hmatch
    · by_contra hnot
      simp only [if_neg hport] at hbare
      have hmem : e.key∈s.namedKeys M none host 22 :=
        mem_flatMap.2 ⟨_,he,by simp [namedOf,hm,hmatch]⟩
      -- a revoked key is durable, as it was read from a file
      have hrevoked : e.key∉s.namedKeys M (some .revoked) host port := by
        rw [← namedKeys_reload_marked hsound]
        exact fun h => hnot (durable_of_mem_reload hsound h)
      exact hnot (durable_of_mem_reload hsound ((hbare hnil e.key hrevoked).2 hmem))
  · intro h
    have hhere : (fromBytes s.toBytes).namedKeys M none host port=s.namedKeys M none host port :=
      (namedKeys_reload_plain_iff hsound).2 fun e he hm hmatch => h e ⟨he,hm,.inl hmatch⟩
    refine ⟨fun _ => trivial,hhere,fun hnil key _ => ?_⟩
    by_cases hport : port=22
    · rw [if_pos hport,if_pos hport]
    · rw [if_neg hport,if_neg hport,(namedKeys_reload_plain_iff hsound).2
        fun e he hm hmatch => h e ⟨he,hm,.inr ⟨hport,hnil,hmatch⟩⟩]

theorem hasCaFor_reload (c : Certificate) :
    (fromBytes s.toBytes).hasCaFor M host port c=s.hasCaFor M host port c := by
  rw [Bool.eq_iff_iff,hasCaFor_iff,hasCaFor_iff,namedKeys_reload_marked hsound,
    namedKeys_reload_marked hsound]

theorem revokesCert_reload (c : Certificate) :
    (fromBytes s.toBytes).revokesCert M host port c=s.revokesCert M host port c := by
  rw [Bool.eq_iff_iff,revokesCert_iff,revokesCert_iff,namedKeys_reload_marked hsound]

end Reload

end Store

end PureSsh.KnownHosts
