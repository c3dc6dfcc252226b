import PureSsh.KnownHosts.Rotation
import PureSsh.Lib.Words

/-! What a line of a `known_hosts` file is read as, and what an entry that was written is read back
as. -/

namespace PureSsh.Base64
open Lib

theorem decodeFrom_ne_nil {out : Bytes} {group : List Nat} {padding : Nat} {input blob : Bytes}
    (h : decodeFrom out group padding input = .ok blob) (hsome : out≠[] ∨ group≠[]) : blob≠[] := by
  induction input generalizing out group padding with
  | nil =>
    rw [decodeFrom] at h
    rcases group with _ | ⟨a,_ | ⟨b,_ | ⟨c,_ | ⟨d,rest⟩⟩⟩⟩ <;> simp [finish] at h
    · simpa [← h] using hsome
    · simp [← h]
    · simp [← h]
  | cons c input ih =>
    rw [decodeFrom] at h
    dsimp only at h
    split at h
    · exact ih h hsome
    · cases h
    · split at h
      · cases h
      split at h
      · split at h
        · rw [← Except.ok.inj h]
          simp
        · exact ih h (.inl (by simp))
      · exact ih h (.inr (by simp))
    · split at h
      · cases h
      next hpadding =>
      split at h
      · exact ih h (.inl (by simp))
      · exact ih h (.inr (by simp))

theorem classify_blank {b : UInt8} (h : classify b = .blank) :
    b.toNat<0x80 ∧ Text.isWhitespace (Char.ofNat b.toNat)=true := by
  revert h
  have hall : ∀ n<256, classify (UInt8.ofNat n) = .blank →
      n<0x80 ∧ Text.isWhitespace (Char.ofNat n)=true := by decide +kernel
  have := hall b.toNat b.toNat_lt
  rwa [UInt8.ofNat_toNat] at this

theorem decode_ne_nil {w : Text} (hw : w.IsWord) {blob : Bytes} (h : decode w.bytes = .ok blob) :
    blob≠[] := by
  cases hbytes : w.bytes with
  | nil =>
    exact absurd (Text.bytes_injective (hbytes.trans (show []=Text.bytes [] from rfl))) hw.1
  | cons b rest =>
    have hsolid : classify b ≠ .blank := by
      intro hblank
      obtain ⟨hascii,hspace⟩ := classify_blank hblank
      have hmem : Char.ofNat b.toNat∈w := Text.mem_of_mem_bytes (by rw [hbytes]; simp) hascii
      rw [hw.2 _ hmem] at hspace
      cases hspace
    rw [decode,hbytes,decodeFrom] at h
    dsimp only at h
    split at h
    · next hb => exact absurd hb hsolid
    · cases h
    · split at h
      · cases h
      · exact decodeFrom_ne_nil h (.inr (by simp))
    · split at h
      · cases h
      · exact decodeFrom_ne_nil h (.inr (by simp))

end PureSsh.Base64

namespace PureSsh.KnownHosts
open Lib
variable {e : Entry} {t : Text} {ws : List Text} {marker : Option Marker}

/-- The entry that the words of a line make. -/
def parseWords : List Text → Option Entry
  | [] => none
  | first::rest =>
    if first.head?=some '#' then none
    else if first=Marker.certAuthority.asStr then parseFields (some .certAuthority) rest
    else if first=Marker.revoked.asStr then parseFields (some .revoked) rest
    else parseFields none (first::rest)

/-- Only the words of a line count. -/
theorem parseLine_eq (raw : Text) :
    parseLine raw=(parseWords raw.words).elim (.verbatim raw) .entry := by
  rw [parseLine]
  rcases Text.trim_words raw with ⟨htrim,hwords⟩ | ⟨c,r,w,ws,htrim,hwords⟩
  · simp [htrim,hwords,parseWords]
  · rw [Text.words_trim,htrim,hwords,parseWords]
    by_cases hc : c = '#'
    · simp [hc]
    · rw [if_neg (by simp [hc]),if_neg (by simp [hc])]
      dsimp only
      split
      · next h => rw [h]; rfl
      · next h => rw [h]; rfl

theorem parseFields_eq_some : parseFields marker ws=some e ↔
    ∃ host keyType key comment, ws=host::keyType::key::comment ∧
      Base64.decode (Text.bytes key) = .ok e.keyBlob ∧ e.marker=marker ∧
      e.hostSpec=parseHostField host ∧ e.keyType=parseKeyType keyType ∧
      e.comment=Text.join [' '] comment := by
  constructor
  · intro h
    rw [parseFields.eq_def] at h
    split at h
    · next host keyType key comment =>
      split at h
      · next blob hblob =>
        cases h
        exact ⟨host,keyType,key,comment,rfl,hblob,rfl,rfl,rfl,rfl⟩
      · cases h
    · cases h
  · rintro ⟨host,keyType,key,comment,rfl,hblob,rfl,hhost,htype,hcomment⟩
    obtain ⟨marker,hostSpec,keyType,keyBlob,comment⟩ := e
    simp only [parseFields,hblob]
    subst hhost htype hcomment
    rfl

theorem parseWords_eq_some : parseWords ws=some e ↔
    ∃ fields, ws=(e.marker.map Marker.asStr).toList++fields ∧ parseFields e.marker fields=some e ∧
      (e.marker=none → ∀ w∈fields.head?, w.head?≠some '#' ∧
        w≠Marker.certAuthority.asStr ∧ w≠Marker.revoked.asStr) := by
  have hmarker : ∀ {marker fields}, parseFields marker fields=some e → e.marker=marker := by
    intro marker fields h
    obtain ⟨_,_,_,_,-,-,hmarker,-⟩ := parseFields_eq_some.1 h
    exact hmarker
  constructor
  · intro h
    cases ws with
    | nil => cases h
    | cons first rest =>
      rw [parseWords] at h
      split at h
      · cases h
      next hhash =>
      split at h
      · next hfirst =>
        rw [hmarker h]
        exact ⟨rest,by rw [hfirst]; rfl,h,fun hnone => by cases hnone⟩
      next hca =>
      split at h
      · next hfirst =>
        rw [hmarker h]
        exact ⟨rest,by rw [hfirst]; rfl,h,fun hnone => by cases hnone⟩
      · next hrevoked =>
        rw [hmarker h]
        refine ⟨first::rest,rfl,h,fun _ w hw => ?_⟩
        obtain rfl : first=w := Option.some.inj hw
        exact ⟨hhash,hca,hrevoked⟩
  · rintro ⟨fields,rfl,h,hplain⟩
    obtain ⟨host,keyType,key,comment,rfl,-⟩ := parseFields_eq_some.1 h
    cases hm : e.marker with
    | none =>
      obtain ⟨hhash,hca,hrevoked⟩ := hplain hm host rfl
      rw [hm] at h
      simpa [parseWords,hhash,hca,hrevoked] using h
    | some m =>
      rw [hm] at h
      cases m with
      | certAuthority =>
        have hhead : Marker.certAuthority.asStr.head?≠some '#' := by decide
        simpa [parseWords,hhead] using h
      | revoked =>
        have hhead : Marker.revoked.asStr.head?≠some '#' := by decide
        have hne : Marker.revoked.asStr≠Marker.certAuthority.asStr := by decide
        simpa [parseWords,hhead,hne] using h

/-- A key whose entry is read back as it was: a signature algorithm is not a key type, and an empty
key leaves no word. -/
def Durable (key : Key) : Prop := key.2≠[] ∧ parseKeyType key.1=key.1

instance (key : Key) : Decidable (Durable key) := inferInstanceAs (Decidable (_ ∧ _))

theorem parseKeyType_idem (t : Text) : parseKeyType (parseKeyType t)=parseKeyType t := by
  by_cases h : t = "rsa-sha2-256".toList ∨ t = "rsa-sha2-512".toList
  · rw [parseKeyType.eq_1 t,if_pos h]
    decide
  · rw [parseKeyType.eq_1 t,if_neg h,parseKeyType,if_neg h]

namespace Entry

/-- The words of the line that an entry is written as. -/
def fields (e : Entry) : List Text :=
  (e.marker.map Marker.asStr).toList++e.hostSpec.toField::e.keyType ::
    ((Base64.encode e.keyBlob).words++e.comment.words)

/-- An entry whose parts are words that are read back as they are. -/
structure Writable (e : Entry) : Prop where
  host : e.hostSpec.toField.IsWord
  spec : parseHostField e.hostSpec.toField=e.hostSpec
  plain : e.marker=none → e.hostSpec.toField.head?≠some '#' ∧
    e.hostSpec.toField≠Marker.certAuthority.asStr ∧ e.hostSpec.toField≠Marker.revoked.asStr
  keyType : e.keyType.IsWord
  comment : Text.join [' '] e.comment.words=e.comment

end Entry

theorem toField_parseHostField (field : Text) : (parseHostField field).toField=field := by
  rw [parseHostField]
  split
  · rfl
  · rw [HostSpec.toField,Text.join_eq_intercalate,List.intercalate_splitOn]

theorem isWord_asStr (m : Marker) : m.asStr.IsWord := by
  cases m <;> decide

theorem isWord_encode {blob : Bytes} (h : blob≠[]) : (Base64.encode blob).IsWord :=
  ⟨Base64.encode_ne_nil h,fun _ hc => Base64.solid_encode hc⟩

theorem isWord_parseKeyType (h : t.IsWord) : (parseKeyType t).IsWord := by
  rw [parseKeyType]
  split
  · decide
  · exact h

/-- What was read from a line can be written, and is read back. -/
theorem writable_of_parseWords (hws : ∀ w∈ws, w.IsWord) (h : parseWords ws=some e) :
    e.Writable ∧ Durable e.key := by
  obtain ⟨fields,rfl,hfields,hplain⟩ := parseWords_eq_some.1 h
  obtain ⟨host,keyType,key,comment,rfl,hkey,-,hhost,htype,hcomment⟩ :=
    parseFields_eq_some.1 hfields
  have hword : ∀ w∈host::keyType::key::comment, w.IsWord :=
    fun w hw => hws w (List.mem_append_right _ hw)
  have hfield : e.hostSpec.toField=host := by rw [hhost,toField_parseHostField]
  refine ⟨⟨?_,?_,fun hnone => ?_,?_,?_⟩,?_,?_⟩
  · rw [hfield]
    exact hword host (by simp)
  · rw [hfield,hhost]
  · rw [hfield]
    exact hplain hnone host rfl
  · rw [htype]
    exact isWord_parseKeyType (hword keyType (by simp))
  · rw [hcomment,Text.words_join fun w hw => hword w (by simp [hw])]
  · exact Base64.decode_ne_nil (hword key (by simp)) hkey
  · rw [Entry.key,htype,parseKeyType_idem]

namespace Entry.Writable
variable (h : e.Writable)
include h

theorem words_format : (formatEntry e).words=e.fields := by
  have hblank : Text.isWhitespace ' ' = true := by decide
  have htail : Text.words (Base64.encode e.keyBlob ++
      if e.comment=[] then [] else ' ' :: e.comment) =
      (Base64.encode e.keyBlob).words++e.comment.words := by
    split
    · next hnil => rw [List.append_nil,hnil,Text.words_nil,List.append_nil]
    · rw [Text.words_append_cons hblank]
  have hfields : Text.words (e.hostSpec.toField ++ ' ' :: (e.keyType ++ ' ' ::
      (Base64.encode e.keyBlob++if e.comment=[] then [] else ' ' :: e.comment))) =
      e.hostSpec.toField::e.keyType::((Base64.encode e.keyBlob).words++e.comment.words) := by
    rw [Text.words_append_cons hblank,Text.words_append_cons hblank,htail,
      Text.words_of_isWord h.host,Text.words_of_isWord h.keyType]
    rfl
  cases hm : e.marker with
  | none => simpa [formatEntry,fields,hm] using hfields
  | some m =>
    have hline : formatEntry e=m.asStr ++ ' ' :: (e.hostSpec.toField ++ ' ' :: (e.keyType ++ ' ' ::
      (Base64.encode e.keyBlob++if e.comment=[] then [] else ' ' :: e.comment))) := by
      simp [formatEntry,hm]
    rw [hline,Text.words_append_cons hblank,Text.words_of_isWord (isWord_asStr m),hfields,fields,hm]
    rfl

theorem format_eq_join (hblob : e.keyBlob≠[]) : formatEntry e=Text.join [' '] e.fields := by
  have htail : Text.join [' '] (Base64.encode e.keyBlob::e.comment.words) =
      Base64.encode e.keyBlob++if e.comment=[] then [] else ' ' :: e.comment := by
    by_cases hwords : e.comment.words=[]
    · have hnil : e.comment=[] := by rw [← h.comment,hwords]; rfl
      rw [hwords,if_pos hnil,List.append_nil]
      rfl
    · have hne : e.comment≠[] := fun hnil => hwords (by rw [hnil,Text.words_nil])
      rw [Text.join_cons hwords,h.comment,if_neg hne,List.append_assoc]
      rfl
  have hfields : Text.join [' '] (e.hostSpec.toField::e.keyType ::
      Base64.encode e.keyBlob::e.comment.words)=e.hostSpec.toField ++ ' ' :: (e.keyType ++
        ' ' :: (Base64.encode e.keyBlob++if e.comment=[] then [] else ' ' :: e.comment)) := by
    rw [Text.join_cons (List.cons_ne_nil _ _),Text.join_cons (List.cons_ne_nil _ _),htail]
    simp only [List.append_assoc,List.singleton_append]
  rw [fields,Text.words_of_isWord (isWord_encode hblob)]
  cases hm : e.marker with
  | none => simpa [formatEntry,hm] using hfields.symm
  | some m =>
    simp only [Option.map_some,Option.toList_some,List.singleton_append]
    rw [Text.join_cons (List.cons_ne_nil _ _),hfields]
    simp [formatEntry,hm]

theorem parseWords_fields (hblob : e.keyBlob≠[]) :
    parseWords e.fields=some { e with keyType := parseKeyType e.keyType } := by
  rw [parseWords_eq_some]
  refine ⟨_,rfl,?_,?_⟩
  · rw [Text.words_of_isWord (isWord_encode hblob),parseFields_eq_some]
    exact ⟨_,_,_,_,rfl,Base64.decode_encode e.keyBlob,rfl,h.spec.symm,rfl,h.comment.symm⟩
  · intro hnone w hw
    obtain rfl : e.hostSpec.toField=w := Option.some.inj hw
    exact h.plain hnone

omit h in
theorem parseWords_fields_nil (hm : e.marker=none) (hblob : e.keyBlob=[])
    (hcomment : e.comment=[]) : parseWords e.fields=none := by
  have hfields : e.fields=[e.hostSpec.toField,e.keyType] := by
    rw [fields,hm,hblob,hcomment]
    rfl
  rw [hfields,Option.eq_none_iff_forall_ne_some]
  intro e' he'
  obtain ⟨fields,hwords,hparse,-⟩ := parseWords_eq_some.1 he'
  obtain ⟨host,keyType,key,comment,rfl,-⟩ := parseFields_eq_some.1 hparse
  have hlen := congrArg List.length hwords
  simp only [List.length_append,List.length_cons,List.length_nil] at hlen
  omega

theorem newline_not_mem : '\n' ∉ formatEntry e := by
  have hword : ∀ {w : Text}, w.IsWord → '\n' ∉ w := by
    intro w hw hmem
    have := hw.2 _ hmem
    revert this
    decide
  have hhost := hword h.host
  have htype := hword h.keyType
  have hcomment : '\n' ∉ e.comment := by
    rw [← h.comment]
    intro hmem
    rcases Text.mem_join hmem with hsep | ⟨w,hw,hmem⟩
    · revert hsep
      decide
    · exact hword (Text.isWord_of_mem_words hw) hmem
  have hkey : '\n' ∉ Base64.encode e.keyBlob := by
    intro hmem
    have := Base64.solid_encode hmem
    revert this
    decide
  have hmarker : ∀ m : Marker, '\n' ∉ m.asStr := fun m => hword (isWord_asStr m)
  rw [formatEntry]
  cases hm : e.marker <;> simp [hmarker,hhost,htype,hkey,hcomment]

end Entry.Writable

namespace Store
variable {line : Bytes}

theorem readLine_bytes (t : Text) :
    readLine t.bytes=(parseWords t.words).elim (.verbatim t) .entry := by
  rw [readLine,Text.ofUtf8_bytes]
  dsimp only
  rw [parseLine_eq]
  cases parseWords t.words <;> rfl

/-- The entry that still revokes its key on a line that is not UTF-8. -/
def revokedOf (line : Bytes) : Option Entry :=
  (parseWords (Text.ofUtf8Lossy line).words).filter (·.marker=some .revoked)

theorem readLine_raw (h : validUtf8 line=false) : readLine line = .raw line (revokedOf line) := by
  have hnone : Text.ofUtf8 line=none := by rw [Text.ofUtf8,if_neg (by simp [h])]
  rw [readLine,hnone,revokedOf]
  rw [parseLine_eq]
  cases parseWords (Text.ofUtf8Lossy line).words with
  | none => rfl
  | some e => by_cases hm : e.marker=some .revoked <;> simp [Option.filter]

/-- A line is a text, or cannot be decoded. -/
theorem text_or_raw (line : Bytes) : (∃ t : Text, line=t.bytes) ∨ validUtf8 line=false := by
  cases h : validUtf8 line with
  | true => exact .inl (exists_text h)
  | false => exact .inr rfl

theorem stripCr_bytes (t : Text) : stripCr t.bytes=(Text.stripCr t).bytes := by
  rw [stripCr,Text.stripCr]
  simp only [Text.getLast?_bytes_cr]
  split
  · next h =>
    obtain ⟨t',rfl⟩ := List.getLast?_eq_some_iff.1 h
    rw [Text.bytes_append,List.dropLast_concat,List.dropLast_append_of_ne_nil (by decide)]
    exact List.append_nil _
  · rfl

theorem readLine_stripCr_bytes (t : Text) :
    readLine (stripCr t.bytes)=(parseWords t.words).elim (.verbatim (Text.stripCr t)) .entry := by
  rw [stripCr_bytes,readLine_bytes,Text.words_stripCr]

theorem stripCr_cases (line : Bytes) :
    stripCr line=line ∧ line.getLast?≠some 13 ∨ line=stripCr line++[13] := by
  rw [stripCr]
  split
  · next h =>
    obtain ⟨l,rfl⟩ := List.getLast?_eq_some_iff.1 h
    exact .inr (by rw [List.dropLast_concat])
  · next h => exact .inl ⟨rfl,h⟩

/-- The carriage return at the end of a line that cannot be decoded does not matter either. -/
theorem readLine_stripCr_raw (h : validUtf8 line=false) :
    readLine (stripCr line) = .raw (stripCr line) (revokedOf line) := by
  rcases stripCr_cases line with ⟨hline,-⟩ | hline
  · rw [hline,readLine_raw h]
  · generalize stripCr line=l at hline
    subst hline
    have hcr : (13 : UInt8).toNat<0x80 := by decide
    have hvalid : validUtf8 l=false := by
      rw [validUtf8_ascii hcr,Bool.and_eq_false_iff] at h
      exact h.resolve_right (by decide)
    have hlossy : Text.ofUtf8Lossy (l++[13])=Text.ofUtf8Lossy l++['\r'] := by
      rw [Text.ofUtf8Lossy,utf8Lossy,utf8Scan_ascii beyondAscii_none hcr,List.map_append,List.map_append]
      rfl
    rw [readLine_raw hvalid,revokedOf,revokedOf,hlossy,Text.words_concat_blank (by decide)]

end Store

end PureSsh.KnownHosts
