import PureSsh.Scp.Protocol

/-! The text of the records is read back as it was meant. -/

namespace PureSsh.Scp

open Lib List

/- A name that both sides agree on. -/
structure GoodName (name : Bytes) : Prop where
  utf8 : validUtf8 name=true
  valid : validateName name = .ok ()
  short : name.length≤255

/- What fits into the text of a record. -/
def Header.Writable : Header → Prop
  | .file mode size name => mode<0o10000 ∧ size<2^64 ∧ GoodName name
  | .dir mode name => mode<0o10000 ∧ GoodName name
  | .endDir => True
  | .times mtime atime =>
    (-(2^63 : Int)≤ mtime ∧ mtime<2^63) ∧ -(2^63 : Int)≤atime ∧ atime<2^63

section RoundTrip

theorem splitn_append {sep : UInt8} {a : Bytes} (h : sep∉a) (n : Nat) (rest : Bytes) :
    splitn sep (n+2) (a++sep::rest)=a::splitn sep (n+1) rest := by
  have hcut : (a++sep::rest).dropWhile (· ≠ sep)=sep::rest ∧
      (a++sep::rest).takeWhile (· ≠ sep)=a := by
    induction a with
    | nil => simp
    | cons b a ih =>
      have hb : b≠sep := fun hb => h (hb ▸ mem_cons_self)
      obtain ⟨hdrop,htake⟩ := ih fun ha => h (mem_cons_of_mem b ha)
      rw [cons_append,dropWhile_cons_of_pos (by simpa using hb),hdrop,
        takeWhile_cons_of_pos (by simpa using hb),htake]
      exact ⟨rfl,rfl⟩
  rw [splitn,hcut.1,hcut.2]

/- The bytes of a number, and those of a mode. -/
def IsDigits (bs : Bytes) : Prop := ∀ b∈bs, 48≤b.toNat ∧ b.toNat<58

theorem isDigits_print {radix : Nat} (hlow : 1<radix) (hhigh : radix≤10) (n : Nat) :
    IsDigits (Numeral.print radix n) := fun _ => Numeral.mem_print hlow hhigh

theorem isDigits_octalMode (mode : Nat) : IsDigits (octalMode mode) := by
  intro b hb
  rcases mem_append.1 hb with hb | hb
  · rw [eq_of_mem_replicate hb]
    decide
  · exact Numeral.mem_print (by decide) (by decide) hb

variable {b : UInt8} {bs name sizeS : Bytes} {mode size : Nat} {t atime mtime : Int}

theorem IsDigits.not_mem (h : IsDigits bs) (hb : b.toNat<48) : b∉bs :=
  fun hin => absurd (h b hin).1 (Nat.not_le.2 hb)

theorem IsDigits.ascii (h : IsDigits bs) : ∀ b∈bs, b.toNat<0x80 :=
  fun b hb => Nat.lt_trans (h b hb).2 (by decide)

theorem parseMode_octalMode (h : mode<0o10000) : parseMode (octalMode mode) = .ok mode := by
  have hparse : Numeral.parse 8 (2^32) (octalMode mode)=some (mode%0o10000) :=
    Numeral.parse_print (by decide) (by decide)
      (Nat.lt_trans (Nat.mod_lt _ (by decide)) (by decide)) _
  rw [parseMode,hparse,Nat.mod_eq_of_lt h]

theorem parseSize_print (h : size<2^64) : parseSize (Numeral.print 10 size) = .ok size := by
  have hparse : Numeral.parse 10 (2^64) (Numeral.print 10 size)=some size :=
    Numeral.parse_print (by decide) (by decide) h 0
  rw [parseSize,hparse]

theorem parseEntry_eq (hmode : mode<0o10000) (hdigits : IsDigits sizeS)
    (hsize : parseSize sizeS = .ok size) (hname : validateName name = .ok ()) :
    parseEntry (octalMode mode++space::(sizeS++space::name)) = .ok (mode,size,name) := by
  rw [parseEntry,splitn_append ((isDigits_octalMode mode).not_mem (by decide)),
    splitn_append (hdigits.not_mem (by decide)),splitn]
  dsimp only
  rw [parseMode_octalMode hmode,except_ok_bind,hsize,except_ok_bind,hname]
  rfl

theorem length_octalMode : (octalMode mode).length=4 := by
  have hlen : (Numeral.print 8 (mode%0o10000)).length≤4 :=
    Numeral.length_print (by decide) (by decide) (Nat.mod_lt _ (by decide))
  rw [octalMode,length_append,length_replicate]
  omega

theorem newline_not_mem (h : validateName name = .ok ()) : newline∉name := by
  intro hin
  have hctl := (validateName_eq_ok.1 h).2.1
  rw [any_eq_false] at hctl
  exact hctl newline hin (by decide)

theorem isLine_entry (hdigits : IsDigits sizeS) (hlen : sizeS.length≤20) (hname : GoodName name) :
    IsLine (octalMode mode++space::(sizeS++space::name)) where
  short := by
    have := hname.short
    simp only [length_append,length_cons,length_octalMode,maxLine]
    omega
  noNewline := by
    have hmode : newline∉octalMode mode := (isDigits_octalMode mode).not_mem (by decide)
    have hsize : newline∉sizeS := hdigits.not_mem (by decide)
    have hspace : newline≠space := by decide
    simp [hmode,hsize,hspace,newline_not_mem hname.valid]
  utf8 := by
    have hspace : ∀ b∈[space], b.toNat<0x80 := forall_mem_singleton.2 (by decide)
    rw [validUtf8_append (isDigits_octalMode mode).ascii,← singleton_append,
      validUtf8_append hspace,validUtf8_append hdigits.ascii,← singleton_append,
      validUtf8_append hspace]
    exact hname.utf8

theorem mem_printInt (h : b∈Numeral.printInt t) : b=45 ∨ (48≤b.toNat ∧ b.toNat<58) := by
  rw [Numeral.printInt] at h
  split at h
  · exact (mem_cons.1 h).imp_right (Numeral.mem_print (by decide) (by decide))
  · exact .inr (Numeral.mem_print (by decide) (by decide) h)

theorem length_printInt (hlow : -(2^63 : Int)≤t) (hhigh : t<2^63) :
    (Numeral.printInt t).length≤20 := by
  have hlen : (Numeral.print 10 t.natAbs).length≤19 :=
    Numeral.length_print (by decide) (by decide)
      (Nat.lt_of_le_of_lt (show t.natAbs≤2^63 by omega) (by decide))
  rw [Numeral.printInt]
  split
  · exact Nat.succ_le_succ hlen
  · exact Nat.le_succ_of_le hlen

theorem parseTime_printInt (hlow : -(2^63 : Int)≤t) (hhigh : t<2^63) (msg : Bytes) :
    parseTime msg (Numeral.printInt t) = .ok t := by
  have hparse : Numeral.parseInt (2^63) (Numeral.printInt t)=some t :=
    Numeral.parseInt_printInt (by exact_mod_cast hlow) (by exact_mod_cast hhigh)
  rw [parseTime,hparse]

/- The line of a `T` record. -/
def timesLine (mtime atime : Int) : Bytes :=
  Numeral.printInt mtime++space::48::space::(Numeral.printInt atime++[space,48])

theorem parseTimes_timesLine (h : (Header.times mtime atime).Writable) :
    parseTimes (timesLine mtime atime) = .ok (.times mtime atime) := by
  obtain ⟨⟨hlow,hhigh⟩,hlow',hhigh'⟩ := h
  have hspace (t : Int) : space∉Numeral.printInt t := by
    intro hin
    rcases mem_printInt hin with h | h
    · exact absurd h (by decide)
    · exact absurd h.1 (by decide)
  have hpieces : timesLine mtime atime=[space].intercalate
      [Numeral.printInt mtime,[48],Numeral.printInt atime,[48]] := by
    simp [timesLine,intercalate]
  have hsplit : (timesLine mtime atime).splitOn space =
      [Numeral.printInt mtime,[48],Numeral.printInt atime,[48]] := by
    rw [hpieces]
    refine splitOn_intercalate space ?_ (cons_ne_nil _ _)
    simp only [forall_mem_cons]
    exact ⟨hspace mtime,by decide,hspace atime,by decide,nofun⟩
  rw [parseTimes,hsplit]
  dsimp only
  rw [if_neg (by simp),parseTime_printInt hlow hhigh,except_ok_bind,parseTime_printInt hlow' hhigh']
  rfl

theorem isLine_timesLine (h : (Header.times mtime atime).Writable) :
    IsLine (timesLine mtime atime) := by
  obtain ⟨⟨hlow,hhigh⟩,hlow',hhigh'⟩ := h
  have hspace : space.toNat<0x80 ∧ space≠newline := by decide
  have hzero : (48 : UInt8).toNat<0x80 ∧ (48 : UInt8)≠newline := by decide
  have hint (t : Int) : ∀ b∈Numeral.printInt t, b.toNat<0x80 ∧ b≠newline := by
    intro b hb
    rcases mem_printInt hb with rfl | hd
    · decide
    · refine ⟨Nat.lt_trans hd.2 (by decide),?_⟩
      rintro rfl
      exact absurd hd.1 (by decide)
  have hall : ∀ b∈timesLine mtime atime, b.toNat<0x80 ∧ b≠newline := by
    rw [timesLine]
    simp only [forall_mem_append,forall_mem_cons]
    exact ⟨hint mtime,hspace,hzero,hspace,hint atime,hspace,hzero,nofun⟩
  refine ⟨?_,fun hin => (hall newline hin).2 rfl,?_⟩
  · have := length_printInt hlow hhigh
    have := length_printInt hlow' hhigh'
    simp only [timesLine,length_append,length_cons,length_nil,maxLine]
    omega
  · have hutf := validUtf8_append (fun b hb => (hall b hb).1) []
    rw [append_nil] at hutf
    rw [hutf]
    rfl

/-- What one side writes, the other reads. -/
theorem readHeader_headerLine {h : Header} (hw : h.Writable) :
    ∃ b kind line, headerLine h=b::line++[newline] ∧ RecordKind.ofByte b=some kind ∧
      IsLine line ∧ parseHeader kind line = .ok h := by
  cases h with
  | file mode size name =>
    obtain ⟨hmode,hsize,hname⟩ := hw
    have hdigits := isDigits_print (show 1<10 by decide) (by decide) size
    refine ⟨67,.c,octalMode mode++space::(Numeral.print 10 size++space::name),?_,rfl,
      isLine_entry hdigits ?_ hname,?_⟩
    · simp [headerLine]
    · exact Numeral.length_print (by decide) (by decide) (Nat.lt_trans hsize (by decide))
    · rw [parseHeader,parseEntry_eq hmode hdigits (parseSize_print hsize) hname.valid]
      rfl
  | dir mode name =>
    obtain ⟨hmode,hname⟩ := hw
    have hdigits : IsDigits [48] := by
      intro b hb
      rw [mem_singleton.1 hb]
      decide
    refine ⟨68,.d,octalMode mode++space::([48]++space::name),?_,rfl,
      isLine_entry hdigits (by decide) hname,?_⟩
    · simp [headerLine]
    · rw [parseHeader,parseEntry_eq hmode hdigits (show parseSize [48] = .ok 0 from rfl) hname.valid]
      rfl
  | endDir => exact ⟨69,.e,[],rfl,rfl,⟨by decide,by decide,by decide⟩,rfl⟩
  | times mtime atime =>
    refine ⟨84,.t,timesLine mtime atime,?_,rfl,isLine_timesLine hw,parseTimes_timesLine hw⟩
    simp [headerLine,timesLine]

end RoundTrip

end PureSsh.Scp
