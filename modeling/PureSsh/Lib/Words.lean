import Mathlib.Data.List.TakeWhile
import PureSsh.Lib.Lines
import PureSsh.Lib.Utf8

/-! The words of a text: what is between its blanks, and how a text of words is put together. -/

namespace PureSsh.Lib.Text
open List
variable {a b t w : Text} {c : Char} {ws : List Text}

/-- Not empty and without blanks. -/
def IsWord (w : Text) : Prop := w≠[] ∧ ∀ c∈w, isWhitespace c=false

instance (w : Text) : Decidable (IsWord w) := @instDecidableAnd _ _ _ (List.decidableBAll _ w)

theorem words_nil : words []=[] := rfl

theorem words_append_cons (hc : isWhitespace c=true) (a b : Text) :
    words (a++c::b)=words a++words b := by
  rw [words,splitOnP_append_cons a b hc,filter_append]
  rfl

theorem words_cons_blank (hc : isWhitespace c=true) (t : Text) : words (c::t)=words t :=
  words_append_cons hc [] t

/-- One more blank at the end is not seen. -/
theorem words_concat_blank (hc : isWhitespace c=true) (t : Text) : words (t++[c])=words t := by
  rw [words_append_cons hc t [],words_nil,append_nil]

theorem words_blanks_append (h : ∀ c∈a, isWhitespace c=true) (t : Text) : words (a++t)=words t := by
  induction a with
  | nil => rfl
  | cons c a ih =>
    obtain ⟨hc,ha⟩ := forall_mem_cons.1 h
    rw [cons_append,words_cons_blank hc,ih ha]

theorem words_append_blanks (h : ∀ c∈b, isWhitespace c=true) (t : Text) : words (t++b)=words t := by
  cases b with
  | nil => rw [append_nil]
  | cons c b =>
    obtain ⟨hc,hb⟩ := forall_mem_cons.1 h
    have hrest := words_blanks_append hb []
    rw [append_nil] at hrest
    rw [words_append_cons hc,hrest,words_nil,append_nil]

theorem words_of_isWord (h : IsWord w) : words w=[w] := by
  rw [words,splitOnP_eq_singleton h.2]
  simp [h.1]

theorem isWord_of_mem_words (h : w∈words t) : IsWord w := by
  rw [words,mem_filter] at h
  exact ⟨of_decide_eq_true h.2,forall_of_mem_splitOnP h.1⟩

theorem join_cons {sep : Text} (h : ws≠[]) : join sep (w::ws)=w++sep++join sep ws := by
  cases ws with
  | nil => exact absurd rfl h
  | cons w' ws => rfl

theorem exists_join (sep w : Text) (ws : List Text) : ∃ rest, join sep (w::ws)=w++rest := by
  cases ws with
  | nil => exact ⟨[],(append_nil w).symm⟩
  | cons w' ws => exact ⟨sep++join sep (w'::ws),append_assoc w sep _⟩

theorem words_join (h : ∀ w∈ws, IsWord w) : words (join [' '] ws)=ws := by
  have hblank : isWhitespace ' ' = true := by decide
  induction ws with
  | nil => rfl
  | cons w ws ih =>
    obtain ⟨hw,hws⟩ := forall_mem_cons.1 h
    cases ws with
    | nil => exact words_of_isWord hw
    | cons w' ws =>
      rw [join_cons (cons_ne_nil w' ws),append_assoc,singleton_append,
        words_append_cons hblank,words_of_isWord hw,ih hws]
      rfl

theorem getLast?_join {sep : Text} (h : ∀ w∈ws, IsWord w) (hne : ws≠[])
    (hc : c∈(join sep ws).getLast?) : isWhitespace c=false := by
  induction ws with
  | nil => exact absurd rfl hne
  | cons w ws ih =>
    obtain ⟨hw,hws⟩ := forall_mem_cons.1 h
    cases ws with
    | nil => exact hw.2 c (mem_of_mem_getLast? hc)
    | cons w' ws =>
      refine ih hws (cons_ne_nil w' ws) ?_
      obtain ⟨rest,hrest⟩ := exists_join sep w' ws
      have hjoin : join sep (w'::ws)≠[] := by
        rw [hrest]
        exact append_ne_nil_of_left_ne_nil (hws w' mem_cons_self).1 rest
      rwa [join_cons (cons_ne_nil w' ws),getLast?_append_of_ne_nil _ hjoin] at hc

theorem join_eq_intercalate (sep : Text) (ws : List Text) : join sep ws=sep.intercalate ws := by
  induction ws with
  | nil => rfl
  | cons w ws ih =>
    cases ws with
    | nil => simp [join]
    | cons w' ws => rw [join_cons (cons_ne_nil w' ws),ih,intercalate_cons_cons]

theorem mem_join {sep : Text} (h : c∈join sep ws) : c∈sep ∨ ∃ w∈ws, c∈w := by
  induction ws with
  | nil => cases h
  | cons w ws ih =>
    cases ws with
    | nil => exact .inr ⟨w,mem_singleton_self w,h⟩
    | cons w' ws =>
      rw [join_cons (cons_ne_nil w' ws),mem_append,mem_append] at h
      rcases h with (h | h) | h
      · exact .inr ⟨w,mem_cons_self,h⟩
      · exact .inl h
      · refine (ih h).imp_right ?_
        rintro ⟨v,hv,hc⟩
        exact ⟨v,mem_cons_of_mem w hv,hc⟩

section Trim

theorem exists_trim (t : Text) : ∃ a b, t=a++trim t++b ∧
    (∀ c∈a, isWhitespace c=true) ∧ ∀ c∈b, isWhitespace c=true := by
  refine ⟨t.takeWhile isWhitespace,((t.dropWhile isWhitespace).reverse.takeWhile isWhitespace).reverse,
    ?_,fun c hc => mem_takeWhile_imp hc,
    fun c hc => mem_takeWhile_imp (mem_reverse.1 hc)⟩
  rw [trim,append_assoc,← reverse_append,takeWhile_append_dropWhile,
    reverse_reverse,takeWhile_append_dropWhile]

theorem words_trim (t : Text) : words (trim t)=words t := by
  obtain ⟨a,b,ht,ha,hb⟩ := exists_trim t
  conv_rhs => rw [ht]
  rw [words_append_blanks hb,words_blanks_append ha]

theorem trim_head (h : c∈(trim t).head?) : isWhitespace c=false := by
  have hprefix : trim t <+: t.dropWhile isWhitespace := by
    rw [trim,← reverse_suffix,reverse_reverse]
    exact dropWhile_suffix _
  obtain ⟨rest,hrest⟩ := hprefix
  cases htrim : trim t with
  | nil =>
    rw [htrim] at h
    cases h
  | cons x r =>
    rw [htrim] at h hrest
    obtain rfl : x=c := Option.some.inj h
    have hhead := head?_dropWhile_not isWhitespace t
    rw [← hrest] at hhead
    simpa using hhead

theorem words_cons (hc : isWhitespace c=false) (t : Text) : ∃ w ws, words (c::t)=(c::w)::ws := by
  rw [words,splitOnP_cons_eq_if_modifyHead,if_neg (Bool.eq_false_iff.1 hc)]
  cases hsplit : t.splitOnP isWhitespace with
  | nil => exact absurd hsplit (splitOnP_ne_nil _ _)
  | cons p ps => exact ⟨p,ps.filter (· ≠ []),filter_cons_of_pos (by simp)⟩

theorem trim_words (t : Text) : trim t=[] ∧ words t=[] ∨
    ∃ c r w ws, trim t=c::r ∧ words t=(c::w)::ws := by
  cases htrim : trim t with
  | nil => exact .inl ⟨rfl,by rw [← words_trim,htrim,words_nil]⟩
  | cons c r =>
    obtain ⟨w,ws,hwords⟩ := words_cons (trim_head (t := t) (by rw [htrim]; rfl)) r
    exact .inr ⟨c,r,w,ws,rfl,by rw [← words_trim,htrim,hwords]⟩

theorem words_stripCr (t : Text) : words (stripCr t)=words t := by
  rw [stripCr]
  split
  · next h =>
    obtain ⟨t',rfl⟩ := getLast?_eq_some_iff.1 h
    rw [dropLast_concat,words_concat_blank (by decide)]
  · rfl

end Trim

section Lines

theorem linesFrom_append {l : Text} (h : '\n' ∉ l) (cur rest : Text) :
    linesFrom cur (l ++ '\n' :: rest)=stripCr (cur.reverse++l)::linesFrom [] rest := by
  induction l generalizing cur with
  | nil => rw [nil_append,linesFrom,if_pos rfl,append_nil]
  | cons c l ih =>
    obtain ⟨hc,hl⟩ := not_or.1 (mt mem_cons.2 h)
    rw [cons_append,linesFrom,if_neg (Ne.symm hc),ih hl,reverse_cons,append_assoc,singleton_append]

theorem lines_flatMap {ls : List Text} (h : ∀ l∈ls, '\n' ∉ l) :
    lines (ls.flatMap (· ++ ['\n']))=ls.map stripCr := by
  induction ls with
  | nil => rfl
  | cons l ls ih =>
    obtain ⟨hl,hls⟩ := forall_mem_cons.1 h
    rw [flatMap_cons,append_assoc,singleton_append,lines,linesFrom_append hl]
    exact congrArg _ (ih hls)

theorem newline_not_mem_linesFrom {cur l : Text} (hcur : '\n' ∉ cur) (h : l∈linesFrom cur t) :
    '\n' ∉ l := by
  have hstrip : ∀ {l : Text}, '\n' ∉ l → '\n' ∉ stripCr l := by
    intro l hl
    rw [stripCr]
    split
    · exact fun hmem => hl (dropLast_subset _ hmem)
    · exact hl
  induction t generalizing cur with
  | nil =>
    rw [linesFrom] at h
    split at h
    · cases h
    · rw [mem_singleton.1 h,mem_reverse]
      exact hcur
  | cons c t ih =>
    rw [linesFrom] at h
    split at h
    · rcases mem_cons.1 h with rfl | h
      · exact hstrip (by rwa [mem_reverse])
      · exact ih not_mem_nil h
    · next hc => exact ih (by rw [mem_cons,not_or]; exact ⟨Ne.symm hc,hcur⟩) h

theorem newline_not_mem_lines {l : Text} (h : l∈lines t) : '\n' ∉ l :=
  newline_not_mem_linesFrom not_mem_nil h

end Lines

section Ascii
variable {x : UInt8}

theorem bytes_append (a b : Text) : bytes (a++b)=bytes a++bytes b := flatMap_append

theorem mem_of_mem_bytes (h : x∈bytes t) (hx : x.toNat<0x80) : Char.ofNat x.toNat∈t := by
  obtain ⟨c,hc,hmem⟩ := mem_flatMap.1 h
  rw [← mem_utf8EncodeChar hmem hx,Char.ofNat_toNat]
  exact hc

theorem getLast?_bytes_cr : (bytes t).getLast?=some 13 ↔ t.getLast?=some '\r' := by
  rcases eq_nil_or_concat t with rfl | ⟨t',c,rfl⟩
  · simp [bytes]
  · rw [concat_eq_append]
    have hlast : (bytes (t'++[c])).getLast?=(String.utf8EncodeChar c).getLast? := by
      rw [bytes_append,getLast?_append_of_ne_nil _ (by simp [bytes,String.utf8EncodeChar_ne_nil])]
      simp [bytes]
    rw [hlast,getLast?_concat,Option.some.injEq]
    constructor
    · intro h
      have hc := mem_utf8EncodeChar (mem_of_mem_getLast? h) (by decide)
      rw [← Char.ofNat_toNat c,hc]
      rfl
    · rintro rfl
      rfl

end Ascii

end PureSsh.Lib.Text
