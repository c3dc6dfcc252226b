import PureSsh.Lib.Text

/-! Lines of a text and the first place where a text occurs in another one. -/

namespace PureSsh.Lib.Text
open List

/- Without one carriage return at the end. -/
def stripCr (line : Text) : Text := if line.getLast?=some '\r' then line.dropLast else line

/- The loop of `lines`: `cur` is what was read of the line, backwards. -/
def linesFrom (cur : Text) : Text → List Text
  | [] => if cur=[] then [] else [cur.reverse]
  | c::t => if c = '\n' then stripCr cur.reverse::linesFrom [] t else linesFrom (c::cur) t

/- `str::lines` -/
def lines (t : Text) : List Text := linesFrom [] t

/- What stands before and after the first place where `pat` occurs. -/
def cutAt (pat : Text) : Text → Option (Text × Text)
  | [] => if pat=[] then some ([],[]) else none
  | c::t =>
    if pat.isPrefixOf (c::t) then some ([],(c::t).drop pat.length)
    else (cutAt pat t).map fun p => (c::p.1,p.2)

/- Lines of `width` characters, each with its end; `left` more go on the line at hand. -/
def wrapFrom (width : Nat) : Nat → Text → Text
  | left, [] => if left=width then [] else ['\n']
  | 0, c::t => '\n' :: c::wrapFrom width (width-1) t
  | left+1, c::t => c::wrapFrom width left t

def wrap (width : Nat) (t : Text) : Text := wrapFrom width width t

theorem cutAt_self (pat rest : Text) : cutAt pat (pat++rest)=some ([],rest) := by
  cases h : pat++rest with
  | nil =>
    obtain ⟨rfl,rfl⟩ := append_eq_nil_iff.1 h
    rfl
  | cons c t =>
    have hpre : pat.isPrefixOf (c::t)=true := by
      rw [← h]
      exact isPrefixOf_iff_prefix.2 (prefix_append pat rest)
    rw [cutAt,if_pos hpre,← h,drop_left]

/-- A pattern is found behind a text that does not have its first character. -/
theorem cutAt_append {c : Char} {before : Text} (h : c∉before) (pat rest : Text) :
    cutAt (c::pat) (before++(c::pat++rest))=some (before,rest) := by
  induction before with
  | nil => exact cutAt_self (c::pat) rest
  | cons x before ih =>
    obtain ⟨hx,hbefore⟩ := not_or.1 (mt mem_cons.2 h)
    have hpre : ¬(c::pat).isPrefixOf (x::(before++(c::pat++rest)))=true := by
      rw [ isPrefixOf_iff_prefix,cons_prefix_cons]
      exact fun hp => hx hp.1
    rw [cons_append,cutAt,if_neg hpre,ih hbefore]
    rfl

/-- Where a pattern is found first does not depend on what follows it. -/
theorem cutAt_append_right {pat before : Text} (h : cutAt pat (before++pat)=some (before,[]))
    (rest : Text) : cutAt pat (before++(pat++rest))=some (before,rest) := by
  induction before with
  | nil => exact cutAt_self pat rest
  | cons x before ih =>
    rw [cons_append,cutAt] at h
    split at h
    · cases h
    next hpre =>
      obtain ⟨p,hp,heq⟩ := Option.map_eq_some_iff.1 h
      obtain ⟨hbefore,hnil⟩ := Prod.mk.inj heq
      have hp' : p=(before,[]) := Prod.ext (cons.inj hbefore).2 hnil
      rw [ isPrefixOf_iff_prefix] at hpre
      have hpre' : ¬pat <+: x::(before++(pat++rest)) := by
        intro hlong
        refine hpre (prefix_of_prefix_length_le hlong ⟨rest,by simp⟩ ?_)
        simp only [length_cons,length_append]
        omega
      rw [← isPrefixOf_iff_prefix] at hpre'
      rw [cons_append,cutAt,if_neg hpre',ih (hp' ▸ hp)]
      rfl

theorem mem_wrapFrom {width left : Nat} {t : Text} {x : Char} (h : x∈wrapFrom width left t) :
    x∈t ∨ x = '\n' := by
  fun_induction wrapFrom width left t with
  | case1 => cases h
  | case2 => exact .inr (mem_singleton.1 h)
  | case3 c t ih =>
    obtain rfl | rfl | h := by simpa only [mem_cons] using h
    · exact .inr rfl
    · exact .inl mem_cons_self
    · exact (ih h).imp_left (mem_cons_of_mem c)
  | case4 left c t ih =>
    obtain rfl | h := mem_cons.1 h
    · exact .inl mem_cons_self
    · exact (ih h).imp_left (mem_cons_of_mem c)

theorem filter_wrapFrom {t : Text} (h : ∀ c∈t, isWhitespace c=false) (width left : Nat) :
    (wrapFrom width left t).filter (!isWhitespace ·)=t := by
  have hend : isWhitespace '\n' = true := by decide
  fun_induction wrapFrom width left t with
  | case1 => rfl
  | case2 => simp [hend]
  | case3 c t ih =>
    obtain ⟨hc,ht⟩ := forall_mem_cons.1 h
    simp [hend,hc,ih ht]
  | case4 left c t ih =>
    obtain ⟨hc,ht⟩ := forall_mem_cons.1 h
    simp [hc,ih ht]

end PureSsh.Lib.Text
