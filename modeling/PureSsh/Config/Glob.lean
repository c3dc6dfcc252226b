import PureSsh.KnownHosts.Format
import PureSsh.Lib.Glob

/-! The pattern matchers of the configuration, of `AcceptEnv` and of known_hosts. -/

namespace PureSsh.Config

open Lib Lib.Glob KnownHosts List

def star : UInt8 := 42
def query : UInt8 := 63

/- Where to go on after a mismatch: behind the last `*` that was met, and the name it was met at.
The matcher never goes back over what is recorded here. -/
structure Resume (p n : Bytes) where
  pattern : Bytes
  name : Bytes
  pattern_le : p.length≤pattern.length
  name_le : n.length≤name.length

def Resume.advance {p n : Bytes} (r : Resume p n) : Resume p.tail n.tail where
  pattern := r.pattern
  name := r.name
  pattern_le := by
    rw [length_tail]
    exact Nat.le_trans (Nat.sub_le _ _) r.pattern_le
  name_le := by
    rw [length_tail]
    exact Nat.le_trans (Nat.sub_le _ _) r.name_le

def Resume.here (p n : Bytes) : Resume p n := ⟨p,n,le_rfl,le_rfl⟩

/- The loop of `glob_match`, over what is left of the pattern and of the name. -/
def globLoop (p n : Bytes) (resume : Option (Resume p n)) : Bool :=
  if _ : n=[] then (p.dropWhile (· == star)).isEmpty
  -- a literal comparison comes first, so a `*` of the name takes a `*` of the pattern
  else if _ : p≠[] ∧ (p.head?=some query ∨ p.head?=n.head?) then
    globLoop p.tail n.tail (resume.map Resume.advance)
  else if _ : p.head?=some star then globLoop p.tail n (some (.here p.tail n))
  else match resume with
    | some r => globLoop r.pattern r.name.tail (some (.here r.pattern r.name.tail))
    | none => false
termination_by
  (match resume with
    | some r => r.pattern.length
    | none => p.length+1,
   match resume with
    | some r => r.name.length
    | none => n.length,
   p.length)
decreasing_by
  · have hlen := length_pos_iff.2 (And.left ‹p≠[] ∧ _›)
    cases resume with
    | none =>
      apply Prod.Lex.left
      simp only [Option.map_none,length_tail]
      omega
    | some r =>
      apply Prod.Lex.right
      apply Prod.Lex.right
      simp only [length_tail]
      omega
  · have hlen : 0<p.length := by
      cases p with
      | nil => cases ‹head? []=some star›
      | cons => simp
    apply Prod.Lex.left
    cases resume with
    | none =>
      simp only [Resume.here,length_tail]
      omega
    | some r =>
      have hle := r.pattern_le
      simp only [Resume.here,length_tail]
      omega
  · have hlen := length_pos_iff.2 ‹n≠[]›
    have hle := r.name_le
    apply Prod.Lex.right
    apply Prod.Lex.left
    simp only [Resume.here,length_tail]
    omega

def globMatch (p n : Bytes) : Bool := globLoop p n none

/- The matcher of `AcceptEnv`; a run of `*` counts once, and at the end it takes the rest. -/
def envGlobMatch (p n : Bytes) : Bool :=
  match p, n with
  | [], n => n.isEmpty
  | c::p, n =>
    if c=star then
      (p.dropWhile (· == star)).isEmpty ||
        n.tails.any fun rest => envGlobMatch (p.dropWhile (· == star)) rest
    else match n with
      | [] => false
      | x::n => (c==query || c==x) && envGlobMatch p n
termination_by p.length
decreasing_by
  · exact Nat.lt_succ_of_le (dropWhile_sublist _).length_le
  · exact Nat.lt_succ_self _

/- The patterns of a `Host` line. -/
inductive HostPattern
  | any
  | positive (glob : Bytes)
  | negative (glob : Bytes)
  deriving DecidableEq, Repr

def HostPattern.parse : Bytes → HostPattern
  | 33::rest => .negative rest
  | token => if token=[star] then .any else .positive token

def HostPattern.parseAll (tokens : List Bytes) : List HostPattern := tokens.map HostPattern.parse

/- The loop of `host_matches`, with its two flags. -/
def hostLoop (host : Bytes) : List HostPattern → Bool → Bool → Bool
  | [], anyPositive, positiveHit => anyPositive && positiveHit
  | .any::ps, _, _ => hostLoop host ps true true
  | .positive g::ps, _, hit => hostLoop host ps true (hit || globMatch g host)
  | .negative g::ps, anyPositive, hit =>
    if globMatch g host then false else hostLoop host ps anyPositive hit

def hostMatches (patterns : List HostPattern) (host : Bytes) : Bool :=
  if patterns.isEmpty then false else hostLoop host patterns false false

/- The wildcards as bytes and as characters. -/
def wildBytes : Wild UInt8 := ⟨star,query,by decide⟩
def wildChars : Wild Char := ⟨'*','?',by decide⟩

section Loop

variable {p n : Bytes} {resume : Option (Resume p n)}

/-- What a recorded `*` still offers: its part of the pattern, further on in the name. -/
def Later (resume : Option (Resume p n)) : Prop :=
  ∃ r∈resume, ∃ k, Means wildBytes r.pattern (r.name.drop (k+1))

/- Between the recorded `*` and here the pattern has no other, and the name has none at all. -/
def Trails (resume : Option (Resume p n)) : Prop :=
  ∀ r∈resume, star∉r.name ∧
    ∃ w, star∉w ∧ r.pattern=w++p ∧ n=r.name.drop w.length

/-- Later attempts of the recorded `*` meet the rest of the pattern further on in the name. -/
theorem Later.means (ht : Trails resume) (h : Later resume) :
    ∃ k, Means wildBytes p (n.drop (k+1)) := by
  obtain ⟨r,hr,k,hk⟩ := h
  obtain ⟨-,w,hw,hpat,hname⟩ := ht r hr
  rw [hpat] at hk
  refine ⟨k,?_⟩
  have hp := (Means.append hw hk).2
  rw [hname,drop_drop]
  rwa [drop_drop,Nat.add_comm] at hp

theorem trails_here (hn : star∉n) : Trails (some (Resume.here p n)) := by
  rintro r ⟨⟩
  exact ⟨hn,[],not_mem_nil,rfl,rfl⟩

theorem later_here {r : Resume p n} : Later (some r) ↔
    ∃ k, Means wildBytes r.pattern (r.name.drop (k+1)) :=
  ⟨fun ⟨_,hr,h⟩ => Option.some.inj hr ▸ h,fun h => ⟨r,rfl,h⟩⟩

theorem later_advance : Later (resume.map Resume.advance) ↔ Later resume := by
  cases resume <;> simp [Later,Resume.advance]

end Loop

variable {c x : UInt8} {n p : Bytes} {t : Text}

theorem Trails.advance {resume : Option (Resume (c::p) (x::n))} (hc : c≠star)
    (h : Trails resume) : Trails (p := p) (n := n) (resume.map Resume.advance) := by
  intro r hr
  obtain ⟨s,hs,rfl⟩ := Option.map_eq_some_iff.1 hr
  obtain ⟨hname,w,hw,hpat,hn⟩ := h s hs
  refine ⟨hname,w++[c],?_,?_,?_⟩
  · simpa [hw] using hc.symm
  · simpa [Resume.advance] using hpat
  · rw [length_append,← drop_drop,Resume.advance,← hn]
    rfl

theorem not_means_of_mismatch (hne : n≠[])
    (hp : ¬(p≠[] ∧ (p.head?=some query ∨ p.head?=n.head?))) (hs : p.head?≠some star) :
    ¬Means wildBytes p n := by
  obtain ⟨x,n,rfl⟩ := exists_cons_of_ne_nil hne
  cases p with
  | nil => simp
  | cons c p =>
    have hc : c≠star := by simpa using hs
    intro h
    have hcx := ((means_cons_cons (W := wildBytes) hc).1 h).1
    exact hp ⟨cons_ne_nil c p,hcx.imp (congrArg some) (congrArg some)⟩

/-- One star to come back to is enough: what the loop finds is the pattern here, or the part behind
the last star further on. -/
theorem globLoop_iff {resume : Option (Resume p n)} (hn : star∉n) (ht : Trails resume) :
    globLoop p n resume=true ↔ Means wildBytes p n ∨ Later resume := by
  fun_induction globLoop p n resume with
  | case1 p resume =>
    rw [List.isEmpty_iff]
    constructor
    · exact fun h => .inl (means_nil_right.2 h)
    · rintro (h | h)
      · exact means_nil_right.1 h
      · obtain ⟨k,hk⟩ := h.means ht
        exact means_nil_right.1 (by simpa using hk)
  | case2 p n resume hne hp ih =>
    obtain ⟨c,p,rfl⟩ := exists_cons_of_ne_nil hp.1
    obtain ⟨x,n,rfl⟩ := exists_cons_of_ne_nil hne
    have hcx : c=query ∨ c=x := by simpa using hp.2
    have hc : c≠star := by
      rintro rfl
      rcases hcx with h | rfl
      · exact absurd h (by decide)
      · exact hn mem_cons_self
    rw [ih (fun h => hn (mem_cons_of_mem x h)) (ht.advance hc),later_advance]
    have hmeans : Means wildBytes (c::p) (x::n) ↔ Means wildBytes p n :=
      (means_cons_cons hc).trans (and_iff_right hcx)
    rw [hmeans]
    rfl
  | case3 p n resume hne hp hs ih =>
    obtain ⟨p,rfl⟩ : ∃ q, p=star::q := by
      cases p with
      | nil => cases hs
      | cons c p => exact ⟨p,by rw [Option.some.inj hs]⟩
    rw [ih hn (trails_here hn),later_here]
    have hrun := means_run (W := wildBytes) (p := p) (n := n)
    constructor
    · rintro (h | ⟨k,hk⟩)
      · exact .inl (hrun.2 ⟨0,h⟩)
      · exact .inl (hrun.2 ⟨k+1,hk⟩)
    · intro h
      -- an earlier star offers nothing that this one does not
      have hstar : Means wildBytes (star::p) n := h.elim id fun h => by
        obtain ⟨k,hk⟩ := h.means ht
        obtain ⟨j,hj⟩ := means_run.1 hk
        rw [drop_drop] at hj
        exact means_run.2 ⟨_,hj⟩
      obtain ⟨k,hk⟩ := hrun.1 hstar
      cases k with
      | zero => exact .inl hk
      | succ k => exact .inr ⟨k,hk⟩
  | case4 p n hne hp hs r ih =>
    have hname : star∉r.name := (ht r rfl).1
    have htail : star∉r.name.tail := fun h => hname (mem_of_mem_tail h)
    rw [ih htail (trails_here htail),later_here,later_here]
    simp only [Resume.here,← drop_one,drop_drop]
    constructor
    · rintro (h | ⟨k,hk⟩)
      · exact .inr ⟨0,h⟩
      · exact .inr ⟨k+1,by rwa [Nat.add_comm] at hk⟩
    · rintro (h | ⟨k,hk⟩)
      · exact absurd h (not_means_of_mismatch hne hp hs)
      · cases k with
        | zero => exact .inl hk
        | succ k => exact .inr ⟨k,by rwa [Nat.add_comm]⟩
  | case5 p n hne hp hs =>
    constructor
    · nofun
    · rintro (h | ⟨r,hr,-⟩)
      · exact absurd h (not_means_of_mismatch hne hp hs)
      · cases hr

/-- Without `*` in the name the loop finds every way to cut it. -/
theorem globMatch_iff (hn : star∉n) (p : Bytes) : globMatch p n=true ↔ Means wildBytes p n := by
  rw [globMatch,globLoop_iff hn (by rintro r ⟨⟩)]
  exact or_iff_left (by rintro ⟨r,⟨⟩,-⟩)

theorem globLoop_literal (h : c=query ∨ c=x) (p n : Bytes) :
    globLoop (c::p) (x::n) none=globLoop p n none := by
  have hstep : (c::p≠[] ∧ ((c::p).head?=some query ∨ (c::p).head?=(x::n).head?)) := by
    simpa using h
  rw [globLoop,dif_pos hstep]
  rfl

theorem globLoop_replicate (u p n : Bytes) :
    globLoop (replicate u.length query++p) (u++n) none=globLoop p n none := by
  induction u with
  | nil => rfl
  | cons x u ih => rw [length_cons,replicate_succ,cons_append,cons_append,
      globLoop_literal (.inl rfl),ih]

theorem means_replicate (u p n : Bytes) :
    Means wildBytes (replicate u.length query++p) (u++n) ↔ Means wildBytes p n := by
  induction u with
  | nil => rfl
  | cons x u ih =>
    rw [length_cons,replicate_succ,cons_append,cons_append,← ih]
    have hquery : query≠wildBytes.run := by decide
    rw [means_cons_cons hquery]
    exact and_iff_right (.inl rfl)

/-- A `*` of the name uses up a `*` of the pattern. -/
theorem globMatch_of_mem (h : star∈n) : ∃ p, Means wildBytes p n ∧ globMatch p n=false := by
  obtain ⟨u,v,rfl⟩ := append_of_mem h
  refine ⟨replicate u.length query++star::(replicate v.length query++[query]),?_,?_⟩
  · rw [means_replicate]
    refine means_run.2 ⟨0,?_⟩
    have hlast := (means_replicate (star::v) [] []).2 (means_nil.2 rfl)
    simpa [replicate_succ'] using hlast
  · have hlast := globLoop_replicate v [query] []
    rw [append_nil] at hlast
    rw [globMatch,globLoop_replicate,globLoop_literal (.inr rfl),hlast,globLoop]
    decide

theorem envGlobMatch_iff (p n : Bytes) : envGlobMatch p n=true ↔ Means wildBytes p n := by
  fun_induction envGlobMatch p n with
  | case1 n => rw [List.isEmpty_iff,means_nil]
  | case2 p n ih =>
    have hskip := means_dropWhile (W := wildBytes) (p := p) (n := n)
    rw [Bool.or_eq_true,List.isEmpty_iff,List.any_eq_true]
    refine Iff.trans ?_ (means_run_tails.symm.trans hskip)
    constructor
    · rintro (h | ⟨rest,hrest,h⟩)
      · refine ⟨[],(mem_tails _ _).2 (nil_suffix),?_⟩
        rw [show p.dropWhile (· == wildBytes.run)=[] from h]
        exact means_nil.2 rfl
      · exact ⟨rest,hrest,(ih rest).1 h⟩
    · rintro ⟨rest,hrest,h⟩
      exact .inr ⟨rest,hrest,(ih rest).2 h⟩
  | case3 c p hc => simpa using not_means_cons_nil (W := wildBytes) hc
  | case4 c p hc x n ih =>
    have hmeans := means_cons_cons (W := wildBytes) (p := p) (n := n) (x := x) hc
    rw [Bool.and_eq_true,Bool.or_eq_true,beq_iff_eq,beq_iff_eq,ih,hmeans]
    rfl

/- Lower-cased ASCII text. -/
def LowerAscii (t : Text) : Prop := ∀ c∈t, c.toNat<128 ∧ c.toLower=c

def asByte (c : Char) : UInt8 := UInt8.ofNat c.toNat

theorem LowerAscii.bytes (h : LowerAscii t) : t.bytes=t.map asByte := by
  induction t with
  | nil => rfl
  | cons c t ih =>
    have hc : c.val.toNat≤127 := Nat.le_of_lt_succ (h c mem_cons_self).1
    have henc : String.utf8EncodeChar c=[asByte c] := by
      rw [String.utf8EncodeChar]
      simp only [if_pos hc]
      rfl
    rw [Text.bytes,flatMap_cons,henc,map_cons,← ih fun d hd => h d (mem_cons_of_mem c hd)]
    rfl

theorem asByte_inj {c d : Char} (hc : c.toNat<128) (hd : d.toNat<128) :
    asByte c=asByte d ↔ c=d := by
  refine ⟨fun h => Char.toNat_inj.1 ?_,congrArg asByte⟩
  have hnat := congrArg UInt8.toNat h
  simp only [asByte,UInt8.toNat_ofNat'] at hnat
  omega

theorem means_bytes {p : Text} (hp : LowerAscii p) (ht : LowerAscii t) :
    Means wildBytes p.bytes t.bytes ↔ Means wildChars p t := by
  rw [hp.bytes,ht.bytes]
  exact means_map (fun c hc => asByte_inj (d := '*') (hp c hc).1 (by decide))
    (fun c hc => asByte_inj (d := '?') (hp c hc).1 (by decide))
    fun a ha b hb => (asByte_inj (hp a ha).1 (ht b hb).1).1

/-- On lower-cased text the matcher of known_hosts gives the same meaning. -/
theorem globInner_iff {p : Text} (hp : LowerAscii p) (ht : LowerAscii t) :
    globInner p t=true ↔ Means wildChars p t := by
  induction p generalizing t with
  | nil => simp [globInner]
  | cons c p ih =>
    have hp' : LowerAscii p := fun d hd => hp d (mem_cons_of_mem c hd)
    by_cases hc : c = '*'
    · subst hc
      rw [globInner_star,any_eq_true]
      refine Iff.trans ?_ (means_run_tails (W := wildChars)).symm
      refine exists_congr fun rest => and_congr_right fun hrest => ih hp' fun d hd => ?_
      exact ht d (((mem_tails _ _).1 hrest).subset hd)
    · cases t with
      | nil => simpa [globInner_cons_nil hc] using not_means_cons_nil (W := wildChars) hc
      | cons x t =>
        have hmeans := means_cons_cons (W := wildChars) (p := p) (n := t) (x := x) hc
        rw [globInner_cons hc,(hp c mem_cons_self).2,(ht x mem_cons_self).2,
          Bool.and_eq_true,Bool.or_eq_true,beq_iff_eq,beq_iff_eq,hmeans,
          ih hp' fun d hd => ht d (mem_cons_of_mem x hd)]
        rfl

/- What the matcher of known_hosts accepts as a pattern. -/
def WithinCaps (p : Text) : Prop := p.byteLen≤ maxGlobPatternLen ∧ p.count '*' ≤ maxGlobStars

theorem globMatchAsciiCi_iff {p : Text} (hp : LowerAscii p) (ht : LowerAscii t)
    (hcap : WithinCaps p) : globMatchAsciiCi p t=true ↔ Means wildBytes p.bytes t.bytes := by
  rw [globMatchAsciiCi,if_neg (Nat.not_lt.2 hcap.1),if_neg (Nat.not_lt.2 hcap.2),
    globInner_iff hp ht,means_bytes hp ht]

/-- The matchers mean what the manual says, and the same, exactly for the names without `*`. -/
theorem globs_agree_iff (n : Bytes) : ((∀ p, globMatch p n=true ↔ Means wildBytes p n) ∧
      (∀ p, envGlobMatch p n=globMatch p n) ∧
      ∀ pt nt : Text, LowerAscii pt → LowerAscii nt → WithinCaps pt → nt.bytes=n →
        globMatchAsciiCi pt nt=globMatch pt.bytes n) ↔ star∉n := by
  constructor
  · rintro ⟨hall,-⟩ hstar
    obtain ⟨p,hmeans,hmiss⟩ := globMatch_of_mem hstar
    rw [(hall p).2 hmeans] at hmiss
    cases hmiss
  · intro hn
    refine ⟨globMatch_iff hn,fun p => ?_,fun pt nt hp ht hcap hbytes => ?_⟩
    · rw [Bool.eq_iff_iff,envGlobMatch_iff,globMatch_iff hn]
    · subst hbytes
      rw [Bool.eq_iff_iff,globMatchAsciiCi_iff hp ht hcap,globMatch_iff hn]

/-- A lone `*` does not match the name `*a`; the other two matchers take it. -/
theorem globMatch_misses_star :
    globMatch [star] [star,97]=false ∧ Means wildBytes [star] [star,97] ∧
      envGlobMatch [star] [star,97]=true ∧ globMatchAsciiCi ['*'] ['*','a']=true := by
  have hmeans : Means wildBytes [star] [star,97] := means_run.2 ⟨2,means_nil.2 rfl⟩
  refine ⟨?_,hmeans,(envGlobMatch_iff _ _).2 hmeans,by decide⟩
  rw [globMatch,globLoop_literal (.inr rfl),globLoop]
  decide

end PureSsh.Config
