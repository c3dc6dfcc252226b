import Mathlib.Logic.Function.Basic
import PureSsh.Key.OptionScan

/-! A whole `authorized_keys` line: that it is read as written, that its permissions are those of the
options taken in order, and what a list of principals lets in. -/

namespace PureSsh.AuthorizedKeys
open Lib List Text

section Effects

/- The permission that an option switches. -/
def setter (name : Text) : Option (Permission × Bool) :=
  let on := !("no-".toList.isPrefixOf name)
  (Permission.ofName (if on then name else name.drop 3)).map (·,on)

def lastSet (p : Permission) (names : List Text) : Option Bool :=
  names.foldl (fun last n =>
    match setter n with
    | some (q,on) => if p=q then some on else last
    | none => last) none

/- The list of the last `principals` option. -/
def listed (os : List (Text × Option Text)) : List Text :=
  os.foldl (fun list o =>
    if o.1=principalsName then splitPrincipals (o.2.getD []) else list) []

/- What one option does to the fields that permissions and principals are read from. -/
structure Effect (out : AuthorizedKeyOptions) (name : Text) (value : Option Text)
    (out' : AuthorizedKeyOptions) : Prop where
  restrict : out'.restrict=(out.restrict || decide (name=restrictName))
  setting : ∀ p, out'.setting p=match setter name with
    | some (q,on) => if p=q then some on else out.setting p
    | none => out.setting p
  principals : out'.principals =
    if name=principalsName then splitPrincipals (value.getD []) else out.principals

variable {out out' : AuthorizedKeyOptions} {name : Text} {value : Option Text}

theorem setting_set (on : Bool) (p q : Permission) :
    (out.set on q).setting p=if p=q then some on else out.setting p := by
  cases p <;> cases q <;> rfl

theorem restrict_set (on : Bool) (q : Permission) : (out.set on q).restrict=out.restrict := by
  cases q <;> rfl

theorem principals_set (on : Bool) (q : Permission) : (out.set on q).principals=out.principals := by
  cases q <;> rfl

theorem Effect.of_same (hset : setter name=none) (hrestrict : name≠restrictName)
    (hprincipals : name≠principalsName) (hr : out'.restrict=out.restrict)
    (hs : out'.setting=out.setting) (hp : out'.principals=out.principals) :
    Effect out name value out' where
  restrict := by simp [hr,hrestrict]
  setting := by simp [hset,hs]
  principals := by simp [hprincipals,hp]

/- An option by a fixed name that leaves these fields alone. -/
theorem Effect.other {known : Text} (hn : name=known)
    (hknown : setter known=none ∧ known≠restrictName ∧ known≠principalsName)
    (hr : out'.restrict=out.restrict) (hs : out'.setting=out.setting)
    (hp : out'.principals=out.principals) : Effect out name value out' := by
  subst hn
  exact .of_same hknown.1 hknown.2.1 hknown.2.2 hr hs hp

theorem applySwitch_effect (hrestrict : name≠restrictName) (hprincipals : name≠principalsName)
    (h : applySwitch out name = .ok out') : Effect out name value out' := by
  have hsetter : setter name=(Permission.ofName (if !("no-".toList.isPrefixOf name) then name
      else name.drop 3)).map (·,!("no-".toList.isPrefixOf name)) := rfl
  rw [applySwitch] at h
  generalize (!("no-".toList.isPrefixOf name))=on at h hsetter
  generalize (if on=true then name else name.drop 3)=what at h hsetter
  cases hp : Permission.ofName what with
  | some p =>
    simp only [hp,Except.ok.injEq] at h
    rw [hp,Option.map_some] at hsetter
    subst h
    exact ⟨by simp [restrict_set,hrestrict],fun q => by rw [setting_set,hsetter],
      by simp [principals_set,hprincipals]⟩
  | none =>
    simp only [hp] at h
    rw [hp] at hsetter
    split at h
    · cases h
      exact .of_same hsetter hrestrict hprincipals rfl rfl rfl
    · split at h
      · cases h
        exact .of_same hsetter hrestrict hprincipals rfl rfl rfl
      · cases h

theorem applyOption_effect : Yields (applyOption out name value) (Effect out name value) := by
  refine .ite_of (fun hn => .bind_any fun _ => .ok (.other hn (by decide) rfl rfl rfl))
    fun _ => .ite_of (fun hn => .bind_eq fun v hv => .ok ?_) fun hprincipals => ?_
  · cases value with
    | none => cases hv
    | some _ =>
      cases hv
      subst hn
      exact ⟨by simp [show principalsName≠restrictName by decide],fun p => rfl,rfl⟩
  refine .ite_of (fun hn => .bind_any fun _ => .ok (.other hn (by decide) rfl rfl rfl))
    fun _ => .ite_of (fun hn => .bind_any fun _ => .ok (.other hn (by decide) rfl rfl rfl))
    fun _ => .ite_of (fun hn => .bind_any fun _ => .ite (.error _)
      (.ok (.other hn (by decide) rfl rfl rfl)))
    fun _ => .ite_of (fun hn => .bind_any fun _ => .ok (.other hn (by decide) rfl rfl rfl))
    fun _ => .ite_of (fun hn => .bind_any fun _ => .ok (.other hn (by decide) rfl rfl rfl))
    fun _ => .ite_of (fun hn => .bind_any fun _ => .ok (.other hn (by decide) rfl rfl rfl))
    fun _ => .ite_of (fun hn => .bind_any fun _ => .ite (.error _)
      (.ok (.other hn (by decide) rfl rfl rfl)))
    fun _ => .ite_of (fun hn => .bind_any fun _ => .ok ?_)
    fun hrestrict => .bind_any fun _ _ => applySwitch_effect hrestrict hprincipals
  subst hn
  exact ⟨by simp,fun p => rfl,rfl⟩

end Effects

section Permissions
variable {p : Permission} {names : List Text}

/- The options in order: `restrict` clears all permissions, the others set one. -/
def permStep (allowed : Permission → Bool) (name : Text) : Permission → Bool :=
  if name=restrictName then fun _ => false
  else match setter name with
    | some (q,on) => Function.update allowed q on
    | none => allowed

def permitted (names : List Text) : Permission → Bool := names.foldl permStep fun _ => true

/-- `restrict` came while the permission was switched on, and no later option speaks of it. -/
def Reopened (p : Permission) (names : List Text) : Prop :=
  ∃ before after, names=before++restrictName::after ∧ lastSet p before=some true ∧
    ∀ n∈after, ∀ on, setter n≠some (p,on)

theorem lastSet_snoc (n : Text) : lastSet p (names++[n])=match setter n with
    | some (q,on) => if p=q then some on else lastSet p names
    | none => lastSet p names := by
  simp [lastSet]

theorem permitted_snoc (n : Text) : permitted (names++[n])=permStep (permitted names) n := by
  simp [permitted]

theorem setter_restrict : setter restrictName=none := by decide

theorem reopened_snoc (n : Text) : Reopened p (names++[n]) ↔
    n=restrictName ∧ lastSet p names=some true ∨ Reopened p names ∧ ∀ on, setter n≠some (p,on) := by
  constructor
  · rintro ⟨before,after,heq,hlast,hafter⟩
    cases after using reverseRecOn with
    | nil =>
      obtain ⟨rfl,hn⟩ := append_inj' heq rfl
      exact .inl ⟨by simpa using hn,hlast⟩
    | append_singleton after m _ =>
      rw [← cons_append,← append_assoc] at heq
      obtain ⟨rfl,hn⟩ := append_inj' heq rfl
      simp only [cons.injEq,and_true] at hn
      subst hn
      rw [forall_mem_append,forall_mem_singleton] at hafter
      exact .inr ⟨⟨before,after,rfl,hlast,hafter.1⟩,hafter.2⟩
  · rintro (⟨rfl,hlast⟩ | ⟨⟨before,after,rfl,hlast,hafter⟩,hn⟩)
    · exact ⟨names,[],rfl,hlast,by simp⟩
    · refine ⟨before,after++[n],by simp,hlast,?_⟩
      rw [forall_mem_append,forall_mem_singleton]
      exact ⟨hafter,hn⟩

theorem lastSet_of_reopened (h : Reopened p names) : lastSet p names=some true := by
  induction names using reverseRecOn with
  | nil =>
    obtain ⟨before,after,heq,-⟩ := h
    simp at heq
  | append_singleton names n ih =>
    rw [lastSet_snoc]
    obtain ⟨rfl,hlast⟩ | ⟨hre,hn⟩ := (reopened_snoc n).1 h
    · rw [setter_restrict]
      exact hlast
    · cases hs : setter n with
      | none => exact ih hre
      | some s =>
        obtain ⟨q,on⟩ := s
        have hq : p≠q := by
          rintro rfl
          exact hn on hs
        simp only [if_neg hq]
        exact ih hre

/-- What a last setting and the mere presence of `restrict` say, against the options in order. -/
theorem permitted_iff (p : Permission) (names : List Text) : permitted names p=true ↔
    (lastSet p names).getD (!decide (restrictName∈names))=true ∧ ¬Reopened p names := by
  induction names using reverseRecOn with
  | nil =>
    refine iff_of_true rfl ⟨rfl,?_⟩
    rintro ⟨before,after,heq,-⟩
    simp at heq
  | append_singleton names n ih =>
    rw [permitted_snoc,permStep,lastSet_snoc,reopened_snoc]
    by_cases hn : n=restrictName
    · -- nothing is allowed now; the setting survives if it was there, and is then reopened
      subst hn
      cases hlast : lastSet p names with
      | none => simp [setter_restrict]
      | some on => cases on <;> simp [setter_restrict]
    · rw [if_neg hn]
      have hmem : restrictName∈names++[n] ↔ restrictName∈names := by
        simp [Ne.symm hn]
      cases hs : setter n with
      | none => simp [hmem,hn,ih]
      | some s =>
        obtain ⟨q,on⟩ := s
        by_cases hq : p=q
        · subst hq
          cases on <;> simp [hn]
        · simp only [Function.update_of_ne hq,if_neg hq,hmem,hn,ih]
          simp [Ne.symm hq]

variable {os : List (Text × Option Text)} {out : AuthorizedKeyOptions}

theorem applyAll_fields (h : applyAll os = .ok out) :
    out.restrict=decide (restrictName∈os.map Prod.fst) ∧
      (∀ p, out.setting p=lastSet p (os.map Prod.fst)) ∧ out.principals=listed os := by
  induction os using reverseRecOn generalizing out with
  | nil =>
    cases h
    refine ⟨rfl,fun p => ?_,rfl⟩
    cases p <;> rfl
  | append_singleton os o ih =>
    rw [applyAll,List.foldlM_append] at h
    obtain ⟨mid,hos,hstep⟩ := except_bind_eq_ok.1 h
    obtain ⟨hrestrict,hset,hlist⟩ := ih hos
    simp only [foldlM_cons,foldlM_nil,bind_pure] at hstep
    have heffect : Effect mid o.1 o.2 out := applyOption_effect out hstep
    refine ⟨?_,fun q => ?_,?_⟩
    · have hmem : restrictName∈(os++[o]).map Prod.fst ↔
          restrictName∈os.map Prod.fst ∨ o.1=restrictName := by
        rw [map_append,mem_append,map_singleton,mem_singleton,eq_comm (a := restrictName)]
      rw [heffect.restrict,hrestrict,← Bool.decide_or,decide_eq_decide,hmem]
    · rw [heffect.setting,map_append,map_singleton,lastSet_snoc,hset]
    · rw [heffect.principals,hlist]
      simp [listed]

/-- The permissions are those of the options in order iff none was switched on before a `restrict`
that should have the last word. -/
theorem allows_iff (h : applyAll os = .ok out) (p : Permission) :
    out.allows p=permitted (os.map Prod.fst) p ↔ ¬Reopened p (os.map Prod.fst) := by
  obtain ⟨hrestrict,hset,-⟩ := applyAll_fields h
  have hiff := permitted_iff p (os.map Prod.fst)
  rw [AuthorizedKeyOptions.allows,hset,hrestrict]
  by_cases hre : Reopened p (os.map Prod.fst)
  · have hlast := lastSet_of_reopened hre
    have hnot : permitted (os.map Prod.fst) p=false := by
      simpa [hre] using hiff
    simp [hlast,hnot,hre]
  · simp only [hre,not_false_eq_true,and_true,iff_true] at hiff ⊢
    exact Bool.eq_iff_iff.2 hiff.symm

end Permissions

section Reading

/- The line with its options in order, before any is applied. -/
def readLine : Text → Result (Bytes × List (Text × Option Text)) := parseLineWith readOptions []

/-- Options are read and applied in turn; where all of it succeeds, the turns do not matter. -/
theorem foldlM_parseOption (pieces : List Text) (out out' : AuthorizedKeyOptions) :
    pieces.foldlM parseOption out = .ok out' ↔ ∃ xs, pieces.mapM readPiece = .ok xs ∧
      (xs.filterMap id).foldlM (fun out o => applyOption out o.1 o.2) out = .ok out' := by
  induction pieces generalizing out with
  | nil => simp [pure,Except.pure]
  | cons piece pieces ih =>
    simp only [foldlM_cons,mapM_cons,parseOption,except_bind_eq_ok]
    constructor
    · rintro ⟨mid,⟨x,hx,hmid⟩,hrest⟩
      obtain ⟨xs,hxs,hfold⟩ := (ih mid).1 hrest
      refine ⟨x::xs,⟨x,hx,xs,hxs,rfl⟩,?_⟩
      cases x with
      | none =>
        cases hmid
        exact hfold
      | some o => simpa [except_bind_eq_ok] using ⟨mid,hmid,hfold⟩
    · rintro ⟨_,⟨x,hx,xs,hxs,⟨⟩⟩,hfold⟩
      cases x with
      | none => exact ⟨out,⟨none,hx,rfl⟩,(ih out).2 ⟨xs,hxs,hfold⟩⟩
      | some o =>
        obtain ⟨mid,hmid,hrest⟩ := except_bind_eq_ok.1 hfold
        exact ⟨mid,⟨some o,hx,hmid⟩,(ih mid).2 ⟨xs,hxs,hrest⟩⟩

theorem parseOptions_ok (list : Text) (out : AuthorizedKeyOptions) :
    parseOptions list = .ok out ↔ ∃ os, readOptions list = .ok os ∧ applyAll os = .ok out := by
  simp only [parseOptions,readOptions,except_bind_eq_ok,foldlM_parseOption]
  constructor
  · rintro ⟨pieces,hp,xs,hxs,hout⟩
    exact ⟨_,⟨pieces,hp,xs,hxs,rfl⟩,hout⟩
  · rintro ⟨_,⟨pieces,hp,xs,hxs,⟨⟩⟩,hout⟩
    exact ⟨pieces,hp,xs,hxs,hout⟩

end Reading

section Line

/- A line to be written. -/
structure Line where
  opts : List Written
  nonempty : opts≠[]
  keytype : Text
  isType : isKeyType keytype=true
  solid : ∀ c∈keytype, isWhitespace c=false
  blob : Bytes
  filled : blob≠[]
  comment : Text

namespace Line
variable (l : Line)

def tail : Text := if l.comment=[] then [] else ' ' :: l.comment

def text : Text :=
  fieldText l.opts ++ ' ' :: (l.keytype ++ ' ' :: (Base64.encode l.blob++l.tail))

def pairs : List (Text × Option Text) := l.opts.map Written.pair

def names : List Text := l.pairs.map Prod.fst

/-- No value misleads the scanners, and the text up to the first blank is no key type. -/
def Clear : Prop :=
  isKeyType (token (fieldText l.opts))=false ∧ ∀ o∈l.opts, o.Steady

instance : Decidable l.Clear := inferInstanceAs (Decidable (_ ∧ _))

/- The line as the parser sees it. -/
def trimmed (rest : Text) : Text :=
  fieldText l.opts ++ ' ' :: (l.keytype ++ ' ' :: (Base64.encode l.blob++rest))

end Line

variable {c : Char} {t : Text}

theorem dropWhile_lineEnd (t : Text) :
    (t.dropWhile isLineEnd).dropWhile isWhitespace=t.dropWhile isWhitespace := by
  induction t with
  | nil => rfl
  | cons c t ih =>
    by_cases hc : isLineEnd c=true
    · have hblank : isWhitespace c=true := by
        simp only [isLineEnd,Bool.or_eq_true,beq_iff_eq] at hc
        obtain rfl | rfl := hc <;> decide
      rw [dropWhile_cons_of_pos hc,dropWhile_cons_of_pos hblank,ih]
    · rw [dropWhile_cons_of_neg hc]

/-- On a line that does not start with a blank, only the end is trimmed. -/
theorem trimLine_eq (hc : isWhitespace c=false) (t : Text) : trimLine (c::t)=trimEnd (c::t) := by
  have hend : isLineEnd c=false := by
    cases h : isLineEnd c with
    | false => rfl
    | true =>
      simp only [isLineEnd,Bool.or_eq_true,beq_iff_eq] at h
      obtain rfl | rfl := h <;> exact absurd hc (by decide)
  have hcut : ∃ t', ((c::t).reverse.dropWhile isLineEnd).reverse=c::t' := by
    rw [reverse_cons,dropWhile_append]
    split
    · exact ⟨[],by simp [hend]⟩
    · exact ⟨_,reverse_concat⟩
  obtain ⟨t',ht'⟩ := hcut
  rw [trimLine,ht',trim_eq_trimEnd hc,← ht',trimEnd,rdropWhile,reverse_reverse,
    dropWhile_lineEnd,trimEnd,rdropWhile]

theorem token_append (a : Text) {b : Text} (hc : isWhitespace c=true) :
    token (a++c::b)=token a := by
  rw [token,takeWhile_append,token]
  split
  · next h =>
    have hall := takeWhile_prefix (p := (!isWhitespace ·)) (l := a) |>.eq_of_length h
    simp [hc,hall]
  · rfl

theorem token_solid {a : Text} (h : ∀ c∈a, isWhitespace c=false) : token a=a := by
  rw [token,takeWhile_eq_self_iff]
  intro c hc
  simp [h c hc]

theorem trimStart_blank {a b : Text} (ha : ∀ c∈a, isWhitespace c=false) (hne : a≠[]) :
    trimStart (' ' :: (a++b))=a++b := by
  cases a with
  | nil => exact absurd rfl hne
  | cons c a =>
    rw [trimStart,dropWhile_cons_of_pos (by decide),cons_append,
      dropWhile_cons_of_neg (by simp [ha c mem_cons_self])]

theorem words_append {a rest : Text} (ha : ∀ c∈a, isWhitespace c=false) (hne : a≠[])
    (hrest : ∀ c∈rest.head?, isWhitespace c=true) : ∃ ws, words (a++rest)=a::ws := by
  rw [words]
  cases rest with
  | nil =>
    rw [append_nil,splitOnP_eq_singleton ha]
    exact ⟨[],by simp [hne]⟩
  | cons c rest =>
    rw [splitOnP_append_cons_of_forall_mem ha c (hrest c rfl)]
    exact ⟨_,filter_cons_of_pos (by simpa using hne)⟩

namespace Line
variable (l : Line)

theorem exists_cons_fieldText : ∃ c t, fieldText l.opts=c::t ∧ isWhitespace c=false ∧ c ≠ '#' := by
  cases hopts : l.opts with
  | nil => exact absurd hopts l.nonempty
  | cons o os =>
    obtain ⟨c,t,hname,hc,hhash⟩ := o.exists_cons
    obtain ⟨s,hs⟩ := o.text_eq_append
    cases os with
    | nil => exact ⟨c,t++s,by simp [fieldText,join,hs,hname],hc,hhash⟩
    | cons o' os => exact ⟨c,_,by rw [fieldText_cons,hs,hname]; rfl,hc,hhash⟩

theorem exists_trimmed : ∃ rest, (∀ c∈rest.head?, isWhitespace c=true) ∧
    trimLine l.text=l.trimmed rest ∧ l.text.trim=l.trimmed rest ∧
      trimLine (l.trimmed rest)=l.trimmed rest := by
  obtain ⟨b,x,hb⟩ := eq_nil_or_concat (Base64.encode l.blob) |>.resolve_left
    (Base64.encode_ne_nil l.filled)
  have hmem : x∈Base64.encode l.blob := by simp [hb]
  have hx : isWhitespace x=false := Base64.solid_encode hmem
  obtain ⟨c,t,hfield,hc,-⟩ := l.exists_cons_fieldText
  have hend : trimEnd l.text=l.trimmed (trimEnd l.tail) := by
    have hsplit := trimEnd_append hx (fieldText l.opts ++ ' ' :: (l.keytype ++ ' ' :: b)) l.tail
    simpa [text,trimmed,hb] using hsplit
  have htext : ∃ t', l.text=c::t' := ⟨_,by rw [text,hfield]; rfl⟩
  obtain ⟨t',ht'⟩ := htext
  refine ⟨trimEnd l.tail,?_,?_,?_,?_⟩
  · obtain ⟨y,hy,-⟩ := exists_trimEnd l.tail
    intro d hd
    have hmem : d∈l.tail.head? := by
      rw [hy]
      simp [Option.mem_def.1 hd]
    rw [tail] at hmem
    split at hmem
    · cases hmem
    · simp only [head?_cons,Option.mem_def,Option.some.injEq] at hmem
      subst hmem
      decide
  · rw [ht',trimLine_eq hc,← ht',hend]
  · rw [ht',trim_eq_trimEnd hc,← ht',hend]
  · have hcons : l.trimmed (trimEnd l.tail)=c::(l.trimmed (trimEnd l.tail)).tail := by
      rw [trimmed,hfield]
      rfl
    rw [hcons,trimLine_eq hc,← hcons,← hend,trimEnd_trimEnd]

section Parse
variable {α : Type} {parse : Text → Result α} {default : α}

theorem token_trimmed (rest : Text) : token (l.trimmed rest)=token (fieldText l.opts) :=
  token_append _ (by decide)

theorem parseLineWith_eq {s rest : Text} (hs : trimLine s=l.trimmed rest) :
    parseLineWith parse default s=(do
      let (algo,afterAlgo,options) ← parseHead parse default (l.trimmed rest)
      if !isKeyType algo then .error (.format "authorized_keys: unknown key/cert algorithm tag")
      else match afterAlgo.words with
        | [] => .error (.format "authorized_keys: missing key blob")
        | b64::_ => do
          let blob ← Base64.decode b64.bytes
          return (blob,options)) := by
  obtain ⟨c,t,hfield,-,hhash⟩ := l.exists_cons_fieldText
  have hline : ¬(l.trimmed rest=[] ∨ (l.trimmed rest).head?=some '#') := by
    simp [trimmed,hfield,hhash]
  have hblank : hasWhitespace (l.trimmed rest)=true := by
    rw [hasWhitespace,any_eq_true]
    exact ⟨' ',by simp [trimmed],by decide⟩
  rw [parseLineWith,hs,if_neg hline,hblank]
  rfl

theorem exists_parseHead {s rest : Text} (hs : trimLine s=l.trimmed rest) {blob : Bytes} {a : α}
    (h : AuthorizedKeys.parseLineWith parse default s = .ok (blob,a)) :
    ∃ algo afterAlgo, AuthorizedKeys.parseHead parse default (l.trimmed rest) =
      .ok (algo,afterAlgo,a) := by
  rw [l.parseLineWith_eq hs] at h
  obtain ⟨⟨algo,afterAlgo,options⟩,hhead,hrest⟩ := except_bind_eq_ok.1 h
  dsimp only at hrest
  split at hrest
  · cases hrest
  split at hrest
  · cases hrest
  · obtain ⟨b,-,hb⟩ := except_bind_eq_ok.1 hrest
    cases hb
    exact ⟨algo,afterAlgo,hhead⟩

theorem parseHead_field {line algo afterAlgo : Text} {a : α} (htype : isKeyType (token line)=false)
    (h : AuthorizedKeys.parseHead parse default line = .ok (algo,afterAlgo,a)) :
    parse (optionsField .start line).1 = .ok a := by
  rw [AuthorizedKeys.parseHead,htype] at h
  obtain ⟨b,hparse,hb⟩ := except_bind_eq_ok.1 h
  dsimp only at hb
  split at hb
  · cases hb
  · cases hb
    exact hparse

variable {l}

theorem Clear.parseHead (h : l.Clear) (rest : Text) :
    AuthorizedKeys.parseHead parse default (l.trimmed rest)=(parse (fieldText l.opts)).map
      fun a => (l.keytype,Base64.encode l.blob++rest,a) := by
  have hfield := optionsField_fieldText l.nonempty h.2 (c := ' ') (by decide)
    (l.keytype ++ ' ' :: (Base64.encode l.blob++rest))
  have hkey : l.keytype≠[] := by
    intro hnil
    have htype := l.isType
    rw [hnil] at htype
    exact absurd htype (by decide +kernel)
  have hblank : hasWhitespace (l.keytype ++ ' ' :: (Base64.encode l.blob++rest))=true := by
    rw [hasWhitespace,any_eq_true]
    exact ⟨' ',by simp,by decide⟩
  have hencode : ∀ c∈Base64.encode l.blob, isWhitespace c=false :=
    fun c hc => Base64.solid_encode hc
  have htoken : token (l.keytype ++ ' ' :: (Base64.encode l.blob++rest))=l.keytype :=
    (token_append _ (by decide)).trans (token_solid l.solid)
  rw [AuthorizedKeys.parseHead,token_trimmed,h.1,trimmed,hfield]
  simp only [Bool.false_eq_true,trimStart_blank l.solid hkey,hblank,Bool.not_true,
    htoken,drop_left,trimStart_blank hencode (Base64.encode_ne_nil l.filled)]
  cases parse (fieldText l.opts) <;> rfl

theorem Clear.parseLineWith (h : l.Clear) {s rest : Text} (hs : trimLine s=l.trimmed rest)
    (hrest : ∀ c∈rest.head?, isWhitespace c=true) : AuthorizedKeys.parseLineWith parse default s =
      (parse (fieldText l.opts)).map fun a => (l.blob,a) := by
  obtain ⟨ws,hws⟩ := words_append (a := Base64.encode l.blob)
    (fun c hc => Base64.solid_encode hc) (Base64.encode_ne_nil l.filled) hrest
  rw [l.parseLineWith_eq hs,h.parseHead]
  cases parse (fieldText l.opts) with
  | error e => rfl
  | ok a => simp [Except.map,l.isType,hws,Base64.decode_encode,pure,Except.pure]

end Parse

variable {l}

theorem Clear.readOptions (h : l.Clear) : AuthorizedKeys.readOptions (fieldText l.opts) = .ok l.pairs := by
  have hread := (readFound_iff l.nonempty (c := ' ') (by decide) []).2 h.2
  rwa [readFound,optionsField_fieldText l.nonempty h.2 (by decide)] at hread

theorem readLine_iff (l : Line) : readLine l.text = .ok (l.blob,l.pairs) ↔ l.Clear := by
  obtain ⟨rest,hrest,htext,-⟩ := l.exists_trimmed
  constructor
  · intro h
    obtain ⟨algo,afterAlgo,hhead⟩ := l.exists_parseHead htext h
    cases htype : isKeyType (token (fieldText l.opts)) with
    | true =>
      -- the field was passed over, so no option is left
      rw [AuthorizedKeys.parseHead,token_trimmed,if_pos htype] at hhead
      simp only [Except.ok.injEq,Prod.mk.injEq] at hhead
      have hnil : l.pairs=[] := hhead.2.2.symm
      exact absurd (map_eq_nil_iff.1 hnil) l.nonempty
    | false =>
      rw [← l.token_trimmed rest] at htype
      have hread := parseHead_field htype hhead
      rw [token_trimmed] at htype
      exact ⟨htype,(readFound_iff l.nonempty (by decide) _).1 hread⟩
  · intro h
    rw [readLine,h.parseLineWith htext hrest,h.readOptions]
    rfl

theorem Clear.parsed (h : l.Clear) (out : AuthorizedKeyOptions) {s rest : Text}
    (hs : trimLine s=l.trimmed rest) (hrest : ∀ c∈rest.head?, isWhitespace c=true) :
    parseAuthorizedKeysLineWithOptions s = .ok (l.blob,out) ↔ applyAll l.pairs = .ok out := by
  have hoptions := parseOptions_ok (fieldText l.opts) out
  simp only [h.readOptions,Except.ok.injEq,exists_eq_left'] at hoptions
  rw [parseAuthorizedKeysLineWithOptions,h.parseLineWith hs hrest,← hoptions]
  cases parseOptions (fieldText l.opts) <;> simp [Except.map]

end Line

/-- The line means what it says: its options are read one for one with the key, its permissions are
those of the options in order, and a list of principals lets in no one else. -/
structure Applied (l : Line) (out : AuthorizedKeyOptions) : Prop where
  read : readLine l.text = .ok (l.blob,l.pairs)
  parsed : parseAuthorizedKeysLineWithOptions l.text = .ok (l.blob,out)
  permissions : ∀ p, out.allows p=permitted l.names p
  principals : out.certAuthority=true → principalsName∈l.names → ∀ keys : KeySet,
    ∃ ps, (keys.addLine l.text).cas=keys.cas++[(l.blob,ps)] ∧ ∀ certPrincipals user,
        lineAdmits ps certPrincipals user=principalsMatchOption (listed l.pairs) certPrincipals

theorem caPrincipals_eq (trimmed : Text) (out : AuthorizedKeyOptions) : caPrincipals trimmed out =
      if out.principals≠[] ∨ "principals=".toList <:+: trimmed then some out.principals
      else none := by
  simp only [caPrincipals,Bool.or_eq_true,Bool.not_eq_true',isEmpty_eq_false_iff,decide_eq_true_eq]

/-- The line lets in the listed principals only iff the list is not empty or the option is spelt in
lower case. -/
theorem lineAdmits_iff (trimmed : Text) (out : AuthorizedKeyOptions) :
    (∀ certPrincipals user, lineAdmits (caPrincipals trimmed out) certPrincipals user =
        principalsMatchOption out.principals certPrincipals) ↔
      out.principals≠[] ∨ "principals=".toList <:+: trimmed := by
  rw [caPrincipals_eq]
  by_cases h : out.principals≠[] ∨ "principals=".toList <:+: trimmed
  · exact iff_of_true (fun _ _ => by rw [if_pos h,lineAdmits]) h
  · refine iff_of_false (fun hall => ?_) h
    -- a certificate for the login name itself is let in
    have huser := hall [[]] []
    rw [if_neg h,not_ne_iff.1 (not_or.1 h).1] at huser
    exact absurd huser (by decide)

theorem Line.addLine_cas {l : Line} {out : AuthorizedKeyOptions} (h : l.Clear)
    (hout : applyAll l.pairs = .ok out) (hca : out.certAuthority=true) (keys : KeySet) :
    (keys.addLine l.text).cas=keys.cas++[(l.blob,caPrincipals l.text.trim out)] := by
  obtain ⟨rest,hrest,-,htrim,hagain⟩ := l.exists_trimmed
  obtain ⟨c,t,hfield,-,hhash⟩ := l.exists_cons_fieldText
  have hline : ¬(l.trimmed rest=[] ∨ (l.trimmed rest).head?=some '#') := by
    simp [Line.trimmed,hfield,hhash]
  have hparsed := (h.parsed out hagain hrest).2 hout
  rw [KeySet.addLine]
  simp only [htrim,if_neg hline,hparsed,hca,if_true]

/-- A line is read as written iff it is clear. It means what it says iff moreover its options are
accepted, no permission survives a later `restrict`, and an empty list of principals is spelt in
lower case. -/
theorem line_applied_iff (l : Line) : (readLine l.text = .ok (l.blob,l.pairs) ↔ l.Clear) ∧
      ∀ out, Applied l out ↔ l.Clear ∧ applyAll l.pairs = .ok out ∧ (∀ p, ¬Reopened p l.names) ∧
          (out.certAuthority=true → principalsName∈l.names →
            listed l.pairs≠[] ∨ "principals=".toList <:+: l.text.trim) := by
  refine ⟨l.readLine_iff,fun out => ?_⟩
  obtain ⟨rest,hrest,htext,-⟩ := l.exists_trimmed
  constructor
  · intro h
    have hclear := l.readLine_iff.1 h.read
    have hout := (hclear.parsed out htext hrest).1 h.parsed
    have hlist := (applyAll_fields hout).2.2
    refine ⟨hclear,hout,fun p => (allows_iff hout p).1 (h.permissions p),fun hca hmem => ?_⟩
    obtain ⟨ps,hcas,hadmits⟩ := h.principals hca hmem {}
    rw [l.addLine_cas hclear hout hca,append_cancel_left_eq,singleton_inj,Prod.mk.injEq] at hcas
    rw [← hcas.2] at hadmits
    rw [← hlist] at hadmits ⊢
    exact (lineAdmits_iff _ _).1 hadmits
  · rintro ⟨hclear,hout,hre,hprincipals⟩
    have hlist := (applyAll_fields hout).2.2
    refine ⟨l.readLine_iff.2 hclear,(hclear.parsed out htext hrest).2 hout,
      fun p => (allows_iff hout p).2 (hre p),fun hca hmem keys => ?_⟩
    have hadmits := hprincipals hca hmem
    rw [← hlist] at hadmits ⊢
    exact ⟨_,l.addLine_cas hclear hout hca keys,(lineAdmits_iff _ _).2 hadmits⟩

section Samples

/- `command="\\\\" ssh-rsa AAAA x" ssh-ed25519 AQ==`, where the value has a backslash and a quote. -/
def escapedQuote : Written where
  name := "command".toList
  value := some "\\\" ssh-rsa AAAA x".toList
  named := ⟨by decide,by decide,forall_of_all (by decide)⟩
  closed := by decide

/- `command="-cert-v01@openssh.com AAAA x" ssh-ed25519 AQ==` -/
def certWord : Written where
  name := "command".toList
  value := some "-cert-v01@openssh.com AAAA x".toList
  named := ⟨by decide,by decide,forall_of_all (by decide)⟩
  closed := by decide

def ptyFlag : Written := ⟨"pty".toList,none,
  ⟨by decide,by decide,forall_of_all (by decide)⟩,by decide⟩
def restrictFlag : Written := ⟨"restrict".toList,none,
  ⟨by decide,by decide,forall_of_all (by decide)⟩,by decide⟩
def authorityFlag : Written := ⟨"cert-authority".toList,none,
  ⟨by decide,by decide,forall_of_all (by decide)⟩,by decide⟩
def noPrincipals : Written := ⟨"Principals".toList,some [],
  ⟨by decide,by decide,forall_of_all (by decide)⟩,by decide⟩

def sampleLine (o : Written) (os : List Written) : Line where
  opts := o::os
  nonempty := cons_ne_nil _ _
  keytype := "ssh-ed25519".toList
  isType := by decide
  solid := forall_of_all (by decide)
  blob := [1]
  filled := by decide
  comment := []

/-- Two lines give away another key, `pty,restrict` allows a pty, and `Principals=""` lets the login
name in. -/
theorem lines_not_as_written :
    parseAuthorizedKeysLineWithOptions (sampleLine escapedQuote []).text =
        .ok ([0,0,0],{ command := some "\\\\".toList }) ∧
      parseAuthorizedKeysLineWithOptions (sampleLine certWord []).text = .ok ([0,0,0],{}) ∧
      parseAuthorizedKeysLineWithOptions (sampleLine ptyFlag [restrictFlag]).text =
        .ok ([1],{ pty := some true, restrict := true }) ∧
      AuthorizedKeyOptions.allows { pty := some true, restrict := true } .pty=true ∧
      permitted (sampleLine ptyFlag [restrictFlag]).names .pty=false ∧
      (parseAuthorizedKeys [(sampleLine authorityFlag [noPrincipals]).text]).cas=[([1],none)] ∧
      lineAdmits none ["root".toList] "root".toList=true ∧
      principalsMatchOption (listed (sampleLine authorityFlag [noPrincipals]).pairs)
        ["root".toList]=false := by
  decide +kernel

end Samples

end Line

end PureSsh.AuthorizedKeys
