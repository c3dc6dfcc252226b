import Mathlib.Data.List.DropRight
import Mathlib.Data.List.TakeWhile
import PureSsh.Key.AuthorizedKeys

/-! The scanners of an option list, on options as they are written. Both keep the same account of
quotes and backslashes; the value is then freed of its backslashes by another rule. -/

namespace PureSsh.AuthorizedKeys
open Lib List Text

/- The options of a list in order, before any is applied. -/
def readOptions (list : Text) : Result (List (Text × Option Text)) := do
  let pieces ← (← splitOptions list).mapM readPiece
  return pieces.filterMap id

def applyAll (os : List (Text × Option Text)) : Result AuthorizedKeyOptions :=
  os.foldlM (fun out o => applyOption out o.1 o.2) {}

def isSeparator (c : Char) : Bool := c == ',' || isWhitespace c

/- Every inner quote as a backslash and a quote. -/
def escape (v : Text) : Text := v.flatMap fun c => if c = '"' then ['\\','"'] else [c]

/- An option to be written: the name cannot be taken for the marks around it, and the value does not
end in a backslash. -/
structure Written where
  name : Text
  value : Option Text
  named : name≠[] ∧ name.head?≠some '#' ∧
    ∀ c∈name, c ≠ '=' ∧ c ≠ '"' ∧ isSeparator c=false
  closed : ∀ v∈value, v.getLast?≠some '\\'

theorem forall_of_all {p : Char → Prop} [DecidablePred p] {t : Text}
    (h : t.all (fun c => decide (p c))=true) : ∀ c∈t, p c := by
  simpa using h

namespace Written

def text (o : Written) : Text :=
  match o.value with
  | none => o.name
  | some v => o.name ++ '=' :: '"' :: (escape v++['"'])

def pair (o : Written) : Text × Option Text := (lower o.name,o.value)

end Written

def Quoting.run (q : Quoting) (t : Text) : Quoting := t.foldl Quoting.step q

/- No separator of the text stands outside quotes. -/
def Shielded : Quoting → Text → Prop
  | _, [] => True
  | q, c::t => (isSeparator c=true → q.inQuotes=true) ∧ Shielded (q.step c) t

instance decidableShielded : (q : Quoting) → (t : Text) → Decidable (Shielded q t)
  | _, [] => isTrue trivial
  | q, c::t =>
    haveI := decidableShielded (q.step c) t
    inferInstanceAs (Decidable ((isSeparator c=true → q.inQuotes=true) ∧ _))

/-- The scanners stay inside the quotes at each separator of a written value, and are inside them
at its end. -/
def Steady (v : Text) : Prop :=
  Shielded ⟨true,false⟩ (escape v) ∧ Quoting.run ⟨true,false⟩ (escape v)=⟨true,false⟩

instance (v : Text) : Decidable (Steady v) := inferInstanceAs (Decidable (_ ∧ _))

section Quotes
variable {q : Quoting} {a b : Text}

theorem Quoting.run_append : q.run (a++b)=(q.run a).run b := foldl_append

theorem shielded_append : Shielded q (a++b) ↔ Shielded q a ∧ Shielded (q.run a) b := by
  induction a generalizing q with
  | nil => simp [Shielded,Quoting.run]
  | cons c a ih =>
    rw [cons_append,Shielded,Shielded,ih,and_assoc]
    rfl

/- A backslash only counts inside quotes. -/
def Quoting.Sane (q : Quoting) : Prop := q.escaped=true → q.inQuotes=true

theorem Quoting.sane_step (q : Quoting) (c : Char) : (q.step c).Sane := by
  unfold Sane Quoting.step
  split
  · next hc => exact fun _ => hc.2.1
  split <;> simp

theorem Quoting.Sane.run (h : q.Sane) (t : Text) : (q.run t).Sane := by
  induction t generalizing q with
  | nil => exact h
  | cons c t ih => exact ih (q.sane_step c)

variable {c : Char}

theorem separator_ne (h : isSeparator c=true) : c ≠ '"' ∧ c ≠ '\\' := by
  constructor <;> (rintro rfl; exact absurd h (by decide))

theorem Quoting.step_separator (h : isSeparator c=true) :
    q.step c = { q with escaped := false } := by
  obtain ⟨hquote,hslash⟩ := separator_ne h
  simp [Quoting.step,hquote,hslash]

theorem Quoting.step_start (h : c ≠ '"') : Quoting.start.step c = .start := by
  simp [Quoting.step,Quoting.start,h]

theorem run_plain (h : ∀ c∈a, c ≠ '"') : Quoting.start.run a = .start := by
  induction a with
  | nil => rfl
  | cons c a ih =>
    rw [forall_mem_cons] at h
    rw [Quoting.run,foldl_cons,Quoting.step_start h.1]
    exact ih h.2

theorem shielded_plain (h : ∀ c∈a, isSeparator c=false) : Shielded q a := by
  induction a generalizing q with
  | nil => trivial
  | cons c a ih =>
    rw [forall_mem_cons] at h
    exact ⟨fun hc => by simp [h.1] at hc,ih h.2⟩

theorem run_separators (h : ∀ c∈a, isSeparator c=true) : (q.run a).inQuotes=q.inQuotes := by
  induction a generalizing q with
  | nil => rfl
  | cons c a ih =>
    rw [forall_mem_cons] at h
    exact (ih h.2).trans (by rw [Quoting.step_separator h.1])

end Quotes

section Scan
variable {q : Quoting} {p : Text}

theorem splitLoop_shielded (h : Shielded q p) (out : List Text) (cur rest : Text) :
    splitLoop out cur q (p++rest)=splitLoop out (cur++p) (q.run p) rest := by
  induction p generalizing q cur with
  | nil => simp [Quoting.run]
  | cons c p ih =>
    have hcomma : ¬(c = ',' ∧ q.inQuotes=false) := by
      rintro ⟨rfl,hq⟩
      simp [h.1 (by decide)] at hq
    rw [cons_append,splitLoop,if_neg hcomma,ih h.2,append_assoc]
    rfl

theorem optionsField_shielded (h : Shielded q p) (rest : Text) : optionsField q (p++rest) =
      (p++(optionsField (q.run p) rest).1,(optionsField (q.run p) rest).2) := by
  induction p generalizing q with
  | nil => rfl
  | cons c p ih =>
    have hblank : ¬(isWhitespace c=true ∧ q.inQuotes=false) := by
      rintro ⟨hc,hq⟩
      simp [h.1 (by simp [isSeparator,hc])] at hq
    rw [cons_append,optionsField,if_neg hblank,ih h.2]
    rfl

theorem splitLoop_out (out : List Text) (cur : Text) (t : Text) :
    splitLoop out cur q t=(splitLoop [] cur q t).map (out ++ ·) := by
  induction t generalizing out cur q with
  | nil =>
    rw [splitLoop,splitLoop]
    split <;> simp [Except.map]
  | cons c t ih =>
    rw [splitLoop,splitLoop]
    split
    · rw [ih (out++[cur]),ih ([]++[cur])]
      cases splitLoop [] [] (q.step c) t <;> simp [Except.map]
    · exact ih _ _

/-- Any text is a shielded part and then a separator outside quotes, or nothing. -/
theorem exists_cut (q : Quoting) (t : Text) : ∃ p r, t=p++r ∧ Shielded q p ∧
    (r=[] ∨ ∃ c r', r=c::r' ∧ isSeparator c=true ∧ (q.run p).inQuotes=false) := by
  induction t generalizing q with
  | nil => exact ⟨[],[],rfl,trivial,.inl rfl⟩
  | cons c t ih =>
    by_cases hc : isSeparator c=true ∧ q.inQuotes=false
    · exact ⟨[],c::t,rfl,trivial,.inr ⟨c,t,rfl,hc.1,hc.2⟩⟩
    · obtain ⟨p,r,rfl,hp,hr⟩ := ih (q.step c)
      refine ⟨c::p,r,rfl,⟨fun hsep => ?_,hp⟩,hr⟩
      simpa using fun hq => hc ⟨hsep,hq⟩

end Scan

section Values

theorem escape_cons (c : Char) (v : Text) :
    escape (c::v)=(if c = '"' then ['\\','"'] else [c])++escape v := rfl

theorem head_escape (v : Text) : (escape v).head?≠some '"' := by
  cases v with
  | nil => simp [escape]
  | cons c v =>
    rw [escape_cons]
    split
    · simp
    · next h => simpa using h

theorem unescape_cons {c : Char} {t : Text} (h : ¬(c = '\\' ∧ t.head?=some '"')) :
    unescape (c::t)=c::unescape t := by
  rw [unescape.eq_def]
  split
  · next heq =>
    cases heq
    simp at h
  · next heq =>
    cases heq
    rfl
  · next heq => cases heq

variable {a v w : Text}

/-- A backslash at the seam is the only thing that joins two texts. -/
theorem unescape_append (b : Text) (h : a.getLast?≠some '\\' ∨ b.head?≠some '"') :
    unescape (a++b)=unescape a++unescape b := by
  fun_induction unescape a with
  | case1 rest ih =>
    rw [cons_append,cons_append,unescape,ih,cons_append]
    cases rest with
    | nil => exact .inl (by simp)
    | cons c rest => simpa using h
  | case2 c rest hne ih =>
    have hpair : ¬(c = '\\' ∧ (rest++b).head?=some '"') := by
      rintro ⟨rfl,hhead⟩
      cases rest with
      | nil =>
        rw [nil_append] at hhead
        simp [hhead] at h
      | cons d rest =>
        simp only [cons_append,head?_cons,Option.some.injEq] at hhead
        subst hhead
        exact hne rest rfl rfl
    rw [cons_append,unescape_cons hpair,cons_append,ih]
    cases rest with
    | nil => exact .inl (by simp)
    | cons d rest => simpa using h
  | case3 => rfl

theorem unescape_escape (v : Text) : unescape (escape v)=v := by
  induction v with
  | nil => rfl
  | cons c v ih =>
    rw [escape_cons,unescape_append _ (.inr (head_escape v)),ih]
    split
    · next h => simp [h,unescape]
    · rw [unescape_cons (by simp)]
      rfl

theorem getLast_escape (h : v.getLast?≠some '\\') : (escape v).getLast?≠some '\\' := by
  induction v using reverseRecOn with
  | nil => simp [escape]
  | append_singleton v c ih =>
    have hlast : escape (v++[c])=escape v++(if c = '"' then ['\\','"'] else [c]) := by
      simp [escape]
    rw [hlast]
    split
    · simp
    · simpa using h

/-- A quote inside a written value has a backslash before it. -/
theorem quote_in_escape {z : Text} (h : escape v=w ++ '"' :: z) : ∃ w', w=w'++['\\'] := by
  induction v generalizing w with
  | nil => simp [escape] at h
  | cons c v ih =>
    rw [escape_cons] at h
    split at h
    · cases w with
      | nil => simp at h
      | cons x w =>
        simp only [cons_append,cons.injEq] at h
        obtain ⟨rfl,h⟩ := h
        cases w with
        | nil => exact ⟨[],rfl⟩
        | cons y w =>
          simp only [cons_append,cons.injEq] at h
          obtain ⟨w',rfl⟩ := ih h.2
          exact ⟨'\\' :: y::w',rfl⟩
    · next hc =>
      cases w with
      | nil =>
        rw [singleton_append,nil_append,cons.injEq] at h
        exact absurd h.1 hc
      | cons x w =>
        simp only [cons_append,cons.injEq] at h
        obtain ⟨w',rfl⟩ := ih h.2
        exact ⟨x::w',rfl⟩

/-- Where a quote is taken for the closing one and the value comes out right, it is the closing
one. -/
theorem closing_quote {b : Text} (hv : v.getLast?≠some '\\')
    (heq : w ++ '"' :: a=escape v ++ '"' :: b) (hw : unescape w=v) : w=escape v := by
  rw [append_eq_append_iff] at heq
  obtain ⟨z,hz,ha⟩ | ⟨z,hz,hb⟩ := heq
  · cases z with
    | nil => simpa using hz.symm
    | cons x z =>
      obtain ⟨rfl,-⟩ := ha
      obtain ⟨w',rfl⟩ := quote_in_escape hz
      -- the text before the quote ends in a backslash, where the value has the quote
      have hsplit := unescape_append ('\\' :: '"' :: z) (a := w') (.inr (by simp))
      have hshort := unescape_append ['\\'] (a := w') (.inr (by simp))
      rw [hshort] at hw
      have hfull := unescape_escape v
      rw [hz,append_assoc,singleton_append,hsplit,← hw] at hfull
      simp [unescape] at hfull
  · cases z with
    | nil => simpa using hz
    | cons x z =>
      obtain ⟨rfl,-⟩ := hb
      rw [hz,unescape_append _ (.inl (getLast_escape hv)),unescape_escape,
        unescape_cons (by simp)] at hw
      simp at hw

end Values

section Trim

def trimEnd (t : Text) : Text := t.rdropWhile isWhitespace

variable {c : Char}

theorem trim_eq_trimEnd (hc : isWhitespace c=false) (t : Text) : trim (c::t)=trimEnd (c::t) := by
  rw [trim,dropWhile_cons_of_neg (by simp [hc]),trimEnd,rdropWhile]

theorem trimEnd_append (hc : isWhitespace c=false) (a b : Text) :
    trimEnd (a++c::b)=a++c::trimEnd b := by
  have hsplit : (a++c::b).reverse=b.reverse++c::a.reverse := by simp
  rw [trimEnd,trimEnd,rdropWhile,rdropWhile,hsplit,dropWhile_append]
  split
  · next h => simp [hc,isEmpty_iff.1 h]
  · simp

theorem exists_trimEnd (t : Text) : ∃ y, t=trimEnd t++y ∧ ∀ c∈y, isWhitespace c=true := by
  refine ⟨(t.reverse.takeWhile isWhitespace).reverse,?_,?_⟩
  · rw [trimEnd,rdropWhile,← reverse_append,takeWhile_append_dropWhile,reverse_reverse]
  · intro c hc
    exact mem_takeWhile_imp (mem_reverse.1 hc)

theorem trimEnd_trimEnd (t : Text) : trimEnd (trimEnd t)=trimEnd t :=
  rdropWhile_idempotent _ _

end Trim

section Pieces

theorem Written.blank_free (o : Written) : ∀ c∈o.name, isWhitespace c=false := by
  intro c hc
  have hsep := (o.named.2.2 c hc).2.2
  simp only [isSeparator,Bool.or_eq_false_iff] at hsep
  exact hsep.2

theorem Written.exists_cons (o : Written) : ∃ c t, o.name=c::t ∧
    isWhitespace c=false ∧ c ≠ '#' := by
  cases hname : o.name with
  | nil => exact absurd hname o.named.1
  | cons c t =>
    refine ⟨c,t,rfl,o.blank_free c (by simp [hname]),?_⟩
    have hhash := o.named.2.1
    rw [hname] at hhash
    simpa using hhash

theorem readPiece_value (o : Written) (s : Text) : readPiece (o.name ++ '=' :: '"' :: s) =
      (dequote ('"' :: trimEnd s)).map fun v => some (lower o.name,some v) := by
  obtain ⟨c,t,hname,hc,-⟩ := o.exists_cons
  have hequals : '=' ∉ o.name := fun h => (o.named.2.2 _ h).1 rfl
  have htrim : trim (o.name ++ '=' :: '"' :: s)=o.name ++ '=' :: '"' :: trimEnd s := by
    have hend := trimEnd_append (c := '"') (by decide) (o.name++['=']) s
    rw [append_assoc,append_assoc] at hend
    rw [hname,cons_append,trim_eq_trimEnd hc,← cons_append,← hname]
    exact hend
  have hvalue : trim ('"' :: trimEnd s) = '"' :: trimEnd s := by
    have hend := trimEnd_append (c := '"') (by decide) [] (trimEnd s)
    rw [trimEnd_trimEnd] at hend
    exact (trim_eq_trimEnd (by decide) _).trans hend
  have hsome : o.name ++ '=' :: '"' :: trimEnd s≠[] := by simp
  simp only [readPiece,htrim,if_neg hsome,splitFirst_append hequals,hvalue]
  cases dequote ('"' :: trimEnd s) <;> rfl

theorem readPiece_text (o : Written) : readPiece o.text = .ok (some o.pair) := by
  rw [Written.text,Written.pair]
  cases hvalue : o.value with
  | some v =>
    have hend := trimEnd_append (c := '"') (by decide) (escape v) []
    simp only [readPiece_value,hend,dequote]
    simp [trimEnd,unescape_escape,Except.map]
  | none =>
    obtain ⟨c,t,hname,hc,-⟩ := o.exists_cons
    have hequals : '=' ∉ o.name := fun h => (o.named.2.2 _ h).1 rfl
    have htrim : trim o.name=o.name := by
      obtain ⟨y,hy,hblank⟩ := exists_trimEnd o.name
      have hnil : y=[] := by
        refine eq_nil_iff_forall_not_mem.2 fun d hd => ?_
        have hmem : d∈o.name := by
          rw [hy]
          exact mem_append_right _ hd
        simpa [hblank d hd] using o.blank_free d hmem
      rw [hnil,append_nil] at hy
      have hcons := trim_eq_trimEnd hc t
      rw [← hname] at hcons
      rw [hcons,← hy]
    have hnone : splitFirst '=' o.name=none := by
      refine Option.eq_none_iff_forall_ne_some.2 fun s hs => hequals ?_
      rw [(splitFirst_eq_some hs).1]
      simp
    simp only [readPiece,htrim,if_neg o.named.1,hnone]

/-- If a piece that starts as the option does yields the option's value, a quote closes it and
the text up to there stands for the value. -/
theorem readPiece_closed {o : Written} {s v : Text}
    (h : readPiece (o.name ++ '=' :: '"' :: s) = .ok (some (lower o.name,some v))) :
    ∃ w y, s=w ++ '"' :: y ∧ (∀ c∈y, isWhitespace c=true) ∧ unescape w=v := by
  obtain ⟨y,hy,hblank⟩ := exists_trimEnd s
  rw [readPiece_value,dequote] at h
  split at h
  · next hlast =>
    obtain ⟨w,hw⟩ := getLast?_eq_some_iff.1 hlast
    rw [hw] at h hy
    refine ⟨w,y,by simpa using hy,hblank,?_⟩
    simpa [Except.map] using h
  · cases h

end Pieces

section Lists

def fieldText (opts : List Written) : Text := join [','] (opts.map Written.text)

def Written.Steady (o : Written) : Prop := ∀ v∈o.value, AuthorizedKeys.Steady v

instance (o : Written) : Decidable o.Steady := by
  unfold Written.Steady
  infer_instance

/- The pieces of the option field of a line. -/
def found (t : Text) : Result (List Text) := splitOptions (optionsField .start t).1

variable {p r : Text} {ps : List Text}

theorem found_comma (hp : Shielded .start p) (hout : (Quoting.start.run p).inQuotes=false) :
    found (p ++ ',' :: r)=(found r).map (p :: ·) := by
  have hstep : (Quoting.start.run p).step ',' = .start := by
    rw [Quoting.step_separator (by decide),hout]
    rfl
  have hblank : ¬(isWhitespace ',' = true ∧ (Quoting.start.run p).inQuotes=false) :=
    fun h => absurd h.1 (by decide)
  rw [found,optionsField_shielded hp,splitOptions,splitLoop_shielded hp,optionsField,
    if_neg hblank,splitLoop,if_pos ⟨rfl,hout⟩,splitLoop_out,hstep]
  rfl

variable {c : Char} {o : Written} {p r rest : Text} {opts : List Written}

theorem found_blank (hp : Shielded .start p) (hout : (Quoting.start.run p).inQuotes=false)
    (hc : isWhitespace c=true) : found (p++c::r) = .ok [p] := by
  rw [found,optionsField_shielded hp,splitOptions,splitLoop_shielded hp,optionsField,
    if_pos ⟨hc,hout⟩,splitLoop,hout]
  rfl

/-- The first piece reaches to the first separator outside quotes. -/
theorem found_ok {t : Text} (h : found t = .ok ps) :
    ∃ p r ps', t=p++r ∧ ps=p::ps' ∧ Shielded .start p ∧
      (Quoting.start.run p).inQuotes=false ∧ ∀ c∈r.head?, isSeparator c=true := by
  obtain ⟨p,r,rfl,hp,hr⟩ := exists_cut .start t
  obtain rfl | ⟨c,r,rfl,hc,hout⟩ := hr
  · rw [found,optionsField_shielded hp,splitOptions,splitLoop_shielded hp,optionsField,
      splitLoop] at h
    split at h
    · cases h
    · next hout =>
      cases h
      exact ⟨p,[],[],rfl,rfl,hp,by simpa using hout,by simp⟩
  · by_cases hcomma : c = ','
    · subst hcomma
      rw [found_comma hp hout] at h
      cases hrest : found r with
      | error e => simp [hrest,Except.map] at h
      | ok ps' =>
        simp only [hrest,Except.map,Except.ok.injEq] at h
        exact ⟨p,_,ps',rfl,h.symm,hp,hout,by simpa using hc⟩
    · have hblank : isWhitespace c=true := by simpa [isSeparator,hcomma] using hc
      rw [found_blank hp hout hblank] at h
      cases h
      exact ⟨p,_,[],rfl,rfl,hp,hout,by simpa using hc⟩

theorem Written.shielded_name (o : Written) :
    Shielded .start o.name ∧ Quoting.start.run o.name = .start :=
  ⟨shielded_plain fun c hc => (o.named.2.2 c hc).2.2,run_plain fun c hc => (o.named.2.2 c hc).2.1⟩

theorem Written.shielded_open (o : Written) (s : Text) :
    (Shielded .start (o.name ++ '=' :: '"' :: s) ↔ Shielded ⟨true,false⟩ s) ∧
      Quoting.start.run (o.name ++ '=' :: '"' :: s)=Quoting.run ⟨true,false⟩ s := by
  obtain ⟨hname,hrun⟩ := o.shielded_name
  have hequals : Quoting.start.step '=' = .start := by decide
  have hquote : Quoting.start.step '"' = ⟨true,false⟩ := by decide
  constructor
  · rw [shielded_append,hrun,Shielded,Shielded,hequals,hquote]
    simp [hname,show isSeparator '=' = false by decide,show isSeparator '"' = false by decide]
  · rw [Quoting.run_append,hrun]
    rfl

theorem Written.Steady.shielded (h : o.Steady) :
    Shielded .start o.text ∧ (Quoting.start.run o.text).inQuotes=false := by
  rw [Written.text]
  cases hvalue : o.value with
  | none => exact ⟨o.shielded_name.1,by rw [o.shielded_name.2]; rfl⟩
  | some v =>
    obtain ⟨hshield,hrun⟩ := h v hvalue
    obtain ⟨hopen,hstate⟩ := o.shielded_open (escape v++['"'])
    refine ⟨hopen.2 (shielded_append.2 ⟨hshield,?_⟩),?_⟩
    · exact ⟨fun hc => absurd hc (by decide),trivial⟩
    · simp only [hstate,Quoting.run_append,hrun]
      decide

/-- A piece that ends at a separator reaches past any text without one. -/
theorem exists_eq_append {a b : Text} (ha : ∀ c∈a, isSeparator c=false)
    (hr : ∀ c∈r.head?, isSeparator c=true) (h : a++b=p++r) : ∃ s, p=a++s := by
  rw [append_eq_append_iff] at h
  obtain ⟨z,hz,-⟩ | ⟨z,hz,hb⟩ := h
  · exact ⟨z,hz⟩
  · cases z with
    | nil => exact ⟨[],by simpa using hz.symm⟩
    | cons d z =>
      have hd := hr d (by simp [hb])
      rw [ha d (by simp [hz])] at hd
      cases hd

/-- If the first piece is read as the option, the scanners were not misled by its value. -/
theorem Written.steady_of_piece (htext : o.text++c::rest=p++r)
    (hr : ∀ d∈r.head?, isSeparator d=true) (hp : Shielded .start p)
    (hout : (Quoting.start.run p).inQuotes=false) (hread : readPiece p = .ok (some o.pair)) :
    o.Steady := by
  intro v hv
  have hvalue : o.value=some v := hv
  rw [Written.text,hvalue] at htext
  rw [Written.pair,hvalue] at hread
  have hfree : ∀ d∈o.name++['=','"'], isSeparator d=false := by
    rw [forall_mem_append]
    exact ⟨fun d hd => (o.named.2.2 d hd).2.2,forall_mem_cons.2 ⟨by decide,forall_mem_singleton.2 (by decide)⟩⟩
  have hwhole : (o.name++['=','"'])++(escape v ++ '"' :: c::rest)=p++r := by
    simpa using htext
  obtain ⟨s,rfl⟩ := exists_eq_append hfree hr hwhole
  rw [append_assoc,cons_append,singleton_append] at hp hout hread
  obtain ⟨w,y,rfl,hblank,hw⟩ := readPiece_closed hread
  have hseam : w ++ '"' :: (y++r)=escape v ++ '"' :: c::rest := by
    simpa using htext.symm
  have hclose : w=escape v := closing_quote (o.closed v hv) hseam hw
  subst hclose
  obtain ⟨hopen,hstate⟩ := o.shielded_open (escape v ++ '"' :: y)
  have hinside := (shielded_append.1 (hopen.1 hp)).1
  refine ⟨hinside,?_⟩
  -- blanks behind the closing quote do not end a quoted part, so the quote itself did
  have hsep : ∀ d∈y, isSeparator d=true := fun d hd => by simp [isSeparator,hblank d hd]
  rw [hstate,Quoting.run_append] at hout
  have hquote := (run_separators hsep).symm.trans hout
  have hsane : (Quoting.run ⟨true,false⟩ (escape v)).Sane :=
    Quoting.Sane.run (fun h => absurd h (by decide)) _
  cases hq : Quoting.run ⟨true,false⟩ (escape v) with
  | mk inQuotes escaped =>
    rw [hq] at hsane
    have hclosed : (Quoting.step ⟨inQuotes,escaped⟩ '"').inQuotes=false := hq ▸ hquote
    cases escaped with
    | false =>
      cases inQuotes with
      | false => simp [Quoting.step] at hclosed
      | true => rfl
    | true =>
      have hin : inQuotes=true := hsane rfl
      simp [Quoting.step,hin] at hclosed

/- What is read of the pieces found in a line. -/
def readFound (t : Text) : Result (List (Text × Option Text)) := readOptions (optionsField .start t).1

theorem Written.Steady.readFound_comma (h : o.Steady) (r : Text) :
    readFound (o.text ++ ',' :: r)=(readFound r).map (o.pair :: ·) := by
  have hfound := found_comma (r := r) h.shielded.1 h.shielded.2
  rw [found,found] at hfound
  rw [readFound,readFound,readOptions,readOptions,hfound]
  cases hr : splitOptions (optionsField .start r).1 with
  | error e => rfl
  | ok ps =>
    simp only [Except.map,bind,Except.bind,mapM_cons,readPiece_text]
    cases ps.mapM readPiece <;> rfl

theorem Written.Steady.readFound_blank (h : o.Steady) (hc : isWhitespace c=true) (r : Text) :
    readFound (o.text++c::r) = .ok [o.pair] := by
  have hfound := found_blank (r := r) h.shielded.1 h.shielded.2 hc
  rw [found] at hfound
  rw [readFound,readOptions,hfound]
  simp [readPiece_text,pure,Except.pure]

theorem readPiece_ne_none (hc : isWhitespace c=false) (t : Text) : readPiece (c::t) ≠ .ok none := by
  have htrim : trim (c::t)=c::trimEnd t :=
    (trim_eq_trimEnd hc t).trans (trimEnd_append hc [] t)
  intro h
  rw [readPiece,htrim,if_neg (cons_ne_nil _ _)] at h
  split at h
  · obtain ⟨w,-,hw⟩ := except_bind_eq_ok.1 h
    cases hw
  · cases h

theorem Written.text_eq_append (o : Written) : ∃ s, o.text=o.name++s := by
  rw [Written.text]
  cases o.value with
  | none => exact ⟨[],by simp⟩
  | some v => exact ⟨_,rfl⟩

/-- The first option read is the first one written only if its value is steady. -/
theorem Written.steady_of_readFound {os : List (Text × Option Text)}
    (h : readFound (o.text++c::rest) = .ok (o.pair::os)) : o.Steady := by
  obtain ⟨ps,hfound,hps⟩ := except_bind_eq_ok.1 h
  obtain ⟨p,r,ps',htext,rfl,hp,hout,hr⟩ := found_ok hfound
  obtain ⟨xs,hmap,hxs⟩ := except_bind_eq_ok.1 hps
  rw [mapM_cons] at hmap
  obtain ⟨x,hread,hmap⟩ := except_bind_eq_ok.1 hmap
  obtain ⟨xs',-,hcons⟩ := except_bind_eq_ok.1 hmap
  cases hcons
  obtain ⟨s,hs⟩ := o.text_eq_append
  have hname : ∀ d∈o.name, isSeparator d=false := fun d hd => (o.named.2.2 d hd).2.2
  have hwhole : o.name++(s++c::rest)=p++r := by
    rw [← htext,hs,append_assoc]
  obtain ⟨s',rfl⟩ := exists_eq_append hname hr hwhole
  obtain ⟨d,t,hfirst,hd,-⟩ := o.exists_cons
  cases x with
  | none =>
    rw [hfirst] at hread
    exact absurd hread (readPiece_ne_none hd _)
  | some x =>
    cases hxs
    exact o.steady_of_piece htext hr hp hout hread

theorem fieldText_cons (o o' : Written) (os : List Written) :
    fieldText (o::o'::os)=o.text ++ ',' :: fieldText (o'::os) := by
  simp [fieldText,join]

/-- The options of a field are read as they are written iff each value is steady. -/
theorem readFound_iff (hne : opts≠[]) (hc : isWhitespace c=true) (rest : Text) :
    readFound (fieldText opts++c::rest) = .ok (opts.map Written.pair) ↔ ∀ o∈opts, o.Steady := by
  induction opts with
  | nil => exact absurd rfl hne
  | cons o os ih =>
    cases os with
    | nil =>
      rw [forall_mem_singleton]
      constructor
      · exact fun h => Written.steady_of_readFound h
      · exact fun h => h.readFound_blank hc rest
    | cons o' os =>
      rw [fieldText_cons,append_assoc,cons_append,forall_mem_cons,← ih (cons_ne_nil _ _)]
      constructor
      · intro h
        have hsteady := Written.steady_of_readFound h
        refine ⟨hsteady,?_⟩
        rw [hsteady.readFound_comma] at h
        cases hrest : readFound (fieldText (o'::os)++c::rest) with
        | error e => simp [hrest,Except.map] at h
        | ok ps =>
          simp only [hrest,Except.map,map_cons,Except.ok.injEq,cons.injEq,true_and] at h
          rw [h,map_cons]
      · rintro ⟨hsteady,hrest⟩
        rw [hsteady.readFound_comma,hrest]
        rfl

theorem optionsField_fieldText (hne : opts≠[]) (h : ∀ o∈opts, o.Steady)
    (hc : isWhitespace c=true) (rest : Text) :
    optionsField .start (fieldText opts++c::rest)=(fieldText opts,c::rest) := by
  induction opts with
  | nil => exact absurd rfl hne
  | cons o os ih =>
    rw [forall_mem_cons] at h
    obtain ⟨hshield,hout⟩ := h.1.shielded
    cases os with
    | nil =>
      have hone : fieldText [o]=o.text := rfl
      rw [hone,optionsField_shielded hshield,optionsField,if_pos ⟨hc,hout⟩,append_nil]
    | cons o' os =>
      have hstep : (Quoting.start.run o.text).step ',' = .start := by
        rw [Quoting.step_separator (by decide),hout]
        rfl
      rw [fieldText_cons,append_assoc,optionsField_shielded hshield,cons_append,
        optionsField,if_neg fun h => absurd h.1 (by decide),hstep,ih (cons_ne_nil _ _) h.2]

end Lists

end PureSsh.AuthorizedKeys
