import PureSsh.Sftp.Fetch

/-! Where a fetched tree comes to lie. Every local path is the destination and the text of plain names
the server has listed; the names themselves only if they are UTF-8. -/

namespace PureSsh.Sftp
open Lib Scp List
open Naming (lossy)

/- The local path of names below the destination. -/
def walkTo (dest : Bytes) (names : Names) : Bytes := names.foldl (fun p n => joinRaw p (lossy n)) dest

/- A name that can stand in a path as it is; `.` and `..` pass. -/
def Segment (n : Bytes) : Prop := n≠[] ∧ slash∉n

def IsDots (n : Bytes) : Prop := n=[dot] ∨ n=[dot,dot]

section Names
variable {n : Bytes} {dest path : Bytes} {names : Names}

theorem safeName_iff : safeName n=true ↔ Segment n ∧ ¬IsDots n ∧ (0 : UInt8)∉n := by
  simp only [safeName,Segment,IsDots,bne_iff_ne,Bool.and_eq_true,Bool.not_eq_true',contains_eq_mem,decide_eq_false_iff_not]
  tauto

variable {b : UInt8}

theorem mem_lossyName (hb : b.toNat<0x80) : b∈lossy n ↔ b∈n := mem_lossy hb

theorem lossy_segment (h : Segment n) : Segment (lossy n) :=
  ⟨fun hnil => h.1 (lossy_eq_nil.1 hnil),fun hmem => h.2 ((mem_lossyName (by decide)).1 hmem)⟩

theorem lossy_eq_dot (h : lossy n=[dot]) : n=[dot] := by
  have hmem : dot∈n := (mem_lossyName (by decide)).1 (h ▸ mem_singleton.2 rfl)
  obtain ⟨a,c,rfl⟩ := append_of_mem hmem
  have hsplit : lossy a++dot::lossy c=[dot] := (lossy_ascii (by decide) a c).symm.trans h
  have hnil : lossy a=[] ∧ lossy c=[] := by
    cases ha : lossy a with
    | nil => simpa [ha] using hsplit
    | cons b bs => simp [ha] at hsplit
  rw [lossy_eq_nil.1 hnil.1,lossy_eq_nil.1 hnil.2]
  rfl

theorem lossy_eq_dots (h : lossy n=[dot,dot]) : n=[dot,dot] := by
  have hmem : dot∈n := (mem_lossyName (by decide)).1 (h ▸ mem_cons_self)
  obtain ⟨a,c,rfl⟩ := append_of_mem hmem
  have hsplit : lossy a++dot::lossy c=[dot,dot] := (lossy_ascii (by decide) a c).symm.trans h
  cases ha : lossy a with
  | nil =>
    rw [ha,nil_append,cons.injEq] at hsplit
    rw [lossy_eq_nil.1 ha,lossy_eq_dot hsplit.2]
    rfl
  | cons b bs =>
    rw [ha,cons_append,cons.injEq] at hsplit
    have hbs : bs=[] ∧ lossy c=[] := by
      cases bs with
      | nil => simpa using hsplit.2
      | cons b' bs => simp at hsplit
    have hone : lossy a=[dot] := by rw [ha,hsplit.1,hbs.1]
    rw [lossy_eq_dot hone,lossy_eq_nil.1 hbs.2]
    rfl

theorem lossy_dots (h : IsDots n) : lossy n=n := by
  rcases h with rfl | rfl
  · exact Naming.lossy_of_valid (by decide)
  · exact Naming.lossy_of_valid (by decide)

/-- The text of a plain name is a plain name. -/
theorem safeName_lossy (h : safeName n=true) : safeName (lossy n)=true := by
  obtain ⟨hsegment,hdots,hnul⟩ := safeName_iff.1 h
  refine safeName_iff.2 ⟨lossy_segment hsegment,?_,fun hmem => hnul ((mem_lossyName (by decide)).1 hmem)⟩
  rintro (h | h)
  · exact hdots (.inl (lossy_eq_dot h))
  · exact hdots (.inr (lossy_eq_dots h))

theorem isAbsolute_segment (h : Segment n) : isAbsolute n=false := by
  cases n with
  | nil => exact absurd rfl h.1
  | cons b bs =>
    have hb : b≠slash := fun heq => h.2 (heq ▸ mem_cons_self)
    simpa [isAbsolute] using hb

theorem joinRaw_segment (h : Segment n) (p : Bytes) :
    joinRaw p n=if p=[] ∨ p.getLast?=some slash then p++n else p++slash::n := by
  rw [joinRaw,isAbsolute_segment h,if_neg (by simp)]

theorem lastName_joinRaw (h : Segment n) (p : Bytes) : lastName (joinRaw p n)=n := by
  have hall : ∀ b∈n.reverse, decide (b≠slash)=true := by
    intro b hb
    have hne : b≠slash := fun heq => h.2 (heq ▸ mem_reverse.1 hb)
    simpa using hne
  have htake : ∀ a : Bytes, ((a++slash::n).reverse.takeWhile (· ≠ slash)).reverse=n := by
    intro a
    rw [reverse_append,reverse_cons,append_assoc,takeWhile_append_of_pos hall]
    simp
  rw [joinRaw_segment h,lastName]
  split
  · next hp =>
    rcases hp with rfl | hlast
    · have hself := @List.takeWhile_append_of_pos _ _ n.reverse [] hall
      rw [takeWhile_nil,append_nil] at hself
      rw [nil_append,hself,reverse_reverse]
    · obtain ⟨a,rfl⟩ := getLast?_eq_some_iff.1 hlast
      rw [append_assoc]
      exact htake a
  · exact htake p

theorem mem_joinRaw (h : Segment n) {p : Bytes} (hb : b∈p ∨ b∈n) : b∈joinRaw p n := by
  rw [joinRaw_segment h]
  split
  · exact mem_append.2 hb
  · rcases hb with hb | hb
    · exact mem_append_left _ hb
    · exact mem_append_right _ (mem_cons_of_mem _ hb)

theorem walkTo_snoc (dest : Bytes) (names : Names) (n : Bytes) :
    walkTo dest (names++[n])=joinRaw (walkTo dest names) (lossy n) := by
  rw [walkTo,foldl_append]
  rfl

theorem nul_of_name (hnames : ∀ n∈names, Segment n) (h : n∈names) (hnul : (0 : UInt8)∈n) :
    (0 : UInt8)∈walkTo dest names := by
  induction names using reverseRecOn with
  | nil => cases h
  | append_singleton names m ih =>
    obtain ⟨hnames,hm⟩ := forall_mem_append.1 hnames
    have hsegment := lossy_segment (forall_mem_singleton.1 hm)
    rw [walkTo_snoc]
    rcases mem_append.1 h with h | h
    · exact mem_joinRaw hsegment (.inl (ih hnames h))
    · rw [mem_singleton.1 h] at hnul
      exact mem_joinRaw hsegment (.inr ((mem_lossyName (by decide)).2 hnul))

end Names

/-- Names that lead to a local path, each of them listed in its directory. -/
structure Route (dest : Bytes) (listed : List (Names × Bytes)) (names : Names) (path : Bytes) : Prop where
  path_eq : path=walkTo dest names
  segments : ∀ n∈names, Segment n
  plain : ∀ dir n, dir++[n] <+: names → dir++[n]≠names → ¬IsDots n
  listed : ∀ dir n, dir++[n] <+: names → (dir,n)∈listed

/-- What may have happened to a local path. -/
structure Placed (dest : Bytes) (listed : List (Names × Bytes)) (t : Names × Bytes) : Prop where
  path_eq : t.2=walkTo dest t.1
  short : t.1.length≤65
  safe : ∀ n∈t.1, safeName n=true
  listed : ∀ dir n, dir++[n] <+: t.1 → (dir,n)∈listed

structure Inv (dest : Bytes) (known : List (Names × Bytes)) (w : Fetch) : Prop where
  touched : ∀ t∈w.touched, Placed dest w.listed t
  known : ∀ e∈known, e∈w.listed

section Steps
open Proc (Guards)
variable {dest : Bytes} {known : List (Names × Bytes)} {names : Names} {path : Bytes} {host : Host}
  {peer : Peer} {opts : XferOpts} {α : Type}

/- The last name, too, is none of the dots. -/
def Clean (names : Names) : Prop := ∀ n∈names, ¬IsDots n

variable {Q : α → Prop} {listed : List (Names × Bytes)} {n remote : Bytes} {levels : Nat}

theorem ask_guards (f : Nat → α) (hQ : ∀ n, Q (f n)) : Guards (Inv dest known) (ask f) Q := by
  intro w hw
  refine ⟨⟨hw.touched,hw.known⟩,?_⟩
  rintro _ ⟨⟩
  exact hQ _

theorem ask_any (f : Nat → α) : Guards (Inv dest known) (ask f) fun _ => True :=
  ask_guards f fun _ => trivial

section
variable (h : Route dest known names path)
include h

theorem Route.placed (hshort : names.length≤65)
    (hclean : Clean names) (hnul : hasNul path=false) (hknown : ∀ e∈known, e∈listed) :
    Placed dest listed (names,path) where
  path_eq := h.path_eq
  short := hshort
  safe := fun n hn => safeName_iff.2 ⟨h.segments n hn,hclean n hn,fun hmem => by
    have hin : (0 : UInt8)∈path := h.path_eq ▸ nul_of_name h.segments hn hmem
    simp [hasNul,hin] at hnul⟩
  listed := fun dir n hpre => hknown _ (h.listed dir n hpre)

theorem touchedIf_guards (hshort : names.length≤65) {b : Bool}
    (hb : b=true → Clean names ∧ hasNul path=false) :
    Guards (Inv dest known) (touchedIf names path b) fun _ => True := by
  cases b with
  | false => exact .of_pure trivial
  | true =>
    refine .of_modify fun w hw => ⟨forall_mem_append.2 ⟨hw.touched,?_⟩,hw.known⟩
    exact forall_mem_singleton.2 (h.placed hshort (hb rfl).1 (hb rfl).2 hw.known)

theorem createDirLocal_guards (hshort : names.length≤65) (hclean : Clean names) :
    Guards (Inv dest known) (createDirLocal host names path) fun _ => True := by
  refine (ask_guards _ (Q := fun r => r = .created → hasNul path=false) fun n => ?_).bind fun r hr =>
    (touchedIf_guards h hshort fun hb => ⟨hclean,hr (by simpa using hb)⟩).bind fun _ _ => .of_pure trivial
  cases hnul : hasNul path with
  | true => simp
  | false => simp

/-- A file that could be opened has a plain name. -/
theorem openLocal_guards (hshort : names.length≤65) :
    Guards (Inv dest known) (openLocal host names path) fun ok => ok=true → Clean names := by
  have hopen : ∀ b : Bool, (b && !unopenable path)=true → Clean names ∧ hasNul path=false := by
    intro b hb
    rw [Bool.and_eq_true,Bool.not_eq_true',unopenable,Bool.or_eq_false_iff,Bool.or_eq_false_iff,
      beq_eq_false_iff_ne,beq_eq_false_iff_ne] at hb
    obtain ⟨-,⟨hnul,hdot⟩,hdots⟩ := hb
    refine ⟨fun n hn hisdots => ?_,hnul⟩
    obtain ⟨before,after,hsplit⟩ := append_of_mem hn
    cases after with
    | nil =>
      have hlast : lastName path=n := by
        rw [h.path_eq,hsplit,walkTo_snoc,lastName_joinRaw (lossy_segment (h.segments n hn)),
          lossy_dots hisdots]
      rcases hisdots with rfl | rfl
      · exact hdot hlast
      · exact hdots hlast
    | cons m after =>
      refine h.plain before n ⟨m::after,by simp [hsplit]⟩ (fun heq => ?_) hisdots
      have hlen := congrArg length (heq.trans hsplit)
      simp at hlen
  refine (ask_guards _ (Q := fun ok => ok=true → Clean names ∧ hasNul path=false)
    fun n => hopen _).bind fun ok hok =>
    (touchedIf_guards h hshort hok).bind fun _ _ => .of_pure fun htrue => (hok htrue).1

theorem changeIf_guards (hshort : names.length≤65) (hclean : Clean names) (b : Bool) :
    Guards (Inv dest known) (changeIf host names path b) fun _ => True := by
  refine .ite ?_ (.of_pure trivial)
  refine (ask_guards _ (Q := fun ok => ok=true → hasNul path=false) fun n hok => ?_).bind
    fun ok hok => touchedIf_guards h hshort fun hb => ⟨hclean,hok hb⟩
  rw [Bool.and_eq_true,Bool.not_eq_true'] at hok
  exact hok.2

theorem applyLocalAttrs_guards (hshort : names.length≤65)
    (hclean : Clean names) (preserve : Bool) (a : Attrs) :
    Guards (Inv dest known) (applyLocalAttrs host names path preserve a) fun _ => True :=
  (changeIf_guards h hshort hclean _).bind fun _ _ => changeIf_guards h hshort hclean _

theorem downloadFile_guards (hshort : names.length≤65) (attrs : Attrs) (remote : Bytes) :
    Guards (Inv dest known) (downloadFile peer host opts attrs names remote path) fun _ => True := by
  refine (ask_any _).bind fun _ _ => .ite (.of_fail _) ?_
  refine (ask_any _).bind fun _ _ => (openLocal_guards h hshort).bind fun ok hok => ?_
  cases ok with
  | false => exact .of_fail _
  | true =>
    refine .ite (.of_fail _) (.ite (.of_fail _) ((ask_any _).bind fun _ _ =>
      .ite (.of_fail _) ?_))
    exact (changeIf_guards h hshort (hok rfl) _).bind fun _ _ =>
      applyLocalAttrs_guards h hshort (hok rfl) _ _

end

theorem forEach_guards {I : Fetch → Prop} {stop : Fetching Bool} {f : NameEntry → Fetching Unit}
    (hstop : Guards I stop fun _ => True) {es : List NameEntry}
    (hf : ∀ e∈es, Guards I (f e) fun _ => True) : Guards I (forEach stop f es) fun _ => True := by
  induction es with
  | nil => exact .of_pure trivial
  | cons e es ih =>
    obtain ⟨he,hes⟩ := forall_mem_cons.1 hf
    refine hstop.bind fun _ _ => .ite (.of_pure trivial) fun w hw => ?_
    have hfirst := he w hw
    rw [thenRest]
    rcases hx : f e w with ⟨r,w'⟩
    rw [hx] at hfirst
    cases r with
    | ok u => exact ⟨(ih hes w' hfirst.1).1,fun _ _ => trivial⟩
    | error e => exact ⟨(ih hes w' hfirst.1).1,fun _ _ => trivial⟩

theorem Placed.mono {listed' : List (Names × Bytes)} {t : Names × Bytes} (h : Placed dest listed t)
    (hsub : ∀ e∈listed, e∈listed') : Placed dest listed' t :=
  ⟨h.path_eq,h.short,h.safe,fun dir n hpre => hsub _ (h.listed dir n hpre)⟩

theorem listing_bind_guards {entries : List NameEntry} {x : Unit → Fetching α}
    (hx : Guards (Inv dest (known++entries.map fun e => (names,e.filename))) (x ()) Q) :
    Guards (Inv dest known) (listing names entries >>= x) Q := by
  intro w hw
  obtain ⟨hinv,hQ⟩ := hx { w with listed := w.listed++entries.map fun e => (names,e.filename) }
    ⟨fun t ht => (hw.touched t ht).mono fun e he => mem_append_left _ he,
      fun e he => by
        rcases mem_append.1 he with he | he
        · exact mem_append_left _ (hw.known e he)
        · exact mem_append_right _ he⟩
  exact ⟨⟨hinv.touched,fun e he => hinv.known e (mem_append_left _ he)⟩,hQ⟩

theorem Route.mono {known' : List (Names × Bytes)} (h : Route dest known names path)
    (hsub : ∀ e∈known, e∈known') : Route dest known' names path :=
  ⟨h.path_eq,h.segments,h.plain,fun dir n hpre => hsub _ (h.listed dir n hpre)⟩

theorem Route.child (h : Route dest known names path) (hclean : Clean names) (hsegment : Segment n)
    (hmem : (names,n)∈known) : Route dest known (names++[n]) (joinRaw path (lossy n)) where
  path_eq := by rw [walkTo_snoc,← h.path_eq]
  segments := forall_mem_append.2 ⟨h.segments,forall_mem_singleton.2 hsegment⟩
  plain := fun dir m hpre hne => by
    rcases prefix_concat_iff.1 hpre with heq | hpre
    · exact absurd heq hne
    · exact hclean m (hpre.subset (mem_append_right _ (mem_singleton.2 rfl)))
  listed := fun dir m hpre => by
    rcases prefix_concat_iff.1 hpre with heq | hpre
    · obtain ⟨rfl,hm⟩ := append_inj' heq rfl
      cases hm
      exact hmem
    · exact h.listed dir m hpre

theorem Clean.snoc (h : Clean names) (hn : ¬IsDots n) : Clean (names++[n]) :=
  forall_mem_append.2 ⟨h,forall_mem_singleton.2 hn⟩

theorem downloadEntry_guards {dir : Attrs → Names → Bytes → Bytes → Fetching Unit}
    (h : Route dest known names path) (hshort : names.length≤65)
    (hdir : opts.recursive=true → ∀ attrs,
      Guards (Inv dest known) (dir attrs names remote path) fun _ => True) :
    Guards (Inv dest known) (downloadEntry peer host opts dir names remote path) fun _ => True := by
  refine (ask_any _).bind fun reply _ => ?_
  cases reply with
  | none => exact .of_fail _
  | some attrs =>
    refine .ite ?_ (.ite (.of_fail _) (downloadFile_guards h hshort attrs remote))
    cases hrec : opts.recursive with
    | false => exact .of_fail _
    | true => exact .ite (.of_fail _) (hdir hrec attrs)

theorem downloadAt_guards (h : Route dest known names path) (hshort : names.length≤65)
    (hlevels : opts.recursive=true → names.length+levels≤65)
    (hclean : opts.recursive=true → Clean names) :
    Guards (Inv dest known) (downloadAt peer host opts levels names remote path) fun _ => True := by
  induction levels generalizing names remote path known with
  | zero => exact downloadEntry_guards h hshort fun _ _ => .of_fail _
  | succ levels ih =>
    refine downloadEntry_guards h hshort fun hrec attrs => ?_
    have hlen := hlevels hrec
    have hplain := hclean hrec
    refine (createDirLocal_guards h hshort hplain).bind fun _ _ =>
      (ask_any _).bind fun _ _ => .ite (.of_fail _) ((ask_any _).bind fun listed _ => ?_)
    cases listed with
    | none => exact .of_fail _
    | some entries =>
      have hknown : ∀ e∈known, e∈known++entries.map fun e => (names,e.filename) :=
        fun _ he => mem_append_left _ he
      refine listing_bind_guards ((forEach_guards (.of_pure trivial) fun e he => ?_).bind fun ok _ => ?_)
      · by_cases hsafe : safeName e.filename=true
        · obtain ⟨hsegment,hdots,-⟩ := safeName_iff.1 hsafe
          have hlength : (names++[e.filename]).length=names.length+1 := length_append
          rw [if_pos hsafe]
          exact ih ((h.mono hknown).child hplain hsegment
            (mem_append_right _ (mem_map_of_mem he))) (by omega) (fun _ => by omega)
            fun _ => hplain.snoc hdots
        · rw [if_neg hsafe]
          exact .of_pure trivial
      · exact (applyLocalAttrs_guards (h.mono hknown) hshort hplain _ _).bind fun _ _ =>
          .ite (.of_pure trivial) (.of_fail _)

theorem getFile_guards (fsync : Bool) (a : Attrs) (h : Route dest known names path)
    (hshort : names.length≤65) :
    Guards (Inv dest known) (getFile peer host opts fsync a names remote path) fun _ => True := by
  refine .ite (.of_fail _) ((ask_any _).bind fun _ _ => .ite (.of_fail _) ?_)
  refine (downloadAt_guards h hshort (fun hrec => by cases hrec) (fun hrec => by cases hrec)).bind
    fun _ _ => .ite (.of_pure trivial) (.ite (.of_pure trivial) ?_)
  exact (ask_any _).bind fun _ _ => .ite (.of_pure trivial) (.of_fail _)

/-- Below a text, the path of an entry is that of its text. -/
theorem lossy_pathAppend {dst : Bytes} (hdst : validUtf8 dst=true) (hn : Segment n) :
    lossy (pathAppend dst n)=joinRaw dst (lossy n) := by
  rw [joinRaw_segment (lossy_segment hn),pathAppend]
  by_cases hnil : dst=[]
  · simp [hnil]
  · by_cases hlast : dst.getLast?=some slash
    · obtain ⟨a,rfl⟩ := getLast?_eq_some_iff.1 hlast
      have ha : validUtf8 a=true := by
        rw [validUtf8_ascii (by decide),Bool.and_eq_true] at hdst
        exact hdst.1
      rw [if_neg (by simp),if_pos (.inr hlast),append_assoc,append_assoc]
      exact (lossy_ascii (by decide) a n).trans (congrArg (· ++ _) (Naming.lossy_of_valid ha))
    · rw [if_pos ⟨hnil,hlast⟩,if_neg (by simp [hnil,hlast])]
      exact (lossy_ascii (by decide) dst n).trans (congrArg (· ++ _) (Naming.lossy_of_valid hdst))

theorem getDirAt_guards (fsync : Bool) {dirattrib : Option Attrs} {src : Bytes}
    (h : Route dest known names path) (hlevels : names.length+levels≤64) (hclean : Clean names)
    (hvalid : validUtf8 path=true) :
    Guards (Inv dest known) (getDirAt peer host opts fsync levels dirattrib names src path)
      fun _ => True := by
  induction levels generalizing names dirattrib src path known with
  | zero => exact .of_fail _
  | succ levels ih =>
    have hshort : names.length≤65 := by omega
    have hattrs : Guards (Inv dest known) (attrsOf peer src dirattrib) fun _ => True := by
      cases dirattrib with
      | none => exact ask_any _
      | some a => exact .of_pure trivial
    refine hattrs.bind fun reply _ => ?_
    cases reply with
    | none => exact .of_fail _
    | some da =>
      refine .ite (.of_fail _) ((createDirLocal_guards h hshort hclean).bind fun _ _ =>
        .ite (.of_fail _) ((ask_any _).bind fun listed _ => ?_))
      cases listed with
      | none => exact .of_fail _
      | some batch =>
        have hknown : ∀ e∈known, e∈known++(readdir batch).map fun e => (names,e.filename) :=
          fun _ he => mem_append_left _ he
        refine listing_bind_guards ((forEach_guards (ask_any _) fun e he => ?_).bind fun ok _ => ?_)
        · have hsegment : Segment e.filename := by
            have hkeep := (mem_filter.1 he).2
            simpa [Segment] using hkeep
          have hchild := (h.mono hknown).child hclean hsegment
            (mem_append_right _ (mem_map_of_mem he))
          rw [← lossy_pathAppend hvalid hsegment] at hchild
          have hlen : (names++[e.filename]).length=names.length+1 := length_append
          refine .ite (.of_pure trivial) (.ite ?_ (.ite (getFile_guards fsync e.attrs hchild (by omega))
            (.of_pure trivial)))
          split
          · exact .of_pure trivial
          · next hdots => exact ih hchild (by omega) (hclean.snoc hdots) (Naming.validUtf8_lossy _)
        · have hroute := h.mono hknown
          exact (changeIf_guards hroute hshort hclean _).bind fun _ _ =>
            (changeIf_guards hroute hshort hclean _).bind fun _ _ => .ite (.of_pure trivial) (.of_fail _)

theorem route_nil (dest : Bytes) (known : List (Names × Bytes)) : Route dest known [] dest where
  path_eq := rfl
  segments := by simp
  plain := fun dir n hpre => absurd (prefix_nil.1 hpre) (by simp)
  listed := fun dir n hpre => absurd (prefix_nil.1 hpre) (by simp)

theorem fetch_placed (peer : Peer) (host : Host) (command : FetchCommand) :
    ∀ t∈(fetch peer host command).touched, Placed command.dest (fetch peer host command).listed t := by
  have hinit : Inv command.dest [] ⟨0,[],[]⟩ := ⟨by simp,by simp⟩
  have hrun : Guards (Inv command.dest []) (command.run peer host) fun _ => True := by
    cases command with
    | download opts remote dest =>
      exact downloadAt_guards (route_nil _ _) (by simp) (by simp) (fun _ => by simp [Clean])
    | get opts fsync src dest =>
      refine (ask_any _).bind fun reply _ => ?_
      cases reply with
      | none => exact .of_fail _
      | some canon =>
        exact getDirAt_guards fsync (route_nil _ _) (by simp) (by simp [Clean]) (validUtf8_bytes dest)
  exact (hrun _ hinit).1.touched

end Steps

section Distinct
variable {dest q : Bytes} {names names' : Names}

/- The path of names taken as they are. -/
def walkRaw (dest : Bytes) (names : Names) : Bytes := names.foldl joinRaw dest

theorem walkRaw_behind (hnames : ∀ n∈names, Segment n) (hq : q≠[] ∧ q.getLast?≠some slash) :
    walkRaw q names=q++names.flatMap fun n => slash::n := by
  induction names generalizing q with
  | nil => simp [walkRaw]
  | cons n names ih =>
    obtain ⟨hn,hnames⟩ := forall_mem_cons.1 hnames
    have hjoin : joinRaw q n=q++slash::n := by
      rw [joinRaw_segment hn,if_neg (by simp [hq.1,hq.2])]
    have hlast : (q++slash::n).getLast?≠some slash := by
      rw [getLast?_append_of_ne_nil _ (cons_ne_nil _ _),getLast?_cons_of_ne_nil hn.1]
      exact fun h => hn.2 (mem_of_getLast? h)
    rw [walkRaw,foldl_cons,hjoin]
    exact (ih hnames ⟨by simp,hlast⟩).trans (by simp)

theorem pathBytes_eq_flatMap (hne : names≠[]) : pathBytes names=names.flatMap fun n => slash::n := by
  induction names with
  | nil => exact absurd rfl hne
  | cons n names ih =>
    cases names with
    | nil => simp [pathBytes]
    | cons m names =>
      rw [flatMap_cons,← ih (cons_ne_nil _ _)]
      simp [pathBytes]

variable {n : Bytes}

theorem proper_of_safeName (h : safeName n=true) : Proper n := by
  obtain ⟨hsegment,hdots,-⟩ := safeName_iff.1 h
  exact ⟨hsegment.1,fun hdot => hdots (.inl hdot),fun hdot => hdots (.inr hdot),hsegment.2⟩

theorem walkRaw_cons (hn : Segment n) (hnames : ∀ n∈names, Segment n) :
    ∃ base, dest.length≤base.length ∧
      (base=if dest=[] ∨ dest.getLast?=some slash then dest else dest++[slash]) ∧
      walkRaw dest (n::names)=base++(n++names.flatMap fun n => slash::n) := by
  refine ⟨_,?_,rfl,?_⟩
  · split
    · exact le_refl _
    · simp
  · have hjoin : joinRaw dest n =
        (if dest=[] ∨ dest.getLast?=some slash then dest else dest++[slash])++n := by
      rw [joinRaw_segment hn]
      split
      · rfl
      · simp
    have hlast : (joinRaw dest n).getLast?≠some slash := by
      rw [hjoin,getLast?_append_of_ne_nil _ hn.1]
      exact fun h => hn.2 (mem_of_getLast? h)
    have hne : joinRaw dest n≠[] := by
      rw [hjoin]
      simp [hn.1]
    exact (walkRaw_behind hnames ⟨hne,hlast⟩).trans (by rw [hjoin,append_assoc])

/-- Different names, different paths. -/
theorem walkRaw_inj (h : ∀ n∈names, safeName n=true) (h' : ∀ n∈names', safeName n=true)
    (heq : walkRaw dest names=walkRaw dest names') : names=names' := by
  have hsegments : ∀ {names : Names}, (∀ n∈names, safeName n=true) → ∀ n∈names, Segment n :=
    fun h n hn => (safeName_iff.1 (h n hn)).1
  have hlonger : ∀ {n : Bytes} {names : Names}, (∀ m∈n::names, safeName m=true) →
      walkRaw dest (n::names)≠dest := by
    intro n names h heq
    obtain ⟨hn,hnames⟩ := forall_mem_cons.1 (hsegments h)
    obtain ⟨base,hle,-,hwalk⟩ := walkRaw_cons hn hnames
    have hlen := congrArg length (hwalk.symm.trans heq)
    have hpos := length_pos_iff.2 hn.1
    rw [length_append,length_append] at hlen
    omega
  cases names with
  | nil =>
    cases names' with
    | nil => rfl
    | cons n' names' => exact absurd heq.symm (hlonger h')
  | cons n names =>
    cases names' with
    | nil => exact absurd heq (hlonger h)
    | cons n' names' =>
      obtain ⟨hn,hnames⟩ := forall_mem_cons.1 (hsegments h)
      obtain ⟨hn',hnames'⟩ := forall_mem_cons.1 (hsegments h')
      obtain ⟨base,-,hbase,hwalk⟩ := @walkRaw_cons dest _ n hn hnames
      obtain ⟨base',-,hbase',hwalk'⟩ := @walkRaw_cons dest _ n' hn' hnames'
      rw [hwalk,hwalk',hbase,hbase',append_cancel_left_eq] at heq
      have hpath : pathBytes (n::names)=pathBytes (n'::names') := by
        rw [pathBytes_eq_flatMap (cons_ne_nil _ _),pathBytes_eq_flatMap (cons_ne_nil _ _),
          flatMap_cons,flatMap_cons,cons_append,cons_append,heq]
      rw [← clean_pathBytes fun m hm => proper_of_safeName (h m hm),hpath,
        clean_pathBytes fun m hm => proper_of_safeName (h' m hm)]

theorem walkTo_eq_walkRaw (h : ∀ n∈names, validUtf8 n=true) : walkTo dest names=walkRaw dest names := by
  induction names generalizing dest with
  | nil => rfl
  | cons n names ih =>
    obtain ⟨hn,hnames⟩ := forall_mem_cons.1 h
    rw [walkTo,foldl_cons,Naming.lossy_of_valid hn]
    exact ih hnames

/-- The text of the names stands for the names only where they are UTF-8. -/
theorem valid_of_walkTo_eq (hsafe : ∀ n∈names, safeName n=true)
    (h : walkTo dest names=walkRaw dest names) : ∀ n∈names, validUtf8 n=true := by
  have hmap : walkTo dest names=walkRaw dest (names.map lossy) := by
    rw [walkTo,walkRaw,foldl_map]
  have heq : names.map lossy=names :=
    walkRaw_inj (forall_mem_map.2 fun n hn => safeName_lossy (hsafe n hn)) hsafe (hmap.symm.trans h)
  intro n hn
  have hself : lossy n=n := map_inj_left.1 (heq.trans (map_id names).symm) n hn
  rw [← hself]
  exact Naming.validUtf8_lossy n

end Distinct

/-- Whatever the server does, every path a download touches is the destination and the text of plain names
it has listed. They are the listed names themselves, and no path is used for two of them, exactly if all of
them are UTF-8. -/
theorem fetch_names_iff (peer : Peer) (host : Host) (command : FetchCommand) :
    (∀ t∈(fetch peer host command).touched,
      t.2=walkRaw command.dest (t.1.map lossy) ∧ t.1.length≤65 ∧
      (∀ n∈t.1, safeName n=true ∧ safeName (lossy n)=true) ∧
      ∀ dir n, dir++[n] <+: t.1 → (dir,n)∈(fetch peer host command).listed) ∧
    (((∀ t∈(fetch peer host command).touched, t.2=walkRaw command.dest t.1) ∧
      ∀ t∈(fetch peer host command).touched, ∀ u∈(fetch peer host command).touched,
        t.2=u.2 → t.1=u.1) ↔
      ∀ t∈(fetch peer host command).touched, ∀ n∈t.1, validUtf8 n=true) := by
  have hplaced := fetch_placed peer host command
  refine ⟨fun t ht => ?_,?_,?_⟩
  · have h := hplaced t ht
    refine ⟨?_,h.short,fun n hn => ⟨h.safe n hn,safeName_lossy (h.safe n hn)⟩,h.listed⟩
    rw [h.path_eq,walkTo,walkRaw,foldl_map]
  · rintro ⟨hself,-⟩ t ht
    have h := hplaced t ht
    exact valid_of_walkTo_eq h.safe (h.path_eq.symm.trans (hself t ht))
  · intro hvalid
    have hself : ∀ t∈(fetch peer host command).touched, t.2=walkRaw command.dest t.1 := fun t ht =>
      (hplaced t ht).path_eq.trans (walkTo_eq_walkRaw (hvalid t ht))
    refine ⟨hself,fun t ht u hu heq => ?_⟩
    rw [hself t ht,hself u hu] at heq
    exact walkRaw_inj (hplaced t ht).safe (hplaced u hu).safe heq

/- A server that lists the names FF and FE, and a host on which every call succeeds. -/
def twoNames : Peer where
  stat n _ := some { permissions := some (if n=0 then 0o040755 else 0o100644) }
  list _ _ := some [⟨[0xFF],{}⟩,⟨[0xFE],{}⟩]
  openFile _ _ := true
  readTo _ _ := true
  realpath _ p := some p

def willing : Host where
  createDir _ _ := .created
  isDir _ _ := true
  length _ _ := 0
  openWrite _ _ := true
  setAttr _ _ := true
  openRead _ _ := true
  interrupted _ := false

/-- Both files are written to `d/` and the replacement character. -/
theorem two_names_one_path :
    (fetch twoNames willing (.download { recursive := true } [115] [100])).touched =
      [([],[100]),([[0xFF]],[100,47,0xEF,0xBF,0xBD]),([[0xFE]],[100,47,0xEF,0xBF,0xBD])] ∧
    ([],[0xFF])∈(fetch twoNames willing (.download { recursive := true } [115] [100])).listed ∧
    ([],[0xFE])∈(fetch twoNames willing (.download { recursive := true } [115] [100])).listed := by
  decide +kernel

end PureSsh.Sftp
