import PureSsh.Scp.Receiver

/-! Where the receiver leaves its traces. -/

namespace PureSsh.Scp

open Lib List

/- Where a receiver is after the records it has read: the directories entered, the last one first,
and the file at hand. -/
structure Place where
  dirs : List Bytes
  file : Option Bytes

def Place.next (pl : Place) : Event → Place
  | .record (.dir _ name) => ⟨name::pl.dirs,none⟩
  | .record .endDir => ⟨pl.dirs.tail,none⟩
  | .record (.file _ _ name) => ⟨pl.dirs,some name⟩
  | .record (.times _ _) => ⟨pl.dirs,none⟩
  | .touch _ _ => pl

def place (trail : List Event) : Place := trail.foldl Place.next ⟨[],none⟩

/- The names on the way from the top level to the record at hand. -/
def Place.names (pl : Place) : List Bytes := (pl.file.toList++pl.dirs).reverse

theorem place_snoc (trail : List Event) (e : Event) : place (trail++[e])=(place trail).next e := by
  rw [place,foldl_append]
  rfl

theorem place_touches (trail : List Event) (touches : List Touch) (p : Path) :
    place (trail++touches.map (Event.touch · p))=place trail := by
  induction touches generalizing trail with
  | nil => rw [map_nil,append_nil]
  | cons t touches ih => rw [map_cons,append_cons,ih,place_snoc,Place.next]

/-- Every object was touched at a place that `P` allows. -/
def EachTouch (P : Place → Path → Prop) (trail : List Event) : Prop :=
  ∀ before what p after, trail=before ++ .touch what p::after → P (place before) p

section EachTouch

variable {P : Place → Path → Prop} {trail : List Event}

theorem eachTouch_nil : EachTouch P [] := by
  intro before what p after h
  exact absurd h (by simp)

/- The last of a list, or one before it. -/
theorem snoc_eq_append_cons {α : Type} {l before after : List α} {e x : α}
    (h : l++[e]=before++x::after) :
    (l=before ∧ e=x ∧ after=[]) ∨ ∃ rest, after=rest++[e] ∧ l=before++x::rest := by
  cases after using reverseRecOn with
  | nil =>
    obtain ⟨hl,he⟩ := append_inj' h rfl
    exact .inl ⟨hl,singleton_inj.1 he,rfl⟩
  | append_singleton rest last =>
    have h' : l++[e]=(before++x::rest)++[last] := by
      rw [h,append_assoc,cons_append]
    obtain ⟨hl,he⟩ := append_inj' h' rfl
    exact .inr ⟨rest,by rw [singleton_inj.1 he],hl⟩

theorem EachTouch.snoc {e : Event} (h : EachTouch P trail)
    (he : ∀ what p, e = .touch what p → P (place trail) p) : EachTouch P (trail++[e]) := by
  intro before what p after htrail
  obtain ⟨rfl,hlast,-⟩ | ⟨rest,-,hrest⟩ := snoc_eq_append_cons htrail
  · exact he what p hlast
  · exact h before what p rest hrest

theorem EachTouch.touches {p : Path} (h : EachTouch P trail) (hp : P (place trail) p)
    (touches : List Touch) : EachTouch P (trail++touches.map (Event.touch · p)) := by
  induction touches generalizing trail with
  | nil => rwa [map_nil,append_nil]
  | cons t touches ih =>
    rw [map_cons,append_cons]
    refine ih (h.snoc ?_) ?_
    · rintro what q ⟨⟩
      exact hp
    · rwa [place_snoc]

end EachTouch

/- A name that stands for one entry of one directory. -/
structure Proper (name : Bytes) : Prop where
  ne_nil : name≠[]
  ne_dot : name≠[dot]
  ne_dots : name≠[dot,dot]
  noSlash : slash∉name

variable {name : Bytes}

theorem Proper.join (h : Proper name) (p : Path) : p.join name=p++[.normal name] := by
  have hhead : name.head?≠some slash := fun hs => h.noSlash (mem_of_mem_head? hs)
  have hcomp : componentOf name=some (.normal name) := by
    rw [componentOf,if_neg (by simp [h.ne_nil,h.ne_dot]),if_neg h.ne_dots]
  rw [Path.join,if_neg hhead,splitOn_eq_singleton h.noSlash,filterMap_cons,hcomp,filterMap_nil]

theorem proper_of_validateName (h : validateName name = .ok ()) :
    Proper name ∧ name.any isControl=false := by
  obtain ⟨hnil,hctl,-,hdot,hdots,hslash⟩ := validateName_eq_ok.1 h
  exact ⟨⟨hnil,hdot,hdots,hslash⟩,hctl⟩

namespace Receiver

variable (r : Receiver)

/- The path of a record, by the names that lead to it. With `target_is_file` the first one stands for
the base itself. -/
def spot (names : List Bytes) : Path :=
  r.base++(if r.opts.targetIsFile then names.tail else names).map .normal

/-- A path below the base, or the base itself where that is asked for. -/
structure Confined (pl : Place) (p : Path) : Prop where
  ne_nil : pl.names≠[]
  eq_spot : p=r.spot pl.names
  proper : ∀ name∈pl.names, Proper name ∧ name.any isControl=false
  filtered : ∀ filter∈r.topLevelFilter, ∀ name∈pl.names.head?, filter name=true

/-- Everything that was done was done at such a path. -/
def TrailOk (trail : List Event) : Prop := EachTouch r.Confined trail

end Receiver

/- Work on one path, between two records. -/
structure Busy (target : Path) (s t : RecvState) : Prop where
  works : Fs.Works target s.fs t.fs
  stack_eq : t.stack=s.stack

namespace Busy

variable {target : Path} {s t u : RecvState}

theorem refl (target : Path) (s : RecvState) : Busy target s s := ⟨.refl target s.fs,rfl⟩

theorem trans (h : Busy target s t) (h' : Busy target t u) : Busy target s u :=
  ⟨h.works.trans h'.works,h'.stack_eq.trans h.stack_eq⟩

theorem place_eq (h : Busy target s t) : place t.fs.trail=place s.fs.trail := by
  obtain ⟨touches,htrail⟩ := h.works.trail_eq
  rw [htrail,place_touches]

theorem mapFs {f : Fs → Fs} (h : Fs.Works target s.fs (f s.fs)) : Busy target s (s.mapFs f) :=
  ⟨h,rfl⟩

end Busy

/- Work on one file. -/
structure FileBusy (target : Path) (s t : RecvState) : Prop where
  works : Fs.FileWorks target s.fs t.fs
  stack_eq : t.stack=s.stack

namespace FileBusy

variable {target : Path} {s t u : RecvState}

theorem busy (h : FileBusy target s t) : Busy target s t := ⟨h.works.toWorks,h.stack_eq⟩

theorem refl (target : Path) (s : RecvState) : FileBusy target s s := ⟨.refl target s.fs,rfl⟩

theorem trans (h : FileBusy target s t) (h' : FileBusy target t u) : FileBusy target s u :=
  ⟨h.works.trans h'.works,h'.stack_eq.trans h.stack_eq⟩

theorem mapFs {f : Fs → Fs} (h : Fs.FileWorks target s.fs (f s.fs)) :
    FileBusy target s (s.mapFs f) := ⟨h,rfl⟩

end FileBusy

/- The bounds leave room for every change that `W` allows. -/
structure Allows (B : Prog.Bounds RecvState) (W : RecvState → RecvState → Prop) (s : RecvState) :
    Prop where
  inv : ∀ t, W s t → B.inv t
  reads : ∀ t, W s t → B.reads t
  moves : ∀ t u, W s t → W t u → B.moves t u

section Allows

variable {B : Prog.Bounds RecvState} {target : Path} {s t : RecvState}

theorem Allows.next {W : RecvState → RecvState → Prop} (hW : ∀ {a b c}, W a b → W b c → W a c)
    (h : Allows B W s) (hst : W s t) : Allows B W t where
  inv u hu := h.inv u (hW hst hu)
  reads u hu := h.reads u (hW hst hu)
  moves u v hu hv := h.moves u v (hW hst hu) hv

theorem Allows.after (h : Allows B (Busy target) s) (hst : Busy target s t) :
    Allows B (Busy target) t := h.next .trans hst

theorem Allows.file_after (h : Allows B (FileBusy target) s) (hst : FileBusy target s t) :
    Allows B (FileBusy target) t := h.next .trans hst

theorem Allows.file (h : Allows B (Busy target) s) : Allows B (FileBusy target) s where
  inv t ht := h.inv t ht.busy
  reads t ht := h.reads t ht.busy
  moves t u ht hu := h.moves t u ht.busy hu.busy

end Allows

section Programs

variable {B : Prog.Bounds RecvState} {r : Receiver} {target : Path} {s : RecvState} {α : Type}

theorem refuse_safe (hs : B.inv s) (msg : Bytes) (e : ScpError) {Q : α → RecvState → Prop} :
    (refuse msg e : ScpProg RecvState α).Safe B Q s :=
  ⟨hs,fun _ => hs⟩

theorem send_safe (hs : B.inv s) (bs : Bytes) :
    (send bs : ScpProg RecvState Unit).Safe B (fun _ t => t=s) s := by
  refine ⟨hs,fun i => ?_⟩
  rcases i with e | _
  · exact hs
  · exact ⟨hs,rfl⟩

theorem get_safe (hs : B.inv s) (hm : B.moves s s) :
    (Prog.get : ScpProg RecvState RecvState).Safe B (fun a t => a=s ∧ t=s) s :=
  ⟨hs,hm,hs,rfl,rfl⟩

theorem modify_safe {f : RecvState → RecvState} {W : RecvState → RecvState → Prop}
    (h : Allows B W s) (hs : W s s) (hf : W s (f s)) :
    (Prog.modify f : ScpProg RecvState Unit).Safe B (fun _ t => t=f s) s :=
  ⟨h.inv s hs,h.moves s _ hs hf,h.inv _ hf,rfl⟩

theorem guardPath_safe (hs : B.inv s) (p : Path) : (r.guardPath p).Safe B (fun _ t => t=s) s := by
  rw [Receiver.guardPath]
  split
  · exact refuse_safe hs _ _
  · split
    · exact ⟨hs,rfl⟩
    · exact refuse_safe hs _ _

theorem takeTimes_safe (h : Allows B (FileBusy target) s) :
    (r.takeTimes target).Safe B (fun _ t => FileBusy target s t) s := by
  have hbusy : FileBusy target s (r.stamp target s) := by
    refine ⟨?_,rfl⟩
    rw [Receiver.stamp]
    split
    · exact Fs.setTimes_works s.fs target
    · exact .refl target s.fs
  exact (modify_safe h (.refl _ s) hbusy).mono fun _ t _ ht => ht ▸ hbusy

theorem makeDir_safe (h : Allows B (Busy target) s) :
    (Receiver.makeDir target).Safe B (fun _ t => Busy target s t ∧ t.fs.HasDir target) s := by
  have hs := h.inv s (.refl _ s)
  refine (get_safe hs (h.moves s s (.refl _ s) (.refl _ s))).bind ?_
  rintro _ s-⟨rfl,rfl⟩
  split
  · exact refuse_safe hs _ _
  · exact refuse_safe hs _ _
  next mode hmeta =>
    refine ⟨hs,.refl _ _,.dir mode,?_,rfl⟩
    obtain ⟨_,-,hnode⟩ := except_bind_eq_ok.1 hmeta
    split at hnode
    next n hn =>
      cases hnode
      exact hn
    next => cases hnode
  · split
    next fs hfs =>
      obtain ⟨hworks,hdir⟩ := Fs.createDir_works hfs
      have hbusy : Busy target s { s with fs := fs } := ⟨hworks,rfl⟩
      refine (modify_safe h (.refl _ _) hbusy).mono ?_
      rintro _ t-rfl
      exact ⟨hbusy,hdir⟩
    next => exact refuse_safe hs _ _
  · exact refuse_safe hs _ _

theorem checkFile_safe (hs : B.inv s) (hm : B.moves s s) (size : Nat) (name : Bytes) :
    (r.checkFile size name).Safe B
      (fun p t => t=s ∧ p=r.resolveTarget s name ∧ r.Admits s size name) s := by
  refine (get_safe hs hm).bind ?_
  rintro _ t-⟨rfl,rfl⟩
  split
  · exact refuse_safe hs _ _
  next hsingle =>
    split
    · exact refuse_safe hs _ _
    next hname =>
      split
      · exact refuse_safe hs _ _
      next hsize =>
        have hadmits : r.Admits t size name := by
          refine ⟨Bool.eq_false_iff.2 hsingle,fun e he => ?_,fun cap hcap => ?_⟩
          · simpa [Option.mem_def.1 he] using hname
          · simpa [Option.mem_def.1 hcap] using hsize
        refine (guardPath_safe hs _).bind ?_
        rintro _ _-rfl
        split
        · exact refuse_safe hs _ _
        · exact ⟨hs,rfl,rfl,hadmits⟩

theorem openFile_safe (h : Allows B (FileBusy target) s) : (Receiver.openFile target).Safe B
      (fun _ t => FileBusy target s t ∧ t.fs.Has .file target) s := by
  have hs := h.inv s (.refl _ s)
  refine (get_safe hs (h.moves s s (.refl _ s) (.refl _ s))).bind ?_
  rintro _ s-⟨rfl,rfl⟩
  split
  next fs hfs =>
    obtain ⟨hworks,hfile⟩ := Fs.openWrite_works hfs
    have hbusy : FileBusy target s { s with fs := fs } := ⟨hworks,rfl⟩
    refine (modify_safe h (.refl _ s) hbusy).mono ?_
    rintro _ t-rfl
    exact ⟨hbusy,hfile⟩
  next => exact refuse_safe hs _ _

theorem readPayload_safe (h : Allows B (FileBusy target) s) (pos remaining : Nat) :
    (readPayload (Receiver.writeContent target) pos remaining).Safe B
      (fun _ t => FileBusy target s t) s := by
  induction remaining generalizing s pos with
  | zero =>
    have hs := h.inv s (.refl _ s)
    refine ⟨hs,h.reads s (.refl _ s),fun i => ?_⟩
    rcases i with e | _ | b
    · exact hs
    · exact hs
    · dsimp only
      split
      · exact ⟨hs,.refl _ s⟩
      · exact hs
  | succ remaining ih =>
    have hs := h.inv s (.refl _ s)
    refine ⟨hs,h.reads s (.refl _ s),fun i => ?_⟩
    rcases i with e | _ | b
    · exact hs
    · exact hs
    · have hwrite : FileBusy target s (s.mapFs fun fs => fs.writeAt target pos b) :=
        .mapFs (Fs.writeAt_works s.fs target pos b)
      refine (modify_safe h (.refl _ s) hwrite).bind ?_
      rintro _ t-rfl
      exact (ih (h.file_after hwrite) (pos+1)).mono fun _ u _ hu => hwrite.trans hu

theorem storeFile_safe (h : Allows B (FileBusy target) s) (hfile : s.fs.Has .file target)
    (mode size : Nat) : (r.storeFile mode size target).Safe B
      (fun _ t => FileBusy target s t ∧ t.receivedOne=true) s := by
  have hpay : ((readPayloadTerm (Receiver.writeContent target) size).attempt :
      ScpProg RecvState (Except ScpError Unit)).Safe B
        (fun res t => (res = .ok () → FileBusy target s t)) s :=
    (readPayload_safe h 0 size).attempt (fun _ t _ ht _ => ht) nofun
  refine hpay.bind ?_
  rintro (e | ⟨⟨⟩⟩) t ht hbusy
  · exact refuse_safe ht _ _
  · replace hbusy := hbusy rfl
    have hlen := Fs.setLen_works t.fs target size
    have hmode : FileBusy target t (t.mapFs fun fs =>
        (fs.setLen target size).setPermissions target (BitVec.ofNat 12 mode)) :=
      .mapFs (hlen.trans (Fs.setPermissions_fileWorks (hlen.has (hbusy.works.has hfile)) _))
    refine (modify_safe (h.file_after hbusy) (.refl _ t) hmode).bind ?_
    rintro _ _-rfl
    refine (takeTimes_safe (h.file_after (hbusy.trans hmode))).bind ?_
    intro _ u hu hbusy'
    have hall : FileBusy target s u := (hbusy.trans hmode).trans hbusy'
    have hdone : FileBusy target u { u with receivedOne := true } := ⟨.refl target _,rfl⟩
    refine (send_safe hu [0]).bind ?_
    rintro _ v-rfl
    refine (modify_safe (h.file_after hall) (.refl _ _) hdone).mono ?_
    rintro _ t-rfl
    exact ⟨hall.trans hdone,rfl⟩

/-- A file record: nothing is touched but the file itself, provided the directory above it is not
made on the way. -/
theorem recvFile_safe (hs : B.inv s) (hm : B.moves s s) (mode size : Nat) (name : Bytes)
    (h : r.Admits s size name → Allows B (FileBusy (r.resolveTarget s name)) s ∧
      Receiver.makeParent (r.resolveTarget s name) s.fs=s.fs) : (r.recvFile mode size name).Safe B
      (fun _ t => FileBusy (r.resolveTarget s name) s t ∧ r.Admits s size name ∧
        t.receivedOne=true) s := by
  refine (checkFile_safe hs hm size name).bind ?_
  rintro _ _-⟨rfl,rfl,hadmits⟩
  obtain ⟨hallows,hparent⟩ := h hadmits
  refine (send_safe hs [0]).bind ?_
  rintro _ s-rfl
  have hsame : s.mapFs (Receiver.makeParent (r.resolveTarget s name))=s := by
    rw [RecvState.mapFs,hparent]
  refine (modify_safe hallows (.refl _ s) (hsame.symm ▸ .refl _ s)).bind ?_
  rintro _ _-rfl
  rw [hsame]
  refine (openFile_safe hallows).bind ?_
  rintro _ t-⟨hopen,hfile⟩
  refine (storeFile_safe (hallows.file_after hopen) hfile mode size).mono ?_
  rintro _ u-⟨hstore,hone⟩
  exact ⟨hopen.trans hstore,hadmits,hone⟩

end Programs

namespace Receiver

variable {r : Receiver}

theorem spot_snoc {names : List Bytes} (h : names≠[]) (name : Bytes) :
    r.spot (names++[name])=r.spot names++[.normal name] := by
  rw [spot,spot]
  split
  · rw [tail_append_of_ne_nil h,map_append,append_assoc]
    rfl
  · rw [map_append,append_assoc]
    rfl

/- The stack after the directories have been entered, the last one first. -/
def stackOf (r : Receiver) : List Bytes → List Path
  | [] => []
  | name::dirs => r.spot (name::dirs).reverse::stackOf r dirs

variable {dirs : List Bytes} {name : Bytes} {s : RecvState}

/-- The target of a record is the path of its names. -/
theorem resolveTarget_eq (hstack : s.stack=r.stackOf dirs) (hname : Proper name) :
    r.resolveTarget s name=r.spot (name::dirs).reverse := by
  rw [resolveTarget,currentDir,hname.join,hstack,reverse_cons]
  cases dirs with
  | nil =>
    rw [spot]
    cases r.opts.targetIsFile <;> simp [stackOf]
  | cons dir dirs =>
    rw [spot_snoc (by simp)]
    rfl

/-- A file record that the receiver would take. -/
def TakesFile (r : Receiver) : Prop :=
  ∃ mode size name, Received (.file mode size name) ∧
    (∀ filter∈r.topLevelFilter, filter name=true) ∧
    (∀ expected∈r.expectedName, name=baseName expected) ∧ ∀ cap∈r.maxFileSize, size≤cap

/- Nothing can come into being above the records: the base is the record itself, it cannot be made
any more, or no file is taken. -/
def Anchored (r : Receiver) (fs : Fs) : Prop :=
  r.opts.targetIsFile=true ∨ (∃ e, fs.createDir r.base = .error e) ∨ ¬r.TakesFile

/- A file system with the base in it, or with the directory the base belongs to. -/
structure Grounded (r : Receiver) (fs : Fs) : Prop where
  wellFormed : fs.WellFormed
  rooted : fs.HasDir r.base.dropLast ∨ fs.node r.base≠none
  anchored : r.Anchored fs

namespace Grounded

variable {fs fs' : Fs} {names : List Bytes}

theorem anchored_works (h : r.Anchored fs) (hne : names≠[])
    (hw : Fs.Works (r.spot names) fs fs') : r.Anchored fs' := by
  by_cases hfile : r.opts.targetIsFile=true
  · exact .inl hfile
  refine .inr ((h.resolve_left hfile).imp_left ?_)
  rintro ⟨e,he⟩
  refine ⟨e,Fs.createDir_error_congr (fun q hq => hw.frame q ?_) hw.may_eq he⟩
  -- what is below the base is not on the way to it
  rintro rfl
  have hlen := hq.length_le
  rw [spot,if_neg hfile,length_append,length_map] at hlen
  have := length_pos_iff.2 hne
  omega

theorem works (h : r.Grounded fs) (hne : names≠[]) (hw : Fs.Works (r.spot names) fs fs') :
    r.Grounded fs' where
  wellFormed := hw.wellFormed h.wellFormed
  rooted := by
    refine h.rooted.imp hw.has fun hbase => ?_
    obtain ⟨n,hn⟩ := Option.ne_none_iff_exists'.1 hbase
    exact (hw.has ⟨n,hn,rfl⟩).ne_none
  anchored := anchored_works h.anchored hne hw

/- The trail does not matter. -/
theorem note (h : r.Grounded fs) (e : Event) : r.Grounded (fs.note e) where
  wellFormed := h.wellFormed
  rooted := h.rooted
  anchored := by
    have hnode : ∀ q, q <+: r.base → (fs.note e).node q=fs.node q := fun _ _ => rfl
    refine h.anchored.imp_right fun hrest => hrest.imp_left ?_
    rintro ⟨err,herr⟩
    exact ⟨err,Fs.createDir_error_congr hnode rfl herr⟩

theorem createDirAll_eq (h : r.Grounded fs) {p : Path} (hp : fs.HasDir p) :
    (fs.createDirAll p).2=fs := by
  obtain ⟨e,he⟩ := Fs.createDir_of_node hp.ne_none
  exact Fs.createDirAll_of_error h.wellFormed (.inr hp.ne_none) he

/-- The directory above a file at top level is not made by the way. -/
theorem makeParent_eq (h : r.Grounded fs) {name : Bytes} (htakes : r.TakesFile) :
    makeParent (r.spot [name]) fs=fs := by
  rw [makeParent]
  split
  next q hq =>
    rw [Path.parent] at hq
    split at hq
    · cases hq
    next hlen =>
      cases hq
      rw [spot] at hlen ⊢
      split
      next hfile =>
        rw [if_pos hfile,tail_cons,map_nil,append_nil] at hlen
        rw [tail_cons,map_nil,append_nil]
        refine h.createDirAll_eq (h.rooted.elim id fun hnode =>
          h.wellFormed.above hnode fun hnil => ?_)
        have := congrArg length hnil
        rw [length_dropLast,length_nil] at this
        omega
      next hfile =>
        rw [map_singleton,dropLast_concat]
        obtain ⟨e,he⟩ | hno := h.anchored.resolve_left hfile
        · exact Fs.createDirAll_of_error h.wellFormed h.rooted he
        · exact absurd htakes hno
  next => rfl

end Grounded

/- The receiver while it works below the directories it has entered. -/
structure Ready (r : Receiver) (dirs : List Bytes) (s : RecvState) : Prop where
  trail : r.TrailOk s.fs.trail
  grounded : r.Grounded s.fs
  stack_eq : s.stack=r.stackOf dirs
  proper : ∀ name∈dirs, Proper name ∧ name.any isControl=false
  filtered : ∀ filter∈r.topLevelFilter, ∀ name∈dirs.getLast?, filter name=true
  entered : ∀ p∈s.stack, s.fs.HasDir p

theorem Ready.busy {dirs names : List Bytes} {s t : RecvState} (h : Ready r dirs s)
    (hne : names≠[]) (hst : Busy (r.spot names) s t) (ht : r.TrailOk t.fs.trail) :
    Ready r dirs t where
  trail := ht
  grounded := h.grounded.works hne hst.works
  stack_eq := hst.stack_eq.trans h.stack_eq
  proper := h.proper
  filtered := h.filtered
  entered p hp := hst.works.has (h.entered p (hst.stack_eq ▸ hp))

/-- The directory above a file that is taken is not made by the way. -/
theorem Ready.makeParent_eq (h : Ready r dirs s) (htakes : dirs=[] → r.TakesFile) :
    makeParent (r.spot (name::dirs).reverse) s.fs=s.fs := by
  cases dirs with
  | nil => exact h.grounded.makeParent_eq (htakes rfl)
  | cons dir dirs =>
    rw [makeParent,reverse_cons,spot_snoc (by simp)]
    split
    next q hq =>
      rw [Path.parent] at hq
      split at hq
      · cases hq
      · cases hq
        rw [dropLast_concat]
        refine h.grounded.createDirAll_eq (h.entered _ ?_)
        rw [h.stack_eq]
        exact mem_cons_self
    next => rfl

def bounds (r : Receiver) : Prog.Bounds RecvState where
  inv s := r.TrailOk s.fs.trail

theorem allows_of_confined {s : RecvState} {target : Path} (h : r.TrailOk s.fs.trail)
    (hc : r.Confined (place s.fs.trail) target) : Allows r.bounds (Busy target) s where
  inv t ht := by
    obtain ⟨touches,htrail⟩ := ht.works.trail_eq
    have hok := h.touches hc touches
    rw [← htrail] at hok
    exact hok
  reads _ _ := trivial
  moves _ _ _ _ := trivial

theorem Ready.confined {dirs : List Bytes} {s : RecvState} (h : Ready r dirs s) {name : Bytes}
    (hname : validateName name = .ok ())
    (hfilter : dirs=[] → ∀ filter∈r.topLevelFilter, filter name=true) {pl : Place}
    (hpl : pl.names=(name::dirs).reverse) : r.Confined pl (r.spot (name::dirs).reverse) where
  ne_nil := by simp [hpl]
  eq_spot := by rw [hpl]
  proper n hn := by
    rw [hpl,mem_reverse] at hn
    rcases mem_cons.1 hn with rfl | hn
    · exact proper_of_validateName hname
    · exact h.proper n hn
  filtered filter hfil n hn := by
    rw [hpl,head?_reverse] at hn
    cases dirs with
    | nil =>
      cases hn
      exact hfilter rfl filter hfil
    | cons dir dirs => exact h.filtered filter hfil n hn

theorem checkTopLevelName_safe {B : Prog.Bounds RecvState} (hs : B.inv s) (hm : B.moves s s)
    (name : Bytes) : (r.checkTopLevelName name).Safe B
      (fun _ t => t=s ∧ (s.stack=[] → ∀ filter∈r.topLevelFilter, filter name=true)) s := by
  refine (get_safe hs hm).bind ?_
  rintro _ t-⟨rfl,rfl⟩
  split
  · exact refuse_safe hs _ _
  next hpass =>
    refine ⟨hs,rfl,fun hstack filter hfilter => ?_⟩
    simpa [hstack,Option.mem_def.1 hfilter] using hpass

theorem stackOf_eq_nil : r.stackOf dirs=[] ↔ dirs=[] := by
  cases dirs <;> simp [stackOf]

/- Between two records. -/
def Idle (r : Receiver) (s : RecvState) : Prop := r.Ready (place s.fs.trail).dirs s

theorem Ready.idle (h : r.Ready dirs s) (hdirs : (place s.fs.trail).dirs=dirs) : r.Idle s := by
  rw [Idle,hdirs]
  exact h

section Rounds

variable {dirs : List Bytes} {file : Option Bytes} {s : RecvState}

variable {name : Bytes}

theorem recvDir_safe (h : r.Ready dirs s) (mode : Nat) (hname : validateName name = .ok ())
    (hfilter : dirs=[] → ∀ filter∈r.topLevelFilter, filter name=true)
    (hplace : place s.fs.trail=⟨name::dirs,none⟩) :
    (r.recvDir mode name).Safe r.bounds (fun _ t => r.Idle t) s := by
  have hproper := proper_of_validateName hname
  have htarget := resolveTarget_eq h.stack_eq hproper.1
  have hconf : r.Confined (place s.fs.trail) (r.spot (name::dirs).reverse) :=
    h.confined hname hfilter (by rw [hplace]; rfl)
  have hallows := allows_of_confined h.trail hconf
  refine (get_safe h.trail trivial).bind ?_
  rintro _ _-⟨rfl,rfl⟩
  rw [htarget]
  refine (guardPath_safe h.trail _).bind ?_
  rintro _ _-rfl
  refine (makeDir_safe hallows).bind ?_
  rintro _ t-⟨hbusy,hdir⟩
  have hchmod : Busy (r.spot (name::dirs).reverse) t
      (t.mapFs (applyMode (r.spot (name::dirs).reverse) mode)) := by
    refine .mapFs ?_
    rw [applyMode]
    split
    · exact Fs.setPermissions_works _ _ _
    · exact .refl _ _
  refine (modify_safe (hallows.after hbusy) (.refl _ t) hchmod).bind ?_
  rintro _ _-rfl
  refine (takeTimes_safe (hallows.after (hbusy.trans hchmod)).file).bind ?_
  rintro _ u hu htimes
  have hbusy' := htimes.busy
  have hall := (hbusy.trans hchmod).trans hbusy'
  have hready := h.busy (by simp) hall hu
  have hpush : (Prog.modify fun s => { s with stack := r.spot (name::dirs).reverse::s.stack } :
      ScpProg RecvState Unit).Safe r.bounds
        (fun _ v => v = { u with stack := r.spot (name::dirs).reverse::u.stack }) u :=
    ⟨hu,trivial,hu,rfl⟩
  refine hpush.bind ?_
  rintro _ v hv rfl
  refine (send_safe hv [0]).mono ?_
  rintro _ _-rfl
  have hplace' : (place u.fs.trail).dirs=name::dirs := by rw [hall.place_eq,hplace]
  refine Ready.idle ⟨hready.trail,hready.grounded,?_,?_,?_,?_⟩ hplace'
  · rw [stackOf,← hready.stack_eq]
  · exact forall_mem_cons.2 ⟨hproper,h.proper⟩
  · intro filter hfil n hn
    cases dirs with
    | nil =>
      cases hn
      exact hfilter rfl filter hfil
    | cons dir dirs => exact h.filtered filter hfil n hn
  · refine forall_mem_cons.2 ⟨?_,hready.entered⟩
    exact (hchmod.trans hbusy').works.has hdir

theorem recvFile_idle (h : r.Ready dirs s) {mode size : Nat} (hname : validateName name = .ok ())
    (hrec : Received (.file mode size name))
    (hfilter : dirs=[] → ∀ filter∈r.topLevelFilter, filter name=true)
    (hplace : place s.fs.trail=⟨dirs,some name⟩) :
    (r.recvFile mode size name).Safe r.bounds (fun _ t => r.Idle t) s := by
  have htarget := resolveTarget_eq h.stack_eq (proper_of_validateName hname).1
  have hconf : r.Confined (place s.fs.trail) (r.spot (name::dirs).reverse) :=
    h.confined hname hfilter (by rw [hplace]; rfl)
  refine (recvFile_safe h.trail trivial mode size name fun hadmits => ?_).mono ?_
  · rw [htarget]
    exact ⟨(allows_of_confined h.trail hconf).file,h.makeParent_eq fun hnil =>
      ⟨mode,size,name,hrec,hfilter hnil,hadmits.expected,hadmits.fits⟩⟩
  · rintro _ t ht ⟨hbusy,-⟩
    rw [htarget] at hbusy
    exact (h.busy (by simp) hbusy.busy ht).idle (by rw [hbusy.busy.place_eq,hplace])

theorem dispatch_safe (h : r.Ready dirs s) {hd : Header} (hrec : Received hd)
    (hplace : place s.fs.trail=(Place.mk dirs file).next (.record hd)) :
    (r.dispatch hd).Safe r.bounds (Prog.Back r.Idle) s := by
  have hname : ∀ name, hd.name?=some name → validateName name = .ok () := by
    obtain ⟨kind,line,-,hparse⟩ := hrec
    exact fun name => validateName_of_parseHeader hparse
  have hnil : s.stack=[] ↔ dirs=[] := by rw [h.stack_eq,stackOf_eq_nil]
  -- a step that leaves the file system alone
  have hquiet : ∀ (f : RecvState → RecvState), (f s).fs=s.fs →
      (Prog.modify f : ScpProg RecvState Unit).Safe r.bounds (fun _ t => t=f s) s := by
    intro f hf
    refine ⟨h.trail,trivial,?_,rfl⟩
    have htrail : r.TrailOk (f s).fs.trail := hf ▸ h.trail
    exact htrail
  cases hd with
  | times mtime atime =>
    refine (hquiet (fun s => { s with pendingTimes := some (mtime,atime) }) rfl).bind ?_
    rintro _ t ht rfl
    refine (send_safe ht [0]).bind ?_
    rintro _ _ ht rfl
    refine ⟨ht,fun _ => ?_⟩
    have hdirs : (place s.fs.trail).dirs=dirs := by rw [hplace,Place.next]
    have hready : r.Ready dirs { s with pendingTimes := some (mtime,atime) } :=
      ⟨ht,h.grounded,h.stack_eq,h.proper,h.filtered,h.entered⟩
    exact hready.idle hdirs
  | endDir =>
    refine (get_safe h.trail trivial).bind ?_
    rintro _ t ht ⟨rfl,rfl⟩
    split
    · exact refuse_safe ht _ _
    next hstack =>
      refine (hquiet (fun s => { s with stack := s.stack.tail, pendingTimes := none }) rfl).bind ?_
      rintro _ u hu rfl
      refine (send_safe hu [0]).bind ?_
      rintro _ _ hu rfl
      refine ⟨hu,fun _ => ?_⟩
      cases dirs with
      | nil => exact absurd (isEmpty_iff.2 (hnil.2 rfl)) hstack
      | cons dir dirs =>
        have hdirs : (place t.fs.trail).dirs=dirs := by rw [hplace,Place.next,tail_cons]
        refine Ready.idle ⟨ht,h.grounded,?_,?_,?_,?_⟩ hdirs
        · exact (congrArg tail h.stack_eq).trans rfl
        · exact (forall_mem_cons.1 h.proper).2
        · intro filter hfil n hn
          refine h.filtered filter hfil n ?_
          cases dirs with
          | nil => cases hn
          | cons => exact hn
        · exact fun p hp => h.entered p (mem_of_mem_tail hp)
  | dir mode name =>
    rw [dispatch]
    split
    · exact refuse_safe h.trail _ _
    · refine (checkTopLevelName_safe h.trail trivial name).bind ?_
      rintro _ _-⟨rfl,hfilter⟩
      refine (recvDir_safe h mode (hname name rfl) (fun hd => hfilter (hnil.2 hd)) hplace).bind ?_
      exact fun _ t ht hidle => ⟨ht,fun _ => hidle⟩
  | file mode size name =>
    refine (checkTopLevelName_safe h.trail trivial name).bind ?_
    rintro _ _-⟨rfl,hfilter⟩
    refine (recvFile_idle h (hname name rfl) hrec (fun hd => hfilter (hnil.2 hd)) hplace).bind ?_
    exact fun _ t ht hidle => ⟨ht,fun _ => hidle⟩

theorem nextHeader_safe {B : Prog.Bounds RecvState} (hs : B.inv s) (hr : B.reads s)
    (hnote : ∀ hd, Received hd → B.inv (s.mapFs fun fs => fs.note (.record hd)) ∧
      B.moves s (s.mapFs fun fs => fs.note (.record hd))) :
    nextHeader.Safe B (fun h t => (h=none → t=s) ∧ ∀ hd, h=some hd →
      Received hd ∧ t=s.mapFs fun fs => fs.note (.record hd)) s := by
  have hread : (readHeader.attempt : ScpProg RecvState (Except ScpError (Option Header))).Safe B
      (fun res t => ∀ h, res = .ok h → t=s ∧ ∀ hd, h=some hd → Received hd) s := by
    refine (readHeader_safe hs hr).attempt ?_ nofun
    rintro h t-ht _ ⟨⟩
    exact ht
  refine hread.bind ?_
  rintro (e | _ | hd) t ht hres
  · exact refuse_safe ht _ _
  · exact ⟨ht,fun _ => (hres none rfl).1,nofun⟩
  · obtain ⟨rfl,hrec⟩ := hres (some hd) rfl
    obtain ⟨hinv,hmoves⟩ := hnote hd (hrec hd rfl)
    refine ⟨ht,hmoves,hinv,nofun,?_⟩
    rintro _ ⟨⟩
    exact ⟨hrec hd rfl,rfl⟩

theorem run_safe (h : r.Idle s) : r.run.Safe r.bounds (Prog.Back r.Idle) s := by
  have hnote : ∀ hd, r.TrailOk (s.fs.note (.record hd)).trail := fun hd => h.trail.snoc nofun
  refine (nextHeader_safe h.trail trivial fun hd _ => ⟨hnote hd,trivial⟩).bind ?_
  rintro (_ | hd) t ht hres
  · exact ⟨ht,nofun⟩
  · obtain ⟨hrec,rfl⟩ := hres.2 hd rfl
    have hready : r.Ready (place s.fs.trail).dirs (s.mapFs fun fs => fs.note (.record hd)) :=
      ⟨hnote hd,h.grounded.note _,h.stack_eq,h.proper,h.filtered,h.entered⟩
    exact dispatch_safe hready hrec (place_snoc _ _)

end Rounds

/-- Where the base can be made and a file is taken, the base is made by the way. -/
theorem makes_base {fs fs' : Fs} (hbase : r.base.Canonical) (hfile : r.opts.targetIsFile=false)
    (hcreate : fs.createDir r.base = .ok fs') (htakes : r.TakesFile) :
    ∃ p s, Prog.Reaches r.run { fs := fs } (p,s) ∧
      ∃ h, s.fs.trail=fs.trail++[.record h,.touch .created r.base] := by
  obtain ⟨mode,size,name,⟨kind,line,hline,hparse⟩,hfilter,hexpected,hfits⟩ := htakes
  obtain ⟨hwalk,hnone,hmay,-⟩ := Fs.createDir_eq_ok.1 hcreate
  have hname := proper_of_validateName (validateName_of_parseHeader hparse rfl)
  obtain ⟨b,hb⟩ : ∃ b, RecordKind.ofByte b=some kind := by
    cases kind with
    | c => exact ⟨67,rfl⟩
    | d => exact ⟨68,rfl⟩
    | e => exact ⟨69,rfl⟩
    | t => exact ⟨84,rfl⟩
  let s : RecvState := { fs := fs.note (.record (.file mode size name)) }
  have htarget : r.resolveTarget s name=r.base++[.normal name] := by
    rw [resolveTarget,hname.1.join,hfile]
    rfl
  have hmissing : s.fs.symlinkMetadata (r.base++[.normal name]) ≠ .ok .symlink := by
    intro hmeta
    obtain ⟨⟨⟩,hway,-⟩ := except_bind_eq_ok.1 hmeta
    have henter := Fs.walk_eq_ok.1 hway r.base (by rw [dropLast_concat]) hbase.ne_nil
    rw [Fs.enter,show s.fs.node r.base=none from hnone] at henter
    cases henter
  have hguard : r.guardPath (r.base++[.normal name])=pure () := guardPath_eq hbase [name]
  have hcheck := checkFile_does htarget hguard ⟨Bool.and_false _,hexpected,hfits⟩ hmissing
  -- the record is read, checked and acknowledged, and the directory above the file is made
  refine ⟨?_,s.mapFs (makeParent (r.base++[.normal name])),?_,.file mode size name,?_⟩
  rotate_left
  · refine (nextHeader_does hb hline hparse).turns.trans ?_
    refine (checkTopLevelName_does fun _ => hfilter).turns.trans ?_
    refine hcheck.turns_bind.trans ?_
    refine (send_does [0]).turns_bind.trans ?_
    exact (Prog.modify_does _ s).turns_bind
  · have hparent : Path.parent (r.base++[.normal name])=some r.base := by
      have hlen := length_pos_iff.2 hbase.ne_nil
      rw [Path.parent,if_neg (by rw [length_append,length_singleton]; omega),dropLast_concat]
    have hmade := Fs.createDir_eq_ok.2
      (show s.fs.walk r.base = .ok () ∧ s.fs.node r.base=none ∧ s.fs.mayCreate r.base = .ok () ∧ _
        from ⟨hwalk,hnone,hmay,rfl⟩)
    rw [RecvState.mapFs,makeParent,hparent]
    dsimp only
    rw [Fs.createDirAll,hmade]
    simp [s]

end Receiver

theorem Receiver.not_trailOk_base {r : Receiver} {trail : List Event} {h : Header} {l : List Event}
    (hfile : r.opts.targetIsFile=false) (htrail : trail=l++[.record h,.touch .created r.base]) :
    ¬r.TrailOk trail := by
  intro hok
  have hconf := hok (l++[.record h]) .created r.base [] (by rw [htrail]; simp)
  have hlen := congrArg length hconf.eq_spot
  have hpos := length_pos_iff.2 hconf.ne_nil
  rw [Receiver.spot,hfile,length_append,length_map] at hlen
  simp only [Bool.false_eq_true,if_false] at hlen
  omega

/- What `canonicalize` and the path's own name tell about the file system. -/
structure Destination.Describes (d : Destination) (fs : Fs) : Prop where
  found : ∀ p, d.canonical = .ok p → p.Canonical ∧ fs.node p≠none
  missing : d.canonical = .error .notFound → ∀ q name, d.parentCanonical = .ok q →
    d.fileName=some name → q.Canonical ∧ fs.HasDir q ∧ Proper name

theorem Destination.Describes.anchor {d : Destination} {fs : Fs} (h : d.Describes fs) {base : Path}
    (hanchor : d.anchor = .ok base) :
    base.Canonical ∧ (fs.HasDir base.dropLast ∨ fs.node base≠none) := by
  rw [Destination.anchor] at hanchor
  split at hanchor
  next p hp =>
    cases hanchor
    exact (h.found base hp).imp_right .inr
  next hp =>
    split at hanchor
    · cases hanchor
    next name hname =>
      split at hanchor
      next q hq =>
        cases hanchor
        obtain ⟨hcanon,hdir,hproper⟩ := h.missing hp q name hq hname
        rw [hproper.join,dropLast_concat]
        exact ⟨hcanon.append [name],.inl hdir⟩
      next => cases hanchor
  next => cases hanchor

/-- Whatever the peer sends, the receiver works at the paths of its records, exactly if nothing can
come into being above them: with `target_is_file`, where the base cannot be made, or where no file is
taken. -/
theorem receiver_confined_iff {r : Receiver} {fs : Fs} {d : Destination} (hwf : fs.WellFormed)
    (hd : d.Describes fs) (hanchor : d.anchor = .ok r.base) (htrail : fs.trail=[]) :
    (∀ p s, Prog.Reaches r.run { fs := fs } (p,s) → r.TrailOk s.fs.trail) ↔ r.Anchored fs := by
  obtain ⟨hbase,hrooted⟩ := hd.anchor hanchor
  constructor
  · intro hall
    by_contra hloose
    rw [Receiver.Anchored,not_or,not_or,not_not] at hloose
    obtain ⟨hfile,hmake,htakes⟩ := hloose
    cases hcreate : fs.createDir r.base with
    | error e => exact hmake ⟨e,hcreate⟩
    | ok fs' =>
      obtain ⟨p,s,hreach,h,hs⟩ :=
        Receiver.makes_base hbase (Bool.eq_false_iff.2 hfile) hcreate htakes
      exact Receiver.not_trailOk_base (Bool.eq_false_iff.2 hfile) hs (hall p s hreach)
  · intro hanchored p s hreach
    have hidle : r.Idle { fs := fs } := by
      refine ⟨?_,⟨hwf,hrooted,hanchored⟩,?_,?_,?_,?_⟩
      all_goals simp only [htrail]
      · exact eachTouch_nil
      · rfl
      · nofun
      · nofun
      · nofun
    exact (Prog.Safe.reaches (fun t ht => Receiver.run_safe ht) (fun _ hback => hback rfl) hidle
      hreach).inv

namespace Sample

/- A file system with nothing but its root. -/
def rootOnly : Fs where
  node p := if p=[.rootDir] then some (.dir 0o755) else none
  may _ _ := true
  umask := 0o022
  trail := []

theorem rootOnly_wellFormed : rootOnly.WellFormed := by
  intro p c hpc hp
  have hlen : (p++[c]).length=1 := by
    by_cases h : p++[c]=[.rootDir]
    · rw [h,length_singleton]
    · exact absurd (if_neg h) hpc
  rw [length_append,length_singleton] at hlen
  exact absurd (length_eq_zero_iff.1 (by omega)) hp

/- A destination that is there, and one that is not. -/
def found : Destination := ⟨.ok [.rootDir],none,.error .notFound⟩
def missing : Destination := ⟨.error .notFound,some (ascii "new"),.ok [.rootDir]⟩

theorem found_describes : found.Describes rootOnly where
  found p hp := by
    cases hp
    exact ⟨⟨[],rfl⟩,nofun⟩
  missing := nofun

def receiver (base : Path) : Receiver := { base := base, opts := ⟨false,false,false⟩ }

theorem takesFile (base : Path) : (receiver base).TakesFile := by
  refine ⟨0o644,0,ascii "f",⟨.c,ascii "0644 0 f",⟨by decide,by decide,by decide⟩,rfl⟩,
    nofun,nofun,?_⟩
  rintro cap -
  exact Nat.zero_le cap

end Sample

theorem receiver_confined_found :
    Sample.rootOnly.WellFormed ∧ Sample.found.Describes Sample.rootOnly ∧
      Sample.found.anchor = .ok (Sample.receiver [.rootDir]).base ∧
      ((∀ p s, Prog.Reaches (Sample.receiver [.rootDir]).run { fs := Sample.rootOnly } (p,s) →
        (Sample.receiver [.rootDir]).TrailOk s.fs.trail) ↔
          (Sample.receiver [.rootDir]).Anchored Sample.rootOnly) ∧
      (Sample.receiver [.rootDir]).Anchored Sample.rootOnly :=
  ⟨Sample.rootOnly_wellFormed,Sample.found_describes,rfl,
    receiver_confined_iff Sample.rootOnly_wellFormed Sample.found_describes rfl rfl,
    .inr (.inl ⟨.alreadyExists,rfl⟩)⟩

/-- A missing base is made as a directory, although the base is not asked for as a file. -/
theorem receiver_makes_missing_base : Sample.missing.anchor = .ok [.rootDir,.normal (ascii "new")] ∧
      ∃ p s h, Prog.Reaches (Sample.receiver [.rootDir,.normal (ascii "new")]).run
          { fs := Sample.rootOnly } (p,s) ∧
        s.fs.trail=[.record h,.touch .created [.rootDir,.normal (ascii "new")]] ∧
        ¬(Sample.receiver [.rootDir,.normal (ascii "new")]).TrailOk s.fs.trail := by
  refine ⟨rfl,?_⟩
  have hmade : ∃ fs, Sample.rootOnly.createDir [.rootDir,.normal (ascii "new")] = .ok fs :=
    ⟨_,rfl⟩
  obtain ⟨fs,hfs⟩ := hmade
  obtain ⟨p,s,hreach,h,hs⟩ := Receiver.makes_base (r := Sample.receiver _)
    ⟨[ascii "new"],rfl⟩ rfl hfs (Sample.takesFile _)
  exact ⟨p,s,h,hreach,hs,Receiver.not_trailOk_base rfl hs⟩

end PureSsh.Scp
