import PureSsh.Scp.Confinement
import PureSsh.Scp.Receiving

/-! A receiver that was asked for one file. -/

namespace PureSsh.Scp

open Lib

/- The records that a request for one file has no use for. -/
def Foul (name : Bytes) (before : List Event) : Header → Prop
  | .dir _ _ => True
  | .endDir => True
  | .file _ _ other => other≠name ∨ ∃ mode size m, Event.record (.file mode size m)∈before
  | .times _ _ => False

def Clean (name : Bytes) (trail : List Event) : Prop :=
  ∀ before h after, trail=before ++ .record h::after → ¬Foul name before h

/- Such a record has just been read. -/
def Doomed (name : Bytes) (trail : List Event) : Prop :=
  ∃ before h, trail=before++[.record h] ∧ Clean name before ∧ Foul name before h

section Trails

variable {name : Bytes} {trail : List Event} {h : Header}

theorem clean_nil : Clean name [] := by
  intro before h after htrail
  exact absurd htrail (by simp)

theorem Clean.snoc {e : Event} (hc : Clean name trail)
    (he : ∀ h, e = .record h → ¬Foul name trail h) : Clean name (trail++[e]) := by
  intro before h after htrail
  obtain ⟨rfl,hlast,-⟩ | ⟨rest,-,hrest⟩ := snoc_eq_append_cons htrail
  · exact he h hlast
  · exact hc before h rest hrest

theorem Clean.touches (hc : Clean name trail) (touches : List Touch) (p : Path) :
    Clean name (trail++touches.map (Event.touch · p)) := by
  induction touches generalizing trail with
  | nil => rwa [List.map_nil,List.append_nil]
  | cons t touches ih =>
    rw [List.map_cons,List.append_cons]
    exact ih (hc.snoc nofun)

theorem Clean.note (hc : Clean name trail) (h : Header) :
    Clean name (trail++[.record h]) ∨ Doomed name (trail++[.record h]) := by
  by_cases hfoul : Foul name trail h
  · exact .inr ⟨trail,h,rfl,hc,hfoul⟩
  · refine .inl (hc.snoc ?_)
    rintro _ ⟨⟩
    exact hfoul

theorem Doomed.not_clean (hd : Doomed name trail) : ¬Clean name trail := by
  obtain ⟨before,h,htrail,-,hfoul⟩ := hd
  exact fun hc => hc before h [] htrail hfoul

/-- A foul record is the last one. -/
theorem last_of_foul (horder : Clean name trail ∨ Doomed name trail) {before after : List Event}
    (htrail : trail=before ++ .record h::after) (hfoul : Foul name before h) :
    after=[] ∧ Doomed name trail := by
  rcases horder with hc | hd
  · exact absurd hfoul (hc before h after htrail)
  · refine ⟨?_,hd⟩
    obtain ⟨before',h',htrail',hc,-⟩ := hd
    rw [htrail'] at htrail
    obtain ⟨-,-,hafter⟩ | ⟨rest,-,hrest⟩ := snoc_eq_append_cons htrail
    · exact hafter
    · exact absurd hfoul (hc before h rest hrest)

end Trails

/-- What has come of a request for `name`: nothing was touched but that file. -/
structure OneFile (r : Receiver) (name : Bytes) (start fs : Fs) : Prop where
  touches : EachTouch (fun pl p => p=r.spot [name] ∧ pl.file=some name) fs.trail
  regular : (∃ what p, Event.touch what p∈fs.trail) → fs.Has .file (r.spot [name])
  frame : ∀ p, p≠r.spot [name] → fs.node p=start.node p
  ordered : Clean name fs.trail ∨ Doomed name fs.trail

namespace OneFile

variable {r : Receiver} {name : Bytes} {start fs fs' : Fs}

theorem note (h : OneFile r name start fs) (hc : Clean name fs.trail) (hd : Header) :
    OneFile r name start (fs.note (.record hd)) where
  touches := h.touches.snoc nofun
  regular := by
    rintro ⟨what,p,hin⟩
    rcases List.mem_append.1 hin with hin | hin
    · exact h.regular ⟨what,p,hin⟩
    · exact absurd (List.mem_singleton.1 hin) nofun
  frame := h.frame
  ordered := hc.note hd

theorem works (h : OneFile r name start fs) (hc : Clean name fs.trail)
    (hplace : (place fs.trail).file=some name) (hw : Fs.FileWorks (r.spot [name]) fs fs') :
    OneFile r name start fs' ∧ Clean name fs'.trail := by
  obtain ⟨touches,htrail⟩ := hw.trail_eq
  have hclean : Clean name fs'.trail := htrail ▸ hc.touches touches _
  refine ⟨⟨htrail ▸ h.touches.touches ⟨rfl,hplace⟩ touches,?_,?_,.inl hclean⟩,hclean⟩
  · intro htouch
    rcases hw.touched with hsame | hfile
    · exact hw.has (h.regular (hsame ▸ htouch))
    · exact hfile
  · intro p hp
    rw [hw.frame p hp,h.frame p hp]

end OneFile

namespace Receiver

variable {r : Receiver} {name : Bytes} {start : Fs} {s : RecvState}

def singleBounds (r : Receiver) (name : Bytes) (start : Fs) : Prog.Bounds RecvState where
  inv s := OneFile r name start s.fs
  reads s := Clean name s.fs.trail
  moves s t := Doomed name s.fs.trail → Doomed name t.fs.trail

/- The receiver between two records, none of which was foul. -/
structure Waiting (r : Receiver) (name : Bytes) (start : Fs) (s : RecvState) : Prop where
  one : OneFile r name start s.fs
  clean : Clean name s.fs.trail
  grounded : r.Grounded s.fs
  stack_eq : s.stack=[]
  fresh : s.receivedOne=false → ∀ mode size m, Event.record (.file mode size m)∉s.fs.trail

/-- A file record is refused, or is the one that was asked for. -/
theorem recvFile_waiting (h : r.Waiting name start s)
    (hname : r.expectedName.map baseName=some name) {mode size : Nat} {other : Bytes}
    (hrec : Received (.file mode size other))
    (hfilter : ∀ filter∈r.topLevelFilter, filter other=true) :
    (r.recvFile mode size other).Safe (r.singleBounds name start)
      (fun _ t => r.Waiting name start t)
      (s.mapFs fun fs => fs.note (.record (.file mode size other))) := by
  have hone := h.one.note h.clean (.file mode size other)
  have hvalid : validateName other = .ok () := by
    obtain ⟨kind,line,-,hparse⟩ := hrec
    exact validateName_of_parseHeader hparse rfl
  generalize ht : s.mapFs (fun fs => fs.note (.record (.file mode size other)))=t
  have htrail : t.fs.trail=s.fs.trail++[.record (.file mode size other)] := by rw [← ht]; rfl
  have hstack : t.stack=r.stackOf [] := by
    rw [← ht]
    exact h.stack_eq
  have hone' : OneFile r name start t.fs := by
    rw [← ht]
    exact hone
  have hground : r.Grounded t.fs := by
    rw [← ht]
    exact h.grounded.note _
  have htarget : r.resolveTarget t other=r.spot [other] :=
    resolveTarget_eq hstack (proper_of_validateName hvalid).1
  -- what follows once the checks are passed
  have hpassed : r.Admits t size other →
      other=name ∧ Clean name t.fs.trail ∧ (place t.fs.trail).file=some name := by
    intro hadmits
    obtain ⟨expected,hexpected,hbase⟩ := Option.map_eq_some_iff.1 hname
    have hother : other=name := (hadmits.expected expected hexpected).trans hbase
    have hfresh : s.receivedOne=false := by
      have hsingle := hadmits.single
      rw [hexpected] at hsingle
      rw [← hsingle,← ht]
      rfl
    refine ⟨hother,?_,?_⟩
    · rw [htrail]
      refine h.clean.snoc ?_
      rintro _ ⟨⟩ (hne | ⟨mode,size,m,hin⟩)
      · exact hne hother
      · exact h.fresh hfresh mode size m hin
    · rw [htrail,place_snoc,← hother]
      rfl
  refine (recvFile_safe hone' (fun hd => hd) mode size other fun hadmits => ?_).mono ?_
  · obtain ⟨rfl,hclean,hplace⟩ := hpassed hadmits
    rw [htarget]
    refine ⟨⟨fun u hu => ?_,fun u hu => ?_,fun u v hu _ hd => ?_⟩,?_⟩
    · exact (hone'.works hclean hplace hu.works).1
    · exact (hone'.works hclean hplace hu.works).2
    · exact absurd (hone'.works hclean hplace hu.works).2 hd.not_clean
    · exact hground.makeParent_eq ⟨mode,size,other,hrec,hfilter,hadmits.expected,hadmits.fits⟩
  · rintro _ u-⟨hbusy,hadmits,hdone⟩
    obtain ⟨rfl,hclean,hplace⟩ := hpassed hadmits
    rw [htarget] at hbusy
    obtain ⟨hone'',hclean'⟩ := hone'.works hclean hplace hbusy.works
    refine ⟨hone'',hclean',hground.works (by simp) hbusy.works.toWorks,?_,?_⟩
    · rw [hbusy.stack_eq,hstack]
      rfl
    · rw [hdone]
      nofun

section Rounds

variable (hname : r.expectedName.map baseName=some name) (hflat : r.opts.recursive=false)
include hname hflat

theorem dispatch_waiting (h : r.Waiting name start s) {hd : Header} (hrec : Received hd) :
    (r.dispatch hd).Safe (r.singleBounds name start) (fun _ t => r.Waiting name start t)
      (s.mapFs fun fs => fs.note (.record hd)) := by
  have hone := h.one.note h.clean hd
  cases hd with
  | times mtime atime =>
    have hclean : Clean name (s.fs.note (.record (.times mtime atime))).trail := by
      refine h.clean.snoc ?_
      rintro _ ⟨⟩
      exact id
    refine Prog.Safe.bind (Q := fun _ t => t = { s with
        fs := s.fs.note (.record (.times mtime atime)), pendingTimes := some (mtime,atime) })
      ⟨hone,fun hd => hd,hone,rfl⟩ ?_
    rintro _ t ht rfl
    refine (send_safe ht [0]).bind ?_
    rintro _ _ ht rfl
    refine ⟨ht,ht,hclean,h.grounded.note _,h.stack_eq,?_⟩
    intro hfresh mode size m hin
    rcases List.mem_append.1 hin with hin | hin
    · exact h.fresh hfresh mode size m hin
    · exact absurd (List.mem_singleton.1 hin) nofun
  | endDir =>
    refine (get_safe hone (fun hd => hd)).bind ?_
    rintro _ t ht ⟨rfl,rfl⟩
    rw [if_pos]
    · exact refuse_safe ht _ _
    · exact List.isEmpty_iff.2 h.stack_eq
  | dir mode other =>
    rw [dispatch,hflat]
    exact refuse_safe hone _ _
  | file mode size other =>
    refine (checkTopLevelName_safe hone (fun hd => hd) other).bind ?_
    rintro _ _-⟨rfl,hfilter⟩
    refine (recvFile_waiting h hname hrec (hfilter h.stack_eq)).bind ?_
    exact fun _ t ht hwait => ⟨ht,hwait⟩

theorem run_waiting (h : r.Waiting name start s) :
    r.run.Safe (r.singleBounds name start) (fun _ t => r.Waiting name start t) s := by
  have hnote : ∀ hd, Received hd → OneFile r name start (s.fs.note (.record hd)) ∧
      (Doomed name s.fs.trail → Doomed name (s.fs.note (.record hd)).trail) :=
    fun hd _ => ⟨h.one.note h.clean hd,fun hdoom => absurd h.clean hdoom.not_clean⟩
  refine (nextHeader_safe h.one h.clean hnote).bind ?_
  rintro (_ | hd) t ht hres
  · obtain rfl := hres.1 rfl
    exact ⟨ht,h⟩
  · obtain ⟨hrec,rfl⟩ := hres.2 hd rfl
    exact dispatch_waiting hname hflat h hrec

end Rounds

end Receiver

/-- Whatever the peer sends, a request for one file touches that file at most, and the first record
that is not the one asked for ends the run with an error. -/
theorem single_file_request {r : Receiver} {fs : Fs} {d : Destination} {name : Bytes}
    (hwf : fs.WellFormed) (hd : d.Describes fs) (hanchor : d.anchor = .ok r.base)
    (htrail : fs.trail=[]) (hname : r.expectedName.map Receiver.baseName=some name)
    (hflat : r.opts.recursive=false)
    (hbase : r.opts.targetIsFile=true ∨ ∃ e, fs.createDir r.base = .error e)
    {p : ScpProg RecvState (Option Unit)} {s : RecvState} (hreach : Prog.Reaches r.run { fs := fs } (p,s)) :
    (∀ q, q≠r.spot [name] → s.fs.node q=fs.node q) ∧
      EachTouch (fun pl q => q=r.spot [name] ∧ pl.file=some name) s.fs.trail ∧
      ((∃ what q, Event.touch what q∈s.fs.trail) → s.fs.Has .file (r.spot [name])) ∧
      ∀ before h after, s.fs.trail=before ++ .record h::after → Foul name before h →
        after=[] ∧ p.Ends s := by
  have hstart : r.Waiting name fs { fs := fs } := by
    refine ⟨⟨?_,?_,fun _ _ => rfl,.inl ?_⟩,?_,
      ⟨hwf,(hd.anchor hanchor).2,hbase.imp_right .inl⟩,rfl,fun _ => ?_⟩
    all_goals simp only [htrail]
    · exact eachTouch_nil
    · simp
    · exact clean_nil
    · exact clean_nil
    · simp
  have hsafe := Prog.Safe.reaches (fun t ht => Receiver.run_waiting hname hflat ht)
    (fun _ ht => ht) hstart hreach
  have hone : OneFile r name fs s.fs := hsafe.inv
  refine ⟨hone.frame,hone.touches,hone.regular,fun before h after hsplit hfoul => ?_⟩
  obtain ⟨hafter,hdoomed⟩ := last_of_foul hone.ordered hsplit hfoul
  refine ⟨hafter,hsafe.ends (D := fun s => Doomed name s.fs.trail) ?_ ?_ ?_ hdoomed⟩
  · exact fun s hs hread => hs.not_clean hread
  · exact fun _ s hwait hs => hs.not_clean hwait.clean
  · exact fun s t hmove hs => hmove hs

namespace Sample

/- A request for the file `f` below the root. -/
def request (recursive : Bool) : Receiver :=
  { base := [.rootDir], opts := ⟨recursive,false,false⟩, expectedName := some (ascii "f") }

end Sample

theorem single_file_request_found :
    Sample.rootOnly.WellFormed ∧ Sample.found.Describes Sample.rootOnly ∧
      Sample.found.anchor = .ok (Sample.request false).base ∧
      ((Sample.request false).opts.targetIsFile=true ∨
        ∃ e, Sample.rootOnly.createDir (Sample.request false).base = .error e) ∧
      ∀ p s, Prog.Reaches (Sample.request false).run { fs := Sample.rootOnly } (p,s) →
        ∀ q, q≠[.rootDir,.normal (ascii "f")] → s.fs.node q=Sample.rootOnly.node q := by
  have hbase : ∃ e, Sample.rootOnly.createDir (Sample.request false).base = .error e :=
    ⟨.alreadyExists,rfl⟩
  refine ⟨Sample.rootOnly_wellFormed,Sample.found_describes,rfl,.inr hbase,?_⟩
  intro p s hreach
  exact (single_file_request Sample.rootOnly_wellFormed Sample.found_describes rfl rfl rfl rfl
    (.inr hbase) hreach).1

/-- With `-r` a directory record is followed, although one file was asked for. -/
theorem single_file_request_takes_dir :
    ∃ s, Prog.Reaches (Sample.request true).run { fs := Sample.rootOnly }
        ((Sample.request true).run,s) ∧
      Sample.rootOnly.node [.rootDir,.normal (ascii "d")]=none ∧
      s.fs.node [.rootDir,.normal (ascii "d")]=some (.dir 0o755) := by
  have hw : (Header.dir 0o755 (ascii "d")).Writable :=
    ⟨by decide,by decide,rfl,by decide⟩
  have hfree : Sample.rootOnly.Free [.rootDir,.normal (ascii "d")] := by
    refine ⟨rfl,rfl,fun q => ?_⟩
    simp [Sample.rootOnly]
  have htarget : (Sample.request true).resolveTarget { fs := Sample.rootOnly } (ascii "d") =
      [.rootDir,.normal (ascii "d")] := rfl
  have hguard : (Sample.request true).guardPath [.rootDir,.normal (ascii "d")]=pure () :=
    Receiver.guardPath_eq ⟨[],rfl⟩ [ascii "d"]
  obtain ⟨s,hdoes,hputs⟩ :=
    Receiver.run_dir_does hw rfl rfl htarget hguard hfree (List.cons_ne_nil _ _) rfl
  refine ⟨s,hdoes.round,hfree.node,?_⟩
  rw [hputs.node]
  rfl

end PureSsh.Scp
