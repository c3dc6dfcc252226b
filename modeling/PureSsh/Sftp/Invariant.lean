import PureSsh.Lib.Assoc
import PureSsh.Sftp.Session

/-! The handlers keep what each call keeps: a property of sessions is proved of the few things that a
call does, and holds along every request. -/

namespace PureSsh.Sftp
open Lib Scp Proc
open Proc (Guards)

/- A target that leads from the directory of the link to places below it. -/
def Downward (target : Bytes) : Prop :=
  isAbsolute target=false ∧ Component.parentDir∉components target

def FileHandle.place : FileHandle → Names
  | .file place _ _ _ => place
  | .dir place _ _ _ => place

/- The world after `alloc_handle`. -/
def World.alloc (w : World) (h : FileHandle) : World :=
  let id := freeId (w.handles.map Prod.fst) w.handles.length w.next
  { w with handles := (id,h)::w.handles, next := max 1 ((id+1)%2^64) }

/- An RMDIR of the path takes the directory at `place` away. -/
structure Removes (policy : Policy) (opts : Options) (w : World) (path : Bytes) (place : Names) :
    Prop where
  writable : opts.readOnly=false
  found : ∃ p, resolve opts.cwd path opts.root = .ok p ∧ locate w.fs false p = .ok place
  allowed : (opts.root.isSome=true → policy .stat place=none) ∧ policy .rmdir place=none
  empty : w.fs.node place=some .dir ∧ w.fs.children place=[]
  notRoot : place≠[]

/-- What the calls keep. `Path` are the paths they are made with and `Place` the places these lead to;
only a session that may write changes anything. What becomes of links and removed directories is left
to `dispatch_keeps`. -/
structure Preserved (opts : Options) (Inv : World → Prop) (Path Place : Names → Prop) : Prop where
  locate : ∀ {w follow p q}, Inv w → Path p → locate w.fs follow p = .ok q → Place q
  touch : ∀ {w q}, Inv w → Place q → Inv { w with trail := w.trail++[q] }
  edit : ∀ {w q}, opts.readOnly=false → Inv w → Place q →
    Inv { w with trail := w.trail++[q], edits := w.edits++[q] }
  unlink : ∀ {w q n}, opts.readOnly=false → Inv w → Place q → w.fs.node q=some n → n ≠ .dir →
    Inv { w with fs := w.fs.erase q }
  newFile : ∀ {w q}, opts.readOnly=false → Inv w → Place q → w.fs.node q=none → Inv { w with
    fs := { w.fs.put q (.file w.fs.nextIno) with nextIno := w.fs.nextIno+1 } }
  newDir : ∀ {w q}, opts.readOnly=false → Inv w → Place q → w.fs.node q=none →
    Inv { w with fs := w.fs.put q .dir }
  copy : ∀ {w p src q n}, opts.readOnly=false → Inv w → Path p → Sftp.locate w.fs false p = .ok src →
    w.fs.node src=some n → n ≠ .dir → Place q → w.fs.node q=none →
    Inv { w with fs := w.fs.put q n }
  move : ∀ {w src dst}, opts.readOnly=false → Inv w → Place src → Place dst → ¬src <+: dst → ¬dst <+: src →
    Inv { w with fs := w.fs.move src dst }
  resolve : ∀ {raw p}, resolve opts.cwd raw opts.root = .ok p → Path p
  handle : ∀ {w id h}, Inv w → w.handles.lookup id=some h → Place h.place ∧ Path h.path
  alloc : ∀ {w h}, Inv w → Place h.place → Path h.path → w.handles.length<opts.maxHandles →
    Inv (w.alloc h)
  close : ∀ {w id}, Inv w → Inv { w with handles := w.handles.filter fun e => !decide (e.1=id) }
  readdir : ∀ {w id h}, Inv w → Place h.place → Path h.path →
    Inv { w with handles := w.handles.map fun e => if e.1=id then (id,h) else e }

section Calls
variable {opts : Options} {Inv : World → Prop} {Path Place : Names → Prop} {policy : Policy}
  {p q : Names} {α : Type}

theorem ioError_guards (e : IoErrorKind) {Q : α → Prop} : Guards Inv (ioError e) Q := .of_fail _

theorem permit_guards (call : Call) (q : Names) : Guards Inv (permit policy call q) := by
  rw [permit]
  split
  · exact ioError_guards _
  · exact .of_pure trivial

theorem nodeAt_guards (q : Names) : Guards Inv (nodeAt q) :=
  .get_bind fun _ _ => .of_pure trivial

theorem succeeds_guards (x : Handler α) : Guards Inv (succeeds x) := by
  intro w hw
  rw [succeeds]
  split <;> exact ⟨hw,fun _ _ => trivial⟩

/-- Only an open for writing can make or truncate a file. -/
theorem How.forWriting_of_valid {how : How} (h : how.valid=true)
    (halters : how.truncate=true ∨ (how.create || how.createNew)=true) :
    how.forWriting=true := by
  rw [How.valid] at h
  rw [How.forWriting]
  cases happend : how.append with
  | true => exact Bool.or_true _
  | false =>
    grind

/-- A call finds its object, may be refused, and goes on by what stands there. -/
theorem call_rule {follow : Bool} {call : Call} {f : Names → Option Node → Handler α} {w : World}
    {Q : Except SftpError α × World → Prop}
    (hfail : (∀ q, locate w.fs follow p = .ok q → policy call q≠none) → ∀ e, Q (.error e,w))
    (hf : ∀ q, locate w.fs follow p = .ok q → policy call q=none → Q (f q (w.fs.node q) w)) :
    Q ((do
      let place ← find follow p
      permit policy call place
      f place (← nodeAt place)) w) := by
  rw [find,bind_apply,get_bind]
  cases hloc : locate w.fs follow p with
  | error e => exact hfail (by simp [hloc]) _
  | ok q =>
    simp only [Except.mapError,lift_apply,permit]
    cases hpolicy : policy call q with
    | some e => exact hfail (by simp [hloc,hpolicy]) _
    | none => exact hf q hloc hpolicy

variable (hk : Preserved opts Inv Path Place)
include hk

theorem find_guards (follow : Bool) (hp : Path p) : Guards Inv (find follow p) Place := by
  refine .get_bind fun w hw => .of_lift fun q hq => ?_
  cases hloc : locate w.fs follow p with
  | error e => simp [hloc,Except.mapError] at hq
  | ok q' =>
    simp only [hloc,Except.mapError,Except.ok.injEq] at hq
    exact hq ▸ hk.locate hw hp hloc

theorem touch_guards (hq : Place q) : Guards Inv (touch q) :=
  .of_modify fun _ hw => hk.touch hw hq

theorem edit_guards (h : opts.readOnly=false) (hq : Place q) : Guards Inv (edit q) :=
  .of_modify fun _ hw => hk.edit h hw hq

theorem call_guards (follow : Bool) (call : Call) (hp : Path p)
    {f : Names → Option Node → Handler α} {Q : α → Prop}
    (hf : ∀ q n, Place q → Guards Inv (f q n) Q) : Guards Inv (do
      let place ← find follow p
      permit policy call place
      f place (← nodeAt place)) Q :=
  fun w hw => call_rule (Q := fun r => Inv r.2 ∧ ∀ a, r.1 = .ok a → Q a) (fun _ _ => ⟨hw,nofun⟩)
    fun q hloc _ => hf q _ (hk.locate hw hp hloc) w hw

theorem stat_guards (follow : Bool) (hp : Path p) : Guards Inv (stat policy follow p) := by
  refine call_guards hk follow .stat hp fun q n _ => ?_
  cases n with
  | some n => exact .of_pure trivial
  | none => exact ioError_guards _

theorem openFile_guards {how : How} (h : how.forWriting=true → opts.readOnly=false) (hp : Path p) :
    Guards Inv (openFile policy how p) fun r => Place r.1 := by
  rw [openFile]
  split
  · exact ioError_guards _
  next hvalid =>
  have halters := @How.forWriting_of_valid how (by simpa using hvalid)
  intro w hw
  refine call_rule (Q := fun r => Inv r.2 ∧ ∀ a : Names × Option Nat, r.1 = .ok a → Place a.1)
    (fun _ _ => ⟨hw,nofun⟩) fun q hloc _ => ?_
  have hq := hk.locate hw hp hloc
  match hnode : w.fs.node q with
  | some (.link _) => exact ioError_guards _ w hw
  | some .dir =>
    refine Guards.ite (ioError_guards _) (.ite (ioError_guards _) ?_) w hw
    exact (touch_guards hk hq).bind fun _ _ => .of_pure hq
  | some (.file ino) =>
    refine Guards.ite (ioError_guards _) ?_ w hw
    split
    · next ht => exact (edit_guards hk (h (halters (.inl ht))) hq).bind fun _ _ => .of_pure hq
    · exact (touch_guards hk hq).bind fun _ _ => .of_pure hq
  | none =>
    dsimp only
    split
    · next hcreate =>
      refine ⟨hk.touch (hk.newFile (h (halters (.inr hcreate))) hw hq hnode) hq,?_⟩
      rintro a ⟨⟩
      exact hq
    · exact ioError_guards _ w hw

theorem removeFile_guards (h : opts.readOnly=false) (hp : Path p) :
    Guards Inv (removeFile policy p) := by
  refine fun w hw => ⟨?_,fun _ _ => trivial⟩
  refine call_rule (Q := (Inv ·.2)) (fun _ _ => hw) fun q hloc _ => ?_
  have hq := hk.locate hw hp hloc
  match hnode : w.fs.node q with
  | none => exact hw
  | some .dir => exact hw
  | some (.file ino) => exact hk.touch (hk.unlink h hw hq hnode (by simp)) hq
  | some (.link target) => exact hk.touch (hk.unlink h hw hq hnode (by simp)) hq

/-- A new object, of which only the one change has to be looked at that it makes. -/
theorem create_keeps {call : Call} {n : Node} {w : World} (hw : Inv w) (hp : Path p)
    (hput : ∀ q, Place q → w.fs.node q=none → Inv { w with fs := w.fs.put q n }) :
    Inv (create policy call n p w).2 := by
  refine call_rule (Q := (Inv ·.2)) (fun _ _ => hw) fun q hloc _ => ?_
  have hq := hk.locate hw hp hloc
  cases hnode : w.fs.node q with
  | some n => exact hw
  | none => exact hk.touch (hput q hq hnode) hq

theorem createDir_guards (h : opts.readOnly=false) (hp : Path p) :
    Guards Inv (createDir policy p) :=
  fun _ hw => ⟨create_keeps hk hw hp fun _ hq hfree => hk.newDir h hw hq hfree,fun _ _ => trivial⟩

theorem hardLink_guards (h : opts.readOnly=false) {p' : Names} (hp : Path p) (hp' : Path p') :
    Guards Inv (hardLink policy p p') := by
  refine fun w hw => ⟨?_,fun _ _ => trivial⟩
  refine call_rule (Q := (Inv ·.2)) (fun _ _ => hw) fun src hloc _ => ?_
  have hlink : ∀ n, w.fs.node src=some n → n ≠ .dir →
      Inv ((create policy .link n p' >>= fun _ => touch src) w).2 := by
    intro n hnode hn
    have hkeep := @create_keeps _ _ _ _ policy _ hk .link _ _ hw hp'
      fun q hq hfree => hk.copy h hw hp hloc hnode hn hq hfree
    rw [bind_apply]
    rcases hcreate : create policy .link n p' w with ⟨_ | _,w'⟩
    · rw [hcreate] at hkeep
      exact hkeep
    · rw [hcreate] at hkeep
      exact hk.touch hkeep (hk.locate hw hp hloc)
  match hnode : w.fs.node src with
  | none => exact hw
  | some .dir => exact hw
  | some (.file ino) => exact hlink _ hnode (by simp)
  | some (.link target) => exact hlink _ hnode (by simp)

theorem rename_guards (h : opts.readOnly=false) {p' : Names} (hp : Path p) (hp' : Path p') :
    Guards Inv (rename policy p p') := by
  refine (find_guards hk _ hp).bind fun src hsrc => (find_guards hk _ hp').bind fun dst hdst => ?_
  refine (permit_guards _ src).bind fun _ _ => (permit_guards _ dst).bind fun _ _ => ?_
  refine (nodeAt_guards src).bind fun n _ => ?_
  cases n with
  | none => exact ioError_guards _
  | some n =>
    refine .get_bind fun w _ => .ite (.of_pure trivial) ?_
    split
    · exact ioError_guards _
    next hapart =>
    rw [ List.isPrefixOf_iff_prefix, List.isPrefixOf_iff_prefix,not_or] at hapart
    split
    · exact ioError_guards _
    · refine (Guards.of_modify fun _ hw => hk.move h hw hsrc hdst hapart.1 hapart.2).bind fun _ _ => ?_
      exact (touch_guards hk hsrc).bind fun _ _ => touch_guards hk hdst

theorem readDir_guards (hp : Path p) : Guards Inv (readDir policy p) fun r => Place r.1 := by
  refine call_guards hk _ .readDir hp fun q n hq => ?_
  match n with
  | some .dir => exact (touch_guards hk hq).bind fun _ _ => .get_bind fun w _ => .of_pure hq
  | some (.file _) | some (.link _) => exact ioError_guards _
  | none => exact ioError_guards _

theorem setAttr_guards (h : opts.readOnly=false) (call : Call) (follow : Bool) (hp : Path p) :
    Guards Inv (setAttr policy call follow p) := by
  refine call_guards hk _ call hp fun q n hq => ?_
  cases n with
  | some n => exact edit_guards hk h hq
  | none => exact ioError_guards _

theorem readLink_guards (hp : Path p) : Guards Inv (readLink policy p) := by
  refine call_guards hk _ .readlink hp fun q n hq => ?_
  match n with
  | some (.link _) => exact .of_pure trivial
  | some .dir | some (.file _) => exact ioError_guards _
  | none => exact ioError_guards _

end Calls

section Handlers
variable {Inv : World → Prop} {Path Place : Names → Prop} {policy : Policy} {opts : Options}
  {p q : Names} {α : Type}

theorem failStatus_guards (code : FxpStatus) (message : String) {Q : α → Prop} :
    Guards Inv (failStatus code message) Q := .of_fail _

theorem requireWritable_guards : Guards Inv (requireWritable opts) fun _ => opts.readOnly=false := by
  rw [requireWritable]
  split
  · exact failStatus_guards _ _
  · next h => exact .of_pure (Bool.eq_false_iff.2 h)

theorem mapOpenErr_guards {x : Handler α} {Q : α → Prop} (hx : Guards Inv x Q) :
    Guards Inv (mapOpenErr x) Q := by
  intro w hw
  obtain ⟨hw',hQ⟩ := hx w hw
  rw [mapOpenErr]
  split
  · next w'' heq =>
    rw [heq] at hw'
    refine ⟨hw',?_⟩
    rintro a ⟨⟩
  · exact ⟨hw',hQ⟩

theorem rejectSymlink_cases (policy : Policy) (opts : Options) {w : World}
    (hloc : locate w.fs false p = .ok q) : rejectSymlinkWhenJailed policy opts p w=(.ok (),w) ∧
      (opts.root.isSome=true → policy .stat q=none) ∨
    ∃ e, rejectSymlinkWhenJailed policy opts p w=(.error e,w) ∧
      ((opts.root.isSome=true → policy .stat q=none) → w.fs.node q≠some .dir) := by
  rw [rejectSymlinkWhenJailed]
  cases hroot : opts.root.isSome with
  | false => exact .inl ⟨rfl,nofun⟩
  | true =>
    rw [if_pos rfl,stat,find]
    simp only [bind_apply,get_apply,hloc,Except.mapError,lift_apply,permit]
    cases hstat : policy .stat q with
    | some e => exact .inr ⟨_,rfl,by simp⟩
    | none =>
      simp only [nodeAt,bind_apply,get_apply,pure_apply]
      cases hnode : w.fs.node q with
      | none => exact .inr ⟨_,rfl,by simp⟩
      | some n => cases n with
        | link target => exact .inr ⟨_,rfl,by simp⟩
        | dir | file ino => exact .inl ⟨rfl,fun _ => trivial⟩

theorem removeDir_cases (policy : Policy) {w : World} (hloc : locate w.fs false p = .ok q) :
    removeDir policy p w=(.ok (),{ w with fs := w.fs.erase q, trail := w.trail++[q] }) ∧
      policy .rmdir q=none ∧ (w.fs.node q=some .dir ∧ w.fs.children q=[]) ∧ q≠[] ∨
    ∃ e, removeDir policy p w=(.error e,w) ∧
      ¬(policy .rmdir q=none ∧ (w.fs.node q=some .dir ∧ w.fs.children q=[]) ∧ q≠[]) := by
  rw [removeDir,find]
  simp only [bind_apply,get_apply,hloc,Except.mapError,lift_apply,permit]
  cases hpolicy : policy .rmdir q with
  | some e => exact .inr ⟨_,rfl,by simp⟩
  | none =>
    simp only [nodeAt,bind_apply,get_apply,pure_apply]
    cases hnode : w.fs.node q with
    | none => exact .inr ⟨_,rfl,by simp⟩
    | some n => cases n with
      | link target | file ino => exact .inr ⟨_,rfl,by simp⟩
      | dir =>
        by_cases hbusy : q=[] ∨ w.fs.children q≠[]
        · refine .inr ⟨.io .other,?_,fun h => hbusy.elim h.2.2 fun hne => hne h.2.1.2⟩
          simp only [bind_apply,get_apply,if_pos hbusy]
          rfl
        · rw [not_or,not_not] at hbusy
          refine .inl ⟨?_,trivial,⟨rfl,hbusy.2⟩,hbusy.1⟩
          simp only [bind_apply,get_apply,hbusy,ne_eq,not_true,or_self,if_false]
          rfl

theorem opRmdir_cases (policy : Policy) (opts : Options) (path : Bytes) (w : World) :
    (∃ place, Removes policy opts w path place ∧ (opRmdir policy opts path w).2 =
      { w with fs := w.fs.erase place, trail := w.trail++[place] }) ∨
    (∀ place, ¬Removes policy opts w path place) ∧ (opRmdir policy opts path w).2=w := by
  rw [opRmdir,requireWritable]
  split
  · next hread => exact .inr ⟨fun place h => by simp [h.writable] at hread,rfl⟩
  next hread =>
  rw [pure_bind,resolvePath]
  cases hres : resolve opts.cwd path opts.root with
  | error e =>
    refine .inr ⟨fun place h => ?_,rfl⟩
    obtain ⟨p,hp,-⟩ := h.found
    cases hres.symm.trans hp
  | ok p =>
    rw [lift_ok_bind]
    have hplace : ∀ place, Removes policy opts w path place → locate w.fs false p = .ok place := by
      intro place h
      obtain ⟨p',hp,hloc⟩ := h.found
      cases hres.symm.trans hp
      exact hloc
    cases hloc : locate w.fs false p with
    | error e =>
      refine .inr ⟨fun place h => ?_,?_⟩
      · cases hloc.symm.trans (hplace place h)
      rw [rejectSymlinkWhenJailed,stat,removeDir,find]
      cases opts.root.isSome <;> simp [bind_apply,hloc,Except.mapError,lift_apply]
    | ok q =>
      obtain ⟨hreject,hstat⟩ | ⟨e,hreject,hno⟩ := rejectSymlink_cases policy opts hloc
      · rw [bind_of_ok hreject]
        obtain ⟨hdir,hrmdir,hempty,hne⟩ | ⟨e,hdir,hno⟩ := removeDir_cases policy hloc
        · rw [bind_of_ok hdir]
          exact .inl ⟨q,⟨Bool.eq_false_iff.2 hread,⟨p,hres,hloc⟩,⟨hstat,hrmdir⟩,hempty,hne⟩,rfl⟩
        · rw [bind_of_error hdir]
          refine .inr ⟨fun place h => ?_,rfl⟩
          cases hloc.symm.trans (hplace place h)
          exact hno ⟨h.allowed.2,h.empty,h.notRoot⟩
      · rw [bind_of_error hreject]
        refine .inr ⟨fun place h => ?_,rfl⟩
        cases hloc.symm.trans (hplace place h)
        exact hno h.allowed.1 h.empty.1

theorem onlyIf_guards {c : Bool} {x : Handler Unit} (hx : Guards Inv x fun _ => True) :
    Guards Inv (onlyIf c x) :=
  .ite hx (.of_pure trivial)

variable (hk : Preserved opts Inv Path Place)
include hk

theorem resolvePath_guards (raw : Bytes) : Guards Inv (resolvePath opts raw) Path :=
  .of_lift fun _ hp => hk.resolve hp

theorem rejectSymlink_guards (hp : Path p) :
    Guards Inv (rejectSymlinkWhenJailed policy opts p) := by
  refine .ite ((stat_guards hk _ hp).bind fun n _ => ?_) (.of_pure trivial)
  cases n with
  | link t => exact .of_fail _
  | dir | file ino => exact .of_pure trivial

theorem allocHandle_guards {h : FileHandle} (hplace : Place h.place) (hpath : Path h.path) :
    Guards Inv (allocHandle opts h) := by
  refine .get_bind fun w hw => ?_
  split
  · exact failStatus_guards _ _
  · next hfree =>
    exact (Guards.of_set (hk.alloc hw hplace hpath (Nat.not_le.1 hfree))).last

theorem getHandle_guards (id : Nat) :
    Guards Inv (getHandle id) fun h => Place h.place ∧ Path h.path := by
  refine .get_bind fun w hw => ?_
  cases hl : w.handles.lookup id with
  | none => exact failStatus_guards _ _
  | some h => exact .of_pure (hk.handle hw hl)

section Attributes
variable (h : opts.readOnly=false)
include h

theorem applyModeJailed_guards (hp : Path p) : Guards Inv (applyModeJailed policy p) := by
  refine fun w hw => ⟨?_,fun _ _ => trivial⟩
  have hno : (⟨true,false,false,false,false,false,true⟩ : How).forWriting=true →
      opts.readOnly=false := fun _ => h
  obtain ⟨hw',hplace⟩ := @openFile_guards _ _ _ _ policy _ hk _ hno hp w hw
  rw [applyModeJailed]
  split
  · next place ino w'' heq =>
    rw [heq] at hw' hplace
    exact (((permit_guards .chmod place).bind fun _ _ =>
      edit_guards hk h (hplace _ rfl)) w'' hw').1
  · next w'' heq =>
    rw [heq] at hw'
    exact hw'
  · next w'' _ heq =>
    rw [heq] at hw'
    refine ((stat_guards hk false hp).bind (R := fun _ => True) (fun n _ => ?_) w'' hw').1
    cases n with
    | link t => exact .of_fail _
    | dir | file ino => exact setAttr_guards hk h _ _ hp

theorem applySize_guards (hp : Path p) (jailed : Bool) (size : Option Nat) :
    Guards Inv (applySize policy opts p jailed size) := by
  cases size with
  | none => exact .of_pure trivial
  | some size =>
    refine .ite (failStatus_guards _ _) ?_
    exact (mapOpenErr_guards (openFile_guards hk (fun _ => h) hp)).bind fun r hr =>
      (permit_guards _ _).bind fun _ _ => edit_guards hk h hr

theorem applyAttrs_guards (hp : Path p) (a : Attrs) (jailed : Bool) :
    Guards Inv (applyAttrs policy opts p a jailed) := by
  have hset : ∀ call follow, Guards Inv (setAttr policy call follow p) :=
    fun call follow => setAttr_guards hk h call follow hp
  refine (applySize_guards hk h hp jailed a.size).bind fun _ _ => ?_
  refine (onlyIf_guards (.ite (applyModeJailed_guards hk h hp) (hset _ _))).bind fun _ _ => ?_
  exact (onlyIf_guards (hset _ _)).bind fun _ _ => onlyIf_guards (hset _ _)

end Attributes

variable (oldpath newpath : Bytes) (id : Nat) (path : Bytes) (a : Attrs)

theorem opOpen_guards (pflags : OpenFlags) : Guards Inv (opOpen policy opts path pflags) := by
  refine (resolvePath_guards hk path).bind fun p hp => ?_
  have hwant : Guards Inv (onlyIf (pflags.write || pflags.append) (requireWritable opts))
      fun _ => (pflags.write || pflags.append)=true → opts.readOnly=false := by
    rw [onlyIf]
    split
    · exact fun w hw => ⟨(requireWritable_guards w hw).1,fun a ha _ =>
        (requireWritable_guards w hw).2 a ha⟩
    · next hread => exact .of_pure fun h => absurd h hread
  refine hwant.bind fun _ h => ?_
  have hwrites : (pflags.how opts.root.isSome).forWriting=true → opts.readOnly=false :=
    fun hw => h (by simpa [How.forWriting,OpenFlags.how] using hw)
  exact (mapOpenErr_guards (openFile_guards hk hwrites hp)).bind fun r hr => (allocHandle_guards hk (h := .file r.1 p r.2 pflags.append) hr hp).last

theorem opStat_guards (follow : Bool) : Guards Inv (opStat policy opts path follow) :=
  (resolvePath_guards hk path).bind fun _ hp =>
    (stat_guards hk _ hp).last

theorem opSetstat_guards : Guards Inv (opSetstat policy opts path a) :=
  requireWritable_guards.bind fun _ h => (resolvePath_guards hk path).bind fun _ hp =>
    (applyAttrs_guards hk h hp a _).last

theorem opOpendir_guards : Guards Inv (opOpendir policy opts path) := by
  refine (resolvePath_guards hk path).bind fun p hp => (rejectSymlink_guards hk hp).bind fun _ _ => ?_
  exact (readDir_guards hk hp).bind fun r hr =>
    (allocHandle_guards hk (h := .dir r.1 p r.2 false) hr hp).last

theorem opRemove_guards : Guards Inv (opRemove policy opts path) :=
  requireWritable_guards.bind fun _ h => (resolvePath_guards hk path).bind fun _ hp =>
    (rejectSymlink_guards hk hp).bind fun _ _ =>
      (removeFile_guards hk h hp).last

theorem opMkdir_guards : Guards Inv (opMkdir policy opts path a) := by
  refine requireWritable_guards.bind fun _ h => (resolvePath_guards hk path).bind fun p hp => ?_
  refine (createDir_guards hk h hp).bind fun _ _ => ?_
  have hattrs : Guards Inv (ignoring (applyAttrs policy opts p a opts.root.isSome)) :=
    fun w hw => ⟨(applyAttrs_guards hk h hp a _ w hw).1,fun _ _ => trivial⟩
  exact hattrs.last

theorem renameOperands_guards : Guards Inv (renameOperands policy opts oldpath newpath)
      fun r => opts.readOnly=false ∧ Path r.1 ∧ Path r.2 := by
  refine requireWritable_guards.bind fun _ h => (resolvePath_guards hk oldpath).bind fun p hp => ?_
  refine (resolvePath_guards hk newpath).bind fun p' hp' => ?_
  refine (rejectSymlink_guards hk hp).bind fun _ _ => (succeeds_guards _).bind fun b _ => ?_
  exact (onlyIf_guards (rejectSymlink_guards hk hp')).bind fun _ _ => .of_pure ⟨h,hp,hp'⟩

theorem opRename_guards : Guards Inv (opRename policy opts oldpath newpath) := by
  refine (renameOperands_guards hk oldpath newpath).bind fun r hr => ?_
  refine (succeeds_guards _).bind fun b _ => .ite (.of_pure trivial) ?_
  exact (rename_guards hk hr.1 hr.2.1 hr.2.2).last

theorem opExtPosixRename_guards : Guards Inv (opExtPosixRename policy opts oldpath newpath) :=
  (renameOperands_guards hk oldpath newpath).bind fun _ hr =>
    (rename_guards hk hr.1 hr.2.1 hr.2.2).last

theorem opReadlink_guards : Guards Inv (opReadlink policy opts path) := by
  refine (resolvePath_guards hk path).bind fun p hp => (readLink_guards hk hp).bind fun t _ => ?_
  cases opts.root with
  | none => exact .of_pure trivial
  | some root => exact .ite (.of_pure trivial) (.ite (.of_pure trivial) (.of_pure trivial))

theorem opSymlink_keeps {targetPath linkPath : Bytes} {w : World} (hw : Inv w)
    (hput : ∀ q, opts.readOnly=false → (opts.root.isSome=true → Downward targetPath) →
      Place q → w.fs.node q=none → Inv { w with fs := w.fs.put q (.link targetPath) }) :
    Inv (opSymlink policy opts targetPath linkPath w).2 := by
  rw [opSymlink,requireWritable]
  split
  · exact hw
  next hread =>
  rw [pure_bind,resolvePath]
  cases hres : resolve opts.cwd linkPath opts.root with
  | error e => exact hw
  | ok p =>
    rw [lift_ok_bind]
    split
    · exact hw
    split
    · exact hw
    split
    · exact hw
    next habsolute hparent =>
    have htarget : opts.root.isSome=true → Downward targetPath := fun hroot =>
      ⟨by simpa [hroot] using habsolute,by simpa [hroot] using hparent⟩
    have hlink := @create_keeps _ _ _ _ policy _ hk .symlink _ _ hw (hk.resolve hres)
      fun q hq hfree => hput q (Bool.eq_false_iff.2 hread) htarget hq hfree
    rw [symlink]
    split
    · exact hw
    · rw [bind_apply]
      rcases hcreate : create policy .symlink (.link targetPath) p w with ⟨_ | _,w'⟩ <;>
        exact (congrArg (Inv ·.2) hcreate).mp hlink

theorem opExtHardlink_guards : Guards Inv (opExtHardlink policy opts oldpath newpath) :=
  requireWritable_guards.bind fun _ h => (resolvePath_guards hk oldpath).bind fun _ hp =>
    (resolvePath_guards hk newpath).bind fun _ hp' => (rejectSymlink_guards hk hp).bind fun _ _ =>
      (hardLink_guards hk h hp hp').last

theorem opExtLsetstat_guards : Guards Inv (opExtLsetstat policy opts path a) := by
  refine requireWritable_guards.bind fun _ h => (resolvePath_guards hk path).bind fun p hp => ?_
  refine (stat_guards hk _ hp).bind fun n _ => ?_
  cases n with
  | dir | file ino => exact (applyAttrs_guards hk h hp a _).last
  | link t =>
    refine .ite (.of_pure trivial) ?_
    refine (onlyIf_guards (setAttr_guards hk h _ _ hp)).bind fun _ _ => ?_
    exact (onlyIf_guards (setAttr_guards hk h _ _ hp)).last

theorem opFsetstat_guards : Guards Inv (opFsetstat policy opts id a) :=
  requireWritable_guards.bind fun _ h => (getHandle_guards hk id).bind fun _ hh =>
    (applyAttrs_guards hk h hh.2 a _).last

theorem opFstat_guards : Guards Inv (opFstat policy opts id) := by
  refine (getHandle_guards hk id).bind fun h hh => ?_
  match h with
  | .file _ _ (some ino) _ | .file _ _ none _ => exact .of_pure trivial
  | .dir _ path _ _ => exact (stat_guards hk _ hh.2).last

theorem opExtFstatvfs_guards : Guards Inv (opExtFstatvfs policy id) := by
  refine (getHandle_guards hk id).bind fun h hh => ?_
  cases h with
  | file place path ino append => exact .of_pure trivial
  | dir place path rest eofSent =>
    exact (stat_guards hk _ hh.2).last

theorem opOnFile_guards (reply : Reply) : Guards Inv (opOnFile id reply) := by
  refine (getHandle_guards hk id).bind fun h hh => ?_
  cases h with
  | file place path ino append =>
    exact (touch_guards hk hh.1).last
  | dir place path rest eofSent => exact .of_pure trivial

theorem opWrite_guards : Guards Inv (opWrite opts id) := by
  refine requireWritable_guards.bind fun _ h => (getHandle_guards hk id).bind fun f hf => ?_
  cases f with
  | file place path ino append =>
    exact (edit_guards hk h hf.1).last
  | dir place path rest eofSent => exact .of_pure trivial

theorem opClose_guards : Guards Inv (opClose id) :=
  .get_bind fun _ hw => .ite (.of_pure trivial)
    ((Guards.of_set (hk.close hw)).last)

theorem opReaddir_guards : Guards Inv (opReaddir id) := by
  refine (getHandle_guards hk id).bind fun h hh => ?_
  cases h with
  | file place path ino append => exact .of_pure trivial
  | dir place path rest eofSent =>
    refine .ite (.of_pure trivial) ?_
    refine (touch_guards hk hh.1).bind fun _ _ => .get_bind fun w hw => ?_
    refine (Guards.of_set ?_).bind fun _ _ => .ite (.of_pure trivial) (.of_pure trivial)
    exact hk.readdir hw hh.1 hh.2

theorem opExtCopyData_guards (readHandle writeHandle : Nat) :
    Guards Inv (opExtCopyData opts readHandle writeHandle) := by
  refine requireWritable_guards.bind fun _ h => .get_bind fun w hw => ?_
  split
  · next rp _ rino _ wp _ wino _ hr hwr =>
    refine .ite (.of_pure trivial) (.ite (.of_pure trivial) ?_)
    exact (touch_guards hk (hk.handle hw hr).1).bind fun _ _ =>
      (edit_guards hk h (hk.handle hw hwr).1).last
  · exact .of_pure trivial

/-- Every request keeps the invariant, if a link put at a free place and the removal of a directory
do. -/
theorem dispatch_keeps (packet : Packet) {w : World} (hw : Inv w)
    (hlink : ∀ target q, opts.readOnly=false → (opts.root.isSome=true → Downward target) →
      Place q → w.fs.node q=none → Inv { w with fs := w.fs.put q (.link target) })
    (hrmdir : ∀ path q, packet = .rmdir path → Removes policy opts w path q → Place q →
      Inv { w with fs := w.fs.erase q }) : Inv (dispatch policy opts packet w).2 := by
  cases packet with
  | «open» => exact (opOpen_guards hk _ _ w hw).1
  | close => exact (opClose_guards hk _ w hw).1
  | read => exact (opOnFile_guards hk _ _ w hw).1
  | write => exact (opWrite_guards hk _ w hw).1
  | lstat => exact (opStat_guards hk _ _ w hw).1
  | stat => exact (opStat_guards hk _ _ w hw).1
  | fstat => exact (opFstat_guards hk _ w hw).1
  | setstat => exact (opSetstat_guards hk _ _ w hw).1
  | fsetstat => exact (opFsetstat_guards hk _ _ w hw).1
  | opendir => exact (opOpendir_guards hk _ w hw).1
  | readdir => exact (opReaddir_guards hk _ w hw).1
  | remove => exact (opRemove_guards hk _ w hw).1
  | mkdir => exact (opMkdir_guards hk _ _ w hw).1
  | rmdir path =>
    rw [dispatch]
    obtain ⟨place,hremoves,hout⟩ | ⟨-,hout⟩ := opRmdir_cases policy opts path w
    · obtain ⟨p,hres,hloc⟩ := hremoves.found
      have hplace := hk.locate hw (hk.resolve hres) hloc
      rw [hout]
      exact hk.touch (hrmdir path place rfl hremoves hplace) hplace
    · rw [hout]
      exact hw
  | realpath path =>
    have hread : Guards Inv (opRealpath opts path) :=
      (Guards.of_lift (Q := fun _ => True) fun _ _ => trivial).last
    exact (hread w hw).1
  | rename => exact (opRename_guards hk _ _ w hw).1
  | readlink => exact (opReadlink_guards hk _ w hw).1
  | symlink targetPath linkPath => exact opSymlink_keeps hk hw fun q => hlink targetPath q
  | posixRename => exact (opExtPosixRename_guards hk _ _ w hw).1
  | hardlink => exact (opExtHardlink_guards hk _ _ w hw).1
  | fsync => exact (opOnFile_guards hk _ _ w hw).1
  | statvfs path =>
    have hstat : Guards Inv (opExtStatvfs policy opts path) :=
      (resolvePath_guards hk path).bind fun _ hp =>
        (stat_guards hk _ hp).last
    exact (hstat w hw).1
  | fstatvfs => exact (opExtFstatvfs_guards hk _ w hw).1
  | lsetstat => exact (opExtLsetstat_guards hk _ _ w hw).1
  | copyData => exact (opExtCopyData_guards hk _ _ w hw).1

end Handlers

end PureSsh.Sftp
