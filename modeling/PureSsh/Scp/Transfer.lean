import PureSsh.Lib.Network
import PureSsh.Scp.Confinement
import PureSsh.Scp.Receiving
import PureSsh.Scp.Sender

/-! Both sides of SCP, joined by two streams. -/

namespace PureSsh.Scp

open Lib List

/- Sender and receiver before the next record. -/
abbrev Exchange := Net UInt8 IoError ScpError Unit RecvState Unit

def between (p : ScpProg Unit (Option Unit)) (r : Receiver) (s : RecvState) : Exchange :=
  ⟨⟨p,()⟩,⟨r.run,s⟩,[],[]⟩

/-- What the sender does next takes the receiver from `s` to `s'`. -/
def Conveys (r : Receiver) (p : ScpProg Unit Unit) (s s' : RecvState) : Prop :=
  ∀ left k, Net.Reach left r.run (between (p.bind k) r s) (between (k ()) r s')

/-- What the sender does next makes the receiver give up. -/
def Breaks (r : Receiver) (p : ScpProg Unit Unit) (s : RecvState) : Prop :=
  ∀ left k, ∃ net e, Net.Reach left r.run (between (p.bind k) r s) net ∧ net.right.prog = .fail e

section Rules

variable {r : Receiver} {p q : ScpProg Unit Unit} {s s' s'' : RecvState}

theorem Conveys.refl : Conveys r (pure ()) s s := fun _ _ => .refl

theorem Conveys.bind (h : Conveys r p s s') (h' : Conveys r q s' s'') :
    Conveys r (p.bind fun _ => q) s s'' := by
  intro left k
  rw [Prog.bind_assoc]
  exact (h left _).trans (h' left k)

theorem Conveys.breaks (h : Conveys r p s s') (h' : Breaks r q s') :
    Breaks r (p.bind fun _ => q) s := by
  intro left k
  obtain ⟨net,e,hreach,hfail⟩ := h' left k
  rw [Prog.bind_assoc]
  exact ⟨net,e,(h left _).trans hreach,hfail⟩

theorem Breaks.bind {f : Unit → ScpProg Unit Unit} (h : Breaks r p s) : Breaks r (p.bind f) s := by
  intro left k
  rw [Prog.bind_assoc]
  exact h left _

end Rules

section Records

variable {r : Receiver} {s s' : RecvState} {h : Header}

theorem readAck_does : readAck.Does () [0] [] (.ok ()) () := .read (.ret () ())

theorem writeHeader_does (hw : h.Writable) :
    (writeHeader h : ScpProg Unit Unit).Does () [] (headerLine h) (.ok ()) () := by
  have hname : ∀ name, GoodName name →
      ((Prog.lift (validateName name) : ScpProg Unit Unit).bind fun _ => send (headerLine h)).Does () []
        (headerLine h) (.ok ()) () := by
    intro name hgood
    rw [hgood.valid]
    exact send_does _
  cases h with
  | file mode size name => exact hname name hw.2.2
  | dir mode name => exact hname name hw.2
  | endDir => exact send_does _
  | times mtime atime => exact send_does _

theorem sendHeader_bind {α : Type} (h : Header) (k : Unit → ScpProg Unit α) :
    (Sender.sendHeader h).bind k=(writeHeader h).bind fun _ => readAck.bind k := by
  rw [Sender.sendHeader,Prog.bind_def,Prog.bind_assoc]

/-- A round of `run` ends with the next one. -/
theorem answers_of_run {left : ScpProg Unit (Option Unit)} {inbox : Bytes}
    (hdoes : r.run.Does s inbox [0] (.ok none) s') :
    Net.Answers left r.run ⟨r.run,s⟩ ⟨r.run,s'⟩ inbox [0] := by
  have hround : Net.Answers left r.run ⟨r.run.bind .ret,s⟩ ⟨.ret none,s'⟩ inbox [0] :=
    Net.answers_of_does .ret hdoes
  rw [Prog.bind_ret] at hround
  exact fun l => (hround l).tail (.right rfl)

theorem sendHeader_conveys (hw : h.Writable)
    (hdoes : r.run.Does s (headerLine h) [0] (.ok none) s') :
    Conveys r (Sender.sendHeader h) s s' := by
  intro left k
  rw [sendHeader_bind]
  exact Net.exchange (writeHeader_does hw) (answers_of_run hdoes) readAck_does

theorem sendHeader_breaks (hw : h.Writable) {out : Bytes} {e : ScpError}
    (hdoes : r.run.Does s (headerLine h) out (.error e) s') : Breaks r (Sender.sendHeader h) s := by
  intro left k
  have hfail : Net.Answers left r.run ⟨r.run.bind .ret,s⟩ ⟨.fail e,s'⟩ (headerLine h) out :=
    Net.answers_of_does .ret hdoes
  rw [Prog.bind_ret] at hfail
  rw [sendHeader_bind]
  exact ⟨_,e,(Net.sends (writeHeader_does hw)).trans (hfail _),rfl⟩

/- Nothing is held back from such a receiver. -/
structure Unrestricted (r : Receiver) : Prop where
  base : r.base.Canonical
  recursive : r.opts.recursive=true
  filter : r.topLevelFilter=none
  expected : r.expectedName=none
  cap : r.maxFileSize=none

theorem Unrestricted.admits (hr : Unrestricted r) (s : RecvState) (size : Nat) (name : Bytes) :
    r.Admits s size name where
  single := by
    rw [hr.expected]
    rfl
  expected := by
    rw [hr.expected]
    nofun
  fits := by
    rw [hr.cap]
    nofun

theorem Unrestricted.checkTopLevelName_does (hr : Unrestricted r) (s : RecvState) (name : Bytes) :
    (r.checkTopLevelName name).Does s [] [] (.ok ()) s := by
  refine Receiver.checkTopLevelName_does fun _ => ?_
  rw [hr.filter]
  nofun

/- The receiver will put the next object at `target`. -/
structure Awaits (r : Receiver) (name : Bytes) (target : Path) (s : RecvState) : Prop where
  below : ∃ names : List Bytes, target=r.base++names.map .normal
  resolve : r.resolveTarget s name=target
  readable : s.fs.may .read (0o777 &&& ~~~s.fs.umask)=true

variable {name : Bytes} {target : Path}

theorem Awaits.guard (ha : Awaits r name target s) (hr : Unrestricted r) :
    r.guardPath target=pure () := by
  obtain ⟨names,rfl⟩ := ha.below
  exact Receiver.guardPath_eq hr.base names

theorem Awaits.ne_nil (ha : Awaits r name target s) (hr : Unrestricted r) : target≠[] := by
  obtain ⟨names,rfl⟩ := ha.below
  exact fun h => hr.base.ne_nil (append_eq_nil_iff.1 h).1

/-- The receiver takes the record of a file and waits for its content. -/
theorem run_file_answers (hr : Unrestricted r) (ha : Awaits r name target s)
    (hfree : s.fs.Free target) {mode size : Nat} (hw : (Header.file mode size name).Writable) :
    ∃ t, Puts target (.file (0o666 &&& ~~~s.fs.umask) []) s t ∧
      ∀ left : ScpProg Unit (Option Unit), Net.Answers left r.run ⟨r.run,s⟩
        ⟨(r.storeFile mode size target).bind fun _ => .ret none,t⟩
        (headerLine (.file mode size name)) [0] := by
  obtain ⟨b,kind,line,htext,hkind,hline,hparse⟩ := readHeader_headerLine hw
  let u := s.mapFs fun fs => fs.note (.record (.file mode size name))
  obtain ⟨t,hdoes,hputs⟩ := Receiver.acceptFile_does (s := u) (r := r) ha.resolve (ha.guard hr)
    (Receiver.free_note hfree) (hr.admits u size name)
  refine ⟨t,⟨hputs.node,hputs.may,hputs.umask,hputs.stack⟩,fun left => ?_⟩
  have hhead : Net.Answers left r.run ⟨r.run,s⟩ ⟨r.dispatch (.file mode size name),u⟩
      (headerLine (.file mode size name)) [] := by
    rw [htext]
    exact Net.answers_of_does _ (Receiver.nextHeader_does hkind hline hparse)
  have hcheck : Net.Answers left r.run ⟨r.dispatch (.file mode size name),u⟩
      ⟨(r.recvFile mode size name).bind fun _ => .ret none,u⟩ [] [] :=
    Net.answers_of_does _ (hr.checkTopLevelName_does u name)
  have haccept : Net.Answers left r.run ⟨(r.recvFile mode size name).bind fun _ => .ret none,u⟩
      ⟨(r.storeFile mode size target).bind fun _ => .ret none,t⟩ [] [0] := by
    rw [Receiver.recvFile_eq,Prog.bind_assoc]
    exact Net.answers_of_does _ hdoes
  exact (hhead.trans hcheck).trans haccept

theorem writePayloadTerm_does (content : Bytes) :
    (writePayloadTerm content : ScpProg Unit Unit).Does () [] (content++[0]) (.ok ()) () :=
  (send_does content).bind (send_does [0])

/- The tree has come to its place, and all else is as it was. -/
structure Grows (t : Tree) (target : Path) (s s' : RecvState) : Prop where
  node : s'.fs.node=Tree.graft s.fs.node target t
  may : s'.fs.may=s.fs.may
  umask : s'.fs.umask=s.fs.umask
  stack : s'.stack=s.stack

theorem file_conveys (hr : Unrestricted r) (ha : Awaits r name target s)
    (hfree : s.fs.Free target) (hname : GoodName name) (mode : Mode) (mtime atime : Int)
    {content : Bytes} (hsize : content.length<2^64) :
    ∃ s', Conveys r ((Sender.sendHeader (.file mode.toNat content.length name)).bind fun _ =>
        (writePayloadTerm content).bind fun _ => readAck) s s' ∧
      Grows (.file mode mtime atime content) target s s' := by
  have hw : (Header.file mode.toNat content.length name).Writable := ⟨mode.isLt,hsize,hname⟩
  obtain ⟨t,hopen,hanswers⟩ := run_file_answers hr ha hfree hw
  have hnode : t.fs.node target=some (.file (0o666 &&& ~~~s.fs.umask) []) := by
    rw [hopen.node,if_pos rfl]
  obtain ⟨s',hstore,hputs⟩ : ∃ s', (r.storeFile mode.toNat content.length target).Does t
      (content++[0]) [0] (.ok ()) s' ∧
        Puts target (.file (BitVec.ofNat 12 mode.toNat) content) t s' :=
    Receiver.storeFile_does hnode mode.toNat
  refine ⟨s',fun left k => ?_,?_,hputs.may.trans hopen.may,hputs.umask.trans hopen.umask,
    hputs.stack.trans hopen.stack⟩
  · have hrest : Net.Answers left r.run
        ⟨(r.storeFile mode.toNat content.length target).bind fun _ => .ret none,t⟩ ⟨r.run,s'⟩
          (content++[0]) [0] :=
      fun l => (Net.answers_of_does (fun _ => .ret none) hstore l).tail (.right rfl)
    rw [Prog.bind_assoc,sendHeader_bind]
    refine (Net.exchange (writeHeader_does hw) (hanswers left) readAck_does).trans ?_
    rw [Prog.bind_assoc]
    exact Net.exchange (writePayloadTerm_does content) hrest readAck_does
  · rw [Tree.graft_single hfree.empty rfl fun _ _ => rfl]
    funext q
    rw [hputs.node,hopen.node,BitVec.ofNat_toNat]
    split <;> rfl

theorem dir_conveys (hr : Unrestricted r) (ha : Awaits r name target s)
    (hfree : s.fs.Free target) (hname : GoodName name) (mode : Mode) :
    ∃ s', Conveys r (Sender.sendHeader (.dir mode.toNat name)) s s' ∧
      Puts target (.dir mode) { s with stack := target::s.stack } s' := by
  have hw : (Header.dir mode.toNat name).Writable := ⟨mode.isLt,hname⟩
  obtain ⟨s',hdoes,hputs⟩ := Receiver.run_dir_does hw hr.recursive hr.filter ha.resolve
    (ha.guard hr) hfree (ha.ne_nil hr) ha.readable
  rw [BitVec.ofNat_toNat] at hputs
  exact ⟨s',sendHeader_conveys hw hdoes,hputs⟩

theorem endDir_conveys (hstack : s.stack≠[]) : ∃ s', Conveys r (Sender.sendHeader .endDir) s s' ∧
      s'.fs=s.fs.note (.record .endDir) ∧ s'.stack=s.stack.tail := by
  obtain ⟨s',hdoes,hfs,htail⟩ := Receiver.run_endDir_does (r := r) hstack
  exact ⟨s',sendHeader_conveys (h := .endDir) trivial hdoes,hfs,htail⟩

/- Nothing has changed that the next object depends on. -/
structure Alike (s s' : RecvState) : Prop where
  node : s'.fs.node=s.fs.node
  may : s'.fs.may=s.fs.may
  umask : s'.fs.umask=s.fs.umask
  stack : s'.stack=s.stack

theorem sendTimes_conveys (opts : ScpSendOptions) {mtime atime : Int}
    (hw : (Header.times mtime atime).Writable) (s : RecvState) :
    ∃ s', Conveys r (Sender.sendTimes opts mtime atime) s s' ∧ Alike s s' := by
  rw [Sender.sendTimes]
  split
  · obtain ⟨s',hdoes,hfs,hstack⟩ := Receiver.run_times_does (r := r) (s := s) hw
    refine ⟨s',sendHeader_conveys hw hdoes,?_,?_,?_,hstack⟩ <;> rw [hfs] <;> rfl
  · exact ⟨s,.refl,rfl,rfl,rfl,rfl⟩

theorem Alike.awaits (h : Alike s s') (ha : Awaits r name target s) : Awaits r name target s' where
  below := ha.below
  resolve := by
    rw [← ha.resolve,Receiver.resolveTarget,Receiver.resolveTarget,Receiver.currentDir,
      Receiver.currentDir,h.stack]
  readable := by
    rw [h.may,h.umask]
    exact ha.readable

theorem Alike.walk (h : Alike s s') (p : Path) : s'.fs.walk p=s.fs.walk p :=
  Fs.walk_congr (fun _ _ => congrFun h.node _) h.may

theorem Alike.mayCreate (h : Alike s s') (p : Path) : s'.fs.mayCreate p=s.fs.mayCreate p := by
  rw [Fs.mayCreate,Fs.mayCreate,h.node,h.may]

theorem Alike.free (h : Alike s s') (hfree : s.fs.Free target) : s'.fs.Free target where
  walk := (h.walk target).trans hfree.walk
  mayCreate := (h.mayCreate target).trans hfree.mayCreate
  empty q := by
    rw [h.node]
    exact hfree.empty q

theorem Alike.barred (h : Alike s s') (hb : s.fs.Barred target) : s'.fs.Barred target where
  parent := by
    rw [h.walk,h.node]
    exact hb.parent
  refused := by
    rw [h.walk,h.node,h.mayCreate]
    exact hb.refused

theorem Alike.grows {t : Tree} {s'' : RecvState} (h : Alike s s') (h' : Grows t target s' s'') :
    Grows t target s s'' :=
  ⟨h.node ▸ h'.node,h'.may.trans h.may,h'.umask.trans h.umask,h'.stack.trans h.stack⟩

section Barred

variable {mode : Nat}

theorem run_refuses (hw : h.Writable) (hrefused : ∃ out e t,
    (r.dispatch h).Does (s.mapFs fun fs => fs.note (.record h)) [] out (.error e) t) :
    Breaks r (Sender.sendHeader h) s := by
  obtain ⟨out,e,t,hdoes⟩ := hrefused
  have hrun := Receiver.run_does hw hdoes
  rw [append_nil] at hrun
  exact sendHeader_breaks hw hrun

theorem barred_note (hb : s.fs.Barred target) :
    (s.mapFs fun fs => fs.note (.record h)).fs.Barred target := ⟨hb.parent,hb.refused⟩

/-- Where nothing can be made, no object is taken. -/
theorem dir_breaks (hr : Unrestricted r) (ha : Awaits r name target s)
    (hb : s.fs.Barred target) (hw : (Header.dir mode name).Writable) :
    Breaks r (Sender.sendHeader (.dir mode name)) s := by
  refine run_refuses hw ?_
  let u := s.mapFs fun fs => fs.note (.record (.dir mode name))
  obtain ⟨out,e,hdoes⟩ := Receiver.recvDir_refused (s := u) (r := r) ha.resolve (ha.guard hr)
    (barred_note hb) mode
  refine ⟨[]++out,e,u,?_⟩
  rw [Receiver.dispatch,hr.recursive]
  exact (hr.checkTopLevelName_does u name).bind hdoes.bind_error

theorem file_breaks (hr : Unrestricted r) (ha : Awaits r name target s)
    (hb : s.fs.Barred target) {size : Nat} (hw : (Header.file mode size name).Writable) :
    Breaks r (Sender.sendHeader (.file mode size name)) s := by
  refine run_refuses hw ?_
  let u := s.mapFs fun fs => fs.note (.record (.file mode size name))
  obtain ⟨out,e,hdoes⟩ := Receiver.recvFile_refused (s := u) (r := r) ha.resolve (ha.guard hr)
    (barred_note hb) (hr.admits u size name) mode
  exact ⟨[]++out,e,u,(hr.checkTopLevelName_does u name).bind hdoes.bind_error⟩

end Barred

end Records

section Filling

variable {r : Receiver} {s₀ s s' : RecvState} {name : Bytes} {target : Path} {mode : Mode}
  {mtime atime : Int} {done : List (Bytes × Tree)} {c : Tree}

/- A directory has been made and entered, and has got the entries of `done`. -/
structure Filling (target : Path) (mode : Mode) (mtime atime : Int) (done : List (Bytes × Tree))
    (s₀ s : RecvState) : Prop where
  node : s.fs.node=Tree.graft s₀.fs.node target (.dir mode mtime atime done)
  may : s.fs.may=s₀.fs.may
  umask : s.fs.umask=s₀.fs.umask
  stack : s.stack=target::s₀.stack

theorem Filling.start (hfree : s₀.fs.Free target)
    (h : Puts target (.dir mode) { s₀ with stack := target::s₀.stack } s) :
    Filling target mode mtime atime [] s₀ s := by
  refine ⟨?_,h.may,h.umask,h.stack⟩
  have hbelow : ∀ c q, (Tree.dir mode mtime atime []).node (c::q)=none := by
    intro c q
    cases c <;> rfl
  rw [Tree.graft_single hfree.empty rfl hbelow]
  exact funext h.node

section
variable (h : Filling target mode mtime atime done s₀ s)
include h

theorem Filling.step
    (hname : name∉done.map Prod.fst) (hgrows : Grows c (target++[.normal name]) s s') :
    Filling target mode mtime atime (done++[(name,c)]) s₀ s' where
  node := by rw [hgrows.node,h.node,Tree.graft_snoc hname]
  may := hgrows.may.trans h.may
  umask := hgrows.umask.trans h.umask
  stack := hgrows.stack.trans h.stack

theorem Filling.awaits {above : Bytes} (ha : Awaits r above target s₀) (hname : GoodName name) :
    Awaits r name (target++[.normal name]) s where
  below := by
    obtain ⟨names,rfl⟩ := ha.below
    exact ⟨names++[name],by rw [map_append,append_assoc]; rfl⟩
  resolve := by
    rw [Receiver.resolveTarget,Receiver.currentDir,h.stack,
      (proper_of_validateName hname.valid).1.join]
    rfl
  readable := by
    rw [h.may,h.umask]
    exact ha.readable

theorem Filling.node_target : s.fs.node target=some (.dir mode) := by
  have hroot := congrFun h.node (target++[])
  rwa [Tree.graft_append,append_nil] at hroot

/-- The way to the directory is as it was. -/
theorem Filling.walk_target
    (hfree : s₀.fs.Free target) (hne : target≠[]) : s.fs.walk target = .ok () := by
  rw [← hfree.walk]
  refine Fs.walk_congr (fun q hq => ?_) h.may
  rw [h.node,Tree.graft_elsewhere]
  intro hpre
  have heq := (hq.trans ( dropLast_prefix _)).eq_of_length_le hpre.length_le
  exact Fs.not_prefix_dropLast hne hq heq

theorem Filling.walk_entry (hfree : s₀.fs.Free target) (hne : target≠[]) :
    s.fs.walk (target++[.normal name]) = .ok () ↔ s₀.fs.may .search mode=true := by
  have henter : s.fs.enter target = .ok () ↔ s₀.fs.may .search mode=true := by
    rw [Fs.enter,h.node_target,h.may]
    dsimp only
    split <;> simp_all
  rw [← henter,Fs.walk_eq_ok,dropLast_concat]
  constructor
  · exact fun hall => hall target prefix_rfl hne
  · intro htarget q hq hqne
    by_cases hqt : q=target
    · exact hqt ▸ htarget
    · refine Fs.walk_eq_ok.1 (h.walk_target hfree hne) q ?_ hqne
      rw [← dropLast_append_getLast hne,prefix_concat_iff,dropLast_append_getLast hne] at hq
      exact hq.resolve_left hqt

theorem Filling.mayCreate_entry :
    s.fs.mayCreate (target++[.normal name]) = .ok () ↔ s₀.fs.may .write mode=true := by
  rw [Fs.mayCreate,dropLast_concat,h.node_target,h.may]
  split <;> simp_all

theorem Filling.empty_entry (hname : name∉done.map Prod.fst) (q : Path) :
    s.fs.node (target++[.normal name]++q)=none := by
  rw [h.node,append_assoc,Tree.graft_append,singleton_append,Tree.node,Tree.lookup_eq_none hname]

theorem Filling.free (hfree : s₀.fs.Free target) (hne : target≠[])
    (hrights : s₀.fs.may .write mode=true ∧ s₀.fs.may .search mode=true)
    (hname : name∉done.map Prod.fst) : s.fs.Free (target++[.normal name]) where
  walk := (h.walk_entry hfree hne).2 hrights.2
  mayCreate := h.mayCreate_entry.2 hrights.1
  empty := h.empty_entry hname

theorem Filling.barred (hfree : s₀.fs.Free target) (hne : target≠[])
    (hrights : ¬(s₀.fs.may .write mode=true ∧ s₀.fs.may .search mode=true))
    (hname : name∉done.map Prod.fst) : s.fs.Barred (target++[.normal name]) where
  parent := by
    rw [dropLast_concat,h.node_target]
    exact ⟨h.walk_target hfree hne,Option.some_ne_none _⟩
  refused := by
    cases hwalk : s.fs.walk (target++[.normal name]) with
    | error e => exact .inl ⟨e,rfl⟩
    | ok =>
      refine .inr ⟨rfl,?_,?_⟩
      · have hempty := h.empty_entry hname []
        rwa [append_nil] at hempty
      · cases hmay : s.fs.mayCreate (target++[.normal name]) with
        | error e => exact ⟨e,rfl⟩
        | ok =>
          exact absurd ⟨h.mayCreate_entry.1 hmay,(h.walk_entry hfree hne).1 hwalk⟩ hrights

theorem Filling.grows {entries : List (Bytes × Tree)} (hperm : done.Perm entries)
    (hnodup : (done.map Prod.fst).Nodup) (hfs : s'.fs=s.fs.note (.record .endDir))
    (hstack : s'.stack=s.stack.tail) : Grows (.dir mode mtime atime entries) target s₀ s' where
  node := by
    rw [hfs,Fs.note_node,h.node]
    exact Tree.graft_congr (Tree.node_perm hperm hnodup)
  may := by
    rw [hfs,Fs.note_may,h.may]
  umask := by
    rw [hfs]
    exact h.umask
  stack := by
    rw [hstack,h.stack,tail_cons]

end

end Filling

section Entries

variable {r : Receiver} {s₀ s s' : RecvState} {name : Bytes} {target : Path} {mode : Mode}
  {mtime atime : Int} {opts : ScpSendOptions} {t : Tree} {may : Right → Mode → Bool}

theorem sendFile_eq (hname : GoodName name) (content : Bytes) :
    Sender.sendFile opts mode mtime atime content name =
      (Sender.sendTimes opts mtime atime).bind fun _ =>
        (Sender.sendHeader (.file mode.toNat content.length name)).bind fun _ =>
          (writePayloadTerm content).bind fun _ => readAck := by
  rw [Sender.sendFile,Sender.basenameOr,if_pos hname.utf8]
  rfl

theorem sendDir_eq (hname : GoodName name) (entries : ScpProg Unit Unit) :
    Sender.sendDir opts mode mtime atime entries name =
      (Sender.sendTimes opts mtime atime).bind fun _ =>
        (Sender.sendHeader (.dir mode.toNat name)).bind fun _ =>
          entries.bind fun _ => Sender.sendHeader .endDir := by
  rw [Sender.sendDir,Sender.basenameOr,if_pos hname.utf8]
  rfl

theorem sendEntry_breaks (hr : Unrestricted r) (hs : t.Sound) (hname : GoodName name)
    (ha : Awaits r name target s) (hb : s.fs.Barred target) :
    Breaks r (Sender.sendEntry opts t name) s := by
  cases hs with
  | @file mode mtime atime content htimes hsize =>
    obtain ⟨s',hconveys,halike⟩ := sendTimes_conveys (r := r) opts htimes s
    rw [Sender.sendEntry,sendFile_eq hname]
    refine hconveys.breaks (file_breaks hr (halike.awaits ha) (halike.barred hb) ?_).bind
    exact ⟨mode.isLt,hsize,hname⟩
  | @dir mode mtime atime entries htimes _ _ _ =>
    obtain ⟨s',hconveys,halike⟩ := sendTimes_conveys (r := r) opts htimes s
    rw [Sender.sendEntry_dir,sendDir_eq hname]
    refine hconveys.breaks (dir_breaks hr (halike.awaits ha) (halike.barred hb) ?_).bind
    exact ⟨mode.isLt,hname⟩

/- What becomes of a tree: it arrives, or the receiver gives up, as its modes decide. -/
structure Fate (r : Receiver) (opts : ScpSendOptions) (may : Right → Mode → Bool) (t : Tree)
    (name : Bytes) (target : Path) (s : RecvState) : Prop where
  arrives : t.Fillable may →
    ∃ s', Conveys r (Sender.sendEntry opts t name) s s' ∧ Grows t target s s'
  breaks : ¬t.Fillable may → Breaks r (Sender.sendEntry opts t name) s

/- The same for all trees that may stand at `name`. -/
def Decided (r : Receiver) (opts : ScpSendOptions) (may : Right → Mode → Bool) (t : Tree)
    (name : Bytes) : Prop :=
  ∀ s target, Awaits r name target s → s.fs.Free target → s.fs.may=may →
    Fate r opts may t name target s

/-- The entries of a directory are sent one after the other. -/
theorem sendAll_fate (opts : ScpSendOptions) (hr : Unrestricted r) (ha : Awaits r name target s₀)
    (hfree : s₀.fs.Free target) {l done : List (Bytes × Tree)}
    (hrights : l≠[] → s₀.fs.may .write mode=true ∧ s₀.fs.may .search mode=true)
    (hnames : ∀ e∈l, GoodName e.1) (hnodup : ((done++l).map Prod.fst).Nodup)
    (hall : ∀ e∈l, Decided r opts s₀.fs.may e.2 e.1)
    (hfill : Filling target mode mtime atime done s₀ s) : ((∀ e∈l, e.2.Fillable s₀.fs.may) →
      ∃ s', Conveys r (Sender.sendAll (l.map fun e => Sender.sendEntry opts e.2 e.1)) s s' ∧
        Filling target mode mtime atime (done++l) s₀ s') ∧ ((¬ ∀ e∈l, e.2.Fillable s₀.fs.may) →
      Breaks r (Sender.sendAll (l.map fun e => Sender.sendEntry opts e.2 e.1)) s) := by
  induction l generalizing done s with
  | nil =>
    refine ⟨fun _ => ⟨s,.refl,?_⟩,fun h => absurd (fun e he => nomatch he) h⟩
    rwa [append_nil]
  | cons e l ih =>
    have hfresh : e.1∉done.map Prod.fst := by
      rw [map_append,nodup_append] at hnodup
      exact fun he => hnodup.2.2 e.1 he e.1 mem_cons_self rfl
    have hawaits := hfill.awaits ha (hnames e mem_cons_self)
    have hfree' := hfill.free hfree (ha.ne_nil hr) (hrights (cons_ne_nil e l)) hfresh
    have hfate := hall e mem_cons_self s _ hawaits hfree' hfill.may
    by_cases he : e.2.Fillable s₀.fs.may
    · obtain ⟨s₁,hconveys,hgrows⟩ := hfate.arrives he
      have hfill' : Filling target mode mtime atime (done++[e]) s₀ s₁ := hfill.step hfresh hgrows
      have hnext := ih (fun _ => hrights (cons_ne_nil e l))
        (fun e' he' => hnames e' (mem_cons_of_mem e he'))
        (by rwa [append_assoc]) (fun e' he' => hall e' (mem_cons_of_mem e he')) hfill'
      rw [append_assoc] at hnext
      refine ⟨fun hfills => ?_,fun hnot => ?_⟩
      · obtain ⟨s₂,hconveys',hfill'⟩ :=
          hnext.1 fun e' he' => hfills e' (mem_cons_of_mem e he')
        exact ⟨s₂,hconveys.bind hconveys',hfill'⟩
      · refine hconveys.breaks (hnext.2 fun hfills => hnot ?_)
        exact forall_mem_cons.2 ⟨he,hfills⟩
    · exact ⟨fun hfills => absurd (hfills e mem_cons_self) he,fun _ => (hfate.breaks he).bind⟩

/-- A directory whose entries cannot be added is the end of it. -/
theorem sendAll_breaks (hr : Unrestricted r) (ha : Awaits r name target s₀)
    (hfree : s₀.fs.Free target) {l : List (Bytes × Tree)} (hne : l≠[])
    (hrights : ¬(s₀.fs.may .write mode=true ∧ s₀.fs.may .search mode=true))
    (hnames : ∀ e∈l, GoodName e.1) (hsound : ∀ e∈l, e.2.Sound)
    (hfill : Filling target mode mtime atime [] s₀ s) :
    Breaks r (Sender.sendAll (l.map fun e => Sender.sendEntry opts e.2 e.1)) s := by
  obtain ⟨e,l,rfl⟩ := exists_cons_of_ne_nil hne
  have hname := hnames e mem_cons_self
  refine (sendEntry_breaks hr (hsound e mem_cons_self) hname (hfill.awaits ha hname) ?_).bind
  exact hfill.barred hfree (ha.ne_nil hr) hrights not_mem_nil

/-- The fate of a tree, by induction on the tree. -/
theorem sendEntry_decided (hr : Unrestricted r) (hs : t.Sound) (hname : GoodName name) :
    Decided r opts may t name := by
  induction hs generalizing name with
  | @file mode mtime atime content htimes hsize =>
    intro s target ha hfree hmay
    refine ⟨fun _ => ?_,fun h => absurd .file h⟩
    obtain ⟨s₁,htime,halike⟩ := sendTimes_conveys (r := r) opts htimes s
    obtain ⟨s',hfile,hgrows⟩ := file_conveys hr (halike.awaits ha) (halike.free hfree) hname
      mode mtime atime hsize
    rw [Sender.sendEntry,sendFile_eq hname]
    exact ⟨s',htime.bind hfile,halike.grows hgrows⟩
  | @dir mode mtime atime entries htimes hnodup hnames hsound ih =>
    intro s target ha hfree hmay
    obtain ⟨s₁,htime,halike⟩ := sendTimes_conveys (r := r) opts htimes s
    have ha₁ := halike.awaits ha
    have hfree₁ := halike.free hfree
    have hmay₁ := halike.may.trans hmay
    obtain ⟨s₂,hdir,hputs⟩ := dir_conveys hr ha₁ hfree₁ hname mode
    have hfill : Filling target mode mtime atime [] s₁ s₂ := .start hfree₁ hputs
    -- the entries are sent in another order than they are listed
    have hperm := mergeSort_perm entries Sender.byName
    have hmem : ∀ {e}, e∈entries.mergeSort Sender.byName ↔ e∈entries := hperm.mem_iff
    have hnames' : ∀ e∈entries.mergeSort Sender.byName, GoodName e.1 :=
      fun e he => hnames e (hmem.1 he)
    have hnodup' := (hperm.map Prod.fst).nodup_iff.2 hnodup
    have hprog := (Sender.sendEntry_dir opts mode mtime atime entries name).trans
      (sendDir_eq hname _)
    have hfate : (entries≠[] → may .write mode=true ∧ may .search mode=true) → _ :=
      fun hrights => sendAll_fate opts hr ha₁ hfree₁
        (fun hne => hmay₁ ▸ hrights fun hnil => hne (by rw [hnil,mergeSort_nil]))
        hnames' hnodup' (fun e he => hmay₁ ▸ ih e (hmem.1 he) (hnames' e he)) hfill
    rw [hmay₁] at hfate
    refine ⟨fun hfills => ?_,fun hnot => ?_⟩
    · cases hfills with
      | dir hrights hfills =>
        obtain ⟨s₃,hentries,hfilled⟩ := (hfate hrights).1 fun e he => hfills e (hmem.1 he)
        have hstack : s₃.stack≠[] := hfilled.stack ▸ cons_ne_nil _ _
        obtain ⟨s',hend,hfs,htail⟩ := endDir_conveys (r := r) hstack
        rw [hprog]
        exact ⟨s',htime.bind (hdir.bind (hentries.bind hend)),
          halike.grows (hfilled.grows hperm hnodup' hfs htail)⟩
    · rw [hprog]
      refine htime.breaks (hdir.breaks (Breaks.bind ?_))
      by_cases hrights : entries≠[] → may .write mode=true ∧ may .search mode=true
      · refine (hfate hrights).2 fun hfills => hnot (.dir hrights fun e he => ?_)
        exact hfills e (hmem.2 he)
      · obtain ⟨hne,hrights⟩ := Classical.not_imp.1 hrights
        refine sendAll_breaks hr ha₁ hfree₁ (fun hnil => hne ?_) (hmay₁ ▸ hrights) hnames'
          (fun e he => hsound e (hmem.1 he)) hfill
        rwa [hnil,nil_perm] at hperm

end Entries

section Whole

variable {r : Receiver} {opts : ScpSendOptions} {t : Tree} {name : Bytes} {fs : Fs}

/- `Sender::new` and `send_path`; `Receiver::new` and `run`. -/
def sending (opts : ScpSendOptions) (t : Tree) (name : Bytes) : ScpProg Unit (Option Unit) := do
  Sender.new
  Sender.sendPath opts t name
  pure (some ())

def receiving (r : Receiver) : ScpProg RecvState (Option Unit) := do
  writeOk
  r.run

def connected (r : Receiver) (opts : ScpSendOptions) (t : Tree) (name : Bytes) (fs : Fs) : Exchange :=
  ⟨⟨sending opts t name,()⟩,⟨receiving r,{ fs := fs }⟩,[],[]⟩

/-- In the end both sides have returned without an error, and the tree is where it belongs. -/
def Transfers (r : Receiver) (opts : ScpSendOptions) (t : Tree) (name : Bytes) (fs : Fs) : Prop :=
  ∃ final : Exchange, Settles (Net.Step (sending opts t name) r.run) (connected r opts t name fs) final ∧
    final.left.prog = .ret (some ()) ∧ final.right.prog = .ret (some ()) ∧
    final.right.state.fs.node=Tree.graft fs.node (r.spot [name]) t

theorem sendPath_eq (hopts : opts.recursive=true) :
    Sender.sendPath opts t name=Sender.sendEntry opts t name := by
  cases t with
  | file mode mtime atime content => rfl
  | dir mode mtime atime entries =>
    rw [Sender.sendPath,hopts]
    rfl

/-- The first acknowledgement. -/
theorem connected_reach (hopts : opts.recursive=true) :
    Net.Reach (sending opts t name) r.run (connected r opts t name fs)
      (between ((Sender.sendEntry opts t name).bind fun _ => .ret (some ())) r { fs := fs }) := by
  have hready : Net.Answers (sending opts t name) r.run ⟨receiving r,{ fs := fs }⟩
      ⟨r.run,{ fs := fs }⟩ [] [0] := Net.answers_of_does _ (send_does [0])
  have htake : Net.Reach (sending opts t name) r.run
      ⟨⟨sending opts t name,()⟩,⟨r.run,{ fs := fs }⟩,[0]++[],[]⟩
      (between ((Sender.sendPath opts t name).bind fun _ => .ret (some ())) r { fs := fs }) :=
    Net.reach_left readAck_does _ [] []
  rw [← sendPath_eq hopts]
  exact (hready _).trans htake

theorem awaits_top (hname : GoodName name) (hread : fs.may .read (0o777 &&& ~~~fs.umask)=true) :
    Awaits r name (r.spot [name]) { fs := fs } where
  below := ⟨if r.opts.targetIsFile then [name].tail else [name],rfl⟩
  resolve := by
    have hstack : ({ fs := fs } : RecvState).stack=r.stackOf [] := rfl
    exact Receiver.resolveTarget_eq hstack (proper_of_validateName hname.valid).1
  readable := hread

/-- Once the sender has hung up, the receiver is done. -/
theorem transfers_of_fillable (hr : Unrestricted r) (hs : t.Sound) (hname : GoodName name)
    (hopts : opts.recursive=true) (hfree : fs.Free (r.spot [name]))
    (hread : fs.may .read (0o777 &&& ~~~fs.umask)=true) (hfill : t.Fillable fs.may) :
    Transfers r opts t name fs := by
  obtain ⟨s',hconveys,hgrows⟩ := (sendEntry_decided hr hs hname { fs := fs } _
    (awaits_top hname hread) hfree rfl).arrives hfill
  refine ⟨⟨⟨.ret (some ()),()⟩,⟨.ret (some ()),s'⟩,[],[]⟩,?_,rfl,rfl,hgrows.node⟩
  refine Net.diamond.settles ?_ ?_
  · intro net hstep
    cases hstep with
    | left h => cases h
    | right h => cases h
  · exact ((connected_reach hopts).trans (hconveys _ _)).tail (.right rfl)

theorem fail_stays {left : ScpProg Unit (Option Unit)} {net net' : Exchange} {e : ScpError}
    (hreach : Net.Reach left r.run net net') (hfail : net.right.prog = .fail e) :
    net'.right.prog = .fail e := by
  induction hreach with
  | refl => exact hfail
  | tail _ hstep ih =>
    cases hstep with
    | left h => exact ih
    | right h =>
      rw [ih] at h
      cases h

theorem not_transfers (hr : Unrestricted r) (hs : t.Sound) (hname : GoodName name)
    (hopts : opts.recursive=true) (hfree : fs.Free (r.spot [name]))
    (hread : fs.may .read (0o777 &&& ~~~fs.umask)=true) (hfill : ¬t.Fillable fs.may) :
    ¬Transfers r opts t name fs := by
  rintro ⟨final,hsettles,-,hright,-⟩
  obtain ⟨net,e,hreach,hfail⟩ := (sendEntry_decided hr hs hname { fs := fs } _
    (awaits_top hname hread) hfree rfl).breaks hfill (sending opts t name) _
  have hend := fail_stays (hsettles.2.1 net ((connected_reach hopts).trans hreach)) hfail
  rw [hright] at hend
  cases hend

/-- A tree arrives as it is, exactly if the modes of its directories let the receiver add their
entries. -/
theorem transfers_iff (hr : Unrestricted r) (hs : t.Sound) (hname : GoodName name)
    (hopts : opts.recursive=true) (hfree : fs.Free (r.spot [name]))
    (hread : fs.may .read (0o777 &&& ~~~fs.umask)=true) :
    Transfers r opts t name fs ↔ t.Fillable fs.may := by
  constructor
  · intro htransfers
    by_contra hfill
    exact not_transfers hr hs hname hopts hfree hread hfill htransfers
  · exact transfers_of_fillable hr hs hname hopts hfree hread

end Whole

namespace Sample

/- The rights of an ordinary user on what is its own. -/
def ownerMay : Right → Mode → Bool
  | .read, mode => mode.getLsbD 8
  | .write, mode => mode.getLsbD 7
  | .search, mode => mode.getLsbD 6

def home : Fs := { rootOnly with may := ownerMay }

def inbox : Receiver :=
  { base := [.rootDir], opts := ⟨true,false,false⟩, maxFileSize := none }

/- A directory `d` with one empty file. -/
def tree (mode : Mode) : Tree := .dir mode 0 0 [(ascii "f",.file 0o644 0 0 [])]

theorem inbox_unrestricted : Unrestricted inbox := ⟨⟨[],rfl⟩,rfl,rfl,rfl,rfl⟩

theorem tree_sound (mode : Mode) : (tree mode).Sound := by
  have htimes : (Header.times 0 0).Writable := ⟨by decide,by decide⟩
  refine .dir htimes (by decide) ?_ ?_
  · intro e he
    rw [mem_singleton.1 he]
    exact ⟨by decide,rfl,by decide⟩
  · intro e he
    rw [mem_singleton.1 he]
    exact .file htimes (by decide)

theorem home_free : home.Free (inbox.spot [ascii "d"]) := by
  refine ⟨rfl,rfl,fun q => ?_⟩
  simp [home,rootOnly,inbox,Receiver.spot]

end Sample

theorem transfers_writable_dir :
    Unrestricted Sample.inbox ∧ (Sample.tree 0o755).Sound ∧ GoodName (ascii "d") ∧
      Sample.home.Free (Sample.inbox.spot [ascii "d"]) ∧
      Transfers Sample.inbox ⟨true,false⟩ (Sample.tree 0o755) (ascii "d") Sample.home := by
  have hname : GoodName (ascii "d") := ⟨by decide,rfl,by decide⟩
  refine ⟨Sample.inbox_unrestricted,Sample.tree_sound 0o755,hname,Sample.home_free,?_⟩
  refine (transfers_iff Sample.inbox_unrestricted (Sample.tree_sound 0o755) hname rfl
    Sample.home_free (by decide)).2 (.dir (fun _ => ⟨by decide,by decide⟩) ?_)
  intro e he
  rw [mem_singleton.1 he]
  exact .file

/-- A directory without owner write permission is not filled. -/
theorem not_transfers_readonly_dir :
    ¬Transfers Sample.inbox ⟨true,false⟩ (Sample.tree 0o555) (ascii "d") Sample.home := by
  have hname : GoodName (ascii "d") := ⟨by decide,rfl,by decide⟩
  refine not_transfers Sample.inbox_unrestricted (Sample.tree_sound 0o555) hname rfl
    Sample.home_free (by decide) ?_
  intro hfill
  cases hfill with
  | dir hrights _ => exact absurd (hrights (cons_ne_nil _ _)).1 (by decide)

end PureSsh.Scp
