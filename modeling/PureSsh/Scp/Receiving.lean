import PureSsh.Scp.Encoding
import PureSsh.Scp.Receiver

/-! What the receiver does with the records of a sender that keeps to the protocol. -/

namespace PureSsh.Scp

open Lib List

namespace Fs

variable {fs fs' : Fs} {p : Path}

/- Nothing is there yet, and it can be made. -/
structure Free (fs : Fs) (p : Path) : Prop where
  walk : fs.walk p = .ok ()
  mayCreate : fs.mayCreate p = .ok ()
  empty : ∀ q, fs.node (p++q)=none

theorem Free.node (h : fs.Free p) : fs.node p=none := by
  have := h.empty []
  rwa [append_nil] at this

theorem Free.symlinkMetadata (h : fs.Free p) : fs.symlinkMetadata p = .error .notFound := by
  rw [Fs.symlinkMetadata,h.walk,except_ok_bind,h.node]

theorem Free.createDir (h : fs.Free p) : fs.createDir p =
    .ok ((fs.put p (.dir (0o777 &&& ~~~fs.umask))).note (.touch .created p)) :=
  createDir_eq_ok.2 ⟨h.walk,h.node,h.mayCreate,rfl⟩

theorem Free.openWrite (h : fs.Free p) : fs.openWrite p =
    .ok (((fs.put p (.file (0o666 &&& ~~~fs.umask) [])).note (.touch .created p)).note
      (.touch .opened p)) := by
  rw [Fs.openWrite,h.walk,h.node,h.mayCreate]
  rfl

/- Nothing is there and nothing can be made, although the directory above is there. -/
structure Barred (fs : Fs) (p : Path) : Prop where
  parent : fs.walk p.dropLast = .ok () ∧ fs.node p.dropLast≠none
  refused : (∃ e, fs.walk p = .error e) ∨
    fs.walk p = .ok () ∧ fs.node p=none ∧ ∃ e, fs.mayCreate p = .error e

theorem Barred.createDir (h : fs.Barred p) : ∃ e, fs.createDir p = .error e := by
  rw [Fs.createDir]
  rcases h.refused with ⟨e,hwalk⟩ | ⟨hwalk,hnone,e,hmay⟩
  · rw [hwalk]
    exact ⟨e,rfl⟩
  · rw [hwalk,hnone,hmay]
    exact ⟨e,rfl⟩

theorem Barred.openWrite (h : fs.Barred p) : ∃ e, fs.openWrite p = .error e := by
  rw [Fs.openWrite]
  rcases h.refused with ⟨e,hwalk⟩ | ⟨hwalk,hnone,e,hmay⟩
  · rw [hwalk]
    exact ⟨e,rfl⟩
  · rw [hwalk,hnone,hmay]
    exact ⟨e,rfl⟩

theorem Barred.symlinkMetadata (h : fs.Barred p) : ∃ e, fs.symlinkMetadata p = .error e := by
  rw [Fs.symlinkMetadata]
  rcases h.refused with ⟨e,hwalk⟩ | ⟨hwalk,hnone,-⟩
  · rw [hwalk]
    exact ⟨e,rfl⟩
  · rw [hwalk,hnone]
    exact ⟨.notFound,rfl⟩

/- An object does not stand in its own way. -/
theorem walk_congr (hnode : ∀ q, q <+: p.dropLast → fs'.node q=fs.node q)
    (hmay : fs'.may=fs.may) : fs'.walk p=fs.walk p := by
  refine forM_congr fun q hq => ?_
  rw [enter,enter,hnode q (mem_inits_tail.1 hq).1,hmay]

theorem not_prefix_dropLast (hp : p≠[]) {q : Path} (hq : q <+: p.dropLast) : q≠p := by
  rintro rfl
  have hlen := hq.length_le
  rw [length_dropLast] at hlen
  have := length_pos_iff.2 hp
  omega

theorem walk_put (hp : p≠[]) (n : Node) : (fs.put p n).walk p=fs.walk p :=
  walk_congr (fun _ hq => put_node_ne fs p n (not_prefix_dropLast hp hq)) rfl

theorem createDirAll_of_walk (hwalk : fs.walk p = .ok ()) (h : fs.node p≠none) :
    (fs.createDirAll p).2=fs := by
  have hcreate : fs.createDir p = .error .alreadyExists := by
    rw [Fs.createDir,hwalk,except_ok_bind,if_pos (Option.isSome_iff_ne_none.2 h)]
  rw [createDirAll,hcreate]
  dsimp only
  split <;> rfl

theorem makeParent_eq (hwalk : fs.walk p.dropLast = .ok ()) (hnode : fs.node p.dropLast≠none) :
    Receiver.makeParent p fs=fs := by
  rw [Receiver.makeParent]
  split
  next q hq =>
    rw [Path.parent] at hq
    split at hq
    · cases hq
    · cases hq
      exact createDirAll_of_walk hwalk hnode
  next => rfl

theorem Barred.makeParent (h : fs.Barred p) : Receiver.makeParent p fs=fs :=
  makeParent_eq h.parent.1 h.parent.2

theorem Free.makeParent (h : fs.Free p) : Receiver.makeParent p fs=fs := by
  refine makeParent_eq (walk_eq_ok.2 fun q hq => ?_) (hasDir_of_mayCreate h.mayCreate).ne_none
  exact walk_eq_ok.1 h.walk q (hq.trans ( dropLast_prefix _))

end Fs

/- The state after one object has been put where it belongs. -/
structure Puts (target : Path) (n : Node) (s t : RecvState) : Prop where
  node : ∀ q, t.fs.node q=if q=target then some n else s.fs.node q
  may : t.fs.may=s.fs.may
  umask : t.fs.umask=s.fs.umask
  stack : t.stack=s.stack

namespace Receiver

variable {r : Receiver} {s : RecvState} {target : Path} {name : Bytes}

theorem stamp_node (target : Path) (s : RecvState) :
    (r.stamp target s).fs.node=s.fs.node ∧ (r.stamp target s).fs.may=s.fs.may ∧
      (r.stamp target s).fs.umask=s.fs.umask := by
  rw [stamp]
  split
  · rw [Fs.setTimes]
    split
    · split <;> exact ⟨rfl,rfl,rfl⟩
    · exact ⟨rfl,rfl,rfl⟩
  · exact ⟨rfl,rfl,rfl⟩

theorem makeDir_does (h : s.fs.Free target) : (makeDir target).Does s [] [] (.ok ())
    { s with
      fs := (s.fs.put target (.dir (0o777 &&& ~~~s.fs.umask))).note (.touch .created target) } := by
  refine .act ?_
  dsimp only [Prog.ret_bind]
  rw [h.symlinkMetadata]
  rw [h.createDir]
  exact Prog.modify_does _ s

/- The mode is set once the directory can be opened. -/
theorem applyMode_node {fs : Fs} {m : Mode} (hwalk : fs.walk target = .ok ())
    (hnode : fs.node target=some (.dir m)) (hread : fs.may .read m=true) (mode : Nat) :
    applyMode target mode fs =
      (fs.put target (.dir (BitVec.ofNat 12 mode))).note (.touch .chmod target) := by
  have hopen : fs.openDir target = .ok () := by
    rw [Fs.openDir,hwalk,hnode]
    exact if_pos hread
  rw [applyMode,hopen]
  rw [Fs.setPermissions,hnode]

theorem recvDir_does (htarget : r.resolveTarget s name=target)
    (hguard : r.guardPath target=pure ()) (hfree : s.fs.Free target) (hne : target≠[])
    (hread : s.fs.may .read (0o777 &&& ~~~s.fs.umask)=true) (mode : Nat) :
    ∃ t, (r.recvDir mode name).Does s [] [0] (.ok ()) t ∧
      Puts target (.dir (BitVec.ofNat 12 mode)) { s with stack := target::s.stack } t ∧
      t.pendingTimes=none := by
  let fs₁ := (s.fs.put target (.dir (0o777 &&& ~~~s.fs.umask))).note (.touch .created target)
  have hwalk : fs₁.walk target = .ok () := (Fs.walk_put hne _).trans hfree.walk
  have hmode := applyMode_node hwalk (Fs.put_node _ _ _) hread mode
  let u := r.stamp target ({ s with fs := fs₁ }.mapFs (applyMode target mode))
  obtain ⟨hnode,hmay,humask⟩ :=
    stamp_node (r := r) target ({ s with fs := fs₁ }.mapFs (applyMode target mode))
  refine ⟨{ u with stack := target::u.stack },?_,⟨fun q => ?_,?_,?_,rfl⟩,rfl⟩
  · refine .act ?_
    dsimp only [Prog.ret_bind]
    rw [htarget,hguard]
    refine (makeDir_does hfree).bind ?_
    exact (Prog.modify_does _ _).bind ((Prog.modify_does _ _).bind
      ((Prog.modify_does _ _).bind (send_does [0])))
  · rw [hnode,RecvState.mapFs,hmode]
    by_cases hq : q=target
    · rw [if_pos hq,hq]
      exact Fs.put_node _ _ _
    · rw [if_neg hq]
      exact (Fs.put_node_ne _ _ _ hq).trans (Fs.put_node_ne _ _ _ hq)
  · rw [hmay,RecvState.mapFs,hmode]
    rfl
  · rw [humask,RecvState.mapFs,hmode]
    rfl

/- The part of `recv_file` up to the open file. -/
def acceptFile (r : Receiver) (size : Nat) (name : Bytes) : ScpProg RecvState Path := do
  let target ← r.checkFile size name
  writeOk
  Prog.modify fun s => s.mapFs (makeParent target)
  openFile target
  pure target

theorem recvFile_eq (mode size : Nat) (name : Bytes) :
    r.recvFile mode size name=(r.acceptFile size name).bind (r.storeFile mode size) := by
  simp only [acceptFile,Prog.bind_def,Prog.bind_assoc]
  rfl

theorem acceptFile_does (htarget : r.resolveTarget s name=target)
    (hguard : r.guardPath target=pure ()) (hfree : s.fs.Free target) {size : Nat}
    (hadmits : r.Admits s size name) : ∃ t, (r.acceptFile size name).Does s [] [0] (.ok target) t ∧
      Puts target (.file (0o666 &&& ~~~s.fs.umask) []) s t := by
  have hsame : s.mapFs (makeParent target)=s := by rw [RecvState.mapFs,hfree.makeParent]
  have hlink : s.fs.symlinkMetadata target ≠ .ok .symlink := by
    rw [hfree.symlinkMetadata]
    nofun
  let t : RecvState := { s with
    fs := ((s.fs.put target (.file (0o666 &&& ~~~s.fs.umask) [])).note
      (.touch .created target)).note (.touch .opened target) }
  refine ⟨t,?_,fun q => rfl,rfl,rfl,rfl⟩
  have hopen : (openFile target).Does s [] [] (.ok ()) t := by
    refine .act ?_
    dsimp only [Prog.ret_bind]
    rw [hfree.openWrite]
    exact Prog.modify_does _ s
  have hmake : (Prog.modify fun s => s.mapFs (makeParent target) : ScpProg RecvState Unit).Does s [] []
      (.ok ()) s := by
    have h := Prog.modify_does (β := UInt8) (ι := IoError) (ε := ScpError)
      (fun s : RecvState => s.mapFs (makeParent target)) s
    rwa [hsame] at h
  have hrest : (do
      Prog.modify fun s => s.mapFs (makeParent target)
      openFile target
      pure target : ScpProg RecvState Path).Does s [] [] (.ok target) t :=
    hmake.bind (hopen.bind (Prog.Does.ret target t))
  exact (checkFile_does htarget hguard hadmits hlink).bind ((send_does [0]).bind hrest)

section Content

variable {m : Mode}

theorem writeAt_append {fs : Fs} {done tail : Bytes} {b : UInt8}
    (hnode : fs.node target=some (.file m (done++tail))) :
    fs.writeAt target done.length b=fs.put target (.file m ((done++[b])++tail.drop 1)) := by
  rw [Fs.writeAt,hnode]
  simp

theorem readPayload_does (content : Bytes) {s : RecvState} {done tail : Bytes}
    (hnode : s.fs.node target=some (.file m (done++tail))) :
    ∃ t, (readPayload (writeContent target) done.length content.length).Does s (content++[0]) []
        (.ok ()) t ∧ t.pendingTimes=s.pendingTimes ∧
      Puts target (.file m (done++content++tail.drop content.length)) s t := by
  induction content generalizing s done tail with
  | nil =>
    refine ⟨s,?_,rfl,fun q => ?_,rfl,rfl,rfl⟩
    · exact .read (.ret () s)
    · split
      next hq => rw [hq,hnode,append_nil,length_nil,drop_zero]
      next => rfl
  | cons b content ih =>
    have hwrite := writeAt_append (b := b) hnode
    have hnode' : (s.mapFs fun fs => fs.writeAt target done.length b).fs.node target =
        some (.file m ((done++[b])++tail.drop 1)) := by
      rw [RecvState.mapFs,hwrite]
      exact Fs.put_node _ _ _
    obtain ⟨t,hdoes,htimes,hputs⟩ := ih hnode'
    refine ⟨t,?_,htimes,fun q => ?_,?_,?_,hputs.stack⟩
    · refine .read ?_
      rw [length_append] at hdoes
      exact (Prog.modify_does _ s).bind hdoes
    · rw [hputs.node q]
      split
      · simp
      next hq =>
        rw [RecvState.mapFs,hwrite]
        exact Fs.put_node_ne _ _ _ hq
    · rw [hputs.may,RecvState.mapFs,hwrite]
      rfl
    · rw [hputs.umask,RecvState.mapFs,hwrite]
      rfl

/-- The payload becomes the file. -/
theorem storeFile_does {content old : Bytes} (hnode : s.fs.node target=some (.file m old))
    (mode : Nat) :
    ∃ t, (r.storeFile mode content.length target).Does s (content++[0]) [0] (.ok ()) t ∧
      Puts target (.file (BitVec.ofNat 12 mode) content) s t := by
  have hstart : s.fs.node target=some (.file m ([]++old)) := hnode
  obtain ⟨u,hdoes,-,hputs⟩ := readPayload_does content hstart
  have hu : u.fs.node target=some (.file m (content++old.drop content.length)) := by
    rw [hputs.node,if_pos rfl,nil_append]
  let fs' := (u.fs.setLen target content.length).setPermissions target (BitVec.ofNat 12 mode)
  have hlen : u.fs.setLen target content.length=u.fs.put target (.file m content) := by
    rw [Fs.setLen,hu]
    dsimp only
    rw [take_left,length_append,Nat.sub_eq_zero_of_le (Nat.le_add_right _ _),
      replicate_zero,append_nil]
  have hmode : fs'=((u.fs.put target (.file m content)).put target
      (.file (BitVec.ofNat 12 mode) content)).note (.touch .chmod target) := by
    dsimp only [fs']
    rw [hlen,Fs.setPermissions,Fs.put_node]
  obtain ⟨hstamp,hmay,humask⟩ := stamp_node (r := r) target { u with fs := fs' }
  refine ⟨{ r.stamp target { u with fs := fs' } with receivedOne := true },?_,fun q => ?_,?_,?_,?_⟩
  · have hrest : (do
        Prog.modify fun s => s.mapFs fun fs =>
          (fs.setLen target content.length).setPermissions target (BitVec.ofNat 12 mode)
        r.takeTimes target
        writeOk
        Prog.modify fun s => { s with receivedOne := true } : ScpProg RecvState Unit).Does u [] [0]
          (.ok ()) _ :=
      (Prog.modify_does _ u).bind ((Prog.modify_does _ _).bind
        ((send_does [0]).bind (Prog.modify_does _ _)))
    rw [← append_nil (content++[0])]
    exact hdoes.attempt.bind hrest
  · rw [hstamp,hmode]
    by_cases hq : q=target
    · rw [if_pos hq,hq]
      exact Fs.put_node _ _ _
    · rw [if_neg hq]
      refine (Fs.put_node_ne _ _ _ hq).trans ((Fs.put_node_ne _ _ _ hq).trans ?_)
      rw [hputs.node,if_neg hq]
  · rw [hmay,hmode]
    exact hputs.may
  · rw [humask,hmode]
    exact hputs.umask
  · exact hputs.stack

end Content

section Records

variable {mode : Nat}

theorem run_does {h : Header} (hw : h.Writable) {inbox out : Bytes}
    {res : Except ScpError (Option Unit)} {t : RecvState}
    (hdoes : (r.dispatch h).Does (s.mapFs fun fs => fs.note (.record h)) inbox out res t) :
    r.run.Does s (headerLine h++inbox) out res t := by
  obtain ⟨b,kind,line,htext,hkind,hline,hparse⟩ := readHeader_headerLine hw
  rw [htext]
  exact (nextHeader_does hkind hline hparse).bind hdoes

theorem free_note {h : Header} (hfree : s.fs.Free target) :
    (s.mapFs fun fs => fs.note (.record h)).fs.Free target :=
  ⟨hfree.walk,hfree.mayCreate,hfree.empty⟩

theorem run_times_does {mtime atime : Int} (hw : (Header.times mtime atime).Writable) :
    ∃ t, r.run.Does s (headerLine (.times mtime atime)) [0] (.ok none) t ∧
      t.fs=s.fs.note (.record (.times mtime atime)) ∧ t.stack=s.stack := by
  refine ⟨{ s with
    fs := s.fs.note (.record (.times mtime atime)), pendingTimes := some (mtime,atime) },
    ?_,rfl,rfl⟩
  rw [← append_nil (headerLine _)]
  exact run_does hw ((Prog.modify_does _ _).bind ((send_does [0]).bind (.ret none _)))

theorem run_endDir_does (hstack : s.stack≠[]) :
    ∃ t, r.run.Does s (headerLine .endDir) [0] (.ok none) t ∧
      t.fs=s.fs.note (.record .endDir) ∧ t.stack=s.stack.tail := by
  refine ⟨{ s with
    fs := s.fs.note (.record .endDir), stack := s.stack.tail, pendingTimes := none },?_,rfl,rfl⟩
  refine run_does (h := .endDir) trivial (.act ?_)
  dsimp only [Prog.ret_bind,RecvState.mapFs]
  rw [if_neg fun h => hstack (isEmpty_iff.1 h)]
  exact (Prog.modify_does _ _).bind ((send_does [0]).bind (.ret none _))

theorem run_dir_does (hw : (Header.dir mode name).Writable) (hrec : r.opts.recursive=true)
    (hfilter : r.topLevelFilter=none) (htarget : r.resolveTarget s name=target)
    (hguard : r.guardPath target=pure ()) (hfree : s.fs.Free target) (hne : target≠[])
    (hread : s.fs.may .read (0o777 &&& ~~~s.fs.umask)=true) :
    ∃ t, r.run.Does s (headerLine (.dir mode name)) [0] (.ok none) t ∧
      Puts target (.dir (BitVec.ofNat 12 mode)) { s with stack := target::s.stack } t := by
  let u := s.mapFs fun fs => fs.note (.record (.dir mode name))
  obtain ⟨t,hdoes,hputs,-⟩ := recvDir_does (s := u) (r := r) htarget hguard
    (free_note hfree) hne hread mode
  refine ⟨t,?_,hputs.node,hputs.may,hputs.umask,hputs.stack⟩
  have hpass : (r.checkTopLevelName name).Does u [] [] (.ok ()) u :=
    checkTopLevelName_does fun _ filter hf => by rw [hfilter] at hf; cases hf
  rw [← append_nil (headerLine _)]
  refine run_does hw ?_
  rw [dispatch,hrec]
  exact hpass.bind (hdoes.bind (.ret none t))

end Records

section Refused

theorem refuse_does {σ α : Type} (msg : Bytes) (e : ScpError) (s : σ) :
    ∃ out e', (refuse msg e : ScpProg σ α).Does s [] out (.error e') s := ⟨_,e,.write (.fail e s)⟩

theorem makeDir_refused (hbarred : s.fs.Barred target) :
    ∃ out e, (makeDir target).Does s [] out (.error e) s := by
  obtain ⟨e,hmeta⟩ := hbarred.symlinkMetadata
  obtain ⟨e',hcreate⟩ := hbarred.createDir
  by_cases hmissing : e = .notFound
  · refine ⟨fatalFrame (osText e')++[],.io (osError e'),.act ?_⟩
    dsimp only [Prog.ret_bind]
    rw [hmeta,hmissing]
    rw [hcreate]
    exact .write (.fail _ s)
  · refine ⟨fatalFrame (osText e)++[],.io (osError e),.act ?_⟩
    dsimp only [Prog.ret_bind]
    rw [hmeta]
    cases e with
    | notFound => exact absurd rfl hmissing
    | _ => exact .write (.fail _ s)

theorem recvDir_refused (htarget : r.resolveTarget s name=target)
    (hguard : r.guardPath target=pure ()) (hbarred : s.fs.Barred target) (mode : Nat) :
    ∃ out e, (r.recvDir mode name).Does s [] out (.error e) s := by
  obtain ⟨out,e,hmake⟩ := makeDir_refused hbarred
  refine ⟨out,e,.act ?_⟩
  dsimp only [Prog.ret_bind]
  rw [htarget,hguard]
  exact hmake.bind_error

theorem openFile_refused (hbarred : s.fs.Barred target) :
    ∃ out e, (openFile target).Does s [] out (.error e) s := by
  obtain ⟨e,hopen⟩ := hbarred.openWrite
  obtain ⟨out,e',hrefuse⟩ := refuse_does (α := Unit) (osText e) (.io (osError e)) s
  refine ⟨out,e',.act ?_⟩
  dsimp only [Prog.ret_bind]
  rw [hopen]
  exact hrefuse

theorem recvFile_refused (htarget : r.resolveTarget s name=target)
    (hguard : r.guardPath target=pure ()) (hbarred : s.fs.Barred target) {size : Nat}
    (hadmits : r.Admits s size name) (mode : Nat) :
    ∃ out e, (r.recvFile mode size name).Does s [] out (.error e) s := by
  have hlink : s.fs.symlinkMetadata target ≠ .ok .symlink := by
    obtain ⟨e,hmeta⟩ := hbarred.symlinkMetadata
    rw [hmeta]
    nofun
  have hsame : s.mapFs (makeParent target)=s := by rw [RecvState.mapFs,hbarred.makeParent]
  obtain ⟨out,e,hopen⟩ := openFile_refused hbarred
  refine ⟨[]++([0]++out),e,(checkFile_does htarget hguard hadmits hlink).bind
    ((send_does [0]).bind (.act ?_))⟩
  rw [hsame]
  exact hopen.bind_error

end Refused

end Receiver

end PureSsh.Scp
