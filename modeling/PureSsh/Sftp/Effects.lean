import PureSsh.Sftp.Confinement

/-! What a session does to the file system when it may not write, and when an OPEN is refused; and its
table of handles. -/

namespace PureSsh.Sftp
open Lib Scp Proc

variable (policy : Policy) (how : How) (p : Names) (w : World)

/- Nothing has been made, removed, renamed or changed. -/
def World.Same (w' : World) : Prop := w'.fs=w.fs ∧ w'.edits=w.edits

section ReadOnly
variable {opts : Options}

theorem same_kept (w₀ : World) (h : opts.readOnly=true) :
    Preserved opts w₀.Same (fun _ => True) (fun _ => True) := by
  have hno : opts.readOnly≠false := by simp [h]
  exact {
    locate := fun _ _ _ => trivial
    touch := fun hw _ => hw
    edit := fun hw => absurd hw hno
    unlink := fun hw => absurd hw hno
    newFile := fun hw => absurd hw hno
    newDir := fun hw => absurd hw hno
    copy := fun hw => absurd hw hno
    move := fun hw => absurd hw hno
    resolve := fun _ => trivial
    handle := fun _ _ => ⟨trivial,trivial⟩
    alloc := fun hw _ _ _ => hw
    close := id
    readdir := fun hw _ _ => hw }

end ReadOnly

section Handles
variable {opts : Options} {live : List Nat} {next : Nat}

/- The identifier after `id`. -/
def nextId (id : Nat) : Nat := max 1 ((id+1)%2^64)

theorem freeId_live {fuel : Nat} (h : freeId live fuel next∈live) :
    ∀ i≤fuel, nextId^[i] next∈live := by
  induction fuel generalizing next with
  | zero =>
    intro i hi
    rw [Nat.le_zero.1 hi]
    exact h
  | succ fuel ih =>
    rw [freeId] at h
    split at h
    · next hnext =>
      intro i hi
      cases i with
      | zero => exact hnext
      | succ i => exact ih h i (Nat.le_of_succ_le_succ hi)
    · next hnext => exact absurd h hnext

theorem nextId_iterate (h : 1≤next ∧ next<2^64) (i : Nat) :
    nextId^[i] next=(next-1+i)%(2^64-1)+1 := by
  induction i with
  | zero =>
    rw [Function.iterate_zero,id]
    omega
  | succ i ih =>
    rw [Function.iterate_succ_apply',ih,nextId]
    omega

/-- The search ends at an identifier that is not in use: it takes as many steps as there are, and one
more identifier. -/
theorem freeId_fresh (h : 1≤next ∧ next<2^64) (hlive : live.length<2^64-1) :
    freeId live live.length next∉live := by
  intro hmem
  have hall := freeId_live hmem
  have hnodup : ((List.range (live.length+1)).map fun i => nextId^[i] next).Nodup := by
    refine List.Nodup.map_on (fun i hi k hk heq => ?_) List.nodup_range
    rw [nextId_iterate h,nextId_iterate h] at heq
    rw [List.mem_range] at hi hk
    omega
  have hle := (hnodup.subperm fun id hid => by
    obtain ⟨i,hi,rfl⟩ := List.mem_map.1 hid
    exact hall i (Nat.le_of_lt_succ (List.mem_range.1 hi))).length_le
  simp at hle

/-- The table of handles: no more than are allowed, under distinct identifiers. -/
structure Table (opts : Options) (handles : List (Nat × FileHandle)) (next : Nat) : Prop where
  count : handles.length≤opts.maxHandles
  nodup : (handles.map Prod.fst).Nodup
  range : 1≤next ∧ next<2^64

theorem Table.fresh {handles : List (Nat × FileHandle)} (h : Table opts handles next)
    (hmax : opts.maxHandles<2^64) (hfree : handles.length<opts.maxHandles) :
    freeId (handles.map Prod.fst) handles.length next∉handles.map Prod.fst := by
  have hfresh := @freeId_fresh (handles.map Prod.fst) _ h.range (by rw [List.length_map]; omega)
  rwa [List.length_map] at hfresh

theorem table_kept (hmax : opts.maxHandles<2^64) :
    Preserved opts (fun w => Table opts w.handles w.next) (fun _ => True) (fun _ => True) where
  locate _ _ _ := trivial
  touch hw _ := hw
  edit _ hw _ := hw
  unlink _ hw _ _ _ := hw
  newFile _ hw _ _ := hw
  newDir _ hw _ _ := hw
  copy _ hw _ _ _ _ _ _ := hw
  move _ hw _ _ _ _ := hw
  resolve _ := trivial
  handle _ _ := ⟨trivial,trivial⟩
  alloc hw _ _ hfree := by
    refine ⟨hfree,?_,Nat.le_max_left _ _,max_lt (by decide) (Nat.mod_lt _ (by decide))⟩
    rw [World.alloc,List.map_cons,List.nodup_cons]
    exact ⟨hw.fresh hmax hfree,hw.nodup⟩
  close hw := by
    refine ⟨(List.length_filter_le _ _).trans hw.count,?_,hw.range⟩
    exact hw.nodup.sublist (List.filter_sublist.map _)
  readdir {w id h} hw _ _ := by
    have hids : (w.handles.map fun e => if e.1=id then (id,h) else e).map Prod.fst =
        w.handles.map Prod.fst := by
      rw [List.map_map]
      refine List.map_congr_left fun e _ => ?_
      rw [Function.comp_apply]
      split
      · next he => exact he.symm
      · rfl
    exact ⟨by rw [List.length_map]; exact hw.count,hids ▸ hw.nodup,hw.range⟩

end Handles

section Open
/- The open succeeds, and makes a file or truncates one. -/
def Alters : Prop :=
  how.valid=true ∧ ∃ place, locate w.fs (!how.noFollow && !how.createNew) p = .ok place ∧
    policy .openFile place=none ∧
    (w.fs.node place=none ∧ (how.create || how.createNew)=true ∨
      (∃ ino, w.fs.node place=some (.file ino)) ∧ how.createNew=false ∧ how.truncate=true)

/- A refused open changes nothing, and one that succeeds the file system exactly if it makes or
truncates a file. -/
def Opens : Except SftpError (Names × Option Nat) × World → Prop
  | (.error _,w') => w'=w ∧ ¬Alters policy how p w
  | (.ok _,w') => w'.handles=w.handles ∧ (w.Same w' ↔ ¬Alters policy how p w)

theorem openFile_opens : Opens policy how p w (openFile policy how p w) := by
  rw [openFile]
  cases hvalid : how.valid with
  | false => exact ⟨rfl,by simp [Alters,hvalid]⟩
  | true =>
    rw [if_neg (by simp)]
    refine call_rule (Q := Opens policy how p w) ?_ fun place hloc hpolicy => ?_
    · rintro hno e
      refine ⟨rfl,?_⟩
      rintro ⟨_,place,hloc,hpolicy,_⟩
      exact hno place hloc hpolicy
    have halters : Alters policy how p w ↔
        (w.fs.node place=none ∧ (how.create || how.createNew)=true ∨
          (∃ ino, w.fs.node place=some (.file ino)) ∧ how.createNew=false ∧ how.truncate=true) := by
      simp [Alters,hvalid,hloc,hpolicy]
    cases hnode : w.fs.node place with
    | none =>
      dsimp only
      split
      · next hcreate =>
        refine ⟨rfl,iff_of_false ?_ (by simp [halters,hnode,hcreate])⟩
        exact fun hsame => absurd (congrArg Fs.nextIno hsame.1) (Nat.succ_ne_self _)
      · next hcreate => exact ⟨rfl,by simp [halters,hnode,hcreate]⟩
    | some node => cases node with
      | link _ => exact ⟨rfl,by simp [halters,hnode]⟩
      | dir =>
        dsimp only
        split
        · exact ⟨rfl,by simp [halters,hnode]⟩
        split
        · exact ⟨rfl,by simp [halters,hnode]⟩
        · exact ⟨rfl,by simp [halters,hnode,World.Same]⟩
      | file ino =>
        dsimp only
        split
        · next hnew => exact ⟨rfl,by simp [halters,hnode,hnew]⟩
        split
        · next hnew htrunc => exact ⟨rfl,by simp [halters,hnode,World.Same,hnew,htrunc]⟩
        · next hnew htrunc => exact ⟨rfl,by simp [halters,hnode,World.Same,hnew,htrunc]⟩

theorem mapOpenErr_opens : Opens policy how p w (mapOpenErr (openFile policy how p) w) := by
  have h := openFile_opens policy how p w
  rw [mapOpenErr]
  split
  · next heq =>
    rw [heq] at h
    exact h
  · exact h

theorem writableIf_cases (opts : Options) (c : Bool) (w : World) :
    onlyIf c (requireWritable opts) w=(.ok (),w) ∧ (c=true → opts.readOnly=false) ∨
    (∃ e, onlyIf c (requireWritable opts) w=(.error e,w)) ∧ ¬(c=true → opts.readOnly=false) := by
  rw [onlyIf,requireWritable]
  cases c with
  | false => exact .inl ⟨rfl,by simp⟩
  | true =>
    cases hread : opts.readOnly with
    | false => exact .inl ⟨rfl,by simp⟩
    | true => exact .inr ⟨⟨_,rfl⟩,by simp⟩

/-- An OPEN that fails leaves the file system as it was, unless the table of handles is full and the
file has been made or truncated before that was looked at. -/
theorem opOpen_failure (opts : Options) (path : Bytes) (pflags : OpenFlags)
    (w : World) : ((∃ e, (opOpen policy opts path pflags w).1 = .error e) →
        w.Same (opOpen policy opts path pflags w).2) ↔
      ¬(opts.maxHandles≤w.handles.length ∧ ∃ p, resolve opts.cwd path opts.root = .ok p ∧
        ((pflags.write || pflags.append)=true → opts.readOnly=false) ∧
        Alters policy (pflags.how opts.root.isSome) p w) := by
  generalize hout : opOpen policy opts path pflags w=out
  rw [opOpen,resolvePath] at hout
  cases hres : resolve opts.cwd path opts.root with
  | error e =>
    rw [hres] at hout
    subst hout
    exact iff_of_true (fun _ => ⟨rfl,rfl⟩) (by simp)
  | ok p =>
    rw [hres,lift_ok_bind] at hout
    obtain ⟨hreq,hwant⟩ | ⟨⟨e,hreq⟩,hwant⟩ := writableIf_cases opts (pflags.write || pflags.append) w
    · rw [bind_of_ok hreq] at hout
      have hopens := mapOpenErr_opens policy (pflags.how opts.root.isSome) p w
      rcases hopen : mapOpenErr (openFile policy (pflags.how opts.root.isSome) p) w
        with ⟨e | ⟨place,ino⟩,w'⟩ <;> rw [hopen] at hopens
      · obtain rfl := (bind_of_error hopen _).symm.trans hout
        obtain ⟨rfl,halters⟩ := hopens
        exact iff_of_true (fun _ => ⟨rfl,rfl⟩) (by simp [halters])
      · replace hout := (bind_of_ok hopen _).symm.trans hout
        obtain ⟨hhandles,hsame⟩ := hopens
        dsimp only at hout
        rw [allocHandle,bind_apply,get_bind,hhandles] at hout
        by_cases hfull : opts.maxHandles≤w.handles.length
        · rw [if_pos hfull] at hout
          subst hout
          refine ⟨?_,fun h _ => hsame.2 fun ha => h ⟨hfull,p,rfl,hwant,ha⟩⟩
          rintro h ⟨-,p',⟨⟩,-,ha⟩
          exact hsame.1 (h ⟨_,rfl⟩) ha
        · rw [if_neg hfull] at hout
          subst hout
          refine iff_of_true ?_ (by simp [hfull])
          rintro ⟨e,⟨⟩⟩
    · rw [bind_of_error hreq] at hout
      subst hout
      exact iff_of_true (fun _ => ⟨rfl,rfl⟩) fun h => hwant h.2.choose_spec.2.1

end Open

section Runs
variable {opts : Options}

/-- An invariant that does not depend on the file system, or of a session that cannot change it, holds
along a whole session. -/
theorem serve_keeps {Inv : World → Prop} {Path Place : Names → Prop}
    (hk : Preserved opts Inv Path Place) (hchange : ∀ {w fs}, opts.readOnly=false → Inv w →
      Inv { w with fs := fs }) (requests : List (Policy × Packet)) {w : World} (hw : Inv w) :
    Inv (serve opts w requests) := by
  induction requests generalizing w with
  | nil => exact hw
  | cons r rest ih =>
    exact ih (dispatch_keeps hk r.2 hw (fun _ _ hwritable _ _ _ => hchange hwritable hw)
      fun _ _ _ hremoves _ => hchange hremoves.writable hw)

/-- A read-only session changes nothing; the table of handles stays within its limit, and a handle
never gets the identifier of another one. An OPEN that fails changes nothing either, unless the table
is full and the file has been made or truncated before that was noticed. -/
theorem session_effects (opts : Options) (hmax : opts.maxHandles<2^64) (fs : Fs)
    (requests : List (Policy × Packet)) (w : World) (hw : serve opts (.init fs) requests=w) :
    (opts.readOnly=true → w.fs=fs ∧ w.edits=[]) ∧
    w.handles.length≤opts.maxHandles ∧ (w.handles.map Prod.fst).Nodup ∧
    (∀ h id w', allocHandle opts h w=(.ok id,w') → id∉w.handles.map Prod.fst) ∧
    ∀ policy path pflags a, ((∃ e, (dispatch policy opts (.open path pflags a) w).1 = .error e) →
          w.Same (dispatch policy opts (.open path pflags a) w).2) ↔
        ¬(opts.maxHandles≤w.handles.length ∧ ∃ p, resolve opts.cwd path opts.root = .ok p ∧
          ((pflags.write || pflags.append)=true → opts.readOnly=false) ∧
          Alters policy (pflags.how opts.root.isSome) p w) := by
  have htable : Table opts w.handles w.next := by
    rw [← hw]
    refine serve_keeps (table_kept hmax) (fun _ h => h) requests ⟨Nat.zero_le _,.nil,?_⟩
    exact ⟨Nat.le_refl 1,Nat.one_lt_two_pow (by decide)⟩
  refine ⟨fun hread => ?_,htable.count,htable.nodup,?_,fun policy path pflags _ =>
    opOpen_failure policy opts path pflags w⟩
  · rw [← hw]
    exact serve_keeps (same_kept (.init fs) hread)
      (fun hwritable => absurd hwritable (by simp [hread])) requests ⟨rfl,rfl⟩
  · intro h id w' halloc
    rw [allocHandle,get_bind] at halloc
    split at halloc
    · cases halloc
    · next hfree =>
      cases halloc
      exact htable.fresh hmax (Nat.not_le.1 hfree)

theorem session_effects_srv :
    (serve { srvOptions with readOnly := true } (.init srvFs) [(allowAll,.mkdir [100] {})]).fs=srvFs ∧
    (serve { srvOptions with readOnly := true } (.init srvFs) [(allowAll,.mkdir [100] {})]).edits=[] :=
  (session_effects { srvOptions with readOnly := true } (by decide) srvFs _ _ rfl).1 rfl

/- A session that may have no file open. -/
def closedOptions : Options := { srvOptions with maxHandles := 0 }

/-- The file is made although the reply says that it could not be opened. -/
theorem refused_open_makes_file :
    (dispatch allowAll closedOptions (.open [102] { write := true, creat := true } {})
        (.init srvFs)).1 = .error (.status .failure "too many open handles") ∧
    (dispatch allowAll closedOptions (.open [102] { write := true, creat := true } {})
        (.init srvFs)).2.fs.node (srvJail.place++[[102]])=some (.file 1) ∧
    srvFs.node (srvJail.place++[[102]])=none := by
  decide

end Runs

end PureSsh.Sftp
