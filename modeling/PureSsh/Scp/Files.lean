import Mathlib.Data.List.Infix
import PureSsh.Scp.Protocol

/-! Paths and the file system, as far as the two sides of SCP use it. -/

namespace PureSsh.Scp

open Lib List

inductive Component
  | rootDir
  | curDir
  | parentDir
  | normal (name : Bytes)
  deriving DecidableEq, Repr

abbrev Path := List Component

/- A piece between slashes; empty pieces and inner dots are not components. -/
def componentOf (part : Bytes) : Option Component :=
  if part=[] ∨ part=[dot] then none
  else if part=[dot,dot] then some .parentDir
  else some (.normal part)

namespace Path

/- An absolute path replaces the one it is joined to. -/
def join (p : Path) (raw : Bytes) : Path :=
  let parts := (raw.splitOn slash).filterMap componentOf
  if raw.head?=some slash then .rootDir::parts else p++parts

def parent (p : Path) : Option Path := if p.length≤1 then none else some p.dropLast

def normalizeStep (out : Path) : Component → Path
  | .parentDir =>
    match out.getLast? with
    | some (.normal _) => out.dropLast
    | _ => out++[.parentDir]
  | .curDir => out
  | other => out++[other]

def lexicalNormalize (p : Path) : Path := p.foldl normalizeStep []

/- What `canonicalize` returns: an absolute path of names. -/
def Canonical (p : Path) : Prop := ∃ names : List Bytes, p = .rootDir::names.map .normal

end Path

abbrev Mode := BitVec 12

inductive Right
  | read
  | write
  | search
  deriving DecidableEq

inductive Node
  | file (mode : Mode) (content : Bytes)
  | dir (mode : Mode)
  | symlink
  deriving DecidableEq

inductive Kind
  | file
  | dir
  | symlink
  deriving DecidableEq

def Node.kind : Node → Kind
  | .file _ _ => .file
  | .dir _ => .dir
  | .symlink => .symlink

inductive Touch
  | created
  | opened
  | chmod
  deriving DecidableEq

/- What has been done so far: the records that were read, and the objects that were created, opened
for writing or given another mode. -/
inductive Event
  | record (h : Header)
  | touch (what : Touch) (p : Path)
  deriving DecidableEq

/- The file system as one process sees it. `may` are its rights on an object of a given mode. -/
structure Fs where
  node : Path → Option Node
  may : Right → Mode → Bool
  umask : Mode
  trail : List Event

namespace Fs

def note (fs : Fs) (e : Event) : Fs := { fs with trail := fs.trail++[e] }

def put (fs : Fs) (p : Path) (n : Node) : Fs :=
  { fs with node := fun q => if q=p then some n else fs.node q }

/- A link on the way is one that leads nowhere: the base is canonical, and below it no link is
followed. -/
def enter (fs : Fs) (p : Path) : Except IoErrorKind Unit :=
  match fs.node p with
  | some (.dir mode) => if fs.may .search mode then .ok () else .error .permissionDenied
  | some (.file _ _) => .error .notADirectory
  | some .symlink => .error .notFound
  | none => .error .notFound

/- All directories above `p` are entered. -/
def walk (fs : Fs) (p : Path) : Except IoErrorKind Unit := p.dropLast.inits.tail.forM fs.enter

def symlinkMetadata (fs : Fs) (p : Path) : Except IoErrorKind Node := do
  fs.walk p
  match fs.node p with
  | some n => .ok n
  | none => .error .notFound

/- An entry is added to the directory above `p`. -/
def mayCreate (fs : Fs) (p : Path) : Except IoErrorKind Unit :=
  match fs.node p.dropLast with
  | some (.dir mode) => if fs.may .write mode then .ok () else .error .permissionDenied
  | _ => .error .notFound

def createDir (fs : Fs) (p : Path) : Except IoErrorKind Fs := do
  fs.walk p
  if (fs.node p).isSome then .error .alreadyExists
  else
    fs.mayCreate p
    .ok ((fs.put p (.dir (0o777 &&& ~~~fs.umask))).note (.touch .created p))

def isDir (fs : Fs) (p : Path) : Bool :=
  match fs.symlinkMetadata p with
  | .ok (.dir _) => true
  | _ => false

/- `create_dir_all`: a missing parent is made first. -/
def createDirAll (fs : Fs) (p : Path) : Except IoErrorKind Unit × Fs :=
  match fs.createDir p with
  | .ok fs' => (.ok (),fs')
  | .error .notFound =>
    if _ : p.length≤1 then (.error .other,fs)
    else match createDirAll fs p.dropLast with
      | (.error e,fs') => (.error e,fs')
      | (.ok (),fs') => match fs'.createDir p with
        | .ok fs'' => (.ok (),fs'')
        | .error e => if fs'.isDir p then (.ok (),fs') else (.error e,fs')
  | .error e => if fs.isDir p then (.ok (),fs) else (.error e,fs)
termination_by p.length
decreasing_by
  rw [length_dropLast]
  omega

/- Opened for writing, made if it is missing, never through a link. -/
def openWrite (fs : Fs) (p : Path) : Except IoErrorKind Fs := do
  fs.walk p
  match fs.node p with
  | some .symlink => .error .filesystemLoop
  | some (.dir _) => .error .isADirectory
  | some (.file mode _) =>
    if fs.may .write mode then .ok (fs.note (.touch .opened p)) else .error .permissionDenied
  | none =>
    fs.mayCreate p
    .ok (((fs.put p (.file (0o666 &&& ~~~fs.umask) [])).note (.touch .created p)).note
      (.touch .opened p))

/- A directory opened for reading, never through a link. -/
def openDir (fs : Fs) (p : Path) : Except IoErrorKind Unit := do
  fs.walk p
  match fs.node p with
  | some (.dir mode) => if fs.may .read mode then .ok () else .error .permissionDenied
  | some (.file _ _) => .error .notADirectory
  | some .symlink => .error .filesystemLoop
  | none => .error .notFound

/- The operations on an open object. -/
def setPermissions (fs : Fs) (p : Path) (mode : Mode) : Fs :=
  match fs.node p with
  | some (.file _ content) => (fs.put p (.file mode content)).note (.touch .chmod p)
  | some (.dir _) => (fs.put p (.dir mode)).note (.touch .chmod p)
  | _ => fs

def writeAt (fs : Fs) (p : Path) (pos : Nat) (b : UInt8) : Fs :=
  match fs.node p with
  | some (.file mode content) =>
    fs.put p (.file mode (content.take pos++b::content.drop (pos+1)))
  | _ => fs

def setLen (fs : Fs) (p : Path) (size : Nat) : Fs :=
  match fs.node p with
  | some (.file mode content) =>
    fs.put p (.file mode (content.take size++replicate (size-content.length) 0))
  | _ => fs

/- `set_times` opens the object once more; the times themselves are not kept here. -/
def setTimes (fs : Fs) (p : Path) : Fs :=
  match fs.walk p, fs.node p with
  | .ok (), some (.file mode _) =>
    if fs.may .write mode then fs.note (.touch .opened p) else fs
  | _, _ => fs

@[simp] theorem note_node (fs : Fs) (e : Event) : (fs.note e).node=fs.node := rfl

@[simp] theorem note_may (fs : Fs) (e : Event) : (fs.note e).may=fs.may := rfl

@[simp] theorem note_trail (fs : Fs) (e : Event) : (fs.note e).trail=fs.trail++[e] := rfl

@[simp] theorem put_may (fs : Fs) (p : Path) (n : Node) : (fs.put p n).may=fs.may := rfl

@[simp] theorem put_trail (fs : Fs) (p : Path) (n : Node) : (fs.put p n).trail=fs.trail := rfl

@[simp] theorem put_node (fs : Fs) (p : Path) (n : Node) : (fs.put p n).node p=some n :=
  if_pos rfl

theorem put_node_ne (fs : Fs) (p : Path) (n : Node) {q : Path} (h : q≠p) :
    (fs.put p n).node q=fs.node q :=
  if_neg h

/- What kind of object is at `p`. -/
def Has (fs : Fs) (kind : Kind) (p : Path) : Prop := ∃ n, fs.node p=some n ∧ n.kind=kind

abbrev HasDir (fs : Fs) (p : Path) : Prop := fs.Has .dir p

variable {fs : Fs} {p : Path}

theorem Has.ne_none {kind : Kind} (h : fs.Has kind p) : fs.node p≠none := by
  obtain ⟨n,hn,-⟩ := h
  rw [hn]
  exact Option.some_ne_none n

theorem HasDir.exists_mode (h : fs.HasDir p) : ∃ mode, fs.node p=some (.dir mode) := by
  obtain ⟨n,hn,hkind⟩ := h
  cases n with
  | dir mode => exact ⟨mode,hn⟩
  | _ => cases hkind

/-- What is there lies in a directory. -/
def WellFormed (fs : Fs) : Prop := ∀ p c, fs.node (p++[c])≠none → p≠[] → fs.HasDir p

/- What one operation on `p` may do: nothing elsewhere, and what is there keeps its kind. -/
structure Works (p : Path) (fs fs' : Fs) : Prop where
  frame : ∀ q, q≠p → fs'.node q=fs.node q
  may_eq : fs'.may=fs.may
  umask_eq : fs'.umask=fs.umask
  trail_eq : ∃ touches : List Touch, fs'.trail=fs.trail++touches.map (Event.touch · p)
  keeps : ∀ kind, fs.Has kind p → fs'.Has kind p
  wellFormed : fs.WellFormed → fs'.WellFormed

namespace Works

variable {p : Path} {fs fs' fs'' : Fs}

theorem refl (p : Path) (fs : Fs) : Works p fs fs where
  frame _ _ := rfl
  may_eq := rfl
  umask_eq := rfl
  trail_eq := ⟨[],(append_nil _).symm⟩
  keeps _ h := h
  wellFormed h := h

theorem trans (h : Works p fs fs') (h' : Works p fs' fs'') : Works p fs fs'' where
  frame q hq := (h'.frame q hq).trans (h.frame q hq)
  may_eq := h'.may_eq.trans h.may_eq
  umask_eq := h'.umask_eq.trans h.umask_eq
  trail_eq := by
    obtain ⟨t,ht⟩ := h.trail_eq
    obtain ⟨t',ht'⟩ := h'.trail_eq
    exact ⟨t++t',by rw [ht',ht,append_assoc,map_append]⟩
  keeps kind := h'.keeps kind ∘ h.keeps kind
  wellFormed := h'.wellFormed ∘ h.wellFormed

theorem note (fs : Fs) (what : Touch) (p : Path) : Works p fs (fs.note (.touch what p)) where
  frame _ _ := rfl
  may_eq := rfl
  umask_eq := rfl
  trail_eq := ⟨[what],rfl⟩
  keeps _ h := h
  wellFormed h := h

theorem has (h : Works p fs fs') {kind : Kind} {q : Path} (hq : fs.Has kind q) : fs'.Has kind q := by
  by_cases hqp : q=p
  · subst hqp
    exact h.keeps kind hq
  · obtain ⟨n,hn,hkind⟩ := hq
    exact ⟨n,(h.frame q hqp).trans hn,hkind⟩

variable {n : Node}

/- Objects are replaced by objects of their kind, and new ones come into a directory. -/
theorem put (hkeep : ∀ kind, fs.Has kind p → n.kind=kind)
    (hnew : fs.node p=none → fs.HasDir p.dropLast) : Works p fs (fs.put p n) := by
  have hkeeps : ∀ kind q, fs.Has kind q → (fs.put p n).Has kind q := by
    intro kind q hq
    by_cases hqp : q=p
    · subst hqp
      exact ⟨n,put_node fs q n,hkeep kind hq⟩
    · obtain ⟨m,hm,hkind⟩ := hq
      exact ⟨m,(put_node_ne fs p n hqp).trans hm,hkind⟩
  refine ⟨fun _ hq => put_node_ne fs p n hq,rfl,rfl,⟨[],(append_nil _).symm⟩,
    fun kind => hkeeps kind p,fun hwf q c hqc hq => hkeeps .dir q ?_⟩
  by_cases hp : q++[c]=p
  · cases hnode : fs.node p with
    | none =>
      have hdir := hnew hnode
      rwa [← hp,dropLast_concat] at hdir
    | some m => exact hwf q c (by rw [hp,hnode]; exact Option.some_ne_none m) hq
  · rw [put_node_ne fs p n hp] at hqc
    exact hwf q c hqc hq

theorem put_new (hnone : fs.node p=none) (h : fs.HasDir p.dropLast) : Works p fs (fs.put p n) :=
  .put (fun _ hp => absurd hnone hp.ne_none) fun _ => h

theorem put_same {old : Node} (hold : fs.node p=some old) (hkind : n.kind=old.kind) :
    Works p fs (fs.put p n) := by
  refine .put ?_ fun hnone => ?_
  · rintro kind ⟨m,hm,rfl⟩
    rw [hold] at hm
    cases hm
    exact hkind
  · rw [hold] at hnone
    cases hnone

end Works

/- The same for a regular file: nothing is touched but a file. -/
structure FileWorks (p : Path) (fs fs' : Fs) : Prop extends Works p fs fs' where
  touched : fs'.trail=fs.trail ∨ fs'.Has .file p

theorem FileWorks.refl (p : Path) (fs : Fs) : FileWorks p fs fs := ⟨.refl p fs,.inl rfl⟩

theorem FileWorks.trans {fs' fs'' : Fs} (h : FileWorks p fs fs') (h' : FileWorks p fs' fs'') :
    FileWorks p fs fs'' := by
  refine ⟨h.toWorks.trans h'.toWorks,?_⟩
  rcases h'.touched with htrail | hfile
  · exact h.touched.imp (fun h => htrail.trans h) (h'.keeps .file)
  · exact .inr hfile

section Operations

variable {fs fs' : Fs} {p : Path}

theorem hasDir_of_mayCreate (h : fs.mayCreate p = .ok ()) : fs.HasDir p.dropLast := by
  rw [mayCreate] at h
  split at h
  next mode hmode => exact ⟨_,hmode,rfl⟩
  next => cases h

theorem createDir_eq_ok : fs.createDir p = .ok fs' ↔
    fs.walk p = .ok () ∧ fs.node p=none ∧ fs.mayCreate p = .ok () ∧
      fs'=(fs.put p (.dir (0o777 &&& ~~~fs.umask))).note (.touch .created p) := by
  rw [createDir,except_bind_eq_ok]
  constructor
  · rintro ⟨⟨⟩,hwalk,h⟩
    split at h
    · cases h
    next hsome =>
      obtain ⟨⟨⟩,hmay,h⟩ := except_bind_eq_ok.1 h
      exact ⟨hwalk,Option.not_isSome_iff_eq_none.1 hsome,hmay,(Except.ok.inj h).symm⟩
  · rintro ⟨hwalk,hnone,hmay,rfl⟩
    refine ⟨(),hwalk,?_⟩
    rw [hnone,hmay]
    rfl

theorem createDir_works (h : fs.createDir p = .ok fs') : Works p fs fs' ∧ fs'.HasDir p := by
  obtain ⟨-,hnone,hmay,rfl⟩ := createDir_eq_ok.1 h
  exact ⟨(Works.put_new hnone (hasDir_of_mayCreate hmay)).trans (.note _ _ _),_,put_node fs p _,rfl⟩

theorem openWrite_works (h : fs.openWrite p = .ok fs') : FileWorks p fs fs' ∧ fs'.Has .file p := by
  suffices hw : Works p fs fs' ∧ fs'.Has .file p from ⟨⟨hw.1,.inr hw.2⟩,hw.2⟩
  obtain ⟨-,-,h⟩ := except_bind_eq_ok.1 h
  split at h
  · cases h
  · cases h
  next mode content hnode =>
    split at h
    · cases h
      exact ⟨.note _ _ _,_,hnode,rfl⟩
    · cases h
  next hnone =>
    obtain ⟨⟨⟩,hmay,h⟩ := except_bind_eq_ok.1 h
    cases h
    exact ⟨(Works.put_new hnone (hasDir_of_mayCreate hmay)).trans
      ((Works.note _ _ _).trans (.note _ _ _)),_,put_node fs p _,rfl⟩

theorem setPermissions_works (fs : Fs) (p : Path) (mode : Mode) :
    Works p fs (fs.setPermissions p mode) := by
  rw [setPermissions]
  split
  next hnode =>
    refine .trans (.put_same hnode ?_) (.note _ _ _)
    rfl
  next hnode =>
    refine .trans (.put_same hnode ?_) (.note _ _ _)
    rfl
  next => exact .refl p fs

theorem setPermissions_fileWorks (h : fs.Has .file p) (mode : Mode) :
    FileWorks p fs (fs.setPermissions p mode) :=
  ⟨setPermissions_works fs p mode,.inr ((setPermissions_works fs p mode).has h)⟩

theorem writeAt_works (fs : Fs) (p : Path) (pos : Nat) (b : UInt8) :
    FileWorks p fs (fs.writeAt p pos b) := by
  rw [writeAt]
  split
  next hnode => exact ⟨.put_same hnode rfl,.inl rfl⟩
  next => exact .refl p fs

theorem setLen_works (fs : Fs) (p : Path) (size : Nat) : FileWorks p fs (fs.setLen p size) := by
  rw [setLen]
  split
  next hnode => exact ⟨.put_same hnode rfl,.inl rfl⟩
  next => exact .refl p fs

theorem setTimes_works (fs : Fs) (p : Path) : FileWorks p fs (fs.setTimes p) := by
  rw [setTimes]
  split
  next hnode =>
    split
    · exact ⟨.note _ _ _,.inr ⟨_,hnode,rfl⟩⟩
    · exact .refl p fs
  next => exact .refl p fs

end Operations

section Missing

variable {fs : Fs} {p q : Path}

theorem forM_eq_ok {ε α : Type} {f : α → Except ε Unit} {l : List α} :
    l.forM f = .ok () ↔ ∀ a∈l, f a = .ok () := by
  induction l with
  | nil => simp [pure,Except.pure]
  | cons a l ih =>
    rw [List.forM,except_bind_eq_ok,List.forall_mem_cons,← ih]
    exact ⟨fun ⟨⟨⟩,ha,hl⟩ => ⟨ha,hl⟩,fun ⟨ha,hl⟩ => ⟨(),ha,hl⟩⟩

theorem exists_of_forM_error {ε α : Type} {f : α → Except ε Unit} {l : List α} {e : ε}
    (h : l.forM f = .error e) : ∃ a∈l, f a = .error e := by
  induction l with
  | nil => cases h
  | cons a l ih =>
    rw [List.forM] at h
    cases ha : f a with
    | error e' =>
      rw [ha] at h
      cases h
      exact ⟨a,mem_cons_self,ha⟩
    | ok =>
      rw [ha] at h
      obtain ⟨b,hb,hfb⟩ := ih h
      exact ⟨b,mem_cons_of_mem a hb,hfb⟩

theorem mem_inits_tail {α : Type} {q p : List α} : q∈p.inits.tail ↔ q <+: p ∧ q≠[] := by
  cases p with
  | nil => simp [prefix_nil]
  | cons a p =>
    rw [inits_cons,tail_cons,mem_map]
    constructor
    · rintro ⟨t,ht,rfl⟩
      exact ⟨(prefix_cons_inj a).2 ((mem_inits _ _).1 ht),cons_ne_nil a t⟩
    · rintro ⟨hpre,hne⟩
      obtain ⟨b,t,rfl⟩ := exists_cons_of_ne_nil hne
      obtain ⟨rfl,ht⟩ := cons_prefix_cons.1 hpre
      exact ⟨t,(mem_inits _ _).2 ht,rfl⟩

theorem walk_eq_ok : fs.walk p = .ok () ↔ ∀ q, q <+: p.dropLast → q≠[] → fs.enter q = .ok () := by
  rw [walk,forM_eq_ok]
  exact ⟨fun h q hq hne => h q (mem_inits_tail.2 ⟨hq,hne⟩),
    fun h q hq => h q (mem_inits_tail.1 hq).1 (mem_inits_tail.1 hq).2⟩

theorem WellFormed.hasDir (hwf : fs.WellFormed) (hp : fs.node p≠none) (hq : q <+: p)
    (hne : q≠[]) (hqp : q≠p) : fs.HasDir q := by
  induction p using reverseRecOn with
  | nil => exact absurd (prefix_nil.1 hq) hne
  | append_singleton p c ih =>
    have hq' : q <+: p := (prefix_concat_iff.1 hq).resolve_left hqp
    have hp' : p≠[] := by
      rintro rfl
      exact hne (prefix_nil.1 hq')
    have hdir := hwf p c hp hp'
    by_cases heq : q=p
    · exact heq ▸ hdir
    · exact ih hdir.ne_none hq' heq

theorem enter_of_hasDir (h : fs.HasDir p) : fs.enter p ≠ .error .notFound := by
  obtain ⟨mode,hmode⟩ := h.exists_mode
  rw [enter,hmode]
  dsimp only
  split
  · nofun
  · nofun

/-- Where the directory above is there, nothing is missing on the way. -/
theorem walk_ne_notFound (hwf : fs.WellFormed) (h : p.dropLast≠[] → fs.HasDir p.dropLast) :
    fs.walk p ≠ .error .notFound := by
  intro hwalk
  obtain ⟨q,hq,henter⟩ := exists_of_forM_error hwalk
  obtain ⟨hpre,hne⟩ := mem_inits_tail.1 hq
  have habove : fs.HasDir p.dropLast := h fun hnil => hne (prefix_nil.1 (hnil ▸ hpre))
  refine enter_of_hasDir ?_ henter
  by_cases hqp : q=p.dropLast
  · exact hqp ▸ habove
  · exact hwf.hasDir habove.ne_none hpre hne hqp

theorem WellFormed.above (hwf : fs.WellFormed) (hp : fs.node p≠none) (hne : p.dropLast≠[]) :
    fs.HasDir p.dropLast := by
  have hp' : p≠[] := by
    rintro rfl
    exact hne rfl
  refine hwf p.dropLast (p.getLast hp') ?_ hne
  rwa [dropLast_append_getLast]

variable {e : IoErrorKind}

/-- `create_dir_all` makes nothing if the directory is there, or cannot be made where it belongs. -/
theorem createDirAll_of_error (hwf : fs.WellFormed)
    (habove : fs.HasDir p.dropLast ∨ fs.node p≠none) (h : fs.createDir p = .error e) :
    (fs.createDirAll p).2=fs := by
  have he : e ≠ .notFound := by
    rintro rfl
    rw [createDir] at h
    cases hwalk : fs.walk p with
    | error e =>
      rw [hwalk] at h
      cases h
      refine walk_ne_notFound hwf (fun hne => ?_) hwalk
      exact habove.elim id fun hp => hwf.above hp hne
    | ok =>
      rw [hwalk] at h
      split at h
      · cases h
      next hnone =>
        have hdir := habove.resolve_right fun hp => hnone (Option.isSome_iff_ne_none.2 hp)
        obtain ⟨mode,hmode⟩ := hdir.exists_mode
        rw [mayCreate,hmode] at h
        dsimp only at h
        split at h
        · cases h
        · cases h
  rw [createDirAll,h]
  cases e with
  | notFound => exact absurd rfl he
  | _ =>
    dsimp only
    split <;> rfl

theorem createDir_of_node (h : fs.node p≠none) : ∃ e, fs.createDir p = .error e := by
  rw [createDir,if_pos (Option.isSome_iff_ne_none.2 h)]
  cases fs.walk p with
  | error e => exact ⟨e,rfl⟩
  | ok => exact ⟨.alreadyExists,rfl⟩

theorem forM_congr {ε α : Type} {f g : α → Except ε Unit} {l : List α} (h : ∀ a∈l, f a=g a) :
    l.forM f=l.forM g := by
  induction l with
  | nil => rfl
  | cons a l ih =>
    rw [List.forM,List.forM,h a List.mem_cons_self,ih fun b hb => h b (List.mem_cons_of_mem a hb)]

/-- Whether a directory can be made depends on the way to it only. -/
theorem createDir_error_congr {fs' : Fs} (hnode : ∀ q, q <+: p → fs'.node q=fs.node q)
    (hmay : fs'.may=fs.may) (h : fs.createDir p = .error e) : fs'.createDir p = .error e := by
  have hwalk : fs'.walk p=fs.walk p := by
    refine forM_congr fun q hq => ?_
    have hpre : q <+: p := (mem_inits_tail.1 hq).1.trans ( dropLast_prefix p)
    rw [enter,enter,hnode q hpre,hmay]
  have hcreate : fs'.mayCreate p=fs.mayCreate p := by
    rw [mayCreate,mayCreate,hnode _ ( dropLast_prefix p),hmay]
  rw [createDir,hwalk,hnode p prefix_rfl,hcreate]
  rw [createDir] at h
  cases hw : fs.walk p with
  | error e' =>
    rw [hw] at h
    exact h
  | ok =>
    rw [hw] at h
    split at h
    next hs =>
      rw [if_pos hs]
      exact h
    next hs =>
      rw [if_neg hs]
      cases hm : fs.mayCreate p with
      | error e' =>
        rw [hm] at h
        exact h
      | ok =>
        rw [hm] at h
        cases h

end Missing

end Fs

end PureSsh.Scp
