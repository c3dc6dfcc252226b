import PureSsh.Sftp.Invariant

/-! What a session can reach through the links of its own jail. Links that only lead downward keep
every path below the jail, as long as the jail itself stands where it was. -/

namespace PureSsh.Sftp
open Lib Scp List

/- The jail as it is configured, and where the kernel finds it. -/
structure Jail where
  root : Names
  place : Names

def outside (place : Names) (e : Names × Node) : Bool := !place.isPrefixOf e.1

def SameOutside (place : Names) (fs fs' : Fs) : Prop :=
  fs'.nodes.filter (outside place)=fs.nodes.filter (outside place)

/-- Whatever is done below the jail, its path leads to the directory it is entered in, with links to
spare. -/
inductive Jail.Leads (fs : Fs) : Jail → Prop
  | top : Leads fs ⟨[],[]⟩
  | entry (up base : Names) (name : Bytes)
      (h : ∀ fs', SameOutside (base++[name]) fs fs' → ∀ follow rel, ∃ links,
        locate fs' follow (up++name::rel) =
          namei fs' follow (links+2) base (.normal name::rel.map .normal)) :
      Leads fs ⟨up++[name],base++[name]⟩

/-- The file system of a jail: nothing outside has changed, the jail is no link, and the links below
it lead downward. -/
structure Jail.Kept (j : Jail) (start fs : Fs) : Prop where
  same : SameOutside j.place start fs
  notLink : ∀ target, (j.place,Node.link target)∉fs.nodes
  below : ∀ q target, (q,Node.link target)∈fs.nodes → j.place <+: q → q≠j.place →
    Downward target

section Resolution
variable {fs start : Fs} {j : Jail} {follow : Bool} {cur q : Names} {pending : List Component}

theorem Fs.mem_of_node {p : Names} {n : Node} (hp : p≠[]) (h : fs.node p=some n) :
    (p,n)∈fs.nodes := by
  rw [Fs.node,if_neg hp] at h
  exact mem_of_lookup h

/- What a walk below the jail can come to. -/
def Jail.Stays (j : Jail) : Walk → Prop
  | .found place => j.place <+: place
  | .link dir target rest => j.place <+: dir ∧ Downward target ∧ Component.parentDir∉rest
  | .fail _ => True

theorem Jail.Kept.descend (hk : j.Kept start fs) (follow : Bool) (hcur : j.place <+: cur)
    (hpending : Component.parentDir∉pending) : j.Stays (Sftp.descend fs follow cur pending) := by
  induction pending generalizing cur with
  | nil => exact hcur
  | cons c rest ih =>
    rw [mem_cons,not_or] at hpending
    cases c with
    | parentDir => exact absurd rfl hpending.1
    | rootDir => exact ih hcur hpending.2
    | curDir => exact ih hcur hpending.2
    | normal name =>
      have hnext : j.place <+: cur++[name] := hcur.trans (prefix_append _ _)
      rw [Sftp.descend]
      split
      · exact ih hnext hpending.2
      · next target hnode =>
        have hmem := Fs.mem_of_node (by simp) hnode
        have hne : cur++[name]≠j.place := by
          intro heq
          have hlen := hcur.length_le
          rw [← heq] at hlen
          simp at hlen
        split
        · exact hnext
        · exact ⟨hcur,hk.below _ _ hmem hnext hne,hpending.2⟩
      · split
        · exact hnext
        · trivial
      · split
        · exact hnext
        · trivial

theorem Jail.Kept.namei (hk : j.Kept start fs) {links : Nat} (hcur : j.place <+: cur)
    (hpending : Component.parentDir∉pending) (h : Sftp.namei fs follow links cur pending = .ok q) :
    j.place <+: q := by
  induction links generalizing cur pending with
  | zero => cases h
  | succ links ih =>
    have hstays := hk.descend follow hcur hpending
    rw [Sftp.namei] at h
    cases hwalk : Sftp.descend fs follow cur pending with
    | found place =>
      simp only [hwalk,Except.ok.injEq] at h
      rw [hwalk] at hstays
      exact h ▸ hstays
    | fail e => simp [hwalk] at h
    | link dir target rest =>
      rw [hwalk] at hstays
      obtain ⟨hdir,htarget,hrest⟩ := hstays
      simp only [hwalk,htarget.1] at h
      refine ih hdir ?_ h
      rw [mem_append,not_or]
      exact ⟨htarget.2,hrest⟩

theorem parentDir_not_mem_normal (rel : Names) : Component.parentDir∉rel.map Component.normal := by
  simp

/-- A path below the configured jail leads to a place in the jail. -/
theorem Jail.Kept.locate (hk : j.Kept start fs) (hleads : j.Leads start) {p : Names}
    (hp : j.root <+: p) (h : Sftp.locate fs follow p = .ok q) : j.place <+: q := by
  cases hleads with
  | top => exact nil_prefix
  | entry up base name hentry =>
    obtain ⟨rel,rfl⟩ := hp
    obtain ⟨links,hlinks⟩ := hentry fs hk.same follow rel
    rw [append_assoc,singleton_append,hlinks] at h
    have hstays : ∀ walk, Sftp.descend fs follow base (.normal name::rel.map .normal)=walk →
        (∃ place, walk = .found place ∧ base++[name]=place) ∨ (∃ e, walk = .fail e) ∨
          walk=Sftp.descend fs follow (base++[name]) (rel.map .normal) := by
      rintro _ rfl
      rw [Sftp.descend]
      split
      · exact .inr (.inr rfl)
      · next target hlink => exact absurd (Fs.mem_of_node (by simp) hlink) (hk.notLink target)
      · split
        · exact .inl ⟨_,rfl,rfl⟩
        · exact .inr (.inl ⟨_,rfl⟩)
      · split
        · exact .inl ⟨_,rfl,rfl⟩
        · exact .inr (.inl ⟨_,rfl⟩)
    obtain ⟨place,hwalk,rfl⟩ | ⟨e,hwalk⟩ | hwalk := hstays _ rfl
    · rw [Sftp.namei,hwalk] at h
      cases h
      exact prefix_refl _
    · rw [Sftp.namei,hwalk] at h
      cases h
    · rw [Sftp.namei,hwalk,← Sftp.namei] at h
      exact hk.namei (prefix_refl _) (parentDir_not_mem_normal rel) h

/- How far a path leads, with one more name behind it. -/
def Walk.snoc (n : Bytes) : Walk → Walk
  | .found place => .found (place++[n])
  | .link dir target rest => .link dir target (rest++[.normal n])
  | .fail e => .fail e

theorem descend_snoc (fs : Fs) (n : Bytes) (cur : Names) (pending : List Component) :
    (∃ e, Sftp.descend fs false cur (pending++[.normal n]) = .fail e) ∨
      Sftp.descend fs false cur (pending++[.normal n])=(Sftp.descend fs true cur pending).snoc n := by
  induction pending generalizing cur with
  | nil =>
    right
    rw [nil_append]
    cases hnode : fs.node (cur++[n]) with
    | none => simp [Sftp.descend,Walk.snoc,hnode]
    | some node => cases node <;> simp [Sftp.descend,Walk.snoc,hnode]
  | cons c rest ih =>
    cases c with
    | parentDir | rootDir | curDir => exact ih _
    | normal name =>
      rw [cons_append,Sftp.descend,Sftp.descend]
      split
      · exact ih _
      · simp [Walk.snoc]
      · exact .inl ⟨_,if_neg (by simp)⟩
      · exact .inl ⟨_,if_neg (by simp)⟩

/-- What a path leads to stands, under its last name, in a directory that the path before it leads
to. -/
theorem namei_snoc {n : Bytes} {links : Nat}
    (h : Sftp.namei fs false links cur (pending++[.normal n]) = .ok q) :
    ∃ dir, Sftp.namei fs true links cur pending = .ok dir ∧ q=dir++[n] := by
  induction links generalizing cur pending with
  | zero => cases h
  | succ links ih =>
    rw [Sftp.namei] at h
    rw [Sftp.namei]
    obtain ⟨e,hwalk⟩ | hwalk := descend_snoc fs n cur pending
    · rw [hwalk] at h
      cases h
    · rw [hwalk] at h
      cases hdescend : Sftp.descend fs true cur pending with
      | found place =>
        rw [hdescend] at h
        exact ⟨place,rfl,(Except.ok.inj h).symm⟩
      | fail e =>
        rw [hdescend] at h
        cases h
      | link dir target rest =>
        rw [hdescend] at h
        refine ih ?_
        rw [append_assoc]
        exact h

theorem Jail.Kept.root_of_locate (hk : j.Kept start fs) (hleads : j.Leads start) {p : Names}
    (hp : j.root <+: p) (h : Sftp.locate fs false p = .ok j.place) : p=j.root := by
  obtain ⟨rel,rfl⟩ := hp
  cases rel using reverseRecOn with
  | nil => exact append_nil _
  | append_singleton rel n =>
    rw [Sftp.locate,← append_assoc,map_append,map_singleton] at h
    obtain ⟨dir,hdir,hplace⟩ := namei_snoc h
    have hlen := (hk.locate hleads (prefix_append _ rel) hdir).length_le
    rw [hplace] at hlen
    simp at hlen

end Resolution

section Changes
variable {fs start : Fs} {j : Jail} {p : Names} {n : Node}

theorem outside_eq_false {place : Names} {e : Names × Node} (h : place <+: e.1) :
    outside place e=false := by
  simp [outside, isPrefixOf_iff_prefix.2 h]

theorem filter_outside_erase (hp : j.place <+: p) (nodes : List (Names × Node)) :
    (nodes.filter fun e => !decide (e.1=p)).filter (outside j.place) =
      nodes.filter (outside j.place) := by
  rw [filter_filter]
  refine filter_congr fun e _ => ?_
  by_cases he : e.1=p
  · rw [outside_eq_false (he ▸ hp),Bool.false_and]
  · simp [he]

theorem Jail.Kept.erase (hk : j.Kept start fs) (hp : j.place <+: p) : j.Kept start (fs.erase p) where
  same := (filter_outside_erase hp fs.nodes).trans hk.same
  notLink target h := hk.notLink target (mem_of_mem_filter h)
  below q target h := hk.below q target (mem_of_mem_filter h)

theorem sameOutside_put (h : SameOutside j.place start fs) (hp : j.place <+: p) (n : Node) :
    SameOutside j.place start (fs.put p n) := by
  have hout : outside j.place (p,n)=false := outside_eq_false hp
  rw [SameOutside,Fs.put,filter_cons_of_neg (by simp [hout])]
  exact (filter_outside_erase hp fs.nodes).trans h

/-- An object put into the jail; a link has to lead downward and not to stand for the jail. -/
theorem Jail.Kept.put (hk : j.Kept start fs) (hp : j.place <+: p)
    (hn : ∀ target, n = .link target → p≠j.place ∧ Downward target) :
    j.Kept start (fs.put p n) := by
  have hk' := hk.erase hp
  refine ⟨sameOutside_put hk.same hp n,?_,?_⟩
  · intro target h
    obtain h | h := mem_cons.1 h
    · cases h
      exact (hn target rfl).1 rfl
    · exact hk'.notLink target h
  · intro q target h hq hne
    obtain h | h := mem_cons.1 h
    · cases h
      exact (hn target rfl).2
    · exact hk'.below q target h hq hne

theorem filter_outside_move {place src dst : Names} (hsrc : place <+: src) (hdst : place <+: dst)
    (nodes : List (Names × Node)) : ((nodes.filter fun e => !dst.isPrefixOf e.1).map fun e =>
        if src.isPrefixOf e.1 then (dst++e.1.drop src.length,e.2) else e).filter (outside place) =
      nodes.filter (outside place) := by
  induction nodes with
  | nil => rfl
  | cons e nodes ih =>
    by_cases hd : dst <+: e.1
    · rw [filter_cons_of_neg (by simp [ isPrefixOf_iff_prefix.2 hd]),ih,
        filter_cons_of_neg (by simp [outside_eq_false (hdst.trans hd)])]
    · have hd' : dst.isPrefixOf e.1=false := by
        simpa [← isPrefixOf_iff_prefix] using hd
      rw [filter_cons_of_pos (by simp [hd']),map_cons]
      by_cases hs : src <+: e.1
      · rw [if_pos ( isPrefixOf_iff_prefix.2 hs),filter_cons_of_neg (by
            simp [@outside_eq_false _ (dst++e.1.drop src.length,e.2)
              (hdst.trans (prefix_append _ _))]),ih,
          filter_cons_of_neg (by simp [outside_eq_false (hsrc.trans hs)])]
      · rw [if_neg (by simpa [ isPrefixOf_iff_prefix] using hs),filter_cons,filter_cons,ih]

theorem Fs.mem_move {src dst q : Names} (h : (q,n)∈(fs.move src dst).nodes) :
    ∃ q', (q',n)∈fs.nodes ∧ (q=q' ∨ src <+: q' ∧ q=dst++q'.drop src.length) := by
  rw [Fs.move,mem_map] at h
  obtain ⟨e,he,heq⟩ := h
  split at heq
  · next hs =>
    cases heq
    exact ⟨e.1,mem_of_mem_filter he,.inr ⟨ isPrefixOf_iff_prefix.1 hs,rfl⟩⟩
  · subst heq
    exact ⟨q,mem_of_mem_filter he,.inl rfl⟩

theorem Jail.Kept.move (hk : j.Kept start fs) {src dst : Names} (hsrc : j.place <+: src)
    (hdst : j.place <+: dst) (hsrc' : src≠j.place) (hdst' : dst≠j.place) :
    j.Kept start (fs.move src dst) := by
  have hlong : ∀ x : Names, dst++x≠j.place := by
    intro x hx
    have hlen := congrArg length hx
    have hle := hdst.length_le
    rw [length_append] at hlen
    exact hdst' (hdst.eq_of_length (by omega)).symm
  refine ⟨(filter_outside_move hsrc hdst fs.nodes).trans hk.same,?_,?_⟩
  · intro target h
    obtain ⟨q',hq',rfl | ⟨-,heq⟩⟩ := Fs.mem_move h
    · exact hk.notLink target hq'
    · exact hlong _ heq.symm
  · intro q target h hq hne
    obtain ⟨q',hq',rfl | ⟨hs,-⟩⟩ := Fs.mem_move h
    · exact hk.below _ target hq' hq hne
    · refine hk.below q' target hq' (hsrc.trans hs) ?_
      rintro rfl
      exact hsrc' (hs.eq_of_length (le_antisymm hs.length_le hsrc.length_le))

end Changes

/- The place of an open object lies in the jail, and its path below the configured one. -/
def FileHandle.Within (j : Jail) : FileHandle → Prop
  | .file place path _ _ => j.place <+: place ∧ j.root <+: path
  | .dir place path _ _ => j.place <+: place ∧ j.root <+: path

/-- All that a session has acted on lies in the jail, and its file system is kept. -/
structure Inside (j : Jail) (start : Fs) (w : World) : Prop where
  kept : j.Kept start w.fs
  trail : ∀ q∈w.trail, j.place <+: q
  handles : ∀ e∈w.handles, e.2.Within j

/-- The jail is there as well. -/
structure Confined (j : Jail) (start : Fs) (w : World) : Prop extends Inside j start w where
  stands : w.fs.node j.place=some .dir

section Session
variable {j : Jail} {start : Fs} {policy : Policy} {opts : Options} {w : World}

/- The jail is the one the session is configured with. -/
def Options.Jailed (opts : Options) (j : Jail) : Prop :=
  ∃ root, opts.root=some root ∧ lexicallyClean root=j.root

theorem Options.Jailed.isSome (h : opts.Jailed j) : opts.root.isSome=true := by
  obtain ⟨root,hroot,-⟩ := h
  rw [hroot]
  rfl

theorem Options.Jailed.resolve (hjail : opts.Jailed j) {raw : Bytes} {p : Names}
    (hp : resolve opts.cwd raw opts.root = .ok p) : j.root <+: p := by
  obtain ⟨root,hroot,hclean⟩ := hjail
  have hnaming : (⟨opts.cwd,opts.root,true,fun _ => none⟩ : Naming).resolve raw = .ok p := hp
  rw [← hclean]
  exact (Naming.resolve_eq_ok.1 hnaming).2.2 root hroot

theorem FileHandle.within_iff {h : FileHandle} :
    h.Within j ↔ j.place <+: h.place ∧ j.root <+: h.path := by
  cases h <;> rfl

theorem Inside.act {w' : World} {q : Names} (hw : Inside j start w) (hq : j.place <+: q)
    (hfs : w'.fs=w.fs) (htrail : w'.trail=w.trail++[q]) (hhandles : w'.handles=w.handles) :
    Inside j start w' where
  kept := hfs ▸ hw.kept
  trail := by
    rw [htrail,forall_mem_append,forall_mem_singleton]
    exact ⟨hw.trail,hq⟩
  handles := hhandles ▸ hw.handles

theorem Fs.node_erase_of_ne (fs : Fs) {p q : Names} (hq : q≠p) : (fs.erase p).node q=fs.node q := by
  have hkeep : ∀ m : Node, (!decide ((q,m).1=p))=true := fun m => by simpa using hq
  exact congrArg (if q=[] then some Node.dir else ·) (lookup_filter hkeep fs.nodes)

theorem Fs.node_put_of_ne (fs : Fs) {p q : Names} (hq : q≠p) (n : Node) :
    (fs.put p n).node q=fs.node q := by
  rw [← fs.node_erase_of_ne hq,Fs.node,Fs.put,lookup_cons,beq_false_of_ne hq]
  rfl

theorem Fs.node_move_of_not (fs : Fs) {src dst q : Names} (hsrc : ¬src <+: q) (hdst : ¬dst <+: q) :
    (fs.move src dst).node q=fs.node q := by
  refine congrArg (if q=[] then some Node.dir else ·) ?_
  have hother : ∀ {p : Names} {m : Node} {nodes}, p≠q → lookup q ((p,m)::nodes)=lookup q nodes := by
    intro p m nodes hne
    rw [lookup_cons,beq_false_of_ne hne.symm]
  rw [Fs.move]
  induction fs.nodes with
  | nil => rfl
  | cons e nodes ih =>
    obtain ⟨p,m⟩ := e
    by_cases hd : dst <+: p
    · rw [filter_cons_of_neg (by simp [ isPrefixOf_iff_prefix.2 hd]),ih,
        hother fun h => hdst (h ▸ hd)]
    rw [filter_cons_of_pos (by simpa [← isPrefixOf_iff_prefix] using hd),map_cons]
    by_cases hs : src <+: p
    · rw [if_pos ( isPrefixOf_iff_prefix.2 hs),hother fun h => hdst (h ▸ prefix_append _ _),ih,
        hother fun h => hsrc (h ▸ hs)]
    · rw [if_neg (by simpa [ isPrefixOf_iff_prefix] using hs),lookup_cons,lookup_cons,ih]

namespace Confined
variable (hw : Confined j start w)
include hw

theorem act {w' : World} {q : Names} (hq : j.place <+: q) (hfs : w'.fs=w.fs)
    (htrail : w'.trail=w.trail++[q]) (hhandles : w'.handles=w.handles) : Confined j start w' :=
  ⟨hw.toInside.act hq hfs htrail hhandles,hfs ▸ hw.stands⟩

/-- A file system that is kept and in which the jail stands. -/
theorem change {fs : Fs} (hk : j.Kept start fs) (hnode : fs.node j.place=w.fs.node j.place) :
    Confined j start { w with fs := fs } :=
  ⟨⟨hk,hw.trail,hw.handles⟩,hnode.trans hw.stands⟩

theorem put {q : Names} {n : Node} {next : Nat} (hq : j.place <+: q) (hfree : w.fs.node q=none)
    (hn : ∀ target, n = .link target → Downward target) :
    Confined j start { w with fs := { w.fs.put q n with nextIno := next } } := by
  have hne : j.place≠q := by
    rintro rfl
    rw [hw.stands] at hfree
    cases hfree
  have hput := hw.kept.put hq fun target ht => ⟨hne.symm,hn target ht⟩
  exact hw.change ⟨hput.same,hput.notLink,hput.below⟩ (Fs.node_put_of_ne _ hne n)

theorem erase {q : Names} (hq : j.place <+: q) (hne : j.place≠q) :
    Confined j start { w with fs := w.fs.erase q } :=
  hw.change (hw.kept.erase hq) (Fs.node_erase_of_ne _ hne)

end Confined

/-- What a call does keeps a session in its jail. A link is copied only from within the jail, where
it leads downward. -/
theorem Confined.calls (hleads : j.Leads start) (hjail : opts.Jailed j) :
    Preserved opts (Confined j start) (j.root <+: ·) (j.place <+: ·) where
  locate hw hp hloc := hw.kept.locate hleads hp hloc
  touch hw hq := hw.act hq rfl rfl rfl
  edit _ hw hq := hw.act hq rfl rfl rfl
  unlink _ hw hq hnode hn := by
    refine hw.erase hq ?_
    rintro rfl
    exact hn (Option.some.inj (hnode.symm.trans hw.stands))
  newFile _ hw hq hfree := hw.put hq hfree (by simp)
  newDir _ hw hq hfree := hw.put hq hfree (by simp)
  copy {_ _ src _ _} _ hw hp hloc hnode _ hq hfree := by
    refine hw.put hq hfree ?_
    rintro target rfl
    have hmem := Fs.mem_of_node (fun hnil => by simp [hnil,Fs.node] at hnode) hnode
    refine hw.kept.below _ _ hmem (hw.kept.locate hleads hp hloc) ?_
    rintro rfl
    exact hw.kept.notLink target hmem
  move {w src dst} _ hw hsrc hdst hdown hup := by
    have hsrc' : src≠j.place := by
      rintro rfl
      exact hdown hdst
    have hdst' : dst≠j.place := by
      rintro rfl
      exact hup hsrc
    refine hw.change (hw.kept.move hsrc hdst hsrc' hdst') (Fs.node_move_of_not _ ?_ ?_)
    · exact fun h => hsrc' (h.eq_of_length (le_antisymm h.length_le hsrc.length_le))
    · exact fun h => hdst' (h.eq_of_length (le_antisymm h.length_le hdst.length_le))
  resolve := hjail.resolve
  handle hw hl := FileHandle.within_iff.1 (hw.handles _ (mem_of_lookup hl))
  alloc hw hplace hpath _ := by
    refine ⟨⟨hw.kept,hw.trail,?_⟩,hw.stands⟩
    rw [World.alloc,forall_mem_cons]
    exact ⟨FileHandle.within_iff.2 ⟨hplace,hpath⟩,hw.handles⟩
  close hw := ⟨⟨hw.kept,hw.trail,fun e he => hw.handles e (mem_of_mem_filter he)⟩,hw.stands⟩
  readdir hw hplace hpath := by
    refine ⟨⟨hw.kept,hw.trail,fun e he => ?_⟩,hw.stands⟩
    obtain ⟨e',he',rfl⟩ := mem_map.1 he
    split
    · exact FileHandle.within_iff.2 ⟨hplace,hpath⟩
    · exact hw.handles e' he'

/- The request is an RMDIR that takes the jail itself away. -/
def Vacates (opts : Options) (j : Jail) (w : World) (r : Policy × Packet) : Prop :=
  ∃ path, r.2 = .rmdir path ∧ Removes r.1 opts w path j.place

/-- A request that leaves the jail in place is served within it: no link may come to stand for the
jail. -/
theorem dispatch_confined (hleads : j.Leads start) (hjail : opts.Jailed j) {r : Policy × Packet}
    (hw : Confined j start w) (hstay : ¬Vacates opts j w r) :
    Confined j start (dispatch r.1 opts r.2 w).2 := by
  refine dispatch_keeps (Confined.calls hleads hjail) r.2 hw ?_ ?_
  · intro target q _ hdown hq hfree
    refine hw.put hq hfree ?_
    rintro _ ⟨⟩
    exact hdown hjail.isSome
  · intro path q hpacket hremoves hq
    refine hw.erase hq ?_
    rintro rfl
    exact hstay ⟨path,hpacket,hremoves⟩

theorem Vacates.dispatch_eq {r : Policy × Packet} (h : Vacates opts j w r) : (dispatch r.1 opts r.2 w).2 =
    { w with fs := w.fs.erase j.place, trail := w.trail++[j.place] } := by
  obtain ⟨path,hpacket,hremoves⟩ := h
  rw [hpacket,dispatch]
  obtain ⟨place,hremoves',hout⟩ | ⟨hno,-⟩ := opRmdir_cases r.1 opts path w
  · obtain ⟨p,hres,hloc⟩ := hremoves.found
    obtain ⟨p',hres',hloc'⟩ := hremoves'.found
    cases hres.symm.trans hres'
    cases hloc.symm.trans hloc'
    exact hout
  · exact absurd hremoves (hno _)

end Session

end PureSsh.Sftp
