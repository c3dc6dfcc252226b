import Mathlib.Algebra.Order.BigOperators.Group.List
import PureSsh.Sftp.Jail

/-! A jailed session as a whole. It stays in its jail as long as no request removes the jail; after
one that does, a link can be put there and leads out. -/

namespace PureSsh.Sftp
open Lib Scp List Proc

section Runs
variable {j : Jail} {start : Fs} {opts : Options}

/- No request takes the jail away. -/
def InPlace (opts : Options) (j : Jail) : World → List (Policy × Packet) → Prop
  | _, [] => True
  | w, r::rest => ¬Vacates opts j w r ∧ InPlace opts j (dispatch r.1 opts r.2 w).2 rest

theorem serve_append (opts : Options) (w : World) (before more : List (Policy × Packet)) :
    serve opts w (before++more)=serve opts (serve opts w before) more :=
  foldl_append

/-- A whole session, by its requests. -/
theorem serve_confined (hleads : j.Leads start) (hjail : opts.Jailed j)
    {requests : List (Policy × Packet)} {w : World} (hw : Confined j start w)
    (hkeep : InPlace opts j w requests) : Confined j start (serve opts w requests) := by
  induction requests generalizing w with
  | nil => exact hw
  | cons r rest ih => exact ih (dispatch_confined hleads hjail hw hkeep.1) hkeep.2

end Runs

section Escape
variable {j : Jail} {start : Fs} {opts : Options} {w : World}

def allowAll : Policy := fun _ _ => none

variable {p q : Names}

theorem Fs.node_put (fs : Fs) (hp : p≠[]) (n : Node) : (fs.put p n).node p=some n := by
  simp [Fs.node,hp,Fs.put]

theorem Fs.node_erase (fs : Fs) (hp : p≠[]) : (fs.erase p).node p=none := by
  have hout : ∀ e∈(fs.erase p).nodes, e.1≠p := fun e he => by simpa using (mem_filter.1 he).2
  simpa [Fs.node,hp,lookup_eq_none_iff] using fun a b hab => (hout (a,b) hab).symm

theorem create_apply {policy : Policy} {call : Call} {n : Node} (hloc : locate w.fs false p = .ok q)
    (hpolicy : policy call q=none) (hnode : w.fs.node q=none) : create policy call n p w =
      (.ok (),{ w with fs := w.fs.put q n, trail := w.trail++[q] }) := by
  rw [create,find,bind_apply,get_bind,hloc]
  simp only [Except.mapError,lift_apply,permit,hpolicy,bind_apply,pure_apply,nodeAt,get_apply,hnode]
  rfl

theorem components_append_slash (a b : Bytes) :
    components (a++slash::b)=components a++components b := by
  rw [components,splitOn_append_cons_self,filterMap_append]
  rfl

section Child
variable {f : Bytes} (hf : Proper f)
include hf

theorem isAbsolute_proper : isAbsolute f=false := by
  cases f with
  | nil => rfl
  | cons b f =>
    have hb : b≠slash := by
      rintro rfl
      exact hf.noSlash mem_cons_self
    simpa [isAbsolute] using hb

theorem components_proper : components f=[.normal f] := by
  rw [components,splitOn_eq_singleton hf.noSlash,filterMap_cons_some (componentOf_proper hf)]
  rfl

theorem resolve_child {cwd raw : Bytes} {root : Option Bytes} (hvalid : validUtf8 f=true)
    (h : resolve cwd raw root = .ok p) : ∃ raw', resolve cwd raw' root = .ok (p++[f]) := by
  obtain ⟨hraw,rfl,hinside⟩ := (Naming.resolve_eq_ok (s := ⟨cwd,root,true,fun _ => none⟩)).1 h
  have hchild : ∀ raw', validUtf8 raw'=true →
      components (joinRaw cwd raw')=components (joinRaw cwd raw)++[.normal f] →
      resolve cwd raw' root = .ok (lexicallyClean (joinRaw cwd raw)++[f]) := by
    intro raw' hraw' hjoin
    refine (Naming.resolve_eq_ok (s := ⟨cwd,root,true,fun _ => none⟩)).2 ⟨hraw',?_,?_⟩
    · simp [lexicallyClean,hjoin,cleanStep]
    · exact fun root hroot => (hinside root hroot).trans (prefix_append _ _)
  cases raw with
  | nil =>
    refine ⟨f,hchild f hvalid ?_⟩
    have hnil : components []=[] := rfl
    have hrelative : isAbsolute []=false := rfl
    rw [joinRaw,joinRaw,isAbsolute_proper hf,hrelative]
    by_cases hcwd : cwd=[] ∨ cwd.getLast?=some slash
    · simp only [Bool.false_eq_true,if_false,if_pos hcwd]
      obtain rfl | hcwd := hcwd
      · exact components_proper hf
      · obtain ⟨ys,rfl⟩ := getLast?_eq_some_iff.1 hcwd
        simp [components_append_slash,components_proper hf,hnil]
    · simp [hcwd,components_append_slash,components_proper hf,hnil]
  | cons b raw =>
    refine ⟨b::raw++slash::f,hchild _ (by rw [validUtf8_ascii (by decide),hraw,hvalid]; rfl) ?_⟩
    have hjoin : joinRaw cwd (b::raw++slash::f)=joinRaw cwd (b::raw)++slash::f := by
      by_cases hb : b=slash <;> by_cases hcwd : cwd=[] ∨ cwd.getLast?=some slash <;>
        simp [joinRaw,isAbsolute,hb,hcwd]
    rw [hjoin,components_append_slash,components_proper hf]

end Child

theorem requireWritable_apply (hwritable : opts.readOnly=false) (w : World) :
    requireWritable opts w=(.ok (),w) := by
  rw [requireWritable,hwritable]
  rfl

theorem resolvePath_apply {raw : Bytes} (hres : resolve opts.cwd raw opts.root = .ok p) (w : World) :
    resolvePath opts raw w=(.ok p,w) := by
  rw [resolvePath,hres]
  rfl

def dotTarget : Bytes := [dot]

theorem opSymlink_dot (hwritable : opts.readOnly=false) {raw : Bytes}
    (hres : resolve opts.cwd raw opts.root = .ok p) (hloc : locate w.fs false p = .ok q)
    (hnode : w.fs.node q=none) : (dispatch allowAll opts (.symlink dotTarget raw) w).2 =
      { w with fs := w.fs.put q (.link dotTarget), trail := w.trail++[q] } := by
  have hcreate := create_apply (n := .link dotTarget) hloc (rfl : allowAll .symlink q=none) hnode
  have hvalid : (!validUtf8 dotTarget)=false := by decide
  have habsolute : isAbsolute dotTarget=false := by decide
  have hparent : decide (Component.parentDir∈components dotTarget)=false := by decide
  rw [dispatch,opSymlink,bind_of_ok (requireWritable_apply hwritable w),
    bind_of_ok (resolvePath_apply hres w)]
  simp only [hvalid,habsolute,hparent,Bool.and_false,Bool.false_eq_true,if_false]
  rw [symlink,if_neg (by decide),bind_of_ok hcreate]
  rfl

theorem opMkdir_plain (hwritable : opts.readOnly=false) {raw : Bytes}
    (hres : resolve opts.cwd raw opts.root = .ok p) (hloc : locate w.fs false p = .ok q)
    (hnode : w.fs.node q=none) : (dispatch allowAll opts (.mkdir raw {}) w).2 =
      { w with fs := w.fs.put q .dir, trail := w.trail++[q] } := by
  have hcreate := create_apply (n := .dir) hloc (rfl : allowAll .mkdir q=none) hnode
  rw [dispatch,opMkdir,bind_of_ok (requireWritable_apply hwritable w),
    bind_of_ok (resolvePath_apply hres w),createDir,bind_of_ok hcreate]
  rfl

theorem validUtf8_replicate {b : UInt8} (hb : b.toNat<0x80) (k : Nat) :
    validUtf8 (replicate k b)=true := by
  induction k with
  | zero => rfl
  | succ k ih =>
    have h := validUtf8_ascii hb [] (replicate k b)
    rw [nil_append,ih] at h
    rw [replicate_succ,h]
    rfl

theorem proper_replicate (k : Nat) : Proper (replicate (k+1) 97) where
  ne_nil := by simp
  ne_dot := by simp [replicate_succ,dot]
  ne_dots := by simp [replicate_succ,dot]
  noSlash := by simp [slash]

/-- A name that stands nowhere in the file system: it is longer than all of them. -/
theorem exists_fresh (fs : Fs) (name : Bytes) :
    ∃ f, Proper f ∧ validUtf8 f=true ∧ f≠name ∧ ∀ base, fs.node (base++[f])=none := by
  obtain ⟨all,hall⟩ : ∃ n, n=name.length+(fs.nodes.map fun e => e.1.flatten.length).sum := ⟨_,rfl⟩
  refine ⟨replicate (all+1) 97,proper_replicate all,validUtf8_replicate (by decide) _,?_,?_⟩
  · intro h
    have hlen := congrArg length h
    rw [length_replicate] at hlen
    omega
  · intro base
    by_contra hnode
    obtain ⟨n,hn⟩ := Option.ne_none_iff_exists'.1 hnode
    have hmem := Fs.mem_of_node (by simp) hn
    have hle := single_le_sum (fun _ _ => Nat.zero_le _) _
      (mem_map_of_mem (f := fun e => e.1.flatten.length) hmem)
    simp only [flatten_append,flatten_singleton,length_append,length_replicate] at hle
    omega

/-- Where nothing stands in place of the jail, a link there leads back to the directory the jail was
in, and further requests act next to it. -/
theorem not_confined (hleads : j.Leads start) (hwritable : opts.readOnly=false) {raw : Bytes}
    (hres : resolve opts.cwd raw opts.root = .ok j.root) (hsame : SameOutside j.place start w.fs)
    (hgone : w.fs.node j.place=none) :
    ∃ more, InPlace opts j w more ∧ ∃ q∈(serve opts w more).trail, ¬j.place <+: q := by
  cases hleads with
  | top => simp [Fs.node] at hgone
  | entry up base name hentry =>
    obtain ⟨f,hf,hfvalid,hne,hfresh⟩ := exists_fresh w.fs name
    have hneplace : base++[f]≠base++[name] := by simpa using hne
    -- the link comes to stand where the jail was
    obtain ⟨links,hlinks⟩ := hentry w.fs hsame false []
    have hloc : locate w.fs false (up++[name]) = .ok (base++[name]) := by
      rw [hlinks,namei]
      simp only [descend,map_nil,hgone,if_true]
    have hsymlink := opSymlink_dot hwritable hres hloc hgone
    set w₁ : World := { w with
      fs := w.fs.put (base++[name]) (.link dotTarget), trail := w.trail++[base++[name]] } with hw₁
    have hlink : w₁.fs.node (base++[name])=some (.link dotTarget) := Fs.node_put _ (by simp) _
    have hfresh₁ : w₁.fs.node (base++[f])=none := by
      rw [Fs.node_put_of_ne _ hneplace]
      exact hfresh base
    -- a path behind it is looked for beside it
    have hsame₁ : SameOutside (base++[name]) start w₁.fs :=
      sameOutside_put (j := ⟨up++[name],base++[name]⟩) hsame (prefix_refl _) _
    obtain ⟨links₁,hlinks₁⟩ := hentry w₁.fs hsame₁ false [f]
    have hloc₁ : locate w₁.fs false (up++[name]++[f]) = .ok (base++[f]) := by
      have hcomponents : components dotTarget=[] := by decide
      have habsolute : isAbsolute dotTarget=false := by decide
      rw [append_assoc,singleton_append,hlinks₁]
      simp [namei,descend,hlink,hcomponents,habsolute,hfresh₁]
    obtain ⟨raw',hres'⟩ := resolve_child hf hfvalid hres
    have hmkdir := opMkdir_plain hwritable hres' hloc₁ hfresh₁
    refine ⟨[(allowAll,.symlink dotTarget raw),(allowAll,.mkdir raw' {})],
      ⟨by rintro ⟨_,⟨⟩,-⟩,by rintro ⟨_,⟨⟩,-⟩,trivial⟩,base++[f],?_,?_⟩
    · rw [serve,foldl_cons,foldl_cons,hsymlink,hmkdir]
      simp
    · intro h
      exact hneplace (h.eq_of_length (by simp)).symm

end Escape

section Start
variable {fs fs' : Fs} {place q : Names}

theorem SameOutside.node_eq (h : SameOutside place fs fs') (hq : ¬place <+: q) :
    fs'.node q=fs.node q := by
  have hout : ∀ n : Node, outside place (q,n)=true := fun n => by
    simpa [outside,← isPrefixOf_iff_prefix] using hq
  rw [Fs.node,Fs.node,← lookup_filter hout fs'.nodes,h,lookup_filter hout]

theorem descend_dirs {follow : Bool} {cur p : Names} (pending : List Component)
    (h : ∀ q, q <+: p → q≠[] → fs.node (cur++q)=some .dir) :
    descend fs follow cur (p.map .normal++pending)=descend fs follow (cur++p) pending := by
  induction p generalizing cur with
  | nil => rw [map_nil,nil_append,append_nil]
  | cons name p ih =>
    have hdir : fs.node (cur++[name])=some .dir := h [name] (by simp) (by simp)
    rw [map_cons,cons_append,descend,hdir]
    refine (ih fun q hq hne => ?_).trans (by simp)
    rw [append_assoc]
    exact h _ (by simpa using hq) (by simp)

theorem Jail.leads_of_dirs {up : Names} (name : Bytes)
    (h : ∀ q, q <+: up → q≠[] → fs.node q=some .dir) :
    Jail.Leads fs ⟨up++[name],up++[name]⟩ := by
  refine .entry up up name fun fs' hsame follow rel => ⟨39,?_⟩
  have hdirs : ∀ q, q <+: up → q≠[] → fs'.node ([]++q)=some .dir := by
    intro q hq hne
    rw [nil_append,hsame.node_eq,h q hq hne]
    intro hplace
    have hlen := (hplace.trans hq).length_le
    simp at hlen
  rw [locate,map_append,map_cons,maxLinks,namei,descend_dirs _ hdirs,nil_append,← namei]

/- Each place is listed once. -/
structure Fs.Distinct (fs : Fs) : Prop where
  nodup : (fs.nodes.map Prod.fst).Nodup
  noRoot : []∉fs.nodes.map Prod.fst

theorem Fs.Distinct.node_of_mem (hfs : fs.Distinct) {n : Node} (h : (q,n)∈fs.nodes) :
    fs.node q=some n := by
  have hne : q≠[] := by
    rintro rfl
    exact hfs.noRoot (mem_map_of_mem (f := Prod.fst) h)
  rw [Fs.node,if_neg hne,lookup_of_mem hfs.nodup h]

/- A session that has not done anything yet. -/
def World.init (fs : Fs) : World := ⟨fs,[],[],[],1⟩

theorem confined_init {j : Jail} (hfs : fs.Distinct) (hdir : fs.node j.place=some .dir)
    (hlinks : ∀ q target, fs.node q=some (.link target) → j.place <+: q → Downward target) :
    Confined j fs (.init fs) where
  kept :=
    { same := rfl
      notLink := fun target h => by simpa [hdir] using hfs.node_of_mem h
      below := fun q target h hq _ => hlinks q target (hfs.node_of_mem h) hq }
  trail := by simp [World.init]
  handles := by simp [World.init]
  stands := hdir

/-- A session never leaves a jail that no request removes. The first RMDIR of the jail decides: until
then all is confined, and behind it the session can act beside the jail. -/
theorem session_confined_iff (j : Jail) (opts : Options) (fs : Fs) (hfs : fs.Distinct)
    (hdir : fs.node j.place=some .dir)
    (hlinks : ∀ q target, fs.node q=some (.link target) → j.place <+: q → Downward target)
    (hleads : j.Leads fs) (hjail : opts.Jailed j) (before : List (Policy × Packet))
    (hbefore : InPlace opts j (.init fs) before) (r : Policy × Packet) :
    Inside j fs (serve opts (.init fs) (before++[r])) ∧
    ((∀ more, InPlace opts j (serve opts (.init fs) (before++[r])) more →
        Inside j fs (serve opts (.init fs) (before++[r]++more))) ↔
      ¬Vacates opts j (serve opts (.init fs) before) r) := by
  have hw := serve_confined hleads hjail (confined_init hfs hdir hlinks) hbefore
  have hlast : serve opts (.init fs) (before++[r]) =
      (dispatch r.1 opts r.2 (serve opts (.init fs) before)).2 := by
    rw [serve_append]
    rfl
  by_cases hgone : Vacates opts j (serve opts (.init fs) before) r
  · have hkept := hw.kept.erase (prefix_refl j.place)
    have hout := hlast.trans hgone.dispatch_eq
    refine ⟨?_,iff_of_false (fun hall => ?_) (not_not.2 hgone)⟩
    · rw [hout]
      exact Inside.act (w := { serve opts (.init fs) before with fs := _ })
        ⟨hkept,hw.trail,hw.handles⟩ (prefix_refl _) rfl rfl rfl
    · obtain ⟨path,-,hremoves⟩ := hgone
      obtain ⟨p,hres,hloc⟩ := hremoves.found
      rw [hw.kept.root_of_locate hleads (hjail.resolve hres) hloc] at hres
      obtain ⟨more,hmore,q,hq,hbeside⟩ := not_confined
        (w := serve opts (.init fs) (before++[r])) hleads hremoves.writable hres
        (by rw [hout]; exact hkept.same) (by rw [hout]; exact Fs.node_erase _ hremoves.notRoot)
      rw [← serve_append] at hq
      exact hbeside ((hall more hmore).trail q hq)
  · have hw' := dispatch_confined hleads hjail hw hgone
    rw [← hlast] at hw'
    refine ⟨hw'.toInside,iff_of_true (fun more hmore => ?_) hgone⟩
    rw [serve_append]
    exact (serve_confined hleads hjail hw' hmore).toInside

def srvJail : Jail where
  root := [[115,114,118],[106]]
  place := [[115,114,118],[106]]

/- `/srv` with the empty directory `/srv/j`. -/
def srvFs : Fs where
  nodes := [([[115,114,118]],.dir),(srvJail.place,.dir)]
  nextIno := 1

def srvOptions : Options where
  cwd := pathBytes srvJail.root
  root := some (pathBytes srvJail.root)

theorem srvFs_distinct : srvFs.Distinct := ⟨by decide,by decide⟩

theorem srvFs_links (q : Names) (target : Bytes) : srvFs.node q≠some (.link target) := by
  intro h
  have hne : q≠[] := by
    rintro rfl
    cases h
  simpa [srvFs] using Fs.mem_of_node hne h

theorem srvJail_leads : srvJail.Leads srvFs := by
  refine @Jail.leads_of_dirs srvFs [[115,114,118]] [106] fun q hq hne => ?_
  rcases prefix_cons_iff.1 hq with rfl | ⟨rest,rfl,hrest⟩
  · exact absurd rfl hne
  · rw [prefix_nil.1 hrest]
    rfl

/-- A directory made below the jail keeps the session confined. -/
theorem session_confined_srv : srvFs.Distinct ∧ srvJail.Leads srvFs ∧ srvOptions.Jailed srvJail ∧
    ∀ more, InPlace srvOptions srvJail (serve srvOptions (.init srvFs) [(allowAll,.mkdir [100] {})]) more →
      Inside srvJail srvFs (serve srvOptions (.init srvFs) ([(allowAll,.mkdir [100] {})]++more)) :=
  ⟨srvFs_distinct,srvJail_leads,⟨_,rfl,by decide⟩,
    (session_confined_iff srvJail srvOptions srvFs srvFs_distinct rfl
      (fun q target h => absurd h (srvFs_links q target)) srvJail_leads ⟨_,rfl,by decide⟩ [] trivial
      (allowAll,.mkdir [100] {})).2.2 (by rintro ⟨path,⟨⟩,-⟩)⟩

/-- The empty jail is removed, a link to `.` is put in its place, and a directory asked for in the
jail is made in `/srv`. -/
theorem removed_jail_escapes : srvFs.Distinct ∧ srvFs.node srvJail.place=some .dir ∧
    (∀ q target, srvFs.node q≠some (.link target)) ∧ srvJail.Leads srvFs ∧
    srvOptions.Jailed srvJail ∧ (serve srvOptions (.init srvFs) [(allowAll,.rmdir [dot]),
      (allowAll,.symlink [dot] (pathBytes srvJail.root)),
      (allowAll,.mkdir (pathBytes (srvJail.root++[[102]])) {})]).trail =
        [srvJail.place,srvJail.place,[[115,114,118],[102]]] ∧
    ¬srvJail.place <+: [[115,114,118],[102]] :=
  ⟨srvFs_distinct,rfl,srvFs_links,srvJail_leads,⟨_,rfl,by decide⟩,by decide,by decide⟩

end Start

end PureSsh.Sftp
