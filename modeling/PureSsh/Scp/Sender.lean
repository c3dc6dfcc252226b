import PureSsh.Scp.Encoding
import PureSsh.Scp.Files

/-! The sending side of SCP, and the trees it sends. -/

namespace PureSsh.Scp

open Lib List

/- What the sender finds at a path; the times are those of `times_of`. -/
inductive Tree
  | file (mode : Mode) (mtime atime : Int) (content : Bytes)
  | dir (mode : Mode) (mtime atime : Int) (entries : List (Bytes × Tree))

structure ScpSendOptions where
  recursive : Bool
  preserveTimes : Bool

namespace Sender

variable (opts : ScpSendOptions)

/- `Sender::new`: the receiver speaks first. -/
def new : ScpProg Unit Unit := readAck

def basenameOr (name : Bytes) : ScpProg Unit Bytes :=
  if validUtf8 name then .ret name else .fail (.badName (ascii "non-UTF-8 basename"))

def sendHeader (h : Header) : ScpProg Unit Unit := do
  writeHeader h
  readAck

def sendTimes (mtime atime : Int) : ScpProg Unit Unit :=
  if opts.preserveTimes then sendHeader (.times mtime atime) else pure ()

def sendFile (mode : Mode) (mtime atime : Int) (content name : Bytes) : ScpProg Unit Unit := do
  sendTimes opts mtime atime
  let name ← basenameOr name
  sendHeader (.file mode.toNat content.length name)
  writePayloadTerm content
  readAck

/- `send_dir` around the sending of the entries. -/
def sendDir (mode : Mode) (mtime atime : Int) (entries : ScpProg Unit Unit) (name : Bytes) :
    ScpProg Unit Unit := do
  sendTimes opts mtime atime
  let name ← basenameOr name
  sendHeader (.dir mode.toNat name)
  entries
  sendHeader .endDir

def sendAll : List (ScpProg Unit Unit) → ScpProg Unit Unit
  | [] => pure ()
  | p::ps => do
    p
    sendAll ps

/- The order of `entries.sort()`. -/
def byName (a b : Bytes × Tree) : Bool := decide (a.1≤b.1)

def sendEntry : Tree → Bytes → ScpProg Unit Unit
  | .file mode mtime atime content, name => sendFile opts mode mtime atime content name
  | .dir mode mtime atime entries, name =>
    let jobs := (entries.mergeSort byName).attach.map fun ⟨e,_⟩ => sendEntry e.2 e.1
    sendDir opts mode mtime atime (sendAll jobs) name
termination_by t => sizeOf t
decreasing_by
  rename_i h
  have hmem := sizeOf_lt_of_mem (mem_mergeSort.1 h)
  have hpair : sizeOf e=1+sizeOf e.1+sizeOf e.2 := by
    cases e
    rfl
  simp only [Tree.dir.sizeOf_spec]
  omega

def sendPath (t : Tree) (name : Bytes) : ScpProg Unit Unit :=
  match t with
  | .dir _ _ _ _ =>
    if !opts.recursive then .fail (.unexpected (ascii "source is a directory but -r not set"))
    else sendEntry opts t name
  | .file _ _ _ _ => sendEntry opts t name

theorem sendEntry_dir (mode : Mode) (mtime atime : Int) (entries : List (Bytes × Tree))
    (name : Bytes) : sendEntry opts (.dir mode mtime atime entries) name =
      sendDir opts mode mtime atime
        (sendAll ((entries.mergeSort byName).map fun e => sendEntry opts e.2 e.1)) name := by
  rw [sendEntry]
  dsimp only
  rw [attach_map_val (f := fun e : Bytes × Tree => sendEntry opts e.2 e.1)]

end Sender

namespace Tree

/- What is found below a tree. -/
def node : Tree → Path → Option Node
  | .file mode _ _ content, [] => some (.file mode content)
  | .dir mode _ _ _, [] => some (.dir mode)
  | .dir _ _ _ entries, .normal name::rest =>
    match entries.lookup name with
    | some t => t.node rest
    | none => none
  | _, _ => none

/- A tree as a file system can hold it and a record can name it. -/
inductive Sound : Tree → Prop
  | file {mode : Mode} {mtime atime : Int} {content : Bytes}
      (times : (Header.times mtime atime).Writable) (size : content.length<2^64) :
      Sound (.file mode mtime atime content)
  | dir {mode : Mode} {mtime atime : Int} {entries : List (Bytes × Tree)}
      (times : (Header.times mtime atime).Writable) (distinct : (entries.map Prod.fst).Nodup)
      (names : ∀ e∈entries, GoodName e.1) (sound : ∀ e∈entries, Sound e.2) :
      Sound (.dir mode mtime atime entries)

/-- All directories with entries keep the rights that are needed to add to them. -/
inductive Fillable (may : Right → Mode → Bool) : Tree → Prop
  | file {mode : Mode} {mtime atime : Int} {content : Bytes} :
      Fillable may (.file mode mtime atime content)
  | dir {mode : Mode} {mtime atime : Int} {entries : List (Bytes × Tree)}
      (rights : entries≠[] → may .write mode=true ∧ may .search mode=true)
      (fillable : ∀ e∈entries, Fillable may e.2) : Fillable may (.dir mode mtime atime entries)

/- The objects below `target` are those of the tree. -/
def graft (nodes : Path → Option Node) (target : Path) (t : Tree) (q : Path) : Option Node :=
  if target <+: q then t.node (q.drop target.length) else nodes q

section Graft

variable {nodes : Path → Option Node} {target : Path} {t : Tree} {mode : Mode} {mtime atime : Int}
  {entries : List (Bytes × Tree)} {name : Bytes}

theorem graft_append (q : Path) : graft nodes target t (target++q)=t.node q := by
  rw [graft,if_pos (prefix_append _ _),drop_left]

theorem graft_elsewhere {q : Path} (h : ¬target <+: q) : graft nodes target t q=nodes q :=
  if_neg h

theorem graft_congr {t' : Tree} (h : t.node=t'.node) :
    graft nodes target t=graft nodes target t' := by
  funext q
  rw [graft,graft,h]

/- Trees of a single object. -/
theorem graft_single (hfree : ∀ q, nodes (target++q)=none) {n : Node}
    (hroot : t.node []=some n) (hbelow : ∀ c q, t.node (c::q)=none) :
    graft nodes target t=fun q => if q=target then some n else nodes q := by
  funext q
  by_cases h : target <+: q
  · obtain ⟨q,rfl⟩ := h
    rw [graft_append]
    cases q with
    | nil => rw [append_nil,if_pos rfl,hroot]
    | cons c q => rw [hbelow,if_neg (by simp),hfree]
  · have hne : q≠target := by
      rintro rfl
      exact h prefix_rfl
    rw [graft_elsewhere h,if_neg hne]

theorem lookup_eq_none (h : name∉entries.map Prod.fst) : entries.lookup name=none := by
  rw [lookup_eq_none_iff]
  intro e he
  rw [bne_iff_ne]
  rintro rfl
  exact h (mem_map_of_mem he)

theorem graft_snoc (h : name∉entries.map Prod.fst) (c : Tree) :
    graft (graft nodes target (.dir mode mtime atime entries)) (target++[.normal name]) c =
      graft nodes target (.dir mode mtime atime (entries++[(name,c)])) := by
  funext q
  by_cases htarget : target <+: q
  · obtain ⟨q,rfl⟩ := htarget
    rw [graft_append]
    by_cases hname : [.normal name] <+: q
    · obtain ⟨q,rfl⟩ := hname
      rw [← append_assoc,graft_append,singleton_append,node,lookup_append,lookup_eq_none h]
      simp
    · have hno : ¬target++[.normal name] <+: target++q := by
        rwa [prefix_append_right_inj]
      rw [graft_elsewhere hno,graft_append]
      cases q with
      | nil => rfl
      | cons comp q =>
        cases comp with
        | normal other =>
          have hne : (other==name)=false := by
            rw [beq_eq_false_iff_ne]
            rintro rfl
            exact hname ⟨q,rfl⟩
          rw [node,node,lookup_append,lookup_cons,hne]
          simp
        | _ => rfl
  · have hno : ¬target++[.normal name] <+: q := fun h => htarget ((prefix_append _ _).trans h)
    rw [graft_elsewhere hno,graft_elsewhere htarget,graft_elsewhere htarget]

theorem lookup_perm {l l' : List (Bytes × Tree)} (h : l.Perm l') (hnodup : (l.map Prod.fst).Nodup)
    (name : Bytes) : l.lookup name=l'.lookup name := by
  induction h with
  | nil => rfl
  | cons e _ ih =>
    rw [map_cons,nodup_cons] at hnodup
    rw [lookup_cons,lookup_cons,ih hnodup.2]
  | swap e e' l =>
    rw [map_cons,map_cons,nodup_cons,mem_cons,not_or] at hnodup
    have hne := hnodup.1.1
    rw [lookup_cons,lookup_cons,lookup_cons,lookup_cons]
    cases he : name==e.1 with
    | true =>
      rw [beq_iff_eq] at he
      have he' : (name==e'.1)=false := by
        rw [beq_eq_false_iff_ne,he]
        exact Ne.symm hne
      rw [he']
    | false => rfl
  | trans h _ ih ih' =>
    exact (ih hnodup).trans (ih' ((h.map Prod.fst).nodup_iff.1 hnodup))

theorem node_perm {l l' : List (Bytes × Tree)} (h : l.Perm l') (hnodup : (l.map Prod.fst).Nodup) :
    (Tree.dir mode mtime atime l).node=(Tree.dir mode mtime atime l').node := by
  funext q
  cases q with
  | nil => rfl
  | cons c q =>
    cases c with
    | normal name => rw [node,node,lookup_perm h hnodup]
    | _ => rfl

end Graft

end Tree

end PureSsh.Scp
