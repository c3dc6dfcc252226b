import PureSsh.Format
import PureSsh.Lib.Utf8
import PureSsh.Scp.Files

/-! Resolution of the paths a client sends (`sftp/path.rs`). A clean path is the list of its names
from the root. -/

namespace PureSsh.Sftp
open Lib Scp List

inductive FxpStatus
  | ok | eof | noSuchFile | permissionDenied | failure | badMessage | noConnection | connectionLost
  | opUnsupported
  deriving DecidableEq, Repr

/- What a request can end in, other than its reply. -/
inductive SftpError
  | io (kind : IoErrorKind)
  | format (what : Error)
  | protocol (what : String)
  | status (code : FxpStatus) (message : String)
  deriving DecidableEq, Repr

abbrev Names := List Bytes

/- `Path::components` without the root and the dots, which are passed over. -/
def components (raw : Bytes) : List Component := (raw.splitOn slash).filterMap componentOf

def cleanStep (out : Names) : Component → Names
  | .parentDir => out.dropLast
  | .normal name => out++[name]
  | .rootDir | .curDir => out

def lexicallyClean (raw : Bytes) : Names := (components raw).foldl cleanStep []

/- The text of a clean path. -/
def pathBytes (p : Names) : Bytes := slash::[slash].intercalate p

def isAbsolute (raw : Bytes) : Bool := raw.head? == some slash

/- `Path::join` -/
def joinRaw (cwd raw : Bytes) : Bytes :=
  if isAbsolute raw then raw
  else if cwd=[] ∨ cwd.getLast?=some slash then cwd++raw
  else cwd++slash::raw

def isInside : Names → Names → Bool
  | _, [] => true
  | c::child, p::parent => c==p && isInside child parent
  | [], _::_ => false

def resolve (cwd raw : Bytes) (root : Option Bytes) : Except SftpError Names :=
  if !validUtf8 raw then .error (.status .badMessage "")
  else
    let clean := lexicallyClean (joinRaw cwd raw)
    match root with
    | some jail =>
      if !isInside clean (lexicallyClean jail) then
        .error (.status .permissionDenied "path escapes jail root")
      else .ok clean
    | none => .ok clean

/- A name that can stand in a directory. -/
structure Proper (name : Bytes) : Prop where
  ne_nil : name≠[]
  ne_dot : name≠[dot]
  ne_dots : name≠[dot,dot]
  noSlash : slash∉name

section Clean
variable {raw : Bytes} {p : Names}

theorem componentOf_proper {name : Bytes} (h : Proper name) :
    componentOf name=some (.normal name) := by
  rw [componentOf,if_neg (by simp [h.ne_nil,h.ne_dot]),if_neg h.ne_dots]

theorem normal_mem_components {name : Bytes} (h : Component.normal name∈components raw) :
    Proper name ∧ name∈raw.splitOn slash := by
  rw [components,mem_filterMap] at h
  obtain ⟨part,hpart,hcomp⟩ := h
  rw [componentOf] at hcomp
  split at hcomp
  · cases hcomp
  split at hcomp
  · cases hcomp
  next hdot hdots =>
  cases hcomp
  rw [not_or] at hdot
  exact ⟨⟨hdot.1,hdot.2,hdots,not_mem_of_mem_splitOn hpart⟩,hpart⟩

/-- Cleaning keeps what holds of every name. -/
theorem cleanStep_forall {P : Bytes → Prop} {cs : List Component} {out : Names}
    (hout : ∀ n∈out, P n) (hcs : ∀ n, Component.normal n∈cs → P n) :
    ∀ n∈cs.foldl cleanStep out, P n := by
  induction cs generalizing out with
  | nil => exact hout
  | cons c cs ih =>
    rw [foldl_cons]
    refine ih ?_ fun n hn => hcs n (mem_cons_of_mem c hn)
    cases c with
    | rootDir => exact hout
    | curDir => exact hout
    | parentDir => exact fun n hn => hout n (mem_of_mem_dropLast hn)
    | normal name =>
      rw [cleanStep,forall_mem_append,forall_mem_singleton]
      exact ⟨hout,hcs name mem_cons_self⟩

theorem proper_of_mem_clean {n : Bytes} (h : n∈lexicallyClean raw) : Proper n :=
  cleanStep_forall (P := Proper) (by simp) (fun _ hn => (normal_mem_components hn).1) n h

theorem foldl_cleanStep_normal (p out : Names) :
    (p.map Component.normal).foldl cleanStep out=out++p := by
  induction p generalizing out with
  | nil => simp
  | cons n p ih => simp [cleanStep,ih]

theorem clean_pathBytes (h : ∀ n∈p, Proper n) : lexicallyClean (pathBytes p)=p := by
  have hsplit : (pathBytes p).splitOn slash=[]::([slash].intercalate p).splitOn slash :=
    splitOn_append_cons_self_of_not_mem (not_mem_nil (a := slash)) _
  have hcomp : components (pathBytes p)=p.map .normal := by
    rw [components,hsplit,filterMap_cons_none rfl]
    cases p with
    | nil => rfl
    | cons n p =>
      rw [splitOn_intercalate _ (fun m hm => (h m hm).noSlash) (cons_ne_nil n p),
        filterMap_congr fun m hm => componentOf_proper (h m hm),filterMap_eq_map']
  rw [lexicallyClean,hcomp,foldl_cleanStep_normal,nil_append]

end Clean

section Utf8
variable {raw : Bytes} {p : Names}

theorem validUtf8_intercalate (ps : List Bytes) :
    validUtf8 ([slash].intercalate ps)=true ↔ ∀ n∈ps, validUtf8 n=true := by
  induction ps with
  | nil => simp [validUtf8,utf8Scan]
  | cons n ps ih =>
    cases ps with
    | nil => simp
    | cons m ps =>
      have hcons : [slash].intercalate (n::m::ps)=n++slash::[slash].intercalate (m::ps) := by
        simp
      rw [hcons,validUtf8_ascii (by decide),Bool.and_eq_true,ih]
      exact (forall_mem_cons (p := fun x => validUtf8 x=true)).symm

theorem validUtf8_splitOn (h : validUtf8 raw=true) {part : Bytes}
    (hpart : part∈raw.splitOn slash) : validUtf8 part=true := by
  have hjoin : [slash].intercalate (raw.splitOn slash)=raw := intercalate_splitOn slash
  rw [← hjoin] at h
  exact (validUtf8_intercalate _).1 h part hpart

theorem valid_of_mem_clean (h : validUtf8 raw=true) {n : Bytes} (hn : n∈lexicallyClean raw) :
    validUtf8 n=true :=
  cleanStep_forall (P := fun n => validUtf8 n=true) (by simp)
    (fun _ hc => validUtf8_splitOn h (normal_mem_components hc).2) n hn

theorem validUtf8_pathBytes : validUtf8 (pathBytes p)=true ↔ ∀ n∈p, validUtf8 n=true := by
  have hslash := validUtf8_ascii (b := slash) (by decide) [] ([slash].intercalate p)
  rw [← validUtf8_intercalate,pathBytes,← nil_append (slash::_),hslash]
  simp [validUtf8,utf8Scan]

end Utf8

section Inside
variable {child parent : Names}

theorem isInside_iff : isInside child parent=true ↔ parent <+: child := by
  induction child, parent using isInside.induct with
  | case1 child => simp [isInside]
  | case2 c child p parent ih =>
    rw [isInside,Bool.and_eq_true,beq_iff_eq,ih,cons_prefix_cons,eq_comm]
  | case3 p parent => simp [isInside]

end Inside

end PureSsh.Sftp
