import PureSsh.Sftp.Path

/-! The requests that answer with a path: `realpath`, `expand-path@openssh.com` and
`home-directory`. -/

namespace PureSsh.Sftp
open Lib Scp

/- What these requests read of `SftpServerOptions`, and the password database. -/
structure Naming where
  cwd : Bytes
  root : Option Bytes
  hideJailInRealpath : Bool
  homeOf : Text → Option Bytes

namespace Naming
variable (s : Naming)

def resolve (raw : Bytes) : Except SftpError Names := Sftp.resolve s.cwd raw s.root

/- `to_string_lossy` of a path, as bytes again. -/
def lossy (raw : Bytes) : Bytes := (Text.ofUtf8Lossy raw).bytes

/- `strip_prefix` -/
def stripRoot (root p : Names) : Option Names :=
  if root.isPrefixOf p then some (p.drop root.length) else none

/- The path as the client is shown it. -/
def display (p : Names) : Names :=
  if s.hideJailInRealpath then
    match s.root with
    | some root =>
      match stripRoot (lexicallyClean root) p with
      | some suffix => suffix
      | none => []
    | none => p
  else p

def opRealpath (path : Bytes) : Except SftpError Bytes := do
  let p ← s.resolve path
  return lossy (pathBytes (s.display p))

def homeInJail (user : Text) : Option Names := do
  let home := lexicallyClean (← s.homeOf user)
  match s.root with
  | some root => if !isInside home (lexicallyClean root) then none else some home
  | none => some home

def noSuchUser : SftpError := .status .noSuchFile "no such user"

/- What follows `~`: the user, and the rest behind the first slash. -/
def splitUser (rest : Bytes) : Bytes × Bytes :=
  (rest.takeWhile (· ≠ slash),(rest.dropWhile (· ≠ slash)).drop 1)

/- The path that `op_ext_expand_path` hands to `op_realpath`. -/
def expandTilde (path : Bytes) : Except SftpError Bytes :=
  match path with
  | 126::rest =>
    let (user,tail) := splitUser rest
    match s.homeInJail (Text.ofUtf8Lossy user) with
    | some home =>
      let p := lossy (pathBytes home)
      .ok (if tail=[] then p else p++slash::tail)
    | none => .error noSuchUser
  | _ => .ok path

inductive Request
  | realpath (path : Bytes)
  | expandPath (data : Bytes)
  | homeDirectory (data : Bytes)

def readPath (data : Bytes) : Except SftpError Bytes :=
  match Reader.readString data with
  | .ok (path,_) => .ok path
  | .error e => .error (.format e)

/- The path each request asks about. -/
def asked : Request → Except SftpError Bytes
  | .realpath path => .ok path
  | .expandPath data => do s.expandTilde (← readPath data)
  | .homeDirectory data => do
    match s.homeInJail (Text.ofUtf8Lossy (← readPath data)) with
    | some home => .ok (lossy (pathBytes home))
    | none => .error noSuchUser

def reply (r : Request) : Except SftpError Bytes := do s.opRealpath (← s.asked r)

variable {s} {path : Bytes} {p : Names}

theorem lossy_of_valid {raw : Bytes} (h : validUtf8 raw=true) : lossy raw=raw :=
  bytes_ofUtf8Lossy h

theorem validUtf8_lossy (raw : Bytes) : validUtf8 (lossy raw)=true := validUtf8_bytes _

theorem lossy_slash (raw : Bytes) : lossy (slash::raw)=slash::lossy raw := by
  have hscan : utf8Scan none (slash::raw)=some 47::utf8Scan none raw :=
    utf8Scan_ascii (b := slash) beyondAscii_none (by decide) [] raw
  rw [lossy,Text.ofUtf8Lossy,utf8Lossy,hscan]
  rfl

/-- A path is the cleaned text, and lies in the jail if there is one. -/
theorem resolve_eq_ok : s.resolve path = .ok p ↔
    validUtf8 path=true ∧ p=lexicallyClean (joinRaw s.cwd path) ∧
      ∀ root∈s.root, lexicallyClean root <+: p := by
  rw [resolve,Sftp.resolve]
  cases hvalid : validUtf8 path with
  | false => simp
  | true =>
    cases hroot : s.root with
    | none => simp [eq_comm]
    | some root =>
      have hinside := @isInside_iff (lexicallyClean (joinRaw s.cwd path)) (lexicallyClean root)
      by_cases h : lexicallyClean root <+: lexicallyClean (joinRaw s.cwd path)
      · simp only [hinside.2 h,Bool.not_true,Bool.false_eq_true,if_false,Except.ok.injEq,
          true_and,Option.mem_def,Option.some.injEq,forall_eq']
        constructor
        · rintro rfl
          exact ⟨rfl,h⟩
        · exact fun hp => hp.1.symm
      · have hout : isInside (lexicallyClean (joinRaw s.cwd path)) (lexicallyClean root)=false :=
          Bool.eq_false_iff.2 fun hin => h (hinside.1 hin)
        simp only [hout,Bool.not_true,Bool.not_false,Bool.false_eq_true,if_false,if_true,
          reduceCtorEq,true_and,Option.mem_def,Option.some.injEq,forall_eq',false_iff]
        rintro ⟨rfl,hp⟩
        exact h hp

theorem joinRaw_pathBytes (cwd : Bytes) (p : Names) : joinRaw cwd (pathBytes p)=pathBytes p := by
  rw [joinRaw,if_pos (by simp [isAbsolute,pathBytes])]

theorem display_eq (h : ∀ root∈s.root, lexicallyClean root <+: p) :
    ∃ hidden, p=hidden++s.display p ∧
      (hidden=[] ↔ (s.hideJailInRealpath=true → ∀ root∈s.root, lexicallyClean root=[])) := by
  rw [display]
  cases hhide : s.hideJailInRealpath with
  | false => exact ⟨[],by simp,by simp⟩
  | true =>
    cases hroot : s.root with
    | none => exact ⟨[],by simp,by simp⟩
    | some root =>
      obtain ⟨suffix,rfl⟩ := h root hroot
      have hstrip : stripRoot (lexicallyClean root) (lexicallyClean root++suffix)=some suffix := by
        rw [stripRoot,if_pos (by simp),List.drop_left]
      exact ⟨lexicallyClean root,by simp [hstrip],by simp⟩

/-- The answer names the path it was given iff nothing of it is hidden and the whole of it is
UTF-8. -/
theorem opRealpath_usable (hp : s.resolve path = .ok p) : ∃ shown, s.opRealpath path = .ok shown ∧
      ((s.resolve shown = .ok p ∧ s.opRealpath shown = .ok shown) ↔
        (s.hideJailInRealpath=true → ∀ root∈s.root, lexicallyClean root=[]) ∧
          validUtf8 (pathBytes p)=true) := by
  obtain ⟨-,hclean,hjail⟩ := resolve_eq_ok.1 hp
  have hproper : ∀ n∈p, Proper n := fun n hn => proper_of_mem_clean (hclean ▸ hn)
  obtain ⟨hidden,hsplit,hnothing⟩ := display_eq (s := s) hjail
  have hshown : ∀ path', s.resolve path' = .ok p →
      s.opRealpath path' = .ok (lossy (pathBytes (s.display p))) := fun path' h => by
    rw [opRealpath,h]
    rfl
  refine ⟨_,hshown path hp,?_⟩
  constructor
  · rintro ⟨hback,-⟩
    obtain ⟨-,hread,-⟩ := resolve_eq_ok.1 hback
    -- the names read back are UTF-8, so the shown ones were and came through unchanged
    have habsolute : joinRaw s.cwd (lossy (pathBytes (s.display p))) =
        lossy (pathBytes (s.display p)) := by
      rw [pathBytes,lossy_slash,joinRaw,if_pos (by simp [isAbsolute])]
    rw [habsolute] at hread
    have hnames : ∀ n∈p, validUtf8 n=true := fun n hn =>
      valid_of_mem_clean (validUtf8_lossy (pathBytes (s.display p))) (hread ▸ hn)
    have hsub : ∀ n∈s.display p, n∈p := fun n hn => by
      rw [hsplit]
      exact List.mem_append_right hidden hn
    rw [lossy_of_valid (validUtf8_pathBytes.2 fun n hn => hnames n (hsub n hn)),
      clean_pathBytes fun n hn => hproper n (hsub n hn)] at hread
    refine ⟨hnothing.1 ?_,validUtf8_pathBytes.2 hnames⟩
    have hlength := congrArg List.length hsplit
    rw [List.length_append,← hread] at hlength
    exact List.eq_nil_of_length_eq_zero (by omega)
  · rintro ⟨hopen,hvalid⟩
    have hall : s.display p=p := by
      rw [hnothing.2 hopen,List.nil_append] at hsplit
      exact hsplit.symm
    have hback : s.resolve (lossy (pathBytes (s.display p))) = .ok p := by
      rw [hall,lossy_of_valid hvalid,resolve_eq_ok,joinRaw_pathBytes,clean_pathBytes hproper]
      exact ⟨hvalid,rfl,hjail⟩
    exact ⟨hback,hshown _ hback⟩

/-- The path that a request is answered with can be used, for the path it asked about and as its own
answer, iff no jail is hidden and the path is UTF-8. -/
theorem reply_usable_iff (s : Naming) (r : Request) (p : Names)
    (hp : (do s.resolve (← s.asked r)) = .ok p) : ∃ shown, s.reply r = .ok shown ∧
      ((s.resolve shown = .ok p ∧ s.opRealpath shown = .ok shown) ↔
        (s.hideJailInRealpath=true → ∀ root∈s.root, lexicallyClean root=[]) ∧
          validUtf8 (pathBytes p)=true) := by
  cases hasked : s.asked r with
  | error e => simp [hasked,bind,Except.bind] at hp
  | ok path =>
    rw [hasked] at hp
    rw [reply,hasked]
    exact opRealpath_usable hp

section Samples

/- `SftpServerOptions::new("/srv/jail").with_root("/srv/jail")` -/
def jailed : Naming where
  cwd := ascii "/srv/jail"
  root := some (ascii "/srv/jail")
  hideJailInRealpath := true
  homeOf _ := none

theorem reply_usable_unjailed :
    ∃ shown, ({ jailed with root := none } : Naming).reply (.realpath (ascii "a/../b")) = .ok shown ∧
      (({ jailed with root := none } : Naming).resolve shown =
          .ok [ascii "srv",ascii "jail",ascii "b"] ∧
        ({ jailed with root := none } : Naming).opRealpath shown = .ok shown) := by
  obtain ⟨shown,hreply,hiff⟩ := reply_usable_iff { jailed with root := none }
    (.realpath (ascii "a/../b")) [ascii "srv",ascii "jail",ascii "b"] (by decide)
  exact ⟨shown,hreply,hiff.2 (by decide)⟩

/-- With the defaults and a jail, `realpath "."` answers `/`, and `/` is then refused. -/
theorem hidden_jail_refused : jailed.resolve (ascii ".") = .ok [ascii "srv",ascii "jail"] ∧
      jailed.reply (.realpath (ascii ".")) = .ok (ascii "/") ∧ jailed.resolve (ascii "/") =
        .error (.status .permissionDenied "path escapes jail root") := by
  decide

end Samples

end Naming

end PureSsh.Sftp
