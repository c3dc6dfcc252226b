import PureSsh.Lib.Bytes
import PureSsh.Lib.Proc
import PureSsh.Lib.ReadLoop

/-! The SSH wire format: errors, the reader, the writer and name-lists
(`error.rs`, `hazmat/format`). -/

namespace PureSsh
open Lib

/- `panic` is the outcome of an out-of-range slice or an underflowing subtraction, and
   `hang` that of a loop that never ends; no other constructor is added to the source's. -/
inductive Error where
  | format (msg : String)
  | protocol (msg : String)
  | badMac
  | badTag
  | badPadding
  | badSignature
  | hostKeyRejected
  | authFailed
  | badChannelState
  | unsupported (msg : String)
  | crypto (msg : String)
  | config (msg : String)
  | certExpired
  | certNotYetValid
  | certPrincipalMismatch
  | certTypeMismatch
  | certUnknownCriticalOption
  | certBadCaSignature
  | noMatch (category : String) (client server : Bytes)
  | disconnected (reason : UInt32) (description : List Nat)
  | panic (msg : String)
  | hang
  deriving DecidableEq, Repr

abbrev Result (α : Type) := Except Error α

/- A Rust string, as its bytes. -/
abbrev Str := Bytes

namespace Reader

def take (n : Nat) (r : Bytes) : Result (Bytes × Bytes) :=
  if r.length<n then .error (.format "short read") else .ok (r.take n,r.drop n)

def readU8 : Bytes → Result (UInt8 × Bytes)
  | b::r => .ok (b,r)
  | [] => .error (.format "short read")

def readBool (r : Bytes) : Result (Bool × Bytes) := do
  let (b,r) ← readU8 r
  return (b != 0,r)

def readU32 : Bytes → Result (UInt32 × Bytes)
  | a::b::c::d::r => .ok (ofBe32 a b c d,r)
  | _ => .error (.format "short read")

def readU64 : Bytes → Result (UInt64 × Bytes)
  | a::b::c::d::e::f::g::h::r => .ok (ofBe64 a b c d e f g h,r)
  | _ => .error (.format "short read")

def readString (r : Bytes) : Result (Bytes × Bytes) := do
  let (len,r) ← readU32 r
  take len.toNat r

/- `read_utf8` of each caller, with that caller's error text. -/
def readUtf8 (msg : String) (r : Bytes) : Result (Str × Bytes) := do
  let (s,r) ← readString r
  if validUtf8 s then return (s,r) else .error (.format msg)

end Reader

namespace Writer

def writeBool (v : Bool) : Bytes := [if v then 1 else 0]
def writeString (s : Bytes) : Bytes := be32 (UInt32.ofNat s.length)++s

/- Leading zeros go, and a sign byte comes before a set top bit. -/
def mpintBody (magnitude : Bytes) : Bytes :=
  match magnitude.dropWhile (· == 0) with
  | [] => []
  | b::m => if b &&& 0x80≠0 then 0::b::m else b::m

def writeMpint (magnitude : Bytes) : Bytes := writeString (mpintBody magnitude)

end Writer

namespace NameList

def comma : UInt8 := 44

/- Empty names are skipped. -/
def iter (list : Bytes) : List Bytes :=
  (list.splitOn comma).filter fun s => !s.isEmpty

def join (names : List Str) : Bytes := [comma].intercalate names

end NameList

namespace Reader
open Writer

theorem readU8_cons (b : UInt8) (r : Bytes) : readU8 (b::r) = .ok (b,r) := rfl

theorem readU32_be32 (v : UInt32) (r : Bytes) : readU32 (be32 v++r) = .ok (v,r) := by
  change Except.ok _=_
  rw [ofBe32_be32]
  rfl

theorem readU32_be32_end (v : UInt32) : readU32 (be32 v) = .ok (v,[]) := by
  simpa using readU32_be32 v []

theorem readU64_be64 (v : UInt64) (r : Bytes) : readU64 (be64 v++r) = .ok (v,r) := by
  change Except.ok (ofBe64 ..,r)=_
  rw [ofBe64_be64 rfl]

variable {s b r : Bytes}

theorem take_append {n : Nat} (h : s.length=n) (r : Bytes) : take n (s++r) = .ok (s,r) := by
  simp [take,← h]

theorem readString_writeString (h : s.length<2^32) (r : Bytes) :
    readString (writeString s++r) = .ok (s,r) := by
  have hlen : (UInt32.ofNat s.length).toNat=s.length := by
    rw [UInt32.toNat_ofNat']
    exact Nat.mod_eq_of_lt h
  rw [readString,writeString,List.append_assoc,readU32_be32]
  exact take_append hlen.symm r

theorem writeString_append_inj {a b r r' : Bytes} (ha : a.length<2^32) (hb : b.length<2^32)
    (h : writeString a++r=writeString b++r') : a=b ∧ r=r' := by
  have hread := congrArg readString h
  rw [readString_writeString ha,readString_writeString hb] at hread
  simpa using hread

theorem readString_writeString_end (h : s.length<2^32) :
    readString (writeString s) = .ok (s,[]) := by
  simpa using readString_writeString h []

theorem readBool_writeBool (v : Bool) (r : Bytes) : readBool (writeBool v++r) = .ok (v,r) := by
  cases v <;> rfl

theorem readUtf8_writeString (hutf8 : validUtf8 s=true) (h : s.length<2^32) (msg : String)
    (r : Bytes) : readUtf8 msg (writeString s++r) = .ok (s,r) := by
  rw [readUtf8,readString_writeString h,except_ok_bind]
  exact if_pos hutf8

theorem readUtf8_writeString_end (hutf8 : validUtf8 s=true) (h : s.length<2^32) (msg : String) :
    readUtf8 msg (writeString s) = .ok (s,[]) := by
  simpa using readUtf8_writeString hutf8 h msg []

section Then
variable {α : Type} {s r : Bytes} {y : Result α}

variable {v : UInt32} {f : Bytes × Bytes → Result α} {msg : String}

/- A reader at the place where its item was written goes on behind it. -/
theorem u32_then {f : UInt32 × Bytes → Result α} (hf : f (v,r)=y) :
    (readU32 (be32 v++r) >>= f)=y := by
  rw [readU32_be32]
  exact hf

theorem u32_end {f : UInt32 × Bytes → Result α} (hf : f (v,[])=y) : (readU32 (be32 v) >>= f)=y := by
  rw [readU32_be32_end]
  exact hf

theorem bool_then {v : Bool} {f : Bool × Bytes → Result α} (hf : f (v,r)=y) :
    (readBool (writeBool v++r) >>= f)=y := by
  rw [readBool_writeBool]
  exact hf

theorem string_then (h : s.length<2^32) (hf : f (s,r)=y) :
    (readString (writeString s++r) >>= f)=y := by
  rw [readString_writeString h]
  exact hf

theorem string_end (h : s.length<2^32) (hf : f (s,[])=y) :
    (readString (writeString s) >>= f)=y := by
  rw [readString_writeString_end h]
  exact hf

theorem utf8_then (hutf8 : validUtf8 s=true) (h : s.length<2^32) (hf : f (s,r)=y) :
    (readUtf8 msg (writeString s++r) >>= f)=y := by
  rw [readUtf8_writeString hutf8 h]
  exact hf

theorem utf8_end (hutf8 : validUtf8 s=true) (h : s.length<2^32) (hf : f (s,[])=y) :
    (readUtf8 msg (writeString s) >>= f)=y := by
  rw [readUtf8_writeString_end hutf8 h]
  exact hf

end Then

theorem eq_of_readU32 {v : UInt32} (h : readU32 b = .ok (v,r)) : b=be32 v++r := by
  rw [readU32.eq_def] at h
  split at h
  · cases h
    rw [be32_ofBe32]
    rfl
  · cases h

theorem eq_of_readString (h : readString b = .ok (s,r)) : b=writeString s++r := by
  obtain ⟨⟨len,t⟩,hlen,htake⟩ := except_bind_eq_ok.1 h
  have hhead := eq_of_readU32 hlen
  dsimp only [take] at htake
  split at htake
  · cases htake
  next hshort =>
    cases htake
    have hsize : UInt32.ofNat (t.take len.toNat).length=len := by
      rw [List.length_take,Nat.min_eq_left (Nat.le_of_not_lt hshort),UInt32.ofNat_toNat]
    rw [hhead,writeString,hsize,List.append_assoc,List.take_append_drop]

theorem writeString_length (s : Bytes) : (writeString s).length=4+s.length := by
  simp [writeString]

theorem readString_takes : Takes readString := by
  intro r x h
  rw [eq_of_readString (s := x.1) (r := x.2) h,List.length_append,writeString_length]
  omega

theorem take_length (n : Nat) (r : Bytes) : Yields (take n r) fun x => x.1.length=n := by
  unfold take
  split
  · exact .error _
  · refine .ok ?_
    rw [List.length_take]
    omega

theorem readString_length (r : Bytes) : Yields (readString r) fun x => x.1.length<2^32 := by
  refine .bind_any fun x s hs => ?_
  rw [take_length _ _ s hs]
  exact x.1.toNat_lt

end Reader

/- A reader fails with a format error only. -/
def Malformed {α : Type} (x : Result α) : Prop := Raises x fun e => ∃ msg, e = .format msg

namespace Malformed
open Reader
variable {α β : Type} {r : Bytes}

theorem ok (a : α) : Malformed (.ok a : Result α) := Raises.ok a

theorem ite {c : Prop} [Decidable c] {x y : Result α} (hx : Malformed x) (hy : Malformed y) :
    Malformed (if c then x else y) := Raises.ite hx hy

theorem readU8 (r : Bytes) : Malformed (readU8 r) := by
  cases r with
  | nil => exact .error ⟨_,rfl⟩
  | cons b r => exact .ok _

theorem readU32 (r : Bytes) : Malformed (readU32 r) := by
  unfold Reader.readU32
  split
  · exact .ok _
  · exact .error ⟨_,rfl⟩

theorem readString (r : Bytes) : Malformed (readString r) := by
  refine .bind (readU32 r) fun x => .ite ?_ (.ok _)
  exact .error ⟨_,rfl⟩

theorem readUtf8 (msg : String) (r : Bytes) : Malformed (readUtf8 msg r) :=
  .bind (readString r) fun _ => .ite (.ok _) (.error ⟨_,rfl⟩)

theorem bool {f : Bool × Bytes → Result α} (h : ∀ x, Malformed (f x)) :
    Malformed (readBool r >>= f) :=
  .bind (.bind (readU8 r) fun _ => .ok _) h

theorem u32 {f : UInt32 × Bytes → Result α} (h : ∀ x, Malformed (f x)) :
    Malformed (Reader.readU32 r >>= f) := .bind (readU32 r) h

theorem string {f : Bytes × Bytes → Result α} (h : ∀ x, Malformed (f x)) :
    Malformed (Reader.readString r >>= f) := .bind (readString r) h

theorem utf8 {msg : String} {f : Str × Bytes → Result α} (h : ∀ x, Malformed (f x)) :
    Malformed (Reader.readUtf8 msg r >>= f) := .bind (readUtf8 msg r) h

end Malformed
end PureSsh
