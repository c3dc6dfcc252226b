import Mathlib.Algebra.Order.BigOperators.Group.List
import Mathlib.Algebra.Order.Ring.Nat
import PureSsh.Config.Line

/-! Times in the configuration files: `parse_duration_str` of the server and `parse_time` of the
client. Both refuse every character beyond ASCII, so that the bytes the server reads can be taken for
characters. -/

namespace PureSsh.Config
open Lib

namespace Time

def digit (c : Char) : Option Nat := if c.isDigit then some (c.toNat-48) else none

/- The seconds of a unit. -/
def unit (c : Char) : Option Nat :=
  match c.toLower with
  | 's' => some 1
  | 'm' => some 60
  | 'h' => some 3600
  | 'd' => some 86400
  | 'w' => some 604800
  | _ => none

abbrev Groups := List (List Nat × Nat)

/- What a time is made of: the digits of each number with the seconds of the unit behind it, which
   the last number may lack. The digits `ds` of the first number have been read. -/
def groups (ds : List Nat) : Text → Option Groups
  | [] => some (if ds=[] then [] else [(ds,1)])
  | c::l =>
    match digit c, unit c with
    | some d, _ => groups (ds++[d]) l
    | none, some u => if ds=[] then none else (groups [] l).map ((ds,u) :: ·)
    | none, none => none

def number (ds : List Nat) : Nat := ds.foldl (fun n d => n*10+d) 0

def total (gs : Groups) : Nat := (gs.map fun g => number g.1*g.2).sum

/- The number of seconds that a text stands for. -/
def seconds (s : Text) : Option Nat := if s=[] then none else (groups [] s).map total

end Time

open Time hiding total

def saturate (n : Nat) : Nat := min n (2^64-1)

/- The loop of `parse_duration_str`, with `total`, `acc` and `has_digit`. -/
def durationFrom (bad : String → ConfigError) : Text → Nat → Nat → Bool → Except ConfigError Nat
  | [], total, acc, hasDigit =>
    let total := if hasDigit then saturate (total+acc) else total
    if total>2^32-1 then .error (bad "duration overflows u32 seconds: ") else .ok total
  | c::l, total, acc, hasDigit =>
    match digit c, unit c with
    | some d, _ => durationFrom bad l total ((acc*10+d)%2^64) true
    | none, none => .error (bad "bad duration unit in ")
    | none, some mult =>
      if hasDigit then durationFrom bad l (saturate (total+saturate (acc*mult))) 0 false
      else .error (bad "missing number before unit in ")

def parseDurationStr (s : Text) (line : ParsedLine) : Except ConfigError Nat :=
  durationFrom (fun msg => .badValue line.lineNo line.keyword (.quoting msg s.bytes)) s 0 0 false

/- `checked_mul` and `checked_add` -/
def checked (n : Nat) : Option Nat := if n<2^64 then some n else none

/- The loop of `parse_time`, with `total` and `num`; only the product with ten is checked. -/
def timeFrom : Text → Nat → Option Nat → Option Nat
  | [], total, some n => checked (total+n)
  | [], total, none => some total
  | c::l, total, num =>
    match digit c, unit c with
    | some d, _ => do
      let n ← checked (num.getD 0*10)
      timeFrom l total (some ((n+d)%2^64))
    | none, none => none
    | none, some scale => do
      let n ← num
      let added ← checked (n*scale)
      let total ← checked (total+added)
      timeFrom l total none

def parseTime (line : ParsedLine) (v : Text) : Except ConfigError Nat :=
  match (timeFrom v 0 none).filter fun n => v≠[] ∧ n<2^32 with
  | some n => .ok n
  | none => .error (.badValue line.lineNo line.keyword
      (.quoting "expected a time (e.g. 30, 1m, 1h30m), got " v.bytes))

namespace Time

variable {ds : List Nat} {s : Text} {gs : Groups} {t n : Nat}

/- The total as the two loops compute it, with every number reduced to 64 bits. -/
def wrapped (gs : Groups) : Nat := (gs.map fun g => number g.1%2^64*g.2).sum

@[simp] theorem number_nil : number []=0 := rfl

theorem number_snoc (ds : List Nat) (d : Nat) : number (ds++[d])=number ds*10+d := by
  simp [number]

theorem number_snoc_mod (ds : List Nat) (d : Nat) :
    (number ds%2^64*10+d)%2^64=number (ds++[d])%2^64 := by
  rw [number_snoc]
  omega

theorem number_le_append (ds l : List Nat) : number ds≤number (ds++l) := by
  induction l generalizing ds with
  | nil => simp
  | cons d l ih =>
    have h := ih (ds++[d])
    rw [number_snoc,List.append_assoc,List.singleton_append] at h
    omega

theorem unit_pos {c : Char} {u : Nat} (h : unit c=some u) : 0<u := by
  unfold unit at h
  split at h
  all_goals cases h
  all_goals decide

theorem groups_unit_pos (h : groups ds s=some gs) : ∀ g∈gs, 0<g.2 := by
  fun_induction groups ds s generalizing gs with
  | case1 ds =>
    cases h
    split <;> simp
  | case2 ds c s d _ ih => exact ih h
  | case3 => cases h
  | case4 ds c s u hu _ _ ih =>
    obtain ⟨gs,hgs,rfl⟩ := Option.map_eq_some_iff.1 h
    exact List.forall_mem_cons.2 ⟨unit_pos hu,ih hgs⟩
  | case5 => cases h

/- The digits that have been read begin the first number. -/
theorem groups_head (h : groups ds s=some gs) (hds : ds≠[]) : ∃ l u gs', gs=(ds++l,u)::gs' := by
  fun_induction groups ds s generalizing gs with
  | case1 ds =>
    cases h
    exact ⟨[],1,[],by simp [hds]⟩
  | case2 ds c s d _ ih =>
    obtain ⟨l,u,gs',rfl⟩ := ih h (by simp)
    exact ⟨d::l,u,gs',by simp⟩
  | case3 => cases h
  | case4 ds c s u =>
    obtain ⟨gs',-,rfl⟩ := Option.map_eq_some_iff.1 h
    exact ⟨[],u,gs',by simp⟩
  | case5 => cases h

/-- The server sums up the reduced numbers. -/
theorem durationFrom_eq_ok (bad : String → ConfigError) :
    durationFrom bad s t (number ds%2^64) (decide (ds≠[])) = .ok n ↔
      ∃ gs, groups ds s=some gs ∧ t+wrapped gs=n ∧ n<2^32 := by
  fun_induction groups ds s generalizing t with
  | case1 ds =>
    by_cases hds : ds=[]
    all_goals simp [durationFrom,wrapped,saturate,hds]
    all_goals grind
  | case2 ds c s d hd ih =>
    rw [← ih,← number_snoc_mod,decide_eq_true (show ds++[d]≠[] by simp),durationFrom,hd]
  | case3 c s u hu hd => simp [durationFrom,hd,hu]
  | case4 ds c s u hu hd hds ih =>
    rw [durationFrom,hd,hu]
    simp only [hds,ne_eq,not_false_eq_true,decide_true,if_true]
    refine ih.trans ?_
    simp only [Option.map_eq_some_iff,exists_exists_and_eq_and,wrapped,List.map_cons,
      List.sum_cons,saturate]
    refine exists_congr fun gs => and_congr_right fun _ => ?_
    omega
  | case5 ds c s hd hu => simp [durationFrom,hd,hu]

/- `num` of the client once the digits `ds` are read. -/
def held (ds : List Nat) : Option Nat := if ds=[] then none else some (number ds%2^64)

theorem held_getD (ds : List Nat) : (held ds).getD 0=number ds%2^64 := by
  by_cases hds : ds=[] <;> simp [held,hds]

theorem held_snoc (ds : List Nat) (d : Nat) : held (ds++[d])=some ((number ds%2^64*10+d)%2^64) := by
  rw [number_snoc_mod,held,if_neg (by simp)]

/-- So does the client, where it gives a result. -/
theorem timeFrom_sound (h : timeFrom s t (held ds)=some n) :
    ∃ gs, groups ds s=some gs ∧ t+wrapped gs=n := by
  fun_induction groups ds s generalizing t with
  | case1 ds => by_cases hds : ds=[] <;> simp_all [timeFrom,held,wrapped,checked]
  | case2 ds c s d hd ih =>
    simp only [timeFrom,hd,held_getD,checked,Option.bind_eq_bind] at h
    split at h
    · exact ih (held_snoc ds d ▸ h)
    · cases h
  | case3 c s u hu hd => simp [timeFrom,hd,hu,held] at h
  | case4 ds c s u hu hd hds ih =>
    simp only [timeFrom,hd,hu,held,hds,if_false,Option.bind_eq_bind,Option.bind_some,
      Option.bind_eq_some_iff,checked,Option.ite_none_right_eq_some,Option.some_inj] at h
    obtain ⟨_,⟨-,rfl⟩,_,⟨-,rfl⟩,h⟩ := h
    obtain ⟨gs,hgs,rfl⟩ := ih h
    exact ⟨(ds,u)::gs,by simp [hgs],by simp [wrapped,Nat.add_assoc]⟩
  | case5 ds c s hd hu => simp [timeFrom,hd,hu] at h

theorem timeFrom_complete (h : groups ds s=some gs) (hsmall : ∀ g∈gs, number g.1<2^64)
    (hlt : t+wrapped gs<2^32) : timeFrom s t (held ds)=some (t+wrapped gs) := by
  fun_induction groups ds s generalizing t gs with
  | case1 ds =>
    cases h
    by_cases hds : ds=[]
    all_goals simp [timeFrom,held,wrapped,checked,hds] at hlt ⊢
    omega
  | case2 ds c s d hd ih =>
    obtain ⟨l,u,gs',rfl⟩ := groups_head h (by simp)
    have hle := (number_le_append (ds++[d]) l).trans_lt (hsmall _ (.head _))
    rw [number_snoc] at hle
    rw [timeFrom,hd,held_getD,checked,if_pos (by omega),← ih h hsmall hlt,held_snoc]
    rfl
  | case3 => cases h
  | case4 ds c s u hu hd hds ih =>
    obtain ⟨gs,hgs,rfl⟩ := Option.map_eq_some_iff.1 h
    simp only [wrapped,List.map_cons,List.sum_cons,← Nat.add_assoc] at hlt ⊢
    rw [timeFrom,hd,hu,held,if_neg hds]
    simp only [checked,Option.bind_eq_bind,Option.bind_some]
    rw [if_pos (by omega),Option.bind_some,if_pos (by omega)]
    exact ih hgs (fun g hg => hsmall g (.tail _ hg)) hlt
  | case5 => cases h

theorem wrapped_le_total (gs : Groups) : wrapped gs≤total gs :=
  List.sum_le_sum fun _ _ => Nat.mul_le_mul_right _ (Nat.mod_le _ _)

theorem wrapped_eq_total (h : ∀ g∈gs, number g.1<2^64) : wrapped gs=total gs := by
  refine congrArg List.sum (List.map_congr_left fun g hg => ?_)
  rw [Nat.mod_eq_of_lt (h g hg)]

end Time

/-- Both read a text as the time that it stands for, or refuse it. -/
def TimeExact (line : ParsedLine) (s : Text) : Prop :=
  ∀ n, (parseDurationStr s line = .ok n ↔ seconds s=some n ∧ n≤2^32-1) ∧
    (parseTime line s = .ok n ↔ seconds s=some n ∧ n≤2^32-1)

theorem parseTime_eq_ok {line : ParsedLine} {s : Text} {n : Nat} :
    parseTime line s = .ok n ↔ timeFrom s 0 none=some n ∧ s≠[] ∧ n<2^32 := by
  rw [parseTime]
  cases timeFrom s 0 none with
  | none => simp
  | some m =>
    rw [Option.filter_some]
    split
    all_goals grind

/-- That is so unless the text is empty, which the server takes for no time at all, or its numbers
come to less than `2 ^ 32` seconds only because one of them wraps around. -/
theorem time_exact_iff (line : ParsedLine) (s : Text) : TimeExact line s ↔ s≠[] ∧
    ∀ gs, groups [] s=some gs → wrapped gs<2^32 → ∀ g∈gs, number g.1<2^64 := by
  have hserver (n : Nat) : parseDurationStr s line = .ok n ↔
      ∃ gs, groups [] s=some gs ∧ wrapped gs=n ∧ n<2^32 := by
    simpa [parseDurationStr] using @durationFrom_eq_ok [] s 0 n _
  constructor
  · intro h
    have hs : s≠[] := by
      rintro rfl
      exact absurd ((h 0).1.1 rfl).1 (by simp [seconds])
    refine ⟨hs,fun gs hgs hlt g hg => ?_⟩
    have hsum := ((h _).1.1 ((hserver _).2 ⟨gs,hgs,rfl,hlt⟩)).1
    rw [seconds,if_neg hs,hgs,Option.map_some,Option.some_inj] at hsum
    have hle : number g.1*g.2≤Time.total gs := List.le_sum_of_mem (List.mem_map_of_mem hg)
    have hpos := Nat.le_mul_of_pos_right (number g.1) (groups_unit_pos hgs g hg)
    omega
  · rintro ⟨hs,h⟩ n
    rw [hserver,parseTime_eq_ok,seconds,if_neg hs,Option.map_eq_some_iff]
    have hsound := @timeFrom_sound [] s 0 n
    cases hgs : groups [] s with
    | none => simp_all [held]
    | some gs =>
      simp only [hgs,Option.some_inj,exists_eq_left',Nat.zero_add,held,if_true] at h hsound ⊢
      have hle := wrapped_le_total gs
      by_cases hlt : wrapped gs<2^32
      · have hsmall := h gs rfl hlt
        have hclient := timeFrom_complete (t := 0) hgs hsmall (by omega)
        have htotal := wrapped_eq_total hsmall
        simp only [held,if_true,Nat.zero_add] at hclient
        rw [hclient,Option.some_inj]
        constructor <;> constructor <;> grind
      · grind

def aliveLine : ParsedLine := ⟨1,"clientaliveinterval".toList,[],[],none⟩

/-- A number just beyond 64 bits counts as zero on both sides, and the empty text on one. -/
theorem long_number_wraps : seconds "18446744073709551616".toList=some (2^64) ∧
      parseDurationStr "18446744073709551616".toList aliveLine = .ok 0 ∧
      parseTime aliveLine "18446744073709551616".toList = .ok 0 ∧
      seconds []=none ∧ parseDurationStr [] aliveLine = .ok 0 ∧
      parseTime aliveLine [] ≠ .ok 0 := by
  decide

end PureSsh.Config
