import Mathlib.Tactic.IntervalCases
import PureSsh.Sshsig.AllowedSigners

/-! The calendar: the dates that `parse_time` reads (`sshsig.rs`) and that `civil` makes of a number
of days (`bin/ssh-keygen.rs`). -/

namespace PureSsh.Sshsig
open Lib List

@[ext]
structure Date where
  (year month day : Int)

def civil (z : Int) : Date :=
  let z := z+719468
  let era := z/146097
  let doe := z%146097
  let yoe := (doe-doe/1460+doe/36524-doe/146096)/365
  let doy := doe-(365*yoe+yoe/4-yoe/100)
  let mp := (5*doy+2)/153
  let d := doy-(153*mp+2)/5+1
  let m := if mp<10 then mp+3 else mp-9
  ⟨yoe+era*400+(if m≤2 then 1 else 0),m,d⟩

def daysInMonth (y m : Int) : Int :=
  if m=2 then if y%4=0 ∧ (y%100≠0 ∨ y%400=0) then 29 else 28
  else if m=4 ∨ m=6 ∨ m=9 ∨ m=11 then 30 else 31

namespace Date

/-- A date of the Gregorian calendar. -/
def Valid (d : Date) : Prop :=
  1≤d.month ∧ d.month≤12 ∧ 1≤d.day ∧ d.day≤daysInMonth d.year d.month

/-- The next day. -/
def next (d : Date) : Date :=
  if d.day<daysInMonth d.year d.month then ⟨d.year,d.month,d.day+1⟩
  else if d.month<12 then ⟨d.year,d.month+1,1⟩ else ⟨d.year+1,1,1⟩

def Before (d e : Date) : Prop :=
  d.year<e.year ∨ d.year=e.year ∧ (d.month<e.month ∨ d.month=e.month ∧ d.day<e.day)

/-- Days since the epoch, as `parse_time` counts them. -/
def days (d : Date) : Int := daysFromCivil d.year d.month d.day

end Date

section Days
variable {d e : Date}

theorem days_mk (y m d : Int) : (Date.mk y m d).days=
    let yy := if m≤2 then y-1 else y
    365*yy+yy/4-yy/100+yy/400+(153*((m+9)%12)+2)/5+d-719469 := by
  simp only [Date.days,daysFromCivil]
  omega

/-- A date in the year that starts in March, where the leap day is the last one. -/
theorem Date.Valid.march (hd : d.Valid) : ∃ yy mp doy : Int,
    d.days=365*yy+yy/4-yy/100+yy/400+doy-719468 ∧ 0≤doy ∧ doy≤365 ∧
    (doy=365 → (yy+1)%4=0 ∧ ((yy+1)%100≠0 ∨ (yy+1)%400=0)) ∧ (5*doy+2)/153=mp ∧
    d=⟨yy+(if d.month≤2 then 1 else 0),if mp<10 then mp+3 else mp-9,doy-(153*mp+2)/5+1⟩ := by
  obtain ⟨y,m,d⟩ := d
  refine ⟨if m≤2 then y-1 else y,(m+9)%12,(153*((m+9)%12)+2)/5+d-1,?_⟩
  obtain ⟨hlow,hhigh,hfirst,hlast⟩ := hd
  simp only [days_mk,Date.ext_iff,daysInMonth] at *
  interval_cases m <;> omega

theorem Date.Valid.next (hd : d.Valid) : d.next.Valid ∧ d.next.days=d.days+1 := by
  obtain ⟨y,m,d⟩ := d
  obtain ⟨hlow,hhigh,hfirst,hlast⟩ := hd
  simp only [Date.next,Date.Valid] at *
  split_ifs <;> simp only [days_mk,daysInMonth] at * <;> interval_cases m <;> omega

theorem year_of_era {c q a doy doe : Int} (hc : 0≤c ∧ c≤3) (hq : 0≤q ∧ q≤24) (ha : 0≤a ∧ a≤3)
    (hdoy : 0≤doy ∧ doy≤365) (hleap : doy=365 → a=3) (hcent : q=24 → a=3 → doy=365 → c=3)
    (hdoe : doe=36524*c+1461*q+365*a+doy) :
    (doe-doe/1460+doe/36524-doe/146096)/365=100*c+4*q+a := by
  have hfour : doe/1460=25*c+q+(24*c+q+365*a+doy)/1460 := by omega
  have hone : (24*c+q+365*a+doy)/1460=0 ∨ (24*c+q+365*a+doy)/1460=1 ∧ 1≤doy := by omega
  have hcentury : doe/36524-doe/146096=c := by
    obtain ⟨hlow,hhigh⟩ := hc
    interval_cases c <;> omega
  omega

theorem civil_days (hd : d.Valid) : civil d.days=d := by
  obtain ⟨yy,mp,doy,hdays,hlow,hhigh,hleap,hmp,hdate⟩ := hd.march
  obtain ⟨era,c,q,a,hc,hq,ha,hyy⟩ : ∃ era c q a : Int, (0≤c ∧ c≤3) ∧ (0≤q ∧ q≤24) ∧
      (0≤a ∧ a≤3) ∧ yy=400*era+100*c+4*q+a :=
    ⟨yy/400,yy%400/100,yy%100/4,yy%4,by omega,by omega,by omega,by omega⟩
  have hthree : doy=365 → a=3 := fun h => by
    have := (hleap h).1
    omega
  have hlast : q=24 → a=3 → doy=365 → c=3 := fun hq' ha' h => by
    have := (hleap h).2
    omega
  have hquarter : yy/4=100*era+25*c+q := by omega
  have hcentury : yy/100=4*era+c := by omega
  have hera : yy/400=era := by omega
  clear hleap
  rw [hquarter,hcentury,hera,hyy] at hdays
  rw [hyy] at hdate
  clear hquarter hcentury hera hyy
  have hz : d.days+719468=36524*c+1461*q+365*a+doy+146097*era := by omega
  have hrest : 0≤36524*c+1461*q+365*a+doy ∧ 36524*c+1461*q+365*a+doy<146097 := by omega
  have hfour : (100*c+4*q+a)/4=25*c+q := by omega
  have hhundred : (100*c+4*q+a)/100=c := by omega
  rw [civil,hz,Int.add_mul_ediv_left _ _ (by decide),Int.add_mul_emod_self_left,
    Int.ediv_eq_zero_of_lt hrest.1 hrest.2,Int.emod_eq_of_lt hrest.1 hrest.2]
  rw [year_of_era hc hq ha ⟨hlow,hhigh⟩ hthree hlast rfl,hfour,hhundred,
    show 36524*c+1461*q+365*a+doy-(365*(100*c+4*q+a)+(25*c+q)-c)=doy by omega,hmp]
  rw [Date.ext_iff] at hdate ⊢
  dsimp only at hdate ⊢
  omega

/-- There is a date for every number of days: going on from the epoch, and back by eras. -/
theorem exists_days (z : Int) : ∃ d : Date, d.Valid ∧ d.days=z := by
  have hnat (n : Nat) : ∃ d : Date, d.Valid ∧ d.days=n := by
    induction n with
    | zero => exact ⟨⟨1970,1,1⟩,by simp [Date.Valid,daysInMonth],by decide⟩
    | succ n ih =>
      obtain ⟨d,hd,hdays⟩ := ih
      exact ⟨d.next,hd.next.1,by rw [hd.next.2,hdays]; rfl⟩
  obtain ⟨⟨y,m,d⟩,hd,hdays⟩ := hnat (z+146097*z.natAbs).toNat
  refine ⟨⟨y-400*z.natAbs,m,d⟩,?_,?_⟩
  · simp only [Date.Valid,daysInMonth] at hd ⊢
    omega
  · rw [days_mk] at hdays ⊢
    dsimp only at hdays ⊢
    omega

theorem civil_spec (z : Int) : (civil z).Valid ∧ (civil z).days=z := by
  obtain ⟨d,hd,rfl⟩ := exists_days z
  rw [civil_days hd]
  exact ⟨hd,rfl⟩

theorem civil_succ (z : Int) : civil (z+1)=(civil z).next := by
  obtain ⟨hvalid,hdays⟩ := civil_spec z
  rw [← civil_days hvalid.next.1,hvalid.next.2,hdays]

theorem before_civil (z : Int) (n : Nat) : (civil z).Before (civil (z+n+1)) := by
  have hnext (d : Date) : d.Before d.next := by
    simp only [Date.Before,Date.next]
    split_ifs <;> dsimp only <;> omega
  induction n with
  | zero => simpa [civil_succ] using hnext (civil z)
  | succ n ih =>
    have hstep := hnext (civil (z+n+1))
    rw [← civil_succ] at hstep
    rw [Nat.cast_succ,← add_assoc]
    unfold Date.Before at *
    omega

theorem days_lt (hd : d.Valid) (he : e.Valid) (h : d.Before e) : d.days<e.days := by
  by_contra hle
  obtain ⟨n,hn⟩ := Int.eq_ofNat_of_zero_le (sub_nonneg.2 (not_lt.1 hle))
  have hback : d=e ∨ e.Before d := by
    rw [← civil_days hd,← civil_days he]
    cases n with
    | zero => exact .inl (by rw [sub_eq_zero.1 hn])
    | succ n =>
      rw [sub_eq_iff_eq_add'.1 hn,Nat.cast_succ,← add_assoc]
      exact .inr (before_civil _ n)
  unfold Date.Before at *
  obtain rfl | hback := hback <;> omega

end Days

section Text

/-- Two digits. -/
def two (n : Nat) : Text := [(n/10).digitChar,(n%10).digitChar]

/-- `YYYYMMDD` -/
def Date.text (d : Date) : Text :=
  two (d.year.toNat/100)++two (d.year.toNat%100)++two d.month.toNat++two d.day.toNat

/-- A text is taken for a time, in UTC or by an offset. -/
def Means (text : Text) (t : Int) : Prop :=
  ∀ off, parseTime (text++['Z']) off=some t ∧ parseTime text off=some (t-off)

theorem isDigit_two {n : Nat} (hn : n<100) : ∀ c∈two n, c.isDigit=true := by
  simp only [two,forall_mem_cons,Nat.isDigit_digitChar,decide_eq_true_eq]
  exact ⟨by omega,by omega,nofun⟩

theorem ofDigitChars_two {n : Nat} (hn : n<100) (init : Nat) :
    Nat.ofDigitChars 10 (two n) init=100*init+n := by
  rw [two,Nat.ofDigitChars_cons_digitChar_of_lt_ten (by omega),
    Nat.ofDigitChars_cons_digitChar_of_lt_ten (by omega),Nat.ofDigitChars_nil]
  omega

theorem means_digits {text : Text} {y mo d h mi s t : Int} (hall : ∀ c∈text, c.isDigit=true)
    (hlen : text.length≠8 → text.length≠12 → text.length=14) (hy : digitsAt text 0 4=y)
    (hmo : digitsAt text 4 6=mo) (hd : digitsAt text 6 8=d) (hh : digitsAt text 8 10=h)
    (hmi : digitsAt text 10 12=mi) (hs : digitsAt text 12 14=s)
    (hok : ¬(mo<1 ∨ 12< mo ∨ d<1 ∨ 31<d ∨ 23<h ∨ 59< mi ∨ 60<s))
    (ht : daysFromCivil y mo d*86400+h*3600+mi*60+s=t) : Means text t := by
  have hlast (c : Char) (hc : c.isDigit=false) : text.getLast?≠some c := fun h => by
    simp [hall c (mem_of_getLast? h)] at hc
  refine fun off => ⟨?_,?_⟩
  · simpa [parseTime,hy,hmo,hd,hh,hmi,hs,hok,ht] using ⟨hall,hlen⟩
  · simpa [parseTime,hlast 'Z' rfl,hlast 'z' rfl,hy,hmo,hd,hh,hmi,hs,hok,ht] using ⟨hall,hlen⟩

theorem Date.Valid.means {d : Date} (hd : d.Valid) (hlow : 0≤d.year) (hhigh : d.year≤9999)
    {h mi s : Nat} (hh : h<24) (hmi : mi<60) (hs : s<60) :
    Means d.text (d.days*86400) ∧ Means (d.text++two h++two mi) (d.days*86400+h*3600+mi*60) ∧
    Means (d.text++two h++two mi++two s) (d.days*86400+h*3600+mi*60+s) := by
  obtain ⟨y,m,d⟩ := d
  obtain ⟨hm,hm',hday,hday'⟩ := hd
  have hmonth : daysInMonth y m≤31 := by
    unfold daysInMonth
    omega
  dsimp only at *
  lift y to Nat using hlow
  lift m to Nat using by omega
  lift d to Nat using by omega
  have hdate : ∀ c∈Date.text ⟨y,m,d⟩, c.isDigit=true := by
    simp only [Date.text,forall_mem_append]
    exact ⟨⟨⟨isDigit_two (by omega),isDigit_two (by omega)⟩,isDigit_two (by omega)⟩,
      isDigit_two (by omega)⟩
  have hyear : Nat.ofDigitChars 10 (two (y/100)++two (y%100)) 0=y := by
    rw [Nat.ofDigitChars_append,ofDigitChars_two (by omega),ofDigitChars_two (by omega)]
    omega
  have hfield (n : Nat) (hn : n<100) : ((Nat.ofDigitChars 10 (two n) 0 : Nat) : Int)=n := by
    rw [ofDigitChars_two hn,Nat.mul_zero,Nat.zero_add]
  have hmo := hfield m (by omega)
  have hd := hfield d (by omega)
  have hhour := hfield h (by omega)
  have hmin := hfield mi (by omega)
  have hclock := forall_mem_append.2 ⟨forall_mem_append.2 ⟨hdate,isDigit_two (n := h) (by omega)⟩,
    isDigit_two (n := mi) (by omega)⟩
  refine ⟨?_,?_,?_⟩
  · exact @means_digits _ y m d 0 0 0 _ hdate (absurd rfl) (congrArg Nat.cast hyear) hmo hd rfl rfl
      rfl (by omega) (by simp [Date.days])
  · exact @means_digits _ y m d h mi 0 _ hclock (fun _ => absurd rfl) (congrArg Nat.cast hyear) hmo
      hd hhour hmin rfl (by omega) (add_zero _)
  · exact @means_digits _ y m d h mi s _ (forall_mem_append.2 ⟨hclock,isDigit_two (by omega)⟩)
      (fun _ _ => rfl) (congrArg Nat.cast hyear) hmo hd hhour hmin (hfield s (by omega)) (by omega)
      rfl

end Text

/-- The number of days is that of the calendar, a date is read as its number of seconds, and `civil`
gives the date back. -/
theorem calendar_exact :
    (Date.mk 1970 1 1).days=0 ∧ (∀ d : Date, d.Valid → d.next.Valid ∧ d.next.days=d.days+1) ∧
    (∀ d e : Date, d.Valid → e.Valid → d.Before e → d.days<e.days) ∧
    (∀ d : Date, d.Valid → 0≤d.year → d.year≤9999 → ∀ h<24, ∀ mi<60, ∀ s<60,
      Means d.text (d.days*86400) ∧ Means (d.text++two h++two mi) (d.days*86400+h*3600+mi*60) ∧
      Means (d.text++two h++two mi++two s) (d.days*86400+h*3600+mi*60+s)) ∧
    (∀ z, (civil z).Valid ∧ civil (z+1)=(civil z).next) ∧
    ∀ d : Date, d.Valid → ∀ t : Nat, t<86400 → civil ((d.days*86400+t)/86400)=d := by
  refine ⟨by decide,fun d hd => hd.next,fun d e => days_lt,fun d hd hlow hhigh h hh mi hmi s hs =>
    hd.means hlow hhigh hh hmi hs,fun z => ⟨(civil_spec z).1,civil_succ z⟩,fun d hd t ht => ?_⟩
  rw [show (d.days*86400+t)/86400=d.days by omega,civil_days hd]

/-- No operation leaves an `i64`, for days and zone offsets within 2⁶² and years of four digits: what
comes between these results is smaller. -/
theorem calendar_fits :
    (∀ z : Int, -2^62<z ∧ z<2^62 → ∀ x∈[z+719468,(z+719468)/146097*400,(civil z).year],
      -2^63<x ∧ x<2^63) ∧
    ∀ y m d t off : Int, (0≤y ∧ y≤9999) → (1≤ m ∧ m≤12) → (1≤d ∧ d≤31) → (0≤t ∧ t≤86400) →
      -2^62<off ∧ off<2^62 → -2^63<daysFromCivil y m d*86400+t-off ∧
        daysFromCivil y m d*86400+t-off<2^63 := by
  constructor
  · intro z hz
    simp only [civil,forall_mem_cons,not_mem_nil,false_imp_iff,implies_true,and_true]
    omega
  · intro y m d t off hy hm hd ht hoff
    simp only [daysFromCivil]
    omega

/-- A day that its month does not have is counted on from the first of the month. -/
theorem days_roll_over (y : Int) (m : Fin 12) (n : Nat) :
    civil (daysFromCivil y (m+1) (n+1))=Date.next^[n] ⟨y,m+1,1⟩ := by
  induction n with
  | zero =>
    refine civil_days (d := ⟨y,m+1,1⟩) ?_
    simp only [Date.Valid,daysInMonth]
    omega
  | succ n ih =>
    have hsucc : daysFromCivil y (m+1) (n+1+1)=daysFromCivil y (m+1) (n+1)+1 := by
      simp only [daysFromCivil]
      omega
    rw [Nat.cast_succ,hsucc,civil_succ,ih,Function.iterate_succ_apply']

/-- The digits of a time: the month, the day, the hour, the minute and the second, each in its
range. -/
def Spelt (digits : Text) (m : Fin 12) (n : Fin 31) (h : Fin 24) (mi : Fin 60) (s : Fin 61) : Prop :=
  digits.all Char.isDigit=true ∧ digits.length∈[8,12,14] ∧
    [4,6,8,10,12].map (fun i => digitsAt digits i (i+2))=([m+1,n+1,h,mi,s] : List Int)

/-- A text is refused exactly if it does not spell a time; if it does, it is read as that time of day
on a day counted from the first of the month. -/
theorem parseTime_counts (text : Text) (off : Int) :
    let utc := text.getLast?=some 'Z' ∨ text.getLast?=some 'z'
    let digits := if utc then text.dropLast else text
    (parseTime text off=none ↔ ∀ m n h mi s, ¬Spelt digits m n h mi s) ∧
    ∀ m n h mi s, Spelt digits m n h mi s → ∃ z, civil z=Date.next^[n] ⟨digitsAt digits 0 4,m+1,1⟩ ∧
        parseTime text off=some (z*86400+h*3600+mi*60+s-if utc then 0 else off) := by
  intro utc digits
  have hspelt : ∀ m n h mi s, Spelt digits m n h mi s →
      ∃ z, civil z=Date.next^[n] ⟨digitsAt digits 0 4,m+1,1⟩ ∧
        parseTime text off=some (z*86400+h*3600+mi*60+s-if utc then 0 else off) := by
    rintro m n h mi s ⟨hall,hlen,hfields⟩
    refine ⟨_,days_roll_over _ m n,?_⟩
    simp only [map_cons,map_nil,cons.injEq] at hfields
    obtain ⟨hm,hn,hh,hmi,hs,-⟩ := hfields
    unfold parseTime
    extract_lets mo d hour minute sec t
    have hmo : mo=m+1 := hm
    have hd : d=n+1 := hn
    have hhour : hour=h := hh
    have hminute : minute=mi := hmi
    have hsec : sec=s := hs
    rw [if_neg,if_neg (by omega)]
    · simp only [t,hmo,hd,hhour,hminute,hsec]
      split <;> simp
    · simpa [hall,imp_iff_not_or,or_assoc] using hlen
  refine ⟨⟨fun hnone m n h mi s hs => ?_,fun hno => ?_⟩,hspelt⟩
  · obtain ⟨z,-,hz⟩ := hspelt m n h mi s hs
    cases hnone.symm.trans hz
  · unfold parseTime
    extract_lets mo d h mi s t
    have hclock : 0≤h ∧ 0≤ mi ∧ 0≤ s := by simp [h,mi,s,digitsAt]
    split
    · rfl
    next hdigits =>
    split
    · rfl
    next hrange =>
    have hnumber : digits.all Char.isDigit=true ∧ digits.length∈[8,12,14] := by
      simpa [imp_iff_not_or,or_assoc] using hdigits
    refine absurd ⟨hnumber.1,hnumber.2,?_⟩ (hno ⟨(mo-1).toNat,by omega⟩ ⟨(d-1).toNat,by omega⟩
      ⟨h.toNat,by omega⟩ ⟨mi.toNat,by omega⟩ ⟨s.toNat,by omega⟩)
    simp
    omega

end PureSsh.Sshsig
