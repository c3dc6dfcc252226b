import Mathlib.Data.List.Infix
import PureSsh.KnownHosts.Hashing

/-! Whom a new entry of a store makes trusted besides its host. -/

namespace PureSsh.KnownHosts
open Lib List Text

def isWild (c : Char) : Bool := c == '*' || c == '?'

/-- Too long for the matcher, or with too many stars. -/
def Dead (glob : Text) : Prop := glob.byteLen>maxGlobPatternLen ∨ glob.count '*'>maxGlobStars

/-- A glob that matches one name at most, up to case. -/
def FixedGlob (glob : Text) : Prop := glob.any isWild=false ∨ Dead glob

variable {g s h' host : Text} {p' port : UInt16}

theorem globMatchAsciiCi_of_dead (h : Dead g) : globMatchAsciiCi g s=false := by
  rw [globMatchAsciiCi]
  rcases h with h | h
  · rw [if_pos h]
  · rw [if_pos h,ite_self]

theorem globMatchAsciiCi_of_not_dead (h : ¬Dead g) : globMatchAsciiCi g s=globInner g s := by
  rw [Dead,not_or] at h
  rw [globMatchAsciiCi,if_neg h.1,if_neg h.2]

/-- Without wildcards a glob is a name. -/
theorem globInner_of_not_wild (h : g.any isWild=false) : globInner g s=sameAsciiCase g s := by
  induction g generalizing s with
  | nil => cases s <;> rfl
  | cons c g ih =>
    rw [any_cons,Bool.or_eq_false_iff] at h
    have hstar : c ≠ '*' := by
      rintro rfl
      cases h.1
    have hquery : (c == '?')=false := by
      have := h.1
      rw [isWild,Bool.or_eq_false_iff] at this
      exact this.2
    cases s with
    | nil =>
      rw [globInner_cons_nil hstar]
      rfl
    | cons x s =>
      rw [globInner_cons hstar,hquery,ih h.2]
      rfl

/-- A glob matches every text that keeps its letters and puts one character for each wildcard. -/
theorem globInner_map {f : Char → Char} (hf : ∀ c, isWild c=false → f c=c) (g : Text) :
    globInner g (g.map f)=true := by
  induction g with
  | nil => rfl
  | cons c g ih =>
    by_cases hstar : c = '*'
    · rw [hstar,globInner_star,any_eq_true]
      exact ⟨g.map f,(mem_tails _ _).2 (suffix_cons _ _),ih⟩
    · rw [map_cons,globInner_cons hstar]
      cases hwild : isWild c with
      | true =>
        have hquery : c = '?' := by
          simpa [isWild,hstar] using hwild
        simp [hquery,ih]
      | false => simp [hf c hwild,ih]

/-- A letter in the place of every wildcard. -/
def fill (g : Text) : Text := g.map fun c => if isWild c then 'x' else c

theorem globInner_fill (g : Text) : globInner g (fill g)=true :=
  globInner_map (fun c h => by simp [h]) g

theorem globInner_self (g : Text) : globInner g g=true := by
  simpa using globInner_map (f := id) (fun _ _ => rfl) g

theorem fill_ne (h : g.any isWild=true) : sameAsciiCase (fill g) g=false := by
  obtain ⟨c,hc,hwild⟩ := any_eq_true.1 h
  rw [Bool.eq_false_iff]
  intro hsame
  rw [sameAsciiCase,beq_iff_eq,fill,map_map,map_inj_left] at hsame
  have hx := hsame c hc
  rw [isWild,Bool.or_eq_true,beq_iff_eq,beq_iff_eq] at hwild
  rcases hwild with rfl | rfl <;> revert hx <;> decide

/-- A list of one negated pattern matches nothing. -/
theorem patternsMatch_singleton (p h' : Text) (p' : UInt16) :
    patternsMatch [p] h' p'=(p.head? != some '!' && patternMatchInner p h' p') := by
  rw [patternsMatch]
  by_cases h : p.head?=some '!'
  · simp [h,patternsMatchFrom]
  · simp [h,patternsMatchFrom]

/-- Off the default port the pattern of a host is a glob between brackets. -/
theorem patternsMatch_bracketed (hport : port≠22) :
    patternsMatch [formatHostPattern host port] h' p' = (globMatchAsciiCi host h' && port==p') := by
  have hsplit : splitLast ']' (host ++ ']' :: ':' :: decimal port) =
      some (host,':' :: decimal port) := by
    refine splitLast_append ?_ host
    rw [mem_cons,not_or]
    exact ⟨by decide,not_mem_decimal rfl⟩
  rw [formatHostPattern,if_neg hport,patternsMatch_singleton]
  simp only [patternMatchInner,cons_append,hsplit,parseU16_decimal]
  rfl

/-- The hosts whose pattern matches no other name: those without wildcards. On the default port a
leading `!` makes a pattern that matches nothing, and a leading bracket one that is read as another
host's form. -/
def NamesOneHost (host : Text) (port : UInt16) : Prop :=
  if port≠22 then FixedGlob host
  else if host.head?=some '!' then True
  else if host.head?=some '[' then ∀ g q, bracketTarget host.tail=some (g,q) → Dead g
  else FixedGlob host

theorem sameAsciiCase_of_glob (hfixed : FixedGlob g) (h : globMatchAsciiCi g s=true) :
    sameAsciiCase g s=true := by
  by_cases hdead : Dead g
  · rw [globMatchAsciiCi_of_dead hdead] at h
    cases h
  · rw [globMatchAsciiCi_of_not_dead hdead] at h
    rw [← globInner_of_not_wild (hfixed.resolve_right hdead)]
    exact h

/-- The other names that a pattern matches, if there are any. -/
theorem exists_glob_match (h : ¬FixedGlob g) :
    ∃ s, globMatchAsciiCi g s=true ∧ sameAsciiCase s g=false := by
  rw [FixedGlob,not_or,Bool.not_eq_false] at h
  refine ⟨fill g,?_,fill_ne h.1⟩
  rw [globMatchAsciiCi_of_not_dead h.2,globInner_fill]

/-- A pattern that names one host matches no other name and port. -/
theorem same_of_patternsMatch (hone : NamesOneHost host port)
    (h : patternsMatch [formatHostPattern host port] h' p'=true) :
    sameAsciiCase h' host=true ∧ p'=port := by
  rw [NamesOneHost] at hone
  by_cases hport : port=22
  · subst hport
    rw [formatHostPattern,if_pos rfl,patternsMatch_singleton,Bool.and_eq_true,bne_iff_ne] at h
    obtain ⟨hneg,hmatch⟩ := h
    rw [if_neg (not_not.2 rfl),if_neg hneg] at hone
    split at hone
    · next hbracket =>
      obtain ⟨rest,rfl⟩ := head?_eq_some_iff.1 hbracket
      rw [patternMatchInner_bracket] at hmatch
      cases htarget : bracketTarget rest with
      | none => simp [htarget] at hmatch
      | some t =>
        simp only [htarget,globMatchAsciiCi_of_dead (hone t.1 t.2 htarget)] at hmatch
        cases hmatch
    · next hbracket =>
      rw [patternMatchInner_plain hbracket,Bool.and_eq_true,beq_iff_eq] at hmatch
      exact ⟨sameAsciiCase_comm.1 (sameAsciiCase_of_glob hone hmatch.2),hmatch.1⟩
  · rw [patternsMatch_bracketed hport,Bool.and_eq_true,beq_iff_eq] at h
    rw [if_pos hport] at hone
    exact ⟨sameAsciiCase_comm.1 (sameAsciiCase_of_glob hone h.1),h.2.symm⟩

/-- A host whose pattern could match other names does match one. -/
theorem exists_other_match (hone : ¬NamesOneHost host port) :
    ∃ h' p', patternsMatch [formatHostPattern host port] h' p'=true ∧
      sameAsciiCase h' host=false := by
  rw [NamesOneHost] at hone
  by_cases hport : port=22
  · subst hport
    rw [if_neg (not_not.2 rfl)] at hone
    split at hone
    · exact absurd trivial hone
    next hneg =>
    split at hone
    · next hbracket =>
      obtain ⟨rest,rfl⟩ := head?_eq_some_iff.1 hbracket
      push Not at hone
      obtain ⟨g,q,htarget,hdead⟩ := hone
      rw [tail_cons] at htarget
      refine ⟨g,q,?_,?_⟩
      · rw [formatHostPattern,if_pos rfl,patternsMatch_singleton,patternMatchInner_bracket,htarget]
        simp [globMatchAsciiCi_of_not_dead hdead,globInner_self]
      · rw [Bool.eq_false_iff]
        intro hsame
        have hlt := bracketTarget_length htarget
        have hlen := sameAsciiCase_length hsame
        rw [length_cons] at hlen
        omega
    · next hbracket =>
      obtain ⟨h',hmatch,hother⟩ := exists_glob_match hone
      refine ⟨h',22,?_,hother⟩
      rw [formatHostPattern,if_pos rfl,patternsMatch_singleton,
        patternMatchInner_plain hbracket,hmatch]
      simpa using hneg
  · rw [if_pos hport] at hone
    obtain ⟨h',hmatch,hother⟩ := exists_glob_match hone
    refine ⟨h',port,?_,hother⟩
    rw [patternsMatch_bracketed hport,hmatch]
    simp

namespace Store
variable {M : Mac} {salt : Bytes} {host : Text} {port : UInt16} {hashed : Bool}

/-- The host field that `try_add` writes. -/
def newSpec (M : Mac) (salt : Bytes) (host : Text) (port : UInt16) (hashed : Bool) : HostSpec :=
  if hashed then .hashed (hashNew M salt host port) else .patterns [formatHostPattern host port]

/-- The hosts whose entry trusts no other name and port. A hashed name is compared as it is written,
so that the form of one host with its port can be the name of another. -/
def Singular (host : Text) (port : UInt16) (hashed : Bool) : Prop :=
  if hashed then port=22 ∧ ∀ name q, q≠22 → host≠formatHost name q
  else NamesOneHost host port

variable {h' : Text} {p' : UInt16} {e : Entry} {s : Store} {key : Key}

/-- Only the host itself is written like a host that is no other host's form. -/
theorem same_of_formatHost (hsingular : Singular host port true)
    (hname : formatHost h' p'=formatHost host port) :
    sameAsciiCase h' host=true ∧ p'=port := by
  obtain ⟨rfl,hother⟩ : port=22 ∧ ∀ name q, q≠22 → host≠formatHost name q := hsingular
  rw [formatHost_default] at hname
  by_cases hp' : p'=22
  · subst hp'
    rw [formatHost_default] at hname
    exact ⟨by rw [hname,sameAsciiCase_refl],rfl⟩
  · exact absurd hname.symm (hother h' p' hp')

theorem exists_alias (h : ¬Singular host port true) :
    ∃ h' p', formatHost h' p'=formatHost host port ∧ sameAsciiCase h' host=false := by
  have longer : ∀ {a b : Text}, a.length≠b.length → sameAsciiCase a b=false :=
    fun hne => Bool.eq_false_iff.2 fun hsame => hne (sameAsciiCase_length hsame)
  by_cases hport : port=22
  · subst hport
    have hform : ∃ name q, q≠22 ∧ host=formatHost name q := by
      by_contra hnot
      push Not at hnot
      exact h ⟨rfl,fun name q hq => hnot name q hq⟩
    obtain ⟨name,q,hq,rfl⟩ := hform
    exact ⟨name,q,formatHost_default.symm,longer (formatHost_length hq).ne⟩
  · exact ⟨formatHost host port,22,formatHost_default,longer (formatHost_length hport).ne'⟩

theorem same_of_newSpec (hbind : hashed=true → Binding M salt (formatHost host port))
    (hsingular : Singular host port hashed)
    (h : hostFieldMatches M (newSpec M salt host port hashed) h' p'=true) :
    sameAsciiCase h' host=true ∧ p'=port := by
  cases hashed with
  | false => exact same_of_patternsMatch hsingular h
  | true => exact same_of_formatHost hsingular ((hostFieldMatches_hashed (hbind rfl)).1 h)

theorem exists_other_of_not_singular (hbind : hashed=true → Binding M salt (formatHost host port))
    (h : ¬Singular host port hashed) :
    ∃ h' p', hostFieldMatches M (newSpec M salt host port hashed) h' p'=true ∧
      sameAsciiCase h' host=false := by
  cases hashed with
  | false => exact exists_other_match h
  | true =>
    obtain ⟨h',p',hname,hother⟩ := exists_alias h
    exact ⟨h',p',(hostFieldMatches_hashed (hbind rfl)).2 hname,hother⟩

theorem plainKeys_push : (s.push e).plainKeys M h' p' =
      s.plainKeys M h' p'++(plainKey M h' p' (.entry e)).toList := by
  rw [plainKeys,push,filterMap_append]
  cases hkey : plainKey M h' p' (.entry e) with
  | none => rw [filterMap_cons_none hkey]; rfl
  | some k => rw [filterMap_cons_some hkey]; rfl

theorem revokedKeys_push (h : e.marker=none) :
    (s.push e).revokedKeys M h' p'=s.revokedKeys M h' p' := by
  rw [push]
  simp [h,revokedKeys,revokedEntries]

def newEntry (M : Mac) (salt : Bytes) (host : Text) (port : UInt16) (key : Key) (hashed : Bool) :
    Entry where
  marker := none
  hostSpec := newSpec M salt host port hashed
  keyType := key.1
  keyBlob := key.2
  comment := []

theorem tryAdd_eq_ok {s' : Store} : s.tryAdd M salt host port key hashed = .ok s' ↔
    safeField key.1=true ∧ safeField host=true ∧
      s'=s.push (newEntry M salt host port key hashed) := by
  rw [tryAdd]
  cases safeField key.1 with
  | false => simp
  | true =>
    cases safeField host with
    | false => simp
    | true => simp [newEntry,newSpec,eq_comm]

theorem plainKey_newEntry : plainKey M h' p' (.entry (newEntry M salt host port key hashed)) =
      if hostFieldMatches M (newSpec M salt host port hashed) h' p' then some key else none := by
  simp [plainKey,newEntry,Entry.key]

theorem lookup_push_newEntry {k : Key}
    (hhere : hostFieldMatches M (newSpec M salt host port hashed) h' p'=false)
    (hbare : p'≠22 → hostFieldMatches M (newSpec M salt host port hashed) h' 22=false) :
    (s.push (newEntry M salt host port key hashed)).lookup M h' p' k=s.lookup M h' p' k := by
  have hkeys : ∀ q, hostFieldMatches M (newSpec M salt host port hashed) h' q=false →
      (s.push (newEntry M salt host port key hashed)).plainKeys M h' q=s.plainKeys M h' q := by
    intro q hq
    rw [plainKeys_push,plainKey_newEntry,hq]
    simp
  rw [lookup_eq_verdict,lookup_eq_verdict,revokedKeys_push rfl,hkeys p' hhere,bareKeys,bareKeys]
  by_cases hp' : p'=22
  · rw [if_pos hp',if_pos hp']
  · rw [if_neg hp',if_neg hp',hkeys 22 (hbare hp')]

/-- Adding a key trusts it for its host only, apart from the fallback to the bare host, exactly if
the host string acts as one name. -/
theorem try_add_trusts_one_host_iff (M : Mac) (salt : Bytes) (host : Text) (port : UInt16)
    (hashed : Bool) (hbind : hashed=true → Binding M salt (formatHost host port)) :
    (∀ (s s' : Store) (key : Key), s.tryAdd M salt host port key hashed = .ok s' →
      ∀ (h' : Text) (p' : UInt16), ¬(sameAsciiCase h' host ∧ (p'=port ∨ port=22)) →
        ∀ k, s'.lookup M h' p' k=s.lookup M h' p' k) ↔
      (safeField host → Singular host port hashed) := by
  constructor
  · intro hframe hsafe
    by_contra hnot
    obtain ⟨h',p',hmatch,hother⟩ := exists_other_of_not_singular hbind hnot
    have hok : new.tryAdd M salt host port (['k'],[]) hashed = .ok _ :=
      tryAdd_eq_ok.2 ⟨by decide,hsafe,rfl⟩
    have hsame := hframe new _ _ hok h' p' (by simp [hother]) (['k'],[])
    rw [lookup_eq_verdict,lookup_eq_verdict,plainKeys_push,plainKey_newEntry,hmatch,
      revokedKeys_push rfl] at hsame
    simp [verdict,new,plainKeys,revokedKeys,revokedEntries,bareKeys] at hsame
  · intro hsingular s s' key hok h' p' hother k
    obtain ⟨-,hsafe,rfl⟩ := tryAdd_eq_ok.1 hok
    have hnot : ∀ q, (q=p' ∨ q=22) →
        hostFieldMatches M (newSpec M salt host port hashed) h' q=false := by
      intro q hq
      rw [Bool.eq_false_iff]
      intro hmatch
      obtain ⟨hsame,rfl⟩ := same_of_newSpec hbind (hsingular hsafe) hmatch
      rcases hq with rfl | rfl
      · exact hother ⟨hsame,.inl rfl⟩
      · exact hother ⟨hsame,.inr rfl⟩
    exact lookup_push_newEntry (hnot p' (.inl rfl)) fun _ => hnot 22 (.inr rfl)

theorem try_add_trusts_one_host_db : Singular "db".toList 22 true ∧ ∀ (s s' : Store) (key : Key),
      s.tryAdd (nameMac ["db".toList]) [5] "db".toList 22 key true = .ok s' →
      ∀ (h' : Text) (p' : UInt16),
        ¬(sameAsciiCase h' "db".toList ∧ (p'=22 ∨ (22 : UInt16)=22)) →
        ∀ k, s'.lookup (nameMac ["db".toList]) h' p' k=s.lookup (nameMac ["db".toList]) h' p' k := by
  have hone : Singular "db".toList 22 true := by
    refine ⟨rfl,fun name q hq h => ?_⟩
    rw [formatHost,if_neg hq] at h
    cases h
  refine ⟨hone,(try_add_trusts_one_host_iff _ [5] "db".toList 22 true fun _ => ?_).2 fun _ => hone⟩
  exact nameMac_binding mem_cons_self (by decide) [5]

/-- The host string `*` is accepted, and its key then for every host. -/
theorem try_add_accepts_wildcard :
    ¬ ∀ (M : Mac) (salt : Bytes) (host : Text) (port : UInt16) (hashed : Bool)
      (s s' : Store) (key : Key), s.tryAdd M salt host port key hashed = .ok s' →
      ∀ (h' : Text) (p' : UInt16), ¬(sameAsciiCase h' host ∧ (p'=port ∨ port=22)) →
        ∀ k, s'.lookup M h' p' k=s.lookup M h' p' k := by
  intro h
  have hsame := h constMac [] ['*'] 22 false new _ ("ssh-ed25519".toList,[1])
    (tryAdd_eq_ok.2 ⟨by decide,by decide,rfl⟩) "db".toList 22 (by decide)
    ("ssh-ed25519".toList,[1])
  revert hsame
  decide

end Store

end PureSsh.KnownHosts
