import PureSsh.KnownHosts.Lookup

/-! Several files of known hosts, judged one by one and judged as one. -/

namespace PureSsh.KnownHosts
open Lib

def combineLookups : LookupResult → LookupResult → LookupResult
  | .revoked, _ => .revoked
  | _, .revoked => .revoked
  | .matched, _ => .matched
  | _, .matched => .matched
  | .mismatch expected, .mismatch more => .mismatch (expected++more)
  | .mismatch expected, .unknown => .mismatch expected
  | .unknown, .mismatch expected => .mismatch expected
  | .unknown, .unknown => .unknown

/-- What a lookup answers, given whether the key is revoked, whether it is accepted, and the keys on
file for the host. -/
def answer (revoked accepted : Bool) (expected : List Key) : LookupResult :=
  if revoked then .revoked
  else if accepted then .matched
  else if expected=[] then .unknown
  else .mismatch expected

/-- Combining answers is combining what they rest on. -/
theorem combineLookups_answer (r r' a a' : Bool) (e e' : List Key) :
    combineLookups (answer r a e) (answer r' a' e')=answer (r || r') (a || a') (e++e') := by
  cases r with
  | true => rfl
  | false =>
    cases r' with
    | true =>
      cases a with
      | true => rfl
      | false => cases e <;> rfl
    | false =>
      cases a with
      | true => cases a' <;> cases e' <;> rfl
      | false =>
        cases a' with
        | true => cases e <;> rfl
        | false =>
          cases e with
          | nil => cases e' <;> rfl
          | cons k e => cases e' <;> simp [answer,combineLookups]

namespace Store
variable {M : Mac} {host : Text} {port : UInt16} {key : Key} {s : Store}

/- The files of `verify_host_key`: the user's own, then the others. -/
def judge (M : Mac) (host : Text) (port : UInt16) (key : Key) (s : Store) (more : List Store) :
    LookupResult :=
  more.foldl (fun found g => combineLookups found (g.lookup M host port key))
    (s.lookup M host port key)

/-- The store made of all lines. -/
def joined (stores : List Store) : Store := { lines := stores.flatMap (·.lines) }

instance : LawfulBEq Key := inferInstance

/-- The key is recorded for the host, or for the bare host if the host has no line of its own. -/
def accepts (M : Mac) (host : Text) (port : UInt16) (key : Key) (s : Store) : Bool :=
  decide (key∈s.plainKeys M host port ∨
    s.plainKeys M host port=[] ∧ key∈s.bareKeys M host port)

def revokes (M : Mac) (host : Text) (port : UInt16) (key : Key) (s : Store) : Bool :=
  decide (key∈s.revokedKeys M host port)

theorem lookup_eq_answer : s.lookup M host port key =
    answer (s.revokes M host port key) (s.accepts M host port key) (s.plainKeys M host port) := by
  rw [lookup_eq_verdict,verdict,answer,accepts,revokes]
  by_cases hrev : key∈s.revokedKeys M host port
  · simp [hrev]
  by_cases hhere : key∈s.plainKeys M host port
  · simp [hrev,hhere]
  by_cases hkeys : s.plainKeys M host port=[]
  · simp [hrev,hkeys]
  · simp [hrev,hhere,hkeys]

/- The fold of `verify_host_key` collects what the answers rest on. -/
theorem foldl_answer (more : List Store) (r a : Bool) (e : List Key) :
    more.foldl (fun found g => combineLookups found (g.lookup M host port key)) (answer r a e) =
      answer (r || more.any (revokes M host port key)) (a || more.any (accepts M host port key))
        (e++more.flatMap (plainKeys M host port)) := by
  induction more generalizing r a e with
  | nil => simp
  | cons g more ih =>
    rw [List.foldl_cons,lookup_eq_answer,combineLookups_answer,ih]
    simp [Bool.or_assoc]

theorem judge_eq_answer (more : List Store) : judge M host port key s more =
    answer ((s::more).any (revokes M host port key)) ((s::more).any (accepts M host port key))
      ((s::more).flatMap (plainKeys M host port)) := by
  rw [judge,lookup_eq_answer,foldl_answer]
  simp

theorem plainKeys_joined (stores : List Store) :
    (joined stores).plainKeys M host port=stores.flatMap (plainKeys M host port) := by
  rw [plainKeys,joined,List.filterMap_flatMap]
  rfl

theorem bareKeys_joined (stores : List Store) :
    (joined stores).bareKeys M host port=stores.flatMap (bareKeys M host port) := by
  by_cases hport : port=22
  · simp [bareKeys,hport]
  · have hbare : bareKeys M host port=plainKeys M host 22 := by
      funext s
      rw [bareKeys,if_neg hport]
    rw [hbare,plainKeys_joined]

theorem revokedKeys_joined (stores : List Store) :
    (joined stores).revokedKeys M host port=stores.flatMap (revokedKeys M host port) := by
  have hentries : (joined stores).revokedEntries=stores.flatMap revokedEntries := by
    rw [revokedEntries,joined,List.filterMap_flatMap]
    rfl
  rw [revokedKeys,hentries,List.filter_flatMap,List.map_flatMap]
  rfl

theorem revokes_joined (stores : List Store) :
    (joined stores).revokes M host port key=stores.any (revokes M host port key) := by
  rw [Bool.eq_iff_iff,revokes,revokedKeys_joined]
  simp [revokes]

/-- The files taken together accept less: a bare host name counts only if no file has a line for the
host and port. -/
theorem accepts_joined_iff (stores : List Store) : (joined stores).accepts M host port key=true ↔
      stores.any (accepts M host port key)=true ∧ ¬(key∉(joined stores).plainKeys M host port ∧
          (joined stores).plainKeys M host port≠[] ∧
          ∃ g∈stores, g.plainKeys M host port=[] ∧ key∈g.bareKeys M host port) := by
  rw [accepts,plainKeys_joined,bareKeys_joined,decide_eq_true_iff,List.any_eq_true]
  simp only [accepts,decide_eq_true_iff,List.mem_flatMap,List.flatMap_eq_nil_iff,ne_eq]
  constructor
  · rintro (⟨g,hg,hkey⟩ | ⟨hnone,g,hg,hkey⟩)
    · exact ⟨⟨g,hg,.inl hkey⟩,fun h => h.1 ⟨g,hg,hkey⟩⟩
    · exact ⟨⟨g,hg,.inr ⟨hnone g hg,hkey⟩⟩,fun h => h.2.1 hnone⟩
  · rintro ⟨⟨g,hg,hkey | ⟨hnil,hkey⟩⟩,hbad⟩
    · exact .inl ⟨g,hg,hkey⟩
    · by_cases hhere : ∃ g∈stores, key∈g.plainKeys M host port
      · exact .inl hhere
      · refine .inr ⟨?_,g,hg,hkey⟩
        by_contra hsome
        exact hbad ⟨hhere,hsome,g,hg,hnil,hkey⟩

theorem answer_inj_iff {r a a' : Bool} {e : List Key} :
    answer r a e=answer r a' e ↔ r=true ∨ a=a' := by
  cases r with
  | true => simp [answer]
  | false =>
    by_cases he : e=[] <;> cases a <;> cases a' <;> simp [answer,he]

/-- The files are judged as one exactly unless one of them lets a key in by the bare host name while
another has lines, with other keys, for the host and port. -/
theorem judge_eq_lookup_joined_iff (M : Mac) (host : Text) (port : UInt16) (key : Key) (s : Store)
    (more : List Store) : judge M host port key s more=(joined (s::more)).lookup M host port key ↔
      ¬(key∉(joined (s::more)).revokedKeys M host port ∧
        key∉(joined (s::more)).plainKeys M host port ∧ (joined (s::more)).plainKeys M host port≠[] ∧
        ∃ g∈s::more, g.plainKeys M host port=[] ∧ key∈g.bareKeys M host port) := by
  rw [judge_eq_answer,lookup_eq_answer,← revokes_joined,← plainKeys_joined,answer_inj_iff,
    revokes,decide_eq_true_iff,Bool.eq_iff_iff,accepts_joined_iff]
  constructor
  · rintro (hrev | haccepts) ⟨hnot,hbad⟩
    · exact hnot hrev
    · obtain ⟨g,hg,hnil,hkey⟩ := hbad.2.2
      have hany : (s::more).any (accepts M host port key)=true := by
        refine List.any_eq_true.2 ⟨g,hg,?_⟩
        rw [accepts,decide_eq_true_iff]
        exact .inr ⟨hnil,hkey⟩
      exact (haccepts.1 hany).2 hbad
  · intro hgood
    by_cases hrev : key∈(joined (s::more)).revokedKeys M host port
    · exact .inl hrev
    · exact .inr ⟨fun hany => ⟨hany,fun hbad => hgood ⟨hrev,hbad⟩⟩,fun h => h.1⟩

/-- The user's file has another key for this host and port; a global file with the presented key under
the bare name makes it a match. -/
theorem pinned_key_passed_over :
    ¬ ∀ (M : Mac) (host : Text) (port : UInt16) (key : Key) (s : Store) (more : List Store),
      judge M host port key s more=(joined (s::more)).lookup M host port key := by
  intro h
  have hone := h constMac "db".toList 2222 ("ssh-ed25519".toList,[0,0,0])
    (fromBytes (ascii "[db]:2222 ssh-ed25519 AAAB\n"))
    [fromBytes (ascii "db ssh-ed25519 AAAA\n")]
  revert hone
  decide +kernel

end Store
end PureSsh.KnownHosts
