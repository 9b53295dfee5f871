import CertPath.Proofs.SizeLimit
import Mathlib.Data.List.Forall2

namespace CertPath.Net

namespace Ldap

def SameLetter (c d : Char) : Prop :=
  c = d ∨ (c.isUpper ∧ d.toNat = c.toNat + 32) ∨ (d.isUpper ∧ c.toNat = d.toNat + 32)

theorem isUpper_iff (c : Char) : c.isUpper ↔ 65 ≤ c.toNat ∧ c.toNat ≤ 90 := by
  refine (decide_eq_true_iff (p := c.val ≥ 'A'.val ∧ c.val ≤ 'Z'.val)).trans ?_
  rw [ge_iff_le, UInt32.le_iff_toNat_le, UInt32.le_iff_toNat_le]
  rfl

theorem toNat_toLower (c : Char) :
    c.toLower.toNat = if c.isUpper then c.toNat + 32 else c.toNat := by
  unfold Char.toLower
  split
  · rename_i h
    have hupper : c.isUpper = true := decide_eq_true h
    have hn := (isUpper_iff c).1 hupper
    have hadd : (c.val + 32).toNat = (c.toNat + 32) % 2 ^ 32 := UInt32.toNat_add _ _
    rw [if_pos hupper]
    exact hadd.trans (Nat.mod_eq_of_lt (by omega))
  · rename_i h
    rw [if_neg]
    intro hupper
    exact h (of_decide_eq_true hupper)

theorem toLower_eq_toLower_iff {c d : Char} : c.toLower = d.toLower ↔ SameLetter c d := by
  rw [← Char.toNat_inj, toNat_toLower, toNat_toLower, SameLetter, ← Char.toNat_inj]
  have hc := isUpper_iff c
  have hd := isUpper_iff d
  split <;> split <;> simp_all <;> omega

theorem lower_eq_lower_iff {s t : String} :
    lower s = lower t ↔ List.Forall₂ SameLetter s.toList t.toList := by
  rw [lower, lower, String.ofList_inj, ← List.forall₂_eq_eq_eq, List.forall₂_map_left_iff,
    List.forall₂_map_right_iff]
  simp only [toLower_eq_toLower_iff]

/-- A name of the attribute, with or without its option, in letters of any case. -/
def NamesList (name : String) : Prop :=
  ∃ t ∈ ["certificateRevocationList;binary", "certificateRevocationList"],
    List.Forall₂ SameLetter name.toList t.toList

theorem wanted_iff {name : String} : wanted name ↔ NamesList name := by
  simp only [wanted, NamesList, Bool.or_eq_true, decide_eq_true_eq, lower_eq_lower_iff,
    List.mem_cons, List.not_mem_nil, or_false, exists_eq_or_imp, exists_eq_left]
  rfl

instance (name : String) : Decidable (NamesList name) := decidable_of_iff _ wanted_iff

variable {a : Answer} {v : Bytes}

/-- No attribute of an entry that has such a name has a value. -/
def Bare (e : Entry) : Prop := ∀ x ∈ e, NamesList x.1 → x.2 = []

instance (e : Entry) : Decidable (Bare e) := List.decidableBAll _ e

/-- An entry has one attribute with such a name, and that has one value. The entries before it may
have such attributes without values. -/
def Answer.Carries (a : Answer) (v : Bytes) : Prop :=
  ∃ es l name r fs, a.entries = es ++ (l ++ (name, [v]) :: r) :: fs ∧ NamesList name ∧
    (∀ x ∈ l ++ r, ¬ NamesList x.1) ∧ ∀ e ∈ es, Bare e

theorem Bare.valueOf_eq {e : Entry} (h : Bare e) : valueOf e = none :=
  valueOf_eq_none fun x hx hw ↦ h x hx (wanted_iff.1 hw)

theorem value?_of_bare (h : ∀ e ∈ a.entries, Bare e) : value? a.entries = none := by
  have hnone : a.entries.findSome? valueOf = none :=
    List.findSome?_eq_none_iff.2 fun e he ↦ (h e he).valueOf_eq
  rw [value?, hnone]
  rfl

theorem Answer.Carries.findSome?_eq (h : a.Carries v) : a.entries.findSome? valueOf = some v := by
  obtain ⟨es, l, name, r, fs, hentries, hname, hothers, hes⟩ := h
  have hbefore : es.findSome? valueOf = none :=
    List.findSome?_eq_none_iff.2 fun e he ↦ (hes e he).valueOf_eq
  have hnot : ∀ x ∈ l ++ r, ¬ wanted x.1 := fun x hx hw ↦ hothers x hx (wanted_iff.1 hw)
  obtain ⟨hl, hr⟩ := List.forall_mem_append.1 hnot
  have hone : (l ++ (name, [v]) :: r).filter (wanted ·.1) = [(name, [v])] := by
    rw [List.filter_append, List.filter_cons_of_pos (by exact wanted_iff.2 hname),
      List.filter_eq_nil_iff.2 hl, List.filter_eq_nil_iff.2 hr]
    rfl
  rw [hentries, List.findSome?_append, hbefore, List.findSome?_cons, valueOf_eq_some hone]
  rfl

end Ldap

namespace Fetcher

variable {f : Fetcher} {url : String} {u : Url} {directory : Ldap.Directory} {a : Ldap.Answer}

/-- The value of the one attribute that is meant comes through whether it is a text or not, and
whatever else was found. Where there is none, or an empty one, nothing comes. -/
theorem ldapGet_value (hu : Url.parse url = some u) (hh : u.host ≠ [])
    (hn : f.network (String.ofList u.host) (u.portNumber usualLdapPort) = .ldap directory)
    (ha : directory (ldapBase u) = some a) :
    (∀ v, a.code = 0 → a.Carries v → v ≠ [] → v.length ≤ f.maxSize.toNat →
      (f.ldapGet url).outcome = .ok v) ∧
    ((∀ e ∈ a.entries, Ldap.Bare e) ∨ a.Carries [] →
      ∃ q, (f.ldapGet url).outcome = .error (.fetch url q)) := by
  constructor
  · intro v hcode hv hne hle
    have hvalue : Ldap.value? a.entries = some v := by
      rw [Ldap.value?, hv.findSome?_eq]
      exact if_pos (decide_eq_true hne)
    simp only [ldapGet, hu, if_neg hh, hn, ha, hcode, ne_eq, not_true, if_false, hvalue,
      if_neg (Nat.not_lt.2 hle)]
  · intro h
    have hvalue : Ldap.value? a.entries = none := by
      rcases h with h | h
      · exact Ldap.value?_of_bare h
      · rw [Ldap.value?, h.findSome?_eq]
        rfl
    by_cases hcode : a.code = 0
    · refine ⟨.noValue, ?_⟩
      simp only [ldapGet, hu, if_neg hh, hn, ha, hcode, ne_eq, not_true, if_false, hvalue]
    · refine ⟨.transport, ?_⟩
      simp only [ldapGet, hu, if_neg hh, hn, ha, ne_eq, hcode, not_false_eq_true, if_true]

def sampleAnswer (v : Bytes) : Ldap.Answer where
  entries := [[("cn", [[67]]), ("CertificateRevocationList", [])],
    [("photo", [[255]]), ("certificaterevocationLIST;Binary", [v]), ("sn", [[83]])]]
  code := 0

theorem carries_sampleAnswer (v : Bytes) : (sampleAnswer v).Carries v :=
  ⟨[_], [_], _, [_], [], rfl, by decide, by decide, by decide⟩

def sampleDirectory (v : Bytes) : Fetcher where
  network.peer _ _ := .ldap fun _ ↦ some (sampleAnswer v)
  network.clock := 0
  timeout := 10
  maxSize := 3

theorem ldapGet_value_spelled :
    Ldap.isText [0x30, 0xFF, 0x30] = false ∧
    ((sampleDirectory [0x30, 0xFF, 0x30]).ldapGet "ldap://d/l").outcome = .ok [0x30, 0xFF, 0x30] ∧
    Ldap.isText [0x30, 0x30, 0x30] = true ∧
    ((sampleDirectory [0x30, 0x30, 0x30]).ldapGet "ldap://d/l").outcome = .ok [0x30, 0x30, 0x30] ∧
    ∃ q, ((sampleDirectory []).ldapGet "ldap://d/l").outcome = .error (.fetch "ldap://d/l" q) := by
  have hu : Url.parse "ldap://d/l" = some ⟨"ldap", [], [], ['d'], none, [['l']], none⟩ := rfl
  have hvalue (v : Bytes) := ldapGet_value (f := sampleDirectory v) hu (by decide) rfl rfl
  refine ⟨by decide, ?_, by decide, ?_, ?_⟩
  · exact (hvalue _).1 _ rfl (carries_sampleAnswer _) (by decide) (by decide)
  · exact (hvalue _).1 _ rfl (carries_sampleAnswer _) (by decide) (by decide)
  · exact (hvalue []).2 (.inr (carries_sampleAnswer []))

end Fetcher

end CertPath.Net
