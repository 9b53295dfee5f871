import CertPath.PathBuilder
import Mathlib.Data.List.Chain

namespace CertPath

namespace Verifier

variable (v : Verifier)

/-- `c` names the subject of `d` as its issuer and is signed with the key of `d`. -/
structure Issued (c d : Certificate) : Prop where
  name : c.issuer.raw = d.subject.raw
  signature : v.certificate c d.publicKey = .ok ()

/-- `c` names the subject of `d` as its issuer, but it cannot be told whether `d` signed it. -/
structure Unanswered (c d : Certificate) : Prop where
  name : c.issuer.raw = d.subject.raw
  signature : ∃ p, v.certificate c d.publicKey = .error (.other p)

theorem holds_eq_true_iff (c : Certificate) (key : Bytes) :
    v.holds c key = .ok true ↔ v.certificate c key = .ok () := by
  unfold holds
  cases v.certificate c key with
  | ok u => simp
  | error f => cases f <;> simp

theorem holds_eq_false_iff (c : Certificate) (key : Bytes) :
    v.holds c key = .ok false ↔ v.certificate c key = .error .mismatch := by
  unfold holds
  cases v.certificate c key with
  | ok u => simp
  | error f => cases f <;> simp

theorem holds_eq_error_iff (c : Certificate) (key : Bytes) (e : TrustError) :
    v.holds c key = .error e ↔
      ∃ p, v.certificate c key = .error (.other p) ∧ e = .signature c.subject.oneline p := by
  unfold holds
  cases v.certificate c key with
  | ok u => simp
  | error f => cases f <;> simp [eq_comm]

theorem exists_holds_eq_ok_iff (c : Certificate) (key : Bytes) :
    (∃ r, v.holds c key = .ok r) ↔ ∀ q, v.certificate c key ≠ .error (.other q) := by
  unfold holds
  cases v.certificate c key with
  | ok u => simp
  | error f => cases f <;> simp

/-- Takes the last octet of a key for the name of its owner, and lets every owner issue anything. -/
def sample : Verifier where
  certificate c key :=
    if c.issuer.raw.getLast? = key.getLast? then .ok () else .error .mismatch
  revocationList l key :=
    if l.issuer.raw.getLast? = key.getLast? then .ok () else .error .mismatch

theorem sample_ne_other (c : Certificate) (key : Bytes) (q : SignatureProblem) :
    sample.certificate c key ≠ .error (.other q) := by
  simp only [sample]
  split <;> simp

def blindTo (octets : List UInt8) : Verifier :=
  { sample with
    certificate := fun c key ↦
      if key.getLast?.any (octets.contains ·) then .error (.other .unsupportedAlgorithm)
      else sample.certificate c key }

end Verifier

namespace PathBuilder

variable (b : PathBuilder)

theorem issuedBy_eq_true_iff (c d : Certificate) :
    b.issuedBy c d = .ok true ↔ b.verifier.Issued c d := by
  unfold issuedBy
  split
  · rename_i hn
    rw [Verifier.holds_eq_true_iff]
    exact ⟨fun h ↦ ⟨hn.symm, h⟩, fun h ↦ h.signature⟩
  · rename_i hn
    exact ⟨fun h ↦ by simp at h, fun h ↦ absurd h.name.symm hn⟩

theorem issuedBy_eq_error_iff (c d : Certificate) (e : TrustError) :
    b.issuedBy c d = .error e ↔ c.issuer.raw = d.subject.raw ∧
      ∃ q, b.verifier.certificate c d.publicKey = .error (.other q) ∧
        e = .signature c.subject.oneline q := by
  unfold issuedBy
  split
  · rename_i hn
    rw [Verifier.holds_eq_error_iff]
    exact ⟨fun h ↦ ⟨hn.symm, h⟩, fun h ↦ h.2⟩
  · rename_i hn
    exact ⟨fun h ↦ by simp at h, fun h ↦ absurd h.1.symm hn⟩

theorem exists_issuedBy_eq_error_iff (c d : Certificate) :
    (∃ e, b.issuedBy c d = .error e) ↔ b.verifier.Unanswered c d := by
  simp only [issuedBy_eq_error_iff]
  exact ⟨fun ⟨_, hn, q, hq, _⟩ ↦ ⟨hn, q, hq⟩, fun ⟨hn, q, hq⟩ ↦ ⟨_, hn, q, hq, rfl⟩⟩

theorem issuedBy_eq_false_iff (c d : Certificate) :
    b.issuedBy c d = .ok false ↔ ¬ b.verifier.Issued c d ∧ ¬ b.verifier.Unanswered c d := by
  rw [← issuedBy_eq_true_iff, ← exists_issuedBy_eq_error_iff]
  cases b.issuedBy c d with
  | error e => simp
  | ok r => cases r <;> simp

abbrev Placed := Certificate × Nat

def top (root : Certificate) (cs : List Placed) : Certificate := (cs.map Prod.fst).getLastD root

@[simp] theorem top_nil (root : Certificate) : top root [] = root := rfl

@[simp] theorem top_concat (root : Certificate) (cs : List Placed) (x : Placed) :
    top root (cs ++ [x]) = x.1 := by simp [top]

/-- Intermediates above a leaf, at distinct places and other than the leaf, each certificate issued
by the next, and no more of them than leave room for an anchor. -/
structure Chain (leaf : Certificate) (intermediates : List Certificate) (cs : List Placed) :
    Prop where
  placed : ∀ x ∈ cs, intermediates[x.2]? = some x.1
  distinct : (cs.map Prod.snd).Nodup
  foreign : ∀ x ∈ cs, x.1.der ≠ leaf.der
  linked : (leaf :: cs.map Prod.fst).IsChain b.verifier.Issued
  short : cs = [] ∨ cs.length + 2 ≤ b.maxDepth

/-- What may be tried as issuer of the last certificate of a chain: any anchor, and any intermediate
not yet used where there is room for it and an anchor. -/
inductive Candidate (leaf : Certificate) (p : Partition) (cs : List Placed) : Certificate → Prop
  | anchor {a : Certificate} (ha : a ∈ p.anchors) : Candidate leaf p cs a
  | intermediate {x : Placed} (placed : p.intermediates[x.2]? = some x.1)
      (unused : x.2 ∉ cs.map Prod.snd) (foreign : x.1.der ≠ leaf.der)
      (room : cs.length + 3 ≤ b.maxDepth) : Candidate leaf p cs x.1

/-- A chain with an anchor that issued its last certificate. -/
structure ValidPath (leaf : Certificate) (p : Partition) (cs : List Placed) (a : Certificate) :
    Prop where
  chain : b.Chain leaf p.intermediates cs
  anchor : a ∈ p.anchors
  issued : b.verifier.Issued (top leaf cs) a

theorem isChain_concat {v : Verifier} {root a : Certificate} {cs : List Placed}
    (hl : (root :: cs.map Prod.fst).IsChain v.Issued) (ha : v.Issued (top root cs) a) :
    (root :: cs.map Prod.fst ++ [a]).IsChain v.Issued := by
  rw [List.isChain_append]
  refine ⟨hl, .singleton a, fun x hx y hy ↦ ?_⟩
  rw [List.getLast?_cons, Option.mem_some_iff] at hx
  obtain rfl : a = y := by simpa using hy
  rwa [top, List.getLastD_eq_getLast?, hx] at ha

end PathBuilder

end CertPath
