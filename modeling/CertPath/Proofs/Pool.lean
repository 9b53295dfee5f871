import CertPath.Partition
import Mathlib.Data.List.Perm.Basic

namespace CertPath.Partition

/-- The first certificate of each encoding that was not seen before. -/
def firsts (seen : List Bytes) : List Certificate → List Certificate
  | [] => []
  | c :: cs => if c.der ∈ seen then firsts seen cs else c :: firsts (c.der :: seen) cs

theorem mem_of_mem_firsts {seen : List Bytes} {pool : List Certificate} {c : Certificate}
    (h : c ∈ firsts seen pool) : c ∈ pool ∧ c.der ∉ seen := by
  induction pool generalizing seen with
  | nil => simp [firsts] at h
  | cons d pool ih =>
    rw [firsts] at h
    split at h
    · exact ⟨List.mem_cons_of_mem _ (ih h).1, (ih h).2⟩
    · rename_i hd
      rcases List.mem_cons.1 h with rfl | h
      · exact ⟨List.mem_cons_self, hd⟩
      · exact ⟨List.mem_cons_of_mem _ (ih h).1, fun hs ↦ (ih h).2 (List.mem_cons_of_mem _ hs)⟩

theorem nodup_firsts (seen : List Bytes) (pool : List Certificate) :
    ((firsts seen pool).map (·.der)).Nodup := by
  induction pool generalizing seen with
  | nil => simp [firsts]
  | cons c pool ih =>
    rw [firsts]
    split
    · exact ih seen
    · rw [List.map_cons, List.nodup_cons]
      refine ⟨fun hm ↦ ?_, ih _⟩
      obtain ⟨d, hd, he⟩ := List.mem_map.1 hm
      exact (mem_of_mem_firsts hd).2 (he ▸ List.mem_cons_self)

theorem exists_mem_firsts {seen : List Bytes} {pool : List Certificate} {c : Certificate}
    (h : c ∈ pool) (hs : c.der ∉ seen) : ∃ d ∈ firsts seen pool, d.der = c.der := by
  induction pool generalizing seen with
  | nil => simp at h
  | cons d pool ih =>
    rw [firsts]
    by_cases he : d.der = c.der
    · have hd : d.der ∉ seen := he ▸ hs
      rw [if_neg hd]
      exact ⟨d, List.mem_cons_self, he⟩
    · have hc : c ∈ pool := by
        rcases List.mem_cons.1 h with rfl | h
        · exact absurd rfl he
        · exact h
      split
      · exact ih hc hs
      · have hs' : c.der ∉ d.der :: seen := by simp [hs, Ne.symm he]
        obtain ⟨x, hx, hxc⟩ := ih hc hs'
        exact ⟨x, List.mem_cons_of_mem _ hx, hxc⟩

theorem firsts_eq_self {seen : List Bytes} {pool : List Certificate}
    (hn : (pool.map (·.der)).Nodup) (hs : ∀ c ∈ pool, c.der ∉ seen) : firsts seen pool = pool := by
  induction pool generalizing seen with
  | nil => rfl
  | cons c pool ih =>
    obtain ⟨hc, hpool⟩ := List.forall_mem_cons.1 hs
    rw [List.map_cons, List.nodup_cons] at hn
    rw [firsts, if_neg hc]
    have hrest : ∀ d ∈ pool, d.der ∉ c.der :: seen := by
      intro d hd hm
      rcases List.mem_cons.1 hm with he | hm
      · exact hn.1 (he ▸ List.mem_map_of_mem hd)
      · exact hpool d hd hm
    rw [ih hn.2 hrest]

variable (v : Verifier)

def signsItself (c : Certificate) : Bool := v.isSelfSigned c matches .ok true

def fault (c : Certificate) : Option TrustError :=
  match v.isSelfSigned c with
  | .error e => some e
  | .ok _ => none

theorem fault_eq_none_iff (c : Certificate) : fault v c = none ↔ ∃ r, v.isSelfSigned c = .ok r := by
  unfold fault
  cases v.isSelfSigned c <;> simp

theorem fill_eq (seen : List Bytes) (p : Partition) (pool : List Certificate) :
    fill v seen p pool =
      match (firsts seen pool).findSome? (fault v) with
      | some e => .error e
      | none => .ok ⟨p.anchors ++ (firsts seen pool).filter (signsItself v),
          p.intermediates ++ (firsts seen pool).filter fun c ↦ !signsItself v c⟩ := by
  induction pool generalizing seen p with
  | nil => simp [fill, firsts]
  | cons c pool ih =>
    by_cases hc : c.der ∈ seen
    · simp [fill, firsts, hc, ih]
    · simp only [fill, firsts, hc, if_false]
      cases hs : v.isSelfSigned c with
      | error e =>
        have hf : fault v c = some e := by simp [fault, hs]
        rw [List.findSome?_cons, hf]
        rfl
      | ok r =>
        have hf : fault v c = none := by simp [fault, hs]
        cases r with
        | false =>
          have hc : signsItself v c = false := by simp [signsItself, hs]
          change fill v (c.der :: seen) ⟨p.anchors, p.intermediates ++ [c]⟩ pool = _
          rw [ih, List.findSome?_cons, hf]
          simp [hc]
        | true =>
          have hc : signsItself v c = true := by simp [signsItself, hs]
          change fill v (c.der :: seen) ⟨p.anchors ++ [c], p.intermediates⟩ pool = _
          rw [ih, List.findSome?_cons, hf]
          simp [hc]

def split (cs : List Certificate) : Partition where
  anchors := cs.filter (signsItself v)
  intermediates := cs.filter fun c ↦ !signsItself v c

theorem ofPool_eq (pool : List Certificate) :
    ofPool v pool =
      match (firsts [] pool).findSome? (fault v) with
      | some e => .error e
      | none => .ok (split v (firsts [] pool)) :=
  fill_eq v [] empty pool

theorem fill_eq_ok_iff (seen : List Bytes) (p q : Partition) (pool : List Certificate) :
    fill v seen p pool = .ok q ↔
      (∀ c ∈ firsts seen pool, ∃ r, v.isSelfSigned c = .ok r) ∧
        q.anchors = p.anchors ++ (firsts seen pool).filter (signsItself v) ∧
        q.intermediates =
          p.intermediates ++ (firsts seen pool).filter fun c ↦ !signsItself v c := by
  obtain ⟨as, cs⟩ := q
  simp only [← fault_eq_none_iff, ← List.findSome?_eq_none_iff]
  rw [fill_eq]
  cases (firsts seen pool).findSome? (fault v) with
  | some e => simp
  | none => simp [eq_comm]

variable {v} {pool : List Certificate} {p : Partition}

theorem isSelfSigned_of_mem_anchors (h : ofPool v pool = .ok p) {c : Certificate}
    (hc : c ∈ p.anchors) : c ∈ pool ∧ v.isSelfSigned c = .ok true := by
  obtain ⟨hall, ha, -⟩ := (fill_eq_ok_iff v [] empty p pool).1 h
  rw [ha, empty, List.nil_append, List.mem_filter] at hc
  obtain ⟨r, hr⟩ := hall c hc.1
  refine ⟨(mem_of_mem_firsts hc.1).1, ?_⟩
  cases r <;> simp_all [signsItself]

theorem isSelfSigned_of_mem_intermediates (h : ofPool v pool = .ok p) {c : Certificate}
    (hc : c ∈ p.intermediates) : c ∈ pool ∧ v.isSelfSigned c = .ok false := by
  obtain ⟨hall, -, hi⟩ := (fill_eq_ok_iff v [] empty p pool).1 h
  rw [hi, empty, List.nil_append, List.mem_filter] at hc
  obtain ⟨r, hr⟩ := hall c hc.1
  refine ⟨(mem_of_mem_firsts hc.1).1, ?_⟩
  cases r <;> simp_all [signsItself]

theorem mem_of_ofPool (h : ofPool v pool = .ok p) {c : Certificate} (hc : c ∈ pool)
    (hinj : ∀ d ∈ pool, d.der = c.der → d = c) :
    (v.isSelfSigned c = .ok true → c ∈ p.anchors) ∧
      (v.isSelfSigned c = .ok false → c ∈ p.intermediates) := by
  obtain ⟨-, ha, hi⟩ := (fill_eq_ok_iff v [] empty p pool).1 h
  have hfirst : c ∈ firsts [] pool := by
    obtain ⟨d, hd, he⟩ := exists_mem_firsts hc (by simp : c.der ∉ [])
    obtain rfl := hinj d (mem_of_mem_firsts hd).1 he
    exact hd
  refine ⟨fun hs ↦ ?_, fun hs ↦ ?_⟩
  · rw [ha, empty, List.nil_append, List.mem_filter]
    exact ⟨hfirst, by simp [signsItself, hs]⟩
  · rw [hi, empty, List.nil_append, List.mem_filter]
    exact ⟨hfirst, by simp [signsItself, hs]⟩

theorem nodup_of_ofPool (h : ofPool v pool = .ok p) :
    ((p.anchors ++ p.intermediates).map (·.der)).Nodup := by
  obtain ⟨-, ha, hi⟩ := (fill_eq_ok_iff v [] empty p pool).1 h
  rw [ha, hi, empty, List.nil_append, List.nil_append]
  exact ((List.filter_append_perm _ _).map _).nodup_iff.2 (nodup_firsts [] pool)

end CertPath.Partition
