import CertPath.Proofs.Ascent
import CertPath.Proofs.SearchOrder
import Mathlib.Data.Sum.Order
import Mathlib.Order.Bounds.Basic

namespace CertPath

/-- `a` is the first certificate of a list that issued `c`. -/
structure Verifier.FirstIssuer (v : Verifier) (as : List Certificate) (c a : Certificate) : Prop where
  issued : v.Issued c a
  first : ∃ xs ys, as = xs ++ a :: ys ∧ ∀ x ∈ xs, ¬ v.Issued c x

theorem Verifier.FirstIssuer.exists_place {v : Verifier} {as : List Certificate}
    {c a : Certificate} (h : v.FirstIssuer as c a) :
    ∃ i : ℕ, as[i]? = some a ∧ ∀ (j : ℕ) x, as[j]? = some x → v.Issued c x → i ≤ j := by
  obtain ⟨-, xs, ys, rfl, hxs⟩ := h
  refine ⟨xs.length, by simp, ?_⟩
  intro j x hj hx
  by_contra hlt
  rw [List.getElem?_append_left (Nat.lt_of_not_le hlt)] at hj
  exact hxs x (List.mem_of_getElem? hj) hx

namespace PathBuilder

/-- The choices that lead along a path to the anchor at place `j`. Stopping at an anchor comes before
going on to an intermediate, and a lower place before a higher. -/
def route (cs : List Placed) (j : ℕ) : List (ℕ ⊕ₗ ℕ) :=
  cs.map (fun x ↦ Sum.inrₗ x.2) ++ [Sum.inlₗ j]

def routes (b : PathBuilder) (leaf : Certificate) (p : Partition) : Set (List (ℕ ⊕ₗ ℕ)) :=
  {r | ∃ cs a j, b.ValidPath leaf p cs a ∧ p.anchors[j]? = some a ∧ route cs j = r}

section Route

variable {cs ds : List Placed} {a d : Certificate} {i j : ℕ}

theorem route_lt_of_fork {x y : Placed} (h : x.2 < y.2) (cs ds es : List Placed) (i j : ℕ) :
    route (cs ++ x :: ds) i < route (cs ++ y :: es) j := by
  simp only [route, List.map_append, List.map_cons, List.append_assoc, List.cons_append]
  exact append_cons_lt (Sum.Lex.inr_lt_inr_iff.2 h) _ _ _

theorem route_lt_of_stop (cs : List Placed) (x : Placed) (ds : List Placed) (i j : ℕ) :
    route cs i < route (cs ++ x :: ds) j := by
  simp only [route, List.map_append, List.map_cons, List.append_assoc, List.cons_append]
  exact append_cons_lt (Sum.Lex.inl_lt_inr _ _) _ _ _

theorem route_le_of_le (h : i ≤ j) (cs : List Placed) : route cs i ≤ route cs j := by
  rcases h.lt_or_eq with h | rfl
  · exact le_of_lt (append_cons_lt (Sum.Lex.inl_lt_inl_iff.2 h) _ _ _)
  · exact le_rfl

theorem Event.Precedes.route_lt (h : Precedes (.anchor cs a) (.anchor ds d)) :
    cs = ds ∨ ∀ i j, route cs i < route ds j := by
  cases h with
  | fork hxy hcs hds =>
    change cs = _ at hcs
    change ds = _ at hds
    subst hcs hds
    exact .inr (route_lt_of_fork hxy _ _ _)
  | ahead _ hpre =>
    obtain ⟨es, he⟩ := hpre
    change cs ++ es = ds at he
    subst he
    cases es with
    | nil => exact .inl (List.append_nil cs).symm
    | cons x es => exact .inr (route_lt_of_stop cs x es)

end Route

section Stops

variable {b : PathBuilder} {p : Partition} {root : Certificate}

theorem firstIssuer_of_anchorOf {c a : Certificate} {as : List Certificate}
    (h : b.anchorOf c as = .ok (some a)) : b.verifier.FirstIssuer as c a := by
  induction as with
  | nil => cases h
  | cons d as ih =>
    cases hd : b.issuedBy c d with
    | error e =>
      rw [anchorOf_cons_of_error hd] at h
      cases h
    | ok r =>
      cases r with
      | false =>
        rw [anchorOf_cons_of_false hd] at h
        obtain ⟨hi, xs, ys, rfl, hxs⟩ := ih h
        have hnot := ((b.issuedBy_eq_false_iff c d).1 hd).1
        exact ⟨hi, d :: xs, ys, rfl, List.forall_mem_cons.2 ⟨hnot, hxs⟩⟩
      | true =>
        rw [anchorOf_cons_of_true hd] at h
        cases h
        exact ⟨(b.issuedBy_eq_true_iff c a).1 hd, [], as, rfl, by simp⟩

theorem Ascends.firstIssuer {cs ds : List Certificate} {a : Certificate}
    (h : b.Ascends p root cs ds a) :
    b.verifier.FirstIssuer p.anchors ((cs ++ ds).getLastD root) a := by
  induction h with
  | stop ha =>
    rw [List.append_nil]
    exact firstIssuer_of_anchorOf ha
  | step _ _ _ ih =>
    rw [List.append_assoc] at ih
    exact ih

theorem Ascends.stops {cs ds : List Certificate} {a c d x : Certificate}
    (h : b.Ascends p root cs ds a) (hx : x ∈ p.anchors) (hi : b.verifier.Issued c x)
    {ls rs : List Certificate} (hl : cs.getLastD root :: ds ++ [a] = ls ++ c :: d :: rs) :
    rs = [] ∧ b.verifier.FirstIssuer p.anchors c d := by
  induction h generalizing ls with
  | stop ha =>
    cases ls with
    | nil =>
      cases hl
      exact ⟨rfl, firstIssuer_of_anchorOf ha⟩
    | cons y ls => simp [List.cons_eq_append_iff] at hl
  | @step cs ds c' a ha _ _ ih =>
    cases ls with
    | nil =>
      cases hl
      have hfalse := anchorOf_eq_none ha hx
      exact absurd hi ((b.issuedBy_eq_false_iff _ _).1 hfalse).1
    | cons y ls =>
      obtain ⟨-, hl⟩ := List.cons.inj hl
      apply ih
      rw [List.getLastD_concat]
      exact hl

end Stops

section Least

variable {b : PathBuilder} {leaf : Certificate} {p : Partition}

theorem attempt_anchor_of_issued {cs : List Placed} {a : Certificate}
    (h : b.verifier.Issued (top leaf cs) a) :
    b.attempt leaf (.anchor cs a) = some (.ok (cs, a)) := by
  rw [attempt, (b.issuedBy_eq_true_iff _ _).2 h]

theorem route_lt_of_found {cs ds : List Placed} {a d : Certificate}
    (h : b.found leaf p = some (.ok (cs, a))) (hv : b.ValidPath leaf p ds d) :
    cs = ds ∨ ∀ i j, route cs i < route ds j := by
  obtain ⟨es, e, fs, hevents, he, hnone⟩ := List.findSome?_eq_some_iff.1 h
  obtain ⟨rfl, -⟩ := b.attempt_eq_ok leaf he
  have hmem : .anchor ds d ∈ b.events leaf p :=
    (b.mem_events_anchor_iff leaf p ds d).2 ⟨hv.chain, hv.anchor⟩
  have hsorted : (b.events leaf p).Pairwise Event.Precedes := pairwise_trace _ _
  rw [hevents] at hmem hsorted
  rcases List.mem_append.1 hmem with hmem | hmem
  · have hfound := hnone _ hmem
    rw [attempt_anchor_of_issued hv.issued] at hfound
    cases hfound
  · rcases List.mem_cons.1 hmem with heq | hmem
    · cases heq
      exact .inl rfl
    · have hlater := (List.pairwise_append.1 hsorted).2.1
      exact ((List.pairwise_cons.1 hlater).1 _ hmem).route_lt

/-- A path that is built is the least of all valid paths. It stops at the first anchor it can. -/
theorem isLeast_route_of_build {path : CertificationPath} (h : b.build leaf p = .ok path) :
    (∃ cs j, b.ValidPath leaf p cs path.anchor ∧ p.anchors[j]? = some path.anchor ∧
      path = ⟨leaf, cs.map Prod.fst, path.anchor⟩ ∧ IsLeast (b.routes leaf p) (route cs j)) ∧
    ∀ ls rs c d, path.certificates = ls ++ c :: d :: rs →
      (∃ a ∈ p.anchors, b.verifier.Issued c a) →
        rs = [] ∧ b.verifier.FirstIssuer p.anchors c d := by
  have hup := ascends_of_build h
  obtain ⟨-, cs, a, hfound, rfl⟩ := b.found_of_build leaf p h
  have hvalid := b.validPath_of_found leaf p hfound
  refine ⟨?_, ?_⟩
  · obtain ⟨i, hi, hleast⟩ := hup.firstIssuer.exists_place
    refine ⟨cs, i, hvalid, hi, rfl, ⟨cs, a, i, hvalid, hi, rfl⟩, ?_⟩
    rintro r ⟨ds, d, j, hd, hj, rfl⟩
    rcases route_lt_of_found hfound hd with rfl | hlt
    · exact route_le_of_le (hleast j d hj hd.issued) cs
    · exact le_of_lt (hlt i j)
  · rintro ls rs c d hl ⟨x, hx, hi⟩
    exact hup.stops hx hi hl

def sampleOffer : Partition where
  anchors := [.sample 'Z' 'Z' [], .sample 'A' 'A' [], .sample 'A' 'A' ["http://a"]]
  intermediates :=
    [.sample 'B' 'X' [], .sample 'B' 'D' [], .sample 'D' 'A' [], .sample 'B' 'A' []]

theorem isLeast_route_of_build_past_dead_end :
    build ⟨.sample, 4⟩ (.sample 'C' 'B' []) sampleOffer =
      .ok ⟨.sample 'C' 'B' [], [.sample 'B' 'D' [], .sample 'D' 'A' []], .sample 'A' 'A' []⟩ ∧
    ∃ cs j, cs.map Prod.fst = [.sample 'B' 'D' [], .sample 'D' 'A' []] ∧
      IsLeast (routes ⟨.sample, 4⟩ (.sample 'C' 'B' []) sampleOffer) (route cs j) ∧
      Verifier.FirstIssuer .sample sampleOffer.anchors (.sample 'D' 'A' []) (.sample 'A' 'A' []) := by
  have hb : build ⟨.sample, 4⟩ (.sample 'C' 'B' []) sampleOffer =
      .ok ⟨.sample 'C' 'B' [], [.sample 'B' 'D' [], .sample 'D' 'A' []], .sample 'A' 'A' []⟩ := by
    decide +kernel
  obtain ⟨⟨cs, j, -, -, hpath, hleast⟩, hstop⟩ := isLeast_route_of_build hb
  have hi : Verifier.Issued .sample (.sample 'D' 'A' []) (.sample 'A' 'A' []) :=
    ⟨by decide +kernel, by decide +kernel⟩
  have hlast := hstop [.sample 'C' 'B' [], .sample 'B' 'D' []] [] (.sample 'D' 'A' [])
    (.sample 'A' 'A' []) (by simp [CertificationPath.certificates])
    ⟨.sample 'A' 'A' [], by simp [sampleOffer], hi⟩
  exact ⟨hb, cs, j, (congrArg CertificationPath.intermediates hpath).symm, hleast, hlast.2⟩

end Least

end PathBuilder

end CertPath
