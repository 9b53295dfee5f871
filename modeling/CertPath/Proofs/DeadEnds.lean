import CertPath.Proofs.Findings
import CertPath.Proofs.SearchOrder
import Mathlib.Data.List.Induction

namespace CertPath.PathBuilder

/-- The longest of the chains in `S`, and of several such the one that comes first place by place. -/
structure FirstLongest (S : List Placed → Prop) (cs : List Placed) : Prop where
  mem : S cs
  longest : ∀ ds, S ds → ds.length ≤ cs.length
  first : ∀ ds, S ds → ds.length = cs.length → cs.map Prod.snd ≤ ds.map Prod.snd

theorem Event.Precedes.places_le {cs ds : List Placed}
    (h : Precedes (.deadEnd cs) (.deadEnd ds)) (hlen : ds.length = cs.length) :
    cs.map Prod.snd ≤ ds.map Prod.snd := by
  cases h with
  | fork hxy hcs hds =>
    change cs = _ at hcs
    change ds = _ at hds
    subst hcs hds
    rw [List.map_append, List.map_append]
    exact le_of_lt (append_cons_lt hxy _ _ _)
  | ahead hne _ => exact absurd rfl (hne cs)
  | behind hpre =>
    change ds <+: cs at hpre
    rw [hpre.eq_of_length hlen]

section GivenUp

variable {es : List Event} {cs ds : List Placed}

theorem mem_concat_deadEnd_iff :
    .deadEnd cs ∈ es ++ [.deadEnd ds] ↔ .deadEnd cs ∈ es ∨ cs = ds := by
  rw [List.mem_append, List.mem_singleton, Event.deadEnd.injEq]

theorem FirstLongest.concat (h : FirstLongest (.deadEnd · ∈ es) cs)
    (hlater : ∀ e ∈ es, e.Precedes (.deadEnd ds)) (hlen : ds.length ≤ cs.length) :
    FirstLongest (.deadEnd · ∈ es ++ [.deadEnd ds]) cs := by
  refine ⟨List.mem_append_left _ h.mem, ?_, ?_⟩
  · intro fs hf
    rcases mem_concat_deadEnd_iff.1 hf with hf | rfl
    · exact h.longest fs hf
    · exact hlen
  · intro fs hf hfs
    rcases mem_concat_deadEnd_iff.1 hf with hf | rfl
    · exact h.first fs hf hfs
    · exact (hlater _ h.mem).places_le hfs

theorem firstLongest_concat (hlt : ∀ fs, .deadEnd fs ∈ es → fs.length < ds.length) :
    FirstLongest (.deadEnd · ∈ es ++ [.deadEnd ds]) ds := by
  refine ⟨List.mem_concat_self, ?_, ?_⟩
  · intro fs hf
    rcases mem_concat_deadEnd_iff.1 hf with hf | rfl
    · exact (hlt fs hf).le
    · exact le_rfl
  · intro fs hf hfs
    rcases mem_concat_deadEnd_iff.1 hf with hf | rfl
    · exact absurd hfs (hlt fs hf).ne
    · exact le_rfl

end GivenUp

variable (b : PathBuilder) (leaf : Certificate) (p : Partition)

theorem foldl_note_of_pairwise {es : List Event} (h : es.Pairwise Event.Precedes) :
    (∃ cs, FirstLongest (.deadEnd · ∈ es) cs ∧
      es.foldl (fun st e ↦ note (.start leaf p.intermediates) leaf e st) none =
        some ⟨cs.length, top leaf cs⟩) ∨
    (∀ cs, .deadEnd cs ∉ es) ∧
      es.foldl (fun st e ↦ note (.start leaf p.intermediates) leaf e st) none = none := by
  induction es using List.reverseRecOn with
  | nil => exact .inr ⟨by simp, rfl⟩
  | append_singleton es e ih =>
    obtain ⟨hes, -, hlater⟩ := List.pairwise_append.1 h
    have hnoted := ih hes
    rw [List.foldl_append]
    cases e with
    | anchor ds a => simpa [note] using hnoted
    | step ds x => simpa [note] using hnoted
    | deadEnd ds =>
      left
      rw [List.foldl_cons, List.foldl_nil, note_deadEnd]
      rcases hnoted with ⟨cs, hcs, hst⟩ | ⟨hnone, hst⟩
      · rw [hst]
        by_cases hlen : ds.length ≤ cs.length
        · refine ⟨cs, hcs.concat (fun e he ↦ hlater e he _ (by simp)) hlen, ?_⟩
          simp [hlen]
        · refine ⟨ds, firstLongest_concat fun fs hf ↦ ?_, by simp [hlen]⟩
          have hfs := hcs.longest fs hf
          omega
      · rw [hst]
        exact ⟨ds, firstLongest_concat fun fs hf ↦ absurd hf (hnone fs), rfl⟩

theorem chain_nil : b.Chain leaf p.intermediates [] :=
  ⟨by simp, by simp, by simp, .singleton _, .inl rfl⟩

theorem exists_noted :
    ∃ cs, FirstLongest (b.Chain leaf p.intermediates) cs ∧
      (b.events leaf p).foldl (fun st e ↦ note (.start leaf p.intermediates) leaf e st) none =
        some ⟨cs.length, top leaf cs⟩ := by
  have hsorted : (b.events leaf p).Pairwise Event.Precedes := pairwise_trace _ _
  rcases foldl_note_of_pairwise leaf p hsorted with ⟨cs, hcs, hst⟩ | ⟨hnone, -⟩
  · simp only [mem_events_deadEnd_iff] at hcs
    exact ⟨cs, hcs, hst⟩
  · have hleaf := (b.mem_events_deadEnd_iff leaf p []).2 (b.chain_nil leaf p)
    exact absurd hleaf (hnone [])

variable {b leaf p}

theorem extend_of_found_eq_none (h : b.found leaf p = none) :
    b.extend p (.start leaf p.intermediates) leaf =
      .ok (none, (Search.start leaf p.intermediates).withStall
        ((b.events leaf p).foldl (fun st e ↦ note (.start leaf p.intermediates) leaf e st) none)) := by
  rw [extend_start_eq_follow, b.follow_of_findSome?_eq_none _ leaf h]
  rfl

/-- Where no path is built, the certificate named is the last of the first longest chain. That chain
was noted, so the leaf is named only if there is no other. -/
theorem firstLongest_of_build {subject issuer : String}
    (h : b.build leaf p = .error (.noPath subject issuer)) :
    ∃ cs, FirstLongest (b.Chain leaf p.intermediates) cs ∧
      subject = (top leaf cs).subject.oneline ∧ issuer = (top leaf cs).issuer.oneline ∧
      ∃ t, b.extend p (.start leaf p.intermediates) leaf = .ok (none, t) ∧
        t.stall = some ⟨cs.length, top leaf cs⟩ := by
  obtain ⟨hl, hnone⟩ := (b.exists_build_eq_noPath_iff leaf p).1 ⟨subject, issuer, h⟩
  obtain ⟨cs, hcs, hst⟩ := b.exists_noted leaf p
  rw [b.build_of_mismatch leaf p hl, hnone] at h
  have hdeepest : b.deepest leaf p = top leaf cs := by
    rw [deepest, hst]
    rfl
  rw [hdeepest] at h
  cases h
  exact ⟨cs, hcs, rfl, rfl, _, extend_of_found_eq_none hnone, hst⟩

def sampleThicket : Partition where
  anchors := [.sample 'A' 'A' []]
  intermediates := [.sample 'B' 'X' [], .sample 'B' 'D' [], .sample 'D' 'E' [], .sample 'B' 'F' [],
    .sample 'F' 'G' [], .sample 'E' 'A' []]

theorem firstLongest_of_build_depth_limit :
    build ⟨.sample, 4⟩ (.sample 'C' 'B' []) sampleThicket =
      .error (.noPath "CN = D" "CN = E") ∧
    ∃ cs, FirstLongest (Chain ⟨.sample, 4⟩ (.sample 'C' 'B' []) sampleThicket.intermediates) cs ∧
      (top (.sample 'C' 'B' []) cs).subject.oneline = "CN = D" := by
  have hb : build ⟨.sample, 4⟩ (.sample 'C' 'B' []) sampleThicket =
      .error (.noPath "CN = D" "CN = E") := by decide +kernel
  obtain ⟨cs, hcs, hsubject, -, -⟩ := firstLongest_of_build hb
  exact ⟨hb, cs, hcs, hsubject.symm⟩

end CertPath.PathBuilder
