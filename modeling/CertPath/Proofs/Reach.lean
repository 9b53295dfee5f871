import CertPath.Proofs.Trace
import Mathlib.Data.List.Nodup

namespace CertPath.PathBuilder

section Climbing

variable (b : PathBuilder) (p : Partition) (s : Search) (root : Certificate)

/-- A search at the end of `cs` can go on through `ds`. -/
inductive Climbs : List Placed → List Placed → Prop
  | nil (cs : List Placed) : Climbs cs []
  | cons {cs ds : List Placed} {x : Placed} :
      x ∈ p.intermediates.zipIdx → s.isFree cs x = true → b.verifier.Issued (top root cs) x.1 →
      Climbs (cs ++ [x]) ds → Climbs cs (x :: ds)

def eventsAt (levels : Nat) (cs : List Placed) : List Event :=
  p.anchors.map (.anchor cs) ++
    (if levels = 0 then [] else (p.intermediates.zipIdx.filter (s.isFree cs)).map (.step cs)) ++
    [.deadEnd cs]

theorem mem_branch_iff (cs : List Placed) (x : Placed) (beyond : List Event) (e : Event) :
    e ∈ b.branch root cs x beyond ↔
      e = .step cs x ∨ b.verifier.Issued (top root cs) x.1 ∧ e ∈ beyond := by
  rw [← issuedBy_eq_true_iff, branch, List.mem_cons]
  cases b.issuedBy (top root cs) x.1 with
  | error err => simp
  | ok r => cases r <;> simp

theorem mem_trace_iff (n : Nat) (cs : List Placed) (e : Event) :
    e ∈ b.trace p s root n cs ↔
      ∃ ds, b.Climbs p s root cs ds ∧ ds.length ≤ n ∧
        e ∈ eventsAt p s (n - ds.length) (cs ++ ds) := by
  induction n generalizing cs with
  | zero =>
    constructor
    · intro he
      exact ⟨[], .nil cs, le_rfl, by simpa [eventsAt, trace] using he⟩
    · rintro ⟨ds, -, hn, he⟩
      obtain rfl := List.eq_nil_of_length_eq_zero (Nat.le_zero.1 hn)
      simpa [eventsAt, trace] using he
  | succ n ih =>
    constructor
    · intro he
      simp only [trace, List.mem_append, List.mem_flatMap, List.mem_filter, mem_branch_iff] at he
      rcases he with (ha | ⟨x, hx, rfl | ⟨hi, he⟩⟩) | hd
      · exact ⟨[], .nil cs, Nat.zero_le _, by simp [eventsAt, List.mem_map.1 ha]⟩
      · exact ⟨[], .nil cs, Nat.zero_le _, by simp [eventsAt, hx]⟩
      · obtain ⟨ds, hds, hn, he⟩ := (ih _).1 he
        refine ⟨x :: ds, .cons hx.1 hx.2 hi hds, Nat.succ_le_succ hn, ?_⟩
        simpa [Nat.succ_sub_succ] using he
      · exact ⟨[], .nil cs, Nat.zero_le _, by simp_all [eventsAt]⟩
    · rintro ⟨ds, hds, hn, he⟩
      simp only [trace, List.mem_append, List.mem_flatMap, List.mem_filter, mem_branch_iff]
      cases hds with
      | nil =>
        have hn : ¬ n + 1 - ([] : List Placed).length = 0 := by simp
        simp only [eventsAt, hn, if_false, List.mem_append, List.append_nil, List.mem_map,
          List.mem_filter] at he
        rcases he with (⟨a, ha, rfl⟩ | ⟨x, hx, rfl⟩) | hd
        · exact .inl (.inl (List.mem_map_of_mem ha))
        · exact .inl (.inr ⟨x, hx, .inl rfl⟩)
        · exact .inr hd
      | @cons _ ds x hx hf hi hds =>
        have hrest := (ih (cs ++ [x])).2 ⟨ds, hds, Nat.le_of_succ_le_succ hn, by
          simpa [Nat.succ_sub_succ] using he⟩
        exact .inl (.inr ⟨x, ⟨hx, hf⟩, .inr ⟨hi, hrest⟩⟩)

theorem Search.isFree_concat (s : Search) (cs : List Placed) (x y : Placed) :
    s.isFree (cs ++ [x]) y = true ↔ s.isFree cs y = true ∧ y.2 ≠ x.2 := by
  simp [isFree, and_assoc]

theorem climbs_iff (cs ds : List Placed) :
    b.Climbs p s root cs ds ↔
      (∀ x ∈ ds, x ∈ p.intermediates.zipIdx ∧ s.isFree cs x = true) ∧ (ds.map Prod.snd).Nodup ∧
        (top root cs :: ds.map Prod.fst).IsChain b.verifier.Issued := by
  induction ds generalizing cs with
  | nil => simp [Climbs.nil]
  | cons x ds ih =>
    have hstep : b.Climbs p s root cs (x :: ds) ↔ x ∈ p.intermediates.zipIdx ∧
        s.isFree cs x = true ∧ b.verifier.Issued (top root cs) x.1 ∧
          b.Climbs p s root (cs ++ [x]) ds :=
      ⟨fun h ↦ by cases h with | cons hx hf hi hd => exact ⟨hx, hf, hi, hd⟩,
        fun ⟨hx, hf, hi, hd⟩ ↦ .cons hx hf hi hd⟩
    rw [hstep, ih, top_concat, List.map_cons, List.map_cons, List.nodup_cons,
      List.isChain_cons_cons, List.forall_mem_cons]
    simp only [Search.isFree_concat]
    constructor
    · rintro ⟨hx, hf, hi, hd, hn, hl⟩
      refine ⟨⟨⟨hx, hf⟩, fun y hy ↦ ⟨(hd y hy).1, (hd y hy).2.1⟩⟩, ⟨?_, hn⟩, hi, hl⟩
      intro hm
      obtain ⟨y, hy, he⟩ := List.mem_map.1 hm
      exact (hd y hy).2.2 he
    · rintro ⟨⟨⟨hx, hf⟩, hd⟩, ⟨hm, hn⟩, hi, hl⟩
      exact ⟨hx, hf, hi, fun y hy ↦ ⟨(hd y hy).1, (hd y hy).2, fun he ↦
        hm (List.mem_map.2 ⟨y, hy, he⟩)⟩, hn, hl⟩

end Climbing

section

variable {p : Partition} {s : Search} {n : Nat} {cs ds : List Placed}

theorem mem_eventsAt_anchor_iff {a : Certificate} :
    .anchor ds a ∈ eventsAt p s n cs ↔ a ∈ p.anchors ∧ ds = cs := by
  constructor
  · intro h
    simp only [eventsAt, List.mem_append, List.mem_map, List.mem_singleton, reduceCtorEq,
      or_false] at h
    rcases h with ⟨d, hd, he⟩ | h
    · cases he
      exact ⟨hd, rfl⟩
    · split at h <;> simp at h
  · rintro ⟨ha, rfl⟩
    simp [eventsAt, ha]

theorem mem_eventsAt_step_iff {x : Placed} :
    .step ds x ∈ eventsAt p s n cs ↔
      (n ≠ 0 ∧ x ∈ p.intermediates.zipIdx ∧ s.isFree cs x = true) ∧ ds = cs := by
  constructor
  · intro h
    simp only [eventsAt, List.mem_append, List.mem_map, List.mem_singleton, reduceCtorEq,
      and_false, exists_false, false_or, or_false] at h
    split at h
    · simp at h
    · rename_i hn
      obtain ⟨y, hy, he⟩ := List.mem_map.1 h
      cases he
      exact ⟨⟨hn, List.mem_filter.1 hy⟩, rfl⟩
  · rintro ⟨⟨hn, hx, hf⟩, rfl⟩
    simp [eventsAt, hn, hx, hf]

theorem mem_eventsAt_deadEnd_iff : .deadEnd ds ∈ eventsAt p s n cs ↔ ds = cs := by
  rw [eventsAt, List.mem_append, List.mem_append, List.mem_singleton, Event.deadEnd.injEq]
  refine ⟨?_, .inr⟩
  rintro ((h | h) | rfl)
  · simp at h
  · split at h <;> simp at h
  · rfl

end

/-- The question whether `d` issued `c` that comes with an event. -/
inductive Event.Asks (root : Certificate) : Event → Certificate → Certificate → Prop
  | anchor (cs : List Placed) (a : Certificate) : Asks root (.anchor cs a) (top root cs) a
  | step (cs : List Placed) (x : Placed) : Asks root (.step cs x) (top root cs) x.1

section Start

variable (b : PathBuilder) (leaf : Certificate) (p : Partition)

/-- All that a search for a path above a leaf may do. -/
abbrev events : List Event :=
  b.trace p (.start leaf p.intermediates) leaf (b.maxDepth - 2) []

theorem Search.isFree_start {intermediates : List Certificate} {x : Placed}
    (hx : x ∈ intermediates.zipIdx) (cs : List Placed) :
    (Search.start leaf intermediates).isFree cs x = true ↔
      x.1.der ≠ leaf.der ∧ x.2 ∉ cs.map Prod.snd := by
  have hi := List.mem_zipIdx_iff_getElem?.1 hx
  simp [isFree, isUsed, start, hi]

theorem chain_iff_climbs (cs : List Placed) :
    b.Chain leaf p.intermediates cs ↔
      b.Climbs p (.start leaf p.intermediates) leaf [] cs ∧ cs.length ≤ b.maxDepth - 2 := by
  rw [climbs_iff, top_nil]
  have hlen : cs = [] ∨ cs.length + 2 ≤ b.maxDepth ↔ cs.length ≤ b.maxDepth - 2 := by
    rw [← List.length_eq_zero_iff]
    omega
  constructor
  · rintro ⟨hp, hd, hf, hl, hs⟩
    refine ⟨⟨fun x hx ↦ ?_, hd, hl⟩, hlen.1 hs⟩
    have hx' := List.mem_zipIdx_iff_getElem?.2 (hp x hx)
    exact ⟨hx', (Search.isFree_start leaf hx' []).2 ⟨hf x hx, by simp⟩⟩
  · rintro ⟨⟨hp, hd, hl⟩, hs⟩
    exact ⟨fun x hx ↦ List.mem_zipIdx_iff_getElem?.1 (hp x hx).1, hd,
      fun x hx ↦ ((Search.isFree_start leaf (hp x hx).1 []).1 (hp x hx).2).1, hl, hlen.2 hs⟩

theorem mem_events_iff (e : Event) :
    e ∈ b.events leaf p ↔
      ∃ cs, b.Chain leaf p.intermediates cs ∧
        e ∈ eventsAt p (.start leaf p.intermediates) (b.maxDepth - 2 - cs.length) cs := by
  simp only [mem_trace_iff, chain_iff_climbs, List.nil_append, and_assoc]

theorem mem_events_anchor_iff (cs : List Placed) (a : Certificate) :
    .anchor cs a ∈ b.events leaf p ↔ b.Chain leaf p.intermediates cs ∧ a ∈ p.anchors := by
  rw [mem_events_iff]
  constructor
  · rintro ⟨ds, hc, hm⟩
    obtain ⟨ha, rfl⟩ := mem_eventsAt_anchor_iff.1 hm
    exact ⟨hc, ha⟩
  · rintro ⟨hc, ha⟩
    exact ⟨cs, hc, mem_eventsAt_anchor_iff.2 ⟨ha, rfl⟩⟩

theorem mem_events_deadEnd_iff (cs : List Placed) :
    .deadEnd cs ∈ b.events leaf p ↔ b.Chain leaf p.intermediates cs := by
  rw [mem_events_iff]
  constructor
  · rintro ⟨ds, hc, hm⟩
    obtain rfl := mem_eventsAt_deadEnd_iff.1 hm
    exact hc
  · intro hc
    exact ⟨cs, hc, mem_eventsAt_deadEnd_iff.2 rfl⟩

theorem candidate_of_asks {e : Event} (he : e ∈ b.events leaf p) {c d : Certificate}
    (h : e.Asks leaf c d) :
    ∃ cs, b.Chain leaf p.intermediates cs ∧ b.Candidate leaf p cs d ∧ c = top leaf cs := by
  cases h with
  | anchor cs =>
    obtain ⟨hc, ha⟩ := (b.mem_events_anchor_iff leaf p cs d).1 he
    exact ⟨cs, hc, .anchor ha, rfl⟩
  | step ds x =>
    obtain ⟨cs, hc, hm⟩ := (b.mem_events_iff leaf p _).1 he
    obtain ⟨⟨hn, hx, hf⟩, rfl⟩ := mem_eventsAt_step_iff.1 hm
    obtain ⟨hl, hu⟩ := (Search.isFree_start leaf hx ds).1 hf
    have hplaced := List.mem_zipIdx_iff_getElem?.1 hx
    exact ⟨ds, hc, .intermediate hplaced hu hl (by omega), rfl⟩

end Start

end CertPath.PathBuilder
