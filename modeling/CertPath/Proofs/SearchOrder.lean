import CertPath.Proofs.Reach
import Mathlib.Data.List.Lex

namespace CertPath

theorem append_cons_lt {α : Type} [LT α] {a b : α} (h : a < b) (l l₁ l₂ : List α) :
    l ++ a :: l₁ < l ++ b :: l₂ := by
  apply List.append_left_lt
  exact List.cons_lt_cons_iff.2 (.inl h)

theorem pairwise_zipIdx {α : Type} (l : List α) : l.zipIdx.Pairwise fun x y ↦ x.2 < y.2 := by
  have h : (l.zipIdx.map Prod.snd).Pairwise (· < ·) := by
    rw [List.zipIdx_map_snd]
    exact List.pairwise_lt_range'
  exact List.pairwise_map.1 h

namespace PathBuilder

namespace Event

def chain : Event → List Placed
  | anchor cs _ => cs
  | step cs x => cs ++ [x]
  | deadEnd cs => cs

/-- How events lie in a search: a chain through a lower place comes before one through a higher, and
what is tried at a chain before what lies beyond it. A chain is given up last. -/
inductive Precedes : Event → Event → Prop
  | fork {e f : Event} {cs ds es : List Placed} {x y : Placed} :
      x.2 < y.2 → e.chain = cs ++ x :: ds → f.chain = cs ++ y :: es → Precedes e f
  | ahead {e f : Event} : (∀ cs, e ≠ deadEnd cs) → e.chain <+: f.chain → Precedes e f
  | behind {e : Event} {cs : List Placed} : cs <+: e.chain → Precedes e (deadEnd cs)

end Event

section Sorted

variable {b : PathBuilder} {p : Partition} {s : Search} {root : Certificate} {cs : List Placed}

theorem prefix_of_mem_trace {n : ℕ} {e : Event} (he : e ∈ b.trace p s root n cs) :
    cs <+: e.chain := by
  obtain ⟨ds, -, -, he⟩ := (b.mem_trace_iff p s root n cs e).1 he
  have hds : cs <+: cs ++ ds := List.prefix_append cs ds
  cases e with
  | anchor es a =>
    obtain ⟨-, rfl⟩ := mem_eventsAt_anchor_iff.1 he
    exact hds
  | step es x =>
    obtain ⟨-, rfl⟩ := mem_eventsAt_step_iff.1 he
    exact hds.trans (List.prefix_append _ _)
  | deadEnd es =>
    obtain rfl := mem_eventsAt_deadEnd_iff.1 he
    exact hds

theorem prefix_of_mem_branch {n : ℕ} {x : Placed} {e : Event}
    (he : e ∈ b.branch root cs x (b.trace p s root n (cs ++ [x]))) : cs ++ [x] <+: e.chain := by
  rcases (b.mem_branch_iff root cs x _ e).1 he with rfl | ⟨-, he⟩
  · exact List.prefix_rfl
  · exact prefix_of_mem_trace he

theorem pairwise_anchors (cs : List Placed) (as : List Certificate) :
    (as.map (.anchor cs)).Pairwise Event.Precedes := by
  rw [List.pairwise_map]
  apply List.pairwise_of_forall
  intro a d
  exact .ahead (fun ds ↦ by simp) List.prefix_rfl

theorem pairwise_branch {x : Placed} {beyond : List Event} (h : beyond.Pairwise Event.Precedes)
    (hx : ∀ e ∈ beyond, cs ++ [x] <+: e.chain) :
    (b.branch root cs x beyond).Pairwise Event.Precedes := by
  rw [branch, List.pairwise_cons]
  refine ⟨fun e he ↦ .ahead (fun ds ↦ by simp) ?_, ?_⟩
  · apply hx
    split at he
    · exact he
    · simp at he
  · split
    · exact h
    · exact .nil

/-- A search goes through its events in their order. -/
theorem pairwise_trace (n : ℕ) (cs : List Placed) :
    (b.trace p s root n cs).Pairwise Event.Precedes := by
  induction n generalizing cs with
  | zero =>
    rw [trace, List.pairwise_append]
    refine ⟨pairwise_anchors cs _, List.pairwise_singleton _ _, ?_⟩
    intro e he f hf
    obtain ⟨a, -, rfl⟩ := List.mem_map.1 he
    obtain rfl := List.mem_singleton.1 hf
    exact .behind List.prefix_rfl
  | succ n ih =>
    have hbranches : ((p.intermediates.zipIdx.filter (s.isFree cs)).flatMap fun x ↦
        b.branch root cs x (b.trace p s root n (cs ++ [x]))).Pairwise Event.Precedes := by
      rw [List.pairwise_flatMap]
      refine ⟨fun x _ ↦ pairwise_branch (ih _) fun e he ↦ prefix_of_mem_trace he, ?_⟩
      refine ((pairwise_zipIdx _).filter _).imp ?_
      intro x y hxy e he f hf
      obtain ⟨ds, hds⟩ := prefix_of_mem_branch he
      obtain ⟨es, hes⟩ := prefix_of_mem_branch hf
      rw [List.append_assoc] at hds hes
      exact .fork hxy hds.symm hes.symm
    have hbeyond : ∀ e ∈ b.trace p s root (n + 1) cs, cs <+: e.chain :=
      fun e he ↦ prefix_of_mem_trace he
    rw [trace] at hbeyond ⊢
    rw [List.pairwise_append, List.pairwise_append]
    refine ⟨⟨pairwise_anchors cs _, hbranches, ?_⟩, List.pairwise_singleton _ _, ?_⟩
    · intro e he f hf
      obtain ⟨a, -, rfl⟩ := List.mem_map.1 he
      refine .ahead (fun ds ↦ by simp) (hbeyond f ?_)
      exact List.mem_append_left _ (List.mem_append_right _ hf)
    · intro e he f hf
      obtain rfl := List.mem_singleton.1 hf
      exact .behind (hbeyond e (List.mem_append_left _ he))

end Sorted

end PathBuilder

end CertPath
