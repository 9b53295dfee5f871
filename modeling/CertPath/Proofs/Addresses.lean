import CertPath.Xml.Node
import Mathlib.Data.List.Lex

namespace CertPath.Xml.Node

variable {n x : Node} {ns : List Node} {p q : List ℕ} {i : ℕ}

@[elab_as_elim, induction_eliminator]
theorem induct {motive : Node → Prop}
    (element : ∀ name children, (∀ n ∈ children, motive n) → motive (element name children))
    (text : ∀ s, motive (text s)) (comment : ∀ s, motive (comment s))
    (instruction : motive instruction) (n : Node) : motive n :=
  Node.rec (motive_1 := motive) (motive_2 := fun ns ↦ ∀ n ∈ ns, motive n)
    element text comment instruction nofun
    (fun _ _ hn hns ↦ List.forall_mem_cons.2 ⟨hn, hns⟩) n

def text? : Node → Option (List Char)
  | text s => some s
  | _ => none

def joined (ns : List Node) : List Char := (ns.filterMap text?).flatten

@[simp] theorem joined_append (ns ms : List Node) : joined (ns ++ ms) = joined ns ++ joined ms := by
  rw [joined, List.filterMap_append, List.flatten_append]
  rfl

@[simp] theorem joined_text (s : List Char) (ns : List Node) :
    joined (text s :: ns) = s ++ joined ns := rfl

theorem joined_cons (hn : n.text? = none) (ns : List Node) : joined (n :: ns) = joined ns := by
  rw [joined, List.filterMap_cons_none hn, ← joined]

@[simp] theorem joined_element (name : String) (children ns : List Node) :
    joined (element name children :: ns) = joined ns := rfl

theorem ownText_element (name : String) (children : List Node) :
    (element name children).ownText = joined children := by
  rw [ownText]
  induction children with
  | nil => rfl
  | cons n ns ih =>
    rw [List.flatMap_cons, ih]
    cases n <;> rfl

/-- The node to which the address leads, which says at each step in which child to go on. -/
def at? : Node → List ℕ → Option Node
  | n, [] => some n
  | element _ children, i :: p => children[i]?.bind (·.at? p)
  | _, _ :: _ => none

mutual

/-- The nodes of `descendants`, each with its address. -/
def places : Node → List (List ℕ × Node)
  | element name children => ([], element name children) :: placesFrom 0 children
  | text s => [([], text s)]
  | comment s => [([], comment s)]
  | instruction => [([], instruction)]

def placesFrom (i : ℕ) : List Node → List (List ℕ × Node)
  | [] => []
  | n :: ns => (places n).map (Prod.map (i :: ·) id) ++ placesFrom (i + 1) ns

end

theorem allDescendants_eq (ns : List Node) : allDescendants ns = ns.flatMap descendants := by
  induction ns with
  | nil => rfl
  | cons n ns ih => rw [allDescendants, ih, List.flatMap_cons]

theorem map_snd_placesFrom (h : ∀ n ∈ ns, (places n).map (·.2) = descendants n) :
    (placesFrom i ns).map (·.2) = allDescendants ns := by
  induction ns generalizing i with
  | nil => rfl
  | cons n ns ih =>
    obtain ⟨hn, hns⟩ := List.forall_mem_cons.1 h
    rw [placesFrom, allDescendants, List.map_append, List.map_map, ih hns, ← hn]
    rfl

theorem map_snd_places (n : Node) : (places n).map (·.2) = descendants n := by
  induction n with
  | element name children ih =>
    rw [places, descendants, List.map_cons, map_snd_placesFrom ih]
  | text s => rfl
  | comment s => rfl
  | instruction => rfl

theorem mem_placesFrom : (q, x) ∈ placesFrom i ns ↔
    ∃ j p n, q = (i + j) :: p ∧ ns[j]? = some n ∧ (p, x) ∈ places n := by
  induction ns generalizing i with
  | nil => simp [placesFrom]
  | cons n ns ih =>
    rw [placesFrom, List.mem_append, List.mem_map, ih]
    constructor
    · rintro (⟨⟨p, y⟩, hp, he⟩ | ⟨j, p, m, rfl, hm, hp⟩)
      · cases he
        exact ⟨0, p, n, rfl, rfl, hp⟩
      · exact ⟨j + 1, p, m, by rw [Nat.add_right_comm]; rfl, hm, hp⟩
    · rintro ⟨_ | j, p, m, rfl, hm, hp⟩
      · cases hm
        exact .inl ⟨(p, x), hp, rfl⟩
      · exact .inr ⟨j, p, m, by rw [Nat.add_right_comm]; rfl, hm, hp⟩

theorem at?_cons {name : String} {children : List Node} :
    (element name children).at? (i :: p) = some x ↔
      ∃ n, children[i]? = some n ∧ n.at? p = some x :=
  Option.bind_eq_some_iff

theorem mem_places : (p, x) ∈ places n ↔ n.at? p = some x := by
  induction n generalizing p with
  | element name children ih =>
    rw [places, List.mem_cons, mem_placesFrom]
    cases p with
    | nil => simp [at?, eq_comm]
    | cons i p =>
      rw [at?_cons]
      constructor
      · rintro (he | ⟨j, p', n, he, hn, hp⟩)
        · cases he
        · rw [Nat.zero_add] at he
          cases he
          exact ⟨n, hn, (ih n (List.mem_of_getElem? hn)).1 hp⟩
      · rintro ⟨n, hn, hp⟩
        have hmem := (ih n (List.mem_of_getElem? hn)).2 hp
        exact .inr ⟨i, p, n, by rw [Nat.zero_add], hn, hmem⟩
  | text s => cases p <;> simp [places, at?, eq_comm]
  | comment s => cases p <;> simp [places, at?, eq_comm]
  | instruction => cases p <;> simp [places, at?, eq_comm]

theorem pairwise_placesFrom (h : ∀ n ∈ ns, (places n).Pairwise (·.1 < ·.1)) :
    (placesFrom i ns).Pairwise (·.1 < ·.1) := by
  induction ns generalizing i with
  | nil => exact .nil
  | cons n ns ih =>
    obtain ⟨hn, hns⟩ := List.forall_mem_cons.1 h
    rw [placesFrom, List.pairwise_append, List.pairwise_map]
    refine ⟨hn.imp fun hlt ↦ List.cons_lt_cons_iff.2 (.inr ⟨rfl, hlt⟩), ih hns, ?_⟩
    intro a ha b hb
    obtain ⟨⟨p, x⟩, -, rfl⟩ := List.mem_map.1 ha
    obtain ⟨q, y⟩ := b
    obtain ⟨j, p', m, rfl, -, -⟩ := mem_placesFrom.1 hb
    exact List.cons_lt_cons_iff.2 (.inl (by omega))

/-- A node comes before those in it, and what is in it before what is in the next one. -/
theorem pairwise_places (n : Node) : (places n).Pairwise (·.1 < ·.1) := by
  induction n with
  | element name children ih =>
    rw [places, List.pairwise_cons]
    refine ⟨fun b hb ↦ ?_, pairwise_placesFrom ih⟩
    obtain ⟨q, y⟩ := b
    obtain ⟨j, p, m, rfl, -, -⟩ := mem_placesFrom.1 hb
    exact List.nil_lt_cons _ _
  | text s => exact List.pairwise_singleton _ _
  | comment s => exact List.pairwise_singleton _ _
  | instruction => exact List.pairwise_singleton _ _

end CertPath.Xml.Node
