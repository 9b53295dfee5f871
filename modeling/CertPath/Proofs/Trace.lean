import CertPath.Proofs.Issuance

namespace CertPath.PathBuilder

/-- What a depth-first search does at the end of a chain. -/
inductive Event
  | anchor (cs : List Placed) (a : Certificate)
  | step (cs : List Placed) (x : Placed)
  | deadEnd (cs : List Placed)

namespace Search

def after (s : Search) (cs : List Placed) : Search := cs.foldl (fun s x ↦ s.enter x.2 x.1) s

def withStall (s : Search) (st : Option Stall) : Search := { s with stall := st }

def isFree (s : Search) (cs : List Placed) (x : Placed) : Bool :=
  !s.isUsed x.2 && decide (x.2 ∉ cs.map Prod.snd)

@[simp] theorem after_nil (s : Search) : s.after [] = s := rfl

theorem after_concat (s : Search) (cs : List Placed) (x : Placed) :
    s.after (cs ++ [x]) = (s.after cs).enter x.2 x.1 := by simp [after]

@[simp] theorem after_chain (s : Search) (cs : List Placed) :
    (s.after cs).chain = s.chain ++ cs.map Prod.fst := by
  induction cs generalizing s with
  | nil => simp
  | cons x cs ih =>
    change ((s.enter x.2 x.1).after cs).chain = _
    rw [ih]
    simp [enter]

theorem isUsed_enter (s : Search) (i j : Nat) (c : Certificate) :
    (s.enter i c).isUsed j = (s.isUsed j || decide (i = j)) := by
  simp only [isUsed, enter, List.getD_eq_getElem?_getD, List.getElem?_set]
  by_cases hij : i = j
  · subst hij
    by_cases hi : i < s.used.length <;> simp [hi]
  · simp [hij]

theorem isUsed_after (s : Search) (cs : List Placed) (j : Nat) :
    (s.after cs).isUsed j = (s.isUsed j || decide (j ∈ cs.map Prod.snd)) := by
  induction cs generalizing s with
  | nil => simp
  | cons x cs ih =>
    change ((s.enter x.2 x.1).after cs).isUsed j = _
    rw [ih, isUsed_enter, Bool.or_assoc, List.map_cons]
    simp only [List.mem_cons, Bool.decide_or, eq_comm]

theorem isFree_eq_not_isUsed (s : Search) (cs : List Placed) (x : Placed) :
    s.isFree cs x = !(s.after cs).isUsed x.2 := by
  rw [isUsed_after, isFree, Bool.not_or, decide_not]

@[simp] theorem isUsed_withStall (s : Search) (st : Option Stall) (i : Nat) :
    (s.withStall st).isUsed i = s.isUsed i := rfl

theorem record_eq_withStall (s : Search) (c : Certificate) :
    s.record c = s.withStall (s.record c).stall := by
  unfold record
  split <;> rfl

theorem leave_enter {s : Search} {i : Nat} (h : s.isUsed i = false) (c : Certificate)
    (st : Option Stall) : ((s.enter i c).withStall st).leave i = s.withStall st := by
  have hu : (s.used.set i true).set i false = s.used := by
    rw [List.set_set]
    apply List.ext_getElem?
    intro j
    simp only [isUsed, List.getD_eq_getElem?_getD] at h
    by_cases hij : i = j
    · subst hij
      cases hi : s.used[i]? with
      | none => simp [hi] at h
      | some u =>
        have hl := (List.getElem?_eq_some_iff.1 hi).1
        simp_all
    · simp [hij]
  simp [leave, enter, withStall, hu]

end Search

variable (b : PathBuilder) (p : Partition) (s : Search) (root : Certificate)

/-- The attempt to step to an intermediate, with what is done beyond it if it issued the last
certificate. -/
def branch (cs : List Placed) (x : Placed) (beyond : List Event) : List Event :=
  .step cs x :: if b.issuedBy (top root cs) x.1 matches .ok true then beyond else []

/-- All that a search does on up to `levels` more intermediates if no attempt ever ends it. The
chain stands above `root`, where the search state was `s`. -/
def trace : Nat → List Placed → List Event
  | 0, cs => p.anchors.map (.anchor cs) ++ [.deadEnd cs]
  | n + 1, cs =>
    p.anchors.map (.anchor cs) ++
      (p.intermediates.zipIdx.filter (s.isFree cs)).flatMap
        (fun x ↦ b.branch root cs x (trace n (cs ++ [x]))) ++
      [.deadEnd cs]

/-- What an event by itself comes to, if to anything: an error, or an anchor with the chain below
it. -/
def attempt : Event → Option (Except TrustError (List Placed × Certificate))
  | .anchor cs a =>
    match b.issuedBy (top root cs) a with
    | .error err => some (.error err)
    | .ok true => some (.ok (cs, a))
    | .ok false => none
  | .step cs x =>
    match b.issuedBy (top root cs) x.1 with
    | .error err => some (.error err)
    | .ok _ => none
  | .deadEnd _ => none

/-- The deepest dead end known after an event, the first of them if there are several. -/
def note : Event → Option Stall → Option Stall
  | .deadEnd cs, st => (((s.after cs).withStall st).record (top root cs)).stall
  | _, st => st

def follow : List Event → Option Stall →
    Except TrustError (Option (List Placed × Certificate) × Option Stall)
  | [], st => .ok (none, st)
  | e :: es, st =>
    match b.attempt root e with
    | some (.error err) => .error err
    | some (.ok r) => .ok (some r, st)
    | none => follow es (note s root e st)

def outcome (cs : List Placed) :
    Option (List Placed × Certificate) × Option Stall → Option Certificate × Search
  | (some (ds, a), st) => (some a, (s.after ds).withStall st)
  | (none, st) => (none, (s.after cs).withStall st)

theorem follow_append (es fs : List Event) (st : Option Stall) :
    b.follow s root (es ++ fs) st =
      match b.follow s root es st with
      | .error err => .error err
      | .ok (some r, st') => .ok (some r, st')
      | .ok (none, st') => b.follow s root fs st' := by
  induction es generalizing st with
  | nil => simp [follow]
  | cons e es ih =>
    simp only [List.cons_append, follow]
    split <;> simp_all

theorem follow_eq_findSome? (es : List Event) (st : Option Stall) :
    (b.follow s root es st).map Prod.fst =
      match es.findSome? (b.attempt root) with
      | some (.error err) => .error err
      | some (.ok r) => .ok (some r)
      | none => .ok none := by
  induction es generalizing st with
  | nil => rfl
  | cons e es ih =>
    rw [follow, List.findSome?_cons]
    cases b.attempt root e with
    | none => exact ih _
    | some r => cases r <;> rfl

theorem findSome?_of_follow {es : List Event} {st st' : Option Stall}
    {r : List Placed × Certificate} (h : b.follow s root es st = .ok (some r, st')) :
    es.findSome? (b.attempt root) = some (.ok r) := by
  have hf := b.follow_eq_findSome? s root es st
  rw [h] at hf
  cases hes : es.findSome? (b.attempt root) with
  | none =>
    rw [hes] at hf
    cases hf
  | some q =>
    rw [hes] at hf
    cases q with
    | error e => cases hf
    | ok q =>
      cases hf
      rfl

theorem follow_of_findSome?_eq_none {es : List Event} (h : es.findSome? (b.attempt root) = none)
    (st : Option Stall) :
    b.follow s root es st = .ok (none, es.foldl (fun st e ↦ note s root e st) st) := by
  induction es generalizing st with
  | nil => rfl
  | cons e es ih =>
    rw [List.findSome?_eq_none_iff, List.forall_mem_cons] at h
    rw [follow, h.1]
    exact ih (List.findSome?_eq_none_iff.2 h.2) _

theorem follow_anchors (cs : List Placed) (as : List Certificate) (es : List Event)
    (st : Option Stall) :
    b.follow s root (as.map (.anchor cs) ++ es) st =
      match b.anchorOf (top root cs) as with
      | .error err => .error err
      | .ok (some a) => .ok (some (cs, a), st)
      | .ok none => b.follow s root es st := by
  induction as with
  | nil => rfl
  | cons a as ih =>
    simp only [List.map_cons, List.cons_append, follow, attempt, anchorOf]
    cases b.issuedBy (top root cs) a with
    | error e => rfl
    | ok r => cases r with
      | false => exact ih
      | true => rfl

theorem follow_branch (cs : List Placed) (x : Placed) (beyond es : List Event)
    (st : Option Stall) :
    b.follow s root (b.branch root cs x beyond ++ es) st =
      match b.issuedBy (top root cs) x.1 with
      | .error err => .error err
      | .ok true => b.follow s root (beyond ++ es) st
      | .ok false => b.follow s root es st := by
  simp only [branch, List.cons_append, follow, attempt]
  cases b.issuedBy (top root cs) x.1 with
  | error e => rfl
  | ok r => cases r <;> rfl

theorem follow_deadEnd (cs : List Placed) (st : Option Stall) :
    (b.follow s root [.deadEnd cs] st).map (outcome s cs) =
      .ok (none, ((s.after cs).withStall st).record (top root cs)) := by
  rw [Search.record_eq_withStall]
  rfl

theorem tryEach_eq_follow (next : Search → Certificate → Step) (beyond : List Placed → List Event)
    (cs : List Placed)
    (hnext : ∀ (x : Placed) (st : Option Stall), next ((s.after (cs ++ [x])).withStall st) x.1 =
      (b.follow s root (beyond (cs ++ [x])) st).map (outcome s (cs ++ [x])))
    (xs : List Placed) (st : Option Stall) :
    b.tryEach (top root cs) next xs ((s.after cs).withStall st) =
      (b.follow s root ((xs.filter (s.isFree cs)).flatMap
        (fun x ↦ b.branch root cs x (beyond (cs ++ [x]))) ++ [.deadEnd cs]) st).map
          (outcome s cs) := by
  induction xs generalizing st with
  | nil => exact (b.follow_deadEnd s root cs st).symm
  | cons x xs ih =>
    obtain ⟨c, i⟩ := x
    have hu : (s.after cs).isUsed i = !s.isFree cs (c, i) := by
      simp [Search.isFree_eq_not_isUsed]
    cases hf : s.isFree cs (c, i) with
    | false => simp [tryEach, hu, hf, ih]
    | true =>
      rw [hf] at hu
      rw [List.filter_cons_of_pos hf, List.flatMap_cons, List.append_assoc, follow_branch, tryEach,
        Search.isUsed_withStall, hu]
      cases b.issuedBy (top root cs) c with
      | error e => rfl
      | ok r =>
        cases r with
        | false => exact ih st
        | true =>
          have hn := hnext (c, i) st
          rw [Search.after_concat] at hn
          change (next (((s.after cs).enter i c).withStall st) c >>= _) = _
          rw [hn, follow_append]
          cases hb : b.follow s root (beyond (cs ++ [(c, i)])) st with
          | error e => rfl
          | ok r =>
            obtain ⟨r, st'⟩ := r
            cases r with
            | some r => rfl
            | none =>
              change b.tryEach (top root cs) next xs
                (((s.after (cs ++ [(c, i)])).withStall st').leave i) = _
              rw [Search.after_concat, Search.leave_enter hu, ih]

/-- A search does what its trace says, and puts back what it changed where that leads nowhere. -/
theorem descend_eq_follow (n : Nat) (cs : List Placed) (st : Option Stall) :
    b.descend p n ((s.after cs).withStall st) (top root cs) =
      (b.follow s root (b.trace p s root n cs) st).map (outcome s cs) := by
  induction n generalizing cs st with
  | zero =>
    rw [trace, follow_anchors, descend]
    cases b.anchorOf (top root cs) p.anchors with
    | error e => rfl
    | ok r => cases r with
      | none => exact (b.follow_deadEnd s root cs st).symm
      | some a => rfl
  | succ n ih =>
    have hstep := b.tryEach_eq_follow s root (b.descend p n) (b.trace p s root n) cs
      (fun x st ↦ by simpa using ih (cs ++ [x]) st) p.intermediates.zipIdx st
    rw [trace, List.append_assoc, follow_anchors, descend]
    cases b.anchorOf (top root cs) p.anchors with
    | error e => rfl
    | ok r => cases r with
      | none => exact hstep
      | some a => rfl

theorem extend_eq_follow :
    b.extend p s root =
      (b.follow s root (b.trace p s root (b.maxDepth - 2 - s.chain.length) []) s.stall).map
        (outcome s []) :=
  b.descend_eq_follow p s root _ [] s.stall

end CertPath.PathBuilder
