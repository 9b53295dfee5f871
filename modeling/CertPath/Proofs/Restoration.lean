import CertPath.Proofs.Completeness

namespace CertPath.PathBuilder

/-- The states of a search so far: where it stands, and where it stood before, the latest first. -/
structure Course where
  now : Search
  past : List Search

namespace Course

def start (s : Search) : Course := ⟨s, []⟩

def states (h : Course) : List Search := h.now :: h.past

def move (h : Course) (s : Search) : Course := ⟨s, h.states⟩

end Course

inductive Search.Next (s : Search) : Search → Prop
  | enter {i : ℕ} (c : Certificate) : s.isUsed i = false → Next s (s.enter i c)
  | leave (i : ℕ) : Next s (s.leave i)
  | record (c : Certificate) : Next s (s.record c)

/-- If a dead end is noted in `s`, one at least as deep is noted in `t`. -/
def Search.NotedIn (s t : Search) : Prop := ∀ u ∈ s.stall, ∃ v ∈ t.stall, u.depth ≤ v.depth

structure Course.Orderly (bound : ℕ) (h : Course) : Prop where
  stepwise : h.states.IsChain fun t s ↦ s.Next t
  short : ∀ s ∈ h.states, s.chain.length ≤ bound

/-- The outcome of a search step whose states are kept, also when it fails. -/
structure Tracked where
  outcome : Except TrustError (Option Certificate)
  course : Course

def Tracked.step (r : Tracked) : Step := r.outcome.map fun o ↦ (o, r.course.now)

def tryEachTracked (b : PathBuilder) (current : Certificate)
    (next : Course → Certificate → Tracked) : List Placed → Course → Tracked
  | [], h => ⟨.ok none, h.move (h.now.record current)⟩
  | (c, i) :: cs, h =>
    if h.now.isUsed i then tryEachTracked b current next cs h
    else
      match b.issuedBy current c with
      | .error e => ⟨.error e, h⟩
      | .ok false => tryEachTracked b current next cs h
      | .ok true =>
        match next (h.move (h.now.enter i c)) c with
        | ⟨.ok none, t⟩ => tryEachTracked b current next cs (t.move (t.now.leave i))
        | r => r

def descendTracked (b : PathBuilder) (p : Partition) : Nat → Course → Certificate → Tracked
  | levels, h, current =>
    match b.anchorOf current p.anchors with
    | .error e => ⟨.error e, h⟩
    | .ok (some a) => ⟨.ok (some a), h⟩
    | .ok none =>
      match levels with
      | 0 => ⟨.ok none, h.move (h.now.record current)⟩
      | n + 1 => tryEachTracked b current (descendTracked b p n) p.intermediates.zipIdx h

/-- A search step that changes its state in place, with all the states it comes to. -/
def extendTracked (b : PathBuilder) (p : Partition) (s : Search) (current : Certificate) : Tracked :=
  descendTracked b p (b.maxDepth - 2 - s.chain.length) (.start s) current

variable {b : PathBuilder} {p : Partition} {s t : Search} {current : Certificate}

section Step

theorem step_tryEachTracked {next : Course → Certificate → Tracked}
    {next' : Search → Certificate → Step} (hnext : ∀ h c, (next h c).step = next' h.now c)
    (cs : List Placed) (h : Course) :
    (b.tryEachTracked current next cs h).step = b.tryEach current next' cs h.now := by
  induction cs generalizing h with
  | nil => rfl
  | cons x cs ih =>
    obtain ⟨c, i⟩ := x
    rw [tryEachTracked, tryEach]
    cases h.now.isUsed i with
    | true => exact ih h
    | false =>
      cases b.issuedBy current c with
      | error e => rfl
      | ok r =>
        cases r with
        | false => exact ih h
        | true =>
          have hc : (next (h.move (h.now.enter i c)) c).step = next' (h.now.enter i c) c := hnext _ c
          change _ = (next' (h.now.enter i c) c >>= _)
          rw [← hc]
          rcases next (h.move (h.now.enter i c)) c with ⟨e | o, t⟩
          · rfl
          · cases o with
            | some a => rfl
            | none => exact ih _

theorem step_descendTracked (n : ℕ) (h : Course) (current : Certificate) :
    (b.descendTracked p n h current).step = b.descend p n h.now current := by
  induction n generalizing h current with
  | zero =>
    rw [descendTracked, descend]
    cases b.anchorOf current p.anchors with
    | error e => rfl
    | ok r => cases r <;> rfl
  | succ n ih =>
    rw [descendTracked, descend]
    cases b.anchorOf current p.anchors with
    | error e => rfl
    | ok r =>
      cases r with
      | some a => rfl
      | none => exact step_tryEachTracked ih _ h

end Step

section Order

theorem Search.NotedIn.refl (s : Search) : s.NotedIn s := fun u hu ↦ ⟨u, hu, le_rfl⟩

theorem Search.NotedIn.trans {u : Search} (hst : s.NotedIn t) (htu : t.NotedIn u) : s.NotedIn u := by
  intro x hx
  obtain ⟨y, hy, hxy⟩ := hst x hx
  obtain ⟨z, hz, hyz⟩ := htu y hy
  exact ⟨z, hz, hxy.trans hyz⟩

theorem Search.notedIn_record (s : Search) (c : Certificate) : s.NotedIn (s.record c) := by
  intro u hu
  rw [Option.mem_def] at hu
  simp only [record, hu, Option.any_some, decide_eq_true_eq]
  split
  · exact ⟨u, hu, le_rfl⟩
  · rename_i hdeeper
    exact ⟨_, rfl, le_of_not_ge hdeeper⟩

theorem Search.Next.notedIn (h : s.Next t) : s.NotedIn t := by
  cases h with
  | enter c hi => exact .refl s
  | leave i => exact .refl s
  | record c => exact s.notedIn_record c

@[simp] theorem Search.record_chain (s : Search) (c : Certificate) : (s.record c).chain = s.chain := by
  unfold record
  split <;> rfl

variable {bound : ℕ} {h : Course}

theorem Course.orderly_start (hs : s.chain.length ≤ bound) : (start s).Orderly bound :=
  ⟨.singleton s, by simpa [start, states] using hs⟩

theorem Course.Orderly.move (ho : h.Orderly bound) (hs : h.now.Next s)
    (hlen : s.chain.length ≤ bound) : (h.move s).Orderly bound :=
  ⟨.cons_cons hs ho.stepwise, List.forall_mem_cons.2 ⟨hlen, ho.short⟩⟩

theorem Course.Orderly.pairwise_notedIn (ho : h.Orderly bound) :
    h.states.Pairwise fun t s ↦ s.NotedIn t := by
  have htrans : IsTrans Search fun t s ↦ s.NotedIn t := ⟨fun _ _ _ hst htu ↦ htu.trans hst⟩
  exact (ho.stepwise.imp fun _ _ hs ↦ hs.notedIn).pairwise

variable (bound h) in
structure Continues (r : Tracked) : Prop where
  orderly : r.course.Orderly bound
  suffix : h.states <:+ r.course.states
  chain : r.outcome = .ok none → r.course.now.chain = h.now.chain

theorem continues_of_stay (ho : h.Orderly bound) (o : Except TrustError (Option Certificate)) :
    Continues bound h ⟨o, h⟩ := ⟨ho, List.suffix_rfl, fun _ ↦ rfl⟩

theorem continues_record (ho : h.Orderly bound) (current : Certificate) :
    Continues bound h ⟨.ok none, h.move (h.now.record current)⟩ := by
  have hlen : (h.now.record current).chain.length ≤ bound := by
    rw [Search.record_chain]
    exact ho.short _ List.mem_cons_self
  exact ⟨ho.move (.record current) hlen, List.suffix_cons _ _,
    fun _ ↦ h.now.record_chain current⟩

theorem continues_tryEach {n : ℕ} {next : Course → Certificate → Tracked}
    (hnext : ∀ h c, h.Orderly bound → h.now.chain.length + n ≤ bound → Continues bound h (next h c))
    (cs : List Placed) (ho : h.Orderly bound) (hroom : h.now.chain.length + (n + 1) ≤ bound) :
    Continues bound h (b.tryEachTracked current next cs h) := by
  induction cs generalizing h with
  | nil => exact continues_record ho current
  | cons x cs ih =>
    obtain ⟨c, i⟩ := x
    rw [tryEachTracked]
    cases hu : h.now.isUsed i with
    | true => exact ih ho hroom
    | false =>
      cases b.issuedBy current c with
      | error e => exact continues_of_stay ho _
      | ok r =>
        cases r with
        | false => exact ih ho hroom
        | true =>
          have hlen : (h.now.enter i c).chain.length = h.now.chain.length + 1 :=
            List.length_append
          have hentered : (h.move (h.now.enter i c)).Orderly bound :=
            ho.move (.enter c hu) (by omega)
          have hc : Continues bound (h.move (h.now.enter i c)) (next (h.move (h.now.enter i c)) c) :=
            hnext _ c hentered (by change (h.now.enter i c).chain.length + n ≤ bound; omega)
          have hsuffix : h.states <:+ (next (h.move (h.now.enter i c)) c).course.states :=
            (List.suffix_cons _ _).trans hc.suffix
          rcases hr : next (h.move (h.now.enter i c)) c with ⟨e | o, t⟩
          · rw [hr] at hc hsuffix
            exact ⟨hc.orderly, hsuffix, nofun⟩
          · rw [hr] at hc hsuffix
            cases o with
            | some a => exact ⟨hc.orderly, hsuffix, nofun⟩
            | none =>
              have hchain : (t.now.leave i).chain = h.now.chain := by
                have hkept : t.now.chain = h.now.chain ++ [c] := hc.chain rfl
                simp [Search.leave, hkept]
              have hleft : (t.move (t.now.leave i)).Orderly bound :=
                hc.orderly.move (.leave i) (by rw [hchain]; omega)
              have hrest := ih hleft (by change (t.now.leave i).chain.length + _ ≤ _; rwa [hchain])
              exact ⟨hrest.orderly, (hsuffix.trans (List.suffix_cons _ _)).trans hrest.suffix,
                fun hn ↦ (hrest.chain hn).trans hchain⟩

theorem continues_descend (n : ℕ) (ho : h.Orderly bound) (hroom : h.now.chain.length + n ≤ bound)
    (current : Certificate) : Continues bound h (b.descendTracked p n h current) := by
  induction n generalizing h current with
  | zero =>
    rw [descendTracked]
    cases b.anchorOf current p.anchors with
    | error e => exact continues_of_stay ho _
    | ok r =>
      cases r with
      | some a => exact continues_of_stay ho _
      | none => exact continues_record ho current
  | succ n ih =>
    rw [descendTracked]
    cases b.anchorOf current p.anchors with
    | error e => exact continues_of_stay ho _
    | ok r =>
      cases r with
      | some a => exact continues_of_stay ho _
      | none => exact continues_tryEach (fun h c ho hroom ↦ ih ho hroom c) _ ho hroom

end Order

section Outcome

variable {a : Certificate} {cs : List Placed}

theorem Search.isUsed_eq_false_iff {i : ℕ} : s.isUsed i = false ↔ s.used[i]? = some false := by
  rw [isUsed, List.getD_eq_getElem?_getD]
  cases s.used[i]? <;> simp

theorem Search.getElem?_used_after (hcs : ∀ x ∈ cs, x.2 < s.used.length) (i : ℕ) :
    (s.after cs).used[i]? = if i ∈ cs.map Prod.snd then some true else s.used[i]? := by
  induction cs generalizing s with
  | nil => simp
  | cons x cs ih =>
    obtain ⟨hx, hcs⟩ := List.forall_mem_cons.1 hcs
    have hrest : ∀ y ∈ cs, y.2 < (s.enter x.2 x.1).used.length := by
      intro y hy
      rw [enter, List.length_set]
      exact hcs y hy
    change ((s.enter x.2 x.1).after cs).used[i]? = _
    rw [ih hrest]
    simp only [enter, List.getElem?_set, List.map_cons, List.mem_cons]
    by_cases hi : i ∈ cs.map Prod.snd
    · simp [hi]
    · by_cases hxi : x.2 = i
      · subst hxi
        simp [hx]
      · simp [hi, hxi, Ne.symm hxi]

variable (b p s current) in
/-- Where a search stands that went up from `current` through `cs` to the anchor `a`. -/
structure Reached (cs : List Placed) (a : Certificate) (t : Search) : Prop where
  anchor : a ∈ p.anchors
  placed : ∀ x ∈ cs, p.intermediates[x.2]? = some x.1
  unused : ∀ x ∈ cs, s.used[x.2]? = some false
  distinct : (cs.map Prod.snd).Nodup
  linked : (current :: cs.map Prod.fst ++ [a]).IsChain b.verifier.Issued
  chain : t.chain = s.chain ++ cs.map Prod.fst
  used : ∀ i : ℕ, t.used[i]? = if i ∈ cs.map Prod.snd then some true else s.used[i]?

theorem reached_of_trace {n : ℕ} {st : Option Stall}
    (h : (b.trace p s current n []).findSome? (b.attempt current) = some (.ok (cs, a))) :
    b.Reached p s current cs a ((s.after cs).withStall st) := by
  obtain ⟨e, he, hattempt⟩ := List.exists_of_findSome?_eq_some h
  obtain ⟨rfl, hissued⟩ := b.attempt_eq_ok current hattempt
  obtain ⟨ds, hclimbs, -, hm⟩ := (b.mem_trace_iff p s current n [] _).1 he
  obtain ⟨ha, rfl⟩ := mem_eventsAt_anchor_iff.1 hm
  obtain ⟨hfree, hdistinct, hlinked⟩ := (b.climbs_iff p s current [] _).1 hclimbs
  have hunused : ∀ x ∈ cs, s.used[x.2]? = some false := by
    intro x hx
    rw [← Search.isUsed_eq_false_iff]
    simpa [Search.isFree] using (hfree x hx).2
  have hplaces : ∀ x ∈ cs, x.2 < s.used.length :=
    fun x hx ↦ (List.getElem?_eq_some_iff.1 (hunused x hx)).1
  exact ⟨ha, fun x hx ↦ List.mem_zipIdx_iff_getElem?.1 (hfree x hx).1, hunused, hdistinct,
    isChain_concat hlinked hissued, Search.after_chain s cs, Search.getElem?_used_after hplaces⟩

theorem exists_follow_of_extend {r : Option Certificate} (h : b.extend p s current = .ok (r, t)) :
    ∃ q, b.follow s current (b.trace p s current (b.maxDepth - 2 - s.chain.length) []) s.stall =
      .ok q ∧ outcome s [] q = (r, t) := by
  rw [b.extend_eq_follow] at h
  cases hf : b.follow s current (b.trace p s current (b.maxDepth - 2 - s.chain.length) [])
      s.stall with
  | error e =>
    rw [hf] at h
    cases h
  | ok q =>
    rw [hf] at h
    exact ⟨q, rfl, Except.ok.inj h⟩

theorem restored_of_extend (h : b.extend p s current = .ok (none, t)) :
    t.chain = s.chain ∧ t.used = s.used := by
  obtain ⟨⟨o, st⟩, -, hq⟩ := exists_follow_of_extend h
  cases o with
  | none =>
    cases hq
    exact ⟨rfl, rfl⟩
  | some r => cases hq

theorem reached_of_extend (h : b.extend p s current = .ok (some a, t)) :
    ∃ cs, b.Reached p s current cs a t := by
  obtain ⟨⟨o, st⟩, hf, hq⟩ := exists_follow_of_extend h
  cases o with
  | none => cases hq
  | some r =>
    obtain ⟨cs, d⟩ := r
    cases hq
    exact ⟨cs, reached_of_trace (b.findSome?_of_follow s current hf)⟩

end Outcome

variable (b p s current) in
/-- A search step that finds nothing leaves chain and flags as they were, and one that finds an anchor
adds to them what leads there. Even where it fails it has never gone beyond its bound, nor lost a dead
end that it noted. -/
theorem extend_restores :
    (∀ t, b.extend p s current = .ok (none, t) → t.chain = s.chain ∧ t.used = s.used) ∧
    (∀ a t, b.extend p s current = .ok (some a, t) → ∃ cs, b.Reached p s current cs a t) ∧
    (b.extendTracked p s current).step = b.extend p s current ∧
    [s] <:+ (b.extendTracked p s current).course.states ∧
    (b.extendTracked p s current).course.Orderly (max s.chain.length (b.maxDepth - 2)) ∧
    (b.extendTracked p s current).course.states.Pairwise fun t s ↦ s.NotedIn t := by
  have hstart : (Course.start s).Orderly (max s.chain.length (b.maxDepth - 2)) :=
    Course.orderly_start (le_max_left _ _)
  have hroom : s.chain.length + (b.maxDepth - 2 - s.chain.length) ≤
      max s.chain.length (b.maxDepth - 2) := by omega
  have hcourse := continues_descend (b := b) (p := p) _ hstart hroom current
  refine ⟨fun t ↦ restored_of_extend, fun a t ↦ reached_of_extend, ?_, hcourse.suffix,
    hcourse.orderly, hcourse.orderly.pairwise_notedIn⟩
  exact step_descendTracked _ (.start s) current

def sampleOrchard (anchors : List Certificate) : Partition :=
  ⟨anchors, [.sample 'C' 'B' [], .sample 'B' 'X' [], .sample 'B' 'A' []]⟩

def sampleHalfway : Search := ⟨[true, false, false], [.sample 'C' 'B' []], none⟩

theorem extend_restores_halfway :
    (∃ t, extend ⟨.sample, 4⟩ (sampleOrchard []) sampleHalfway (.sample 'C' 'B' []) =
        .ok (none, t) ∧
      t.stall = some ⟨2, .sample 'B' 'X' []⟩ ∧ t.chain = sampleHalfway.chain ∧
      t.used = sampleHalfway.used) ∧
    ∃ t cs, extend ⟨.sample, 4⟩ (sampleOrchard [.sample 'A' 'A' []]) sampleHalfway
        (.sample 'C' 'B' []) = .ok (some (.sample 'A' 'A' []), t) ∧
      t.stall = some ⟨2, .sample 'B' 'X' []⟩ ∧
      Reached ⟨.sample, 4⟩ (sampleOrchard [.sample 'A' 'A' []]) sampleHalfway (.sample 'C' 'B' []) cs
        (.sample 'A' 'A' []) t := by
  have hnone : extend ⟨.sample, 4⟩ (sampleOrchard []) sampleHalfway (.sample 'C' 'B' []) =
      .ok (none, { sampleHalfway with stall := some ⟨2, .sample 'B' 'X' []⟩ }) := by decide +kernel
  have hsome : extend ⟨.sample, 4⟩ (sampleOrchard [.sample 'A' 'A' []]) sampleHalfway
      (.sample 'C' 'B' []) = .ok (some (.sample 'A' 'A' []),
        ⟨[true, false, true], [.sample 'C' 'B' [], .sample 'B' 'A' []],
          some ⟨2, .sample 'B' 'X' []⟩⟩) := by decide +kernel
  obtain ⟨cs, hreached⟩ := (extend_restores _ _ _ _).2.1 _ _ hsome
  exact ⟨⟨_, hnone, rfl, (extend_restores _ _ _ _).1 _ hnone⟩, _, cs, hsome, rfl, hreached⟩

end CertPath.PathBuilder
