import CertPath.Proofs.Settlement

namespace CertPath

namespace RevocationChecker

variable (k : RevocationChecker) (c : Certificate) (issuer : Option Certificate)

/-- Workers side by side are through with the points `ps` when they have looked at `qs`: at all up
to the first that says something, and at any behind it. -/
inductive Looks : List DistributionPoint → List DistributionPoint → Prop
  | nil : Looks [] []
  | silent {p : DistributionPoint} {ps qs : List DistributionPoint} :
      k.Silent c issuer p → Looks ps qs → Looks (p :: ps) (p :: qs)
  | decided {p : DistributionPoint} {ps qs : List DistributionPoint} :
      ¬ k.Silent c issuer p → qs.Sublist ps → Looks (p :: ps) (p :: qs)

/-- What may come of a check by several workers. Of all points looked at the first that says
something counts, whichever was looked at first. -/
inductive Checks : Asked RevocationStatus → Prop
  | unreadable {e : TrustError} : c.distributionPoints = .error e → Checks ⟨.error e, []⟩
  | looked {ps qs : List DistributionPoint} : c.distributionPoints = .ok ps →
      k.Looks c issuer ps qs → Checks ⟨(k.scan c issuer qs).outcome, qs.flatMap asks⟩

variable {k c issuer} {p q : DistributionPoint} {ps qs : List DistributionPoint}
  {r : Asked RevocationStatus}

theorem mem_asks_iff : q ∈ asks p ↔ q = p ∧ (Scheme.of? p.url).isSome := by
  unfold asks
  split <;> simp_all

theorem scan_cons_of_not_silent (h : ¬ k.Silent c issuer p) (ps qs : List DistributionPoint) :
    k.scan c issuer (p :: ps) = k.scan c issuer (p :: qs) := by
  rcases k.silent_or_hit_or_fatal c issuer p with hs | ⟨reason, hr⟩ | ⟨e, he⟩
  · exact absurd hs h
  · rw [scan_of_hit hr, scan_of_hit hr]
  · rw [scan_of_fatal he, scan_of_fatal he]

namespace Looks

theorem outcome_eq (h : k.Looks c issuer ps qs) :
    (k.scan c issuer qs).outcome = (k.scan c issuer ps).outcome := by
  induction h with
  | nil => rfl
  | silent hp h ih =>
    rw [scan_of_silent hp, scan_of_silent hp]
    exact ih
  | decided hp h => rw [scan_cons_of_not_silent hp]

theorem sublist (h : k.Looks c issuer ps qs) : qs.Sublist ps := by
  induction h with
  | nil => exact .slnil
  | silent hp h ih => exact ih.cons_cons _
  | decided hp h => exact h.cons_cons _

theorem eq_of_forall_silent (h : k.Looks c issuer ps qs) (hs : ∀ p ∈ ps, k.Silent c issuer p) :
    qs = ps := by
  induction h with
  | nil => rfl
  | silent hp h ih => rw [ih (List.forall_mem_cons.1 hs).2]
  | decided hp h => exact absurd (List.forall_mem_cons.1 hs).1 hp

end Looks

variable (k c issuer) in
theorem exists_looks_of_scan (ps : List DistributionPoint) :
    ∃ qs, k.Looks c issuer ps qs ∧
      k.scan c issuer ps = ⟨(k.scan c issuer qs).outcome, qs.flatMap asks⟩ := by
  induction ps with
  | nil => exact ⟨[], .nil, rfl⟩
  | cons p ps ih =>
    by_cases hp : k.Silent c issuer p
    · obtain ⟨qs, hqs, hscan⟩ := ih
      refine ⟨p :: qs, .silent hp hqs, ?_⟩
      rw [scan_of_silent hp, scan_of_silent hp, hscan]
      rfl
    · refine ⟨[p], .decided hp (List.nil_sublist ps), ?_⟩
      rw [scan_cons_of_not_silent hp ps []]
      rcases k.silent_or_hit_or_fatal c issuer p with hs | ⟨reason, hr⟩ | ⟨e, he⟩
      · exact absurd hs hp
      · rw [scan_of_hit hr]
        simp
      · rw [scan_of_fatal he]
        simp

theorem checks_check : k.Checks c issuer (k.check c issuer) := by
  cases hd : c.distributionPoints with
  | error e =>
    rw [check, hd]
    exact .unreadable hd
  | ok ps =>
    obtain ⟨qs, hqs, hscan⟩ := k.exists_looks_of_scan c issuer ps
    rw [check_of_distributionPoints hd, hscan]
    exact .looked hd hqs

namespace Checks

theorem outcome_eq (h : k.Checks c issuer r) : r.outcome = (k.check c issuer).outcome := by
  cases h with
  | unreadable hd => rw [check, hd]
  | looked hd h => rw [check_of_distributionPoints hd, h.outcome_eq]

theorem ne_notChecked (h : k.Checks c issuer r) : r.outcome ≠ .ok .notChecked := by
  rw [h.outcome_eq]
  exact check_ne_notChecked

theorem of_mem_points (h : k.Checks c issuer r) (hq : q ∈ r.points) :
    (Scheme.of? q.url).isSome ∧ ∃ ps, c.distributionPoints = .ok ps ∧ q ∈ ps := by
  cases h with
  | unreadable hd => cases hq
  | @looked ps qs hd h =>
    obtain ⟨p, hp, hqp⟩ := List.mem_flatMap.1 hq
    obtain ⟨rfl, hs⟩ := mem_asks_iff.1 hqp
    exact ⟨hs, ps, hd, h.sublist.subset hp⟩

theorem points_of_notRevoked (h : k.Checks c issuer r) (hr : r.outcome = .ok .notRevoked) :
    c.distributionPoints = .ok r.points := by
  cases h with
  | unreadable hd => cases hr
  | @looked ps qs hd h =>
    have hs : ∀ p ∈ ps, k.Silent c issuer p := by
      rw [← scan_eq_notRevoked_iff, ← h.outcome_eq]
      exact hr
    obtain rfl := h.eq_of_forall_silent hs
    change _ = Except.ok (qs.flatMap asks)
    rw [hd, flatMap_asks hs]

end Checks

end RevocationChecker

namespace TrustChainValidator

open RevocationChecker

variable (t : TrustChainValidator) (S : ListSource → Prop) (leaf : Certificate)
  (pool : List Certificate) (p : CertificationPath)

/-- What may come of the check of a link. The source may change its mind between checks, each of
which finds it as one of `S` and asks it for no point twice. -/
def Examines (l : Certificate × Certificate) (r : Asked RevocationStatus) : Prop :=
  ∃ s, S s ∧ (revocationChecker { t with source := s }).Checks l.1 (some l.2) r

inductive Settles : Asked (List RevocationStatus) → Prop
  | unchecked : t.options.checkRevocation = false →
      Settles ⟨.ok (List.replicate p.length .notChecked), []⟩
  | checked {rs : List (Asked RevocationStatus)} : t.options.checkRevocation = true →
      List.Forall₂ (t.Examines S) p.links rs →
      Settles ⟨(settle ((p.links.map Prod.fst).zip (rs.map (·.outcome)))).map (· ++ [.notChecked]),
        rs.flatMap (·.points)⟩

inductive Run : Asked VerifiedPath → Prop
  | noPath {e : TrustError} : t.findPath leaf pool = .error e → Run ⟨.error e, []⟩
  | settled {p : CertificationPath} {s : Asked (List RevocationStatus)} :
      t.findPath leaf pool = .ok p → t.Settles S p s →
      Run ⟨s.outcome.map fun x ↦ ⟨p, entries p x⟩, s.points⟩

variable {t S leaf pool p}

section Links

variable {ls : List (Certificate × Certificate)} {rs : List (Asked RevocationStatus)}

theorem map_outcome_of_steady (h : List.Forall₂ (t.Examines (· = t.source)) ls rs) :
    rs.map (·.outcome) = ls.map fun l ↦ (t.revocationChecker.check l.1 (some l.2)).outcome := by
  induction h with
  | nil => rfl
  | cons hl h ih =>
    obtain ⟨s, rfl, hr⟩ := hl
    rw [List.map_cons, List.map_cons, hr.outcome_eq, ih]

variable (h : List.Forall₂ (t.Examines S) ls rs)

include h

theorem exists_link_of_mem_points {q : DistributionPoint} (hq : q ∈ rs.flatMap (·.points)) :
    ∃ l ∈ ls, (Scheme.of? q.url).isSome ∧ ∃ ps, l.1.distributionPoints = .ok ps ∧ q ∈ ps := by
  induction h with
  | nil => cases hq
  | @cons l r ls rs hl h ih =>
    rw [List.flatMap_cons] at hq
    rcases List.mem_append.1 hq with hq | hq
    · obtain ⟨s, -, hr⟩ := hl
      exact ⟨l, List.mem_cons_self, hr.of_mem_points hq⟩
    · obtain ⟨l', hl', hx⟩ := ih hq
      exact ⟨l', List.mem_cons_of_mem _ hl', hx⟩

theorem mem_points_of_settle {x : List RevocationStatus}
    (hx : settle ((ls.map Prod.fst).zip (rs.map (·.outcome))) = .ok x)
    {l : Certificate × Certificate} (hl : l ∈ ls) {ps : List DistributionPoint}
    (hps : l.1.distributionPoints = .ok ps) {q : DistributionPoint} (hq : q ∈ ps) :
    q ∈ rs.flatMap (·.points) := by
  induction h generalizing x with
  | nil => cases hl
  | @cons l' r ls rs hlr h ih =>
    obtain ⟨s, -, hr⟩ := hlr
    rw [List.map_cons, List.map_cons, List.zip_cons_cons] at hx
    obtain ⟨hn, y, hy⟩ := notRevoked_of_settle_cons hx hr.ne_notChecked
    rw [List.flatMap_cons]
    rcases List.mem_cons.1 hl with rfl | hl
    · have hpoints := hr.points_of_notRevoked hn
      rw [hps, Except.ok.injEq] at hpoints
      exact List.mem_append_left _ (hpoints ▸ hq)
    · exact List.mem_append_right _ (ih hy hl)

end Links

theorem zip_outcome_of_steady {rs : List (Asked RevocationStatus)}
    (h : List.Forall₂ (t.Examines (· = t.source)) p.links rs) :
    (p.links.map Prod.fst).zip (rs.map (·.outcome)) = t.checks p := by
  rw [map_outcome_of_steady h, List.zip_map']
  rfl

namespace Settles

variable {s : Asked (List RevocationStatus)}

theorem outcome_eq (h : t.Settles (· = t.source) p s) : s.outcome = (t.statuses p).outcome := by
  cases h with
  | unchecked ho => rw [statuses, if_neg (by simp [ho])]
  | checked ho h => rw [statuses, if_pos ho, checkPath_outcome, ← zip_outcome_of_steady h]

theorem points_of_unchecked (h : t.Settles S p s) (ho : t.options.checkRevocation = false) :
    s.points = [] := by
  cases h with
  | unchecked _ => rfl
  | checked ho' h =>
    rw [ho] at ho'
    cases ho'

theorem of_mem_points (h : t.Settles S p s) {q : DistributionPoint} (hq : q ∈ s.points) :
    (Scheme.of? q.url).isSome ∧ ∃ c ∈ p.leaf :: p.intermediates, ∃ ps,
      c.distributionPoints = .ok ps ∧ q ∈ ps := by
  cases h with
  | unchecked ho => cases hq
  | checked ho h =>
    obtain ⟨l, hl, hs, hps⟩ := exists_link_of_mem_points h hq
    exact ⟨hs, l.1, p.mem_of_mem_links hl, hps⟩

theorem mem_points (h : t.Settles S p s) (ho : t.options.checkRevocation = true)
    {x : List RevocationStatus} (hx : s.outcome = .ok x) {c : Certificate}
    (hc : c ∈ p.leaf :: p.intermediates) {ps : List DistributionPoint}
    (hps : c.distributionPoints = .ok ps) {q : DistributionPoint} (hq : q ∈ ps) :
    q ∈ s.points := by
  cases h with
  | unchecked ho' =>
    rw [ho] at ho'
    cases ho'
  | @checked rs _ h =>
    rw [← p.map_fst_links] at hc
    obtain ⟨l, hl, rfl⟩ := List.mem_map.1 hc
    cases hs : settle ((p.links.map Prod.fst).zip (rs.map (·.outcome))) with
    | error e => simp [hs, Except.map] at hx
    | ok y => exact mem_points_of_settle h hs hl hps hq

end Settles

theorem settles_statuses : t.Settles (· = t.source) p (t.statuses p) := by
  rw [statuses]
  split
  · rename_i ho
    have h : List.Forall₂ (t.Examines (· = t.source)) p.links
        (p.links.map fun l ↦ t.revocationChecker.check l.1 (some l.2)) := by
      rw [List.forall₂_map_right_iff, List.forall₂_same]
      exact fun l _ ↦ ⟨t.source, rfl, RevocationChecker.checks_check⟩
    have hpoints : (t.checkPath p).points =
        (p.links.map fun l ↦ t.revocationChecker.check l.1 (some l.2)).flatMap (·.points) := by
      rw [checkPath, List.flatMap_map, List.flatMap_map]
    have hs := Settles.checked ho h
    rw [zip_outcome_of_steady h, ← checkPath_outcome, ← hpoints] at hs
    exact hs
  · rename_i ho
    exact .unchecked (by simpa using ho)

theorem run_verify : t.Run (· = t.source) leaf pool (t.verify leaf pool) := by
  rw [verify]
  split
  · rename_i e he
    exact .noPath he
  · rename_i p hp
    exact .settled hp settles_statuses

namespace Run

variable {r : Asked VerifiedPath}

theorem outcome_eq (h : t.Run (· = t.source) leaf pool r) :
    r.outcome = (t.verify leaf pool).outcome := by
  cases h with
  | noPath he => simp only [verify, he]
  | settled hp hs =>
    simp only [verify, hp]
    rw [hs.outcome_eq]

theorem points_of_unchecked (h : t.Run S leaf pool r) (ho : t.options.checkRevocation = false) :
    r.points = [] := by
  cases h with
  | noPath he => rfl
  | settled hp hs => exact hs.points_of_unchecked ho

theorem of_mem_points (h : t.Run S leaf pool r) {q : DistributionPoint} (hq : q ∈ r.points) :
    (Scheme.of? q.url).isSome ∧ ∃ p, t.findPath leaf pool = .ok p ∧
      ∃ c ∈ p.leaf :: p.intermediates, ∃ ps, c.distributionPoints = .ok ps ∧ q ∈ ps := by
  cases h with
  | noPath he => cases hq
  | @settled p s hp hs =>
    obtain ⟨hscheme, hc⟩ := hs.of_mem_points hq
    exact ⟨hscheme, p, hp, hc⟩

theorem points_of_findPath (h : t.Run S leaf pool r) {e : TrustError}
    (he : t.findPath leaf pool = .error e) : r.points = [] := by
  refine List.eq_nil_iff_forall_not_mem.2 fun q hq ↦ ?_
  obtain ⟨-, p, hp, -⟩ := h.of_mem_points hq
  rw [he] at hp
  cases hp

theorem findPath_of_ok (h : t.Run S leaf pool r) {v : VerifiedPath} (hv : r.outcome = .ok v) :
    t.findPath leaf pool = .ok v.path := by
  cases h with
  | noPath he => cases hv
  | @settled p s hp hs =>
    cases hx : s.outcome with
    | error e => simp [hx, Except.map] at hv
    | ok x =>
      simp only [hx, Except.map, Except.ok.injEq] at hv
      rw [hp, ← hv]

theorem mem_points (h : t.Run S leaf pool r) (ho : t.options.checkRevocation = true)
    {v : VerifiedPath} (hv : r.outcome = .ok v) {c : Certificate}
    (hc : c ∈ v.path.leaf :: v.path.intermediates) {ps : List DistributionPoint}
    (hps : c.distributionPoints = .ok ps) {q : DistributionPoint} (hq : q ∈ ps) :
    q ∈ r.points := by
  have hfound := h.findPath_of_ok hv
  cases h with
  | noPath he => cases hv
  | @settled p s hp hs =>
    obtain rfl : p = v.path := by
      rw [hp, Except.ok.injEq] at hfound
      exact hfound
    cases hx : s.outcome with
    | error e => simp [hx, Except.map] at hv
    | ok x => exact hs.mem_points ho hx hc hps hq

end Run

/-- In whatever order the workers get through and whatever the source tells them, they ask for
nothing that the certificates under the anchor of the path found do not name; for all of it where
the path is taken for valid. A source that does not change its mind leads them to what one of them
alone comes to. -/
theorem run_points :
    (t.Run (· = t.source) leaf pool (t.verify leaf pool) ∧
      ∀ r, t.Run (· = t.source) leaf pool r → r.outcome = (t.verify leaf pool).outcome) ∧
    ∀ S r, t.Run S leaf pool r →
      (∀ e, t.findPath leaf pool = .error e → r.points = []) ∧
      (t.options.checkRevocation = false → r.points = []) ∧
      (∀ q ∈ r.points, (Scheme.of? q.url).isSome ∧ ∃ p, t.findPath leaf pool = .ok p ∧
        ∃ c ∈ p.leaf :: p.intermediates, ∃ ps, c.distributionPoints = .ok ps ∧ q ∈ ps) ∧
      (t.options.checkRevocation = true → ∀ v, r.outcome = .ok v → ∀ q, q ∈ r.points ↔
        ∃ c ∈ v.path.leaf :: v.path.intermediates, ∃ ps,
          c.distributionPoints = .ok ps ∧ q ∈ ps) := by
  refine ⟨⟨run_verify, fun r ↦ Run.outcome_eq⟩, fun S r h ↦ ⟨fun e ↦ h.points_of_findPath,
    h.points_of_unchecked, fun q ↦ h.of_mem_points, fun ho v hv q ↦ ⟨fun hq ↦ ?_, ?_⟩⟩⟩
  · obtain ⟨-, p, hp, hc⟩ := h.of_mem_points hq
    rw [h.findPath_of_ok hv, Except.ok.injEq] at hp
    exact hp ▸ hc
  · rintro ⟨c, hc, ps, hps, hq⟩
    exact h.mem_points ho hv hc hps hq

def sampleUnanswered : TrustChainValidator :=
  { sampleValidator with source := fun q ↦ .error (.timeout q.url 10) }

def sampleMarkedPath : CertificationPath :=
  ⟨.sample 'C' 'B' ["http://a", "http://b"], [.sample 'B' 'A' ["http://c"]],
    .sample 'A' 'A' ["http://anchor"]⟩

def sampleMarkedPool : List Certificate :=
  [.sample 'B' 'X' ["http://x"], .sample 'B' 'A' ["http://c"], .sample 'A' 'A' ["http://anchor"]]

theorem run_points_dead_end :
    ∀ r, sampleUnanswered.Run (· = sampleUnanswered.source) sampleMarkedPath.leaf
        sampleMarkedPool r →
      ∀ q, q ∈ r.points ↔ q.url ∈ ["http://a", "http://b", "http://c"] := by
  intro r h q
  have hp : sampleUnanswered.findPath sampleMarkedPath.leaf sampleMarkedPool =
      .ok sampleMarkedPath := by decide +kernel
  have hv := verify_of_notRevoked hp fun _ ↦ by decide +kernel
  have hleaf : sampleMarkedPath.leaf.distributionPoints = .ok [⟨"http://a"⟩, ⟨"http://b"⟩] := by
    decide +kernel
  have hb : (Certificate.sample 'B' 'A' ["http://c"]).distributionPoints = .ok [⟨"http://c"⟩] := by
    decide +kernel
  have hr := (run_points.1.2 r h).trans hv
  obtain ⟨-, -, -, hall⟩ := run_points.2 _ r h
  rw [hall rfl _ hr q]
  change (∃ c ∈ [sampleMarkedPath.leaf, .sample 'B' 'A' ["http://c"]], _) ↔ _
  cases q
  simp [hleaf, hb, or_assoc]

end TrustChainValidator

end CertPath
