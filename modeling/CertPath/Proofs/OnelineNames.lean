import CertPath.Proofs.Decoding
import CertPath.Proofs.DottedForm

namespace CertPath

theorem append_cons_inj {α : Type} {a : α} {k l s t : List α} (hk : a ∉ k) (hl : a ∉ l)
    (h : k ++ a :: s = l ++ a :: t) : k = l ∧ s = t := by
  rcases List.append_eq_append_iff.1 h with ⟨u, rfl, hu⟩ | ⟨u, rfl, hu⟩
  · cases u with
    | nil => exact ⟨by simp, List.tail_eq_of_cons_eq hu⟩
    | cons b u =>
      obtain ⟨rfl, -⟩ := List.cons.inj hu
      exact absurd (by simp) hl
  · cases u with
    | nil => exact ⟨by simp, (List.tail_eq_of_cons_eq hu).symm⟩
    | cons b u =>
      obtain ⟨rfl, -⟩ := List.cons.inj hu
      exact absurd (by simp) hk

theorem map_eq_of_map_eq {α β γ : Type} {f : α → β} {g : α → γ} {as bs : List α}
    (h : ∀ a ∈ as, ∀ b ∈ bs, f a = f b → g a = g b) (hf : as.map f = bs.map f) :
    as.map g = bs.map g := by
  induction as generalizing bs with
  | nil =>
    cases bs with
    | nil => rfl
    | cons b bs => cases hf
  | cons a as ih =>
    cases bs with
    | nil => cases hf
    | cons b bs =>
      obtain ⟨hab, hrest⟩ := List.cons.inj hf
      have hg := h a List.mem_cons_self b List.mem_cons_self hab
      have hgs := ih (fun c hc d hd ↦ h c (List.mem_cons_of_mem _ hc) d (List.mem_cons_of_mem _ hd))
        hrest
      rw [List.map_cons, List.map_cons, hg, hgs]

namespace Der

variable {α β : Type} {p : Bytes → Option (α × Bytes)} {p' : Bytes → Option (β × Bytes)} {f : α → β}

theorem repeated_map (h : ∀ s, p' s = (p s).map fun x ↦ (f x.1, x.2)) (n : Nat) (s : Bytes) :
    repeated p' n s = ((repeated p n s).1.map f, (repeated p n s).2) := by
  induction n generalizing s with
  | zero => rfl
  | succ n ih =>
    rw [repeated, repeated, h]
    cases p s with
    | none => rfl
    | some x => simp [ih]

theorem many_map (h : ∀ s, p' s = (p s).map fun x ↦ (f x.1, x.2)) (s : Bytes) :
    many p' s = ((many p s).1.map f, (many p s).2) :=
  repeated_map h s.length s

end Der

namespace DistinguishedName

section Line

variable {v w t u : List Char}

theorem escape_cons (c : Char) (v : List Char) :
    escape (c :: v) =
      (if c = '\\' ∨ c = ',' ∨ c = '=' then ['\\', c] else [c]) ++ escape v := rfl

/-- What may follow a value on a line. -/
def Closes (t : List Char) : Prop := t = [] ∨ ∃ s, t = ',' :: s

theorem not_closes_escape (c : Char) (v t : List Char) : ¬ Closes (escape (c :: v) ++ t) := by
  rw [escape_cons]
  rintro (h | ⟨s, h⟩)
  · split at h <;> simp at h
  · split at h
    · simp at h
    · rename_i hc
      simp only [List.cons_append, List.nil_append, List.cons.injEq] at h
      exact hc (.inr (.inl h.1))

theorem escape_append_inj (ht : Closes t) (hu : Closes u) (h : escape v ++ t = escape w ++ u) :
    v = w ∧ t = u := by
  induction v generalizing w with
  | nil =>
    cases w with
    | nil => exact ⟨rfl, h⟩
    | cons d w =>
      have ht' : t = escape (d :: w) ++ u := h
      exact absurd (ht' ▸ ht) (not_closes_escape d w u)
  | cons c v ih =>
    cases w with
    | nil =>
      have hu' : escape (c :: v) ++ t = u := h
      exact absurd (hu' ▸ hu) (not_closes_escape c v t)
    | cons d w =>
      simp only [escape_cons] at h
      split at h
      · split at h
        · simp only [List.cons_append, List.nil_append, List.cons.injEq, true_and] at h
          obtain ⟨rfl, hrest⟩ := h
          obtain ⟨rfl, rfl⟩ := ih hrest
          exact ⟨rfl, rfl⟩
        · rename_i hd
          simp only [List.cons_append, List.nil_append, List.cons.injEq] at h
          exact absurd (.inl h.1.symm) hd
      · rename_i hc
        split at h
        · simp only [List.cons_append, List.nil_append, List.cons.injEq] at h
          exact absurd (.inl h.1) hc
        · simp only [List.cons_append, List.nil_append, List.cons.injEq] at h
          obtain ⟨rfl, hrest⟩ := h
          obtain ⟨rfl, rfl⟩ := ih hrest
          exact ⟨rfl, rfl⟩

theorem assignment_append_inj {a b : String × String} (ha : '=' ∉ a.1.toList)
    (hb : '=' ∉ b.1.toList) (ht : Closes t) (hu : Closes u)
    (h : assignment a ++ t = assignment b ++ u) : a = b ∧ t = u := by
  have hassign : ∀ (c : String × String) s, assignment c ++ s =
      (c.1.toList ++ [' ']) ++ '=' :: ' ' :: (escape c.2.toList ++ s) := by
    intro c s
    simp [assignment]
  rw [hassign, hassign] at h
  obtain ⟨htype, hrest⟩ := append_cons_inj (by simpa using ha) (by simpa using hb) h
  obtain ⟨hvalue, rfl⟩ := escape_append_inj ht hu (List.tail_eq_of_cons_eq hrest)
  have htype' : a.1 = b.1 := String.toList_inj.1 (List.append_cancel_right htype)
  exact ⟨Prod.ext htype' (String.toList_inj.1 hvalue), rfl⟩

def others : List (String × String) → List Char
  | [] => []
  | a :: as => ',' :: ' ' :: onelineChars (a :: as)

theorem onelineChars_cons (a : String × String) (as : List (String × String)) :
    onelineChars (a :: as) = assignment a ++ others as := by
  cases as <;> simp [onelineChars, others]

theorem closes_others (as : List (String × String)) : Closes (others as) := by
  cases as with
  | nil => exact .inl rfl
  | cons a as => exact .inr ⟨_, rfl⟩

theorem onelineChars_inj {as bs : List (String × String)} (ha : ∀ a ∈ as, '=' ∉ a.1.toList)
    (hb : ∀ b ∈ bs, '=' ∉ b.1.toList) (h : onelineChars as = onelineChars bs) : as = bs := by
  have hne : ∀ c cs, onelineChars (c :: cs) ≠ [] := by
    intro c cs he
    simp [onelineChars_cons, assignment] at he
  induction as generalizing bs with
  | nil =>
    cases bs with
    | nil => rfl
    | cons b bs => exact absurd h.symm (hne b bs)
  | cons a as ih =>
    cases bs with
    | nil => exact absurd h (hne a as)
    | cons b bs =>
      obtain ⟨ha, has⟩ := List.forall_mem_cons.1 ha
      obtain ⟨hb, hbs⟩ := List.forall_mem_cons.1 hb
      rw [onelineChars_cons, onelineChars_cons] at h
      obtain ⟨rfl, hothers⟩ :=
        assignment_append_inj ha hb (closes_others as) (closes_others bs) h
      cases as with
      | nil =>
        cases bs with
        | nil => rfl
        | cons c cs => cases hothers
      | cons d ds =>
        cases bs with
        | nil => cases hothers
        | cons c cs =>
          simp only [others, List.cons.injEq, true_and] at hothers
          rw [ih has hbs hothers]

end Line

section Types

open Der

variable {o p : Oid}

theorem shortName_cases (o : Oid) :
    (o.text, shortName o.text) ∈ shortNames ∨ shortName o.text = o.text := by
  rw [shortName]
  cases h : shortNames.lookup o.text with
  | none => exact .inr rfl
  | some n =>
    obtain ⟨before, after, hnames, -⟩ := List.lookup_eq_some_iff.1 h
    rw [hnames]
    exact .inl (by simp)

theorem shortName_inj (h : shortName o.text = shortName p.text) : o.text = p.text := by
  have hforeign : ∀ n ∈ shortNames, ¬ n.2.toList ⊆ Oid.symbols := by decide
  have hunique : ∀ n ∈ shortNames, ∀ m ∈ shortNames, n.2 = m.2 → n.1 = m.1 := by decide
  rcases shortName_cases o with ho | ho
  · rcases shortName_cases p with hp | hp
    · exact hunique _ ho _ hp h
    · refine absurd (fun c hc ↦ ?_) (hforeign _ ho)
      rw [h, hp] at hc
      exact p.mem_symbols hc
  · rcases shortName_cases p with hp | hp
    · refine absurd (fun c hc ↦ ?_) (hforeign _ hp)
      rw [← h, ho] at hc
      exact o.mem_symbols hc
    · rw [← ho, h, hp]

theorem equals_not_mem_shortName (o : Oid) : '=' ∉ (shortName o.text).toList := by
  have hplain : ∀ n ∈ shortNames, '=' ∉ n.2.toList := by decide
  have hsymbols : '=' ∉ Oid.symbols := by decide
  rcases shortName_cases o with ho | ho
  · exact hplain (o.text, shortName o.text) ho
  · rw [ho]
    exact fun h ↦ hsymbols (o.mem_symbols h)

end Types

section Attributes

open Der

variable {s t q r : Bytes} {n m : DistinguishedName}

def typed (s : Bytes) : Option ((Oid × String) × Bytes) := do
  let (body, rest) ← Der.sequence s
  let (type, r) ← Der.oid body
  let (value, _) ← Der.element r
  some ((type, valueText value), rest)

def typedSet (s : Bytes) : Option (List (Oid × String) × Bytes) := do
  let (body, rest) ← Der.set s
  match Der.many typed body with
  | ([], _) => none
  | (as, _) => some (as, rest)

def typedAttributes (s : Bytes) : List (Oid × String) :=
  match Der.sequence s with
  | none => []
  | some (body, _) => (Der.many typedSet body).1.flatten

def component (a : Oid × String) : String × String := (shortName a.1.text, a.2)

theorem attributeTypeAndValue_eq (s : Bytes) :
    attributeTypeAndValue s = (typed s).map fun x ↦ (component x.1, x.2) := by
  rw [attributeTypeAndValue, typed]
  cases Der.sequence s with
  | none => rfl
  | some x =>
    cases ho : Der.oid x.1 with
    | none => simp [ho]
    | some y => cases he : Der.element y.2 <;> simp [ho, he, component]

theorem relative_eq (s : Bytes) :
    relative s = (typedSet s).map fun x ↦ (x.1.map component, x.2) := by
  rw [relative, typedSet]
  cases Der.set s with
  | none => rfl
  | some x =>
    simp only [Option.bind_eq_bind, Option.bind_some, many_map attributeTypeAndValue_eq]
    cases h : Der.many typed x.1 with
    | mk as r => cases as <;> rfl

theorem components_eq (h : decode s = some (n, r)) :
    n.components = (typedAttributes s).map component := by
  rw [decode] at h
  rw [typedAttributes]
  cases hs : Der.sequence s with
  | none => simp [hs] at h
  | some x =>
    simp only [hs, Option.bind_eq_bind, Option.bind_some, many_map relative_eq,
      Option.some.injEq, Prod.mk.injEq] at h
    rw [← h.1, List.map_flatten]

theorem oneline_eq_iff_components (hn : decode s = some (n, q)) (hm : decode t = some (m, r)) :
    n.oneline = m.oneline ↔ n.components = m.components := by
  have hplain : ∀ {s n r}, decode s = some (n, r) → ∀ a ∈ n.components, '=' ∉ a.1.toList := by
    intro s n r h a ha
    rw [components_eq h] at ha
    obtain ⟨b, -, rfl⟩ := List.mem_map.1 ha
    exact equals_not_mem_shortName b.1
  constructor
  · intro h
    exact onelineChars_inj (hplain hn) (hplain hm) (String.ofList_inj.1 h)
  · intro h
    rw [oneline, oneline, h]

/-- Two names on one line each are told apart wherever their types, as dotted numbers, or their
values differ. -/
theorem oneline_unambiguous (hn : decode s = some (n, q)) (hm : decode t = some (m, r)) :
    (n.oneline = m.oneline ↔ n.components = m.components) ∧
    (n.oneline = m.oneline ↔ (typedAttributes s).map (fun a ↦ (a.1.text, a.2)) =
      (typedAttributes t).map fun a ↦ (a.1.text, a.2)) ∧
    ((∀ a ∈ typedAttributes s ++ typedAttributes t, a.1.IsMinimal) →
      (n.oneline = m.oneline ↔ typedAttributes s = typedAttributes t)) ∧
    ∀ o p : Oid, shortName o.text = shortName p.text → o.text = p.text := by
  have hline := oneline_eq_iff_components hn hm
  have hcomponents : n.components = m.components ↔
      (typedAttributes s).map component = (typedAttributes t).map component := by
    rw [components_eq hn, components_eq hm]
  have htext : ∀ a b : Oid × String, component a = component b →
      (a.1.text, a.2) = (b.1.text, b.2) := by
    intro a b h
    obtain ⟨htype, hvalue⟩ := Prod.mk.inj h
    exact Prod.ext (shortName_inj htype) hvalue
  refine ⟨hline, ?_, fun hminimal ↦ ?_, fun o p ↦ shortName_inj⟩
  · rw [hline, hcomponents]
    constructor
    · exact map_eq_of_map_eq fun a _ b _ ↦ htext a b
    · exact map_eq_of_map_eq fun a _ b _ h ↦ by
        obtain ⟨htype, hvalue⟩ := Prod.mk.inj h
        exact Prod.ext (congrArg shortName htype) hvalue
  · rw [hline, hcomponents]
    constructor
    · intro h
      have hid := map_eq_of_map_eq (g := id) (fun a ha b hb hab ↦ ?_) h
      · simpa using hid
      · obtain ⟨htype, hvalue⟩ := Prod.mk.inj (htext a b hab)
        have ha' := hminimal a (List.mem_append_left _ ha)
        have hb' := hminimal b (List.mem_append_right _ hb)
        exact Prod.ext (Oid.eq_of_text ha' hb' htype) hvalue
    · intro h
      rw [h]

def sampleDer (values : List String) : Bytes :=
  Der.short 0x30 (values.flatMap fun v ↦ Der.short 0x31 (Der.short 0x30
    (Der.short 6 [0x55, 4, 3] ++ Der.short 12 (Utf8.ofString v))))

theorem oneline_unambiguous_imitation :
    ∃ n m, decode (sampleDer ["a\\", "b"]) = some (n, []) ∧
      decode (sampleDer ["a\\, CN = b"]) = some (m, []) ∧ n.oneline ≠ m.oneline := by
  have hn : decode (sampleDer ["a\\", "b"]) =
      some (⟨sampleDer ["a\\", "b"], [("CN", "a\\"), ("CN", "b")]⟩, []) := by decide +kernel
  have hm : decode (sampleDer ["a\\, CN = b"]) =
      some (⟨sampleDer ["a\\, CN = b"], [("CN", "a\\, CN = b")]⟩, []) := by decide +kernel
  refine ⟨_, _, hn, hm, fun h ↦ ?_⟩
  have hcomponents := (oneline_unambiguous hn hm).1.1 h
  simp at hcomponents

end Attributes

end DistinguishedName

end CertPath
