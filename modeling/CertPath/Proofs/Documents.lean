import CertPath.Xml.Parse
import Mathlib.Data.List.DropRight
import Mathlib.Data.List.TakeDrop

namespace CertPath.Xml

variable {s r u v t : List Char} {x doc : Node} {ns : List Node} {m : Name} {scope inner : Scope}

/-! ### What is left of a text that was read -/

theorem eq_of_after? {mark : String} (h : after? mark s = some r) : s = mark.toList ++ r := by
  unfold after? at h
  split at h
  · obtain ⟨w, rfl⟩ := List.isPrefixOf_iff_prefix.1 ‹_›
    rw [List.drop_left] at h
    rw [Option.some.inj h]
  · cases h

theorem suffix_of_after? {mark : String} (h : after? mark s = some r) : r <:+ s :=
  ⟨_, (eq_of_after? h).symm⟩

theorem suffix_of_cons {c : Char} (h : c :: r <:+ s) : r <:+ s := (List.suffix_cons c r).trans h

theorem skip_suffix (s : List Char) : skip s <:+ s := List.dropWhile_suffix _

theorem skip_skip (s : List Char) : skip (skip s) = skip s := List.dropWhile_idempotent _ _

theorem suffix_of_readUntil {stop : List Char → Bool} (h : readUntil stop s = some (t, r)) :
    r <:+ s := by
  induction s generalizing t with
  | nil =>
    cases h
    exact List.suffix_refl _
  | cons c s ih =>
    unfold readUntil at h
    split at h
    · cases h
    · split at h
      · cases h
        exact List.suffix_refl _
      · obtain ⟨⟨t', r'⟩, hread, hp⟩ := Option.map_eq_some_iff.1 h
        cases hp
        exact (ih hread).trans (List.suffix_cons _ _)

theorem suffix_of_plainName (h : plainName s = some (t, r)) : r <:+ s := by
  unfold plainName at h
  split at h
  · rename_i c s
    split at h
    · rw [List.span_eq_takeWhile_dropWhile] at h
      cases h
      exact (List.dropWhile_suffix _).trans (List.suffix_cons _ _)
    · cases h
  · cases h

theorem name_eq_some (h : name s = some (m, r)) :
    r = s.dropWhile isNameChar ∧ s.takeWhile isNameChar ≠ [] := by
  simp only [name, List.span_eq_takeWhile_dropWhile, Option.ite_none_right_eq_some,
    Option.some.injEq, Prod.mk.injEq] at h
  obtain ⟨hstart, -, rfl⟩ := h
  refine ⟨rfl, fun hnil ↦ ?_⟩
  simp [hnil, startsName] at hstart

theorem suffix_of_name (h : name s = some (m, r)) : r <:+ s := by
  rw [(name_eq_some h).1]
  exact List.dropWhile_suffix _

theorem exists_cons_of_name (h : name s = some (m, r)) :
    ∃ c u, s = c :: u ∧ isNameChar c = true := by
  have hne := (name_eq_some h).2
  cases s with
  | nil => exact absurd rfl hne
  | cons c u =>
    refine ⟨c, u, rfl, ?_⟩
    by_contra hc
    exact hne (List.takeWhile_cons_of_neg hc)

theorem suffix_of_attributeText {a : Attribute} (h : attributeText s = some (a, r)) : r <:+ s := by
  simp only [attributeText, Option.bind_eq_bind, Option.bind_eq_some_iff, Prod.exists] at h
  obtain ⟨n, u, hn, h⟩ := h
  have hu : skip u <:+ s := (skip_suffix u).trans (suffix_of_name hn)
  split at h
  · rename_i v hv
    have hv' : skip v <:+ s := (skip_suffix v).trans (suffix_of_cons (hv ▸ hu))
    split at h
    · rename_i q w hw
      have hw' : w <:+ s := suffix_of_cons (hw ▸ hv')
      split at h
      · cases h
      · obtain ⟨⟨value, e⟩, he, h⟩ := Option.bind_eq_some_iff.1 h
        have he' : e <:+ s := (suffix_of_readUntil he).trans hw'
        cases e with
        | nil => cases h
        | cons c e =>
          obtain ⟨-, hr⟩ := Option.ite_none_right_eq_some.1 h
          cases hr
          exact suffix_of_cons he'
    · cases h
  · cases h

theorem suffix_of_attributesText {n : ℕ} {as : List Attribute} {closed : Bool}
    (h : attributesText n s = some ((as, closed), r)) : r <:+ s := by
  induction n generalizing s as with
  | zero => cases h
  | succ n ih =>
    have hs := skip_suffix s
    unfold attributesText at h
    split at h
    · rename_i w hw
      cases h
      exact suffix_of_cons (suffix_of_cons (hw ▸ hs))
    · rename_i w hw
      cases h
      exact suffix_of_cons (hw ▸ hs)
    · split at h
      · cases h
      · simp only [Option.bind_eq_bind, Option.bind_eq_some_iff, Prod.exists] at h
        obtain ⟨a, u, ha, as', closed', v, has, h⟩ := h
        cases h
        exact (ih has).trans ((suffix_of_attributeText ha).trans hs)

theorem name_of_openTag {closed : Bool} (h : openTag scope s = some ((m, inner, closed), r)) :
    ∃ u, name s = some (m, u) ∧ r <:+ u := by
  simp only [openTag, Option.bind_eq_bind, Option.bind_eq_some_iff, Prod.exists, Option.bind_none,
    Option.ite_none_left_eq_some, Option.some.injEq, Prod.mk.injEq] at h
  obtain ⟨m, u, hm, -, as, closed, v, hv, _, _, -, _, -, -, -, ⟨rfl, -, -⟩, rfl⟩ := h
  exact ⟨u, hm, suffix_of_attributesText hv⟩

theorem suffix_of_openTag {closed : Bool} (h : openTag scope s = some ((m, inner, closed), r)) :
    r <:+ s := by
  obtain ⟨u, hm, hr⟩ := name_of_openTag h
  exact hr.trans (suffix_of_name hm)

theorem exists_cons_of_openTag {closed : Bool}
    (h : openTag scope s = some ((m, inner, closed), r)) :
    ∃ c u, s = c :: u ∧ c ≠ '/' ∧ c ≠ '?' ∧ c ≠ '!' := by
  obtain ⟨_, hm, -⟩ := name_of_openTag h
  obtain ⟨c, u, rfl, hc⟩ := exists_cons_of_name hm
  have hne (d : Char) (hd : isNameChar d = false) : c ≠ d := by
    intro he
    rw [he, hd] at hc
    cases hc
  exact ⟨c, u, rfl, hne '/' (by decide), hne '?' (by decide), hne '!' (by decide)⟩

theorem suffix_of_closeTag (h : closeTag m s = some r) : r <:+ s := by
  simp only [closeTag, Option.bind_eq_bind, Option.bind_eq_some_iff, Prod.exists,
    Option.ite_none_right_eq_some, Option.some.injEq] at h
  obtain ⟨n, u, hn, v, hv, -, rfl⟩ := h
  exact (suffix_of_after? hv).trans ((skip_suffix u).trans (suffix_of_name hn))

theorem suffix_of_comment (h : comment s = some (t, r)) : r <:+ s := by
  simp only [comment, Option.bind_eq_bind, Option.bind_eq_some_iff, Prod.exists, Option.bind_none,
    Option.ite_none_left_eq_some, Option.map_eq_some_iff, Prod.mk.injEq] at h
  obtain ⟨t, u, hu, -, v, hv, -, rfl⟩ := h
  exact (suffix_of_after? hv).trans (suffix_of_readUntil hu)

theorem suffix_of_instruction (h : instruction s = some r) : r <:+ s := by
  simp only [instruction, Option.bind_eq_bind, Option.bind_eq_some_iff, Prod.exists,
    Option.bind_none, Option.ite_none_left_eq_some] at h
  obtain ⟨-, _, u, hu, _, v, hv, hr⟩ := h
  exact (suffix_of_after? hr).trans
    ((suffix_of_readUntil hv).trans ((skip_suffix u).trans (suffix_of_plainName hu)))

theorem suffix_of_literal (h : literal s = some (t, r)) : r <:+ s := by
  simp only [literal, Option.bind_eq_bind, Option.bind_eq_some_iff, Prod.exists,
    Option.map_eq_some_iff, Prod.mk.injEq] at h
  obtain ⟨u, hu, t, v, hv, w, hw, -, rfl⟩ := h
  exact (suffix_of_after? hw).trans ((suffix_of_readUntil hv).trans (suffix_of_after? hu))

theorem suffix_of_plainText {c : Char} (hc : c ≠ '<') (h : plainText (c :: s) = some (t, r)) :
    r <:+ s := by
  simp only [plainText, Option.bind_eq_bind, Option.bind_eq_some_iff, Prod.exists,
    Option.bind_none, Option.ite_none_left_eq_some, Option.map_eq_some_iff, Prod.mk.injEq] at h
  obtain ⟨raw, u, hu, -, v, -, -, rfl⟩ := h
  unfold readUntil at hu
  split at hu
  · cases hu
  · rw [if_neg (by simpa using hc)] at hu
    obtain ⟨⟨raw', u'⟩, hread, hp⟩ := Option.map_eq_some_iff.1 hu
    cases hp
    exact suffix_of_readUntil hread

/-! ### What stands in an element -/

/-- The text `s` starts with the node `x`, which is no element, and goes on with `r`. -/
inductive Leaf : List Char → Node → List Char → Prop
  | comment {s t r : List Char} (h : comment s = some (t, r)) :
    Leaf ('<' :: '!' :: '-' :: '-' :: s) (.comment t) r
  | instruction {s r : List Char} (h : instruction s = some r) :
    Leaf ('<' :: '?' :: s) .instruction r
  | literal {s t r : List Char} (h : literal s = some (t, r)) :
    Leaf ('<' :: '!' :: s) (.text t) r
  | plain {c : Char} {s t r : List Char} (hc : c ≠ '<') (h : plainText (c :: s) = some (t, r)) :
    Leaf (c :: s) (.text t) r

/-- Where the namespaces in `scope` are declared, `s` starts with the nodes `ns` and goes on with
`r`. -/
inductive Content : Scope → List Char → List Node → List Char → Prop
  | nil {scope : Scope} {s : List Char} : Content scope s [] s
  | leaf {scope : Scope} {s r u : List Char} {x : Node} {ns : List Node} (hx : Leaf s x r)
    (hns : Content scope r ns u) : Content scope s (x :: ns) u
  | empty {scope inner : Scope} {s r u : List Char} {m : Name} {ns : List Node}
    (hopen : openTag scope s = some ((m, inner, true), r)) (hns : Content scope r ns u) :
    Content scope ('<' :: s) (.element (String.ofList m.base) [] :: ns) u
  | element {scope inner : Scope} {s r e u v : List Char} {m : Name} {children ns : List Node}
    (hopen : openTag scope s = some ((m, inner, false), r))
    (hchildren : Content inner r children ('<' :: '/' :: e)) (hclose : closeTag m e = some u)
    (hns : Content scope u ns v) :
    Content scope ('<' :: s) (.element (String.ofList m.base) children :: ns) v

namespace Frame

def fill (f : Frame) (ns : List Node) : Frame := { f with children := f.children ++ ns }

theorem fill_nil (f : Frame) : f.fill [] = f := by rw [fill, List.append_nil]

theorem fill_cons (f : Frame) (x : Node) (ns : List Node) : f.fill (x :: ns) = (f.add x).fill ns := by
  rw [fill, fill, add, List.append_assoc]
  rfl

end Frame

/-- From `s` on, the element of the frame `f` and those around it are filled and closed. Then the
outermost is `x`, and the text goes on with `r`. -/
inductive Ends : Frame → List Frame → List Char → Node → List Char → Prop
  | last {f : Frame} {s e r : List Char} {ns : List Node}
    (hns : Content f.scope s ns ('<' :: '/' :: e)) (hclose : closeTag f.name e = some r) :
    Ends f [] s (f.fill ns).close r
  | inner {f g : Frame} {gs : List Frame} {s e u r : List Char} {ns : List Node} {x : Node}
    (hns : Content f.scope s ns ('<' :: '/' :: e)) (hclose : closeTag f.name e = some u)
    (hends : Ends (g.add (f.fill ns).close) gs u x r) : Ends f (g :: gs) s x r

theorem Ends.cons {f : Frame} {fs : List Frame} (h : Ends (f.add x) fs r doc v)
    (hx : ∀ {ns u}, Content f.scope r ns u → Content f.scope s (x :: ns) u) : Ends f fs s doc v := by
  cases h with
  | last hns hclose =>
    rw [← f.fill_cons]
    exact .last (hx hns) hclose
  | inner hns hclose hends =>
    rw [← f.fill_cons] at hends
    exact .inner (hx hns) hclose hends

theorem ends_of_content {n : ℕ} {f : Frame} {fs : List Frame} (h : content n f fs s = some (doc, v)) :
    Ends f fs s doc v := by
  -- The reader closes elements as it meets their ends. `Ends` keeps those still open apart from what
  -- is read in them, so that each step puts one node in front.
  induction n generalizing f fs s with
  | zero => cases h
  | succ n ih =>
    unfold content at h
    split at h
    · cases h
    · obtain ⟨r, hr, h⟩ := Option.bind_eq_some_iff.1 h
      cases fs with
      | nil =>
        have hlast := Ends.last (f := f) .nil hr
        rw [f.fill_nil] at hlast
        cases h
        exact hlast
      | cons g gs =>
        have hends := ih h
        rw [← f.fill_nil] at hends
        exact .inner .nil hr hends
    · obtain ⟨r, hr, h⟩ := Option.bind_eq_some_iff.1 h
      exact (ih h).cons (.leaf (.instruction hr))
    · split at h
      · obtain ⟨w, rfl⟩ := List.isPrefixOf_iff_prefix.1 ‹_›
        obtain ⟨⟨t, r⟩, hr, h⟩ := Option.bind_eq_some_iff.1 h
        exact (ih h).cons (.leaf (.comment hr))
      · obtain ⟨⟨t, r⟩, hr, h⟩ := Option.bind_eq_some_iff.1 h
        exact (ih h).cons (.leaf (.literal hr))
    · obtain ⟨⟨⟨m, inner, closed⟩, r⟩, hr, h⟩ := Option.bind_eq_some_iff.1 h
      cases closed with
      | true => exact (ih h).cons (.empty hr)
      | false =>
        cases ih h with
        | inner hns hclose hends => exact hends.cons (.element hr hns hclose)
    · rename_i hne _ _ _ hmark
      cases s with
      | nil => exact absurd rfl hne
      | cons c s =>
        obtain ⟨⟨t, r⟩, hr, h⟩ := Option.bind_eq_some_iff.1 h
        have hc : c ≠ '<' := fun hc ↦ hmark s (by rw [hc])
        exact (ih h).cons (.leaf (.plain hc hr))

/-! ### Reading what stands in an element -/

section Reading

variable {f : Frame} {fs : List Frame}

theorem not_startsWith_of_literal (h : literal s = some (t, r)) : startsWith "--" s = false := by
  simp only [literal, Option.bind_eq_bind, Option.bind_eq_some_iff] at h
  obtain ⟨u, hu, -⟩ := h
  rw [eq_of_after? hu]
  rfl

theorem Leaf.length_lt (h : Leaf s x r) : r.length < s.length := by
  cases h with
  | comment h =>
    have hle := (suffix_of_comment h).length_le
    simp only [List.length_cons]
    omega
  | instruction h =>
    have hle := (suffix_of_instruction h).length_le
    simp only [List.length_cons]
    omega
  | literal h =>
    have hle := (suffix_of_literal h).length_le
    simp only [List.length_cons]
    omega
  | plain hc h =>
    have hle := (suffix_of_plainText hc h).length_le
    simp only [List.length_cons]
    omega

theorem content_of_leaf (h : Leaf s x r) (n : ℕ) (f : Frame) (fs : List Frame) :
    content (n + 1) f fs s = content n (f.add x) fs r := by
  cases h with
  | @comment s t _ h =>
    have hdash : startsWith "--" ('-' :: '-' :: s) = true := rfl
    simp [content, hdash, h]
  | instruction h => simp [content, h]
  | literal h => simp [content, not_startsWith_of_literal h, h]
  | plain hc h => simp [content, hc, h]

theorem content_of_closeTag (h : closeTag f.name s = some r) (n : ℕ) (g : Frame)
    (gs : List Frame) :
    content (n + 1) f (g :: gs) ('<' :: '/' :: s) = content n (g.add f.close) gs r := by
  simp [content, h]

theorem content_of_openTag {closed : Bool} (h : openTag f.scope s = some ((m, inner, closed), r))
    (n : ℕ) :
    content (n + 1) f fs ('<' :: s) =
      if closed then content n (f.add (.element (String.ofList m.base) [])) fs r
      else content n ⟨m, inner, []⟩ (f :: fs) r := by
  obtain ⟨c, u, rfl, hslash, hquery, hbang⟩ := exists_cons_of_openTag h
  simp [content, hslash, hquery, hbang, h]

theorem Content.read (h : Content scope s ns r) (f : Frame) (fs : List Frame) {n : ℕ}
    (hscope : f.scope = scope) (hn : s.length < n) :
    ∃ k, r.length < k ∧ content n f fs s = content k (f.fill ns) fs r := by
  induction h generalizing f fs n with
  | nil => exact ⟨n, hn, by rw [f.fill_nil]⟩
  | @leaf _ s u _ x ns hx _ ih =>
    obtain ⟨n, rfl⟩ := Nat.exists_eq_succ_of_ne_zero (Nat.ne_zero_of_lt hn)
    have hlt := hx.length_lt
    obtain ⟨k, hk, hread⟩ := ih (f.add x) fs (n := n) hscope (by omega)
    exact ⟨k, hk, by rw [content_of_leaf hx, hread, f.fill_cons]⟩
  | @empty _ _ s u _ m ns hopen _ ih =>
    obtain ⟨n, rfl⟩ := Nat.exists_eq_succ_of_ne_zero (Nat.ne_zero_of_lt hn)
    have hle := (suffix_of_openTag hopen).length_le
    rw [List.length_cons] at hn
    obtain ⟨k, hk, hread⟩ :=
      ih (f.add (.element (String.ofList m.base) [])) fs (n := n) hscope (by omega)
    refine ⟨k, hk, ?_⟩
    rw [content_of_openTag (hscope ▸ hopen), if_pos rfl, hread, f.fill_cons]
  | @element _ inner s u e v _ m children ns hopen _ hclose _ ihc ih =>
    obtain ⟨n, rfl⟩ := Nat.exists_eq_succ_of_ne_zero (Nat.ne_zero_of_lt hn)
    have hle := (suffix_of_openTag hopen).length_le
    rw [List.length_cons] at hn
    obtain ⟨k, hk, hin⟩ := ihc ⟨m, inner, []⟩ (f :: fs) (n := n) rfl (by omega)
    obtain ⟨k, rfl⟩ := Nat.exists_eq_succ_of_ne_zero (Nat.ne_zero_of_lt hk)
    have hle' := (suffix_of_closeTag hclose).length_le
    simp only [List.length_cons] at hk
    obtain ⟨j, hj, hread⟩ := ih (f.add (.element (String.ofList m.base) children)) fs
      (n := k) hscope (by omega)
    refine ⟨j, hj, ?_⟩
    rw [content_of_openTag (hscope ▸ hopen), if_neg Bool.false_ne_true, hin,
      content_of_closeTag hclose, f.fill_cons]
    exact hread

end Reading

/-! ### Documents -/

/-- Blanks, comments and instructions stand in `s` before `r`, which starts with no blank. -/
inductive Misc : List Char → List Char → Prop
  | nil (s : List Char) : Misc s (skip s)
  | cons {s u r : List Char} {x : Node} (hleaf : Leaf (skip s) x u) (hx : ∀ t, x ≠ .text t)
    (hr : Misc u r) : Misc s r

/-- The text is a document with the root element `doc`: a byte order mark and a declaration may
stand in front, and comments and instructions around the element. -/
def IsDocument (s : List Char) (doc : Node) : Prop :=
  ∃ b r u, body s = some b ∧ Misc b ('<' :: r) ∧ Content [] ('<' :: r) [doc] u ∧
    doc.name?.isSome = true ∧ Misc u []

theorem misc_sound {n : ℕ} (h : misc n s = some r) : Misc s (skip r) := by
  induction n generalizing s with
  | zero =>
    cases h
    exact .nil _
  | succ n ih =>
    unfold misc at h
    split at h
    · rename_i hs
      obtain ⟨⟨t, v⟩, hv, h⟩ := Option.bind_eq_some_iff.1 h
      have hleaf := Leaf.comment hv
      rw [← hs] at hleaf
      exact .cons hleaf (fun _ ↦ nofun) (ih h)
    · rename_i hs
      obtain ⟨v, hv, h⟩ := Option.bind_eq_some_iff.1 h
      have hleaf := Leaf.instruction hv
      rw [← hs] at hleaf
      exact .cons hleaf (fun _ ↦ nofun) (ih h)
    · cases h
      rw [skip_skip]
      exact .nil s

theorem misc_of_leaf (h : Leaf (skip s) x r) (hx : ∀ t, x ≠ .text t) (n : ℕ) :
    misc (n + 1) s = misc n r := by
  rw [misc]
  generalize skip s = w at h
  cases h with
  | comment h => simp [h]
  | instruction h => simp [h]
  | literal h => exact absurd rfl (hx _)
  | plain hc h => exact absurd rfl (hx _)

theorem Misc.read (h : Misc s r) (hr : ∀ n w, skip w = r → misc (n + 1) w = some r) {n : ℕ}
    (hn : s.length ≤ n) : misc n s = some r := by
  induction h generalizing n with
  | nil s =>
    cases n with
    | zero =>
      obtain rfl := List.length_eq_zero_iff.1 (Nat.le_zero.1 hn)
      rfl
    | succ n => exact hr n s rfl
  | @cons s u _ x hleaf hx _ ih =>
    have hskip := (skip_suffix s).length_le
    have hlt := hleaf.length_lt
    obtain ⟨n, rfl⟩ := Nat.exists_eq_succ_of_ne_zero (by omega : n ≠ 0)
    rw [misc_of_leaf hleaf hx]
    exact ih hr (by omega)

theorem root_eq_some :
    root s = some (doc, r) ↔ Content [] ('<' :: s) [doc] r ∧ doc.name?.isSome = true := by
  constructor
  · intro h
    obtain ⟨⟨⟨m, inner, closed⟩, u⟩, hopen, h⟩ := Option.bind_eq_some_iff.1 h
    cases closed with
    | true =>
      cases h
      exact ⟨.empty hopen .nil, rfl⟩
    | false =>
      cases ends_of_content h with
      | last hns hclose => exact ⟨.element hopen hns hclose .nil, rfl⟩
  · rintro ⟨h, hname⟩
    cases h with
    | leaf hx =>
      cases hx <;> cases hname
    | empty hopen hns =>
      cases hns
      simp [root, hopen]
    | @element _ inner _ u e _ _ m children _ hopen hchildren hclose hns =>
      cases hns
      obtain ⟨k, hk, hread⟩ := hchildren.read ⟨m, inner, []⟩ [] rfl
        (Nat.lt_succ_self u.length)
      obtain ⟨k, rfl⟩ := Nat.exists_eq_succ_of_ne_zero (Nat.ne_zero_of_lt hk)
      have hclosed : content (k + 1) ⟨m, inner, children⟩ [] ('<' :: '/' :: e) =
          some (Frame.close ⟨m, inner, children⟩, r) := by
        simp [content, hclose]
      simp only [root, hopen]
      exact hread.trans hclosed

theorem exists_cons_of_root (h : root s = some (doc, r)) :
    ∃ c u, s = c :: u ∧ c ≠ '/' ∧ c ≠ '?' ∧ c ≠ '!' := by
  obtain ⟨⟨⟨m, inner, closed⟩, u⟩, hopen, -⟩ := Option.bind_eq_some_iff.1 h
  exact exists_cons_of_openTag hopen

/-- The reader accepts the documents, and gives the root element of each. -/
theorem parse_eq_some : parse s = some doc ↔ IsDocument s doc := by
  constructor
  · intro h
    simp only [parse, Option.bind_eq_bind, Option.bind_eq_some_iff] at h
    obtain ⟨b, hb, w, hw, h⟩ := h
    split at h
    · rename_i r
      obtain ⟨⟨n, u⟩, hroot, h⟩ := Option.bind_eq_some_iff.1 h
      obtain ⟨v, hv, h⟩ := Option.bind_eq_some_iff.1 h
      obtain ⟨hend, h⟩ := Option.ite_none_right_eq_some.1 h
      cases h
      obtain ⟨hcontent, hname⟩ := root_eq_some.1 hroot
      exact ⟨b, r, u, hb, misc_sound hw, hcontent, hname, hend ▸ misc_sound hv⟩
    · cases h
  · rintro ⟨b, r, u, hb, hbefore, hcontent, hname, hafter⟩
    have hroot := root_eq_some.2 ⟨hcontent, hname⟩
    have hw : misc b.length b = some ('<' :: r) := by
      refine hbefore.read (fun n w hskip ↦ ?_) (Nat.le_refl _)
      obtain ⟨c, e, rfl, -, hquery, hbang⟩ := exists_cons_of_root hroot
      simp [misc, hskip, hquery, hbang]
    have hv : misc u.length u = some [] := by
      refine hafter.read (fun n w hskip ↦ ?_) (Nat.le_refl _)
      simp [misc, hskip]
    have hnil : skip [] = [] := rfl
    simp only [parse, hb, hw, hroot, hv, Option.bind_eq_bind, Option.bind_some, if_pos hnil]

end CertPath.Xml
