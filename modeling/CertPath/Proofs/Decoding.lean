import CertPath.AnchorStore

namespace CertPath

namespace Der

/-- A reader that looks at no octet past the ones it consumes. -/
def SelfDelimiting {α : Type} (p : Bytes → Option (α × Bytes)) : Prop :=
  ∀ ⦃s a r⦄, p s = some (a, r) → ∃ u, s = u ++ r ∧ ∀ t, p (u ++ t) = some (a, t)

theorem exists_append_of_length_le {s : Bytes} {n : Nat} (h : n ≤ s.length) :
    ∃ w v, s = w ++ v ∧ w.length = n :=
  ⟨s.take n, s.drop n, (List.take_append_drop n s).symm, List.length_take_of_le h⟩

theorem longNumber_selfDelimiting (n acc : Nat) : SelfDelimiting (longNumber n acc) := by
  intro s a r h
  induction n generalizing acc s with
  | zero => simp [longNumber] at h
  | succ n ih =>
    cases s with
    | nil => simp [longNumber] at h
    | cons x s =>
      by_cases hx : x.toNat < 128
      · simp only [longNumber, hx, if_true, Option.some.injEq, Prod.mk.injEq] at h
        obtain ⟨rfl, rfl⟩ := h
        exact ⟨[x], rfl, fun t ↦ by simp [longNumber, hx]⟩
      · simp only [longNumber, hx, if_false] at h
        obtain ⟨u, rfl, hu⟩ := ih _ h
        exact ⟨x :: u, rfl, fun t ↦ by simpa [longNumber, hx] using hu t⟩

theorem tagNumber_selfDelimiting (x : UInt8) : SelfDelimiting (tagNumber x) := by
  intro s a r h
  by_cases hx : x.toNat % 32 = 31
  · simp only [tagNumber, hx, if_true] at h ⊢
    exact longNumber_selfDelimiting 5 0 h
  · simp only [tagNumber, hx, if_false, Option.some.injEq, Prod.mk.injEq] at h ⊢
    obtain ⟨rfl, rfl⟩ := h
    exact ⟨[], rfl, fun t ↦ ⟨rfl, rfl⟩⟩

theorem lengthOctets_selfDelimiting : SelfDelimiting lengthOctets := by
  intro s a r h
  cases s with
  | nil => simp [lengthOctets] at h
  | cons x s =>
    by_cases hx : x.toNat < 0x80
    · simp only [lengthOctets, hx, if_true, Option.some.injEq, Prod.mk.injEq] at h
      obtain ⟨rfl, rfl⟩ := h
      exact ⟨[x], rfl, fun t ↦ by simp [lengthOctets, hx]⟩
    · by_cases hk : x.toNat = 0x80 ∨ x.toNat = 0xFF
      · simp [lengthOctets, hx, hk] at h
      · by_cases hl : s.length < x.toNat - 0x80
        · simp [lengthOctets, hx, hk, hl] at h
        · obtain ⟨w, v, rfl, hw⟩ := exists_append_of_length_le (Nat.le_of_not_lt hl)
          simp only [lengthOctets, hx, hk, hl, if_false, false_or, List.take_left' hw,
            List.drop_left' hw, Option.ite_none_left_eq_some, Option.some.injEq,
            Prod.mk.injEq] at h
          obtain ⟨hv, rfl, rfl⟩ := h
          refine ⟨x :: w, rfl, fun t ↦ ?_⟩
          have ht : ¬ (w ++ t).length < x.toNat - 0x80 := by
            rw [List.length_append, hw]; omega
          simp only [List.cons_append, lengthOctets, hx, hk, ht, hv, if_false, false_or,
            List.take_left' hw, List.drop_left' hw]

theorem header_selfDelimiting : SelfDelimiting header := by
  intro s a r h
  cases s with
  | nil => simp [header] at h
  | cons x s =>
    simp only [header, Option.bind_eq_bind, Option.bind_eq_some_iff, Prod.exists,
      Option.some.injEq, Prod.mk.injEq] at h
    obtain ⟨number, r₁, hn, length, r₂, hl, rfl, rfl⟩ := h
    obtain ⟨u, rfl, hu⟩ := tagNumber_selfDelimiting x hn
    obtain ⟨v, rfl, hv⟩ := lengthOctets_selfDelimiting hl
    exact ⟨x :: u ++ v, by simp, fun t ↦ by simp [header, hu, hv]⟩

theorem element_selfDelimiting : SelfDelimiting element := by
  intro s a r h
  simp only [element, Option.bind_eq_bind, Option.bind_eq_some_iff, Prod.exists,
    Option.ite_none_left_eq_some, Option.some.injEq, Prod.mk.injEq] at h
  obtain ⟨d, r₁, hd, hl, rfl, rfl⟩ := h
  obtain ⟨u, rfl, hu⟩ := header_selfDelimiting hd
  obtain ⟨w, v, rfl, hw⟩ := exists_append_of_length_le (Nat.le_of_not_lt hl)
  refine ⟨u ++ w, by simp [List.drop_left' hw], fun t ↦ ?_⟩
  have ht : ¬ (w ++ t).length < d.length := by rw [List.length_append, hw]; omega
  simp only [element, List.append_assoc, hu, Option.bind_eq_bind, Option.bind_some, ht, if_false,
    List.take_left' hw, List.drop_left' hw]

theorem numbered_selfDelimiting (n : Nat) : SelfDelimiting (numbered n) := by
  intro s a r h
  simp only [numbered, Option.bind_eq_bind, Option.bind_eq_some_iff, Prod.exists,
    Option.ite_none_right_eq_some, Option.some.injEq, Prod.mk.injEq] at h
  obtain ⟨e, _, he, hn, rfl, rfl⟩ := h
  obtain ⟨u, rfl, hu⟩ := element_selfDelimiting he
  exact ⟨u, rfl, fun t ↦ by simp [numbered, hu, hn]⟩

theorem sequence_selfDelimiting : SelfDelimiting sequence := by
  intro s a r h
  simp only [sequence, Option.bind_eq_bind, Option.bind_eq_some_iff, Prod.exists,
    Option.some.injEq, Prod.mk.injEq] at h
  obtain ⟨e, _, he, rfl, rfl⟩ := h
  obtain ⟨u, rfl, hu⟩ := numbered_selfDelimiting 16 he
  exact ⟨u, rfl, fun t ↦ by simp [sequence, hu]⟩

theorem exists_header_of_sequence {s body rest : Bytes} (h : sequence s = some (body, rest)) :
    ∃ d r, header s = some (d, r) ∧ d.number = 16 ∧ body = r.take d.length ∧
      rest = r.drop d.length := by
  simp only [sequence, numbered, element, Option.bind_eq_bind, Option.bind_eq_some_iff, Prod.exists,
    Option.ite_none_left_eq_some, Option.ite_none_right_eq_some, Option.some.injEq,
    Prod.mk.injEq] at h
  obtain ⟨_, _, ⟨_, _, ⟨d, r, hd, -, rfl, rfl⟩, hn, rfl, rfl⟩, rfl, rfl⟩ := h
  exact ⟨d, r, hd, hn, rfl, rfl⟩

theorem exists_append_of_sequence {s body rest : Bytes} (h : sequence s = some (body, rest)) :
    ∃ u, s = u ++ body ++ rest := by
  obtain ⟨d, r, hd, -, rfl, rfl⟩ := exists_header_of_sequence h
  obtain ⟨u, rfl, -⟩ := header_selfDelimiting hd
  exact ⟨u, by simp⟩

theorem bitString_selfDelimiting : SelfDelimiting bitString := by
  intro s a r h
  simp only [bitString, Option.bind_eq_bind, Option.bind_eq_some_iff, Prod.exists] at h
  obtain ⟨e, _, he, h⟩ := h
  obtain ⟨u, rfl, hu⟩ := numbered_selfDelimiting 3 he
  cases hb : e.body with
  | nil => simp [hb] at h
  | cons unused b =>
    simp only [hb, Option.ite_none_right_eq_some, Option.some.injEq, Prod.mk.injEq] at h
    obtain ⟨hbits, rfl, rfl⟩ := h
    exact ⟨u, rfl, fun t ↦ by simp only [bitString, hu, Option.bind_eq_bind, Option.bind_some, hb,
      hbits, if_true]⟩

/-- A reader that goes by `p` and keeps the octets of what it reads. They are read alike again,
whatever comes after them. -/
def Rereads {α β : Type} (p : Bytes → Option (β × Bytes)) (read : Bytes → Except TrustError α)
    (der : α → Bytes) : Prop :=
  ∀ ⦃s a⦄, read s = .ok a → der a <+: s ∧
    ∃ b, ∀ t, p (der a ++ t) = some (b, t) ∧ read (der a ++ t) = .ok a

variable {α β : Type} {p : Bytes → Option (β × Bytes)} {read : Bytes → Except TrustError α}
  {der : α → Bytes}

theorem SelfDelimiting.eq_none_of_append (hp : SelfDelimiting p) {s t : Bytes} {b : β}
    (h : p (s ++ t) = some (b, [])) (ht : t ≠ []) : p s = none := by
  cases hs : p s with
  | none => rfl
  | some x =>
    obtain ⟨b', r⟩ := x
    obtain ⟨u, rfl, hu⟩ := hp hs
    rw [List.append_assoc, hu, Option.some.injEq, Prod.mk.injEq, List.append_eq_nil_iff] at h
    exact absurd h.2.2 ht

theorem SelfDelimiting.rereads (hp : SelfDelimiting p)
    (hnone : ∀ {s a}, p s = none → read s ≠ .ok a)
    (hsome : ∀ {u r b a}, p (u ++ r) = some (b, r) → read (u ++ r) = .ok a →
      der a = u ∧ ∀ t, p (u ++ t) = some (b, t) → read (u ++ t) = .ok a) :
    Rereads p read der := by
  intro s a h
  cases hs : p s with
  | none => exact absurd h (hnone hs)
  | some x =>
    obtain ⟨b, r⟩ := x
    obtain ⟨u, rfl, hu⟩ := hp hs
    obtain ⟨rfl, hread⟩ := hsome hs h
    exact ⟨List.prefix_append _ _, b, fun t ↦ ⟨hu t, hread t (hu t)⟩⟩

namespace Rereads

variable (hr : Rereads p read der)

include hr

theorem read_append {s : Bytes} {a : α} (h : read s = .ok a) (t : Bytes) :
    read (der a ++ t) = .ok a := by
  obtain ⟨-, b, hread⟩ := hr h
  exact (hread t).2

theorem read_der {s : Bytes} {a : α} (h : read s = .ok a) : read (der a) = .ok a := by
  simpa using hr.read_append h []

theorem exists_der {s : Bytes} {a : α} (h : read s = .ok a) : ∃ b, p (der a) = some (b, []) := by
  obtain ⟨-, b, hread⟩ := hr h
  exact ⟨b, by simpa using (hread []).1⟩

theorem eq_of_der {s t : Bytes} {a b : α} (ha : read s = .ok a) (hb : read t = .ok b)
    (h : der a = der b) : a = b := by
  have he := hr.read_der ha
  rw [h, hr.read_der hb] at he
  exact (Except.ok.inj he).symm

end Rereads

def short (tag : UInt8) (body : Bytes) : Bytes :=
  if body.length < 128 then tag :: UInt8.ofNat body.length :: body
  else tag :: 0x81 :: UInt8.ofNat body.length :: body

end Der

theorem Signed.decode_selfDelimiting {α : Type} (content : Bytes → Option ((Bytes × α) × Bytes)) :
    Der.SelfDelimiting (Signed.decode content) := by
  intro s a r h
  simp only [Signed.decode, Option.bind_eq_bind, Option.bind_eq_some_iff, Prod.exists,
    Option.some.injEq, Prod.mk.injEq] at h
  obtain ⟨body, _, hs, raw, x, r₁, hc, algorithm, r₂, ha, signature, r₃, hb, rfl, rfl⟩ := h
  obtain ⟨u, rfl, hu⟩ := Der.sequence_selfDelimiting hs
  exact ⟨u, rfl, fun t ↦ by simp [Signed.decode, hu, hc, ha, hb]⟩

@[simp] theorem Bytes.before_append (u t : Bytes) : Bytes.before (u ++ t) t = u := by
  simp [Bytes.before]

namespace Certificate

theorem rereads_ofDer : Der.Rereads decodeSigned ofDer der := by
  refine (Signed.decode_selfDelimiting CertificateBody.decode).rereads (fun hs ↦ ?_) ?_
  · simp [ofDer, decodeSigned, hs]
  · rintro u r ⟨g, body⟩ c hs h
    cases hk : readKeyUsage body.extensions with
    | none => simp [ofDer, decodeSigned, hs, hk] at h
    | some k =>
      simp only [ofDer, decodeSigned, hs, hk, Bytes.before_append, Except.ok.injEq] at h
      subst h
      exact ⟨rfl, fun t ht ↦ by simp [ofDer, decodeSigned, ht, hk]⟩

/-- Reading octets is the only way to come by a certificate. -/
def IsDecoded (c : Certificate) : Prop := ∃ s, ofDer s = .ok c

theorem IsDecoded.eq_of_der {c d : Certificate} (hc : c.IsDecoded) (hd : d.IsDecoded)
    (h : c.der = d.der) : c = d := by
  obtain ⟨s, hs⟩ := hc
  obtain ⟨t, ht⟩ := hd
  exact rereads_ofDer.eq_of_der hs ht h

theorem IsDecoded.exists_signed {c : Certificate} (hc : c.IsDecoded) :
    ∃ g body, decodeSigned c.der = some ((g, body), []) ∧ body.publicKey.raw = c.publicKey ∧
      body.extensions = c.extensions := by
  obtain ⟨s, hs⟩ := hc
  obtain ⟨⟨g, body⟩, hsigned⟩ := rereads_ofDer.exists_der hs
  have hread := rereads_ofDer.read_der hs
  refine ⟨g, body, hsigned, ?_⟩
  simp only [ofDer, hsigned] at hread
  split at hread
  · cases hread
  · have hc := Except.ok.inj hread
    exact ⟨congrArg publicKey hc, congrArg extensions hc⟩

/-- The octets of a certificate with names of one letter. The subject's is its serial number and its
key too. -/
def sampleDer (subject issuer : Char) (urls : List String) : Bytes :=
  let octet (x : Char) := UInt8.ofNat x.toNat
  let name (x : Char) := Der.short 0x30 (Der.short 0x31 (Der.short 0x30
    (Der.short 6 [0x55, 4, 3] ++ Der.short 12 [octet x])))
  let algorithm := Der.short 0x30 (Der.short 6 [0x2B, 0x65, 0x70])
  let time := Der.short 23 ("250101000000Z".toList.map octet)
  let point (url : String) :=
    Der.short 0x30 (Der.short 0xA0 (Der.short 0xA0 (Der.short 0x86 (url.toList.map octet))))
  let extension :=
    Der.short 6 [0x55, 0x1D, 0x1F] ++ Der.short 4 (Der.short 0x30 (urls.flatMap point))
  let body := Der.short 2 [octet subject] ++ algorithm ++ name issuer ++
    Der.short 0x30 (time ++ time) ++ name subject ++
    Der.short 0x30 (algorithm ++ Der.short 3 [0, octet subject]) ++
    Der.short 0xA3 (Der.short 0x30 (Der.short 0x30 extension))
  Der.short 0x30 (Der.short 0x30 body ++ algorithm ++ Der.short 3 [0, octet issuer])

def sample (subject issuer : Char) (urls : List String) : Certificate :=
  (ofDer (sampleDer subject issuer urls)).toOption.getD default

theorem isDecoded_sample {subject issuer : Char} {urls : List String}
    (h : (ofDer (sampleDer subject issuer urls)).toOption.isSome = true) :
    (sample subject issuer urls).IsDecoded := by
  refine ⟨sampleDer subject issuer urls, ?_⟩
  unfold sample
  cases hs : ofDer (sampleDer subject issuer urls) with
  | error e => simp [hs, Except.toOption] at h
  | ok c => rfl

theorem isDecoded_of_mem_filterMap {α : Type} {f : α → Bytes} {xs : List α} {c : Certificate}
    (h : c ∈ xs.filterMap fun x ↦ (ofDer (f x)).toOption) : c.IsDecoded := by
  obtain ⟨x, -, hx⟩ := List.mem_filterMap.1 h
  cases ho : ofDer (f x) with
  | error e => simp [ho, Except.toOption] at hx
  | ok d => exact ⟨f x, by simpa [ho, Except.toOption] using hx⟩

theorem isDecoded_of_mem_parseBundle {b : Bytes} {c : Certificate} (h : c ∈ parseBundle b) :
    c.IsDecoded := by
  unfold parseBundle at h
  split at h
  · simp at h
  · exact isDecoded_of_mem_filterMap h

end Certificate

theorem TrustList.isDecoded_of_parse {s : List Char} {cs : List Certificate}
    (h : TrustList.parse s = some cs) {c : Certificate} (hc : c ∈ cs) : c.IsDecoded := by
  obtain ⟨document, -, rfl⟩ := Option.map_eq_some_iff.1 h
  obtain ⟨n, -, hn⟩ := List.mem_filterMap.1 hc
  simp only [certificateOf, Option.bind_eq_bind, Option.bind_eq_some_iff] at hn
  obtain ⟨der, -, hd⟩ := hn
  exact ⟨der, by cases ho : Certificate.ofDer der <;> simp_all [Except.toOption]⟩

namespace AnchorSource

theorem isDecoded_of_mem_directoryAnchors {files : FileTree} {path : String} {c : Certificate}
    (h : c ∈ directoryAnchors files path) : c.IsDecoded := by
  unfold directoryAnchors at h
  split at h
  · simp at h
  · obtain ⟨f, -, hf⟩ := List.mem_flatMap.1 h
    exact Certificate.isDecoded_of_mem_parseBundle hf

variable {w : Surroundings} {cs : List Certificate} {c : Certificate}

theorem isDecoded_of_mem_systemAnchors (h : systemAnchors w = .ok cs) (hc : c ∈ cs) :
    c.IsDecoded := by
  unfold systemAnchors at h
  extract_lets bundled found at h
  have hf : found = cs := by
    by_cases hn : found = []
    · rw [if_pos hn] at h; cases h
    · rw [if_neg hn] at h; exact Except.ok.inj h
  rw [← hf] at hc
  by_cases hb : bundled ≠ []
  · simp only [found, if_pos hb, bundled] at hc
    split at hc
    · exact Certificate.isDecoded_of_mem_parseBundle hc
    · simp at hc
  · simp only [found, if_neg hb] at hc
    cases hd : w.directoryPath with
    | none => simp [hd] at hc
    | some path => exact isDecoded_of_mem_directoryAnchors (by simpa [hd] using hc)

theorem isDecoded_of_mem_pemAnchors {path : String} (h : pemAnchors w.files path = .ok cs)
    (hc : c ∈ cs) : c.IsDecoded := by
  unfold pemAnchors at h
  split at h
  · cases h
  · split at h
    · cases h
    · cases h
      exact Certificate.isDecoded_of_mem_parseBundle hc

theorem isDecoded_of_mem_trustListAnchors {location : String} {b : Bytes}
    (h : trustListAnchors location b = .ok cs) (hc : c ∈ cs) : c.IsDecoded := by
  unfold trustListAnchors at h
  split at h
  · cases h
  · split at h
    · cases h
    · rename_i hp
      cases h
      exact TrustList.isDecoded_of_parse hp hc

theorem isDecoded_of_load {timeout maxSize : UInt64} {source : AnchorSource}
    (h : source.load w timeout maxSize = .ok cs) (hc : c ∈ cs) : c.IsDecoded := by
  cases source with
  | system => exact isDecoded_of_mem_systemAnchors (Ending.ofExcept_eq_ok_iff.1 h) hc
  | pemFile path => exact isDecoded_of_mem_pemAnchors (Ending.ofExcept_eq_ok_iff.1 h) hc
  | trustList location =>
    obtain ⟨b, -, hb⟩ := Ending.bind_eq_ok_iff.1 h
    exact isDecoded_of_mem_trustListAnchors (Ending.ofExcept_eq_ok_iff.1 hb) hc

end AnchorSource

end CertPath
