import CertPath.Proofs.Armour
import CertPath.Proofs.Redecoding
import Mathlib.Data.List.DropRight

namespace CertPath

namespace Der

theorem exists_cons_of_sequence {s : Bytes} {x : Bytes × Bytes} (h : sequence s = some x) :
    ∃ a r, s = a :: r ∧ (a.toNat % 32 = 16 ∨ a.toNat % 32 = 31) := by
  obtain ⟨d, _, hd, hnumber, -, -⟩ := exists_header_of_sequence h
  cases s with
  | nil => simp [header] at hd
  | cons a s =>
    simp only [header, Option.bind_eq_bind, Option.bind_eq_some_iff, Prod.exists,
      Option.some.injEq, Prod.mk.injEq] at hd
    obtain ⟨number, _, hn, _, _, _, rfl, -⟩ := hd
    refine ⟨a, s, rfl, ?_⟩
    by_cases hlong : a.toNat % 32 = 31
    · exact .inr hlong
    · rw [tagNumber, if_neg hlong] at hn
      cases hn
      exact .inl hnumber

end Der

namespace Pem

def Blank (w : List Char) : Prop := ∀ c ∈ w, isAsciiBlank c = true

instance (w : List Char) : Decidable (Blank w) := List.decidableBAll _ w

theorem lt_of_isAsciiBlank {c : Char} (h : isAsciiBlank c = true) : c.toNat < 128 := by
  simp only [isAsciiBlank, Bool.or_eq_true, decide_eq_true_eq] at h
  rcases h with (((rfl | rfl) | rfl) | rfl) | rfl <;> decide

theorem Blank.plain {w : List Char} (h : Blank w) (hw : '\n' ∉ w) : Plain w :=
  fun c hc ↦ ⟨lt_of_isAsciiBlank (h c hc), fun he ↦ hw (he ▸ hc)⟩

theorem Blank.not_beginning {w : List Char} (h : Blank w) : ¬ beginning <+: w :=
  fun hpre ↦ absurd (h '-' (hpre.subset (by decide))) (by decide)

theorem read_line {l : List Char} (hl : Plain l) (h : ¬ beginning <+: l) (s : Bytes) :
    read (Utf8.encode l ++ 10 :: s) = read s := by
  have hdecode : Utf8.decode (Utf8.encode l ++ [10]) = some (l ++ ['\n']) := by
    have hline := decode_encode_feed hl [[]]
    rwa [Utf8.encode_append] at hline
  have hpre : beginning.isPrefixOf (l ++ ['\n']) = false := isPrefixOf_feed (by decide) h [[]]
  rw [read, lines_append (Utf8.feed_not_mem_encode hl), scan, hdecode]
  simp only [hpre, Bool.false_eq_true, if_false]
  rfl

theorem read_blank_lines {u w : List Char} (hu : Blank u) (hn : '\n' ∉ u) (hw : Blank w)
    (s : Bytes) : read (Utf8.encode (u ++ w) ++ 10 :: s) = read s := by
  induction w generalizing u with
  | nil => simpa using read_line (hu.plain hn) hu.not_beginning s
  | cons c w ih =>
    obtain ⟨hc, hw'⟩ := List.forall_mem_cons.1 hw
    by_cases hfeed : c = '\n'
    · have hcons : Utf8.encode (u ++ c :: w) ++ 10 :: s =
          Utf8.encode u ++ 10 :: (Utf8.encode w ++ 10 :: s) := by
        rw [hfeed, Utf8.encode_append, List.append_assoc]
        rfl
      rw [hcons, read_line (hu.plain hn) hu.not_beginning]
      exact ih (u := []) nofun nofun hw'
    · have hcons : u ++ c :: w = (u ++ [c]) ++ w := by simp
      rw [hcons]
      refine ih (List.forall_mem_append.2 ⟨hu, by simpa using hc⟩) ?_ hw'
      simpa [hn] using Ne.symm hfeed

theorem read_blank {w : List Char} (hw : Blank w) (s : Bytes) :
    read (Utf8.encode w ++ s) = read (Utf8.encode (w.rtakeWhile (· ≠ '\n')) ++ s) := by
  induction w using List.reverseRecOn generalizing s with
  | nil => rfl
  | append_singleton w c ih =>
    obtain ⟨hw', -⟩ := List.forall_mem_append.1 hw
    by_cases hfeed : c = '\n'
    · have hcons : Utf8.encode (w ++ [c]) ++ s = Utf8.encode w ++ 10 :: s := by
        rw [hfeed, Utf8.encode_append, List.append_assoc]
        rfl
      rw [hcons, List.rtakeWhile_concat_neg _ _ _ (by simpa using hfeed)]
      exact read_blank_lines (u := []) nofun nofun hw' s
    · rw [List.rtakeWhile_concat_pos _ _ _ (by simpa using hfeed), Utf8.encode_append,
        Utf8.encode_append, List.append_assoc, List.append_assoc]
      exact ih hw' _

theorem looksArmoured_blank {w : List Char} (hw : Blank w) (s : Bytes) :
    looksArmoured (Utf8.encode w ++ s) = looksArmoured s := by
  have hascii : ∀ c ∈ w, c.toNat < 128 := fun c hc ↦ lt_of_isAsciiBlank (hw c hc)
  rw [looksArmoured, looksArmoured, List.dropWhile_append_of_pos]
  intro x hx
  rw [Utf8.encode_of_ascii hascii] at hx
  obtain ⟨c, hc, rfl⟩ := List.mem_map.1 hx
  rw [Utf8.toNat_octet_of_ascii (hascii c hc), Char.ofNat_toNat, hw c hc]
  simpa using hascii c hc

theorem looksArmoured_beginning (s : Bytes) : looksArmoured (Utf8.encode beginning ++ s) = true :=
  rfl

theorem looksArmoured_sequence {s : Bytes} {x : Bytes × Bytes} (h : Der.sequence s = some x) :
    looksArmoured s = false := by
  obtain ⟨a, r, rfl, ha⟩ := Der.exists_cons_of_sequence h
  have hblank : ∀ n < 128, n % 32 = 16 ∨ n % 32 = 31 → isAsciiBlank (Char.ofNat n) = false := by
    decide
  have hne : (45 == a) = false := by
    rw [beq_eq_false_iff_ne]
    rintro rfl
    exact absurd ha (by decide)
  have hstop : (a.toNat < 0x80 && isAsciiBlank (Char.ofNat a.toNat)) = false := by
    by_cases hlt : a.toNat < 128
    · simp [hblank a.toNat hlt ha]
    · simp [hlt]
  have hcons : Utf8.ofString "-----BEGIN" = 45 :: Utf8.ofString "----BEGIN" := by decide
  rw [looksArmoured, List.dropWhile_cons, hstop, hcons]
  simp only [Bool.false_eq_true, if_false, List.isPrefixOf, hne, Bool.false_and]

namespace Piece

variable {label : String} {b t : Bytes} {p : Piece} {w : List Char}

/-- The text of a block alone, with or without a line feed at its end. -/
def IsArmour (label : String) (b t : Bytes) : Prop :=
  ∃ p, p.Armours label b ∧ (t = text [p] ∨ t = text [p, .line []])

theorem not_beginning_ending (closing : List Char) : ¬ beginning <+: ending ++ closing := by
  rintro ⟨rest, hrest⟩
  have htake := congrArg (List.take 6) hrest
  rw [List.take_append_of_le_length (by decide), List.take_append_of_le_length (by decide)] at htake
  exact absurd htake (by decide)

theorem IsArmour.lines (h : IsArmour label b t) (hl : IsLabel label) :
    ∃ l ls, t = Utf8.encode (['\n'].intercalate ((beginning ++ l) :: ls)) ∧
      Plain (beginning ++ l) ∧ ∀ k ∈ ls, Plain k ∧ ¬ beginning <+: k := by
  obtain ⟨p, hp, ht⟩ := h
  have hplain := (hp.wellFormed hl).plain
  cases p with
  | line text => exact hp.elim
  | block name after body closing =>
    have hlines : (block name after body closing).lines =
        (beginning ++ (name ++ dashes ++ after)) :: (body ++ [ending ++ closing]) := by
      simp [Piece.lines]
    rw [hlines] at hplain
    obtain ⟨hfirst, hrest⟩ := List.forall_mem_cons.1 hplain
    have hnone : ∀ k ∈ body ++ [ending ++ closing], Plain k ∧ ¬ beginning <+: k := by
      intro k hk
      refine ⟨hrest k hk, ?_⟩
      rcases List.mem_append.1 hk with hk | hk
      · exact fun hpre ↦ (hp.plain_body k hk).2 (hpre.subset (by decide))
      · obtain rfl := List.mem_singleton.1 hk
        exact not_beginning_ending closing
    rcases ht with rfl | rfl
    · exact ⟨_, _, by rw [text, List.flatMap_singleton, hlines], hfirst, hnone⟩
    · refine ⟨_, body ++ [ending ++ closing] ++ [[]], ?_, hfirst, ?_⟩
      · rw [text, List.flatMap_cons, List.flatMap_singleton, hlines]
        rfl
      · exact List.forall_mem_append.2 ⟨hnone, by decide⟩

theorem read_lines {ls : List (List Char)} (h : ∀ l ∈ ls, Plain l ∧ ¬ beginning <+: l) :
    read (Utf8.encode (['\n'].intercalate ls)) = [] := by
  have htext : Utf8.encode (['\n'].intercalate ls) = text (ls.map .line) := by
    rw [text, List.flatMap_map]
    simp [Piece.lines]
  have hwhole : ∀ p ∈ ls.map line, p.WellFormed ∧ p.isBroken = false := by
    intro p hp
    obtain ⟨l, hl, rfl⟩ := List.mem_map.1 hp
    exact ⟨h l hl, rfl⟩
  have hnone : (ls.map Piece.line).filterMap block? = [] := by
    simp [List.filterMap_map, Function.comp_def]
  rw [htext, read_of_not_broken hwhole, hnone]
  rfl

theorem read_indented (hw : Blank w) (hn : '\n' ∉ w) (hne : w ≠ []) (hl : IsLabel label)
    (ht : IsArmour label b t) : read (Utf8.encode w ++ t) = [] := by
  obtain ⟨l, ls, rfl, hfirst, hrest⟩ := ht.lines hl
  have hindented : ¬ beginning <+: w ++ (beginning ++ l) := by
    obtain ⟨c, w, rfl⟩ := List.exists_cons_of_ne_nil hne
    intro hpre
    have hdash : '-' = c := (List.cons_prefix_cons.1 hpre).1
    exact absurd (hw c List.mem_cons_self) (hdash ▸ by decide)
  have hjoin : w ++ ['\n'].intercalate ((beginning ++ l) :: ls) =
      ['\n'].intercalate ((w ++ (beginning ++ l)) :: ls) := by
    cases ls with
    | nil => simp
    | cons k ls => simp [List.intercalate_cons_cons]
  rw [← Utf8.encode_append, hjoin]
  exact read_lines (List.forall_mem_cons.2 ⟨⟨(hw.plain hn).append hfirst, hindented⟩, hrest⟩)

theorem read_armour (hl : IsLabel label) (ht : IsArmour label b t) :
    read t = [some ⟨label, b⟩] := by
  obtain ⟨p, hp, ht⟩ := ht
  have hblock := hp.block?_eq hl
  have hp' : p.WellFormed ∧ p.isBroken = false := ⟨hp.wellFormed hl, isBroken_of_block? hblock⟩
  rcases ht with rfl | rfl
  · rw [read_of_not_broken (List.forall_mem_singleton.2 hp')]
    simp [hblock]
  · have hline : (line []).WellFormed ∧ (line []).isBroken = false := by decide
    rw [read_of_not_broken (List.forall_mem_cons.2 ⟨hp', List.forall_mem_singleton.2 hline⟩)]
    simp [hblock, List.filterMap_cons]

/-- White space that leaves what follows at the start of a line. -/
def EndsLine (w : List Char) : Prop := w = [] ∨ w.getLast? = some '\n'

instance (w : List Char) : Decidable (EndsLine w) := inferInstanceAs (Decidable (_ ∨ _))

theorem rtakeWhile_eq_nil_iff_endsLine : w.rtakeWhile (· ≠ '\n') = [] ↔ EndsLine w := by
  induction w using List.reverseRecOn with
  | nil => simp [EndsLine]
  | append_singleton w c => simp [EndsLine, List.rtakeWhile_concat]

theorem read_blank_armour (hw : Blank w) (hl : IsLabel label) (ht : IsArmour label b t) :
    read (Utf8.encode w ++ t) = if EndsLine w then [some ⟨label, b⟩] else [] := by
  rw [read_blank hw]
  split
  · rename_i hends
    rw [rtakeWhile_eq_nil_iff_endsLine.2 hends]
    exact read_armour hl ht
  · rename_i hends
    have hsuffix : w.rtakeWhile (· ≠ '\n') <:+ w := List.rtakeWhile_suffix _ _
    have hn : '\n' ∉ w.rtakeWhile (· ≠ '\n') := fun hm ↦ by
      simpa using List.mem_rtakeWhile_imp hm
    exact read_indented (fun c hc ↦ hw c (hsuffix.subset hc)) hn
      (fun hnil ↦ hends (rtakeWhile_eq_nil_iff_endsLine.1 hnil)) hl ht

theorem looksArmoured_armour (hw : Blank w) (hl : IsLabel label) (ht : IsArmour label b t) :
    looksArmoured (Utf8.encode w ++ t) = true := by
  obtain ⟨l, ls, rfl, -, -⟩ := ht.lines hl
  rw [looksArmoured_blank hw]
  cases ls with
  | nil =>
    rw [List.intercalate_singleton, Utf8.encode_append]
    exact looksArmoured_beginning _
  | cons k ls =>
    rw [List.intercalate_cons_cons, List.append_assoc, List.append_assoc, Utf8.encode_append]
    exact looksArmoured_beginning _

end Piece

end Pem

theorem Signed.exists_sequence {α : Type} {content : Bytes → Option ((Bytes × α) × Bytes)}
    {s : Bytes} {x : (Signed × α) × Bytes} (h : decode content s = some x) :
    ∃ y, Der.sequence s = some y := by
  simp only [decode, Option.bind_eq_bind, Option.bind_eq_some_iff] at h
  obtain ⟨y, hy, -⟩ := h
  exact ⟨y, hy⟩

namespace Certificate

theorem parse_of_looksArmoured {x : Bytes} (h : Pem.looksArmoured x = true) :
    parse x = ofPem x := by
  have hne : x ≠ [] := by
    rintro rfl
    exact absurd h (by decide)
  rw [parse, if_neg hne, if_pos h]

theorem parse_der {c : Certificate} (h : c.IsDecoded) : parse c.der = .ok c := by
  obtain ⟨s, hs⟩ := h
  obtain ⟨z, hz⟩ := rereads_ofDer.exists_der hs
  obtain ⟨y, hy⟩ := Signed.exists_sequence hz
  have hne : c.der ≠ [] := by
    obtain ⟨a, r, hcons, -⟩ := Der.exists_cons_of_sequence hy
    rw [hcons]
    exact List.cons_ne_nil a r
  rw [parse, if_neg hne, Pem.looksArmoured_sequence hy]
  exact rereads_ofDer.read_der hs

end Certificate

theorem RevocationList.parse_der {s : Bytes} {l : RevocationList} (h : ofDer s = .ok l) :
    parse l.der = .ok l := by
  obtain ⟨z, hz⟩ := rereads_ofDer.exists_der h
  obtain ⟨y, hy⟩ := Signed.exists_sequence hz
  rw [parse, Pem.looksArmoured_sequence hy]
  exact rereads_ofDer.read_der h

namespace Pem.Piece

/-- White space in front of an armour never hides it from who looks for one. It is read there only
if it starts a line; the octets themselves always are. -/
theorem parse_of_blank (w : List Char) (hw : Blank w) (t : Bytes) :
    (∀ c : Certificate, c.IsDecoded → IsArmour "CERTIFICATE" c.der t →
      Certificate.parse c.der = .ok c ∧ looksArmoured (Utf8.encode w ++ t) = true ∧
      Certificate.parse (Utf8.encode w ++ t) =
        if EndsLine w then .ok c else .error (.pem .malformed)) ∧
    ∀ l : RevocationList, (∃ s, RevocationList.ofDer s = .ok l) → IsArmour "X509 CRL" l.der t →
      RevocationList.parse l.der = .ok l ∧ looksArmoured (Utf8.encode w ++ t) = true ∧
      RevocationList.parse (Utf8.encode w ++ t) =
        if EndsLine w then .ok l else .error (.pem .noRevocationList) := by
  refine ⟨fun c hc ht ↦ ?_, fun l hl ht ↦ ?_⟩
  · have hlooks := looksArmoured_armour hw (by decide) ht
    refine ⟨Certificate.parse_der hc, hlooks, ?_⟩
    obtain ⟨s, hs⟩ := hc
    rw [Certificate.parse_of_looksArmoured hlooks, Certificate.ofPem,
      read_blank_armour hw (by decide) ht]
    by_cases hends : EndsLine w
    · rw [if_pos hends, if_pos hends]
      exact Certificate.rereads_ofDer.read_der hs
    · rw [if_neg hends, if_neg hends]
  · have hlooks := looksArmoured_armour hw (by decide) ht
    obtain ⟨s, hs⟩ := hl
    refine ⟨RevocationList.parse_der hs, hlooks, ?_⟩
    rw [RevocationList.parse, if_pos hlooks, RevocationList.armoured, contents,
      read_blank_armour hw (by decide) ht]
    by_cases hends : EndsLine w
    · rw [if_pos hends, if_pos hends]
      exact RevocationList.rereads_ofDer.read_der hs
    · rw [if_neg hends, if_neg hends]
      rfl

theorem isArmour_sampleArmour (label : String) (b : Bytes) :
    IsArmour label b (text [sampleArmour label b]) :=
  ⟨_, armours_sampleArmour label b, .inl rfl⟩

theorem parse_of_blank_mixed :
    Certificate.parse (Utf8.encode "\t\r\n \n".toList ++
      text [sampleArmour "CERTIFICATE" (Certificate.sample 'A' 'A' []).der]) =
        .ok (.sample 'A' 'A' []) ∧
    RevocationList.parse (Utf8.encode "\n\r".toList ++
      text [sampleArmour "X509 CRL" (RevocationList.sample 'B' 'E' ['C']).der]) =
        .error (.pem .noRevocationList) := by
  have hc : (Certificate.sample 'A' 'A' []).IsDecoded :=
    Certificate.isDecoded_sample (by decide +kernel)
  have hl : RevocationList.ofDer (RevocationList.sampleDer 'B' 'E' ['C']) =
      .ok (.sample 'B' 'E' ['C']) := by decide +kernel
  have hread := (parse_of_blank "\t\r\n \n".toList (by decide) _).1 _ hc
    (isArmour_sampleArmour _ _)
  have hmissed := (parse_of_blank "\n\r".toList (by decide) _).2 _ ⟨_, hl⟩
    (isArmour_sampleArmour _ _)
  exact ⟨hread.2.2.trans (if_pos (by decide)), hmissed.2.2.trans (if_neg (by decide))⟩

/-- Behind one space an armour is found, but what it holds is not. -/
theorem parse_loses_indented :
    Blank [' '] ∧
    (Certificate.parse (Certificate.sample 'A' 'A' []).der = .ok (.sample 'A' 'A' []) ∧
      Certificate.parse (text [sampleArmour "CERTIFICATE" (Certificate.sample 'A' 'A' []).der]) =
        .ok (.sample 'A' 'A' []) ∧
      Certificate.parse (Utf8.encode [' '] ++
        text [sampleArmour "CERTIFICATE" (Certificate.sample 'A' 'A' []).der]) =
          .error (.pem .malformed)) ∧
    RevocationList.parse (RevocationList.sample 'B' 'E' ['C']).der =
        .ok (.sample 'B' 'E' ['C']) ∧
      RevocationList.parse
        (text [sampleArmour "X509 CRL" (RevocationList.sample 'B' 'E' ['C']).der]) =
          .ok (.sample 'B' 'E' ['C']) ∧
      RevocationList.parse (Utf8.encode [' '] ++
        text [sampleArmour "X509 CRL" (RevocationList.sample 'B' 'E' ['C']).der]) =
          .error (.pem .noRevocationList) := by
  decide +kernel

end Pem.Piece

namespace Pem

theorem head?_collect {labels : List String} {found l : List Bytes} {bs : List (Option Block)}
    (h : collect labels found bs = some l) :
    l.head? = found.head?.or
      (((bs.filterMap id).find? (·.label ∈ labels)).map Block.contents) := by
  induction bs generalizing found with
  | nil =>
    cases h
    simp
  | cons b bs ih =>
    cases b with
    | none =>
      rw [collect] at h
      split at h
      · cases h
      · rename_i hne
        cases h
        obtain ⟨b, found, rfl⟩ := List.exists_cons_of_ne_nil hne
        rfl
    | some b =>
      rw [collect] at h
      rw [ih h]
      by_cases hb : b.label ∈ labels
      · rw [if_pos hb, List.head?_append, Option.or_assoc]
        simp [hb]
      · rw [if_neg hb]
        simp [hb]

end Pem

namespace Certificate

variable {x : Bytes} {c : Certificate} {cs : List Certificate}

theorem exists_of_ofPem (h : ofPem x = .ok c) :
    ∃ b r, Pem.read x = some b :: r ∧ b.label ∈ "X509 CERTIFICATE" :: armourLabels ∧
      ofDer b.contents = .ok c := by
  unfold ofPem at h
  split at h
  · rename_i b r hread
    split at h
    · rename_i hlabel
      exact ⟨b, r, hread, hlabel, h⟩
    · cases h
  · cases h

theorem head?_parseChain (h : parseChain x = .ok cs) :
    ∃ k d, ((Pem.read x).filterMap id).find? (·.label ∈ armourLabels) = some k ∧
      ofDer k.contents = .ok d ∧ cs.head? = some d := by
  rw [parseChain, Pem.contents] at h
  split at h
  · cases h
  · cases h
  · rename_i found hne hcollect
    have hhead := Pem.head?_collect hcollect
    cases found with
    | nil => exact absurd rfl hne
    | cons b found =>
      obtain ⟨d, ds, hd, -, rfl⟩ := exists_of_mapM_cons h
      rw [List.head?_cons, List.head?_nil, Option.none_or] at hhead
      obtain ⟨k, hk, rfl⟩ := Option.map_eq_some_iff.1 hhead.symm
      exact ⟨k, d, hk, hd, rfl⟩

/-- The two readers see the same first certificate unless its block has the label that only one of
them knows. The other then goes on to the next block it knows. -/
theorem head?_parseChain_of_ofPem (hone : ofPem x = .ok c) (hall : parseChain x = .ok cs) :
    ∃ b r, Pem.read x = some b :: r ∧ ofDer b.contents = .ok c ∧
      (b.label ≠ "X509 CERTIFICATE" → cs.head? = some c) ∧
      (b.label = "X509 CERTIFICATE" →
        ∃ k d, (r.filterMap id).find? (·.label ∈ armourLabels) = some k ∧
          ofDer k.contents = .ok d ∧ cs.head? = some d) := by
  obtain ⟨b, r, hread, hlabel, hc⟩ := exists_of_ofPem hone
  obtain ⟨k, d, hk, hd, hcs⟩ := head?_parseChain hall
  have hreadable : (some b :: r).filterMap id = b :: r.filterMap id := rfl
  rw [hread, hreadable, List.find?_cons] at hk
  refine ⟨b, r, hread, hc, fun hne ↦ ?_, fun heq ↦ ?_⟩
  · have hwanted : b.label ∈ armourLabels := List.mem_of_ne_of_mem hne hlabel
    rw [decide_eq_true hwanted] at hk
    cases hk
    obtain rfl : c = d := Except.ok.inj (hc.symm.trans hd)
    exact hcs
  · have hunknown : b.label ∉ armourLabels := by
      rw [heq]
      decide
    rw [decide_eq_false hunknown] at hk
    exact ⟨k, d, hk, hd, hcs⟩

open Pem Piece

def sampleLegacy : Bytes :=
  text [.line "subject=B".toList, sampleArmour "X509 CERTIFICATE" (sample 'B' 'A' []).der,
    sampleBare "X509 CRL" "MG8w", sampleArmour "TRUSTED CERTIFICATE" (sample 'A' 'A' []).der]

theorem head?_parseChain_of_ofPem_legacy :
    ∃ b r, read sampleLegacy = some b :: r ∧ ofDer b.contents = .ok (sample 'B' 'A' []) ∧
      ∃ k d, (r.filterMap id).find? (·.label ∈ armourLabels) = some k ∧ ofDer k.contents = .ok d ∧
        some (sample 'A' 'A' []) = some d := by
  have hone : ofPem sampleLegacy = .ok (sample 'B' 'A' []) := by decide +kernel
  have hall : parseChain sampleLegacy = .ok [sample 'A' 'A' []] := by decide +kernel
  have hfirst : (read sampleLegacy).head? =
      some (some ⟨"X509 CERTIFICATE", (sample 'B' 'A' []).der⟩) := by decide +kernel
  obtain ⟨b, r, hread, hc, -, hlegacy⟩ := head?_parseChain_of_ofPem hone hall
  rw [hread] at hfirst
  cases hfirst
  exact ⟨_, r, hread, hc, hlegacy rfl⟩

theorem readers_disagree :
    ofPem (text [sampleArmour "X509 CERTIFICATE" (sample 'A' 'A' []).der,
        sampleArmour "CERTIFICATE" (sample 'B' 'A' []).der]) = .ok (sample 'A' 'A' []) ∧
      parseChain (text [sampleArmour "X509 CERTIFICATE" (sample 'A' 'A' []).der,
        sampleArmour "CERTIFICATE" (sample 'B' 'A' []).der]) = .ok [sample 'B' 'A' []] ∧
      sample 'A' 'A' [] ≠ sample 'B' 'A' [] := by
  decide +kernel

end Certificate

end CertPath
