import CertPath.Proofs.Base64Text
import CertPath.Proofs.Bundles
import Mathlib.Data.List.TakeWhile

namespace CertPath

namespace Pem

def Shows (l k : List Char) : Prop := l = k ∨ l = k ++ ['\r']

/-- Labels by which blocks can be told. A hyphen would end them. -/
def IsLabel (label : String) : Prop := Plain label.toList ∧ '-' ∉ label.toList

instance (label : String) : Decidable (IsLabel label) := inferInstanceAs (Decidable (_ ∧ _))

section Shows

variable {l k : List Char}

theorem Shows.plain (h : Shows l k) (hk : Plain k) : Plain l := by
  rcases h with rfl | rfl
  · exact hk
  · exact hk.append (by decide)

theorem Shows.trimEnd_eq (h : Shows l k) (hk : ∀ c ∈ k, isBlank c = false) : trimEnd l = k := by
  have hreturn : isBlank '\r' = true := by decide
  have hdrop : k.reverse.dropWhile isBlank = k.reverse := by
    refine List.dropWhile_eq_self_iff.2 fun hlength ↦ ?_
    rw [hk _ (List.mem_reverse.1 (List.getElem_mem hlength))]
    exact Bool.false_ne_true
  rcases h with rfl | rfl
  · rw [trimEnd, hdrop, List.reverse_reverse]
  · rw [trimEnd, List.reverse_append, List.reverse_singleton, List.singleton_append,
      List.dropWhile_cons, if_pos hreturn, hdrop, List.reverse_reverse]

theorem Shows.not_mem {c : Char} (h : Shows l k) (hc : c ≠ '\r') (hk : c ∉ k) : c ∉ l := by
  rcases h with rfl | rfl
  · exact hk
  · simpa [hc] using hk

end Shows

namespace Piece

/-- A block with these octets in base 64, broken into lines anywhere. -/
def Armours (label : String) (b : Bytes) : Piece → Prop
  | line _ => False
  | block name after body closing =>
    name = label.toList ∧ Shows after [] ∧
      (∃ parts, parts.flatten = Base64.encode b ∧ List.Forall₂ Shows body parts) ∧
      Shows closing (label.toList ++ dashes)

variable {label : String} {b : Bytes} {p : Piece} {body parts : List (List Char)}

theorem plain_alphabet : Plain ('=' :: Base64.alphabet) := by decide

theorem isBlank_of_mem_alphabet {c : Char} (hc : c ∈ '=' :: Base64.alphabet) :
    isBlank c = false := by
  have hnone : ('=' :: Base64.alphabet).any isBlank = false := by decide
  exact Bool.eq_false_iff.2 (List.any_eq_false.1 hnone c hc)

theorem mem_alphabet_of_mem (hparts : parts.flatten = Base64.encode b) {k : List Char}
    (hk : k ∈ parts) {c : Char} (hc : c ∈ k) : c ∈ '=' :: Base64.alphabet :=
  Base64.forall_mem_encode b c (hparts ▸ List.mem_flatten.2 ⟨k, hk, hc⟩)

theorem flatMap_trimEnd (h : List.Forall₂ Shows body parts)
    (hparts : ∀ k ∈ parts, ∀ c ∈ k, isBlank c = false) :
    body.flatMap (fun l ↦ Utf8.encode (trimEnd l)) = Utf8.encode parts.flatten := by
  induction h with
  | nil => rfl
  | cons hl h ih =>
    obtain ⟨hk, hparts⟩ := List.forall_mem_cons.1 hparts
    rw [List.flatMap_cons, hl.trimEnd_eq hk, ih hparts, List.flatten_cons, Utf8.encode_append]

theorem Armours.block?_eq (h : p.Armours label b) (hl : IsLabel label) :
    p.block? = some ⟨label, b⟩ := by
  cases p with
  | line text => exact h.elim
  | block name after body closing =>
    obtain ⟨rfl, -, ⟨parts, hparts, hbody⟩, -⟩ := h
    have hdecode : Base64.decode (body.flatMap fun l ↦ Utf8.encode (trimEnd l)) = some b := by
      rw [flatMap_trimEnd hbody fun k hk c hc ↦
        isBlank_of_mem_alphabet (mem_alphabet_of_mem hparts hk hc), hparts, Base64.decode_encode]
    have hname : label.toList.takeWhile (· ≠ '-') = label.toList := by
      rw [List.takeWhile_eq_self_iff]
      intro c hc
      have hne : c ≠ '-' := fun he ↦ hl.2 (he ▸ hc)
      simpa using hne
    rw [block?, hdecode, hname, String.ofList_toList]
    rfl

theorem plain_of_shows (h : List.Forall₂ Shows body parts)
    (hparts : ∀ k ∈ parts, Plain k ∧ '-' ∉ k) : ∀ l ∈ body, Plain l ∧ '-' ∉ l := by
  induction h with
  | nil => nofun
  | cons hl h ih =>
    obtain ⟨⟨hplain, hk⟩, hparts⟩ := List.forall_mem_cons.1 hparts
    exact List.forall_mem_cons.2 ⟨⟨hl.plain hplain, hl.not_mem (by decide) hk⟩, ih hparts⟩

theorem not_ending_of_not_mem {l : List Char} (h : '-' ∉ l) : ¬ ending <+: l :=
  fun hpre ↦ h (hpre.subset (by decide))

theorem Armours.plain_body {name after closing : List Char}
    (h : (block name after body closing).Armours label b) : ∀ l ∈ body, Plain l ∧ '-' ∉ l := by
  obtain ⟨-, -, ⟨parts, hparts, hbody⟩, -⟩ := h
  have hhyphen : '-' ∉ '=' :: Base64.alphabet := by decide
  exact plain_of_shows hbody fun k hk ↦
    ⟨fun c hc ↦ plain_alphabet c (mem_alphabet_of_mem hparts hk hc),
      fun hc ↦ hhyphen (mem_alphabet_of_mem hparts hk hc)⟩

theorem Armours.wellFormed (h : p.Armours label b) (hl : IsLabel label) : p.WellFormed := by
  cases p with
  | line text => exact h.elim
  | block name after body closing =>
    have hbody := h.plain_body
    obtain ⟨rfl, hafter, -, hclosing⟩ := h
    exact ⟨hl.1, hafter.plain nofun,
      fun l hm ↦ ⟨(hbody l hm).1, not_ending_of_not_mem (hbody l hm).2⟩,
      hclosing.plain (hl.1.append plain_dashes)⟩

/-- A text that holds these octets in blocks with these labels. Between them stand lines that begin
no block, and blocks that can be read and have another label. -/
inductive Document (labels : List String) : List Bytes → List Piece → Prop
  | nil : Document labels [] []
  | line {text : List Char} {bs : List Bytes} {ps : List Piece} (ht : Plain text)
    (hb : ¬ beginning <+: text) (h : Document labels bs ps) : Document labels bs (line text :: ps)
  | other {label after closing : List Char} {body : List (List Char)} {bs : List Bytes}
    {ps : List Piece} (hp : (block label after body closing).WellFormed)
    (hr : (block label after body closing).isBroken = false) (hl : String.ofList label ∉ labels)
    (h : Document labels bs ps) : Document labels bs (block label after body closing :: ps)
  | armour {p : Piece} {label : String} {b : Bytes} {bs : List Bytes} {ps : List Piece}
    (hp : p.Armours label b) (hl : label ∈ labels) (h : Document labels bs ps) :
    Document labels (b :: bs) (p :: ps)

/-- A block with another label, which is one of these as far as its first hyphen. -/
def IsCut (labels : List String) : Piece → Prop
  | line _ => False
  | block label _ _ _ =>
    String.ofList label ∉ labels ∧ String.ofList (label.takeWhile (· ≠ '-')) ∈ labels

instance (labels : List String) (p : Piece) : Decidable (p.IsCut labels) :=
  match p with
  | line _ => inferInstanceAs (Decidable False)
  | block .. => inferInstanceAs (Decidable (_ ∧ _))

def selection (labels : List String) (ps : List Piece) : List Bytes :=
  ((ps.filterMap block?).filter (·.label ∈ labels)).map Block.contents

section Document

variable {labels : List String} {bs : List Bytes} {ps : List Piece}

theorem isBroken_of_block? {k : Block} (h : p.block? = some k) : p.isBroken = false := by
  cases p with
  | line text => rfl
  | block name after body closing => rw [isBroken, h]; rfl

theorem exists_block?_eq {name after closing : List Char}
    (h : (block name after body closing).isBroken = false) :
    ∃ contents, (block name after body closing).block? =
      some ⟨String.ofList (name.takeWhile (· ≠ '-')), contents⟩ := by
  rw [isBroken, block?, Option.isNone_map, Option.isNone_eq_false_iff] at h
  obtain ⟨contents, hcontents⟩ := Option.isSome_iff_exists.1 h
  exact ⟨contents, by rw [block?, hcontents]; rfl⟩

theorem selection_cons_of_block? {k : Block} (h : p.block? = some k) (ps : List Piece) :
    selection labels (p :: ps) =
      if k.label ∈ labels then k.contents :: selection labels ps else selection labels ps := by
  unfold selection
  rw [List.filterMap_cons_some h, List.filter_cons]
  by_cases hk : k.label ∈ labels <;> simp [hk]

theorem Document.wellFormed (h : Document labels bs ps) (hl : ∀ k ∈ labels, IsLabel k) :
    ∀ p ∈ ps, p.WellFormed ∧ p.isBroken = false := by
  induction h with
  | nil => nofun
  | line ht hb h ih => exact List.forall_mem_cons.2 ⟨⟨⟨ht, hb⟩, rfl⟩, ih⟩
  | other hp hr _ h ih => exact List.forall_mem_cons.2 ⟨⟨hp, hr⟩, ih⟩
  | armour hp hlabel h ih =>
    exact List.forall_mem_cons.2
      ⟨⟨hp.wellFormed (hl _ hlabel), isBroken_of_block? (hp.block?_eq (hl _ hlabel))⟩, ih⟩

theorem Armours.not_isCut (h : p.Armours label b) (hl : label ∈ labels) : ¬ p.IsCut labels := by
  cases p with
  | line text => exact h.elim
  | block name after body closing =>
    rintro ⟨hname, -⟩
    rw [h.1, String.ofList_toList] at hname
    exact hname hl

theorem Document.selection_eq (h : Document labels bs ps) (hl : ∀ k ∈ labels, IsLabel k)
    (hcut : ∀ p ∈ ps, ¬ p.IsCut labels) : selection labels ps = bs := by
  induction h with
  | nil => rfl
  | line _ _ h ih => exact ih (List.forall_mem_cons.1 hcut).2
  | other _ hr hlabel h ih =>
    obtain ⟨hp, hps⟩ := List.forall_mem_cons.1 hcut
    obtain ⟨contents, hblock⟩ := exists_block?_eq hr
    rw [selection_cons_of_block? hblock, if_neg fun hmem ↦ hp ⟨hlabel, hmem⟩, ih hps]
  | armour hp hlabel h ih =>
    rw [selection_cons_of_block? (hp.block?_eq (hl _ hlabel)), if_pos hlabel,
      ih (List.forall_mem_cons.1 hcut).2]

theorem Document.length_selection (h : Document labels bs ps) (hl : ∀ k ∈ labels, IsLabel k) :
    (selection labels ps).length = bs.length + ps.countP (·.IsCut labels) := by
  induction h with
  | nil => rfl
  | @line text _ _ _ _ h ih =>
    have hcut : ¬ (Piece.line text).IsCut labels := id
    rw [List.countP_cons_of_neg (by simpa using hcut)]
    exact ih
  | @other name after closing body bs ps _ hr hlabel h ih =>
    obtain ⟨contents, hblock⟩ := exists_block?_eq hr
    rw [selection_cons_of_block? hblock]
    by_cases hmem : String.ofList (name.takeWhile (· ≠ '-')) ∈ labels
    · have hcut : (block name after body closing).IsCut labels := ⟨hlabel, hmem⟩
      rw [if_pos hmem, List.countP_cons_of_pos (by simpa using hcut), List.length_cons, ih,
        Nat.add_assoc]
    · have hcut : ¬ (block name after body closing).IsCut labels := fun hc ↦ hmem hc.2
      rw [if_neg hmem, List.countP_cons_of_neg (by simpa using hcut), ih]
  | armour hp hlabel h ih =>
    rw [selection_cons_of_block? (hp.block?_eq (hl _ hlabel)), if_pos hlabel,
      List.countP_cons_of_neg (by simpa using hp.not_isCut hlabel), List.length_cons,
      List.length_cons, ih, Nat.succ_add]

theorem Document.not_isCut (h : Document labels bs ps) (hl : ∀ k ∈ labels, IsLabel k)
    (hlength : (selection labels ps).length = bs.length) : ∀ p ∈ ps, ¬ p.IsCut labels := by
  rw [h.length_selection hl, Nat.add_eq_left, List.countP_eq_zero] at hlength
  simpa using hlength

theorem read_of_not_broken (h : ∀ p ∈ ps, p.WellFormed ∧ p.isBroken = false) :
    read (text ps) = (ps.filterMap block?).map some := by
  have hall : ps.takeWhile (!·.isBroken) = ps :=
    List.takeWhile_eq_self_iff.2 fun p hp ↦ by simp [(h p hp).2]
  have hany : ps.any isBroken = false := by
    rw [List.any_eq_false]
    intro p hp
    simp [(h p hp).2]
  rw [read_text fun p hp ↦ (h p hp).1, hall, hany]
  simp

theorem Document.contents_text (h : Document labels bs ps) (hl : ∀ k ∈ labels, IsLabel k)
    (hne : bs ≠ []) (missing : PemProblem) :
    contents labels missing (text ps) = .ok (selection labels ps) := by
  have hread : read (text ps) = (ps.filterMap block?).map some ++ if false then [none] else [] := by
    simpa using read_of_not_broken (h.wellFormed hl)
  have hcollect : (collect labels [] (read (text ps))).getD [] = selection labels ps := by
    rw [hread, collect_getD, List.nil_append, selection]
  have hselection : selection labels ps ≠ [] := by
    rw [← List.length_pos_iff, h.length_selection hl]
    exact Nat.add_pos_left (List.length_pos_iff.2 hne) _
  rcases Option.getD_eq_iff.1 hcollect with hc | ⟨-, hnil⟩
  · obtain ⟨b, r, hs⟩ := List.exists_cons_of_ne_nil hselection
    rw [contents, hc, hs]
  · exact absurd hnil.symm hselection

end Document

end Piece

end Pem

theorem Certificate.mapM_ofDer {cs : List Certificate} (h : ∀ c ∈ cs, c.IsDecoded) :
    (cs.map der).mapM ofDer = .ok cs := by
  induction cs with
  | nil => rfl
  | cons c cs ih =>
    obtain ⟨⟨s, hs⟩, hcs⟩ := List.forall_mem_cons.1 h
    rw [List.map_cons, List.mapM_cons, rereads_ofDer.read_der hs, ih hcs]
    rfl

theorem Certificate.exists_of_mapM_cons {b : Bytes} {bs : List Bytes} {cs : List Certificate}
    (h : (b :: bs).mapM ofDer = .ok cs) :
    ∃ d ds, ofDer b = .ok d ∧ bs.mapM ofDer = .ok ds ∧ cs = d :: ds := by
  rw [List.mapM_cons] at h
  cases hd : ofDer b with
  | error e => rw [hd] at h; cases h
  | ok d =>
    rw [hd] at h
    cases hds : bs.mapM ofDer with
    | error e => rw [hds] at h; cases h
    | ok ds =>
      rw [hds] at h
      cases h
      exact ⟨d, ds, rfl, rfl, rfl⟩

theorem Certificate.length_of_mapM {bs : List Bytes} {cs : List Certificate}
    (h : bs.mapM ofDer = .ok cs) : cs.length = bs.length := by
  induction bs generalizing cs with
  | nil =>
    cases h
    rfl
  | cons b bs ih =>
    obtain ⟨d, ds, -, hds, rfl⟩ := exists_of_mapM_cons h
    rw [List.length_cons, List.length_cons, ih hds]

namespace Pem.Piece

/-- What stands in blocks with the labels that are looked for is found again, however the text goes
on around them, unless one of these labels is cut off from another. -/
theorem parse_of_document (ps : List Piece) :
    (∀ cs, Document Certificate.armourLabels (cs.map Certificate.der) ps → cs ≠ [] →
      (∀ c ∈ cs, c.IsDecoded) →
      (Certificate.parseChain (text ps) = .ok cs ↔
        ∀ p ∈ ps, ¬ p.IsCut Certificate.armourLabels)) ∧
    ∀ bs, Document ["X509 CRL"] bs ps → bs ≠ [] →
      (RevocationList.armoured (text ps) = .ok bs ↔ ∀ p ∈ ps, ¬ p.IsCut ["X509 CRL"]) := by
  refine ⟨fun cs h hne hcs ↦ ?_, fun bs h hne ↦ ?_⟩
  · have hcontents := h.contents_text (by decide) (by simpa using hne) .noCertificate
    rw [Certificate.parseChain, hcontents]
    constructor
    · intro hmap
      refine h.not_isCut (by decide) ?_
      rw [List.length_map]
      exact (Certificate.length_of_mapM hmap).symm
    · intro hcut
      rw [h.selection_eq (by decide) hcut]
      exact Certificate.mapM_ofDer hcs
  · rw [RevocationList.armoured, h.contents_text (by decide) hne]
    constructor
    · intro hok
      exact h.not_isCut (by decide) (congrArg List.length (Except.ok.inj hok))
    · intro hcut
      rw [h.selection_eq (by decide) hcut]

def sampleArmour (label : String) (b : Bytes) : Piece :=
  .block label.toList ['\r'] [(Base64.encode b).take 5 ++ ['\r'], (Base64.encode b).drop 5]
    (label.toList ++ dashes)

theorem armours_sampleArmour (label : String) (b : Bytes) :
    (sampleArmour label b).Armours label b := by
  refine ⟨rfl, .inr rfl, ⟨[(Base64.encode b).take 5, (Base64.encode b).drop 5], ?_, ?_⟩, .inl rfl⟩
  · simp
  · exact .cons (.inr rfl) (.cons (.inl rfl) .nil)

def sampleBare (label symbols : String) : Piece :=
  .block label.toList [] [symbols.toList] (label.toList ++ dashes)

theorem parse_of_document_mixed :
    Certificate.parseChain (text [.line "subject=B".toList,
      sampleArmour "TRUSTED CERTIFICATE" (Certificate.sample 'B' 'A' []).der, .line [],
      sampleBare "X509 CRL" "MG8w",
      sampleArmour "CERTIFICATE" (Certificate.sample 'A' 'A' []).der]) =
        .ok [.sample 'B' 'A' [], .sample 'A' 'A' []] ∧
    RevocationList.armoured (text [sampleArmour "X509 CRL" [1, 2], sampleBare "CERTIFICATE" "MG8w",
      sampleArmour "X509 CRL" [], .line ['\r']]) = .ok [[1, 2], []] := by
  refine ⟨((parse_of_document _).1 _ ?_ (by simp) ?_).2 (by decide),
    ((parse_of_document _).2 _ ?_ (by simp)).2 (by decide)⟩
  · exact .line (by decide) (by decide) (.armour (armours_sampleArmour _ _) (by decide)
      (.line (by decide) (by decide) (.other (by decide) (by decide) (by decide)
        (.armour (armours_sampleArmour _ _) (by decide) .nil))))
  · exact List.forall_mem_cons.2 ⟨Certificate.isDecoded_sample (by decide +kernel),
      List.forall_mem_singleton.2 (Certificate.isDecoded_sample (by decide +kernel))⟩
  · exact .armour (armours_sampleArmour _ _) (by decide)
      (.other (by decide) (by decide) (by decide)
        (.armour (armours_sampleArmour _ _) (by decide) (.line (by decide) (by decide) .nil)))

/-- Of a label no more is read than what stands before its first hyphen. A block that is no
certificate and is not said to be one is taken for one. -/
theorem parseChain_misreads_hyphen :
    Document Certificate.armourLabels [(Certificate.sample 'A' 'A' []).der]
      [sampleBare "CERTIFICATE-REQUEST" "MG8w",
        sampleArmour "CERTIFICATE" (Certificate.sample 'A' 'A' []).der] ∧
    (sampleBare "CERTIFICATE-REQUEST" "MG8w").WellFormed ∧
    Base64.decode (Utf8.ofString "MG8w") = some [48, 111, 48] ∧
    "CERTIFICATE-REQUEST" ∉ Certificate.armourLabels ∧
    Certificate.parseChain (text [sampleArmour "CERTIFICATE" (Certificate.sample 'A' 'A' []).der]) =
      .ok [.sample 'A' 'A' []] ∧
    Certificate.parseChain (text [sampleBare "CERTIFICATE-REQUEST" "MG8w",
      sampleArmour "CERTIFICATE" (Certificate.sample 'A' 'A' []).der]) =
      .error (.der .certificate) := by
  refine ⟨.other (by decide) (by decide) (by decide) ?_, by decide +kernel⟩
  exact .armour (armours_sampleArmour _ _) (by decide) .nil

end Pem.Piece

end CertPath
