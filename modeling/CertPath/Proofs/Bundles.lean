import CertPath.AnchorStore
import CertPath.Proofs.Decoding
import CertPath.Proofs.Utf8Text
import Mathlib.Data.List.Basic

namespace CertPath

namespace Pem

def Plain (l : List Char) : Prop := ∀ c ∈ l, c.toNat < 128 ∧ c ≠ '\n'

instance (l : List Char) : Decidable (Plain l) := List.decidableBAll _ l

theorem Plain.append {l k : List Char} (hl : Plain l) (hk : Plain k) : Plain (l ++ k) :=
  List.forall_mem_append.2 ⟨hl, hk⟩

theorem plain_beginning : Plain beginning := by decide

theorem plain_dashes : Plain dashes := by decide

theorem plain_ending : Plain ending := by decide

section Lines

variable {l : Bytes}

theorem lines_append (h : 10 ∉ l) (r : Bytes) : lines (l ++ 10 :: r) = (l ++ [10]) :: lines r := by
  induction l with
  | nil => rfl
  | cons x l ih =>
    have hx : x ≠ 10 := fun he ↦ h (he ▸ List.mem_cons_self)
    have hl := ih fun hm ↦ h (List.mem_cons_of_mem _ hm)
    rw [List.cons_append, lines, if_neg hx, hl]
    rfl

theorem lines_eq_singleton (h : 10 ∉ l) (hne : l ≠ []) : lines l = [l] := by
  induction l with
  | nil => exact absurd rfl hne
  | cons x l ih =>
    have hx : x ≠ 10 := fun he ↦ h (he ▸ List.mem_cons_self)
    rw [lines, if_neg hx]
    cases l with
    | nil => rfl
    | cons y l => rw [ih (fun hm ↦ h (List.mem_cons_of_mem _ hm)) (List.cons_ne_nil y l)]

def terminated : List (List Char) → List (List Char)
  | [] => []
  | [l] => if l = [] then [] else [l]
  | l :: k :: ls => (l ++ ['\n']) :: terminated (k :: ls)

theorem lines_encode {ls : List (List Char)} (h : ∀ l ∈ ls, Plain l) :
    lines (Utf8.encode (['\n'].intercalate ls)) = (terminated ls).map Utf8.encode := by
  induction ls with
  | nil => rfl
  | cons l ls ih =>
    obtain ⟨hl, hls⟩ := List.forall_mem_cons.1 h
    cases ls with
    | nil =>
      rw [List.intercalate_singleton, terminated]
      split
      · rename_i he
        rw [he]
        rfl
      · rename_i hne
        refine lines_eq_singleton (Utf8.feed_not_mem_encode hl) ?_
        rw [Utf8.encode_of_ascii fun c hc ↦ (hl c hc).1]
        simpa using hne
    | cons k ls =>
      have hcat : Utf8.encode (['\n'].intercalate (l :: k :: ls)) =
          Utf8.encode l ++ 10 :: Utf8.encode (['\n'].intercalate (k :: ls)) := by
        rw [List.intercalate_cons_cons]
        simp [Utf8.encode, Utf8.encodeChar]
      rw [hcat, lines_append (Utf8.feed_not_mem_encode hl), ih hls, terminated, List.map_cons]
      congr 1
      simp [Utf8.encode, Utf8.encodeChar]

end Lines

section Scan

variable {l label after closing : List Char} {k : String} {s : Bytes} {ls : List (List Char)}

def feed (ls : List (List Char)) : List Char := if ls = [] then [] else ['\n']

theorem terminated_cons (h : l ≠ [] ∨ ls ≠ []) :
    terminated (l :: ls) = (l ++ feed ls) :: terminated ls := by
  cases ls with
  | nil =>
    have hl : l ≠ [] := by simpa using h
    simp [terminated, feed, hl]
  | cons k ls => rfl

theorem decode_encode_feed (hl : Plain l) (ls : List (List Char)) :
    Utf8.decode (Utf8.encode (l ++ feed ls)) = some (l ++ feed ls) := by
  apply Utf8.decode_encode_of_ascii
  intro c hc
  rcases List.mem_append.1 hc with hc | hc
  · exact (hl c hc).1
  · rw [feed] at hc
    split at hc
    · simp at hc
    · obtain rfl := List.mem_singleton.1 hc
      decide

theorem isPrefixOf_feed {p : List Char} (hp : '\n' ∉ p) (h : ¬ p <+: l) (ls : List (List Char)) :
    p.isPrefixOf (l ++ feed ls) = false := by
  rw [Bool.eq_false_iff, ne_eq, List.isPrefixOf_iff_prefix, feed]
  split
  · simpa using h
  · rw [List.prefix_concat_iff]
    rintro (rfl | hpre)
    · simp at hp
    · exact h hpre

theorem trimEnd_feed (l : List Char) (ls : List (List Char)) :
    trimEnd (l ++ feed ls) = trimEnd l := by
  rw [feed]
  split
  · simp
  · have hblank : isBlank '\n' = true := by decide
    simp [trimEnd, hblank]

theorem scan_line (hl : Plain l) (h : ¬ beginning <+: l) (ls : List (List Char)) :
    scan none ((terminated (l :: ls)).map Utf8.encode) =
      scan none ((terminated ls).map Utf8.encode) := by
  by_cases hne : l ≠ [] ∨ ls ≠ []
  · rw [terminated_cons hne, List.map_cons, scan, decode_encode_feed hl]
    simp [isPrefixOf_feed (by decide : '\n' ∉ beginning) h]
  · obtain ⟨rfl, rfl⟩ : l = [] ∧ ls = [] := by simpa using hne
    rfl

theorem hasDashes_append (a b : List Char) : hasDashes (a ++ dashes ++ b) = true := by
  induction a with
  | nil =>
    have hpre : dashes.isPrefixOf ([] ++ dashes ++ b) = true := by
      simp [List.isPrefixOf_iff_prefix]
    cases h : [] ++ dashes ++ b with
    | nil => simp [dashes] at h
    | cons c r =>
      rw [h] at hpre
      rw [hasDashes, hpre, Bool.true_or]
  | cons c a ih => rw [List.cons_append, List.cons_append, hasDashes, ih, Bool.or_true]

theorem labelOf_append (label after : List Char) :
    labelOf (label ++ dashes ++ after) = some (String.ofList (label.takeWhile (· ≠ '-'))) := by
  have hdash : ∀ a : List Char,
      (a ++ dashes ++ after).takeWhile (· ≠ '-') = a.takeWhile (· ≠ '-') := by
    intro a
    induction a with
    | nil => rfl
    | cons c a ih =>
      rw [List.cons_append, List.cons_append, List.takeWhile_cons, List.takeWhile_cons, ih]
  rw [labelOf, if_pos (hasDashes_append label after), hdash]

theorem scan_beginning (hl : Plain label) (ha : Plain after) (ls : List (List Char)) :
    scan none ((terminated ((beginning ++ label ++ dashes ++ after) :: ls)).map Utf8.encode) =
      scan (some (String.ofList (label.takeWhile (· ≠ '-')), []))
        ((terminated ls).map Utf8.encode) := by
  have hplain : Plain (beginning ++ label ++ dashes ++ after) :=
    ((plain_beginning.append hl).append plain_dashes).append ha
  have hne : beginning ++ label ++ dashes ++ after ≠ [] := by simp [dashes]
  have hpre : beginning.isPrefixOf (beginning ++ label ++ dashes ++ after ++ feed ls) = true := by
    simp [List.isPrefixOf_iff_prefix, List.append_assoc]
  have hdrop : (beginning ++ label ++ dashes ++ after ++ feed ls).drop beginning.length =
      label ++ dashes ++ (after ++ feed ls) := by
    simp [List.append_assoc]
  rw [terminated_cons (.inl hne), List.map_cons, scan, decode_encode_feed hplain]
  simp only [hpre, if_true, hdrop, labelOf_append]

theorem scan_body (hl : Plain l) (h : ¬ ending <+: l) (hne : ls ≠ []) :
    scan (some (k, s)) ((terminated (l :: ls)).map Utf8.encode) =
      scan (some (k, s ++ Utf8.encode (trimEnd l))) ((terminated ls).map Utf8.encode) := by
  rw [terminated_cons (.inr hne), List.map_cons, scan, decode_encode_feed hl]
  simp only [isPrefixOf_feed (by decide : '\n' ∉ ending) h, Bool.false_eq_true, if_false,
    trimEnd_feed]

theorem scan_ending (hc : Plain closing) (ls : List (List Char)) :
    scan (some (k, s)) ((terminated ((ending ++ closing) :: ls)).map Utf8.encode) =
      match Base64.decode s with
      | none => [none]
      | some contents => some ⟨k, contents⟩ :: scan none ((terminated ls).map Utf8.encode) := by
  have hne : ending ++ closing ≠ [] := by
    intro he
    exact absurd (List.append_eq_nil_iff.1 he).1 (by decide)
  have hpre : ending.isPrefixOf (ending ++ closing ++ feed ls) = true := by
    simp [List.isPrefixOf_iff_prefix, List.append_assoc]
  rw [terminated_cons (.inl hne), List.map_cons, scan, decode_encode_feed (plain_ending.append hc)]
  cases Base64.decode s with
  | none => simp only [hpre, if_true]
  | some contents => simp only [hpre, if_true]

theorem scan_block {body : List (List Char)} (hb : ∀ l ∈ body, Plain l ∧ ¬ ending <+: l)
    (hc : Plain closing) (ls : List (List Char)) :
    scan (some (k, s)) ((terminated (body ++ (ending ++ closing) :: ls)).map Utf8.encode) =
      match Base64.decode (s ++ body.flatMap fun l ↦ Utf8.encode (trimEnd l)) with
      | none => [none]
      | some contents => some ⟨k, contents⟩ :: scan none ((terminated ls).map Utf8.encode) := by
  induction body generalizing s with
  | nil => simpa using scan_ending hc ls
  | cons l body ih =>
    obtain ⟨⟨hl, hne⟩, hbody⟩ := List.forall_mem_cons.1 hb
    rw [List.cons_append, scan_body hl hne (by simp), ih hbody, List.flatMap_cons,
      List.append_assoc]

end Scan

/-- A line of text, or a block with all that stands on its lines. -/
inductive Piece
  | line (text : List Char)
  | block (label after : List Char) (body : List (List Char)) (closing : List Char)

namespace Piece

def lines : Piece → List (List Char)
  | line text => [text]
  | block label after body closing =>
    (beginning ++ label ++ dashes ++ after) :: (body ++ [ending ++ closing])

/-- The octets of a text. One that ends in a line feed has an empty line behind it. -/
def text (ps : List Piece) : Bytes := Utf8.encode (['\n'].intercalate (ps.flatMap lines))

/-- No line starts a block, and a block goes on to its last line. -/
def WellFormed : Piece → Prop
  | line text => Plain text ∧ ¬ beginning <+: text
  | block label after body closing =>
    Plain label ∧ Plain after ∧ (∀ l ∈ body, Plain l ∧ ¬ ending <+: l) ∧ Plain closing

instance (p : Piece) : Decidable p.WellFormed :=
  match p with
  | line _ => inferInstanceAs (Decidable (_ ∧ _))
  | block .. => inferInstanceAs (Decidable (_ ∧ _))

def block? : Piece → Option Block
  | line _ => none
  | block label _ body _ =>
    (Base64.decode (body.flatMap fun l ↦ Utf8.encode (trimEnd l))).map
      (Block.mk (String.ofList (label.takeWhile (· ≠ '-'))))

def isBroken : Piece → Bool
  | line _ => false
  | block label after body closing => (block label after body closing).block?.isNone

/-- The certificate in a block that is labelled as one. A label counts up to its first hyphen only, so
that the contents of a `CERTIFICATE-REQUEST` count as those of a `CERTIFICATE`. -/
def certificate? (p : Piece) : Option Certificate :=
  p.block?.bind fun b ↦
    if b.label ∈ Certificate.armourLabels then (Certificate.ofDer b.contents).toOption else none

@[simp] theorem block?_line (text : List Char) : (line text).block? = none := rfl

@[simp] theorem isBroken_line (text : List Char) : (line text).isBroken = false := rfl

theorem WellFormed.plain {p : Piece} (h : p.WellFormed) : ∀ l ∈ p.lines, Plain l := by
  cases p with
  | line text =>
    intro l hl
    obtain rfl := List.mem_singleton.1 hl
    exact h.1
  | block label after body closing =>
    obtain ⟨hlabel, hafter, hbody, hclosing⟩ := h
    intro l hl
    rcases List.mem_cons.1 hl with rfl | hl
    · exact ((plain_beginning.append hlabel).append plain_dashes).append hafter
    · rcases List.mem_append.1 hl with hl | hl
      · exact (hbody l hl).1
      · obtain rfl := List.mem_singleton.1 hl
        exact plain_ending.append hclosing

end Piece

variable {ps : List Piece}

theorem read_text (h : ∀ p ∈ ps, p.WellFormed) :
    read (Piece.text ps) = ((ps.takeWhile (!·.isBroken)).filterMap Piece.block?).map some ++
      if ps.any Piece.isBroken then [none] else [] := by
  have hplain : ∀ l ∈ ps.flatMap Piece.lines, Plain l := by
    intro l hl
    obtain ⟨p, hp, hl⟩ := List.mem_flatMap.1 hl
    exact (h p hp).plain l hl
  rw [read, Piece.text, lines_encode hplain]
  clear hplain
  induction ps with
  | nil => rfl
  | cons p ps ih =>
    obtain ⟨hp, hps⟩ := List.forall_mem_cons.1 h
    cases p with
    | line text =>
      rw [List.flatMap_cons, Piece.lines, List.singleton_append, scan_line hp.1 hp.2, ih hps]
      simp [List.filterMap_cons]
    | block label after body closing =>
      obtain ⟨hlabel, hafter, hbody, hclosing⟩ := hp
      rw [List.flatMap_cons, Piece.lines, List.cons_append, List.append_assoc body,
        List.singleton_append, scan_beginning hlabel hafter, scan_block hbody hclosing, ih hps,
        List.nil_append]
      cases hd : Base64.decode (body.flatMap fun l ↦ Utf8.encode (trimEnd l)) with
      | none =>
        have hbroken : (Piece.block label after body closing).isBroken = true := by
          simp [Piece.isBroken, Piece.block?, hd]
        simp [hbroken]
      | some contents =>
        have hblock : (Piece.block label after body closing).block? =
            some ⟨String.ofList (label.takeWhile (· ≠ '-')), contents⟩ := by
          simp [Piece.block?, hd]
        have hbroken : (Piece.block label after body closing).isBroken = false := by
          simp [Piece.isBroken, hblock]
        simp [hblock, hbroken]

theorem collect_getD (labels : List String) (found : List Bytes) (bs : List Block) (stops : Bool) :
    (collect labels found (bs.map some ++ if stops then [none] else [])).getD [] =
      found ++ (bs.filter (·.label ∈ labels)).map Block.contents := by
  induction bs generalizing found with
  | nil =>
    cases stops with
    | false => simp [collect]
    | true => by_cases h : found = [] <;> simp [collect, h]
  | cons b bs ih =>
    rw [List.map_cons, List.cons_append, collect, ih]
    by_cases h : b.label ∈ labels <;> simp [h]

end Pem

namespace Certificate

theorem parseBundle_eq (input : Bytes) :
    parseBundle input = ((Pem.collect armourLabels [] (Pem.read input)).getD []).filterMap
      fun b ↦ (ofDer b).toOption := by
  rw [parseBundle, Pem.contents]
  split
  · rename_i h
    split at h
    · rename_i hc
      rw [hc]
      rfl
    · rename_i hc
      rw [hc]
      rfl
    · cases h
  · rename_i h
    split at h
    · cases h
    · cases h
    · rename_i hc
      cases h
      rw [hc]
      rfl

theorem parseBundle_text {ps : List Pem.Piece} (h : ∀ p ∈ ps, p.WellFormed) :
    parseBundle (Pem.Piece.text ps) =
      (ps.takeWhile (!·.isBroken)).filterMap Pem.Piece.certificate? := by
  rw [parseBundle_eq, Pem.read_text h, Pem.collect_getD, List.nil_append, List.filterMap_map,
    List.filterMap_filter, List.filterMap_filterMap]
  refine List.filterMap_congr fun p _ ↦ ?_
  simp [Pem.Piece.certificate?]

end Certificate

namespace AnchorSource

def offered (path : String) (cs : List Certificate) : Ending (List Certificate) :=
  if cs = [] then .error (.configuration (.noCertificates path)) else .ok cs

theorem offered_inj {path : String} {cs ds : List Certificate} :
    offered path cs = offered path ds ↔ cs = ds := by
  unfold offered
  split <;> split <;> simp_all [eq_comm]

variable {w : Surroundings} {path : String} {ps : List Pem.Piece}

/-- A block that is no certificate costs itself. A broken one costs all that stands behind it too,
and that is a loss where a certificate does. Labels count up to a hyphen, as in
`Pem.Piece.certificate?`. -/
theorem load_text (timeout maxSize : UInt64) (h : ∀ p ∈ ps, p.WellFormed)
    (hr : w.files.read path = .ok (Pem.Piece.text ps)) :
    (pemFile path).load w timeout maxSize =
        offered path ((ps.takeWhile (!·.isBroken)).filterMap Pem.Piece.certificate?) ∧
      ((pemFile path).load w timeout maxSize = offered path (ps.filterMap Pem.Piece.certificate?) ↔
        (ps.dropWhile (!·.isBroken)).filterMap Pem.Piece.certificate? = []) := by
  have hload : (pemFile path).load w timeout maxSize =
      offered path ((ps.takeWhile (!·.isBroken)).filterMap Pem.Piece.certificate?) := by
    rw [load, pemAnchors, hr, offered]
    dsimp only
    rw [Certificate.parseBundle_text h]
    split
    · rename_i hnil
      rw [if_pos hnil]
      rfl
    · rename_i hne
      rw [if_neg hne]
      rfl
  refine ⟨hload, ?_⟩
  have hparts : ps.filterMap Pem.Piece.certificate? =
      (ps.takeWhile (!·.isBroken)).filterMap Pem.Piece.certificate? ++
        (ps.dropWhile (!·.isBroken)).filterMap Pem.Piece.certificate? := by
    rw [← List.filterMap_append, List.takeWhile_append_dropWhile]
  rw [hload, offered_inj, hparts]
  exact List.self_eq_append_right

def sampleBlock (label : String) : Pem.Piece :=
  .block label.toList []
    ["MG8wYgIBQTAFBgMrZXAwDDEKMAgGA1UEAwwBQTAeFw0yNTAxMDEwMDAwMDBaFw0y".toList,
      "NTAxMDEwMDAwMDBaMAwxCjAIBgNVBAMMAUEwCzAFBgMrZXADAgBBow0wCzAJBgNV".toList,
      "HR8EAjAAMAUGAytlcAMCAEE=".toList] []

def sampleShort (label symbols : String) : Pem.Piece :=
  .block label.toList [] [symbols.toList] []

def sampleFiles (ps : List Pem.Piece) : Surroundings where
  files := [(["b.pem"], Pem.Piece.text ps)]
  bundlePath := none
  directoryPath := none
  network := ⟨fun _ _ ↦ .refuses, 0⟩

def sampleMixed : List Pem.Piece :=
  [.line "# anchors".toList, sampleShort "X509 CRL" "MG8w", sampleBlock "TRUSTED CERTIFICATE",
    sampleShort "CERTIFICATE" "MG8w", .line [], sampleBlock "CERTIFICATE",
    sampleShort "CERTIFICATE" "MG8"]

theorem load_text_mixed :
    (pemFile "b.pem").load (sampleFiles sampleMixed) 5 1000 =
      .ok [.sample 'A' 'A' [], .sample 'A' 'A' []] := by
  have h : ∀ p ∈ sampleMixed, p.WellFormed := by decide +kernel
  have hr : (sampleFiles sampleMixed).files.read "b.pem" = .ok (Pem.Piece.text sampleMixed) := rfl
  rw [(load_text 5 1000 h hr).2.2 (by decide +kernel)]
  decide +kernel

/-- A broken block takes the certificate behind it along, with an error or without. -/
theorem load_loses :
    (∀ p ∈ [sampleShort "CERTIFICATE" "MG8", sampleBlock "CERTIFICATE"], p.WellFormed) ∧
    (sampleBlock "CERTIFICATE").certificate? = some (.sample 'A' 'A' []) ∧
    (pemFile "b.pem").load (sampleFiles [sampleShort "CERTIFICATE" "MG8",
      sampleBlock "CERTIFICATE"]) 5 1000 = .error (.configuration (.noCertificates "b.pem")) ∧
    (pemFile "b.pem").load (sampleFiles [sampleBlock "CERTIFICATE", sampleShort "CERTIFICATE" "MG8",
      sampleBlock "CERTIFICATE"]) 5 1000 = .ok [.sample 'A' 'A' []] := by
  decide +kernel

end AnchorSource

end CertPath
