import CertPath.RevocationList
import Mathlib.Data.Finset.Card
import Mathlib.Data.Nat.Digits.Lemmas

namespace CertPath

namespace Bytes

variable {s t : Bytes}

theorem toNat_eq_ofDigits (s : Bytes) :
    s.toNat = Nat.ofDigits 256 (s.reverse.map UInt8.toNat) := by
  rw [Nat.ofDigits_eq_foldr, List.foldr_map, List.foldr_reverse, toNat]
  simp only [Nat.cast_id, Nat.add_comm]

theorem toNat_trimZeros (s : Bytes) : s.trimZeros.toNat = s.toNat := by
  fun_induction trimZeros s with
  | case1 => rfl
  | case2 x => rfl
  | case3 x r ih => simpa [toNat] using ih
  | case4 x y r hx => rfl

theorem digits_trimZeros (hs : s ≠ []) :
    s.trimZeros.reverse.map UInt8.toNat =
      if s.toNat = 0 then [0] else Nat.digits 256 s.toNat := by
  fun_induction trimZeros s with
  | case1 => exact absurd rfl hs
  | case2 x =>
    have hx : toNat [x] = x.toNat := by simp [toNat]
    rw [hx]
    split
    · simp [*]
    · rename_i h0
      rw [Nat.digits_of_lt 256 _ h0 x.toNat_lt]
      rfl
  | case3 x r ih =>
    have hn : toNat (0 :: x :: r) = toNat (x :: r) := by simp [toNat]
    rw [hn]
    exact ih (List.cons_ne_nil x r)
  | case4 x y r hx =>
    have hdigits :
        Nat.digits 256 (toNat (x :: y :: r)) = (x :: y :: r).reverse.map UInt8.toNat := by
      rw [toNat_eq_ofDigits]
      apply Nat.digits_ofDigits 256 (by decide)
      · intro d hd
        obtain ⟨z, -, rfl⟩ := List.mem_map.1 hd
        exact z.toNat_lt
      · intro _
        simpa [← UInt8.toNat_inj] using hx
    have hpos : toNat (x :: y :: r) ≠ 0 := by
      intro h0
      simp [h0] at hdigits
    rw [if_neg hpos, hdigits]

theorem trimZeros_eq_iff (hs : s ≠ []) (ht : t ≠ []) :
    s.trimZeros = t.trimZeros ↔ s.toNat = t.toNat := by
  constructor
  · intro h
    rw [← toNat_trimZeros s, h, toNat_trimZeros]
  · intro h
    have hd := digits_trimZeros hs
    rw [h, ← digits_trimZeros ht] at hd
    have hinj : Function.Injective (List.map UInt8.toNat) :=
      List.map_injective_iff.2 fun _ _ ↦ UInt8.toNat_inj.1
    exact List.reverse_injective (hinj hd)

end Bytes

section EraseDups

variable {α : Type} [BEq α] [LawfulBEq α]

theorem pairwise_eraseDups (l : List α) :
    l.eraseDups.Pairwise fun a b ↦ ∃ s t, l = s ++ a :: t ∧ b ∉ a :: s := by
  induction hn : l.length using Nat.strong_induction_on generalizing l with
  | _ n ih =>
    cases l with
    | nil => simp
    | cons a l =>
      have hlen := List.length_filter_le (fun b ↦ !b == a) l
      rw [List.length_cons] at hn
      rw [List.eraseDups_cons, List.pairwise_cons]
      constructor
      · intro b hb
        have hne : b ≠ a := by simpa using (List.mem_filter.1 (List.mem_eraseDups.1 hb)).2
        exact ⟨[], l, rfl, by simpa using hne⟩
      · apply (ih _ (by omega) _ rfl).imp_of_mem
        intro b d _ hd hbd
        obtain ⟨s, t, hst, hds⟩ := hbd
        have hda : d ≠ a := by simpa using (List.mem_filter.1 (List.mem_eraseDups.1 hd)).2
        obtain ⟨u, v, rfl, rfl, hv⟩ := List.filter_eq_append_iff.1 hst
        obtain ⟨u', v', rfl, hu', hb, -⟩ := List.filter_eq_cons_iff.1 hv
        refine ⟨a :: (u ++ u'), v', by simp, ?_⟩
        rw [List.mem_cons, not_or, List.mem_filter] at hds
        intro hm
        rcases List.mem_cons.1 hm with rfl | hm
        · exact hds.1 rfl
        rcases List.mem_cons.1 hm with rfl | hm
        · exact hda rfl
        rcases List.mem_append.1 hm with hm | hm
        · exact hds.2 ⟨hm, by simpa using hda⟩
        · exact hu' d hm (by simpa using hda)

theorem nodup_eraseDups (l : List α) : l.eraseDups.Nodup := by
  apply (pairwise_eraseDups l).imp
  rintro a b ⟨s, t, -, hb⟩
  exact Ne.symm (List.ne_of_not_mem_cons hb)

theorem length_eraseDups [DecidableEq α] (l : List α) : l.eraseDups.length = l.toFinset.card := by
  rw [← List.toFinset_card_of_nodup (nodup_eraseDups l)]
  congr 1
  ext a
  simp

end EraseDups

namespace RevocationList

variable (l : RevocationList) {s t : Bytes}

theorem reason?_eq_some_iff {reason : String} :
    l.reason? s = some reason ↔
      ∃ before e after, l.entries = before ++ e :: after ∧ e.serial.trimZeros = s.trimZeros ∧
        (∀ d ∈ after, d.serial.trimZeros ≠ s.trimZeros) ∧ e.reason = reason := by
  simp only [reason?, Option.map_eq_some_iff, List.find?_eq_some_iff_append]
  constructor
  · rintro ⟨e, ⟨he, after, before, hes, hafter⟩, hreason⟩
    have hl : l.entries = before.reverse ++ e :: after.reverse := by
      rw [← List.reverse_reverse l.entries, hes]
      simp
    exact ⟨before.reverse, e, after.reverse, hl, by simpa using he, by simpa using hafter, hreason⟩
  · rintro ⟨before, e, after, hes, he, hafter, hreason⟩
    exact ⟨e, ⟨by simpa using he, after.reverse, before.reverse, by simp [hes],
      by simpa using hafter⟩, hreason⟩

theorem isSome_reason?_iff :
    (l.reason? s).isSome ↔ ∃ e ∈ l.entries, e.serial.trimZeros = s.trimZeros := by
  simp [reason?]

theorem revokes_eq_isSome (s : Bytes) : l.revokes s = (l.reason? s).isSome := by
  rw [Bool.eq_iff_iff, isSome_reason?_iff]
  simp [revokes, serials]

theorem reason?_congr (h : s.trimZeros = t.trimZeros) : l.reason? s = l.reason? t := by
  simp only [reason?, h]

variable {l}

theorem size_eq_card (hl : ∀ e ∈ l.entries, e.serial ≠ []) :
    l.size = (l.entries.map (·.serial.toNat)).toFinset.card := by
  have hmap : (l.entries.map (·.serial.toNat)).toFinset =
      (l.entries.map (·.serial.trimZeros)).toFinset.image Bytes.toNat := by
    ext n
    simp [Bytes.toNat_trimZeros]
  rw [size, serials, length_eraseDups, hmap, Finset.card_image_of_injOn]
  intro s hs t ht h
  simp only [List.coe_toFinset, List.mem_map, Set.mem_ofPred_eq] at hs ht
  obtain ⟨d, hd, rfl⟩ := hs
  obtain ⟨e, he, rfl⟩ := ht
  rw [Bytes.toNat_trimZeros, Bytes.toNat_trimZeros] at h
  exact (Bytes.trimZeros_eq_iff (hl d hd) (hl e he)).2 h

theorem isEmpty_iff : l.isEmpty ↔ l.entries = [] := by
  cases he : l.entries with
  | nil => simp [isEmpty, serials, he]
  | cons e es => simp [isEmpty, serials, he, List.eraseDups_cons]

theorem lists_eq_some_iff {c : Certificate} {reason : String} :
    l.lists c = some reason ↔ l.issuer.raw = c.issuer.raw ∧ l.reason? c.serial = some reason := by
  simp [lists]

theorem isSome_lists_iff {c : Certificate} :
    (l.lists c).isSome ↔ l.issuer.raw = c.issuer.raw ∧ (l.reason? c.serial).isSome := by
  simp only [Option.isSome_iff_exists, lists_eq_some_iff, exists_and_left]

/-- Serial numbers are looked up as numbers, whatever zeros lead them on either side. Of the entries
with one number the last counts, and the size is how many numbers there are. -/
theorem lists_by_number (l : RevocationList) :
    ((∀ e ∈ l.entries, e.serial ≠ []) →
      (∀ c : Certificate, c.serial ≠ [] →
        ((l.lists c).isSome ↔ l.issuer.raw = c.issuer.raw ∧
          ∃ e ∈ l.entries, e.serial.toNat = c.serial.toNat) ∧
        ∀ reason, l.lists c = some reason ↔ l.issuer.raw = c.issuer.raw ∧
          ∃ before e after, l.entries = before ++ e :: after ∧ e.serial.toNat = c.serial.toNat ∧
            (∀ d ∈ after, d.serial.toNat ≠ c.serial.toNat) ∧ e.reason = reason) ∧
      l.size = (l.entries.map (·.serial.toNat)).toFinset.card) ∧
    (∀ s : Bytes, l.revokes s = (l.reason? s).isSome) ∧
    (∀ s t : Bytes, s ≠ [] → t ≠ [] → s.toNat = t.toNat →
      l.revokes s = l.revokes t ∧ l.reason? s = l.reason? t) ∧
    (l.isEmpty ↔ l.entries = []) := by
  refine ⟨fun hl ↦ ⟨fun c hc ↦ ?_, size_eq_card hl⟩, l.revokes_eq_isSome,
    fun s t hs ht h ↦ ?_, isEmpty_iff⟩
  · have hnumber : ∀ e ∈ l.entries,
        (e.serial.trimZeros = c.serial.trimZeros ↔ e.serial.toNat = c.serial.toNat) :=
      fun e he ↦ Bytes.trimZeros_eq_iff (hl e he) hc
    constructor
    · rw [isSome_lists_iff, isSome_reason?_iff]
      exact and_congr_right fun _ ↦ exists_congr fun e ↦ and_congr_right fun he ↦ hnumber e he
    · intro reason
      rw [lists_eq_some_iff, reason?_eq_some_iff]
      refine and_congr_right fun _ ↦ exists_congr fun before ↦ exists_congr fun e ↦
        exists_congr fun after ↦ and_congr_right fun hes ↦ ?_
      have he : e ∈ l.entries := by simp [hes]
      have hafter : ∀ d ∈ after, d ∈ l.entries := fun d hd ↦ by simp [hes, hd]
      exact and_congr (hnumber e he) (and_congr_left fun _ ↦
        forall₂_congr fun d hd ↦ not_congr (hnumber d (hafter d hd)))
  · have hr := l.reason?_congr ((Bytes.trimZeros_eq_iff hs ht).2 h)
    rw [revokes_eq_isSome, revokes_eq_isSome, hr]
    exact ⟨rfl, rfl⟩

def samplePadded : RevocationList :=
  { (default : RevocationList) with
    entries := [⟨[5], "keyCompromise"⟩, ⟨[0, 5], "certificateHold"⟩, ⟨[0, 0, 5], "superseded"⟩,
      ⟨[0, 0], "unspecified"⟩] }

theorem lists_by_number_padded :
    (∀ e ∈ samplePadded.entries, e.serial ≠ []) ∧
    samplePadded.lists { (default : Certificate) with serial := [0, 0, 0, 5] } = some "superseded" ∧
    samplePadded.size = 2 ∧
    samplePadded.revokes [0, 0, 0] = samplePadded.revokes [0] := by
  have hl : ∀ e ∈ samplePadded.entries, e.serial ≠ [] := by decide
  obtain ⟨hlists, hsize⟩ := (lists_by_number samplePadded).1 hl
  refine ⟨hl, ?_, hsize.trans (by decide), ?_⟩
  · exact ((hlists _ (by decide)).2 "superseded").2 ⟨rfl, [⟨[5], "keyCompromise"⟩,
      ⟨[0, 5], "certificateHold"⟩], ⟨[0, 0, 5], "superseded"⟩, [⟨[0, 0], "unspecified"⟩], by decide⟩
  · exact ((lists_by_number samplePadded).2.2.1 _ _ (by decide) (by decide) (by decide)).1

end RevocationList

end CertPath
