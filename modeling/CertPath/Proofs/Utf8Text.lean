import CertPath.Text.Utf8
import Mathlib.Data.List.Basic

namespace CertPath

namespace Utf8

variable {s : List Char}

theorem encodeChar_of_ascii {c : Char} (h : c.toNat < 128) : encodeChar c = [UInt8.ofNat c.toNat] :=
  if_pos h

theorem toNat_octet_of_ascii {c : Char} (h : c.toNat < 128) :
    (UInt8.ofNat c.toNat).toNat = c.toNat :=
  UInt8.toNat_ofNat_of_lt' (Nat.lt_trans h (by decide))

theorem encode_cons (c : Char) (s : List Char) : encode (c :: s) = encodeChar c ++ encode s :=
  List.flatMap_cons

theorem encode_append (s t : List Char) : encode (s ++ t) = encode s ++ encode t :=
  List.flatMap_append

theorem encode_of_ascii (h : ∀ c ∈ s, c.toNat < 128) :
    encode s = s.map fun c ↦ UInt8.ofNat c.toNat := by
  induction s with
  | nil => rfl
  | cons c s ih =>
    obtain ⟨hc, hs⟩ := List.forall_mem_cons.1 h
    rw [encode_cons, encodeChar_of_ascii hc, ih hs]
    rfl

theorem feed_not_mem_encode (h : ∀ c ∈ s, c.toNat < 128 ∧ c ≠ '\n') : 10 ∉ encode s := by
  intro hm
  rw [encode_of_ascii fun c hc ↦ (h c hc).1] at hm
  obtain ⟨c, hc, he⟩ := List.mem_map.1 hm
  obtain ⟨hascii, hne⟩ := h c hc
  have hn := congrArg UInt8.toNat he
  rw [toNat_octet_of_ascii hascii] at hn
  exact hne (by rw [← Char.ofNat_toNat c, hn]; rfl)

theorem pieces_encode_of_ascii (h : ∀ c ∈ s, c.toNat < 128) : pieces (encode s) = s.map some := by
  rw [encode_of_ascii h, pieces, List.length_map]
  induction s with
  | nil => rfl
  | cons c s ih =>
    obtain ⟨hc, hs⟩ := List.forall_mem_cons.1 h
    have hnext : next (UInt8.ofNat c.toNat) (s.map fun c ↦ UInt8.ofNat c.toNat) =
        (some c, s.map fun c ↦ UInt8.ofNat c.toNat) := by
      simp only [next, toNat_octet_of_ascii hc, if_pos hc, Char.ofNat_toNat]
    rw [List.map_cons, List.length_cons, take, hnext, ih hs, List.map_cons]

theorem decode_encode_of_ascii (h : ∀ c ∈ s, c.toNat < 128) : decode (encode s) = some s := by
  rw [decode, pieces_encode_of_ascii h]
  clear h
  induction s with
  | nil => rfl
  | cons c s ih => simp [ih]

theorem forall_ascii_of_encode (h : ∀ x ∈ encode s, x.toNat < 128) : ∀ c ∈ s, c.toNat < 128 := by
  intro c hc
  by_contra hge
  have hlast : UInt8.ofNat (0x80 + c.toNat % 64) ∈ encodeChar c := by
    simp only [encodeChar, if_neg hge]
    split
    · simp
    · split <;> simp
  have hlt := h _ (List.mem_flatMap.2 ⟨c, hc, hlast⟩)
  rw [UInt8.toNat_ofNat_of_lt' (show _ < 256 by omega)] at hlt
  omega

theorem eq_of_encode_eq_of_ascii {t : List Char} (ht : ∀ c ∈ t, c.toNat < 128)
    (h : encode s = encode t) : s = t := by
  have hoctets : ∀ x ∈ encode s, x.toNat < 128 := by
    intro x hx
    rw [h, encode_of_ascii ht] at hx
    obtain ⟨c, hc, rfl⟩ := List.mem_map.1 hx
    rw [toNat_octet_of_ascii (ht c hc)]
    exact ht c hc
  have hs := decode_encode_of_ascii (forall_ascii_of_encode hoctets)
  rw [h, decode_encode_of_ascii ht] at hs
  exact (Option.some.inj hs).symm

theorem ofNat_ne_feed {n : Nat} (h : n ≠ 10) : Char.ofNat n ≠ '\n' := by
  by_cases hv : n.isValidChar
  · have hchar : Char.ofNat n = Char.ofNatAux n hv := dif_pos hv
    rw [hchar]
    exact fun he ↦ h (congrArg Char.toNat he)
  · have hchar : Char.ofNat n = '\x00' := dif_neg hv
    rw [hchar]
    decide

/-- A reading that passes over no line feed and finds none. -/
def Feedless (s : Bytes) (x : Option Char × Bytes) : Prop :=
  x.1 ≠ some '\n' ∧ ∃ u, s = u ++ x.2 ∧ 10 ∉ u

theorem feedless_none (s : Bytes) : Feedless s (none, s) := ⟨nofun, [], rfl, by simp⟩

theorem feedless_some {n : Nat} (h : n ≠ 10) (s : Bytes) : Feedless s (some (Char.ofNat n), s) :=
  ⟨fun he ↦ ofNat_ne_feed h (Option.some.inj he), [], rfl, by simp⟩

theorem feedless_trail {lo hi : UInt8} {s : Bytes} {k : Nat → Bytes → Option Char × Bytes}
    (hlo : 0x80 ≤ lo.toNat) (hhi : hi.toNat ≤ 0xBF)
    (hk : ∀ x r, lo.toNat ≤ 0x80 + x → Feedless r (k x r)) : Feedless s (trail lo hi s k) := by
  unfold trail
  split
  · exact feedless_none _
  · rename_i x r
    split
    · rename_i hx
      have hl := UInt8.le_iff_toNat_le.1 hx.1
      have hh := UInt8.le_iff_toNat_le.1 hx.2
      obtain ⟨hne, u, hu, hu10⟩ := hk (x.toNat % 64) r (by omega)
      have hx10 : (10 : UInt8) ≠ x := by
        rintro rfl
        exact absurd (Nat.le_trans hlo hl) (by decide)
      refine ⟨hne, x :: u, by rw [List.cons_append, ← hu], ?_⟩
      simpa using ⟨hx10, hu10⟩
    · exact feedless_none _

theorem feedless_next {a : UInt8} (ha : a ≠ 10) (r : Bytes) : Feedless r (next a r) := by
  have hn : a.toNat ≠ 10 := fun h ↦ ha (UInt8.toNat_inj.1 h)
  unfold next
  dsimp only
  split
  · exact feedless_some hn r
  split
  · exact feedless_trail (by decide) (by decide) fun x r _ ↦ feedless_some (by omega) r
  split
  · refine feedless_trail (by split <;> decide) (by split <;> decide) fun x r hx ↦ ?_
    refine feedless_trail (by decide) (by decide) fun y r _ ↦ feedless_some ?_ r
    split at hx <;> simp at hx <;> omega
  split
  · refine feedless_trail (by split <;> decide) (by split <;> decide) fun x r hx ↦ ?_
    refine feedless_trail (by decide) (by decide) fun y r _ ↦ ?_
    refine feedless_trail (by decide) (by decide) fun z r _ ↦ feedless_some ?_ r
    split at hx <;> simp at hx <;> omega
  · exact feedless_none r

theorem mem_take_feed {n : Nat} {b : Bytes} (h : b.length ≤ n) :
    some '\n' ∈ take n b ↔ 10 ∈ b := by
  induction n generalizing b with
  | zero =>
    obtain rfl := List.length_eq_zero_iff.1 (Nat.le_zero.1 h)
    simp [take]
  | succ n ih =>
    cases b with
    | nil => simp [take]
    | cons a r =>
      have hr : (next a r).2.length ≤ n :=
        Nat.le_trans (next_length a r) (Nat.le_of_succ_le_succ h)
      rw [take, List.mem_cons, List.mem_cons, ih hr]
      by_cases ha : a = 10
      · subst ha
        simp [next]
      · obtain ⟨hne, u, hu, hu10⟩ := feedless_next ha r
        have hmem : 10 ∈ r ↔ 10 ∈ (next a r).2 := by
          conv_lhs => rw [hu]
          simp [hu10]
        rw [hmem, or_iff_right hne.symm, or_iff_right (Ne.symm ha)]

theorem feed_mem_decodeLossy (b : Bytes) : '\n' ∈ decodeLossy b ↔ 10 ∈ b := by
  rw [← mem_take_feed (Nat.le_refl _), ← pieces, decodeLossy, List.mem_map]
  constructor
  · rintro ⟨p, hp, he⟩
    cases p with
    | none => exact absurd he (by decide)
    | some c =>
      obtain rfl : c = '\n' := he
      exact hp
  · intro h
    exact ⟨some '\n', h, rfl⟩

end Utf8

end CertPath
