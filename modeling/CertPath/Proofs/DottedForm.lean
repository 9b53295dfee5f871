import CertPath.Der.Oid
import Mathlib.Data.List.Basic

namespace CertPath

theorem mem_intercalate {α : Type} {a : α} {sep : List α} {ls : List (List α)}
    (h : a ∈ sep.intercalate ls) : a ∈ sep ∨ ∃ l ∈ ls, a ∈ l := by
  induction ls with
  | nil => simp at h
  | cons l ls ih =>
    cases ls with
    | nil => exact .inr ⟨l, List.mem_cons_self, by simpa using h⟩
    | cons k ls =>
      rw [List.intercalate_cons_cons, List.mem_append, List.mem_append] at h
      rcases h with (h | h) | h
      · exact .inr ⟨l, List.mem_cons_self, h⟩
      · exact .inl h
      · rcases ih h with h | ⟨m, hm, h⟩
        · exact .inl h
        · exact .inr ⟨m, List.mem_cons_of_mem _ hm, h⟩

theorem toDigits_injective : Function.Injective (Nat.toDigits 10) := by
  intro m n h
  rw [← Nat.ofDigitChars_ten_toDigits (n := m), h, Nat.ofDigitChars_ten_toDigits]

namespace Der.Oid

def symbols : List Char := "0123456789abcdef. ".toList

theorem mem_symbols_of_isDigit {c : Char} (h : c.isDigit = true) : c ∈ symbols := by
  simp only [Char.isDigit, Bool.and_eq_true, decide_eq_true_eq, ge_iff_le,
    UInt32.le_iff_toNat_le] at h
  have hc : c = Char.ofNat c.toNat := (Char.ofNat_toNat c).symm
  have hn : ∀ n < 58, 48 ≤ n → Char.ofNat n ∈ symbols := by decide
  rw [hc]
  exact hn c.toNat (by have := h.2; change c.toNat ≤ 57 at this; omega) h.1

theorem mem_symbols_of_mem_hex {x : UInt8} {c : Char} (h : c ∈ (Bytes.hex [x]).toList) :
    c ∈ symbols := by
  have hdigit : ∀ n < 16, Bytes.hexDigit 97 n ∈ symbols := by decide
  have hx := x.toNat_lt
  simp only [Bytes.hex, List.flatMap_cons, List.flatMap_nil, List.append_nil, String.toList_ofList,
    List.mem_cons, List.not_mem_nil, or_false] at h
  rcases h with rfl | rfl
  · exact hdigit _ (by omega)
  · exact hdigit _ (by omega)

theorem mem_symbols (o : Oid) {c : Char} (h : c ∈ o.text.toList) : c ∈ symbols := by
  unfold text at h
  split at h
  · simp at h
  · split at h
    · rw [String.toList_intercalate, List.map_map] at h
      rcases mem_intercalate h with h | ⟨l, hl, h⟩
      · exact (by decide : " ".toList ⊆ symbols) h
      · obtain ⟨x, -, rfl⟩ := List.mem_map.1 hl
        exact mem_symbols_of_mem_hex h
    · split at h
      · exact (by decide : "0".toList ⊆ symbols) h
      · rw [String.toList_intercalate, List.map_map] at h
        rcases mem_intercalate h with h | ⟨l, hl, h⟩
        · exact (by decide : ".".toList ⊆ symbols) h
        · obtain ⟨n, -, rfl⟩ := List.mem_map.1 hl
          rw [Function.comp_apply, Nat.toString_eq_ofList_toDigits, String.toList_ofList] at h
          exact mem_symbols_of_isDigit (Nat.isDigit_of_mem_toDigits (by decide) (by decide) h)

/-- Finished numbers of at most nine octets, none of which starts with a zero digit; of the first,
`run` octets were read before. -/
def Minimal (run : Nat) : Bytes → Prop
  | [] => run = 0
  | x :: r => (run = 0 → x.toNat ≠ 128) ∧ run ≤ 8 ∧
    Minimal (if x.toNat < 128 then 0 else run + 1) r

/-- The octets that a number begins with when its last digit is still to come. -/
def leading (n : Nat) : Bytes :=
  if n = 0 then [] else leading (n / 128) ++ [UInt8.ofNat (128 + n % 128)]
termination_by n

@[simp] theorem leading_zero : leading 0 = [] := by rw [leading, if_pos rfl]

def encode (n : Nat) : Bytes := leading (n / 128) ++ [UInt8.ofNat (n % 128)]

theorem oversized_of_minimal {run : Nat} {r : Bytes} (h : Minimal run r) :
    oversized run r = false := by
  induction r generalizing run with
  | nil => rfl
  | cons x r ih =>
    obtain ⟨-, hrun, hr⟩ := h
    by_cases hx : x.toNat < 128
    · rw [if_pos hx] at hr
      simp [oversized, hx, ih hr]
      omega
    · rw [if_neg hx] at hr
      simp [oversized, hx, ih hr]

theorem encode_arcs {run acc : Nat} {r : Bytes} (h : Minimal run r) (hacc : acc < Nat.pow 128 run)
    (hpos : run ≠ 0 → acc ≠ 0) :
    leading acc ++ r = (arcs acc (decide (run ≠ 0)) r).flatMap encode := by
  induction r generalizing run acc with
  | nil =>
    obtain rfl : run = 0 := h
    obtain rfl : acc = 0 := by simpa using hacc
    simp [arcs]
  | cons x r ih =>
    obtain ⟨hfirst, hrun, hr⟩ := h
    have hx := x.toNat_lt
    have hbound : Nat.pow 128 run ≤ Nat.pow 128 8 := Nat.pow_le_pow_right (by decide) hrun
    have hmod : (acc * 128 + x.toNat % 128) % Nat.pow 2 64 = acc * 128 + x.toNat % 128 := by
      apply Nat.mod_eq_of_lt
      have hwords : Nat.pow 128 8 * 128 ≤ Nat.pow 2 64 := by decide
      omega
    by_cases hlast : x.toNat < 128
    · rw [if_pos hlast] at hr
      have hrest := ih hr (by decide : 0 < Nat.pow 128 0) (by simp)
      have hdigit : acc * 128 + x.toNat % 128 = 128 * acc + x.toNat := by omega
      have hwrite : encode (128 * acc + x.toNat) = leading acc ++ [x] := by
        have hdiv : (128 * acc + x.toNat) / 128 = acc := by omega
        have hrem : (128 * acc + x.toNat) % 128 = x.toNat := by omega
        rw [encode, hdiv, hrem, UInt8.ofNat_toNat]
      have hcons : arcs acc (decide (run ≠ 0)) (x :: r) =
          (128 * acc + x.toNat) :: arcs 0 false r := by
        rw [arcs, hmod, if_pos hlast, hdigit]
      rw [leading_zero] at hrest
      rw [hcons, List.flatMap_cons, hwrite, List.append_assoc]
      exact congrArg (leading acc ++ x :: ·) hrest
    · rw [if_neg hlast] at hr
      have hdigit : acc * 128 + x.toNat % 128 = 128 * acc + (x.toNat - 128) := by omega
      have hne : 128 * acc + (x.toNat - 128) ≠ 0 := by
        by_cases h0 : run = 0
        · have hx' := hfirst h0
          omega
        · have hacc' := hpos h0
          omega
      have hlt : 128 * acc + (x.toNat - 128) < Nat.pow 128 (run + 1) := by
        have hpow : Nat.pow 128 (run + 1) = Nat.pow 128 run * 128 := rfl
        omega
      have hrest := ih hr hlt fun _ ↦ hne
      have hwrite : leading (128 * acc + (x.toNat - 128)) = leading acc ++ [x] := by
        have hdiv : (128 * acc + (x.toNat - 128)) / 128 = acc := by omega
        have hrem : 128 + (128 * acc + (x.toNat - 128)) % 128 = x.toNat := by omega
        rw [leading, if_neg hne, hdiv, hrem, UInt8.ofNat_toNat]
      have hcons : arcs acc (decide (run ≠ 0)) (x :: r) =
          arcs (128 * acc + (x.toNat - 128)) true r := by
        rw [arcs, hmod, if_neg hlast, hdigit]
      rw [hwrite, List.append_assoc] at hrest
      rw [hcons]
      exact hrest

theorem arcs_inj {r q : Bytes} (hr : Minimal 0 r) (hq : Minimal 0 q)
    (h : arcs 0 false r = arcs 0 false q) : r = q := by
  have hr' : r = (arcs 0 false r).flatMap encode := by
    simpa using encode_arcs hr (by decide : 0 < Nat.pow 128 0) (by simp)
  have hq' : q = (arcs 0 false q).flatMap encode := by
    simpa using encode_arcs hq (by decide : 0 < Nat.pow 128 0) (by simp)
  rw [hr', h, ← hq']

def dotted (ns : List Nat) : String := ".".intercalate (ns.map toString)

theorem toList_dotted (ns : List Nat) :
    (dotted ns).toList = ['.'].intercalate (ns.map (Nat.toDigits 10)) := by
  rw [dotted, String.toList_intercalate, List.map_map]
  congr 1
  refine List.map_congr_left fun n _ ↦ ?_
  rw [Function.comp_apply, Nat.toString_eq_ofList_toDigits, String.toList_ofList]

theorem dotted_injective : Function.Injective dotted := by
  intro ns ms h
  have hdot : ∀ (ks : List Nat), ∀ l ∈ ks.map (Nat.toDigits 10), '.' ∉ l := by
    intro ks l hl hmem
    obtain ⟨k, -, rfl⟩ := List.mem_map.1 hl
    exact absurd (Nat.isDigit_of_mem_toDigits (by decide) (by decide) hmem) (by decide)
  have hnil : ∀ k ks, dotted (k :: ks) ≠ "" := by
    intro k ks he
    have hl := congrArg String.toList he
    cases ks <;> simp [toList_dotted, List.intercalate_cons_cons, Nat.toDigits_ne_nil] at hl
  cases ns with
  | nil =>
    cases ms with
    | nil => rfl
    | cons m ms => exact absurd h.symm (hnil m ms)
  | cons n ns =>
    cases ms with
    | nil => exact absurd h (hnil n ns)
    | cons m ms =>
      have hl := congrArg (fun s ↦ List.splitOn '.' (String.toList s)) h
      simp only [toList_dotted] at hl
      rw [List.splitOn_intercalate _ (hdot _) (by simp),
        List.splitOn_intercalate _ (hdot _) (by simp)] at hl
      exact List.map_injective_iff.2 toDigits_injective hl

def numbers (o : Oid) : List Nat :=
  match o.octets with
  | [] => []
  | b :: r => if r = [] ∧ b = 0 then [0] else b.toNat / 40 :: b.toNat % 40 :: arcs 0 false r

def IsMinimal (o : Oid) : Prop := Minimal 0 o.octets.tail

theorem text_eq_dotted {o : Oid} (h : o.IsMinimal) : o.text = dotted o.numbers := by
  obtain ⟨os⟩ := o
  cases os with
  | nil => rfl
  | cons b r =>
    have hr : oversized 0 r = false := oversized_of_minimal h
    simp only [text, numbers, hr, Bool.false_eq_true, if_false]
    split <;> rfl

/-- The dotted text of an identifier in minimal form says which octets it has. -/
theorem eq_of_text {o p : Oid} (ho : o.IsMinimal) (hp : p.IsMinimal) (h : o.text = p.text) :
    o = p := by
  rw [text_eq_dotted ho, text_eq_dotted hp] at h
  have hn := dotted_injective h
  obtain ⟨os⟩ := o
  obtain ⟨ps⟩ := p
  cases os with
  | nil =>
    cases ps with
    | nil => rfl
    | cons c q =>
      simp only [numbers] at hn
      split at hn <;> cases hn
  | cons b r =>
    cases ps with
    | nil =>
      simp only [numbers] at hn
      split at hn <;> cases hn
    | cons c q =>
      simp only [numbers] at hn
      split at hn
      · rename_i hr
        split at hn
        · rename_i hq
          rw [hr.1, hr.2, hq.1, hq.2]
        · simp at hn
      · split at hn
        · simp at hn
        · simp only [List.cons.injEq] at hn
          obtain ⟨hdiv, hrem, harcs⟩ := hn
          have hb : b = c := UInt8.toNat_inj.1 (by omega)
          have hrq : r = q := arcs_inj ho hp harcs
          rw [hb, hrq]

end Der.Oid

end CertPath
