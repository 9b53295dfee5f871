import CertPath.Base64
import CertPath.Proofs.Utf8Text

namespace CertPath.Base64

def alphabet : List Char :=
  "ABCDEFGHIJKLMNOPQRSTUVWXYZabcdefghijklmnopqrstuvwxyz0123456789+/".toList

def symbol (n : Nat) : Char := alphabet.getD n '='

/-- The text of octets, three of them in four symbols. One or two that are left over at the end are
filled up with padding. -/
def encode : Bytes → List Char
  | [] => []
  | [a] => [symbol (a.toNat / 4), symbol (a.toNat % 4 * 16), '=', '=']
  | [a, b] =>
    [symbol (a.toNat / 4), symbol (a.toNat % 4 * 16 + b.toNat / 16), symbol (b.toNat % 16 * 4), '=']
  | a :: b :: c :: r =>
    symbol (a.toNat / 4) :: symbol (a.toNat % 4 * 16 + b.toNat / 16) ::
      symbol (b.toNat % 16 * 4 + c.toNat / 64) :: symbol (c.toNat % 64) :: encode r

def triples : Bytes → List Bytes
  | [] => []
  | [a] => [[a]]
  | [a, b] => [[a, b]]
  | a :: b :: c :: r => [a, b, c] :: triples r

theorem flatten_triples (b : Bytes) : (triples b).flatten = b := by
  fun_induction triples b with
  | case1 => rfl
  | case2 => rfl
  | case3 => rfl
  | case4 a b c r ih => rw [List.flatten_cons, ih]; rfl

section Symbols

variable {n x y z w : Nat}

def octet (n : Nat) : UInt8 := UInt8.ofNat (symbol n).toNat

theorem symbol_mem (n : Nat) : symbol n ∈ '=' :: alphabet := by
  rw [symbol, List.getD_eq_getElem?_getD]
  cases h : alphabet[n]? with
  | none => exact List.mem_cons_self
  | some c => exact List.mem_cons_of_mem _ (List.mem_of_getElem? h)

theorem value_octet (h : n < 64) : value (octet n) = some n := by
  revert n
  decide +kernel

theorem octet_of_value {x : UInt8} {n : Nat} (h : value x = some n) : n < 64 ∧ octet n = x := by
  have hall : ∀ k < 256, (value (UInt8.ofNat k)).all fun n ↦ n < 64 ∧ octet n = UInt8.ofNat k := by
    decide +kernel
  have hx := hall x.toNat x.toNat_lt
  rw [UInt8.ofNat_toNat, h] at hx
  simpa using hx

theorem octet_ne_pad (h : n < 64) : octet n ≠ pad := by
  revert n
  decide +kernel

theorem ascii_of_mem_alphabet {c : Char} (h : c ∈ '=' :: alphabet) : c.toNat < 128 := by
  have hall : ('=' :: alphabet).all (·.toNat < 128) = true := by decide
  exact of_decide_eq_true (List.all_eq_true.1 hall c h)

theorem utf8_symbol_cons (n : Nat) (s : List Char) :
    Utf8.encode (symbol n :: s) = octet n :: Utf8.encode s := by
  rw [Utf8.encode_cons, Utf8.encodeChar_of_ascii (ascii_of_mem_alphabet (symbol_mem n))]
  rfl

theorem group_four (hx : x < 64) (hy : y < 64) (hz : z < 64) (hw : w < 64) :
    group (octet x) (octet y) (octet z) (octet w) =
      some [UInt8.ofNat (4 * x + y / 16), UInt8.ofNat (y % 16 * 16 + z / 4),
        UInt8.ofNat (z % 4 * 64 + w)] := by
  simp [group, value_octet, octet_ne_pad, hx, hy, hz, hw]

theorem group_three (hx : x < 64) (hy : y < 64) (hz : z < 64) (h : z % 4 = 0) :
    group (octet x) (octet y) (octet z) pad =
      some [UInt8.ofNat (4 * x + y / 16), UInt8.ofNat (y % 16 * 16 + z / 4)] := by
  simp [group, value_octet, octet_ne_pad, hx, hy, hz, h]

theorem group_two (hx : x < 64) (hy : y < 64) (h : y % 16 = 0) :
    group (octet x) (octet y) pad pad = some [UInt8.ofNat (4 * x + y / 16)] := by
  simp [group, value_octet, hx, hy, h]

end Symbols

theorem ofNat_eq_of_toNat {n : Nat} {a : UInt8} (h : n = a.toNat) : UInt8.ofNat n = a := by
  rw [h, UInt8.ofNat_toNat]

theorem groups_encode (b : Bytes) : groups (Utf8.encode (encode b)) = some (triples b) := by
  fun_induction encode b with
  | case1 => rfl
  | case2 a =>
    have ha := a.toNat_lt
    have hpad : Utf8.encode ['=', '='] = [pad, pad] := rfl
    rw [utf8_symbol_cons, utf8_symbol_cons, hpad, groups,
      group_two (by omega) (by omega) (by omega), ofNat_eq_of_toNat (a := a) (by omega)]
    rfl
  | case3 a b =>
    have ha := a.toNat_lt
    have hb := b.toNat_lt
    have hpad : Utf8.encode ['='] = [pad] := rfl
    rw [utf8_symbol_cons, utf8_symbol_cons, utf8_symbol_cons, hpad, groups,
      group_three (by omega) (by omega) (by omega) (by omega),
      ofNat_eq_of_toNat (a := a) (by omega), ofNat_eq_of_toNat (a := b) (by omega)]
    rfl
  | case4 a b c r ih =>
    have ha := a.toNat_lt
    have hb := b.toNat_lt
    have hc := c.toNat_lt
    rw [utf8_symbol_cons, utf8_symbol_cons, utf8_symbol_cons, utf8_symbol_cons, groups,
      group_four (by omega) (by omega) (by omega) (by omega),
      ofNat_eq_of_toNat (a := a) (by omega), ofNat_eq_of_toNat (a := b) (by omega),
      ofNat_eq_of_toNat (a := c) (by omega), ih]
    rfl

theorem decode_encode (b : Bytes) : decode (Utf8.encode (encode b)) = some b := by
  rw [decode, groups_encode, Option.map_some, flatten_triples]

theorem forall_mem_encode (b : Bytes) : ∀ c ∈ encode b, c ∈ '=' :: alphabet := by
  have hpad : '=' ∈ '=' :: alphabet := List.mem_cons_self
  fun_induction encode b with
  | case1 => nofun
  | case2 a =>
    simp only [List.forall_mem_cons]
    exact ⟨symbol_mem _, symbol_mem _, hpad, hpad, nofun⟩
  | case3 a b =>
    simp only [List.forall_mem_cons]
    exact ⟨symbol_mem _, symbol_mem _, symbol_mem _, hpad, nofun⟩
  | case4 a b c r ih =>
    simp only [List.forall_mem_cons]
    exact ⟨symbol_mem _, symbol_mem _, symbol_mem _, symbol_mem _, ih⟩

theorem encode_of_group {a b c d : UInt8} {g : Bytes} (h : group a b c d = some g) :
    Utf8.encode (encode g) = [a, b, c, d] := by
  simp only [group, Option.bind_eq_bind, Option.bind_eq_some_iff] at h
  obtain ⟨x, ha, y, hb, h⟩ := h
  obtain ⟨hx, rfl⟩ := octet_of_value ha
  obtain ⟨hy, rfl⟩ := octet_of_value hb
  have hfirst : (UInt8.ofNat (4 * x + y / 16)).toNat = 4 * x + y / 16 :=
    UInt8.toNat_ofNat_of_lt' (show _ < 256 by omega)
  have hx' : (4 * x + y / 16) / 4 = x := by omega
  split at h
  · rename_i hc
    obtain ⟨⟨hd, hzero⟩, h⟩ := Option.ite_none_right_eq_some.1 h
    have hy' : (4 * x + y / 16) % 4 * 16 = y := by omega
    cases h
    rw [hc, hd, encode, hfirst, hx', hy', utf8_symbol_cons, utf8_symbol_cons]
    rfl
  · obtain ⟨z, hc, hrest⟩ := Option.bind_eq_some_iff.1 h
    clear h
    obtain ⟨hz, rfl⟩ := octet_of_value hc
    have hsecond : (UInt8.ofNat (y % 16 * 16 + z / 4)).toNat = y % 16 * 16 + z / 4 :=
      UInt8.toNat_ofNat_of_lt' (show _ < 256 by omega)
    have hy' : (4 * x + y / 16) % 4 * 16 + (y % 16 * 16 + z / 4) / 16 = y := by omega
    split at hrest
    · rename_i hd
      obtain ⟨hzero, h⟩ := Option.ite_none_right_eq_some.1 hrest
      have hz' : (y % 16 * 16 + z / 4) % 16 * 4 = z := by omega
      cases h
      rw [hd, encode, hfirst, hsecond, hx', hy', hz', utf8_symbol_cons, utf8_symbol_cons,
        utf8_symbol_cons]
      rfl
    · obtain ⟨w, hd, h⟩ := Option.bind_eq_some_iff.1 hrest
      obtain ⟨hw, rfl⟩ := octet_of_value hd
      have hthird : (UInt8.ofNat (z % 4 * 64 + w)).toNat = z % 4 * 64 + w :=
        UInt8.toNat_ofNat_of_lt' (show _ < 256 by omega)
      have hz' : (y % 16 * 16 + z / 4) % 16 * 4 + (z % 4 * 64 + w) / 64 = z := by omega
      have hw' : (z % 4 * 64 + w) % 64 = w := by omega
      cases h
      rw [encode, hfirst, hsecond, hthird, hx', hy', hz', hw', utf8_symbol_cons, utf8_symbol_cons,
        utf8_symbol_cons, utf8_symbol_cons]
      rfl

theorem encode_append {g : Bytes} (hg : g.length = 3) (b : Bytes) :
    encode (g ++ b) = encode g ++ encode b := by
  obtain ⟨x, y, z, rfl⟩ := List.length_eq_three.1 hg
  rfl

theorem encode_of_groups {s : Bytes} {gs : List Bytes} (h : groups s = some gs)
    (hwhole : ∀ g ∈ gs.dropLast, g.length = 3) : Utf8.encode (encode gs.flatten) = s := by
  fun_induction groups s generalizing gs with
  | case1 =>
    cases h
    rfl
  | case2 a b c d r ih =>
    simp only [Option.bind_eq_bind, Option.bind_eq_some_iff] at h
    obtain ⟨g, hg, hs, hr, h⟩ := h
    cases h
    cases hs with
    | nil =>
      have hnil := ih hr nofun
      rw [List.flatten_cons, List.flatten_nil, List.append_nil, encode_of_group hg, ← hnil]
      rfl
    | cons k ks =>
      rw [List.dropLast_cons_cons, List.forall_mem_cons] at hwhole
      rw [List.flatten_cons, encode_append hwhole.1, Utf8.encode_append, encode_of_group hg,
        ih hr hwhole.2]
      rfl
  | case3 => cases h

theorem length_of_mem_dropLast_triples {b g : Bytes} (h : g ∈ (triples b).dropLast) :
    g.length = 3 := by
  fun_induction triples b with
  | case1 => cases h
  | case2 => cases h
  | case3 => cases h
  | case4 a b c r ih =>
    cases hr : triples r with
    | nil =>
      rw [hr] at h
      cases h
    | cons k ks =>
      rw [hr, List.dropLast_cons_cons, ← hr, List.mem_cons] at h
      obtain rfl | h := h
      · rfl
      · exact ih h

/-- Octets have one text, and are decoded from no other. -/
theorem decodeWhole_eq_some {s : List Char} {b : Bytes} :
    decodeWhole (Utf8.encode s) = some b ↔ s = encode b := by
  constructor
  · intro h
    obtain ⟨gs, hgs, h⟩ := Option.bind_eq_some_iff.1 h
    obtain ⟨hwhole, h⟩ := Option.ite_none_right_eq_some.1 h
    cases h
    have hs := encode_of_groups hgs fun g hg ↦ of_decide_eq_true (List.all_eq_true.1 hwhole g hg)
    have hascii := fun c hc ↦ ascii_of_mem_alphabet (forall_mem_encode gs.flatten c hc)
    exact Utf8.eq_of_encode_eq_of_ascii hascii hs.symm
  · rintro rfl
    have hwhole : (triples b).dropLast.all (·.length = 3) = true :=
      List.all_eq_true.2 fun g hg ↦ decide_eq_true (length_of_mem_dropLast_triples hg)
    rw [decodeWhole, groups_encode]
    exact (if_pos hwhole).trans (congrArg some (flatten_triples b))

end CertPath.Base64
