import Mathlib.Data.String.Basic
import Mathlib.Tactic.SplitIfs
import SourceAtlas.Text.Utf8
/-!
# The order of octets

Texts are compared character by character, and their octets octet by octet. UTF-8 makes
both orders one: `encode_lt_encode`.

A character is encoded in one of four forms, given by the number of octets after the
first one (`width`). A form with more octets starts with a greater octet, and within one
form every octet holds six bits of the scalar value, the highest ones first (`octets`).
-/

namespace SourceAtlas

namespace Utf8

/-- A scalar value in a form with some octets after the first one. -/
def octets (lead : Nat) : Nat → Nat → List UInt8
  | 0, n => [UInt8.ofNat (lead + n)]
  | w + 1, n => octets lead w (n / 64) ++ [UInt8.ofNat (0x80 + n % 64)]

theorem exists_octets_eq_cons (lead w n : Nat) :
    ∃ rest, octets lead w n = UInt8.ofNat (lead + n / 64 ^ w) :: rest := by
  induction w generalizing n with
  | zero => exact ⟨[], by simp [octets]⟩
  | succ w ih =>
      obtain ⟨rest, hrest⟩ := ih (n / 64)
      refine ⟨rest ++ [UInt8.ofNat (0x80 + n % 64)], ?_⟩
      rw [octets, hrest, Nat.div_div_eq_div_mul, Nat.pow_succ', List.cons_append]

theorem ofNat_lt_ofNat {m n : Nat} (hmn : m < n) (hn : n < 256) :
    UInt8.ofNat m < UInt8.ofNat n := by
  rw [UInt8.lt_iff_toNat_lt, UInt8.toNat_ofNat_of_lt' (hmn.trans hn), UInt8.toNat_ofNat_of_lt' hn]
  exact hmn

/-- Within one form the octets are ordered as the scalar values are. -/
theorem octets_append_lt {lead room w m n : Nat} (hroom : lead + room ≤ 256)
    (hn : n < room * 64 ^ w) (hmn : m < n) (xs ys : List UInt8) :
    octets lead w m ++ xs < octets lead w n ++ ys := by
  induction w generalizing m n xs ys with
  | zero =>
      refine List.cons_lt_cons_iff.mpr (.inl (ofNat_lt_ofNat (by omega) ?_))
      rw [Nat.pow_zero, Nat.mul_one] at hn
      omega
  | succ w ih =>
      rw [octets, octets, List.append_assoc, List.append_assoc]
      rcases Nat.lt_or_ge (m / 64) (n / 64) with hlt | hge
      · refine ih ?_ hlt _ _
        rw [Nat.div_lt_iff_lt_mul (by decide), Nat.mul_assoc, ← Nat.pow_succ]
        exact hn
      · have heq : m / 64 = n / 64 := by omega
        rw [heq]
        refine List.append_left_lt (List.cons_lt_cons_iff.mpr (.inl ?_))
        exact ofNat_lt_ofNat (by omega) (by omega)

/-- A form that starts where another one ends has the greater first octet. -/
theorem octets_append_lt_of_le {lead room lead' room' w w' m n : Nat} (hlead : lead + room ≤ lead')
    (hroom' : lead' + room' ≤ 256) (hm : m < room * 64 ^ w) (hn : n < room' * 64 ^ w')
    (xs ys : List UInt8) : octets lead w m ++ xs < octets lead' w' n ++ ys := by
  obtain ⟨rest, hrest⟩ := exists_octets_eq_cons lead w m
  obtain ⟨rest', hrest'⟩ := exists_octets_eq_cons lead' w' n
  have hm' : m / 64 ^ w < room := (Nat.div_lt_iff_lt_mul (Nat.pow_pos (by decide))).mpr hm
  have hn' : n / 64 ^ w' < room' := (Nat.div_lt_iff_lt_mul (Nat.pow_pos (by decide))).mpr hn
  have hlt : lead + m / 64 ^ w < lead' + n / 64 ^ w' := calc
    lead + m / 64 ^ w < lead + room := Nat.add_lt_add_left hm' lead
    _ ≤ lead' := hlead
    _ ≤ lead' + n / 64 ^ w' := Nat.le_add_right lead' _
  rw [hrest, hrest']
  exact List.cons_lt_cons_iff.mpr (.inl (ofNat_lt_ofNat hlt (by omega)))

/-- How many octets follow the first one of a scalar value. -/
def width (n : Nat) : Nat :=
  if n ≤ 0x7F then 0 else if n ≤ 0x7FF then 1 else if n ≤ 0xFFFF then 2 else 3

/-- What the first octet of a form starts from. -/
def leadOf : Nat → Nat
  | 0 => 0
  | 1 => 0xC0
  | 2 => 0xE0
  | _ => 0xF0

/-- How many first octets a form has. -/
def roomOf : Nat → Nat
  | 0 => 0x80
  | 1 => 0x20
  | _ => 0x10

theorem scalar_lt (c : Char) : c.val.toNat < 0x110000 := by
  rcases c.valid with h | ⟨-, h⟩ <;> omega

theorem utf8EncodeChar_eq_octets (c : Char) :
    String.utf8EncodeChar c =
      octets (leadOf (width c.val.toNat)) (width c.val.toNat) c.val.toNat := by
  have hc : c.val.toNat < 0x110000 := scalar_lt c
  simp only [String.utf8EncodeChar, width]
  generalize c.val.toNat = v at hc ⊢
  split_ifs
  · simp only [octets, leadOf, Nat.zero_add]
  · have hlead : v / 64 % 32 = v / 64 := by omega
    simp only [octets, leadOf, hlead, Nat.add_comm, List.cons_append, List.nil_append]
  · have hlead : v / 4096 % 16 = v / 4096 := by omega
    simp only [octets, leadOf, hlead, Nat.add_comm, Nat.div_div_eq_div_mul, Nat.reduceMul,
      List.cons_append, List.nil_append]
  · have hlead : v / 262144 % 8 = v / 262144 := by omega
    simp only [octets, leadOf, hlead, Nat.add_comm, Nat.div_div_eq_div_mul, Nat.reduceMul,
      List.cons_append, List.nil_append]

theorem lt_room_of_scalar {n : Nat} (hn : n < 0x110000) :
    n < roomOf (width n) * 64 ^ width n := by
  simp only [width]
  split_ifs <;> simp [roomOf] <;> omega

/-- A greater scalar value has the same form or one that starts where the former ends. -/
theorem width_cases {m n : Nat} (hmn : m < n) :
    width m = width n ∨ leadOf (width m) + roomOf (width m) ≤ leadOf (width n) := by
  simp only [width]
  split_ifs <;> simp [leadOf, roomOf] <;> omega

theorem room_le (n : Nat) : leadOf (width n) + roomOf (width n) ≤ 256 := by
  simp only [width]
  split_ifs <;> simp [leadOf, roomOf]

theorem utf8EncodeChar_append_lt {c d : Char} (h : c < d) (xs ys : List UInt8) :
    String.utf8EncodeChar c ++ xs < String.utf8EncodeChar d ++ ys := by
  have hcd : c.val.toNat < d.val.toNat := h
  rw [utf8EncodeChar_eq_octets, utf8EncodeChar_eq_octets]
  rcases width_cases hcd with heq | hle
  · rw [heq]
    exact octets_append_lt (room_le _) (lt_room_of_scalar (scalar_lt d)) hcd xs ys
  · exact octets_append_lt_of_le hle (room_le _) (lt_room_of_scalar (scalar_lt c))
      (lt_room_of_scalar (scalar_lt d)) xs ys

/-- The octets of a character outside ASCII are none of ASCII. -/
theorem le_of_mem_utf8EncodeChar {c : Char} (hc : 0x80 ≤ c.val.toNat) {b : UInt8}
    (hb : b ∈ String.utf8EncodeChar c) : 0x80 ≤ b.toNat := by
  have hlt : c.val.toNat < 0x110000 := scalar_lt c
  simp only [String.utf8EncodeChar] at hb
  generalize c.val.toNat = v at hb hc hlt
  split_ifs at hb
  · omega
  all_goals
    simp only [List.mem_cons, List.not_mem_nil, or_false] at hb
    rcases hb with rfl | rfl | rfl | rfl <;> rw [UInt8.toNat_ofNat'] <;> omega

/-! ## Characters of ASCII in a text -/

theorem utf8EncodeChar_of_lt {c : Char} (hc : c.toNat < 0x80) :
    String.utf8EncodeChar c = [UInt8.ofNat c.toNat] := by
  rw [String.utf8EncodeChar, if_pos]
  · rfl
  · exact Nat.le_of_lt_succ hc

theorem encode_ofList_cons_of_lt {c : Char} (hc : c.toNat < 0x80) (cs : List Char) :
    encode (String.ofList (c :: cs)) = UInt8.ofNat c.toNat :: encode (String.ofList cs) := by
  rw [encode_ofList_cons, utf8EncodeChar_of_lt hc, List.singleton_append]

/-- An octet of ASCII is part of one character only, and that one has no other octet. -/
theorem toNat_eq_of_mem_utf8EncodeChar {c : Char} {b : UInt8} (hb : b.toNat < 0x80)
    (hmem : b ∈ String.utf8EncodeChar c) : c.toNat = b.toNat := by
  rcases Nat.lt_or_ge c.toNat 0x80 with hc | hc
  · rw [utf8EncodeChar_of_lt hc, List.mem_singleton] at hmem
    rw [hmem, UInt8.toNat_ofNat_of_lt' (hc.trans (by decide))]
  · exact absurd (le_of_mem_utf8EncodeChar hc hmem) (Nat.not_le_of_lt hb)

theorem encode_ofList_append (cs ds : List Char) :
    encode (String.ofList (cs ++ ds)) = encode (String.ofList cs) ++ encode (String.ofList ds) := by
  induction cs with
  | nil =>
      have hempty : encode (String.ofList []) = [] := encode_eq_nil_iff.mpr rfl
      rw [hempty, List.nil_append, List.nil_append]
  | cons c cs ih =>
      rw [List.cons_append, encode_ofList_cons, encode_ofList_cons, ih, List.append_assoc]

/-- A text whose octets start with one of ASCII starts with that character. -/
theorem exists_cons_of_encode_eq_cons {cs : List Char} {b : UInt8} {bytes : List UInt8}
    (hb : b.toNat < 0x80) (h : encode (String.ofList cs) = b :: bytes) :
    ∃ c cs', cs = c :: cs' ∧ c.toNat = b.toNat ∧ bytes = encode (String.ofList cs') := by
  cases cs with
  | nil => exact absurd (h.symm.trans (encode_eq_nil_iff.mpr rfl)) (List.cons_ne_nil b bytes)
  | cons c cs =>
      rw [encode_ofList_cons] at h
      obtain ⟨first, more, hmore⟩ := List.exists_cons_of_ne_nil (String.utf8EncodeChar_ne_nil (c := c))
      rw [hmore, List.cons_append] at h
      obtain ⟨rfl, rfl⟩ := List.cons.inj h
      have hc : c.toNat = first.toNat :=
        toNat_eq_of_mem_utf8EncodeChar hb (hmore ▸ List.mem_cons_self)
      rw [utf8EncodeChar_of_lt (hc ▸ hb)] at hmore
      exact ⟨c, cs, rfl, hc, by rw [← (List.cons.inj hmore).2, List.nil_append]⟩

theorem ascii_prefix_encode_iff {start cs : List Char} (hstart : ∀ c ∈ start, c.toNat < 0x80) :
    ascii start <+: encode (String.ofList cs) ↔ start <+: cs := by
  constructor
  · rintro ⟨bytes, hbytes⟩
    induction start generalizing cs with
    | nil => exact List.nil_prefix
    | cons c start ih =>
        have hc : c.toNat < 0x80 := hstart c List.mem_cons_self
        have hoctet : (UInt8.ofNat c.toNat).toNat = c.toNat :=
          UInt8.toNat_ofNat_of_lt' (hc.trans (by decide))
        obtain ⟨d, ds, rfl, hd, hmore⟩ := exists_cons_of_encode_eq_cons (hoctet.trans_lt hc) hbytes.symm
        obtain rfl : d = c := Char.toNat_inj.mp (hd.trans hoctet)
        exact List.prefix_cons_iff.mpr (.inr ⟨start, rfl,
          ih (fun e he => hstart e (List.mem_cons_of_mem d he)) hmore⟩)
  · rintro ⟨rest, rfl⟩
    rw [encode_ofList_append, encode_ofList_of_ascii hstart]
    exact List.prefix_append _ _

theorem dropWhile_encode {c : Char} (hc : c.toNat < 0x80) (cs : List Char) :
    (encode (String.ofList cs)).dropWhile (· ≠ UInt8.ofNat c.toNat) =
      encode (String.ofList (cs.dropWhile (· ≠ c))) := by
  have hoctet : (UInt8.ofNat c.toNat).toNat = c.toNat :=
    UInt8.toNat_ofNat_of_lt' (hc.trans (by decide))
  induction cs with
  | nil => rw [List.dropWhile_nil, encode_eq_nil_iff.mpr rfl, List.dropWhile_nil]
  | cons d ds ih =>
      by_cases hd : d = c
      · subst hd
        rw [List.dropWhile_cons_of_neg (by simp), encode_ofList_cons_of_lt hc,
          List.dropWhile_cons_of_neg (by simp)]
      · have hne : ∀ b ∈ String.utf8EncodeChar d, decide (b ≠ UInt8.ofNat c.toNat) = true := by
          intro b hb
          refine decide_eq_true ?_
          rintro rfl
          have heq := toNat_eq_of_mem_utf8EncodeChar (hoctet.trans_lt hc) hb
          exact hd (Char.toNat_inj.mp (heq.trans hoctet))
        rw [List.dropWhile_cons_of_pos (by simpa using hd), encode_ofList_cons,
          List.dropWhile_append_of_pos hne, ih]

/-! ## Order -/

/-- Octets are ordered as the texts are. -/
theorem encode_lt_encode {a b : String} (h : a < b) : encode a < encode b := by
  obtain ⟨as, rfl⟩ : ∃ as, a = String.ofList as := ⟨a.toList, a.ofList_toList.symm⟩
  obtain ⟨bs, rfl⟩ : ∃ bs, b = String.ofList bs := ⟨b.toList, b.ofList_toList.symm⟩
  rw [String.lt_iff_toList_lt, String.toList_ofList, String.toList_ofList] at h
  induction as generalizing bs with
  | nil =>
      cases bs with
      | nil => exact absurd h (List.lt_irrefl [])
      | cons d ds =>
          have hempty : encode (String.ofList []) = [] := encode_eq_nil_iff.mpr rfl
          rw [hempty, encode_ofList_cons, utf8EncodeChar_eq_octets]
          obtain ⟨rest, hrest⟩ := exists_octets_eq_cons (leadOf (width d.val.toNat))
            (width d.val.toNat) d.val.toNat
          rw [hrest]
          exact List.nil_lt_cons _ _
  | cons c cs ih =>
      cases bs with
      | nil => exact absurd h (List.not_lt_nil _)
      | cons d ds =>
          rw [encode_ofList_cons, encode_ofList_cons]
          rcases List.cons_lt_cons_iff.mp h with hlt | ⟨rfl, hlt⟩
          · exact utf8EncodeChar_append_lt hlt _ _
          · exact List.append_left_lt (ih ds hlt)

end Utf8

end SourceAtlas
